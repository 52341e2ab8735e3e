import ConfidentialCoin.Proofs.RangeProof.Format
import ConfidentialCoin.Proofs.Ristretto.Exponent

/-!
# Where a proof ends, and what is wrong with it

Both counts of a proof stand before what they count, so a string that is a proof says itself where
the proof ends: cut short it is refused as truncated, and continued it is refused for the rest.
This is what every plan does whose bytes run out or are followed by more
(`Proofs.RangeProof.Format`).

For the refusals of an arbitrary string, `layout` lists the fields that its two counts call for, and
`WireField.error?` is what is wrong with one of them, seen for itself at its place. A reader
`Reports` the first error among its fields; readers that follow one another report the first error
among the fields of both (`Reports.bind`), so the decoder reports the first one of the layout.

The main theorem is `RangeProof.decoding_delimits`.
-/

namespace ConfidentialCoin

/-! ### Fields -/

/-- The number that a byte of the string holds. -/
def countAt (input : List UInt8) (place : ℕ) : ℕ := (input.getD place 0).toNat

/-- The bytes are the encoding of some value. -/
def decodes (α : Type) [Encoding α] (bs : List UInt8) : Bool :=
  ((Bytes.ofList? 32 bs).bind fun b => (decode? b : Option α)).isSome

/-- A field of a proof. -/
inductive WireField where
  /-- A number in one byte, refused outside its bounds. -/
  | count (least most : ℕ) (refusal : Error)
  | element
  | scalar
  /-- The end of the string. -/
  | finish
deriving DecidableEq, Repr

namespace WireField

/-- The number of commitments. -/
def coins : WireField := count 1 maxCoins .commitmentCount

/-- The number of rounds. -/
def rounds : WireField := count 0 Reader.maxRounds .tooManyRounds

/-- Bytes that a field takes. -/
def width : WireField → ℕ
  | count _ _ _ => 1
  | element => 32
  | scalar => 32
  | finish => 0

/-- What is wrong with a field that starts the given bytes, if anything is. -/
def error? (F G : Type) [Encoding F] [Encoding G] (field : WireField) (input : List UInt8) :
    Option Error :=
  if input.length < field.width then some .truncated
  else match field with
    | count least most refusal =>
      if countAt input 0 < least ∨ most < countAt input 0 then some refusal else none
    | element => if decodes G (input.take 32) then none else some .notAPoint
    | scalar => if decodes F (input.take 32) then none else some .notAScalar
    | finish => if input.isEmpty then none else some .trailingBytes

/-- Fields that follow one another, each with the place where the one before it ends. -/
def located : (place : ℕ) → List WireField → List (ℕ × WireField)
  | _, [] => []
  | place, field :: fields => (place, field) :: located (place + field.width) fields

/-- Bytes that fields take together. -/
def widths (fields : List WireField) : ℕ := (fields.map width).sum

@[simp] theorem widths_append (fields fields' : List WireField) :
    widths (fields ++ fields') = widths fields + widths fields' := by
  rw [widths, List.map_append, List.sum_append, widths, widths]

@[simp] theorem widths_replicate (n : ℕ) (field : WireField) :
    widths (List.replicate n field) = n * field.width := by
  rw [widths, List.map_replicate, List.sum_replicate, smul_eq_mul]

@[simp] theorem widths_singleton (field : WireField) : widths [field] = field.width :=
  List.sum_singleton

/-- The fields of a layout, one part after the other. -/
theorem located_append (place : ℕ) (fields fields' : List WireField) :
    located place (fields ++ fields') =
      located place fields ++ located (place + widths fields) fields' := by
  induction fields generalizing place with
  | nil => rfl
  | cons field fields ih =>
    rw [List.cons_append, located, ih, located, List.cons_append, widths, widths, List.map_cons,
      List.sum_cons, Nat.add_assoc]

end WireField

/-- The fields of an argument with a number of rounds: this number, all `L`, all `R`, two scalars
and the claim. -/
def argumentFields (rounds : ℕ) : List WireField :=
  .rounds :: (List.replicate rounds .element ++ (List.replicate rounds .element ++
    [.scalar, .scalar, .element]))

/-- The fields of a proof with a number of commitments, and with an argument of a number of rounds:
the number of commitments, these, `A`, `S`, `T1`, `T2`, three scalars and the argument. -/
def proofFields (coins rounds : ℕ) : List WireField :=
  .coins :: (List.replicate coins .element ++ ([.element, .element, .element, .element] ++
    ([.scalar, .scalar, .scalar] ++ argumentFields rounds)))

/-- The fields that a string is read as, up to its end. The first byte is the number of
commitments, and the byte after these and seven further values is the number of rounds. -/
def layout (input : List UInt8) : List WireField :=
  proofFields (countAt input 0) (countAt input (1 + 32 * (countAt input 0 + 7))) ++ [.finish]

/-- The first error of fields that follow one another from a place on. -/
def firstError (F G : Type) [Encoding F] [Encoding G] (input : List UInt8) (place : ℕ)
    (fields : List WireField) : Option Error :=
  (WireField.located place fields).findSome? fun p => p.2.error? F G (input.drop p.1)

variable {F G : Type} [Encoding F] [Encoding G]

/-- The first error of two parts is that of the first part, or else that of the second. -/
theorem firstError_append (input : List UInt8) (place : ℕ) (fields fields' : List WireField) :
    firstError F G input place (fields ++ fields') =
      (firstError F G input place fields).or
        (firstError F G input (place + WireField.widths fields) fields') := by
  rw [firstError, WireField.located_append, List.findSome?_append]
  rfl

theorem firstError_singleton (input : List UInt8) (place : ℕ) (field : WireField) :
    firstError F G input place [field] = field.error? F G (input.drop place) := by
  rw [firstError, WireField.located, WireField.located, List.findSome?_cons, List.findSome?_nil]
  cases field.error? F G (input.drop place) <;> rfl

/-! ### Readers that report the first error of their fields -/

private theorem error_iff_some {α : Type} {e e' : Error} :
    (Except.error e : Except Error α) = .error e' ↔ some e = some e' := by
  rw [Except.error.injEq, Option.some.injEq]

/-- What a reader comes to at a place of a string: the first error of its fields, or a value and
what begins where the fields end. -/
structure Reports {α : Type} (F G : Type) [Encoding F] [Encoding G] (input : List UInt8)
    (place : ℕ) (fields : List WireField) (result : Except Error (α × List UInt8)) : Prop where
  /-- A refusal is the first error. -/
  error_iff : ∀ e, result = .error e ↔ firstError F G input place fields = some e
  /-- The rest begins where the fields end. -/
  rest_eq : ∀ x rest, result = .ok (x, rest) → rest = input.drop (place + WireField.widths fields)

namespace Reports

variable {α β : Type} {input : List UInt8} {place : ℕ} {fields fields' : List WireField}

/-- A value at the place reached, with no field read for it. -/
theorem done (x : α) (input : List UInt8) (place : ℕ) :
    Reports F G input place [] (.ok (x, input.drop place)) where
  error_iff := fun e => iff_of_false (by rintro ⟨⟩) (by rintro ⟨⟩)
  rest_eq := by
    rintro x rest ⟨⟩
    rfl

/-- A refusal for the first error. -/
theorem refused {e : Error} (h : firstError F G input place fields = some e) :
    Reports F G input place fields (.error e : Except Error (α × List UInt8)) := by
  refine ⟨fun e' => ?_, ?_⟩
  · rw [h]
    exact error_iff_some
  · rintro x rest ⟨⟩

/-- Where a value is read no field has an error. -/
theorem firstError_eq_none {p : α × List UInt8} {result : Except Error (α × List UInt8)}
    (h : Reports F G input place fields result) (hok : result = .ok p) :
    firstError F G input place fields = none := by
  refine Option.eq_none_iff_forall_ne_some.mpr fun e he => ?_
  cases hok.symm.trans ((h.error_iff e).mpr he)

/-- Fields without an error stand before those that a reader reports on. -/
theorem after {result : Except Error (α × List UInt8)}
    (hfirst : firstError F G input place fields = none)
    (h : Reports F G input (place + WireField.widths fields) fields' result) :
    Reports F G input place (fields ++ fields') result := by
  refine ⟨fun e => ?_, fun x rest hresult => ?_⟩
  · rw [firstError_append, hfirst, Option.none_or]
    exact h.error_iff e
  · rw [h.rest_eq x rest hresult, WireField.widths_append, Nat.add_assoc]

/-- A reader and one that goes on from where it ends report the first error of the fields of
both. -/
theorem bind {result : Except Error (α × List UInt8)}
    {next : α × List UInt8 → Except Error (β × List UInt8)}
    (h : Reports F G input place fields result)
    (hnext : ∀ x, Reports F G input (place + WireField.widths fields) fields'
      (next (x, input.drop (place + WireField.widths fields)))) :
    Reports F G input place (fields ++ fields') (result >>= next) := by
  cases hresult : result with
  | error e =>
    refine .refused ?_
    rw [firstError_append, (h.error_iff e).mp hresult, Option.some_or]
  | ok p =>
    obtain ⟨x, rest⟩ := p
    obtain rfl := h.rest_eq x rest hresult
    exact .after (h.firstError_eq_none hresult) (hnext x)

/-- A reader of one field, by what it does with the bytes from the field's place on. -/
theorem single {field : WireField} {result : Except Error (α × List UInt8)}
    (herror : ∀ e, result = .error e ↔ field.error? F G (input.drop place) = some e)
    (hrest : ∀ x rest, result = .ok (x, rest) → rest = (input.drop place).drop field.width) :
    Reports F G input place [field] result where
  error_iff := fun e => by
    rw [herror, firstError_singleton]
  rest_eq := fun x rest h => by
    rw [hrest x rest h, List.drop_drop, WireField.widths, List.map_singleton, List.sum_singleton]

end Reports

section Readers

variable (input : List UInt8) (place : ℕ)

/-- A value of 32 bytes is refused where the bytes run out, and where they encode nothing. -/
private theorem value_error_iff {α : Type} [Encoding α] {read : Bytes 32 → Except Error α}
    {refusal e : Error}
    (hread : ∀ b, read b = match decode? b with | some x => .ok x | none => .error refusal) :
    (Reader.bytes 32 input >>= fun p => read p.1 >>= fun x => .ok (x, p.2)) = .error e ↔
      (if input.length < 32 then some Error.truncated
        else if decodes α (input.take 32) then none else some refusal) = some e := by
  by_cases hlength : input.length < 32
  · rw [if_pos hlength, Reader.bytes_eq_error_iff.mpr ⟨hlength, rfl⟩]
    exact error_iff_some
  · obtain ⟨b, hb⟩ : ∃ b : Bytes 32, b.toList = input.take 32 :=
      ⟨⟨input.take 32, by rw [List.length_take]; omega⟩, rfl⟩
    have hbytes : Reader.bytes 32 input = .ok (b, input.drop 32) :=
      Reader.bytes_eq_ok_iff.mpr (by rw [hb, List.take_append_drop])
    rw [if_neg hlength, hbytes, decodes, ← hb, Bytes.ofList?_toList]
    change (read b >>= fun x => _) = _ ↔ _
    rw [hread, Option.bind_some]
    cases (decode? b : Option α) with
    | some x => exact iff_of_false (by rintro ⟨⟩) (by rintro ⟨⟩)
    | none => exact error_iff_some

private theorem value_rest {α : Type} {read : Bytes 32 → Except Error α} {x : α}
    {rest : List UInt8}
    (h : (Reader.bytes 32 input >>= fun p => read p.1 >>= fun x => .ok (x, p.2)) =
      .ok (x, rest)) : rest = input.drop 32 := by
  obtain ⟨⟨b, rest'⟩, hb, h⟩ := bind_eq_ok_iff.mp h
  obtain ⟨y, -, h⟩ := bind_eq_ok_iff.mp h
  cases h
  rw [Reader.bytes_eq_ok_iff.mp hb, List.drop_left' b.length_toList]

theorem reports_point :
    Reports F G input place [.element] (Reader.point (input.drop place) : Except Error (G × _)) :=
  .single (fun _ => value_error_iff _ fun _ => rfl) fun _ _ => value_rest _

theorem reports_scalar :
    Reports F G input place [.scalar] (Reader.scalar (input.drop place) : Except Error (F × _)) :=
  .single (fun _ => value_error_iff _ fun _ => rfl) fun _ _ => value_rest _

/-- A list of elements reports the first that is wrong. -/
theorem reports_points (n : ℕ) :
    Reports F G input place (List.replicate n .element)
      (Reader.points n (input.drop place) : Except Error (List G × _)) := by
  induction n generalizing place with
  | zero => exact .done [] input place
  | succ n ih =>
    refine (reports_point input place).bind fun p => ?_
    rw [← List.append_nil (List.replicate n WireField.element)]
    exact (ih _).bind fun ps => .done (p :: ps) input _

/-- A number outside its bounds is refused, before anything it counts is read. -/
theorem Reports.counted {α : Type} {least most : ℕ} {refusal : Error} {fields : List WireField}
    (bad : ℕ → Prop) [DecidablePred bad]
    {next : ℕ × List UInt8 → Except Error (α × List UInt8)}
    (hbad : ∀ n, bad n ↔ n < least ∨ most < n)
    (hnext : Reports F G input (place + 1) fields
      (next (countAt input place, input.drop (place + 1)))) :
    Reports F G input place (.count least most refusal :: fields)
      (Reader.count (input.drop place) >>= fun p =>
        if bad p.1 then .error refusal else next p) := by
  -- Past the end of the input there is no byte to read, so that case is apart.
  rcases Nat.lt_or_ge place input.length with hplace | hplace
  · have hdrop : input.drop place = input[place] :: input.drop (place + 1) :=
      List.drop_eq_getElem_cons hplace
    have hcount : countAt input place = input[place].toNat := by
      rw [countAt, List.getD_eq_getElem _ _ hplace]
    have hfirst : firstError F G input place [.count least most refusal] =
        if bad (countAt input place) then some refusal else none := by
      have hhere : countAt (input.drop place) 0 = countAt input place := by
        rw [hdrop, hcount]
        rfl
      have hwidth : ¬ (input.drop place).length < 1 := by
        rw [List.length_drop]
        omega
      rw [firstError_singleton, WireField.error?, WireField.width, if_neg hwidth]
      simp only [hbad, hhere]
    have hread : Reader.count (input.drop place) =
        .ok (countAt input place, input.drop (place + 1)) := by rw [hdrop, hcount]; rfl
    rw [hread]
    change Reports F G input place ([.count least most refusal] ++ fields)
      (if bad (countAt input place) then _ else _)
    by_cases h : bad (countAt input place)
    · rw [if_pos h] at hfirst ⊢
      exact .refused (by rw [firstError_append, hfirst, Option.some_or])
    · rw [if_neg h] at hfirst ⊢
      exact .after hfirst hnext
  · rw [List.drop_eq_nil_of_le hplace]
    refine .refused ?_
    rw [← List.singleton_append, firstError_append, firstError_singleton,
      List.drop_eq_nil_of_le hplace]
    rfl

/-- An argument reports the first of its fields that is wrong. -/
theorem reports_argument :
    Reports F G input place (argumentFields (countAt input place))
      (Reader.argument (input.drop place) : Except Error (InnerProductProof F G × _)) := by
  refine .counted input place (fun rounds => Reader.maxRounds < rounds) (fun n => ?_) ?_
  · omega
  refine (reports_points input _ _).bind fun l => (reports_points input _ _).bind fun r =>
    (reports_scalar input _).bind fun a => (reports_scalar input _).bind fun b =>
    (reports_point input _).bind fun p => .done _ input _

/-- A proof reports the first of its fields that is wrong; its two counts say which fields it has.
-/
theorem reports_rangeProof :
    Reports F G input 0
      (proofFields (countAt input 0) (countAt input (1 + 32 * (countAt input 0 + 7))))
      (Reader.rangeProof input : Except Error (RangeProof F G × _)) := by
  have hargument : ∀ place, place = 1 + 32 * (countAt input 0 + 7) →
      Reports F G input place (argumentFields (countAt input (1 + 32 * (countAt input 0 + 7))))
        (Reader.argument (input.drop place) : Except Error (InnerProductProof F G × _)) := by
    rintro place rfl
    exact reports_argument input _
  change Reports F G input 0 _ (Reader.rangeProof (input.drop 0))
  refine .counted input 0 (fun coins => coins = 0 ∨ maxCoins < coins) (fun n => ?_) ?_
  · omega
  rw [← List.append_nil (argumentFields _)]
  refine (reports_points input _ _).bind fun commitments => (reports_point input _).bind fun a =>
    (reports_point input _).bind fun s => (reports_point input _).bind fun t1 =>
    (reports_point input _).bind fun t2 => (reports_scalar input _).bind fun tauX =>
    (reports_scalar input _).bind fun tHat => (reports_scalar input _).bind fun mu =>
    (hargument _ ?_).bind fun argument => .done _ input _
  -- Where the argument starts: past the first count, the commitments, and seven values.
  simp only [WireField.widths_replicate, WireField.widths_singleton, WireField.width]
  omega

end Readers

namespace RangeProof

variable {input more : List UInt8} {proof : RangeProof F G}

/-- **The refusal of a string** is the first error of its layout. -/
theorem ofBytes_eq_error_iff (input : List UInt8) (e : Error) :
    (ofBytes input : Except Error (RangeProof F G)) = .error e ↔
      firstError F G input 0 (layout input) = some e := by
  have h : Reports F G input 0 _ (Reader.rangeProof input) := reports_rangeProof input
  rw [ofBytes, layout, firstError_append, firstError_singleton]
  cases hread : (Reader.rangeProof input : Except Error (RangeProof F G × _)) with
  | error e' =>
    rw [(h.error_iff e').mp hread, Option.some_or]
    exact error_iff_some
  | ok p =>
    obtain ⟨proof, rest⟩ := p
    rw [h.firstError_eq_none hread, Option.none_or, ← h.rest_eq proof rest hread]
    cases rest with
    | nil => exact iff_of_false (by rintro ⟨⟩) (by rintro ⟨⟩)
    | cons b rest => exact error_iff_some

/-! ### Shorter and longer strings -/

theorem run_of_ofBytes (h : ofBytes input = .ok proof) :
    Format.rangeProof.run input = .ok (proof, []) := by
  obtain ⟨⟨q, rest⟩, hread, h⟩ := bind_eq_ok_iff.mp h
  cases rest with
  | nil =>
    cases h
    rw [Format.run_rangeProof, hread]
  | cons b rest => cases h

/-- What is left of a proof that is cut short runs out. -/
theorem ofBytes_of_append (h : ofBytes (input ++ more) = .ok proof) (hmore : more ≠ []) :
    (ofBytes input : Except Error (RangeProof F G)) = .error .truncated := by
  have hwhole := run_of_ofBytes h
  rw [ofBytes, ← Format.run_rangeProof]
  cases hread : (Format.rangeProof : Format (RangeProof F G)).run input with
  | ok p =>
    -- A value found in the part would leave the bytes that were cut off.
    obtain ⟨q, rest⟩ := p
    have hlonger := Format.run_append_of_ok hread more
    have hrest : rest ++ more = [] :=
      congrArg Prod.snd (Except.ok.inj (hlonger.symm.trans hwhole))
    exact absurd (List.append_eq_nil_iff.mp hrest).2 hmore
  | error e =>
    rcases Format.run_append_of_error hread more with rfl | hlonger
    · rfl
    · cases hwhole.symm.trans hlonger

/-- What comes after a proof is refused. -/
theorem ofBytes_append (h : ofBytes input = .ok proof) (hmore : more ≠ []) :
    (ofBytes (input ++ more) : Except Error (RangeProof F G)) = .error .trailingBytes := by
  rw [ofBytes, ← Format.run_rangeProof, Format.run_append_of_ok (run_of_ofBytes h) more]
  cases more with
  | nil => exact absurd rfl hmore
  | cons b more => rfl

/-- **Proofs delimit themselves.** A string that is a proof is refused as truncated when it is cut
short, wherever it is cut, and refused for trailing bytes when anything follows it; so no string
that is a proof starts another one. Any string whatever is read without asking for a byte outside
it, and what it is refused for is the first error of its fields, in the order they are written. -/
theorem decoding_delimits (input : List UInt8) :
    ((∃ proof : RangeProof F G, ofBytes input = .ok proof) →
      (∀ short, short <+: input → short ≠ input →
        (ofBytes short : Except Error (RangeProof F G)) =
          .error (.invalidInput "range proof encoding truncated")) ∧
      (∀ more, more ≠ [] →
        (ofBytes (input ++ more) : Except Error (RangeProof F G)) =
          .error (.invalidInput "trailing bytes after range proof")) ∧
      ∀ other, (∃ proof : RangeProof F G, ofBytes other = .ok proof) → other <+: input →
        other = input) ∧
    ofBytesAt input = .ok (ofBytes input : Except Error (RangeProof F G)) ∧
    ∀ e, (ofBytes input : Except Error (RangeProof F G)) = .error e ↔
      firstError F G input 0 (layout input) = some e := by
  refine ⟨?_, ofBytesAt_eq_ok input, ofBytes_eq_error_iff input⟩
  rintro ⟨proof, hproof⟩
  have hshort : ∀ short, short <+: input → short ≠ input →
      (ofBytes short : Except Error (RangeProof F G)) = .error .truncated := by
    rintro short ⟨more, rfl⟩ hne
    refine ofBytes_of_append hproof ?_
    rintro rfl
    exact hne (List.append_nil short).symm
  refine ⟨hshort, fun more hmore => ofBytes_append hproof hmore, ?_⟩
  rintro other ⟨proof', hother⟩ hprefix
  by_contra hne
  cases hother.symm.trans (hshort other hprefix hne)

open Ristretto in
/-- A proof of one coin with one round, cut before its first byte and before its last, and
continued; and a string whose count is the first thing wrong with it. -/
theorem decoding_delimits_exponent :
    let proof : RangeProof Scalar Exponent := ⟨[0], 0, 0, 0, 0, 0, 0, 0, ⟨[0], [0], 0, 0, 0⟩⟩
    ofBytes proof.encoded = .ok proof ∧
      (ofBytes [] : Except Error (RangeProof Scalar Exponent)) = .error .truncated ∧
      (ofBytes proof.encoded.dropLast : Except Error (RangeProof Scalar Exponent)) =
        .error .truncated ∧
      (ofBytes (proof.encoded ++ [7]) : Except Error (RangeProof Scalar Exponent)) =
        .error .trailingBytes ∧
      (ofBytes [31, 7] : Except Error (RangeProof Scalar Exponent)) =
        .error .commitmentCount := by
  intro proof
  have hproof : ofBytes proof.encoded = .ok proof :=
    ofBytes_eq_ok_iff.mpr ⟨by decide, by decide, by decide, rfl, rfl⟩
  obtain ⟨hshort, hlong, -⟩ := (decoding_delimits proof.encoded).1 ⟨proof, hproof⟩
  refine ⟨hproof, ?_, ?_, ?_, ?_⟩
  · exact hshort [] List.nil_prefix (List.cons_ne_nil _ _).symm
  · refine hshort _ (List.dropLast_prefix _) fun h => ?_
    have hlength := congrArg List.length h
    rw [List.length_dropLast] at hlength
    exact absurd hlength (Nat.sub_one_lt (Nat.succ_ne_zero _)).ne
  · exact hlong [7] (List.cons_ne_nil _ _)
  · exact ((decoding_delimits [31, 7]).2.2 .commitmentCount).mpr rfl

end RangeProof

end ConfidentialCoin
