import ConfidentialCoin.Proofs.RangeProof.Codec
import ConfidentialCoin.Proofs.Ristretto.Exponent

/-!
# Writing is all or nothing

A writer extends a buffer by one field after another, and may refuse at any point; what it has
appended by then stays in the buffer. A `Writing` is the plan of such a writer, and `Writing.run` is
what it does to a buffer. An argument is written into the buffer of somebody else, so its plan asks
both its questions before it appends anything (`InnerProductProof.run_writing`): it extends the
buffer by the whole argument, of the length that was announced, or leaves it alone. The plan of a
proof refuses in the middle too, but its buffer is its own and is then dropped
(`RangeProof.bytes?_writing`).

The lengths are those of the fields, 32 bytes each and one for each count
(`InnerProductProof.length_encoded`, `RangeProof.length_encoded`), which gives
`RangeProof.writing_exact`.
-/

namespace ConfidentialCoin

/-! ### Plans -/

/-- A plan for extending a buffer. -/
inductive Writing where
  /-- All is written. -/
  | done
  /-- The value has no encoding. -/
  | refuse (e : Error)
  /-- The bytes come next. -/
  | append (bytes : List UInt8) (next : Writing)

namespace Writing

/-- The plan carried out on a buffer. What was appended before a refusal stays. -/
def run : Writing → List UInt8 → Except Error Unit × List UInt8
  | done, buffer => (.ok (), buffer)
  | refuse e, buffer => (.error e, buffer)
  | append bytes next, buffer => next.run (buffer ++ bytes)

/-- What is written into a buffer of its own. A refusal drops it. -/
def bytes? (w : Writing) : Except Error (List UInt8) := (w.run []).1.map fun _ => (w.run []).2

/-- The encodings of values one by one, and then the plan. -/
def appendAll {α : Type} [Encoding α] : List α → Writing → Writing
  | [], next => next
  | x :: xs, next => append (encode x).toList (appendAll xs next)

/-- Appending a list is appending its encodings in a row. -/
theorem run_appendAll {α : Type} [Encoding α] (xs : List α) (next : Writing)
    (buffer : List UInt8) :
    (appendAll xs next).run buffer = next.run (buffer ++ encodeAll xs) := by
  induction xs generalizing buffer with
  | nil => rw [appendAll, encodeAll_nil, List.append_nil]
  | cons x xs ih => rw [appendAll, run, ih, encodeAll_cons, List.append_assoc]

/-- A writer takes nothing out of the buffer, and does not look at it. -/
theorem exists_run_eq (w : Writing) :
    ∃ verdict new, ∀ buffer, w.run buffer = (verdict, buffer ++ new) := by
  induction w with
  | done => exact ⟨.ok (), [], fun buffer => by rw [run, List.append_nil]⟩
  | refuse e => exact ⟨.error e, [], fun buffer => by rw [run, List.append_nil]⟩
  | append bytes next ih =>
    obtain ⟨verdict, new, hrun⟩ := ih
    exact ⟨verdict, bytes ++ new, fun buffer => by rw [run, hrun, List.append_assoc]⟩

end Writing

variable {F G : Type} [Encoding F] [Encoding G]

/-! ### The argument -/

namespace InnerProductProof

variable {arg : InnerProductProof F G}

/-- The plan of `write`. -/
def writing (arg : InnerProductProof F G) : Writing :=
  if 255 < arg.l.length then .refuse .tooManyRounds
  else if arg.r.length ≠ arg.l.length then
    .refuse (.lengthMismatch arg.l.length arg.r.length)
  else
    .append [arg.l.length.toUInt8] (.appendAll (arg.l ++ arg.r)
      (.append (encode arg.a).toList (.append (encode arg.b).toList
        (.append (encode arg.p).toList .done))))

/-- **The buffer of an argument** is extended by all fields or by none. -/
theorem run_writing (arg : InnerProductProof F G) (buffer : List UInt8) :
    arg.writing.run buffer = arg.write buffer := by
  rw [writing, write]
  split_ifs
  · rfl
  · rfl
  · simp only [Writing.run, Writing.run_appendAll, encodeAll_cons, encodeAll_nil, List.append_nil,
      List.append_assoc]

/-- More rounds than a byte counts are refused before anything is written. -/
theorem write_eq_tooManyRounds (h : 255 < arg.l.length) (buffer : List UInt8) :
    arg.write buffer = (.error .tooManyRounds, buffer) := if_pos h

/-- Lists of different lengths are refused before anything is written, and both lengths are named.
-/
theorem write_eq_lengthMismatch (hle : arg.l.length ≤ 255) (h : arg.r.length ≠ arg.l.length)
    (buffer : List UInt8) :
    arg.write buffer = (.error (.lengthMismatch arg.l.length arg.r.length), buffer) :=
  (if_neg (Nat.not_lt.mpr hle)).trans (if_pos h)

/-- What is not refused is written out after what is there. -/
theorem write_eq_ok (hle : arg.l.length ≤ 255) (h : arg.r.length = arg.l.length)
    (buffer : List UInt8) : arg.write buffer = (.ok (), buffer ++ arg.encoded) := by
  rw [write, if_neg (Nat.not_lt.mpr hle), if_neg (not_not_intro h), encoded]
  simp only [encodeAll_append, encodeAll_cons, encodeAll_nil, List.append_nil, List.append_assoc,
    List.cons_append, List.nil_append]

/-- The two counts decide whether an argument is written. -/
theorem write_fst_eq_ok_iff {buffer : List UInt8} :
    (arg.write buffer).1 = .ok () ↔ arg.l.length ≤ 255 ∧ arg.r.length = arg.l.length := by
  constructor
  · intro hok
    by_contra hrefused
    rcases Nat.lt_or_ge 255 arg.l.length with hrounds | hrounds
    · rw [write_eq_tooManyRounds hrounds] at hok
      cases hok
    · rw [write_eq_lengthMismatch hrounds fun h => hrefused ⟨hrounds, h⟩] at hok
      cases hok
  · rintro ⟨hle, h⟩
    rw [write_eq_ok hle h]

/-- The length of an argument whose lists may differ. -/
theorem length_encoded (arg : InnerProductProof F G) :
    arg.encoded.length = 1 + 32 * arg.l.length + 32 * arg.r.length + 96 := by
  simp only [encoded, List.length_cons, List.length_append, length_encodeAll, Bytes.length_toList]
  omega

/-- The length announced is that of an argument with as many `L` as `R`. -/
theorem length_encoded_eq (h : arg.r.length = arg.l.length) :
    arg.encoded.length = arg.encodedLength := by
  have hpoint : pointSize = 32 := rfl
  have hscalar : scalarSize = 32 := rfl
  rw [length_encoded, encodedLength, h, hpoint, hscalar]
  omega

end InnerProductProof

/-! ### The proof -/

namespace RangeProof

variable {proof : RangeProof F G}

/-- The plan of `toBytes`. -/
def writing (proof : RangeProof F G) : Writing :=
  if 255 < proof.commitments.length then .refuse .commitmentCount
  else
    .append [proof.commitments.length.toUInt8] (.appendAll proof.commitments
      (.appendAll [proof.a, proof.s, proof.t1, proof.t2]
        (.appendAll [proof.tauX, proof.tHat, proof.mu] proof.argument.writing)))

/-- **The buffer of a proof** is given out if nothing was refused. -/
theorem bytes?_writing (proof : RangeProof F G) : proof.writing.bytes? = proof.toBytes := by
  rw [Writing.bytes?, writing, toBytes]
  split_ifs
  · rfl
  · simp only [Writing.run, Writing.run_appendAll, InnerProductProof.run_writing, List.nil_append]
    generalize proof.argument.write _ = out
    obtain ⟨verdict, bytes⟩ := out
    cases verdict <;> rfl

theorem length_encoded (proof : RangeProof F G) :
    proof.encoded.length = 225 + 32 * proof.commitments.length + proof.argument.encoded.length := by
  simp only [encoded, List.length_cons, List.length_append, length_encodeAll, Bytes.length_toList]
  omega

theorem toBytes_eq_commitmentCount (h : 255 < proof.commitments.length) :
    proof.toBytes = .error .commitmentCount := if_pos h

/-- What refuses the argument refuses the proof, if its commitments are not too many. -/
theorem toBytes_of_write (hcoins : proof.commitments.length ≤ 255) {buffer : List UInt8} {e : Error}
    (he : (proof.argument.write buffer).1 = .error e) : proof.toBytes = .error e := by
  obtain ⟨verdict, new, hrun⟩ := proof.argument.writing.exists_run_eq
  simp only [InnerProductProof.run_writing] at hrun
  rw [hrun] at he
  subst he
  rw [toBytes, if_neg (Nat.not_lt.mpr hcoins)]
  simp only [hrun]

/-- **Writing.** An argument of at most 255 rounds with as many `L` as `R`, and no other, extends a
buffer, whatever this holds; by exactly the length announced. Another one is refused for its rounds
if these are too many, and else for its two lengths, and the buffer is what it was. A proof has
bytes exactly if its commitments are at most 255 too, which is what is asked first; the bytes are
225, 32 for each commitment, and those of the argument. Both are what appending field after field
comes to. -/
theorem writing_exact :
    (∀ (arg : InnerProductProof F G) (buffer : List UInt8),
      ((arg.write buffer).1 = .ok () ↔ arg.l.length ≤ 255 ∧ arg.r.length = arg.l.length) ∧
      ((arg.write buffer).1 = .ok () → ∃ new, (arg.write buffer).2 = buffer ++ new ∧
        new.length = arg.encodedLength) ∧
      (255 < arg.l.length → arg.write buffer =
        (.error (.invalidInput "inner product proof has too many rounds"), buffer)) ∧
      (arg.l.length ≤ 255 → arg.r.length ≠ arg.l.length → arg.write buffer =
        (.error (.lengthMismatch arg.l.length arg.r.length), buffer)) ∧
      arg.writing.run buffer = arg.write buffer) ∧
    ∀ proof : RangeProof F G,
      ((∃ bytes, proof.toBytes = .ok bytes) ↔ proof.commitments.length ≤ 255 ∧
        proof.argument.l.length ≤ 255 ∧
          proof.argument.r.length = proof.argument.l.length) ∧
      (∀ bytes, proof.toBytes = .ok bytes → bytes.length =
        225 + 32 * proof.commitments.length + proof.argument.encodedLength) ∧
      (255 < proof.commitments.length → proof.toBytes =
        .error (.invalidInput "number of value commitments out of range")) ∧
      (proof.commitments.length ≤ 255 → ∀ buffer e,
        (proof.argument.write buffer).1 = .error e → proof.toBytes = .error e) ∧
      proof.writing.bytes? = proof.toBytes := by
  refine ⟨fun arg buffer => ⟨InnerProductProof.write_fst_eq_ok_iff, fun hok => ?_,
    fun h => InnerProductProof.write_eq_tooManyRounds h buffer,
    fun hle h => InnerProductProof.write_eq_lengthMismatch hle h buffer, arg.run_writing buffer⟩,
    fun proof => ⟨?_, fun bytes hbytes => ?_, toBytes_eq_commitmentCount,
      fun hcoins buffer e => toBytes_of_write hcoins, proof.bytes?_writing⟩⟩
  · obtain ⟨hle, hlength⟩ := InnerProductProof.write_fst_eq_ok_iff.mp hok
    refine ⟨arg.encoded, ?_, InnerProductProof.length_encoded_eq hlength⟩
    rw [InnerProductProof.write_eq_ok hle hlength]
  · constructor
    · rintro ⟨bytes, hbytes⟩
      obtain ⟨hcoins, hle, hlength, -⟩ := toBytes_eq_ok_iff.mp hbytes
      exact ⟨hcoins, hle, hlength⟩
    · rintro ⟨hcoins, hle, hlength⟩
      exact ⟨proof.encoded, toBytes_eq_ok_iff.mpr ⟨hcoins, hle, hlength, rfl⟩⟩
  · obtain ⟨-, -, hlength, rfl⟩ := toBytes_eq_ok_iff.mp hbytes
    rw [length_encoded, InnerProductProof.length_encoded_eq hlength]

open Ristretto in
/-- Arguments of two rounds, of a round too many and of two lists that differ, and the proofs that
hold them; too many commitments come before the lists that differ. -/
theorem writing_exact_exponent :
    let arg (l r : ℕ) : InnerProductProof Scalar Exponent :=
      ⟨List.replicate l basePoint, List.replicate r 0, 1, 2, basePoint⟩
    let proof (coins l r : ℕ) : RangeProof Scalar Exponent :=
      ⟨List.replicate coins 0, 0, 0, 0, 0, 0, 0, 0, arg l r⟩
    (∃ new, ((arg 2 2).write [7]).2 = [7] ++ new ∧ new.length = 225) ∧
      (arg 256 0).write [7] =
        (.error (.invalidInput "inner product proof has too many rounds"), [7]) ∧
      (arg 2 1).write [7] = (.error (.lengthMismatch 2 1), [7]) ∧
      (∃ bytes, (proof 3 2 2).toBytes = .ok bytes ∧ bytes.length = 546) ∧
      (proof 256 2 1).toBytes =
        .error (.invalidInput "number of value commitments out of range") ∧
      (proof 3 2 1).toBytes = .error (.lengthMismatch 2 1) := by
  intro arg proof
  obtain ⟨hwrite, hbytes⟩ := writing_exact (F := Scalar) (G := Exponent)
  obtain ⟨new, hnew⟩ := (hwrite (arg 2 2) [7]).2.1
    ((hwrite (arg 2 2) [7]).1.mpr ⟨by decide, rfl⟩)
  have hmany := (hwrite (arg 256 0) [7]).2.2.1 (by rw [List.length_replicate]; decide)
  have hdiffer := (hwrite (arg 2 1) [7]).2.2.2.1 (by decide) (by decide)
  obtain ⟨bytes, hok⟩ := (hbytes (proof 3 2 2)).1.mpr ⟨by decide, by decide, rfl⟩
  refine ⟨⟨new, hnew⟩, hmany, hdiffer, ⟨bytes, hok, (hbytes (proof 3 2 2)).2.1 bytes hok⟩, ?_, ?_⟩
  · exact (hbytes (proof 256 2 1)).2.2.1 (by rw [List.length_replicate]; decide)
  · exact (hbytes (proof 3 2 1)).2.2.2.1 (by decide) [7] _ (congrArg Prod.fst hdiffer)

end RangeProof

end ConfidentialCoin
