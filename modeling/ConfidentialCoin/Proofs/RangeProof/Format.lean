import ConfidentialCoin.Proofs.RangeProof.Codec

/-!
# Readers as plans

The readers of the codec all do one thing: they take some bytes off the front, look at them, and go
on or refuse. A `Format` is the plan of such a reader, with what comes next given as a function of
the bytes just taken, and `Format.run` is what the plan does to a byte string. Every reader of the
codec runs a plan (`run_point`, `run_points`, `run_argument`, `run_rangeProof`), so what every plan
does, they do.

* `Format.run_append_of_ok`, `Format.run_append_of_error`: what comes after the bytes that were
  taken changes nothing, unless the bytes ran out.
* `Format.runAt`: the plan carried out with a place in a fixed string, every byte fetched by its
  index. An index past the end would be a fault; `exists_runAt_eq_ok` shows that there is none, and
  that the place is where the rest begins.
-/

namespace ConfidentialCoin

/-- A plan for reading a value off the front of a byte string. -/
inductive Format (α : Type) where
  /-- The value is known. -/
  | done (x : α)
  /-- What was read is no value. -/
  | refuse (e : Error)
  /-- The next `n` bytes decide how to go on. -/
  | take (n : ℕ) (next : Bytes n → Format α)

namespace Reader

/-- Bytes that follow are left over. -/
theorem bytes_append {n : ℕ} {input rest : List UInt8} {b : Bytes n}
    (h : bytes n input = .ok (b, rest)) (more : List UInt8) :
    bytes n (input ++ more) = .ok (b, rest ++ more) := by
  rw [bytes_eq_ok_iff] at h ⊢
  rw [h, List.append_assoc]

/-- Bytes are taken where there are enough, and taking them fails for no other reason. -/
theorem bytes_eq_error_iff {n : ℕ} {input : List UInt8} {e : Error} :
    bytes n input = .error e ↔ input.length < n ∧ e = .truncated := by
  rw [bytes]
  split
  · refine iff_of_false (by rintro ⟨⟩) ?_
    omega
  · constructor
    · rintro ⟨⟩
      exact ⟨by omega, rfl⟩
    · rintro ⟨-, rfl⟩
      rfl

end Reader

namespace Format

variable {α β : Type}

/-- One plan after another. -/
def bind : Format α → (α → Format β) → Format β
  | done x, f => f x
  | refuse e, _ => refuse e
  | take n next, f => take n fun b => (next b).bind f

instance : Monad Format where
  pure := done
  bind := bind

/-- The plan carried out at the front of a byte string. -/
def run : Format α → List UInt8 → Except Error (α × List UInt8)
  | done x, input => .ok (x, input)
  | refuse e, _ => .error e
  | take n next, input => do
    let (b, rest) ← Reader.bytes n input
    (next b).run rest

/-- One format after another reads the one after the other. -/
theorem run_bind (f : Format α) (g : α → Format β) (input : List UInt8) :
    (f >>= g).run input = f.run input >>= fun p => (g p.1).run p.2 := by
  change (f.bind g).run input = _
  induction f generalizing input with
  | done x => rfl
  | refuse e => rfl
  | take n next ih =>
    rw [bind, run, run, bind_assoc]
    exact bind_congr fun p => ih p.1 p.2

/-- A verdict, with nothing to read. -/
def ofExcept : Except Error α → Format α
  | .ok x => done x
  | .error e => refuse e

/-! ### The readers of the codec -/

/-- The plan of `Reader.count`. -/
def count : Format ℕ := take 1 fun b => done b.last.toNat

theorem run_count (input : List UInt8) : count.run input = Reader.count input := by
  cases input <;> rfl

variable {F G : Type} [Encoding F] [Encoding G]

def point : Format G := take 32 fun b => ofExcept (readPoint b)

theorem run_point (input : List UInt8) :
    (point : Format G).run input = Reader.point input := by
  rw [point, run, Reader.point]
  refine bind_congr fun p => ?_
  obtain ⟨b, rest⟩ := p
  dsimp only
  cases readPoint (G := G) b <;> rfl

def scalar : Format F := take 32 fun b => ofExcept (readScalar b)

theorem run_scalar (input : List UInt8) :
    (scalar : Format F).run input = Reader.scalar input := by
  rw [scalar, run, Reader.scalar]
  refine bind_congr fun p => ?_
  obtain ⟨b, rest⟩ := p
  dsimp only
  cases readScalar (F := F) b <;> rfl

def points : ℕ → Format (List G)
  | 0 => pure []
  | n + 1 => do
    let p ← point
    let ps ← points n
    pure (p :: ps)

theorem run_points (n : ℕ) (input : List UInt8) :
    (points n : Format (List G)).run input = Reader.points n input := by
  induction n generalizing input with
  | zero => rfl
  | succ n ih =>
    simp only [points, Reader.points, run_bind, run_point, ih]
    rfl

/-- The plan of `Reader.argument`. -/
def argument : Format (InnerProductProof F G) := do
  let rounds ← count
  if Reader.maxRounds < rounds then refuse .tooManyRounds
  else
    let l ← points rounds
    let r ← points rounds
    let a ← scalar
    let b ← scalar
    let p ← point
    pure ⟨l, r, a, b, p⟩

theorem run_argument (input : List UInt8) :
    (argument : Format (InnerProductProof F G)).run input = Reader.argument input := by
  rw [argument, Reader.argument, run_bind, run_count]
  refine bind_congr fun p => ?_
  obtain ⟨rounds, rest⟩ := p
  dsimp only
  by_cases hrounds : Reader.maxRounds < rounds
  · rw [if_pos hrounds, if_pos hrounds, run]
  · rw [if_neg hrounds, if_neg hrounds]
    simp only [run_bind, run_points, run_scalar, run_point]
    rfl

/-- The plan of `Reader.rangeProof`. -/
def rangeProof : Format (RangeProof F G) := do
  let coins ← count
  if coins = 0 ∨ maxCoins < coins then refuse .commitmentCount
  else
    let commitments ← points coins
    let a ← point
    let s ← point
    let t1 ← point
    let t2 ← point
    let tauX ← scalar
    let tHat ← scalar
    let mu ← scalar
    let argument ← argument
    pure ⟨commitments, a, s, t1, t2, tauX, tHat, mu, argument⟩

/-- The format of a proof reads as its reader does, refusals included. -/
theorem run_rangeProof (input : List UInt8) :
    (rangeProof : Format (RangeProof F G)).run input = Reader.rangeProof input := by
  rw [rangeProof, Reader.rangeProof, run_bind, run_count]
  refine bind_congr fun p => ?_
  obtain ⟨coins, rest⟩ := p
  dsimp only
  by_cases hcoins : coins = 0 ∨ maxCoins < coins
  · rw [if_pos hcoins, if_pos hcoins, run]
  · rw [if_neg hcoins, if_neg hcoins]
    simp only [run_bind, run_points, run_scalar, run_point, run_argument]
    rfl

/-! ### Bytes that come after -/

/-- A plan that comes to a value finds it again in front of more bytes, and leaves these. -/
theorem run_append_of_ok {f : Format α} {input rest : List UInt8} {x : α}
    (h : f.run input = .ok (x, rest)) (more : List UInt8) :
    f.run (input ++ more) = .ok (x, rest ++ more) := by
  induction f generalizing input with
  | done y =>
    cases h
    rfl
  | refuse e => cases h
  | take n next ih =>
    obtain ⟨⟨b, input'⟩, hb, h⟩ := bind_eq_ok_iff.mp h
    exact bind_eq_ok_iff.mpr ⟨(b, input' ++ more), Reader.bytes_append hb more, ih b h⟩

/-- A refusal stands whatever bytes come after, unless the bytes had run out. -/
theorem run_append_of_error {f : Format α} {input : List UInt8} {e : Error}
    (h : f.run input = .error e) (more : List UInt8) :
    e = .truncated ∨ f.run (input ++ more) = .error e := by
  induction f generalizing input with
  | done y => cases h
  | refuse e' => exact .inr h
  | take n next ih =>
    rcases bind_eq_error_iff.mp h with hb | ⟨⟨b, input'⟩, hb, h⟩
    · exact .inl (Reader.bytes_eq_error_iff.mp hb).2
    · rcases ih b h with htruncated | h
      · exact .inl htruncated
      · exact .inr (bind_eq_error_iff.mpr (.inr ⟨(b, input' ++ more),
          Reader.bytes_append hb more, h⟩))

/-! ### Places in a fixed string -/

/-- The `n` bytes of a string from a place on, each fetched by its index. -/
def fetch (input : List UInt8) : (place n : ℕ) → Except Fault (Bytes n)
  | _, 0 => .ok ⟨[], rfl⟩
  | place, n + 1 => do
    let b ← entry input place
    let bs ← fetch input (place + 1) n
    .ok ⟨b :: bs.toList, by rw [List.length_cons, bs.length_toList]⟩

/-- Bytes that are all there are fetched as the next bytes of what begins at the place. -/
theorem exists_fetch_eq_ok {input : List UInt8} {place n : ℕ} (h : place + n ≤ input.length) :
    ∃ b, fetch input place n = .ok b ∧
      Reader.bytes n (input.drop place) = .ok (b, input.drop (place + n)) := by
  induction n generalizing place with
  | zero => exact ⟨_, rfl, Reader.bytes_eq_ok_iff.mpr rfl⟩
  | succ n ih =>
    obtain ⟨bs, hbs, hrest⟩ := @ih (place + 1) (by omega)
    have hplace : place < input.length := by omega
    refine ⟨⟨input[place] :: bs.toList, by simp⟩, ?_, Reader.bytes_eq_ok_iff.mpr ?_⟩
    · rw [fetch, entry_eq_ok_iff.mpr (List.getElem?_eq_getElem hplace), hbs]
      rfl
    · rw [List.drop_eq_getElem_cons hplace, Reader.bytes_eq_ok_iff.mp hrest, List.cons_append,
        Nat.add_right_comm, Nat.add_assoc]

/-- The plan carried out from a place in a fixed string. Whether the bytes suffice is decided by
the length of the string, and only then are they fetched. -/
def runAt (input : List UInt8) : Format α → (place : ℕ) → Except Fault (Except Error (α × ℕ))
  | done x, place => .ok (.ok (x, place))
  | refuse e, _ => .ok (.error e)
  | take n next, place =>
    if input.length < place + n then .ok (.error .truncated)
    else do
      let b ← fetch input place n
      (next b).runAt input (place + n)

/-- **No byte outside the string is asked for**, and the place reached is where the rest begins. -/
theorem exists_runAt_eq_ok (f : Format α) {input : List UInt8} {place : ℕ}
    (hplace : place ≤ input.length) :
    ∃ verdict, f.runAt input place = .ok verdict ∧
      f.run (input.drop place) = verdict.map fun p => (p.1, input.drop p.2) := by
  induction f generalizing place with
  | done x => exact ⟨_, rfl, rfl⟩
  | refuse e => exact ⟨_, rfl, rfl⟩
  | take n next ih =>
    by_cases hn : input.length < place + n
    · refine ⟨.error .truncated, if_pos hn, ?_⟩
      rw [run, Reader.bytes_eq_error_iff.mpr ⟨by rw [List.length_drop]; omega, rfl⟩]
      rfl
    · obtain ⟨b, hfetch, hbytes⟩ := exists_fetch_eq_ok (Nat.le_of_not_lt hn)
      obtain ⟨verdict, hverdict, hrun⟩ := ih b (Nat.le_of_not_lt hn)
      refine ⟨verdict, ?_, ?_⟩
      · rw [runAt, if_neg hn, hfetch]
        exact hverdict
      · rw [run, hbytes]
        exact hrun

end Format

/-- Reading a proof by places: the whole string is kept, and every byte is fetched by its index. -/
def RangeProof.ofBytesAt {F G : Type} [Encoding F] [Encoding G] (input : List UInt8) :
    Except Fault (Except Error (RangeProof F G)) := do
  let verdict ← Format.rangeProof.runAt input 0
  .ok (verdict >>= fun p => if p.2 < input.length then .error .trailingBytes else .ok p.1)

/-- Reading by places comes to what reading off the front comes to, and never to a fault. -/
theorem RangeProof.ofBytesAt_eq_ok {F G : Type} [Encoding F] [Encoding G] (input : List UInt8) :
    ofBytesAt input = .ok (ofBytes input : Except Error (RangeProof F G)) := by
  obtain ⟨verdict, hverdict, hrun⟩ :=
    Format.exists_runAt_eq_ok (Format.rangeProof : Format (RangeProof F G)) input.length.zero_le
  rw [List.drop_zero, Format.run_rangeProof] at hrun
  rw [ofBytesAt, hverdict, ofBytes, hrun]
  cases verdict with
  | error e => rfl
  | ok p =>
    by_cases hplace : p.2 < input.length
    · have hrest : ¬ (input.drop p.2).isEmpty := by simpa using hplace
      exact congrArg Except.ok ((if_pos hplace).trans (if_neg hrest).symm)
    · have hrest : (input.drop p.2).isEmpty := by simpa using hplace
      exact congrArg Except.ok ((if_neg hplace).trans (if_pos hrest).symm)

end ConfidentialCoin
