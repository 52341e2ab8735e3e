import ConfidentialCoin.Parameters
import ConfidentialCoin.RangeProof.Basic

/-!
# Range proofs as bytes

A proof is written as the number of commitments in one byte, the commitments, `A`, `S`, `T1`,
`T2`, the three scalars, the number of rounds in one byte, all `L`, all `R`, the two scalars of the
argument and its claim. Every element and scalar takes 32 bytes, so each count says where the next
field starts, and reading stops exactly where writing did.

* `InnerProductProof.write` extends a buffer by the argument, or leaves it alone.
* `RangeProof.toBytes` writes and `RangeProof.ofBytes` reads; reading wants 1 to 30 commitments
  and at most 31 rounds, canonical encodings, and nothing after the proof.
-/

namespace ConfidentialCoin

namespace Error

/-- The bytes end before the proof does. -/
def truncated : Error := .invalidInput "range proof encoding truncated"

/-- The proof ends before the bytes do. -/
def trailingBytes : Error := .invalidInput "trailing bytes after range proof"

/-- There are no commitments, or more than may be. -/
def commitmentCount : Error := .invalidInput "number of value commitments out of range"

/-- There are more rounds than may be. -/
def tooManyRounds : Error := .invalidInput "inner product proof has too many rounds"

end Error

variable {F G : Type} [Encoding F] [Encoding G]

/-- The encodings of values, one after another. -/
def encodeAll {α : Type} [Encoding α] (xs : List α) : List UInt8 :=
  xs.flatMap fun x => (encode x).toList

@[simp] theorem length_encodeAll {α : Type} [Encoding α] (xs : List α) :
    (encodeAll xs).length = 32 * xs.length := by
  induction xs with
  | nil => rfl
  | cons x xs ih => simp only [encodeAll, List.flatMap_cons, List.length_append,
      Bytes.length_toList, List.length_cons] at ih ⊢; omega

/-! ### Writing -/

namespace InnerProductProof

/-- Folding rounds of the argument. -/
def rounds (proof : InnerProductProof F G) : Nat := proof.l.length

/-- Bytes that the argument takes. -/
def encodedLength (proof : InnerProductProof F G) : Nat :=
  1 + 2 * proof.l.length * pointSize + 2 * scalarSize + pointSize

/-- Extends a buffer by the argument. An argument whose rounds do not fit a byte, or whose two
lists of elements differ in length, is refused and leaves the buffer as it is. -/
def write (proof : InnerProductProof F G) (buffer : List UInt8) :
    Except Error Unit × List UInt8 :=
  if 255 < proof.l.length then (.error .tooManyRounds, buffer)
  else if proof.r.length ≠ proof.l.length then
    (.error (.lengthMismatch proof.l.length proof.r.length), buffer)
  else
    (.ok (), buffer ++ [proof.l.length.toUInt8] ++ encodeAll (proof.l ++ proof.r) ++
      encodeAll [proof.a, proof.b] ++ (encode proof.p).toList)

end InnerProductProof

/-- The bytes of a proof. -/
def RangeProof.toBytes (proof : RangeProof F G) : Except Error (List UInt8) :=
  if 255 < proof.commitments.length then .error .commitmentCount
  else
    let outer := [proof.commitments.length.toUInt8] ++ encodeAll proof.commitments ++
      encodeAll [proof.a, proof.s, proof.t1, proof.t2] ++
      encodeAll [proof.tauX, proof.tHat, proof.mu]
    match proof.argument.write outer with
    | (.ok (), bytes) => .ok bytes
    | (.error e, _) => .error e

/-! ### Reading

Each reader takes its field off the front of the bytes and hands on the rest. -/

namespace Reader

/-- Most rounds of a proof that is read. -/
def maxRounds : Nat := 31

/-- The next `n` bytes. -/
def bytes (n : Nat) (input : List UInt8) : Except Error (Bytes n × List UInt8) :=
  if h : n ≤ input.length then
    .ok (⟨input.take n, by rw [List.length_take, Nat.min_eq_left h]⟩, input.drop n)
  else .error .truncated

/-- The next byte as a number. -/
def count : (input : List UInt8) → Except Error (Nat × List UInt8)
  | [] => .error .truncated
  | b :: rest => .ok (b.toNat, rest)

/-- The next group element. -/
def point (input : List UInt8) : Except Error (G × List UInt8) := do
  let (b, rest) ← bytes 32 input
  let p ← readPoint b
  .ok (p, rest)

/-- The next scalar. -/
def scalar (input : List UInt8) : Except Error (F × List UInt8) := do
  let (b, rest) ← bytes 32 input
  let x ← readScalar b
  .ok (x, rest)

/-- The next `n` group elements. -/
def points : (n : Nat) → (input : List UInt8) → Except Error (List G × List UInt8)
  | 0, input => .ok ([], input)
  | n + 1, input => do
    let (p, rest) ← point input
    let (ps, rest) ← points n rest
    .ok (p :: ps, rest)

/-- An inner-product argument. -/
def argument (input : List UInt8) : Except Error (InnerProductProof F G × List UInt8) := do
  let (rounds, input) ← count input
  if maxRounds < rounds then .error .tooManyRounds
  else
    let (l, input) ← points rounds input
    let (r, input) ← points rounds input
    let (a, input) ← scalar input
    let (b, input) ← scalar input
    let (p, input) ← point input
    .ok (⟨l, r, a, b, p⟩, input)

/-- A range proof. -/
def rangeProof (input : List UInt8) : Except Error (RangeProof F G × List UInt8) := do
  let (coins, input) ← count input
  if coins = 0 ∨ maxCoins < coins then .error .commitmentCount
  else
    let (commitments, input) ← points coins input
    let (a, input) ← point input
    let (s, input) ← point input
    let (t1, input) ← point input
    let (t2, input) ← point input
    let (tauX, input) ← scalar input
    let (tHat, input) ← scalar input
    let (mu, input) ← scalar input
    let (argument, input) ← argument input
    .ok (⟨commitments, a, s, t1, t2, tauX, tHat, mu, argument⟩, input)

end Reader

/-- The proof with the given bytes, all of them. -/
def RangeProof.ofBytes (input : List UInt8) : Except Error (RangeProof F G) := do
  let (proof, rest) ← Reader.rangeProof input
  if rest.isEmpty then .ok proof else .error .trailingBytes

end ConfidentialCoin
