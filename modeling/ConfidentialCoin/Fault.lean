/-!
# Broken preconditions

The operations of this library that are defined only for some arguments, indexing, sums of
products, simultaneous inversion and making room for a list, answer a `Fault` on the others. A
protocol that checks its input never shows one; that it does not is a statement about the protocol's
result.
-/

namespace ConfidentialCoin

/-- A precondition that did not hold. -/
inductive Fault where
  /-- An index past the end. -/
  | indexOutOfRange
  /-- An index computed as a difference that is below zero. -/
  | negativeIndex
  /-- Not as many scalars as group elements. -/
  | lengthsDiffer
  | zeroInverse
  /-- A list that fits in no memory. -/
  | noRoom
deriving DecidableEq, Repr

namespace Fault

def message : Fault → String
  | .indexOutOfRange => "index out of range"
  | .negativeIndex => "negative index"
  | .lengthsDiffer => "not as many scalars as group elements"
  | .zeroInverse => "inverse of zero"
  | .noRoom => "no room for a list"

end Fault

/-- The entry of a list at an index. -/
def entry {α : Type} (xs : List α) (i : Nat) : Except Fault α :=
  match xs[i]? with
  | some x => .ok x
  | none => .error .indexOutOfRange

/-- The entry of an array at an index. -/
def arrayEntry {α : Type} (xs : Array α) (i : Nat) : Except Fault α :=
  match xs[i]? with
  | some x => .ok x
  | none => .error .indexOutOfRange

/-- The difference of two numbers, as an index. -/
def indexDifference (i j : Nat) : Except Fault Nat :=
  if j ≤ i then .ok (i - j) else .error .negativeIndex

/-- Room for `count` items of `size` bytes each. No list takes up `2 ^ 63` bytes. -/
def reserve (count size : Nat) : Except Fault Unit :=
  if count * size < 1 <<< 63 then .ok () else .error .noRoom

/-- An entry is found exactly where the list has one. -/
theorem entry_eq_ok_iff {α : Type} {xs : List α} {i : Nat} {x : α} :
    entry xs i = .ok x ↔ xs[i]? = some x := by
  unfold entry
  split <;> simp_all

theorem arrayEntry_eq_ok_iff {α : Type} {xs : Array α} {i : Nat} {x : α} :
    arrayEntry xs i = .ok x ↔ xs[i]? = some x := by
  unfold arrayEntry
  split <;> simp_all

end ConfidentialCoin
