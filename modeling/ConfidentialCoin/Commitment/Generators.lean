import ConfidentialCoin.Error
import ConfidentialCoin.Parameters
import ConfidentialCoin.ScalarVector

/-!
# Generators of the range proof

Two lists of group elements `g`, `h` of one length and a further element `u`, none of whose
discrete logarithms anyone knows: each is the hash of a label and an index. As an element depends
on nothing else, the first `n` generators do not depend on how many were made.

* `Generators.first_ofCapacity`: a prefix of a large set is the small set.
-/

namespace ConfidentialCoin

/-- The generators of a proof. -/
structure Generators (G : Type) where
  /-- Generators for the left vector. -/
  g : List G
  /-- Generators for the right vector. -/
  h : List G
  /-- Generator for the inner product. -/
  u : G
  /-- The two lists have one length. -/
  length_h : h.length = g.length

/-- The element at an index of the labelled sequence. -/
def labelledPoint {G : Type} [HashTarget G] (label : String) (index : Nat) : G :=
  hashTo (textBytes label ++ littleEndian 8 index)

namespace Generators

variable {F G : Type}

/-- The first `capacity` generators. -/
def ofCapacity (G : Type) [HashTarget G] (capacity : Nat) : Generators G where
  g := (List.range capacity).map (labelledPoint "privacy/bulletproof/G")
  h := (List.range capacity).map (labelledPoint "privacy/bulletproof/H")
  u := labelledPoint "privacy/bulletproof/U" 0
  length_h := by simp

/-- Generators in each list. -/
def capacity (gens : Generators G) : Nat := gens.g.length

/-- The first `n` generators of each list, for `n` at most the capacity. -/
def take (gens : Generators G) (n : Nat) : Generators G where
  g := gens.g.take n
  h := gens.h.take n
  u := gens.u
  length_h := by simp [gens.length_h]

/-- The generators of a proof of size `n`. -/
def first (gens : Generators G) (n : Nat) : Except Error (Generators G) :=
  if n ≤ gens.capacity then .ok (gens.take n)
  else .error (.invalidInput "proof dimension exceeds generator capacity")

/-- The generators `y⁻ⁱ * h[i]`. -/
def scaledH [One F] [Mul F] [Inv F] [SMul F G] (gens : Generators G) (y : F) : List G :=
  List.zipWith (· • ·) (ScalarVector.powers y⁻¹ gens.capacity) gens.h

@[simp] theorem capacity_ofCapacity [HashTarget G] (c : Nat) : (ofCapacity G c).capacity = c := by
  simp [capacity, ofCapacity]

theorem capacity_take {gens : Generators G} {n : Nat} (h : n ≤ gens.capacity) :
    (gens.take n).capacity = n := by
  rw [capacity, take, List.length_take, ← capacity, Nat.min_eq_left h]

/-- The first `n` generators are given out exactly where there are so many. -/
theorem first_eq_ok_iff {gens params : Generators G} {n : Nat} :
    gens.first n = .ok params ↔ n ≤ gens.capacity ∧ gens.take n = params := by
  rw [first]
  split
  · next h => exact ⟨fun hp => ⟨h, Except.ok.inj hp⟩, fun hp => congrArg _ hp.2⟩
  · next h => exact ⟨fun hp => (nomatch hp), fun hp => absurd hp.1 h⟩

theorem first_of_le {gens : Generators G} {n : Nat} (h : n ≤ gens.capacity) :
    gens.first n = .ok (gens.take n) := if_pos h

/-- More generators than there are is the one thing that is refused. -/
theorem first_of_lt {gens : Generators G} {n : Nat} (h : gens.capacity < n) :
    gens.first n = .error (.invalidInput "proof dimension exceeds generator capacity") :=
  if_neg (Nat.not_le.mpr h)

/-- The first generators of a set do not depend on its capacity. -/
theorem first_ofCapacity [HashTarget G] {n c : Nat} (h : n ≤ c) :
    (ofCapacity G c).first n = .ok (ofCapacity G n) := by
  have hcap : n ≤ (ofCapacity G c).capacity := by rwa [capacity_ofCapacity]
  rw [first_of_le hcap]
  simp [take, ofCapacity, ← List.map_take, List.take_range, Nat.min_eq_left h]

end Generators

end ConfidentialCoin
