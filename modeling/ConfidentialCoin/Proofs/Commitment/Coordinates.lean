import ConfidentialCoin.Proofs.Commitment.Vectors
import Mathlib.LinearAlgebra.StdBasis

/-!
# Generators without relations

The soundness of the protocols needs generators that nobody knows a relation between. Here is a
group in which there is none: an element is the list of its coordinates, one for each generator, so
the generators are the unit vectors (`unitGenerators`) and linearly independent
(`independent_unitGenerators`).
-/

namespace ConfidentialCoin

variable {F : Type} [Field F] {n : ℕ}

/-- The generators of a proof of size `n` and of its basis. -/
abbrev GeneratorIndex (n : ℕ) : Type := Fin 3 ⊕ (Fin n ⊕ Fin n)

/-- Combinations of the generators, by their coordinates. -/
def Coordinates (F : Type) (n : ℕ) : Type := GeneratorIndex n → F

namespace Coordinates

instance : AddCommGroup (Coordinates F n) := inferInstanceAs (AddCommGroup (GeneratorIndex n → F))

instance : Module F (Coordinates F n) := inferInstanceAs (Module F (GeneratorIndex n → F))

instance [DecidableEq F] : DecidableEq (Coordinates F n) :=
  inferInstanceAs (DecidableEq (GeneratorIndex n → F))

instance : LinearCombination F (Coordinates F n) :=
  ⟨fun pairs => (pairs.map fun p => p.1 • p.2).sum⟩

instance : LawfulLinearCombination F (Coordinates F n) := ⟨fun _ => rfl⟩

/-- The generator with the given index. -/
def unit (i : GeneratorIndex n) : Coordinates F n := Pi.single i (1 : F)

/-- The base point is the value generator. -/
instance : BasePoint (Coordinates F n) := ⟨unit (.inl 0)⟩

/-- Every string hashes to the blinding generator. -/
instance : HashTarget (Coordinates F n) := ⟨fun _ => unit (.inl 1)⟩

end Coordinates

open Coordinates

/-- The generators of a proof, each with a coordinate of its own. -/
def unitGenerators (F : Type) [Field F] (n : ℕ) : Generators (Coordinates F n) where
  g := List.ofFn fun i => unit (.inr (.inl i))
  h := List.ofFn fun i => unit (.inr (.inr i))
  u := unit (.inl 2)
  length_h := by rw [List.length_ofFn, List.length_ofFn]

@[simp] theorem capacity_unitGenerators : (unitGenerators F n).capacity = n := List.length_ofFn

private theorem getD_ofFn {α : Type} [Zero α] (f : Fin n → α) (i : Fin n) :
    (List.ofFn f).getD i 0 = f i := by
  rw [List.getD_eq_getElem _ _ (by rw [List.length_ofFn]; exact i.isLt), List.getElem_ofFn]

/-- The generators are independent of each other and of the basis. -/
theorem independent_unitGenerators :
    (unitGenerators F n).Independent F (Basis.standard (Coordinates F n)) := by
  have hunit : LinearIndependent F (unit : GeneratorIndex n → Coordinates F n) :=
    Pi.linearIndependent_single_one _ F
  rw [Generators.Independent, capacity_unitGenerators]
  convert hunit using 1
  funext i
  rcases i with i | i | i
  · fin_cases i <;> rfl
  · exact getD_ofFn _ i
  · exact getD_ofFn _ i

end ConfidentialCoin
