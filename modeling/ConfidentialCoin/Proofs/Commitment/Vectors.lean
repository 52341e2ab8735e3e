import ConfidentialCoin.Commitment.Basis
import ConfidentialCoin.Commitment.Generators
import ConfidentialCoin.Proofs.Vectors.Table
import Mathlib.Algebra.Module.BigOperators
import Mathlib.Data.Fin.VecNotation
import Mathlib.LinearAlgebra.LinearIndependent.Basic
import Mathlib.Tactic.Abel

/-!
# Commitments to vectors

Over a module the pairings with the generators of a proof are sums over its entries
(`Generators.pairing_g`, `Generators.pairing_scaledH`), and so is `vectorCommitment`, the commitment
to one vector over `g` and one over `h`. It is linear in the blinding and the vectors.

Where the generators are linearly independent nobody can open a commitment in two ways:
`Generators.Independent.coefficients_eq` compares the coefficients of two combinations of all
generators.
-/

namespace ConfidentialCoin

open Finset

variable {F G : Type} [Field F] [AddCommGroup G] [Module F G]

theorem Basis.commit_eq [LinearCombination F G] [LawfulLinearCombination F G] (b : Basis G)
    (value blinding : F) : b.commit value blinding = value • b.value + blinding • b.blinding :=
  combine_pair ..

namespace Generators

/-- The generators `g` are the table of their entries. -/
theorem g_eq_table (gens : Generators G) :
    gens.g = table gens.capacity fun i => gens.g.getD i 0 := (table_getD rfl 0).symm

theorem h_eq_table (gens : Generators G) :
    gens.h = table gens.capacity fun i => gens.h.getD i 0 := (table_getD gens.length_h 0).symm

/-- Scaling divides generator `i` by `y ^ i`. -/
theorem scaledH_eq_table (gens : Generators G) (y : F) :
    gens.scaledH y = table gens.capacity fun i => y⁻¹ ^ i • gens.h.getD i 0 := by
  have h := zipWith_table (n := gens.capacity) (· • ·) (fun i => y⁻¹ ^ i) fun i => gens.h.getD i 0
  rwa [← ScalarVector.powers_eq_table, ← h_eq_table] at h

@[simp] theorem length_scaledH (gens : Generators G) (y : F) :
    (gens.scaledH y).length = gens.capacity := by
  rw [scaledH_eq_table, length_table]

/-! The commitments of the protocol, as sums over the entries. -/

variable {gens : Generators G} {n : ℕ} (h : gens.capacity = n) (f : ℕ → F)
include h

theorem pairing_g : pairing (table n f) gens.g = ∑ i ∈ range n, f i • gens.g.getD i 0 := by
  subst h
  have hg := pairing_table (n := gens.capacity) f fun i => gens.g.getD i 0
  rwa [← g_eq_table] at hg

theorem pairing_h : pairing (table n f) gens.h = ∑ i ∈ range n, f i • gens.h.getD i 0 := by
  subst h
  have hh := pairing_table (n := gens.capacity) f fun i => gens.h.getD i 0
  rwa [← h_eq_table] at hh

/-- Scalars over the scaled generators are divided by the powers of `y`. -/
theorem pairing_scaledH (y : F) : pairing (table n f) (gens.scaledH y) =
    ∑ i ∈ range n, (f i * y⁻¹ ^ i) • gens.h.getD i 0 := by
  subst h
  rw [scaledH_eq_table, pairing_table]
  exact sum_congr rfl fun i _ => smul_smul ..

end Generators

/-! ### The commitment -/

/-- The commitment `blinding * H + ⟨left, g⟩ + ⟨right, h⟩` to two vectors. -/
def vectorCommitment (params : Generators G) (basis : Basis G) (blinding : F)
    (left right : ℕ → F) : G :=
  blinding • basis.blinding + ∑ i ∈ range params.capacity, left i • params.g.getD i 0 +
    ∑ i ∈ range params.capacity, right i • params.h.getD i 0

section

variable (params : Generators G) (basis : Basis G) (c d : F) (left right left' right' : ℕ → F)

/-- Commitments add up as their openings do. -/
theorem vectorCommitment_add :
    vectorCommitment params basis c left right + vectorCommitment params basis d left' right' =
      vectorCommitment params basis (c + d) (fun i => left i + left' i)
        fun i => right i + right' i := by
  simp only [vectorCommitment, add_smul, sum_add_distrib]
  abel

/-- A multiple of a commitment opens to the multiples. -/
theorem smul_vectorCommitment :
    d • vectorCommitment params basis c left right =
      vectorCommitment params basis (d * c) (fun i => d * left i) fun i => d * right i := by
  simp only [vectorCommitment, smul_add, smul_sum, smul_smul]

/-- The blinding is apart from the vectors. -/
theorem vectorCommitment_eq_smul_add :
    vectorCommitment params basis c left right =
      c • basis.blinding + vectorCommitment params basis (0 : F) left right := by
  simp only [vectorCommitment, zero_smul, zero_add, add_assoc]

end

/-- The commitments to vectors, with any blinding. -/
def vectorCommitments (F : Type) {G : Type} [Field F] [AddCommGroup G] [Module F G]
    (params : Generators G) (basis : Basis G) : Submodule F G where
  carrier := {p | ∃ (c : F) (left right : ℕ → F), p = vectorCommitment params basis c left right}
  add_mem' := by
    rintro _ _ ⟨c, left, right, rfl⟩ ⟨c', left', right', rfl⟩
    exact ⟨_, _, _, vectorCommitment_add ..⟩
  zero_mem' := ⟨0, fun _ => 0, fun _ => 0, by simp [vectorCommitment]⟩
  smul_mem' := by
    rintro d _ ⟨c, left, right, rfl⟩
    exact ⟨_, _, _, smul_vectorCommitment ..⟩

/-! ### Independence -/

namespace Generators

/-- No nontrivial combination of the generators is zero. -/
def Independent (F : Type) {G : Type} [Field F] [AddCommGroup G] [Module F G] (gens : Generators G)
    (basis : Basis G) : Prop :=
  LinearIndependent F (Sum.elim ![basis.value, basis.blinding, gens.u]
    (Sum.elim (fun i : Fin gens.capacity => gens.g.getD i 0)
      fun i : Fin gens.capacity => gens.h.getD i 0))

/-- Equal combinations have equal coefficients. -/
theorem Independent.coefficients_eq {gens : Generators G} {basis : Basis G}
    (h : gens.Independent F basis) {c d e c' d' e' : F} {left right left' right' : ℕ → F}
    (heq : c • basis.value + d • gens.u + vectorCommitment gens basis e left right =
      c' • basis.value + d' • gens.u + vectorCommitment gens basis e' left' right') :
    c = c' ∧ d = d' ∧ e = e' ∧
      ∀ i < gens.capacity, left i = left' i ∧ right i = right' i := by
  -- The difference of the two sides is a combination that vanishes.
  have hsum : ∑ i, Sum.elim ![c - c', e - e', d - d'] (Sum.elim
      (fun i : Fin gens.capacity => left i - left' i)
      fun i : Fin gens.capacity => right i - right' i) i •
        Sum.elim ![basis.value, basis.blinding, gens.u]
          (Sum.elim (fun i : Fin gens.capacity => gens.g.getD i 0)
            fun i : Fin gens.capacity => gens.h.getD i 0) i = 0 := by
    have hdiff := sub_eq_zero.mpr heq
    simp only [vectorCommitment, sum_range] at hdiff
    simp only [Fintype.sum_sum_type, Sum.elim_inl, Sum.elim_inr, Fin.sum_univ_three,
      Matrix.cons_val, sub_smul, sum_sub_distrib]
    refine Eq.trans ?_ hdiff
    abel
  have hzero := Fintype.linearIndependent_iff.mp h _ hsum
  refine ⟨sub_eq_zero.mp (hzero (.inl 0)), sub_eq_zero.mp (hzero (.inl 2)),
    sub_eq_zero.mp (hzero (.inl 1)), fun i hi => ⟨?_, ?_⟩⟩
  · exact sub_eq_zero.mp (hzero (.inr (.inl ⟨i, hi⟩)))
  · exact sub_eq_zero.mp (hzero (.inr (.inr ⟨i, hi⟩)))

/-- Over independent generators a commitment, with a multiple of `u`, has one opening. -/
theorem Independent.vectorCommitment_eq {gens : Generators G} {basis : Basis G}
    (h : gens.Independent F basis) {d d' e e' : F} {left right left' right' : ℕ → F}
    (heq : d • gens.u + vectorCommitment gens basis e left right =
      d' • gens.u + vectorCommitment gens basis e' left' right') :
    d = d' ∧ ∀ i < gens.capacity, left i = left' i ∧ right i = right' i := by
  have hfull : (0 : F) • basis.value + d • gens.u + vectorCommitment gens basis e left right =
      (0 : F) • basis.value + d' • gens.u + vectorCommitment gens basis e' left' right' := by
    rwa [zero_smul, zero_add, zero_add]
  obtain ⟨-, hd, -, hvectors⟩ := h.coefficients_eq hfull
  exact ⟨hd, hvectors⟩

/-- Over an independent basis a commitment to a value has one value. -/
theorem Independent.basis_eq {gens : Generators G} {basis : Basis G}
    (h : gens.Independent F basis) {c c' e e' : F}
    (heq : c • basis.value + e • basis.blinding = c' • basis.value + e' • basis.blinding) :
    c = c' := by
  have hblinding : ∀ e : F, vectorCommitment gens basis e (fun _ => 0) (fun _ => 0) =
      e • basis.blinding := by
    intro e
    simp [vectorCommitment]
  have hfull : c • basis.value + (0 : F) • gens.u +
      vectorCommitment gens basis e (fun _ => 0) (fun _ => 0) =
        c' • basis.value + (0 : F) • gens.u +
          vectorCommitment gens basis e' (fun _ => 0) (fun _ => 0) := by
    rwa [hblinding, hblinding, zero_smul, add_zero, add_zero]
  exact (h.coefficients_eq hfull).1

end Generators

end ConfidentialCoin
