import Mathlib.Algebra.GroupWithZero.Units.Fintype
import Mathlib.Algebra.Module.Submodule.Basic
import Mathlib.Algebra.Module.BigOperators
import Mathlib.LinearAlgebra.Matrix.NonsingularInverse
import Mathlib.LinearAlgebra.Vandermonde

/-!
# Distinct challenges

An extractor runs a prover on several challenges and solves for what the prover knows.
`ForDistinct n P` says that `P` holds of `n` distinct challenges, none of them zero; trees of
challenges are nested statements of this form.

The solving is one lemma, `ForDistinct.coefficient_mem`: a polynomial of `n` coefficients in a
module, with values in a submodule at `n` distinct points, has its coefficients in the submodule.
-/

namespace ConfidentialCoin

open Finset

variable {F M : Type} [Field F] {n : ℕ}

/-- The property holds of `n` distinct challenges that are not zero. -/
def ForDistinct (n : ℕ) (P : F → Prop) : Prop :=
  ∃ c : Fin n → F, Function.Injective c ∧ ∀ i, c i ≠ 0 ∧ P (c i)

namespace ForDistinct

/-- What follows from a property at enough places holds at enough places. -/
theorem mono {P Q : F → Prop} (h : ForDistinct n P) (hPQ : ∀ x, x ≠ 0 → P x → Q x) :
    ForDistinct n Q := by
  obtain ⟨c, hc, hP⟩ := h
  exact ⟨c, hc, fun i => ⟨(hP i).1, hPQ _ (hP i).1 (hP i).2⟩⟩

theorem exists_of_pos {P : F → Prop} (h : ForDistinct n P) (hn : 0 < n) : ∃ x ≠ 0, P x := by
  obtain ⟨c, -, hP⟩ := h
  exact ⟨c ⟨0, hn⟩, hP ⟨0, hn⟩⟩

/-- Enough places for a polynomial of degree one are two. -/
theorem exists_pair {P : F → Prop} (h : ForDistinct 2 P) : ∃ x y, x ≠ y ∧ P x ∧ P y := by
  obtain ⟨c, hc, hP⟩ := h
  exact ⟨c 0, c 1, hc.ne (by decide), (hP 0).2, (hP 1).2⟩

/-- What holds of every nonzero challenge holds of as many as the field has. -/
theorem of_forall {P : F → Prop} (hn : n < Nat.card F) (h : ∀ x, x ≠ 0 → P x) :
    ForDistinct n P := by
  have := Nat.finite_of_card_ne_zero (Nat.ne_zero_of_lt hn)
  have := Fintype.ofFinite F
  have := Fintype.ofFinite Fˣ
  have hcard : Fintype.card (Fin n) ≤ Fintype.card Fˣ := by
    rw [Fintype.card_fin, ← Nat.card_eq_fintype_card, Nat.card_units]
    exact Nat.le_pred_of_lt hn
  obtain ⟨c⟩ := Function.Embedding.nonempty_of_card_le hcard
  exact ⟨fun i => c i, fun i j hij => c.injective (Units.ext hij),
    fun i => ⟨(c i).ne_zero, h _ (c i).ne_zero⟩⟩

variable [AddCommGroup M] [Module F M]

/-- **Interpolation.** The coefficients lie where the values do. -/
theorem coefficient_mem (K : Submodule F M) {a : ℕ → M}
    (h : ForDistinct n fun x : F => ∑ j ∈ range n, x ^ j • a j ∈ K) {j : ℕ} (hj : j < n) :
    a j ∈ K := by
  obtain ⟨c, hc, hmem⟩ := h
  let V := Matrix.vandermonde c
  have hV : V⁻¹ * V = 1 := Matrix.nonsing_inv_mul V
    (isUnit_iff_ne_zero.mpr (Matrix.det_vandermonde_ne_zero_iff.mpr hc))
  -- The inverse of the matrix of powers takes the values back to the coefficients.
  have hsolve : a j = ∑ i, V⁻¹ ⟨j, hj⟩ i • ∑ k ∈ range n, c i ^ k • a k := by
    have hrow : ∀ k : Fin n, ∑ i, V⁻¹ ⟨j, hj⟩ i * c i ^ (k : ℕ) =
        if (⟨j, hj⟩ : Fin n) = k then 1 else 0 := by
      intro k
      have hentry := congrFun (congrFun hV ⟨j, hj⟩) k
      rwa [Matrix.mul_apply, Matrix.one_apply] at hentry
    calc a j = ∑ k : Fin n, (if (⟨j, hj⟩ : Fin n) = k then (1 : F) else 0) • a k := by
          simp only [ite_smul, one_smul, zero_smul, sum_ite_eq, mem_univ, if_true]
      _ = ∑ k : Fin n, ∑ i, (V⁻¹ ⟨j, hj⟩ i * c i ^ (k : ℕ)) • a k :=
          sum_congr rfl fun k _ => by rw [← hrow, sum_smul]
      _ = ∑ i, V⁻¹ ⟨j, hj⟩ i • ∑ k ∈ range n, c i ^ k • a k := by
          rw [sum_comm]
          refine sum_congr rfl fun i _ => ?_
          rw [← Fin.sum_univ_eq_sum_range, smul_sum]
          exact sum_congr rfl fun k _ => mul_smul ..
  rw [hsolve]
  exact K.sum_mem fun i _ => K.smul_mem _ (hmem i).2

/-- A polynomial of `n` coefficients that vanishes at `n` distinct points is zero. -/
theorem coefficient_eq_zero {a : ℕ → M}
    (h : ForDistinct n fun x : F => ∑ j ∈ range n, x ^ j • a j = 0) {j : ℕ} (hj : j < n) :
    a j = 0 := by
  have hbot := coefficient_mem (⊥ : Submodule F M)
    (h.mono fun x _ hx => (Submodule.mem_bot F).mpr hx) hj
  exact (Submodule.mem_bot F).mp hbot

end ForDistinct

end ConfidentialCoin
