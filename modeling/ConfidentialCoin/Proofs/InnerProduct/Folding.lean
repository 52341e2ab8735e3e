import ConfidentialCoin.InnerProduct.Argument
import ConfidentialCoin.Proofs.Vectors.Pairing
import Mathlib.Tactic.Abel

/-!
# Folding

All folds of the inner-product argument are instances of one operation, `fold x`, which takes a
vector to `x * lower + x⁻¹ * upper`: the left scalars and the generators `h` fold by the challenge,
the right scalars and the generators `g` by its inverse.

* **One round** (`claimValue_fold`): folding generators and scalars moves the value of the claim
  by `x² * L + x⁻² * R`, where `L` and `R` are the claims about opposite halves. The four cross
  products of a pairing of folds collapse because opposite factors meet (`pairing_fold_fold`).
* **All rounds** (`foldAll_eq`): a vector of length `2 ^ k` folds by `k` challenges to the single
  entry `⟨foldWeights xs, v⟩`. The weights of the inverse challenges are the weights backwards
  (`reverse_foldWeights`), which is why one list serves `g` and `h`. `Sized k` says that generators
  and vectors are of this length.
-/

namespace ConfidentialCoin.InnerProduct

variable {F G : Type} [Field F] [AddCommGroup G] [Module F G]

/-! ### Halves -/

section Halves

variable {α : Type} {xs : List α} {n : ℕ}

theorem lower_append_upper (xs : List α) : lower xs ++ upper xs = xs := List.take_append_drop ..

theorem length_lower (h : xs.length = 2 * n) : (lower xs).length = n := by
  rw [lower, List.length_take, h]
  omega

theorem length_upper (h : xs.length = 2 * n) : (upper xs).length = n := by
  rw [upper, List.length_drop, h]
  omega

end Halves

/-- A pairing with two vectors in a row splits where the generators do. -/
theorem pairing_append_halves {a b : List F} {g : List G} (h : a.length = (lower g).length) :
    pairing (a ++ b) g = pairing a (lower g) + pairing b (upper g) := by
  rw [← pairing_append h, lower_append_upper]

/-- A pairing is the sum of the pairings of the halves. -/
theorem pairing_halves {a : List F} {g : List G} (h : a.length = g.length) :
    pairing a g = pairing (lower a) (lower g) + pairing (upper a) (upper g) := by
  have hl : (lower a).length = (lower g).length := by simp only [lower, List.length_take, h]
  rw [← pairing_append_halves hl, lower_append_upper]

/-! ### One fold -/

/-- The vector `x * lower + x⁻¹ * upper`. -/
def fold (x : F) (v : List G) : List G :=
  List.zipWith (fun lo hi => x • lo + x⁻¹ • hi) (lower v) (upper v)

theorem length_fold (x : F) {v : List G} {n : ℕ} (h : v.length = 2 * n) :
    (fold x v).length = n := by
  rw [fold, List.length_zipWith, length_lower h, length_upper h, Nat.min_self]

theorem foldScalars_eq_fold (x : F) (v : List F) : foldScalars x x⁻¹ v = fold x v := rfl

theorem foldScalars_inv_eq_fold (x : F) (v : List F) : foldScalars x⁻¹ x v = fold x⁻¹ v := by
  rw [fold, inv_inv]
  rfl

section Points

variable [LinearCombination F G] [LawfulLinearCombination F G]

/-- Computed as a linear combination, a fold of generators is the fold. -/
theorem foldPoints_eq_fold (x : F) (ps : List G) : foldPoints x x⁻¹ ps = fold x ps := by
  simp only [foldPoints, fold, combine_pair]

theorem foldPoints_inv_eq_fold (x : F) (ps : List G) : foldPoints x⁻¹ x ps = fold x⁻¹ ps := by
  simp only [foldPoints, fold, combine_pair, inv_inv]

end Points

theorem pairing_fold_left (x : F) {a : List F} {n : ℕ} (ha : a.length = 2 * n) (g : List G) :
    pairing (fold x a) g = x • pairing (lower a) g + x⁻¹ • pairing (upper a) g :=
  pairing_blend_left x x⁻¹ ((length_lower ha).trans (length_upper ha).symm) g

theorem pairing_fold_right (x : F) (a : List F) {g : List G} {n : ℕ} (hg : g.length = 2 * n) :
    pairing a (fold x g) = x • pairing a (lower g) + x⁻¹ • pairing a (upper g) :=
  pairing_blend_right x x⁻¹ a ((length_lower hg).trans (length_upper hg).symm)

/-- Vectors that fold by opposite challenges keep their pairing, up to the pairings of opposite
halves. -/
theorem pairing_fold_fold {x : F} (hx : x ≠ 0) {a : List F} {g : List G} {n : ℕ}
    (ha : a.length = 2 * n) (hg : g.length = 2 * n) :
    pairing (fold x a) (fold x⁻¹ g) =
      pairing a g + (x * x) • pairing (lower a) (upper g) +
        (x⁻¹ * x⁻¹) • pairing (upper a) (lower g) := by
  have hxx : x * x⁻¹ = 1 := mul_inv_cancel₀ hx
  rw [pairing_fold_left x ha, pairing_fold_right _ _ hg, pairing_fold_right _ _ hg, inv_inv,
    pairing_halves (ha.trans hg.symm)]
  simp only [smul_add, smul_smul, mul_comm x⁻¹ x, hxx, one_smul]
  abel

/-! ### The claim -/

/-- What `a` and `b` claim over the generators, `⟨a, g⟩ + ⟨b, h⟩ + ⟨a, b⟩ * u`. -/
def claimValue (g h : List G) (u : G) (a b : List F) : G :=
  pairing a g + pairing b h + pairing a b • u

/-- The claim is a sum of pairings when the lengths agree. -/
theorem claim_eq_claimValue [LinearCombination F G] [LawfulLinearCombination F G] {g h : List G}
    {u : G} {a b : List F} (hg : a.length = g.length) (hh : b.length = h.length) :
    claim g h u a b = .ok (claimValue g h u a b) := by
  have hl : (a ++ b ++ [(List.zipWith (· * ·) a b).sum]).length = (g ++ h ++ [u]).length := by
    simp only [List.length_append, List.length_singleton, hg, hh]
  rw [claim, combine?_eq_pairing hl,
    pairing_append (by simp only [List.length_append, hg, hh]), pairing_append hg,
    pairing_cons, pairing_nil_left, add_zero, innerProduct_eq_pairing, claimValue]

/-- The element `L` of a round: the claim of the lower half of `a` and the upper half of `b`. -/
def leftTerm (g h : List G) (u : G) (a b : List F) : G :=
  claimValue (upper g) (lower h) u (lower a) (upper b)

/-- The element `R` of a round: the claim of the upper half of `a` and the lower half of `b`. -/
def rightTerm (g h : List G) (u : G) (a b : List F) : G :=
  claimValue (lower g) (upper h) u (upper a) (lower b)

/-- **One round.** Folding changes the claim by `x² * L + x⁻² * R`. -/
theorem claimValue_fold {x : F} (hx : x ≠ 0) {g h : List G} (u : G) {a b : List F} {n : ℕ}
    (hg : g.length = 2 * n) (hh : h.length = 2 * n) (ha : a.length = 2 * n)
    (hb : b.length = 2 * n) :
    claimValue (fold x⁻¹ g) (fold x h) u (fold x a) (fold x⁻¹ b) =
      claimValue g h u a b + (x * x) • leftTerm g h u a b +
        (x⁻¹ * x⁻¹) • rightTerm g h u a b := by
  have hag := pairing_fold_fold hx ha hg
  have hab := pairing_fold_fold hx ha hb
  -- `b` and `h` fold the other way round.
  have hbh := pairing_fold_fold (inv_ne_zero hx) hb hh
  rw [inv_inv] at hbh
  simp only [claimValue, leftTerm, rightTerm, hag, hab, hbh, smul_eq_mul]
  module

/-! ### All folds -/

/-- The vector folded by one challenge after another. -/
def foldAll : (xs : List F) → (v : List G) → List G
  | [], v => v
  | x :: xs, v => foldAll xs (fold x v)

/-- The weights with which the entries of a vector enter the fully folded one. -/
def foldWeights : (xs : List F) → List F
  | [] => [1]
  | x :: xs => (foldWeights xs).map (x * ·) ++ (foldWeights xs).map (x⁻¹ * ·)

/-- A weight for every generator that as many rounds fold to one. -/
@[simp] theorem length_foldWeights (xs : List F) : (foldWeights xs).length = 2 ^ xs.length := by
  induction xs with
  | nil => rfl
  | cons x xs ih =>
    rw [foldWeights, List.length_append, List.length_map, List.length_map, ih, List.length_cons,
      pow_succ]
    omega

/-- **All rounds.** What is left of a vector is its pairing with the weights. -/
theorem foldAll_eq {xs : List F} {v : List G} (h : v.length = 2 ^ xs.length) :
    foldAll xs v = [pairing (foldWeights xs) v] := by
  induction xs generalizing v with
  | nil =>
    obtain ⟨p, rfl⟩ := List.length_eq_one_iff.mp h
    rw [foldAll, foldWeights, pairing_cons, pairing_nil_left, one_smul, add_zero]
  | cons x xs ih =>
    have h2 : v.length = 2 * 2 ^ xs.length := by rw [h, List.length_cons, pow_succ, mul_comm]
    have hlow : ((foldWeights xs).map (x * ·)).length = (lower v).length := by
      rw [List.length_map, length_foldWeights, length_lower h2]
    rw [foldAll, ih (length_fold x h2), pairing_fold_right x _ h2, foldWeights,
      pairing_append_halves hlow, pairing_map_mul, pairing_map_mul]

/-- Inverting the challenges turns the weights around. -/
theorem reverse_foldWeights (xs : List F) :
    (foldWeights xs).reverse = foldWeights (xs.map (·⁻¹)) := by
  induction xs with
  | nil => rfl
  | cons x xs ih =>
    rw [foldWeights, List.reverse_append, ← List.map_reverse, ← List.map_reverse, ih,
      List.map_cons, foldWeights, inv_inv]

/-! ### Room for the rounds -/

section Sized

variable {k : ℕ} {g h : List G} {a b : List F}

/-- Generators and vectors for `k` rounds, each of which halves them. -/
structure Sized (k : ℕ) (g h : List G) (a b : List F) : Prop where
  g : g.length = 2 ^ k
  h : h.length = 2 ^ k
  a : a.length = 2 ^ k
  b : b.length = 2 ^ k

namespace Sized

/-- **Step.** After a round they are there for the rounds that remain. -/
theorem fold (hs : Sized (k + 1) g h a b) (x : F) :
    Sized k (fold x⁻¹ g) (fold x h) (fold x a) (fold x⁻¹ b) := by
  have htwo : 2 ^ (k + 1) = 2 * 2 ^ k := pow_succ' 2 k
  refine ⟨length_fold _ ?_, length_fold _ ?_, length_fold _ ?_, length_fold _ ?_⟩
  · rw [hs.g, htwo]
  · rw [hs.h, htwo]
  · rw [hs.a, htwo]
  · rw [hs.b, htwo]

/-- After all rounds a single entry of each is left. -/
theorem foldAll_eq (hs : Sized k g h a b) {us : List F} (hus : us.length = k) :
    foldAll (us.map (·⁻¹)) g = [pairing (foldWeights (us.map (·⁻¹))) g] ∧
      foldAll us h = [pairing (foldWeights us) h] ∧ foldAll us a = [pairing (foldWeights us) a] ∧
      foldAll (us.map (·⁻¹)) b = [pairing (foldWeights (us.map (·⁻¹))) b] := by
  subst hus
  have hinv : (us.map (·⁻¹)).length = us.length := List.length_map ..
  refine ⟨InnerProduct.foldAll_eq ?_, InnerProduct.foldAll_eq hs.h, InnerProduct.foldAll_eq hs.a,
    InnerProduct.foldAll_eq ?_⟩
  · rw [hs.g, hinv]
  · rw [hs.b, hinv]

end Sized

end Sized

end ConfidentialCoin.InnerProduct
