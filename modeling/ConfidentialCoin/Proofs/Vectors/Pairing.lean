import ConfidentialCoin.Group
import Mathlib.Algebra.BigOperators.Group.List.Basic
import Mathlib.Algebra.Module.Basic
import Mathlib.Tactic.Module

/-!
# Pairings

`pairing a g` is the sum `⟨a, g⟩` of the products of scalars and group elements in the same places.
Over a module every commitment of the protocols is a pairing, or a sum of a few: `combine` computes
one (`combine_zip`), and so does `combine?` on lists of one length (`combine?_eq_pairing`).

The pairing is linear on both sides. What the folding rounds need of that is one lemma for each
side, `pairing_blend_left` and `pairing_blend_right`; the elements being scaled one by one moves to
the scalars (`pairing_scale_right`). With the scalars themselves as the module, `pairing` is the
inner product of two vectors (`innerProduct_eq_pairing`).
-/

namespace ConfidentialCoin

variable {F G : Type}

/-- The sum `⟨a, g⟩` of the products of scalars and elements in the same places. -/
def pairing [Zero G] [Add G] [SMul F G] (a : List F) (g : List G) : G :=
  (List.zipWith (· • ·) a g).sum

section Module

variable [Field F] [AddCommGroup G] [Module F G]

@[simp] theorem pairing_nil_left (g : List G) : pairing ([] : List F) g = 0 := rfl

@[simp] theorem pairing_nil_right (a : List F) : pairing a ([] : List G) = 0 := by
  rw [pairing, List.zipWith_nil_right, List.sum_nil]

@[simp] theorem pairing_cons (x : F) (a : List F) (p : G) (g : List G) :
    pairing (x :: a) (p :: g) = x • p + pairing a g := by
  rw [pairing, List.zipWith_cons_cons, List.sum_cons, pairing]

/-- Vectors in a row are paired part by part. -/
theorem pairing_append {a b : List F} {g h : List G} (hl : a.length = g.length) :
    pairing (a ++ b) (g ++ h) = pairing a g + pairing b h := by
  rw [pairing, List.zipWith_append hl, List.sum_append, pairing, pairing]

/-! ### Linearity -/

theorem pairing_map_mul (c : F) (a : List F) (g : List G) :
    pairing (a.map (c * ·)) g = c • pairing a g := by
  induction a generalizing g with
  | nil => simp
  | cons x a ih =>
    cases g with
    | nil => simp
    | cons p g => rw [List.map_cons, pairing_cons, ih, pairing_cons, smul_add, mul_smul]

/-- Linearity in the scalars. -/
theorem pairing_blend_left (c d : F) {a b : List F} (hl : a.length = b.length) (g : List G) :
    pairing (List.zipWith (fun x y => c * x + d * y) a b) g =
      c • pairing a g + d • pairing b g := by
  induction a generalizing b g with
  | nil =>
    obtain rfl := List.eq_nil_of_length_eq_zero hl.symm
    simp
  | cons x a ih =>
    obtain ⟨y, b, rfl⟩ := List.exists_cons_of_length_eq_add_one hl.symm
    cases g with
    | nil => simp
    | cons p g =>
      rw [List.zipWith_cons_cons, pairing_cons, ih (Nat.succ.inj hl), pairing_cons, pairing_cons]
      module

/-- Linearity in the elements. -/
theorem pairing_blend_right (c d : F) (a : List F) {g h : List G} (hl : g.length = h.length) :
    pairing a (List.zipWith (fun p q => c • p + d • q) g h) =
      c • pairing a g + d • pairing a h := by
  induction g generalizing a h with
  | nil =>
    obtain rfl := List.eq_nil_of_length_eq_zero hl.symm
    simp
  | cons p g ih =>
    obtain ⟨q, h, rfl⟩ := List.exists_cons_of_length_eq_add_one hl.symm
    cases a with
    | nil => simp
    | cons x a =>
      rw [List.zipWith_cons_cons, pairing_cons, ih a (Nat.succ.inj hl), pairing_cons, pairing_cons]
      module

/-- Scaling the elements one by one is scaling the scalars. -/
theorem pairing_scale_right (a y : List F) (g : List G) :
    pairing a (List.zipWith (· • ·) y g) = pairing (List.zipWith (· * ·) a y) g := by
  induction a generalizing y g with
  | nil => simp
  | cons x a ih =>
    cases y with
    | nil => simp
    | cons c y =>
      cases g with
      | nil => simp
      | cons p g => simp only [List.zipWith_cons_cons, pairing_cons, ih, mul_smul]

/-! ### Combinations are pairings -/

theorem innerProduct_eq_pairing (a b : List F) :
    (List.zipWith (· * ·) a b).sum = pairing a b := rfl

variable [LinearCombination F G] [LawfulLinearCombination F G]

theorem combine_zip (a : List F) (g : List G) : combine (a.zip g) = pairing a g := by
  rw [LawfulLinearCombination.combine_eq, List.map_zip_eq_zipWith]
  rfl

/-- A sum of products, when the lengths agree, is a pairing. -/
theorem combine?_eq_pairing {a : List F} {g : List G} (hl : a.length = g.length) :
    combine? a g = .ok (pairing a g) := by
  rw [combine?_of_length_eq hl, combine_zip]

theorem combine_pair (c d : F) (p q : G) : combine [(c, p), (d, q)] = c • p + d • q := by
  simp [LawfulLinearCombination.combine_eq]

theorem combine_triple (c d e : F) (p q r : G) :
    combine [(c, p), (d, q), (e, r)] = c • p + d • q + e • r := by
  simp [LawfulLinearCombination.combine_eq, add_assoc]

end Module

end ConfidentialCoin
