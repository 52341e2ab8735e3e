import ConfidentialCoin.Proofs.Vectors.Pairing
import ConfidentialCoin.ScalarVector
import Mathlib.Algebra.BigOperators.Group.Finset.Basic
import Mathlib.Data.List.GetD

/-!
# Tables

The vectors of a range proof are given by a rule for entry `i`. `table n f` is the vector of the
first `n` values of `f`; the operations on vectors become operations on the rules, and sums and
pairings become sums over `Finset.range n`, where the algebra of the proofs is done.

A vector that follows no rule, like the blindings that a prover draws, is the table of its own
entries (`table_getD`).
-/

namespace ConfidentialCoin

variable {α β γ : Type} {n : ℕ}

/-- The vector of the first `n` values of a function. -/
def table (n : ℕ) (f : ℕ → α) : List α := (List.range n).map f

@[simp] theorem length_table (n : ℕ) (f : ℕ → α) : (table n f).length = n := by
  rw [table, List.length_map, List.length_range]

theorem table_succ (n : ℕ) (f : ℕ → α) : table (n + 1) f = table n f ++ [f n] := by
  rw [table, List.range_succ, List.map_append, table, List.map_singleton]

theorem table_succ' (n : ℕ) (f : ℕ → α) : table (n + 1) f = f 0 :: table n fun i => f (i + 1) := by
  rw [table, List.range_succ_eq_map, List.map_cons, List.map_map, table]
  rfl

/-- A table is one of its first entries and one of the others. -/
theorem table_add (m n : ℕ) (f : ℕ → α) :
    table (m + n) f = table m f ++ table n fun i => f (m + i) := by
  rw [table, List.range_add, List.map_append, List.map_map, table, table]
  rfl

/-- A table cut short. -/
theorem take_table {m : ℕ} (h : m ≤ n) (f : ℕ → α) : (table n f).take m = table m f := by
  rw [table, ← List.map_take, List.take_range, Nat.min_eq_left h, table]

theorem getElem?_table {i : ℕ} (h : i < n) (f : ℕ → α) : (table n f)[i]? = some (f i) := by
  rw [table, List.getElem?_map, List.getElem?_range h, Option.map_some]

theorem getD_table {i : ℕ} (h : i < n) (f : ℕ → α) (d : α) : (table n f).getD i d = f i := by
  rw [List.getD_eq_getElem?_getD, getElem?_table h, Option.getD_some]

theorem entry_table {i : ℕ} (h : i < n) (f : ℕ → α) : entry (table n f) i = .ok (f i) :=
  entry_eq_ok_iff.mpr (getElem?_table h f)

/-- Only the first values of the function count. -/
theorem table_congr {f g : ℕ → α} (h : ∀ i < n, f i = g i) : table n f = table n g :=
  List.map_congr_left fun i hi => h i (List.mem_range.mp hi)

/-- Every vector is the table of its entries. -/
theorem table_getD {l : List α} (h : l.length = n) (d : α) : table n (fun i => l.getD i d) = l := by
  refine List.ext_getElem (by rw [length_table, h]) fun i h₁ h₂ => ?_
  simp only [table, List.getElem_map, List.getElem_range]
  exact List.getD_eq_getElem l d h₂

/-- The entries of a vector times a scalar. -/
theorem getD_map_mul {F : Type} [MulZeroClass F] (c : F) (l : List F) (i : ℕ) :
    (l.map (c * ·)).getD i 0 = c * l.getD i 0 := by
  have h := List.getD_map (n := i) l 0 (c * ·)
  rwa [mul_zero] at h

/-! ### Operations on tables -/

theorem map_table (g : α → β) (f : ℕ → α) : (table n f).map g = table n fun i => g (f i) :=
  List.map_map

/-- A map over a vector, by its entries. -/
theorem map_eq_table (g : α → β) {l : List α} (h : l.length = n) (d : α) :
    l.map g = table n fun i => g (l.getD i d) := by
  rw [← map_table, table_getD h]

theorem zipWith_table (op : α → β → γ) (f : ℕ → α) (g : ℕ → β) :
    List.zipWith op (table n f) (table n g) = table n fun i => op (f i) (g i) := by
  rw [table, table, List.zipWith_map, List.zipWith_self, table]

/-- Joining with a longer table drops the rest of it. -/
theorem zipWith_table_of_le {m : ℕ} (h : m ≤ n) (op : α → β → γ) (f : ℕ → α) (g : ℕ → β) :
    List.zipWith op (table m f) (table n g) = table m fun i => op (f i) (g i) := by
  have hz : List.zipWith op (table m f) (table n g) =
      List.zipWith op ((table m f).take m) ((table n g).take m) := by
    rw [← List.take_zipWith, List.take_of_length_le]
    rw [List.length_zipWith, length_table]
    exact Nat.min_le_left ..
  rw [hz, take_table h, List.take_of_length_le (length_table m f).le, zipWith_table]

theorem replicate_eq_table (n : ℕ) (x : α) : List.replicate n x = table n fun _ => x := by
  rw [table, List.map_const', List.length_range]

/-- A fallible rule that succeeds on all entries makes a table. -/
theorem mapM_range_eq_ok {ε : Type} {f : ℕ → Except ε α} {v : ℕ → α}
    (h : ∀ i < n, f i = .ok (v i)) : (List.range n).mapM f = .ok (table n v) := by
  induction n with
  | zero => rfl
  | succ n ih =>
    rw [List.range_succ, List.mapM_append, ih fun i hi => h i (Nat.lt_succ_of_lt hi), table_succ]
    simp only [List.mapM_cons, List.mapM_nil, h n (Nat.lt_succ_self n), bind, Except.bind, pure,
      Except.pure]

/-! ### Sums and pairings -/

theorem sum_table [AddCommMonoid α] (f : ℕ → α) :
    (table n f).sum = ∑ i ∈ Finset.range n, f i := by
  induction n with
  | zero => rfl
  | succ n ih => rw [table_succ, List.sum_append, ih, List.sum_singleton, Finset.sum_range_succ]

theorem pairing_table {F G : Type} [AddCommMonoid G] [SMul F G] (a : ℕ → F) (g : ℕ → G) :
    pairing (table n a) (table n g) = ∑ i ∈ Finset.range n, a i • g i := by
  rw [pairing, zipWith_table, sum_table]

/-- A pairing with any elements, the vector of scalars being a table. -/
theorem pairing_table_left {F G : Type} [AddCommMonoid G] [SMul F G] (a : ℕ → F) {g : List G}
    (h : g.length = n) : pairing (table n a) g = ∑ i ∈ Finset.range n, a i • g.getD i 0 := by
  rw [← pairing_table, table_getD h]

/-! ### Vectors of scalars -/

namespace ScalarVector

variable {F : Type} [Field F]

theorem geometric_eq_table (base start : F) (n : ℕ) :
    geometric base n start = table n fun i => start * base ^ i := by
  induction n generalizing start with
  | zero => rfl
  | succ n ih =>
    rw [geometric, ih, table_succ', pow_zero, mul_one]
    congr 1
    exact table_congr fun i _ => by rw [pow_succ', mul_assoc]

theorem powers_eq_table (base : F) (n : ℕ) : powers base n = table n fun i => base ^ i := by
  rw [powers, geometric_eq_table]
  exact table_congr fun i _ => one_mul _

theorem bits_eq_table (value : UInt64) (width : ℕ) :
    (bits value width : ScalarVector F) =
      table width fun b => if value.toNat.testBit b then 1 else 0 := rfl

theorem add_table (f g : ℕ → F) :
    add (table n f) (table n g) = .ok (table n fun i => f i + g i) :=
  add_eq_ok_iff.mpr ⟨by rw [length_table, length_table], zipWith_table ..⟩

theorem hadamard_table (f g : ℕ → F) :
    hadamard (table n f) (table n g) = .ok (table n fun i => f i * g i) :=
  hadamard_eq_ok_iff.mpr ⟨by rw [length_table, length_table], zipWith_table ..⟩

theorem innerProduct_table (f g : ℕ → F) :
    innerProduct (table n f) (table n g) = .ok (∑ i ∈ Finset.range n, f i * g i) :=
  innerProduct_eq_ok_iff.mpr
    ⟨by rw [length_table, length_table], by rw [zipWith_table, sum_table]⟩

theorem addScalar_table (f : ℕ → F) (s : F) :
    addScalar (table n f) s = table n fun i => f i + s := map_table ..

theorem mulScalar_table (f : ℕ → F) (s : F) :
    mulScalar (table n f) s = table n fun i => f i * s := map_table ..

end ScalarVector

end ConfidentialCoin
