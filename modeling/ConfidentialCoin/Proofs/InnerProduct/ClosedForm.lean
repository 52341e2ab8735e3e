import ConfidentialCoin.Proofs.InnerProduct.Opening
import ConfidentialCoin.Proofs.Vectors.Table
import Mathlib.Algebra.BigOperators.Intervals
import Mathlib.Data.Nat.Bitwise

/-!
# The opening in closed form

What a verifier computes round by round, said at once. The rounds have their challenges whether or
not one of them is zero (`drawnChallenges`), and drawing fails exactly at a zero
(`challenges_of_zero_mem`, `challenges_of_zero_notMem`). The weight with which generator
`i` enters the folded one is a product over the rounds, `bitWeight`: each challenge or its inverse,
as a bit of `i` says, the first challenge owning the highest bit (`foldWeights_inv_eq_table`, by
induction on the rounds: each of them doubles the table). The generators `h` have the inverse
weights (`foldWeights_eq_table`).

With these `Opens` is an equation between sums over rounds and entries, `opens_iff`.
-/

namespace ConfidentialCoin.InnerProduct

open Finset

variable {F G τ : Type}

/-! ### Challenges -/

section Challenges

variable [WideReduction F] [Encoding G] [Transcript τ]

/-- The challenges of the given rounds, zero or not. -/
def drawnChallenges (F : Type) [WideReduction F] : (rounds : List (G × G)) → (t : τ) → List F
  | [], _ => []
  | (l, r) :: rounds, t =>
    let x := Layout.roundChallenge F t l r
    x.1 :: drawnChallenges F rounds x.2

@[simp] theorem length_drawnChallenges (rounds : List (G × G)) (t : τ) :
    (drawnChallenges F rounds t).length = rounds.length := by
  induction rounds generalizing t with
  | nil => rfl
  | cons lr rounds ih => rw [drawnChallenges, List.length_cons, ih, List.length_cons]

variable [Zero F] [BEq F] [LawfulBEq F] {rounds : List (G × G)} {t : τ}

/-- A zero among the challenges stops the drawing, wherever it is. -/
theorem roundChallenges_of_zero_mem (h : 0 ∈ drawnChallenges F rounds t) :
    roundChallenges (F := F) rounds t = .error .zeroChallenge := by
  induction rounds generalizing t with
  | nil => exact absurd h List.not_mem_nil
  | cons lr rounds ih =>
    obtain ⟨l, r⟩ := lr
    simp only [drawnChallenges, List.mem_cons] at h
    simp only [roundChallenges]
    by_cases hx : (Layout.roundChallenge F t l r).1 = 0
    · rw [if_pos (beq_iff_eq.mpr hx)]
    · rw [if_neg fun hb => hx (beq_iff_eq.mp hb), ih (h.resolve_left (Ne.symm hx))]
      rfl

/-- Challenges none of which is zero are all drawn. -/
theorem roundChallenges_of_zero_notMem (h : 0 ∉ drawnChallenges F rounds t) :
    ∃ t', roundChallenges rounds t = .ok (drawnChallenges F rounds t, t') := by
  induction rounds generalizing t with
  | nil => exact ⟨t, rfl⟩
  | cons lr rounds ih =>
    obtain ⟨l, r⟩ := lr
    simp only [drawnChallenges, List.mem_cons, not_or] at h
    obtain ⟨t', ht'⟩ := ih h.2
    refine ⟨t', ?_⟩
    simp only [roundChallenges, drawnChallenges]
    rw [if_neg fun hb => h.1 (beq_iff_eq.mp hb).symm, ht']
    rfl

/-! The same of an argument whose rounds are those of vectors of length `n`. -/

section

variable {proof : InnerProductProof F G} {n : ℕ} (hm : roundsMatch proof n)
include hm

theorem challenges_of_zero_mem
    (h : 0 ∈ drawnChallenges F (proof.l.zip proof.r) (Layout.innerProductDomain t n)) :
    challenges (F := F) t proof n = .error .zeroChallenge := by
  rw [challenges, if_pos hm]
  exact roundChallenges_of_zero_mem h

theorem challenges_of_zero_notMem
    (h : 0 ∉ drawnChallenges F (proof.l.zip proof.r) (Layout.innerProductDomain t n)) :
    ∃ t', challenges t proof n =
      .ok (drawnChallenges F (proof.l.zip proof.r) (Layout.innerProductDomain t n), t') := by
  rw [challenges, if_pos hm]
  exact roundChallenges_of_zero_notMem h

end

/-- Challenges are drawn exactly where the rounds are those of the length and none of them is
zero. -/
theorem exists_challenges_eq_ok_iff {proof : InnerProductProof F G} {n : ℕ} :
    (∃ out, challenges (F := F) t proof n = .ok out) ↔
      roundsMatch proof n ∧
        0 ∉ drawnChallenges F (proof.l.zip proof.r) (Layout.innerProductDomain t n) := by
  constructor
  · rintro ⟨out, h⟩
    have hm : roundsMatch proof n := by
      by_contra hm
      rw [challenges, if_neg hm] at h
      cases h
    refine ⟨hm, fun hz => ?_⟩
    rw [challenges_of_zero_mem hm hz] at h
    cases h
  · rintro ⟨hm, hz⟩
    obtain ⟨t', ht'⟩ := challenges_of_zero_notMem hm hz
    exact ⟨_, ht'⟩

end Challenges

variable [Field F]

/-! ### Weights -/

/-- The weight of generator `i` in the folded one: the product of the challenges whose bit of `i` is
set, and of the inverses of the others. -/
def bitWeight (us : List F) (i : ℕ) : F :=
  ∏ k ∈ range us.length,
    if i.testBit (us.length - 1 - k) then us.getD k 0 else (us.getD k 0)⁻¹

/-- In the lower half the bit of the first challenge is clear. -/
private theorem bitWeight_cons_lower (u : F) (us : List F) {i : ℕ} (h : i < 2 ^ us.length) :
    bitWeight (u :: us) i = u⁻¹ * bitWeight us i := by
  rw [bitWeight, List.length_cons, prod_range_succ', mul_comm, bitWeight]
  congr 1
  · have hclear : i.testBit (us.length + 1 - 1 - 0) = false := Nat.testBit_eq_false_of_lt h
    rw [hclear]
    rfl
  · refine prod_congr rfl fun k _ => ?_
    have hk : us.length + 1 - 1 - (k + 1) = us.length - 1 - k := by omega
    rw [hk, List.getD_cons_succ]

/-- In the upper half it is set, and the other bits are those of the place in the half. -/
private theorem bitWeight_cons_upper (u : F) (us : List F) {i : ℕ} (h : i < 2 ^ us.length) :
    bitWeight (u :: us) (2 ^ us.length + i) = u * bitWeight us i := by
  rw [bitWeight, List.length_cons, prod_range_succ', mul_comm, bitWeight]
  congr 1
  · have hset : (2 ^ us.length + i).testBit (us.length + 1 - 1 - 0) = true := by
      have hbit := Nat.testBit_two_pow_add_eq i us.length
      rw [Nat.testBit_eq_false_of_lt h] at hbit
      exact hbit
    rw [hset]
    rfl
  · refine prod_congr rfl fun k hk => ?_
    have hsub : us.length + 1 - 1 - (k + 1) = us.length - 1 - k := by omega
    have hlt : us.length - 1 - k < us.length := by
      have := mem_range.mp hk
      omega
    rw [hsub, List.getD_cons_succ, Nat.testBit_two_pow_add_gt hlt]

/-- Inverting the challenges inverts the weights. -/
theorem bitWeight_map_inv (us : List F) (i : ℕ) :
    bitWeight (us.map (·⁻¹)) i = (bitWeight us i)⁻¹ := by
  rw [bitWeight, bitWeight, List.length_map, ← prod_inv_distrib]
  refine prod_congr rfl fun k _ => ?_
  have hk : (us.map (·⁻¹)).getD k 0 = (us.getD k 0)⁻¹ := by
    have h := List.getD_map (n := k) us 0 (·⁻¹)
    rwa [inv_zero] at h
  rw [hk]
  split <;> rfl

/-- **The weights of `g`.** -/
theorem foldWeights_inv_eq_table (us : List F) :
    foldWeights (us.map (·⁻¹)) = table (2 ^ us.length) (bitWeight us) := by
  induction us with
  | nil => rfl
  | cons u us ih =>
    rw [List.map_cons, foldWeights, inv_inv, ih, map_table, map_table, List.length_cons, pow_succ,
      mul_two, table_add]
    congr 1
    · exact table_congr fun i hi => (bitWeight_cons_lower u us hi).symm
    · exact table_congr fun i hi => (bitWeight_cons_upper u us hi).symm

/-- **The weights of `h`.** -/
theorem foldWeights_eq_table (us : List F) :
    foldWeights us = table (2 ^ us.length) fun i => (bitWeight us i)⁻¹ := by
  have h := foldWeights_inv_eq_table (us.map (·⁻¹))
  have hinv : (us.map (·⁻¹)).map (·⁻¹) = us := by
    rw [List.map_map]
    exact List.map_id'' (fun u => inv_inv u) us
  rw [hinv, List.length_map] at h
  rw [h]
  exact table_congr fun i _ => bitWeight_map_inv us i

/-! ### The equation -/

variable [AddCommGroup G] [Module F G]

/-- The argument opens exactly when the sums over the rounds and over the generators agree. -/
theorem opens_iff {us : List F} {g h : List G} {u : G} {proof : InnerProductProof F G}
    (hg : g.length = 2 ^ us.length) (hh : h.length = 2 ^ us.length)
    (hl : proof.l.length = us.length) (hr : proof.r.length = us.length) :
    Opens us g h u proof ↔
      proof.p + ∑ k ∈ range us.length, us.getD k 0 ^ 2 • proof.l.getD k 0 +
          ∑ k ∈ range us.length, (us.getD k 0)⁻¹ ^ 2 • proof.r.getD k 0 =
        proof.a • ∑ i ∈ range (2 ^ us.length), bitWeight us i • g.getD i 0 +
          proof.b • ∑ i ∈ range (2 ^ us.length), (bitWeight us i)⁻¹ • h.getD i 0 +
          (proof.a * proof.b) • u := by
  rw [Opens, movedClaim, foldWeights_inv_eq_table, foldWeights_eq_table, pairing_table_left _ hg,
    pairing_table_left _ hh, map_eq_table _ rfl 0, map_eq_table _ rfl 0, pairing_table_left _ hl,
    pairing_table_left _ hr]
  simp only [← sq]
  exact eq_comm

end ConfidentialCoin.InnerProduct
