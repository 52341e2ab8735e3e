import ConfidentialCoin.Proofs.InnerProduct.Opening
import ConfidentialCoin.Proofs.Vectors.Table
import Mathlib.Tactic.FieldSimp

/-!
# The coefficients of a single check

`InnerProduct.coefficients` does not fold. It starts from the product of all inverse challenges and
obtains coefficient `i` from an earlier one, `i` without its leading bit, by the square of the
challenge that owns this bit. The result is the list of weights with which the generators enter the
folded ones: `coefficients_eq`.

A step finds what it needs whatever the entries are (`nextCoefficient_eq_ok`). That the result is
right rests on two facts. The weights satisfy the same recurrence (`getD_foldWeights_flip`, by
induction on the rounds: the leading bit of the upper half belongs to the first challenge, and the
lower half is a smaller instance). And after `m` steps the array holds the first `m + 1` weights
(`foldlM_nextCoefficient`, the invariant of the loop).
-/

namespace ConfidentialCoin

theorem entry_eq_getD {α : Type} {xs : List α} {i : ℕ} (h : i < xs.length) (d : α) :
    entry xs i = .ok (xs.getD i d) := by
  rw [entry_eq_ok_iff, List.getElem?_eq_getElem h, List.getD_eq_getElem xs d h]

theorem indexDifference_of_le {i j : ℕ} (h : j ≤ i) : indexDifference i j = .ok (i - j) := if_pos h

namespace InnerProduct

variable {F G τ : Type}

/-! ### Steps -/

/-- Without its leading bit an index is smaller, and the square of the challenge that owns the bit
is there. -/
theorem nextCoefficient_eq_ok [Mul F] {squares : List F} {s : Array F} {i : ℕ} (h0 : i ≠ 0)
    (hi : i < 2 ^ squares.length) (hs : i ≤ s.size) (d : F) :
    nextCoefficient squares s i =
      .ok (s.toList.getD (i - 2 ^ i.log2) d * squares.getD (squares.length - 1 - i.log2) d) := by
  have hlog : i.log2 < squares.length := (Nat.log2_lt h0).mpr hi
  have hpow := Nat.log2_self_le h0
  have hlt : i - 2 ^ i.log2 < s.toList.length := by
    have hpos := Nat.two_pow_pos i.log2
    rw [Array.length_toList]
    omega
  have hbefore : arrayEntry s (i - 2 ^ i.log2) = .ok (s.toList.getD (i - 2 ^ i.log2) d) := by
    rw [arrayEntry_eq_ok_iff, ← Array.getElem?_toList, List.getElem?_eq_getElem hlt,
      List.getD_eq_getElem _ _ hlt]
  simp only [nextCoefficient, Nat.one_shiftLeft,
    indexDifference_of_le (show 1 ≤ squares.length by omega),
    indexDifference_of_le (show i.log2 ≤ squares.length - 1 by omega), indexDifference_of_le hpow,
    entry_eq_getD (show squares.length - 1 - i.log2 < squares.length by omega) d, hbefore, bind,
    Except.bind]

/-- Scalars other than zero have their inverses. -/
theorem inverses_eq [Zero F] [Inv F] [BEq F] [LawfulBEq F] {us : List F} (hne : ∀ u ∈ us, u ≠ 0) :
    inverses us = .ok (us.map (·⁻¹)) := by
  have hany : us.any (· == 0) = false :=
    List.any_eq_false.mpr fun u hu h => hne u hu (beq_iff_eq.mp h)
  rw [inverses, hany, if_neg Bool.false_ne_true]

/-- There is room for fewer than `2 ^ 58` scalars. -/
theorem reserve_scalars (n : ℕ) :
    reserve n scalarSize = if n < 2 ^ 58 then .ok () else .error .noRoom :=
  if_congr (by rw [scalarSize]; omega) rfl rfl

/-- Where no challenges are drawn there are no coefficients, for the same reason. -/
theorem coefficients_eq_error [Zero F] [One F] [Mul F] [Inv F] [BEq F] [Encoding G]
    [WideReduction F] [Transcript τ] {proof : InnerProductProof F G} {n : ℕ} {t : τ}
    {e : ArgumentError} (h : challenges (F := F) t proof n = .error e) :
    coefficients (F := F) t proof n = .error e := by
  simp only [coefficients, h, bind, Except.bind]

variable [Field F]

/-! ### The recurrence of the weights -/

/-- The weights of the inverse challenges: lower half, upper half. -/
private theorem foldWeights_inv_cons (u : F) (us : List F) :
    foldWeights ((u :: us).map (·⁻¹)) =
      (foldWeights (us.map (·⁻¹))).map (u⁻¹ * ·) ++ (foldWeights (us.map (·⁻¹))).map (u * ·) := by
  rw [List.map_cons, foldWeights, inv_inv]

/-- The first weight is the product of all inverses. -/
theorem getD_foldWeights_zero (us : List F) :
    (foldWeights (us.map (·⁻¹))).getD 0 0 = (us.map (·⁻¹)).prod := by
  induction us with
  | nil => rfl
  | cons u us ih =>
    have hpos : 0 < ((foldWeights (us.map (·⁻¹))).map (u⁻¹ * ·)).length := by
      rw [List.length_map, length_foldWeights]
      exact Nat.two_pow_pos _
    rw [foldWeights_inv_cons, List.getD_append _ _ _ _ hpos, getD_map_mul, ih, List.map_cons,
      List.prod_cons]

/-- Without its leading bit an index has the weight divided by the square of the challenge that
owns the bit; the first challenge owns the highest one. -/
theorem getD_foldWeights_flip {us : List F} (hne : ∀ u ∈ us, u ≠ 0) {i : ℕ} (h0 : i ≠ 0)
    (hi : i < 2 ^ us.length) :
    (foldWeights (us.map (·⁻¹))).getD i 0 =
      (foldWeights (us.map (·⁻¹))).getD (i - 2 ^ i.log2) 0 *
        (us.map fun u => u * u).getD (us.length - 1 - i.log2) 0 := by
  induction us generalizing i with
  | nil =>
    rw [List.length_nil, pow_zero] at hi
    omega
  | cons u us ih =>
    have hu : u ≠ 0 := hne u List.mem_cons_self
    have hlen : ((foldWeights (us.map (·⁻¹))).map (u⁻¹ * ·)).length = 2 ^ us.length := by
      rw [List.length_map, length_foldWeights, List.length_map]
    have hpow := Nat.log2_self_le h0
    rw [List.length_cons, Nat.add_sub_cancel]
    rw [List.length_cons, pow_succ] at hi
    rcases Nat.lt_or_ge i (2 ^ us.length) with hlow | hhigh
    · -- Below, the leading bit belongs to one of the other challenges.
      have hlog : i.log2 < us.length := (Nat.log2_lt h0).mpr hlow
      have hsq : us.length - i.log2 = (us.length - 1 - i.log2) + 1 := by omega
      have hsub : i - 2 ^ i.log2 ≤ i := Nat.sub_le ..
      rw [foldWeights_inv_cons, List.getD_append _ _ _ _ (by omega),
        List.getD_append _ _ _ _ (by omega), getD_map_mul, getD_map_mul, hsq, List.map_cons,
        List.getD_cons_succ, ih (fun v hv => hne v (List.mem_cons_of_mem _ hv)) h0 hlow, mul_assoc]
    · -- Above, it belongs to the first, and removing it moves to the lower half.
      have hlog : i.log2 = us.length := (Nat.log2_eq_iff h0).mpr ⟨hhigh, by rw [pow_succ]; exact hi⟩
      rw [foldWeights_inv_cons, hlog, List.getD_append_right _ _ _ _ (by omega),
        List.getD_append _ _ _ _ (by omega), getD_map_mul, getD_map_mul, hlen, Nat.sub_self,
        List.map_cons, List.getD_cons_zero]
      field_simp

/-! ### The loop -/

variable {us : List F}

/-- **Step.** From the first `i` weights the next one is computed. -/
private theorem nextCoefficient_take (hne : ∀ u ∈ us, u ≠ 0) {i : ℕ} (h0 : i ≠ 0)
    (hi : i < 2 ^ us.length) :
    nextCoefficient (us.map fun u => u * u) ((foldWeights (us.map (·⁻¹))).take i).toArray i =
      .ok ((foldWeights (us.map (·⁻¹))).getD i 0) := by
  have hlt : i - 2 ^ i.log2 < i := Nat.sub_lt (Nat.pos_of_ne_zero h0) (Nat.two_pow_pos _)
  have hlen : i ≤ ((foldWeights (us.map (·⁻¹))).take i).toArray.size := by
    rw [List.size_toArray, List.length_take, length_foldWeights, List.length_map]
    omega
  have hsquares : (us.map fun u => u * u).length = us.length := List.length_map _
  rw [getD_foldWeights_flip hne h0 hi, nextCoefficient_eq_ok h0 (hsquares.symm ▸ hi) hlen 0,
    hsquares, List.toList_toArray, List.getD_eq_getElem?_getD, List.getElem?_take_of_lt hlt,
    ← List.getD_eq_getElem?_getD]

/-- **Invariant.** After `m` steps the array holds the first `m + 1` weights. -/
private theorem foldlM_nextCoefficient (hne : ∀ u ∈ us, u ≠ 0) {m : ℕ}
    (hm : m + 1 ≤ 2 ^ us.length) :
    (List.range' 1 m).foldlM
        (fun s i => do return s.push (← nextCoefficient (us.map fun u => u * u) s i))
        #[(us.map (·⁻¹)).prod] =
      .ok ((foldWeights (us.map (·⁻¹))).take (m + 1)).toArray := by
  induction m with
  | zero =>
    have h0 : 0 < (foldWeights (us.map (·⁻¹))).length := by
      rw [length_foldWeights]
      exact Nat.two_pow_pos _
    have hz := getD_foldWeights_zero us
    rw [List.getD_eq_getElem _ _ h0] at hz
    rw [List.take_succ_eq_append_getElem h0, hz]
    rfl
  | succ m ih =>
    have hlt : m + 1 < (foldWeights (us.map (·⁻¹))).length := by
      rw [length_foldWeights, List.length_map]
      omega
    rw [List.range'_1_concat, List.foldlM_append, ih (by omega), Nat.add_comm 1 m]
    simp only [bind, Except.bind, List.foldlM_cons, List.foldlM_nil, pure, Except.pure]
    rw [nextCoefficient_take hne (Nat.succ_ne_zero m) (by omega),
      List.take_succ_eq_append_getElem hlt, List.getD_eq_getElem _ _ hlt]
    simp only [List.push_toArray]

/-- The whole loop makes the first `n` weights. -/
theorem generatorCoefficients_eq (hne : ∀ u ∈ us, u ≠ 0) {n : ℕ} (hpos : 0 < n)
    (hn : n ≤ 2 ^ us.length) :
    generatorCoefficients (us.map fun u => u * u) (us.map (·⁻¹)).prod n =
      .ok ((foldWeights (us.map (·⁻¹))).take n).toArray := by
  have hm : n - 1 + 1 = n := Nat.sub_add_cancel hpos
  rw [generatorCoefficients, List.drop_one, List.tail_range,
    foldlM_nextCoefficient hne (hm.trans_le hn), hm]

/-! ### The coefficients -/

variable [BEq F] [LawfulBEq F] [Encoding G] [WideReduction F] [Transcript τ]
  {proof : InnerProductProof F G} {n : ℕ} {t t' : τ}

/-- **The coefficients** are the squares of the challenges and of their inverses, and the weights
of the generators `g` in the folded one, as many as are asked for. There is no room for `2 ^ 58` of
them or more. -/
theorem coefficients_eq (h : challenges t proof n = .ok (us, t')) :
    coefficients t proof n =
      if n < 2 ^ 58 then
        .ok (⟨us.map fun u => u * u, us.map fun u => u⁻¹ * u⁻¹,
          ((foldWeights (us.map (·⁻¹))).take n).toArray⟩, t')
      else .error (.fault .noRoom) := by
  obtain ⟨-, -, hn, hne⟩ := challenges_eq_ok h
  have hprod : (us.map (·⁻¹)).foldl (· * ·) 1 = (us.map (·⁻¹)).prod := List.prod_eq_foldl.symm
  have hpos : 0 < n := hn ▸ Nat.two_pow_pos _
  simp only [coefficients, h, inverses_eq hne, reserve_scalars, bind, Except.bind]
  split_ifs
  · simp only [Except.mapError, hprod, List.map_map,
      generatorCoefficients_eq hne hpos (length_le_of_challenges h)]
    rfl
  · rfl

/-- Where the count is that of the rounds, they are all the weights. -/
theorem coefficients_eq_ok (hb : Bounded proof n) (h : challenges t proof n = .ok (us, t')) :
    coefficients t proof n =
      .ok (⟨us.map fun u => u * u, us.map fun u => u⁻¹ * u⁻¹,
        (foldWeights (us.map (·⁻¹))).toArray⟩, t') := by
  have hlength : (foldWeights (us.map (·⁻¹))).length ≤ n := by
    rw [length_foldWeights, List.length_map, length_eq_of_challenges hb.rounds_lt h]
  rw [coefficients_eq h, if_pos hb.length_lt, List.take_of_length_le hlength]

end InnerProduct

end ConfidentialCoin
