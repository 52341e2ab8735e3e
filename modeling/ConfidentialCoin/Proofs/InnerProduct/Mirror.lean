import ConfidentialCoin.Proofs.InnerProduct.ClosedForm
import ConfidentialCoin.Proofs.InnerProduct.Coefficients
import ConfidentialCoin.Proofs.InnerProduct.Safety
import ConfidentialCoin.Proofs.Ristretto.Exponent

/-!
# The coefficients, entry by entry

Two loops work on the challenges of an argument, from opposite ends. The single check builds the
coefficients from the lowest index on, each from the one without its leading bit; folding halves the
generators, so that the first challenge decides about the highest bit. Both come to the products
`bitWeight` over the bits of an index: the coefficients are their table (`coefficients_eq_table`),
and the generators fold to the sums with them (`foldClaim_eq_sums`).

The generators `h` take the coefficients backwards. In as many bits as there are rounds, the index
counted from the other end has every bit flipped, which turns each challenge into its inverse
(`bitWeight_mirror`).

`InnerProduct.coefficients_closed_form` puts these together, for arguments of every shape.
-/

namespace ConfidentialCoin.InnerProduct

open Finset

variable {F G τ : Type} [Field F]

/-! ### Both ends -/

/-- Counted from the other end, an index has the flipped bits. -/
theorem bitWeight_mirror (us : List F) {i : ℕ} (hi : i < 2 ^ us.length) :
    bitWeight us (2 ^ us.length - 1 - i) = (bitWeight us i)⁻¹ := by
  have hsub : 2 ^ us.length - 1 - i = 2 ^ us.length - (i + 1) := by omega
  rw [bitWeight, bitWeight, ← prod_inv_distrib]
  refine prod_congr rfl fun k hk => ?_
  have hbit : us.length - 1 - k < us.length := by
    have := mem_range.mp hk
    omega
  rw [hsub, Nat.testBit_two_pow_sub_succ hi, decide_eq_true hbit, Bool.true_and]
  cases i.testBit (us.length - 1 - k)
  · exact (inv_inv _).symm
  · rfl

/-- A challenge and its inverse stand in every place of the two products. -/
theorem bitWeight_ne_zero {us : List F} (hne : 0 ∉ us) (i : ℕ) : bitWeight us i ≠ 0 := by
  refine prod_ne_zero_iff.mpr fun k hk => ?_
  have hu : us.getD k 0 ≠ 0 := by
    rw [List.getD_eq_getElem _ _ (mem_range.mp hk)]
    exact fun h => hne (h ▸ List.getElem_mem _)
  split
  · exact hu
  · exact inv_ne_zero hu

/-- The two weights at equal distance from the ends are inverse to each other. -/
theorem bitWeight_mul_mirror {us : List F} (hne : 0 ∉ us) {i : ℕ} (hi : i < 2 ^ us.length) :
    bitWeight us i * bitWeight us (2 ^ us.length - 1 - i) = 1 := by
  rw [bitWeight_mirror us hi, mul_inv_cancel₀ (bitWeight_ne_zero hne i)]

/-! ### The coefficients -/

section Coefficients

variable [BEq F] [LawfulBEq F] [Encoding G] [WideReduction F] [Transcript τ]
  {proof : InnerProductProof F G} {n : ℕ} {t t' : τ} {us : List F}

omit [LawfulBEq F] in
/-- No challenges are drawn where the rounds are not those of the length. -/
theorem challenges_of_shape
    (h : ¬ (proof.r.length = proof.l.length ∧ n = 2 ^ (proof.l.length % 2 ^ 32))) (t : τ) :
    challenges (F := F) t proof n = .error .roundLengths := by
  refine if_neg fun hm => h ?_
  obtain ⟨hlr, -, hpow⟩ := roundsMatch_iff.mp hm
  exact ⟨hlr.symm, hpow.symm⟩

/-- **The loop of the single check** comes to the products over the bits. -/
theorem coefficients_eq_table (h : challenges t proof n = .ok (us, t')) :
    coefficients t proof n =
      if n < 2 ^ 58 then
        .ok (⟨table us.length fun k => us.getD k 0 ^ 2,
          table us.length fun k => (us.getD k 0 ^ 2)⁻¹, (table n (bitWeight us)).toArray⟩, t')
      else .error (.fault .noRoom) := by
  have hsquares : us.map (fun u => u * u) = table us.length fun k => us.getD k 0 ^ 2 := by
    rw [map_eq_table _ rfl 0]
    exact table_congr fun k _ => (sq _).symm
  have hinverse : us.map (fun u => u⁻¹ * u⁻¹) = table us.length fun k => (us.getD k 0 ^ 2)⁻¹ := by
    rw [map_eq_table _ rfl 0]
    exact table_congr fun k _ => by rw [sq, mul_inv]
  rw [coefficients_eq h, hsquares, hinverse, foldWeights_inv_eq_table,
    take_table (length_le_of_challenges h)]

end Coefficients

/-! ### The folded generators -/

variable [AddCommGroup G] [Module F G] {us : List F} {g h : List G} {n : ℕ}

private theorem pairing_foldWeights_inv (hn : n = 2 ^ us.length) (hg : g.length = n) :
    pairing (foldWeights (us.map (·⁻¹))) g = ∑ i ∈ range n, bitWeight us i • g.getD i 0 := by
  subst hn
  rw [foldWeights_inv_eq_table, pairing_table_left _ hg]

private theorem pairing_foldWeights (hn : n = 2 ^ us.length) (hh : h.length = n) :
    pairing (foldWeights us) h = ∑ i ∈ range n, bitWeight us (n - 1 - i) • h.getD i 0 := by
  subst hn
  rw [foldWeights_eq_table, pairing_table_left _ hh]
  exact sum_congr rfl fun i hi => by rw [bitWeight_mirror us (mem_range.mp hi)]

variable [LinearCombination F G] [LawfulLinearCombination F G]

/-- **The rounds of folding** come to single elements, the sums with the products over the bits; the
generators `h` have them backwards. -/
theorem foldClaim_eq_sums {l r : List G} (hn : n = 2 ^ us.length) (hl : l.length = us.length)
    (hr : r.length = us.length) (hg : g.length = n) (hh : h.length = n) (p : G) :
    foldClaim (us.zip (l.zip r)) g h p =
      ([∑ i ∈ range n, bitWeight us i • g.getD i 0],
        [∑ i ∈ range n, bitWeight us (n - 1 - i) • h.getD i 0], movedClaim us l r p) := by
  have hfold : foldAll (us.map (·⁻¹)) g = [pairing (foldWeights (us.map (·⁻¹))) g] :=
    foldAll_eq (by rw [List.length_map, hg, hn])
  rw [foldClaim_eq hl hr, hfold, foldAll_eq (hh.trans hn), pairing_foldWeights_inv hn hg,
    pairing_foldWeights hn hh]

variable [BEq F] [LawfulBEq F] [BEq G] [LawfulBEq G] [Encoding G] [WideReduction F] [Transcript τ]
  {proof : InnerProductProof F G} {t t' : τ}

/-- What is accepted opens the moved claim over the two sums. -/
theorem verify_eq_ok_iff (hk : proof.l.length < 2 ^ 32) (hg : g.length = n) (hh : h.length = n)
    (hc : challenges t proof n = .ok (us, t')) (u : G) :
    verify t g h u proof = .ok t' ↔
      proof.a • ∑ i ∈ range n, bitWeight us i • g.getD i 0 +
          proof.b • ∑ i ∈ range n, bitWeight us (n - 1 - i) • h.getD i 0 +
          (proof.a * proof.b) • u = movedClaim us proof.l proof.r proof.p := by
  have hn := length_eq_of_challenges hk hc
  have hopens : Opens us g h u proof ↔
      proof.a • ∑ i ∈ range n, bitWeight us i • g.getD i 0 +
          proof.b • ∑ i ∈ range n, bitWeight us (n - 1 - i) • h.getD i 0 +
          (proof.a * proof.b) • u = movedClaim us proof.l proof.r proof.p := by
    rw [Opens, pairing_foldWeights_inv hn hg, pairing_foldWeights hn hh]
  rw [← hopens]
  subst hg
  refine ⟨fun hv => ?_, verify_eq_ok hk hh.symm hc⟩
  by_contra ho
  rw [verify_eq_error hk hh.symm hc ho] at hv
  cases hv

/-- **The coefficients in closed form.** Let the number `k` of rounds, counted in 32 bits, be that
of vectors of length `n`, a number of 64 bits, and no folding challenge `u[j]` be zero. The single
check has the squares `u[j]²` and `u[j]⁻²`, and `n` coefficients: `s[i]` is the product of all
`u[j]` or `u[j]⁻¹`, as the bits of `i` say, the first challenge owning the highest bit. From
`n = 2 ^ 58` on there is no room for them.

Where the count is `k` itself, so `n = 2 ^ k`, a coefficient and the one in the same place from the
other end are inverse to each other. Whatever generators `g` and `h` there are, folding then leaves
one element of each, the sum with the coefficients and the sum with the coefficients backwards, and
what is accepted opens the folded claim over these two. Where it is not, folding leaves none.

An argument with any other number of rounds is an invalid input for both checks, for one reason. -/
theorem coefficients_closed_form (t : τ) (proof : InnerProductProof F G) {n : ℕ}
    (hn : n < 2 ^ 64) :
    let k := proof.l.length
    let us := drawnChallenges F (proof.l.zip proof.r) (Layout.innerProductDomain t n)
    let s (i : ℕ) : F :=
      ∏ j ∈ range k, if i.testBit (k - 1 - j) then us.getD j 0 else (us.getD j 0)⁻¹
    (proof.r.length = k ∧ n = 2 ^ (k % 2 ^ 32) → 0 ∉ us →
      ∃ t',
        (n < 2 ^ 58 → coefficients t proof n =
          .ok (⟨table k fun j => us.getD j 0 ^ 2, table k fun j => (us.getD j 0 ^ 2)⁻¹,
            (table n s).toArray⟩, t')) ∧
        (2 ^ 58 ≤ n → coefficients (F := F) t proof n = .error (.fault .noRoom)) ∧
        (k < 2 ^ 32 →
          (∀ i < n, s i * s (n - 1 - i) = 1) ∧
          ∀ g h : List G, g.length = n → h.length = n →
            let gSum := ∑ i ∈ range n, s i • g.getD i 0
            let hSum := ∑ i ∈ range n, s (n - 1 - i) • h.getD i 0
            ∃ p, foldClaim (us.zip (proof.l.zip proof.r)) g h proof.p = ([gSum], [hSum], p) ∧
              ∀ u, verify t g h u proof = .ok t' ↔
                proof.a • gSum + proof.b • hSum + (proof.a * proof.b) • u = p) ∧
        (2 ^ 32 ≤ k → ∀ (g h : List G) u, g.length = n → h.length = n →
          verify t g h u proof = .error (.fault .indexOutOfRange))) ∧
    (¬ (proof.r.length = k ∧ n = 2 ^ (k % 2 ^ 32)) →
      (coefficients (F := F) t proof n).mapError ArgumentError.verifierError =
          .error (.invalidInput "inner product rounds do not match length") ∧
        ∀ (g h : List G) u, g.length = n → h.length = n →
          (verify t g h u proof).mapError ArgumentError.verifierError =
            .error (.invalidInput "inner product rounds do not match length")) := by
  intro k us s
  refine ⟨fun ⟨hr, hpow⟩ hne => ?_, fun hshape => ⟨?_, fun g h u hg hh => ?_⟩⟩
  · have hlength : us.length = k := by
      rw [length_drawnChallenges, List.length_zip, hr, Nat.min_self]
    have hcount : k % 2 ^ 32 < 64 := (Nat.pow_lt_pow_iff_right Nat.one_lt_two).mp (hpow ▸ hn)
    have hs : s = bitWeight us := by
      funext i
      rw [bitWeight, hlength]
    obtain ⟨t', hc⟩ :=
      challenges_of_zero_notMem (t := t) (roundsMatch_iff.mpr ⟨hr.symm, hcount, hpow.symm⟩) hne
    have htable := coefficients_eq_table hc
    -- One challenge for each round, so the products over the rounds are the weights.
    rw [hlength, ← hs] at htable
    refine ⟨t', fun hroom => ?_, fun hroom => ?_, fun hk => ?_, fun hk g h u hg hh => ?_⟩
    · rw [htable, if_pos hroom]
    · rw [htable, if_neg (Nat.not_lt.mpr hroom)]
    · have hn' : n = 2 ^ us.length := length_eq_of_challenges hk hc
      rw [hs]
      refine ⟨fun i hi => ?_, fun g h hg hh => ⟨movedClaim us proof.l proof.r proof.p,
        foldClaim_eq_sums hn' hlength.symm (hr.trans hlength.symm) hg hh proof.p,
        verify_eq_ok_iff hk hg hh hc⟩⟩
      have hone := bitWeight_mul_mirror hne (hn' ▸ hi)
      rwa [← hn'] at hone
    · subst hg
      exact verify_eq_fault_iff.mpr ⟨rfl, hk, hh.symm, _, hc⟩
  · rw [coefficients_eq_error (challenges_of_shape hshape t)]
    rfl
  · subst hg
    rw [verify_eq_error_of_challenges hh.symm (challenges_of_shape hshape t)]
    rfl

section Witness

open Ristretto

/-- An argument of two rounds: its four coefficients, the middle two of them inverse to each other,
and the elements that four generators fold to. It is no argument about vectors of length three. -/
theorem coefficients_closed_form_exponent :
    let t : Checksum := ⟨7⟩
    let b : Exponent := basePoint
    let arg : InnerProductProof Scalar Exponent := ⟨[b, 0], [0, b], 1, 2, b⟩
    let us := drawnChallenges Scalar (arg.l.zip arg.r) (Layout.innerProductDomain t 4)
    let s (i : ℕ) : Scalar :=
      ∏ j ∈ range 2, if i.testBit (1 - j) then us.getD j 0 else (us.getD j 0)⁻¹
    let g := [b, 0, b, b]
    let h := [0, b, b, 0]
    0 ∉ us ∧
      (∃ t', coefficients t arg 4 =
        .ok (⟨table 2 fun j => us.getD j 0 ^ 2, table 2 fun j => (us.getD j 0 ^ 2)⁻¹,
          (table 4 s).toArray⟩, t')) ∧
      s 1 * s 2 = 1 ∧
      (∃ p, foldClaim (us.zip (arg.l.zip arg.r)) g h arg.p =
        ([∑ i ∈ range 4, s i • g.getD i 0], [∑ i ∈ range 4, s (3 - i) • h.getD i 0], p)) ∧
      (coefficients (F := Scalar) t arg 3).mapError ArgumentError.verifierError =
        .error (.invalidInput "inner product rounds do not match length") := by
  intro t b arg us s g h
  have hne : 0 ∉ us := Checksum.zero_notMem_drawnChallenges _ _
  obtain ⟨t', hok, -, hfolding, -⟩ :=
    (coefficients_closed_form t arg (by decide : 4 < 2 ^ 64)).1 ⟨rfl, rfl⟩ hne
  obtain ⟨hmirror, hsums⟩ := hfolding (by decide)
  obtain ⟨p, hfold, -⟩ := hsums g h rfl rfl
  have hother := (coefficients_closed_form t arg (by decide : 3 < 2 ^ 64)).2 (by decide)
  exact ⟨hne, ⟨t', hok (by decide)⟩, hmirror 1 (by decide), ⟨p, hfold⟩, hother.1⟩

/-- The two ends of the count. Eight generators are not folded by `2 ^ 32 + 3` rounds, and neither
check says so: one answers with coefficients, the other looks for a generator that is not there. And
58 rounds are those of `2 ^ 58` generators, which have no coefficients. -/
theorem overlong_rounds_not_refused :
    let t : Checksum := ⟨7⟩
    let long := Exponent.uniformArgument (2 ^ 32 + 3)
    let wide := Exponent.uniformArgument 58
    let g : List Exponent := List.replicate 8 basePoint
    (8 < 2 ^ long.l.length ∧ (∃ c, coefficients (F := Scalar) t long 8 = .ok c) ∧
      ∀ u, verify t g g u long = .error (.fault .indexOutOfRange)) ∧
    (2 ^ 58 = 2 ^ wide.l.length ∧ wide.r.length = wide.l.length ∧
      0 ∉ drawnChallenges Scalar (wide.l.zip wide.r) (Layout.innerProductDomain t (2 ^ 58)) ∧
      coefficients (F := Scalar) t wide (2 ^ 58) = .error (.fault .noRoom)) := by
  intro t long wide g
  have hlong : long.l.length = 2 ^ 32 + 3 := Exponent.length_l_uniformArgument _
  have hwide : wide.l.length = 58 := Exponent.length_l_uniformArgument _
  have hg : g.length = 8 := List.length_replicate
  obtain ⟨out, hout⟩ := Checksum.exists_challenges_eq_ok
    (Exponent.roundsMatch_uniformArgument_iff.mpr (by decide) : roundsMatch long 8) t
  obtain ⟨out', hout'⟩ := Checksum.exists_challenges_eq_ok
    (Exponent.roundsMatch_uniformArgument_iff.mpr (by decide) : roundsMatch wide (2 ^ 58)) t
  refine ⟨⟨?_, ?_, fun u => ?_⟩, ?_, ?_, Checksum.zero_notMem_drawnChallenges _ _, ?_⟩
  · rw [hlong]
    exact Nat.pow_lt_pow_right Nat.one_lt_two (by decide : 3 < 2 ^ 32 + 3)
  · obtain ⟨c, -, -, -, heq⟩ := exists_coefficients_eq hout
    exact ⟨_, heq.trans (if_pos (by decide))⟩
  · exact verify_eq_fault_iff.mpr ⟨rfl, by rw [hlong]; decide, rfl, out, by rw [hg]; exact hout⟩
  · rw [hwide]
  · rw [hwide, Exponent.length_r_uniformArgument]
  · exact coefficients_eq_fault_iff.mpr ⟨rfl, Nat.le_refl _, out', hout'⟩

end Witness

end ConfidentialCoin.InnerProduct
