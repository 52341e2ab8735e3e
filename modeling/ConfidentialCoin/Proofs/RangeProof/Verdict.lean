import ConfidentialCoin.Proofs.InnerProduct.ClosedForm
import ConfidentialCoin.Proofs.RangeProof.Equations
import ConfidentialCoin.Proofs.Ristretto.Exponent
import ConfidentialCoin.RangeProof.Verifier

/-!
# What a verifier decides

`RangeProof.verdict` is the specification of the check: the conditions on a proof in the order in
which they are reported, each an equation between sums over all slots, entries and rounds. Nothing
in it is computed the way a verifier does it. The sums of `ValuesOpen` run over all slots, where a
verifier stops at the last coin; `ClaimCommitted` is about the scaled generators
`h'[i] = y⁻ⁱ * h[i]`, where a verifier moves the powers of `y` to the coefficients; and in
`ArgumentOpens` the rounds are products of challenges (`InnerProduct.bitWeight`), where a verifier
folds.

Each rewriting is one lemma (`valueEquation_iff`, `claimEquation_iff`, `openByFolding_eq`), and
`RangeProof.verify_folding_eq_verdict` puts them together: for every proof, honest or not, the
verifier reports the verdict.
-/

namespace ConfidentialCoin

open Finset ConfidentialCoin.InnerProduct

variable {F G τ : Type}

namespace RangeProof

/-! ### The statements -/

section Statements

variable [Field F] [AddCommGroup G] [Module F G]

/-- **The values.** `tHat * T + tauX * H` is `∑ z ^ (2 + j) * V[j] + δ * T + x * T1 + x² * T2`, with
`δ = (z - z²) * ∑ yⁱ - ∑ z ^ (3 + j) * (2 ^ 64 - 1)`. The commitment of a slot without a coin is
zero. -/
def ValuesOpen [HashTarget G] (c : RangeChallenges F τ) (tag : G) (proof : RangeProof F G) : Prop :=
  proof.tHat • tag + proof.tauX • blindingGenerator G =
    ∑ j ∈ range (slotCount proof.commitments.length), c.z ^ (2 + j) • proof.commitments.getD j 0 +
      ((c.z - c.z ^ 2) * ∑ i ∈ range (proofSize proof.commitments.length), c.y ^ i -
        ∑ j ∈ range (slotCount proof.commitments.length),
          c.z ^ (3 + j) * ((2 ^ valueBits - 1 : ℕ) : F)) • tag +
      c.x • proof.t1 + c.x ^ 2 • proof.t2

/-- The scaled generator `h'[i] = y⁻ⁱ * h[i]`. -/
def scaledHAt (gens : Generators G) (y : F) (i : ℕ) : G := y⁻¹ ^ i • gens.h.getD i 0

/-- **The claim.** `p` is `A + x * S - z * ∑ g + ∑ (z * yⁱ + z ^ (2 + j) * 2 ^ b) * h' - mu * H +
tHat * (w * u)`, where entry `i` is bit `b` of slot `j`. -/
def ClaimCommitted [HashTarget G] (c : RangeChallenges F τ) (gens : Generators G)
    (proof : RangeProof F G) : Prop :=
  proof.argument.p =
    proof.a + c.x • proof.s -
        c.z • ∑ i ∈ range (proofSize proof.commitments.length), gens.g.getD i 0 +
      ∑ j ∈ range (slotCount proof.commitments.length), ∑ b ∈ range valueBits,
        (c.z * c.y ^ (valueBits * j + b) + c.z ^ (2 + j) * ((2 ^ b : ℕ) : F)) •
          scaledHAt gens c.y (valueBits * j + b) -
      proof.mu • blindingGenerator G + proof.tHat • c.w • gens.u

/-- The folding challenges `u[k]` of the argument. -/
def foldingChallenges [Encoding G] [WideReduction F] [Transcript τ] (c : RangeChallenges F τ)
    (proof : RangeProof F G) : List F :=
  drawnChallenges F (proof.argument.l.zip proof.argument.r)
    (Layout.innerProductDomain c.transcript (proofSize proof.commitments.length))

/-- **The argument.** `p + ∑ u[k]² * L[k] + ∑ u[k]⁻² * R[k]` is
`a * ∑ s[i] * g[i] + b * ∑ s[i]⁻¹ * h'[i] + a * b * (w * u)`, where `s[i]` is the product of all
`u[k]` or `u[k]⁻¹`, as the bits of `i` say. -/
def ArgumentOpens (c : RangeChallenges F τ) (gens : Generators G) (us : List F)
    (proof : RangeProof F G) : Prop :=
  proof.argument.p + ∑ k ∈ range us.length, us.getD k 0 ^ 2 • proof.argument.l.getD k 0 +
      ∑ k ∈ range us.length, (us.getD k 0)⁻¹ ^ 2 • proof.argument.r.getD k 0 =
    proof.argument.a •
        ∑ i ∈ range (proofSize proof.commitments.length), bitWeight us i • gens.g.getD i 0 +
      proof.argument.b •
        ∑ i ∈ range (proofSize proof.commitments.length),
          (bitWeight us i)⁻¹ • scaledHAt gens c.y i +
      (proof.argument.a * proof.argument.b) • c.w • gens.u

open Classical in
/-- What is to be reported of a proof. The first condition that fails gives the reason. -/
noncomputable def verdict [HashTarget G] [Encoding G] [WideReduction F] (τ : Type) [Transcript τ]
    (gens : Generators G) (proof : RangeProof F G) (tag : G) : Except VerifierError Unit :=
  let coins := proof.commitments.length
  let c : RangeChallenges F τ := .ofProof proof tag
  let us := foldingChallenges c proof
  if coins = 0 ∨ maxCoins < coins then
    .error (.invalidInput "number of value commitments out of range")
  else if proof.argument.l.length ≠ Nat.log2 (proofSize coins) ∨
      proof.argument.r.length ≠ Nat.log2 (proofSize coins) then
    .error (.invalidInput "inner product rounds do not match proof size")
  else if gens.capacity < proofSize coins then
    .error (.invalidInput "proof dimension exceeds generator capacity")
  else if c.y = 0 ∨ c.z = 0 ∨ c.x = 0 ∨ c.w = 0 then .error (.invalidInput "zero challenge")
  else if ¬ ValuesOpen c tag proof then .error .statement1
  else if ¬ ClaimCommitted c gens proof then .error .statement2
  else if 0 ∈ us then .error (.invalidInput "zero folding challenge")
  else if ¬ ArgumentOpens c gens us proof then .error .statement2
  else .ok ()

end Statements

/-! ### The equations of a replay are the statements -/

variable [Field F] [AddCommGroup G] [Module F G]

/-- The closed form of `δ`, multiplied out. -/
private theorem deltaAt_eq (y z : F) (slots : ℕ) :
    deltaAt y z slots = (z - z ^ 2) * ∑ i ∈ range (valueBits * slots), y ^ i -
      ∑ j ∈ range slots, z ^ (3 + j) * ((2 ^ valueBits - 1 : ℕ) : F) := by
  have hmax : UInt64.size - 1 = 2 ^ valueBits - 1 := rfl
  have hweights : z * (∑ j ∈ range slots, z ^ (2 + j)) * ((2 ^ valueBits - 1 : ℕ) : F) =
      ∑ j ∈ range slots, z ^ (3 + j) * ((2 ^ valueBits - 1 : ℕ) : F) := by
    rw [mul_sum, sum_mul]
    exact sum_congr rfl fun j _ => by ring
  rw [deltaAt, hmax, hweights, sq]

private theorem getD_take {xs : List G} {n i : ℕ} (h : i < n) :
    (xs.take n).getD i 0 = xs.getD i 0 := by
  rw [List.getD_eq_getElem?_getD, List.getElem?_take_of_lt h, ← List.getD_eq_getElem?_getD]

/-- A power of `y` in a coefficient meets its inverse in the generator. -/
private theorem sum_coefficients (gens : Generators G) {y : F} (hy : y ≠ 0) (z : F) (slots : ℕ) :
    ∑ i ∈ range (valueBits * slots),
        (z + weightAt z i * y⁻¹ ^ i) • (gens.take (valueBits * slots)).h.getD i 0 =
      ∑ j ∈ range slots, ∑ b ∈ range valueBits,
        (z * y ^ (valueBits * j + b) + z ^ (2 + j) * ((2 ^ b : ℕ) : F)) •
          scaledHAt gens y (valueBits * j + b) := by
  have hentry : ∀ i ∈ range (valueBits * slots),
      (z + weightAt z i * y⁻¹ ^ i) • (gens.take (valueBits * slots)).h.getD i 0 =
        (z * y ^ i + weightAt z i) • scaledHAt gens y i := by
    intro i hi
    have hyi : y ^ i * y⁻¹ ^ i = 1 := by rw [← mul_pow, mul_inv_cancel₀ hy, one_pow]
    rw [Generators.take, getD_take (mem_range.mp hi), scaledHAt, smul_smul, add_mul, mul_assoc z,
      hyi, mul_one]
  rw [sum_congr rfl hentry, sum_slots]
  refine sum_congr rfl fun j _ => sum_congr rfl fun b hb => ?_
  rw [weightAt, slot_of_entry j (mem_range.mp hb), bit_of_entry j (mem_range.mp hb), Nat.cast_pow,
    Nat.cast_ofNat]

/-- The replay of a proof under the given challenges. -/
def replayOf [BasePoint G] [HashTarget G] (c : RangeChallenges F τ) (gens : Generators G)
    (proof : RangeProof F G) (tag : G) : Replay F G τ :=
  .ofChallenges c.transcript (gens.take (proofSize proof.commitments.length)) (Basis.ofTag tag)
    (slotCount proof.commitments.length) c.y c.z c.x c.w

variable [BasePoint G] [HashTarget G] {c : RangeChallenges F τ} {gens : Generators G}
  {proof : RangeProof F G} {tag : G}

/-- The slots without a coin add nothing. -/
theorem valueEquation_iff :
    (replayOf c gens proof tag).ValueEquation (slotCount proof.commitments.length) proof ↔
      ValuesOpen c tag proof := by
  have hslots : ∑ j ∈ range proof.commitments.length,
      c.z ^ (2 + j) • proof.commitments.getD j 0 =
        ∑ j ∈ range (slotCount proof.commitments.length),
          c.z ^ (2 + j) • proof.commitments.getD j 0 := by
    refine sum_subset (range_mono (le_slotCount _)) fun j _ hj => ?_
    rw [List.getD_eq_default _ _ (by simpa using hj), smul_zero]
  rw [ValuesOpen, ← hslots, sq c.x, proofSize, ← deltaAt_eq]
  rfl

/-- The sums over the generators `g` and `h` are one over the scaled generators. -/
theorem claimEquation_iff (hy : c.y ≠ 0) :
    (replayOf c gens proof tag).ClaimEquation proof ↔ ClaimCommitted c gens proof := by
  have hg : ∑ i ∈ range (proofSize proof.commitments.length),
      -c.z • (gens.take (proofSize proof.commitments.length)).g.getD i 0 =
        -(c.z • ∑ i ∈ range (proofSize proof.commitments.length), gens.g.getD i 0) := by
    rw [← neg_smul, smul_sum]
    exact sum_congr rfl fun i hi => by rw [Generators.take, getD_take (mem_range.mp hi)]
  have hh := sum_coefficients gens hy c.z (slotCount proof.commitments.length)
  have hclaim : ∀ gs hs : G,
      proof.a + c.x • proof.s + -proof.mu • blindingGenerator G + proof.tHat • c.w • gens.u +
        -(c.z • gs) + hs =
      proof.a + c.x • proof.s - c.z • gs + hs - proof.mu • blindingGenerator G +
        proof.tHat • c.w • gens.u := by
    intro gs hs
    rw [neg_smul]
    abel
  rw [ClaimCommitted, ← hh, ← hclaim, ← hg]
  rfl

section Argument

variable (hcap : proofSize proof.commitments.length ≤ gens.capacity)
  (hl : proof.argument.l.length = Nat.log2 (proofSize proof.commitments.length))
  (hr : proof.argument.r.length = Nat.log2 (proofSize proof.commitments.length))
include hcap hl hr

/-- The weights of the folded generators are products of challenges. -/
private theorem argumentOpens_iff {us : List F}
    (hus : us.length = Nat.log2 (proofSize proof.commitments.length)) :
    Opens us (replayOf c gens proof tag).params.g
        ((replayOf c gens proof tag).params.scaledH (replayOf c gens proof tag).y)
        (replayOf c gens proof tag).u proof.argument ↔
      ArgumentOpens c gens us proof := by
  have hn : proofSize proof.commitments.length = 2 ^ us.length := by
    rw [hus]
    exact proofSize_eq_two_pow _
  have hparams : (replayOf c gens proof tag).params.capacity = 2 ^ us.length :=
    (Generators.capacity_take hcap).trans hn
  rw [opens_iff hparams ((Generators.length_scaledH _ _).trans hparams) (hl.trans hus.symm)
    (hr.trans hus.symm), ArgumentOpens, hn]
  have hg : ∑ i ∈ range (2 ^ us.length), bitWeight us i •
      (replayOf c gens proof tag).params.g.getD i 0 =
        ∑ i ∈ range (2 ^ us.length), bitWeight us i • gens.g.getD i 0 :=
    sum_congr rfl fun i hi => by
      rw [← hn, mem_range] at hi
      exact congrArg _ (getD_take hi)
  have hh : ∑ i ∈ range (2 ^ us.length), (bitWeight us i)⁻¹ •
      ((replayOf c gens proof tag).params.scaledH (replayOf c gens proof tag).y).getD i 0 =
        ∑ i ∈ range (2 ^ us.length), (bitWeight us i)⁻¹ • scaledHAt gens c.y i :=
    sum_congr rfl fun i hi => by
      have hi : i < (replayOf c gens proof tag).params.capacity := hparams ▸ mem_range.mp hi
      have htake : (replayOf c gens proof tag).params.h.getD i 0 = gens.h.getD i 0 :=
        getD_take (hi.trans_eq (Generators.capacity_take hcap))
      rw [Generators.scaledH_eq_table, getD_table hi, htake]
      rfl
  rw [hg, hh]
  rfl

variable [BEq F] [LawfulBEq F] [BEq G] [LawfulBEq G] [LinearCombination F G]
  [LawfulLinearCombination F G] [Encoding G] [WideReduction F] [Transcript τ]

open Classical in
/-- Folding finds out whether a folding challenge is zero and, if none is, whether the argument
opens. -/
theorem openByFolding_eq (hcoins : proof.commitments.length ≤ maxCoins) :
    (replayOf c gens proof tag).openByFolding proof.argument =
      if 0 ∈ foldingChallenges c proof then .error (.argument .zeroChallenge)
      else if ArgumentOpens c gens (foldingChallenges c proof) proof then .ok ()
      else .error (.argument .notOpening) := by
  have hgh : (replayOf c gens proof tag).params.g.length =
      ((replayOf c gens proof tag).params.scaledH (replayOf c gens proof tag).y).length :=
    (Generators.length_scaledH _ _).symm
  have hg : (replayOf c gens proof tag).params.g.length = proofSize proof.commitments.length :=
    Generators.capacity_take hcap
  have hpow : 2 ^ proof.argument.l.length = proofSize proof.commitments.length := by
    rw [hl]
    exact (proofSize_eq_two_pow _).symm
  have hle : proof.argument.l.length ≤ 11 := hl.trans_le (roundCount_proofSize_le hcoins)
  have hlt : proof.argument.l.length < 2 ^ 32 := by omega
  have hmatch : roundsMatch proof.argument (proofSize proof.commitments.length) :=
    roundsMatch_of_lt (hl.trans hr.symm) (by omega) hpow
  have hus : (foldingChallenges c proof).length =
      Nat.log2 (proofSize proof.commitments.length) := by
    rw [foldingChallenges, length_drawnChallenges, List.length_zip, hl, hr, Nat.min_self]
  rw [Replay.openByFolding]
  -- The rounds match, so only a zero challenge keeps the check from its equation.
  by_cases hzero : 0 ∈ foldingChallenges c proof
  · have hc : challenges (F := F) (replayOf c gens proof tag).transcript proof.argument
        (replayOf c gens proof tag).params.g.length = .error .zeroChallenge := by
      rw [hg]
      exact challenges_of_zero_mem hmatch hzero
    rw [if_pos hzero, verify_eq_error_of_challenges hgh hc]
    rfl
  · rw [if_neg hzero]
    obtain ⟨t', ht'⟩ := challenges_of_zero_notMem hmatch hzero
    have hc : challenges (replayOf c gens proof tag).transcript proof.argument
        (replayOf c gens proof tag).params.g.length = .ok (foldingChallenges c proof, t') := by
      rw [hg]
      exact ht'
    by_cases ho : ArgumentOpens c gens (foldingChallenges c proof) proof
    · rw [if_pos ho, verify_eq_ok hlt hgh hc ((argumentOpens_iff hcap hl hr hus).mpr ho)]
      rfl
    · rw [if_neg ho, verify_eq_error hlt hgh hc]
      · rfl
      · exact fun h => ho ((argumentOpens_iff hcap hl hr hus).mp h)

end Argument

/-! ### The verifier -/

variable [BEq F] [LawfulBEq F] [BEq G] [LawfulBEq G] [LinearCombination F G]
  [LawfulLinearCombination F G] [Encoding G] [WideReduction F] [Transcript τ]

open Classical in
/-- Past the shape of a proof and its challenges, the checks report the first statement that
fails. -/
private theorem checks_eq (hcoins : proof.commitments.length ≤ maxCoins)
    (hl : proof.argument.l.length = Nat.log2 (proofSize proof.commitments.length))
    (hr : proof.argument.r.length = Nat.log2 (proofSize proof.commitments.length))
    (hcap : proofSize proof.commitments.length ≤ gens.capacity) (hy : c.y ≠ 0) :
    Except.mapError Rejection.verifierError (do
        (replayOf c gens proof tag).checkStatement1 proof
        (replayOf c gens proof tag).checkCommitment proof
        (replayOf c gens proof tag).openBy .folding proof.argument) =
      if ¬ ValuesOpen c tag proof then .error .statement1
      else if ¬ ClaimCommitted c gens proof then .error .statement2
      else if 0 ∈ foldingChallenges c proof then .error (.invalidInput "zero folding challenge")
      else if ¬ ArgumentOpens c gens (foldingChallenges c proof) proof then .error .statement2
      else .ok () := by
  have hs : (replayOf c gens proof tag).HasSlots (slotCount proof.commitments.length) :=
    Replay.hasSlots_ofChallenges (Generators.capacity_take hcap) ..
  have hk := le_slotCount proof.commitments.length
  by_cases hv : ValuesOpen c tag proof
  · rw [if_neg (not_not_intro hv), Replay.checkStatement1_eq_ok hs hk (valueEquation_iff.mpr hv)]
    by_cases hc : ClaimCommitted c gens proof
    · rw [if_neg (not_not_intro hc),
        Replay.checkCommitment_eq_ok hs ((claimEquation_iff hy).mpr hc)]
      simp only [bind, Except.bind, Replay.openBy]
      rw [openByFolding_eq hcap hl hr hcoins]
      split_ifs <;> rfl
    · rw [if_pos hc, Replay.checkCommitment_eq_error hs fun h => hc ((claimEquation_iff hy).mp h)]
      rfl
  · rw [if_pos hv, Replay.checkStatement1_eq_error hs hk fun h => hv (valueEquation_iff.mp h)]
    rfl

/-- **Verification.** For every proof, with lists of any length, the verifier reports the
verdict. -/
theorem verify_folding_eq_verdict (gens : Generators G) (proof : RangeProof F G) (tag : G) :
    verify τ .folding gens proof tag = verdict τ gens proof tag := by
  rw [verify, check, Replay.ofProof_eq, roundCount, verdict]
  by_cases hcoins : proof.commitments.length = 0 ∨ maxCoins < proof.commitments.length
  · rw [if_pos hcoins, if_pos hcoins]
    rfl
  rw [if_neg hcoins, if_neg hcoins]
  by_cases hrounds : proof.argument.l.length ≠ Nat.log2 (proofSize proof.commitments.length) ∨
      proof.argument.r.length ≠ Nat.log2 (proofSize proof.commitments.length)
  · rw [if_pos hrounds, if_pos hrounds]
    rfl
  rw [if_neg hrounds, if_neg hrounds]
  by_cases hcap : gens.capacity < proofSize proof.commitments.length
  · rw [if_pos hcap, if_pos hcap]
    rfl
  rw [if_neg hcap, if_neg hcap]
  by_cases hzero : (RangeChallenges.ofProof proof tag : RangeChallenges F τ).hasZero
  · rw [if_pos hzero, if_pos (RangeChallenges.hasZero_iff.mp hzero)]
    rfl
  rw [if_neg hzero, if_neg fun h => hzero (RangeChallenges.hasZero_iff.mpr h)]
  have hne := RangeChallenges.hasZero_eq_false_iff.mp (Bool.eq_false_iff.mpr hzero)
  have hle : proof.commitments.length ≤ maxCoins := not_lt.mp fun h => hcoins (.inr h)
  have hl : proof.argument.l.length = Nat.log2 (proofSize proof.commitments.length) :=
    not_not.mp fun h => hrounds (.inl h)
  have hr : proof.argument.r.length = Nat.log2 (proofSize proof.commitments.length) :=
    not_not.mp fun h => hrounds (.inr h)
  -- The verdict asks for zeros with classical logic, and the lemma by comparing.
  refine (checks_eq hle hl hr (not_lt.mp hcap) hne.1).trans ?_
  congr

open Ristretto in
/-- A proof that nobody made, of the right shape: its commitments do not open. -/
theorem verdict_forged_exponent :
    let gens := Generators.ofCapacity Exponent 64
    let forged : RangeProof Scalar Exponent :=
      ⟨[basePoint], 0, 0, 0, 0, 0, 0, 0, ⟨List.replicate 6 0, List.replicate 6 0, 0, 0, 0⟩⟩
    verify Checksum .folding gens forged basePoint = verdict Checksum gens forged basePoint ∧
      verdict Checksum gens forged basePoint = .error .statement1 := by
  intro gens forged
  have heq := verify_folding_eq_verdict (τ := Checksum) gens forged basePoint
  have hverify : verify Checksum .folding gens forged basePoint = .error .statement1 := by
    decide +kernel
  exact ⟨heq, heq.symm.trans hverify⟩

end RangeProof

end ConfidentialCoin
