import ConfidentialCoin.Proofs.Commitment.Vectors
import ConfidentialCoin.Proofs.InnerProduct.Opening
import ConfidentialCoin.Proofs.RangeProof.Polynomial
import ConfidentialCoin.RangeProof.Replay

/-!
# The two equations of the outer proof

Over a module the checks of a replayed proof are equations between sums, indexed by slots and
entries: `ValueEquation` about the commitments to the values, and `ClaimEquation` about the claim of
the argument. A replay with the sizes of some number of slots (`HasSlots`) never runs into a broken
precondition: each check succeeds when its equation holds and refuses the proof when it does not.

`Replay.ofProof_eq` says when there is a replay, and which one.
-/

namespace ConfidentialCoin

open Finset

variable {F G τ : Type}

/-! ### Replays -/

theorem RangeChallenges.hasZero_eq_false_iff [Zero F] [BEq F] [LawfulBEq F]
    {c : RangeChallenges F τ} :
    c.hasZero = false ↔ c.y ≠ 0 ∧ c.z ≠ 0 ∧ c.x ≠ 0 ∧ c.w ≠ 0 := by
  simp [hasZero, and_assoc]

theorem RangeChallenges.hasZero_iff [Zero F] [BEq F] [LawfulBEq F] {c : RangeChallenges F τ} :
    c.hasZero ↔ c.y = 0 ∨ c.z = 0 ∨ c.x = 0 ∨ c.w = 0 := by
  simp [hasZero, or_assoc]

namespace Replay

/-- The replay with the given challenges, over `slots` slots. -/
def ofChallenges [One F] [Mul F] [SMul F G] (t : τ) (params : Generators G) (basis : Basis G)
    (slots : ℕ) (y z x w : F) : Replay F G τ :=
  ⟨params, basis, t, valueBits * slots, y, z, x, w • params.u, slotWeights z slots⟩

/-- What is replayed of a proof of the right shape. -/
def drawn [One F] [Mul F] [SMul F G] [BasePoint G] [HashTarget G] [Encoding G] [WideReduction F]
    [Transcript τ] (gens : Generators G) (proof : RangeProof F G) (tag : G) : Replay F G τ :=
  let c : RangeChallenges F τ := .ofProof proof tag
  let coins := proof.commitments.length
  ofChallenges c.transcript (gens.take (proofSize coins)) (Basis.ofTag tag) (slotCount coins)
    c.y c.z c.x c.w

section

variable [Zero F] [One F] [Mul F] [BEq F] [SMul F G] [BasePoint G] [HashTarget G] [Encoding G]
  [WideReduction F] [Transcript τ] {gens : Generators G} {proof : RangeProof F G} {tag : G}
  {r : Replay F G τ}

/-- The conditions for a replay, in the order in which they are looked at. -/
theorem ofProof_eq :
    (ofProof gens proof tag : Except Rejection (Replay F G τ)) =
      if proof.commitments.length = 0 ∨ maxCoins < proof.commitments.length then .error .coinCount
      else if
        proof.argument.l.length ≠ InnerProduct.roundCount (proofSize proof.commitments.length) ∨
        proof.argument.r.length ≠ InnerProduct.roundCount (proofSize proof.commitments.length)
      then .error .roundCount
      else if gens.capacity < proofSize proof.commitments.length then
        .error (.refused (.invalidInput "proof dimension exceeds generator capacity"))
      else if (RangeChallenges.ofProof proof tag : RangeChallenges F τ).hasZero then
        .error .zeroChallenge
      else .ok (drawn gens proof tag) := by
  rw [ofProof]
  refine if_congr Iff.rfl rfl (if_congr Iff.rfl rfl ?_)
  rcases Nat.lt_or_ge gens.capacity (proofSize proof.commitments.length) with hcap | hcap
  · rw [if_pos hcap, Generators.first_of_lt hcap]
    rfl
  · rw [if_neg (Nat.not_lt.mpr hcap), Generators.first_of_le hcap]
    rfl

/-- Replaying a proof breaks no precondition. -/
theorem ofProof_ne_fault {e : Rejection}
    (h : (ofProof gens proof tag : Except Rejection (Replay F G τ)) = .error e) (f : Fault) :
    e.verifierError ≠ .fault f := by
  rw [ofProof_eq] at h
  split_ifs at h
  all_goals
    obtain rfl := Except.error.inj h
    rintro ⟨⟩

/-- There is a replay exactly of a proof of the right shape, for which there are generators and none
of whose challenges is zero. -/
theorem ofProof_eq_ok_iff :
    ofProof gens proof tag = .ok r ↔
      0 < proof.commitments.length ∧ proof.commitments.length ≤ maxCoins ∧
        proof.argument.l.length =
          InnerProduct.roundCount (proofSize proof.commitments.length) ∧
        proof.argument.r.length =
          InnerProduct.roundCount (proofSize proof.commitments.length) ∧
        proofSize proof.commitments.length ≤ gens.capacity ∧
        (RangeChallenges.ofProof proof tag : RangeChallenges F τ).hasZero = false ∧
        drawn gens proof tag = r := by
  rw [ofProof_eq]
  -- One case for each reason to refuse, in the order in which they are looked at.
  split_ifs with hcoins hrounds hcap hzero
  · exact iff_of_false (by rintro ⟨⟩) (by omega)
  · exact iff_of_false (by rintro ⟨⟩) (by omega)
  · exact iff_of_false (by rintro ⟨⟩) (by omega)
  · refine iff_of_false (by rintro ⟨⟩) ?_
    rintro ⟨-, -, -, -, -, hz, -⟩
    exact Bool.eq_false_iff.mp hz hzero
  · constructor
    · intro h
      exact ⟨by omega, by omega, by omega, by omega, by omega, Bool.eq_false_iff.mpr hzero,
        Except.ok.inj h⟩
    · rintro ⟨-, -, -, -, -, -, rfl⟩
      rfl

/-- The argument of a replayed proof has at most 11 rounds, about at most 2048 entries. -/
theorem bounded_of_ofProof (h : ofProof gens proof tag = .ok r) :
    InnerProduct.Bounded proof.argument r.n := by
  obtain ⟨-, hcoins, hl, -, -, -, rfl⟩ := ofProof_eq_ok_iff.mp h
  have hrounds := roundCount_proofSize_le hcoins
  constructor
  · rw [hl]
    omega
  · change proofSize proof.commitments.length < 2 ^ 58
    rw [proofSize_eq_two_pow]
    exact Nat.pow_lt_pow_right Nat.one_lt_two (by omega)

end

/-- The sizes of a replay are those of `slots` slots. -/
structure HasSlots [Field F] (r : Replay F G τ) (slots : ℕ) : Prop where
  /-- The vectors hold the bits of the slots. -/
  n_eq : r.n = valueBits * slots
  /-- There is a generator for each entry. -/
  capacity_eq : r.params.capacity = r.n
  /-- There is a weight for each slot. -/
  weights_eq : r.weights = slotWeights r.z slots

theorem hasSlots_ofChallenges [Field F] [SMul F G] {params : Generators G} {slots : ℕ}
    (h : params.capacity = valueBits * slots) (t : τ) (basis : Basis G) (y z x w : F) :
    (ofChallenges t params basis slots y z x w).HasSlots slots := ⟨rfl, h, rfl⟩

/-- Once a proof is replayed, everything it is checked against has the right size. -/
theorem hasSlots_of_ofProof [Field F] [BEq F] [SMul F G] [BasePoint G] [HashTarget G] [Encoding G]
    [WideReduction F] [Transcript τ] {gens : Generators G} {proof : RangeProof F G} {tag : G}
    {r : Replay F G τ} (h : ofProof gens proof tag = .ok r) :
    r.HasSlots (slotCount proof.commitments.length) := by
  obtain ⟨-, -, -, -, hcap, -, rfl⟩ := ofProof_eq_ok_iff.mp h
  exact hasSlots_ofChallenges (Generators.capacity_take hcap) ..

/-- The constant of the value equation is a sum over slots and entries. -/
theorem delta_eq [Field F] {r : Replay F G τ} {slots : ℕ} (h : r.HasSlots slots) :
    r.delta = deltaAt r.y r.z slots := by
  rw [delta, h.n_eq, h.weights_eq, slotWeights_eq_table, ScalarVector.powers_eq_table, sum_table,
    sum_table, deltaAt]

/-! ### The equations -/

variable [Field F] [AddCommGroup G] [Module F G]

/-- The commitments to the values and to the coefficients open to the inner product. -/
def ValueEquation (r : Replay F G τ) (slots : ℕ) (proof : RangeProof F G) : Prop :=
  proof.tHat • r.basis.value + proof.tauX • r.basis.blinding =
    ∑ j ∈ range proof.commitments.length, r.z ^ (2 + j) • proof.commitments.getD j 0 +
      deltaAt r.y r.z slots • r.basis.value + r.x • proof.t1 + (r.x * r.x) • proof.t2

/-- The claim of the argument is the one that `A` and `S` commit to. -/
def ClaimEquation (r : Replay F G τ) (proof : RangeProof F G) : Prop :=
  proof.argument.p =
    proof.a + r.x • proof.s + -proof.mu • r.basis.blinding + proof.tHat • r.u +
      ∑ i ∈ range r.n, -r.z • r.params.g.getD i 0 +
      ∑ i ∈ range r.n, (r.z + weightAt r.z i * r.y⁻¹ ^ i) • r.params.h.getD i 0

/-! ### The checks decide them -/

variable [LinearCombination F G] [LawfulLinearCombination F G] [BEq G] [LawfulBEq G]
  {r : Replay F G τ} {slots : ℕ} {proof : RangeProof F G}

omit [LawfulBEq G] in
/-- The first check compares two sums over the coins. -/
private theorem checkStatement1_eq (h : r.HasSlots slots)
    (hk : proof.commitments.length ≤ slots) :
    r.checkStatement1 proof =
      if proof.tHat • r.basis.value + proof.tauX • r.basis.blinding ==
        ∑ j ∈ range proof.commitments.length, r.z ^ (2 + j) • proof.commitments.getD j 0 +
          deltaAt r.y r.z slots • r.basis.value + r.x • proof.t1 + (r.x * r.x) • proof.t2
      then .ok () else .error .valueCommitments := by
  have htake : (r.weights.take proof.commitments.length).length = proof.commitments.length := by
    rw [List.length_take, h.weights_eq, length_slotWeights, Nat.min_eq_left hk]
  have hsum : pairing (r.weights.take proof.commitments.length) proof.commitments =
      ∑ j ∈ range proof.commitments.length, r.z ^ (2 + j) • proof.commitments.getD j 0 := by
    have hw : r.weights.take proof.commitments.length =
        table proof.commitments.length fun j => r.z ^ (2 + j) := by
      rw [h.weights_eq, slotWeights_eq_table, table, ← List.map_take, List.take_range,
        Nat.min_eq_left hk, table]
    rw [hw, ← pairing_table, table_getD rfl]
  have hright : combine? (r.weights.take proof.commitments.length ++ [r.delta, r.x, r.x * r.x])
      (proof.commitments ++ [r.basis.value, proof.t1, proof.t2]) =
        .ok (∑ j ∈ range proof.commitments.length, r.z ^ (2 + j) • proof.commitments.getD j 0 +
          deltaAt r.y r.z slots • r.basis.value + r.x • proof.t1 + (r.x * r.x) • proof.t2) := by
    rw [combine?_eq_pairing (by rw [List.length_append, List.length_append, htake]; rfl),
      pairing_append htake, hsum, delta_eq h]
    simp only [pairing_cons, pairing_nil_left, add_zero, add_assoc]
  rw [checkStatement1, hright, Basis.commit, combine_pair]
  rfl

theorem checkStatement1_eq_ok (h : r.HasSlots slots) (hk : proof.commitments.length ≤ slots)
    (he : r.ValueEquation slots proof) : r.checkStatement1 proof = .ok () := by
  rw [checkStatement1_eq h hk, if_pos (beq_iff_eq.mpr he)]

theorem checkStatement1_eq_error (h : r.HasSlots slots) (hk : proof.commitments.length ≤ slots)
    (he : ¬ r.ValueEquation slots proof) :
    r.checkStatement1 proof = .error .valueCommitments := by
  rw [checkStatement1_eq h hk, if_neg fun hb => he (beq_iff_eq.mp hb)]

theorem checkStatement1_eq_ok_iff (h : r.HasSlots slots)
    (hk : proof.commitments.length ≤ slots) :
    r.checkStatement1 proof = .ok () ↔ r.ValueEquation slots proof := by
  refine ⟨fun hc => ?_, checkStatement1_eq_ok h hk⟩
  by_contra he
  rw [checkStatement1_eq_error h hk he] at hc
  cases hc

omit [LawfulBEq G] in
/-- The second check compares a sum over the entries with the claim. -/
private theorem checkCommitment_eq (h : r.HasSlots slots) :
    r.checkCommitment proof =
      if proof.a + r.x • proof.s + -proof.mu • r.basis.blinding + proof.tHat • r.u +
        ∑ i ∈ range r.n, -r.z • r.params.g.getD i 0 +
        ∑ i ∈ range r.n, (r.z + weightAt r.z i * r.y⁻¹ ^ i) • r.params.h.getD i 0 ==
          proof.argument.p then .ok () else .error .claimCommitment := by
  have hcoefficients : (List.range r.n).mapM (r.claimCoefficient (bitWeights F)
      (ScalarVector.powers r.y⁻¹ r.n)) =
        .ok (table r.n fun i => r.z + weightAt r.z i * r.y⁻¹ ^ i) :=
    mapM_range_eq_ok fun i hi => by
      rw [claimCoefficient, h.weights_eq, entryWeight_eq r.z (h.n_eq ▸ hi),
        ScalarVector.powers_eq_table, entry_table hi]
      rfl
  -- The sum is taken in three parts: the four single elements, the generators `g`, and `h`.
  have hexpected : combine? ([1, r.x, -proof.mu, proof.tHat] ++ List.replicate r.n (-r.z) ++
      table r.n fun i => r.z + weightAt r.z i * r.y⁻¹ ^ i)
      ([proof.a, proof.s, r.basis.blinding, r.u] ++ r.params.g ++ r.params.h) =
        .ok (proof.a + r.x • proof.s + -proof.mu • r.basis.blinding + proof.tHat • r.u +
          ∑ i ∈ range r.n, -r.z • r.params.g.getD i 0 +
          ∑ i ∈ range r.n, (r.z + weightAt r.z i * r.y⁻¹ ^ i) • r.params.h.getD i 0) := by
    have hg : r.params.g.length = r.n := h.capacity_eq
    have hh : r.params.h.length = r.n := r.params.length_h.trans hg
    rw [replicate_eq_table, combine?_eq_pairing (by simp [hg, hh]), pairing_append (by simp [hg]),
      pairing_append (by simp), Generators.pairing_g h.capacity_eq,
      Generators.pairing_h h.capacity_eq]
    simp only [pairing_cons, pairing_nil_left, one_smul, add_zero, add_assoc]
  rw [checkCommitment, hcoefficients]
  simp only [bind, Except.bind, Except.mapError]
  rw [hexpected]

theorem checkCommitment_eq_ok (h : r.HasSlots slots) (he : r.ClaimEquation proof) :
    r.checkCommitment proof = .ok () := by
  rw [checkCommitment_eq h, if_pos (beq_iff_eq.mpr he.symm)]

theorem checkCommitment_eq_error (h : r.HasSlots slots) (he : ¬ r.ClaimEquation proof) :
    r.checkCommitment proof = .error .claimCommitment := by
  rw [checkCommitment_eq h, if_neg fun hb => he (beq_iff_eq.mp hb).symm]

theorem checkCommitment_eq_ok_iff (h : r.HasSlots slots) :
    r.checkCommitment proof = .ok () ↔ r.ClaimEquation proof := by
  refine ⟨fun hc => ?_, checkCommitment_eq_ok h⟩
  by_contra he
  rw [checkCommitment_eq_error h he] at hc
  cases hc

end Replay

end ConfidentialCoin
