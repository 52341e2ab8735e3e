import ConfidentialCoin.Proofs.InnerProduct.Safety
import ConfidentialCoin.Proofs.RangeProof.Binding
import ConfidentialCoin.Proofs.Ristretto.Exponent
import ConfidentialCoin.RangeProof.Verifier
import ConfidentialCoin.Ristretto.Suite

/-!
# Preconditions of checking

A verifier is given proofs by anybody. Every index, difference and length that it computes follows
from the number of coins, which is checked together with the number of rounds before anything else
(`Replay.Fits`); so each check of a replayed proof either succeeds or refuses the proof for a reason
of its own.

The two checks of an argument are not as safe when they are used alone, on an argument whose rounds
nobody has counted. `verifiers_fault_iff` says where they break. No law of the group enters, so it
is about the groups that are computed with as well.
-/

namespace ConfidentialCoin

open ConfidentialCoin.InnerProduct

variable {F G τ : Type}

/-- The two indices of a weight are in bounds. -/
theorem entryWeight_eq_getD [Mul F] {slots bits : ScalarVector F} {i : ℕ}
    (hslot : i / valueBits < slots.length) (hbit : i % valueBits < bits.length) (d : F) :
    entryWeight slots bits i =
      .ok (slots.getD (i / valueBits) d * bits.getD (i % valueBits) d) := by
  rw [entryWeight, entry_eq_getD hslot d, entry_eq_getD hbit d]
  rfl

/-- Only a fault is reported as a fault. -/
theorem ArgumentError.verifierError_eq_fault_iff {e : ArgumentError} {f : Fault} :
    e.verifierError = .fault f ↔ e = .fault f := by
  cases e <;> simp [verifierError]

namespace Replay

/-! ### The sizes of a replay -/

/-- The vectors of a replay are as long as the checks of a proof for so many coins need them. -/
structure Fits (r : Replay F G τ) (coins : ℕ) : Prop where
  /-- Every coin has a weight. -/
  coins_le : coins ≤ r.weights.length
  /-- The vectors hold the bits of the slots. -/
  n_eq : r.n = valueBits * r.weights.length
  /-- There is a generator for each entry. -/
  capacity_eq : r.params.capacity = r.n

theorem Fits.length_g {r : Replay F G τ} {coins : ℕ} (h : r.Fits coins) :
    r.params.g.length = r.n := h.capacity_eq

theorem Fits.length_h {r : Replay F G τ} {coins : ℕ} (h : r.Fits coins) :
    r.params.h.length = r.n := r.params.length_h.trans h.length_g

/-- A replay of a proof has the sizes that the proof needs. -/
theorem fits_of_ofProof [Zero F] [One F] [Mul F] [BEq F] [SMul F G] [BasePoint G] [HashTarget G]
    [Encoding G] [WideReduction F] [Transcript τ] {gens : Generators G} {proof : RangeProof F G}
    {tag : G} {r : Replay F G τ} (h : ofProof gens proof tag = .ok r) :
    r.Fits proof.commitments.length := by
  obtain ⟨-, -, -, -, hcap, -, rfl⟩ := ofProof_eq_ok_iff.mp h
  have hweights : (drawn gens proof tag : Replay F G τ).weights.length =
      slotCount proof.commitments.length := length_slotWeights ..
  exact ⟨(le_slotCount _).trans_eq hweights.symm, by rw [hweights]; rfl,
    Generators.capacity_take hcap⟩

/-! ### The checks of a replay -/

section Checks

variable [Zero F] [One F] [Add F] [Sub F] [Mul F] [NatCast F] [LinearCombination F G] [BEq G]
  {r : Replay F G τ} {proof : RangeProof F G} {coins : ℕ} {e : Rejection}

/-- The first check fails for its own reason only. -/
theorem checkStatement1_eq_error_of_fits (h : r.Fits proof.commitments.length)
    (he : r.checkStatement1 proof = .error e) : e = .valueCommitments := by
  have htake : (r.weights.take proof.commitments.length).length = proof.commitments.length := by
    rw [List.length_take, Nat.min_eq_left h.coins_le]
  have hlengths : (r.weights.take proof.commitments.length ++
      [r.delta, r.x, r.x * r.x]).length =
        (proof.commitments ++ [r.basis.value, proof.t1, proof.t2]).length := by
    rw [List.length_append, List.length_append, htake]
    rfl
  rw [checkStatement1, combine?_of_length_eq hlengths] at he
  simp only [bind, Except.bind, Except.mapError] at he
  split_ifs at he
  exact (Except.error.inj he).symm

variable [Neg F] [Inv F]

omit [Sub F] [LinearCombination F G] [BEq G] [Neg F] in
/-- Every entry has a weight, and a power of the inverse challenge. -/
theorem claimCoefficient_eq_ok (h : r.Fits coins) {i : ℕ} (hi : i < r.n) :
    r.claimCoefficient (bitWeights F) (ScalarVector.powers r.y⁻¹ r.n) i =
      .ok (r.z + r.weights.getD (i / valueBits) 0 * (bitWeights F).getD (i % valueBits) 0 *
        (ScalarVector.powers r.y⁻¹ r.n).getD i 0) := by
  have hbit : i % valueBits < (bitWeights F).length := by
    rw [length_bitWeights]
    exact Nat.mod_lt i valueBits_pos
  have hpower : i < (ScalarVector.powers r.y⁻¹ r.n).length := by
    rwa [ScalarVector.length_powers]
  rw [claimCoefficient, entryWeight_eq_getD (slot_lt (h.n_eq ▸ hi)) hbit 0,
    entry_eq_getD hpower 0]
  rfl

omit [Sub F] in
theorem checkCommitment_eq_error_of_fits (h : r.Fits coins)
    (he : r.checkCommitment proof = .error e) : e = .claimCommitment := by
  rw [checkCommitment, mapM_range_eq_ok fun i hi => claimCoefficient_eq_ok h hi] at he
  simp only [bind, Except.bind, Except.mapError] at he
  rw [combine?_of_length_eq (by simp [h.length_g, h.length_h])] at he
  simp only at he
  split_ifs at he
  exact (Except.error.inj he).symm

end Checks

/-! ### The opening of a replay -/

section Openings

variable [Zero F] [One F] [Neg F] [Mul F] [Inv F] [BEq F] [LawfulBEq F] [SMul F G] [Zero G]
  [LinearCombination F G] [BEq G] [Encoding G] [WideReduction F] [Transcript τ] {r : Replay F G τ}
  {coins : ℕ} {arg : InnerProductProof F G} {e : Rejection}

omit [Neg F] [Zero G] in
/-- Folding the argument of a replayed proof meets no fault: its rounds have been counted. -/
theorem openByFolding_error_ne_fault (hb : Bounded arg r.n) (he : r.openByFolding arg = .error e)
    (f : Fault) : e.verifierError ≠ .fault f := by
  cases hv : InnerProduct.verify r.transcript r.params.g (r.params.scaledH r.y) r.u arg with
  | error e' =>
    rw [openByFolding, hv] at he
    obtain rfl := Except.error.inj he
    intro hf
    rw [Rejection.verifierError, ArgumentError.verifierError_eq_fault_iff] at hf
    exact Nat.not_le.mpr hb.rounds_lt (verify_eq_fault_iff.mp (hf ▸ hv)).2.1
  | ok t =>
    rw [openByFolding, hv] at he
    cases he

omit [SMul F G] in
/-- Summing up the argument of a replayed proof meets no fault: there is room for its entries. -/
theorem openAtOnce_error_ne_fault (h : r.Fits coins) (hb : Bounded arg r.n)
    (he : r.openAtOnce arg = .error e) (f : Fault) : e.verifierError ≠ .fault f := by
  cases hc : challenges (F := F) r.transcript arg r.n with
  | error e' =>
    rw [openAtOnce, coefficients_eq_error hc] at he
    obtain rfl := Except.error.inj he
    intro hf
    rw [Rejection.verifierError, ArgumentError.verifierError_eq_fault_iff] at hf
    exact challenges_ne_fault (hf ▸ hc)
  | ok out =>
    obtain ⟨c, hl, hr, hs, heq⟩ := exists_coefficients_eq hc
    rw [openAtOnce, heq, if_pos hb.length_lt] at he
    simp only [bind, Except.bind, Except.mapError] at he
    -- Besides the claim and `u` there are two entries for each round and two for each generator.
    rw [combine?_of_length_eq (by simp [hl, hr, hs, h.length_g, h.length_h])] at he
    simp only at he
    split_ifs at he
    obtain rfl := Except.error.inj he
    rintro ⟨⟩

theorem openBy_error_ne_fault (h : r.Fits coins) (hb : Bounded arg r.n) {method : Method}
    (he : r.openBy method arg = .error e) (f : Fault) : e.verifierError ≠ .fault f := by
  cases method with
  | folding => exact openByFolding_error_ne_fault hb he f
  | atOnce => exact openAtOnce_error_ne_fault h hb he f

end Openings

end Replay

/-! ### The verifiers -/

section Verifiers

variable [Zero F] [One F] [Add F] [Sub F] [Neg F] [Mul F] [Inv F] [NatCast F] [BEq F] [LawfulBEq F]
  [Zero G] [SMul F G] [LinearCombination F G] [BasePoint G] [HashTarget G] [Encoding G]
  [WideReduction F] [BEq G] [Transcript τ]

/-- No proof makes a verifier fault. -/
theorem RangeProof.verify_ne_fault (method : Method) (gens : Generators G) (proof : RangeProof F G)
    (tag : G) (f : Fault) : verify τ method gens proof tag ≠ .error (.fault f) := by
  have hcheck : ∀ e, check τ method gens proof tag = .error e → e.verifierError ≠ .fault f := by
    intro e he
    rcases bind_eq_error_iff.mp he with hr | ⟨r, hr, he⟩
    · exact Replay.ofProof_ne_fault hr f
    -- From here on every size is known.
    have hfits := Replay.fits_of_ofProof hr
    rcases bind_eq_error_iff.mp he with hv | ⟨-, -, he⟩
    · rw [Replay.checkStatement1_eq_error_of_fits hfits hv]
      rintro ⟨⟩
    rcases bind_eq_error_iff.mp he with hc | ⟨-, -, he⟩
    · rw [Replay.checkCommitment_eq_error_of_fits hfits hc]
      rintro ⟨⟩
    exact Replay.openBy_error_ne_fault hfits (Replay.bounded_of_ofProof hr) he f
  rw [verify]
  cases hc : check τ method gens proof tag with
  | error e => exact fun h => hcheck e hc (Except.error.inj h)
  | ok _ => rintro ⟨⟩

omit [LawfulBEq F] in
/-- A proof of the wrong shape, or one that there are no generators for, is an invalid input. -/
theorem RangeProof.verify_eq_invalidInput (gens : Generators G) {proof : RangeProof F G}
    (h : ¬ (proof.HasShape ∧ proofSize proof.commitments.length ≤ gens.capacity)) :
    ∃ text, ∀ method tag, verify τ method gens proof tag = .error (.invalidInput text) := by
  have hrefused : ∃ (e : Rejection) (text : String), e.verifierError = .invalidInput text ∧
      ∀ tag, (Replay.ofProof gens proof tag : Except Rejection (Replay F G τ)) = .error e := by
    simp only [Replay.ofProof_eq]
    by_cases hcoins : proof.commitments.length = 0 ∨ maxCoins < proof.commitments.length
    · exact ⟨_, _, rfl, fun tag => if_pos hcoins⟩
    simp only [if_neg hcoins]
    by_cases hrounds :
        proof.argument.l.length ≠ roundCount (proofSize proof.commitments.length) ∨
        proof.argument.r.length ≠ roundCount (proofSize proof.commitments.length)
    · exact ⟨_, _, rfl, fun tag => if_pos hrounds⟩
    simp only [if_neg hrounds]
    by_cases hcap : gens.capacity < proofSize proof.commitments.length
    · exact ⟨_, _, rfl, fun tag => if_pos hcap⟩
    · exact absurd ⟨⟨by omega, by omega, by omega, by omega⟩, by omega⟩ h
  obtain ⟨e, text, he, hreplay⟩ := hrefused
  refine ⟨text, fun method tag => ?_⟩
  rw [verify, check, hreplay]
  exact congrArg Except.error he

/-- **Safety.** Neither verifier answers with a fault, whatever lengths a proof has: no index is
past an end or below zero, no inverse of zero is taken, and sums of products have as many scalars as
elements. What has the wrong shape is an invalid input for that reason, whatever else it holds.

Used alone, the two checks of an argument refuse the wrong shape in the same way, as far as they see
that it is wrong. Of what they let pass, folding faults on every argument of `2 ^ 32` rounds or
more, and the coefficients fault at every length from `2 ^ 58` on, unless a folding challenge is
zero. They fault on nothing else. -/
theorem verifiers_fault_iff :
    (∀ (gens : Generators G) (proof : RangeProof F G),
      (∀ method tag f, RangeProof.verify τ method gens proof tag ≠ .error (.fault f)) ∧
      (¬ (proof.HasShape ∧ proofSize proof.commitments.length ≤ gens.capacity) →
        ∃ text, ∀ method tag,
          RangeProof.verify τ method gens proof tag = .error (.invalidInput text))) ∧
    (∀ (g h : List G) (arg : InnerProductProof F G),
      (∀ (t : τ) u f, InnerProduct.verify t g h u arg = .error (.fault f) ↔
        f = .indexOutOfRange ∧ 2 ^ 32 ≤ arg.l.length ∧ g.length = h.length ∧
          roundsMatch arg g.length ∧
          0 ∉ drawnChallenges F (arg.l.zip arg.r) (Layout.innerProductDomain t g.length)) ∧
      (¬ (g.length = h.length ∧ roundsMatch arg g.length) →
        ∃ text, ∀ (t : τ) u, (InnerProduct.verify t g h u arg).mapError
          ArgumentError.verifierError = .error (.invalidInput text))) ∧
    ∀ (arg : InnerProductProof F G) n,
      (∀ (t : τ) f, coefficients (F := F) t arg n = .error (.fault f) ↔
        f = .noRoom ∧ 2 ^ 58 ≤ n ∧ roundsMatch arg n ∧
          0 ∉ drawnChallenges F (arg.l.zip arg.r) (Layout.innerProductDomain t n)) ∧
      (¬ roundsMatch arg n →
        ∃ text, ∀ t : τ, (coefficients (F := F) t arg n).mapError
          ArgumentError.verifierError = .error (.invalidInput text)) := by
  refine ⟨fun gens proof => ⟨fun method tag f => RangeProof.verify_ne_fault method gens proof tag f,
    RangeProof.verify_eq_invalidInput gens⟩, fun g h arg =>
    ⟨fun t u f => ?_, fun hshape => ?_⟩, fun arg n => ⟨fun t f => ?_, fun hrounds => ?_⟩⟩
  · rw [verify_eq_fault_iff, exists_challenges_eq_ok_iff]
  · by_cases hgh : g.length = h.length
    · refine ⟨"inner product rounds do not match length", fun t u => ?_⟩
      rw [InnerProduct.verify, if_neg (not_not_intro hgh), challenges,
        if_neg fun hrounds => hshape ⟨hgh, hrounds⟩]
      rfl
    · refine ⟨"generator vectors differ in length", fun t u => ?_⟩
      rw [InnerProduct.verify, if_pos hgh]
      rfl
  · rw [coefficients_eq_fault_iff, exists_challenges_eq_ok_iff]
  · refine ⟨"inner product rounds do not match length", fun t => ?_⟩
    rw [coefficients_eq_error (if_neg hrounds)]
    rfl

open Ristretto in
/-- Over the standard group, a proof about one coin and an argument of one round, both of the right
shape, and a proof without coins and an argument with a half of a round. -/
theorem verifiers_fault_iff_ristretto :
    let arg : InnerProductProof Scalar Point := ⟨[basePoint], [basePoint], 1, 2, basePoint⟩
    let sixRounds : InnerProductProof Scalar Point :=
      ⟨List.replicate 6 basePoint, List.replicate 6 basePoint, 1, 2, basePoint⟩
    let proof : Proof := ⟨[basePoint], 0, 0, 0, 0, 3, 4, 5, sixRounds⟩
    let g : List Point := [basePoint, 0]
    let halfArg : InnerProductProof Scalar Point := ⟨[basePoint], [], 1, 2, basePoint⟩
    let emptyProof : Proof := ⟨[], 0, 0, 0, 0, 3, 4, 5, sixRounds⟩
    (proof.HasShape ∧ proofSize proof.commitments.length ≤ sharedGenerators.capacity ∧
      roundsMatch arg g.length) ∧
    ((∀ method tag f,
        RangeProof.verify Merlin method sharedGenerators proof tag ≠ .error (.fault f)) ∧
      (∀ (t : Merlin) u f, InnerProduct.verify t g g u arg ≠ .error (.fault f)) ∧
      ∀ (t : Merlin) f, coefficients (F := Scalar) t arg g.length ≠ .error (.fault f)) ∧
    (∃ text, ∀ method tag,
      RangeProof.verify Merlin method sharedGenerators emptyProof tag =
        .error (.invalidInput text)) ∧
    (∃ text, ∀ (t : Merlin) u, (InnerProduct.verify t g g u halfArg).mapError
      ArgumentError.verifierError = .error (.invalidInput text)) ∧
    ∃ text, ∀ t : Merlin, (coefficients (F := Scalar) t halfArg 3).mapError
      ArgumentError.verifierError = .error (.invalidInput text) := by
  intro arg sixRounds proof g halfArg emptyProof
  obtain ⟨hproof, hfolding, hcoefficients⟩ :=
    verifiers_fault_iff (F := Scalar) (G := Point) (τ := Merlin)
  have hshape : proof.HasShape := ⟨by decide, by decide, by decide, by decide⟩
  have hcapacity : proofSize proof.commitments.length ≤ sharedGenerators.capacity := by
    rw [sharedGenerators, Generators.capacity_ofCapacity]
    decide
  refine ⟨⟨hshape, hcapacity, by decide⟩, ⟨(hproof sharedGenerators proof).1, fun t u f hf => ?_,
    fun t f hf => ?_⟩, (hproof sharedGenerators emptyProof).2 ?_, (hfolding g g halfArg).2 ?_,
    (hcoefficients halfArg 3).2 (by decide)⟩
  · exact absurd (((hfolding g g arg).1 t u f).mp hf).2.1 (by decide)
  · exact absurd (((hcoefficients arg g.length).1 t f).mp hf).2.1 (by decide)
  · exact fun h => absurd h.1.pos (Nat.lt_irrefl 0)
  · exact fun h => absurd h.2 (by decide)

open Ristretto in
/-- Eight generators and an argument of `2 ^ 32 + 3` rounds: none of the generators is left when its
claim is opened. And an argument of 58 rounds, for which there is no room. -/
theorem argument_checks_fault :
    let t : Checksum := ⟨0⟩
    let g : List Exponent := List.replicate 8 basePoint
    InnerProduct.verify t g g basePoint (Exponent.uniformArgument (2 ^ 32 + 3)) =
        .error (.fault .indexOutOfRange) ∧
      coefficients (F := Scalar) t (Exponent.uniformArgument 58) (2 ^ 58) =
        .error (.fault .noRoom) := by
  intro t g
  have hg : g.length = 8 := List.length_replicate
  have hrounds : 2 ^ 32 ≤ (Exponent.uniformArgument (2 ^ 32 + 3)).l.length := by
    rw [Exponent.length_l_uniformArgument]
    exact Nat.le_add_right _ _
  obtain ⟨out, hout⟩ := Checksum.exists_challenges_eq_ok
    (Exponent.roundsMatch_uniformArgument_iff (k := 2 ^ 32 + 3).mpr ⟨by decide, hg.symm⟩) t
  obtain ⟨out', hout'⟩ := Checksum.exists_challenges_eq_ok
    (Exponent.roundsMatch_uniformArgument_iff (k := 58) (n := 2 ^ 58).mpr (by decide)) t
  exact ⟨verify_eq_fault_iff.mpr ⟨rfl, hrounds, rfl, out, hout⟩,
    coefficients_eq_fault_iff.mpr ⟨rfl, Nat.le_refl _, out', hout'⟩⟩

end Verifiers

end ConfidentialCoin
