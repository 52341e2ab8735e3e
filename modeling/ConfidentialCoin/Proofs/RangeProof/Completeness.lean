import ConfidentialCoin.Proofs.RangeProof.Agreement
import ConfidentialCoin.Proofs.RangeProof.Codec

/-!
# Completeness

A proof made of a witness is accepted. The verifier replays the challenges of the prover because
both write the same on their transcripts (`Honest.ofProof_eq_ok`), so the equations that the outer
part satisfies are the ones it checks, and the argument opens because its claim is true
(`Honest.verify_eq_ok`). On the way from the one to the other the proof can be written as bytes and
read back.
-/

namespace ConfidentialCoin

open ConfidentialCoin.InnerProduct

variable {F G τ : Type} [Field F] [AddCommGroup G] [Module F G] [BEq F] [LawfulBEq F] [BEq G]
  [LawfulBEq G] [LinearCombination F G] [LawfulLinearCombination F G] [BasePoint G] [HashTarget G]
  [Encoding G] [WideReduction F] [Transcript τ]

namespace Outer

variable {gens params : Generators G} {w : Witness F} {tag : G} {d : Nonces F} {o : Outer F G τ}

/-- What a verifier replays of the proof. -/
def replay (params : Generators G) (w : Witness F) (tag : G) (o : Outer F G τ) : Replay F G τ :=
  .ofChallenges o.transcript params (Basis.ofTag tag) (slotCount w.size) o.y o.z o.x o.w

omit [BEq F] [LawfulBEq F] [BEq G] [LawfulBEq G] [LawfulLinearCombination F G] in
/-- The verifier draws the prover's challenges. -/
theorem Honest.challenges_eq (h : o.Honest params w tag d) :
    (RangeChallenges.ofProof (o.proof params) tag : RangeChallenges F τ) =
      ⟨o.y, o.z, o.x, o.w, o.transcript⟩ := by
  have hyz := h.yz_eq
  have hxw := h.xw_eq
  simp only [RangeChallenges.ofProof, Outer.proof, h.length_commitments, hyz, hxw]

omit [BEq G] [LawfulBEq G] [LawfulLinearCombination F G] in
/-- The proof has the right shape. -/
theorem Honest.ofProof_eq_ok (h : o.Honest params w tag d)
    (hp : gens.first (proofSize w.size) = .ok params) (hz : o.NoZero params) :
    Replay.ofProof gens (o.proof params) tag = .ok (o.replay params w tag) := by
  obtain ⟨hcap, rfl⟩ := Generators.first_eq_ok_iff.mp hp
  have hlen : (o.proof (gens.take (proofSize w.size))).commitments.length = w.size :=
    h.length_commitments
  rw [Replay.ofProof_eq_ok_iff, hlen, h.challenges_eq, RangeChallenges.hasZero_eq_false_iff]
  obtain ⟨hl, hr⟩ := o.length_argument (gens.take (proofSize w.size))
  rw [Generators.capacity_take hcap] at hl hr
  refine ⟨w.nonempty, w.length_le, hl, hr, hcap, ⟨hz.y, hz.z, hz.x, hz.w⟩, ?_⟩
  simp only [Replay.drawn, h.challenges_eq, hlen, replay]

/-- The argument opens, its claim being that of its vectors. -/
theorem Honest.openByFolding_eq_ok (h : o.Honest params w tag d)
    (hcap : params.capacity = proofSize w.size) (hz : o.NoZero params) :
    (o.replay params w tag).openByFolding (o.proof params).argument = .ok () := by
  have hs := h.sized hcap
  have hcount : roundCount params.capacity < 64 := by
    have hle := roundCount_proofSize_le w.length_le
    rw [hcap]
    exact Nat.lt_of_le_of_lt hle (by decide)
  obtain ⟨t, ht⟩ := challenges_argumentOf hcount hs.g rfl hz.rounds
    (claimValue params.g (params.scaledH o.y) (o.w • params.u) o.l o.r)
  have hopens := (opens_argumentOf hs hz.rounds).mpr
    (rfl : claimValue params.g (params.scaledH o.y) (o.w • params.u) o.l o.r = _)
  have hverify : InnerProduct.verify (o.replay params w tag).transcript params.g
      (params.scaledH o.y) (o.w • params.u) (o.proof params).argument = .ok t :=
    InnerProduct.verify_eq_ok (length_argumentOf_lt hcount _) (hs.g.trans hs.h.symm) ht hopens
  exact congrArg (fun e => (e.mapError Rejection.argument).bind fun _ => .ok ()) hverify

/-- **Acceptance.** Both methods accept the proof. -/
theorem Honest.verify_eq_ok (h : o.Honest params w tag d)
    (hp : gens.first (proofSize w.size) = .ok params) (hz : o.NoZero params) (method : Method) :
    RangeProof.verify τ method gens (o.proof params) tag = .ok () := by
  have hreplay := h.ofProof_eq_ok hp hz
  obtain ⟨hcap, htake⟩ := Generators.first_eq_ok_iff.mp hp
  have hcapacity : params.capacity = proofSize w.size := by
    rw [← htake, Generators.capacity_take hcap]
  have hslots : (o.replay params w tag).HasSlots (slotCount w.size) := ⟨rfl, hcapacity, rfl⟩
  have hlen : (o.proof params).commitments.length = w.size := h.length_commitments
  have hvalue : (o.replay params w tag).ValueEquation (slotCount w.size) (o.proof params) := by
    rw [Replay.ValueEquation, hlen]
    exact h.value_eq
  have hclaim : (o.replay params w tag).ClaimEquation (o.proof params) :=
    h.claim_eq hcapacity hz.y (o.w • params.u)
  have hopen : (o.replay params w tag).openBy method (o.proof params).argument = .ok () := by
    cases method with
    | folding => exact h.openByFolding_eq_ok hcapacity hz
    | atOnce =>
      rw [Replay.openBy,
        Replay.openAtOnce_eq_openByFolding hslots (Replay.bounded_of_ofProof hreplay)]
      exact h.openByFolding_eq_ok hcapacity hz
  rw [RangeProof.verify, RangeProof.check, hreplay]
  simp only [bind, Except.bind]
  rw [Replay.checkStatement1_eq_ok hslots (hlen.trans_le (le_slotCount _)) hvalue,
    Replay.checkCommitment_eq_ok hslots hclaim]
  simp only
  rw [hopen]
  rfl

end Outer

namespace RangeProof

variable [Encoding F] [LawfulEncoding F] [LawfulEncoding G]

/-- **Completeness.** With enough generators every witness has a proof, unless a challenge is zero:
the proof holds the commitments of the witness, survives being written and read, and is accepted by
both methods. -/
theorem prove_complete (gens : Generators G) (w : Witness F) (tag : G) (source : RandomSource)
    (hcap : proofSize w.size ≤ gens.capacity)
    (hzero : MeetsNoZero τ (gens.take (proofSize w.size)) w tag
      (Nonces.draw (proofSize w.size) source).1) :
    ∃ proof bytes, (prove τ gens w tag source).1 = .ok proof ∧
      proof.commitments = w.commitments tag ∧ proof.toBytes = .ok bytes ∧
      ofBytes bytes = .ok proof ∧ ∀ method, verify τ method gens proof tag = .ok () := by
  have hp : gens.first (proofSize w.size) = .ok (gens.take (proofSize w.size)) := if_pos hcap
  have hcapacity := Generators.capacity_take hcap
  have hd := Nonces.hasSize_draw (F := F) (proofSize w.size) source
  obtain ⟨o, h⟩ := Outer.exists_honest τ (gens.take (proofSize w.size)) w tag
    (Nonces.draw (proofSize w.size) source).1
  -- The challenges that must not be zero are those of the outer part that the prover computes.
  have hz := hzero o (h.outer_eq_ok hcapacity hd)
  have hproof : (prove τ gens w tag source).1 = .ok (o.proof (gens.take (proofSize w.size))) := by
    rw [prove, hp]
    exact h.proveWith_eq_ok hcapacity hd hz
  obtain ⟨hl, hr⟩ := o.length_argument (gens.take (proofSize w.size))
  have hrounds : roundCount (proofSize w.size) ≤ 11 := roundCount_proofSize_le w.length_le
  have hcoins : (o.proof (gens.take (proofSize w.size))).commitments.length = w.size :=
    h.length_commitments
  have hsize : 0 < w.size ∧ w.size ≤ maxCoins := ⟨w.nonempty, w.length_le⟩
  -- The counts are small enough for a byte, and for a reader.
  have hmaxCoins : maxCoins = 30 := rfl
  have hmaxRounds : Reader.maxRounds = 31 := rfl
  rw [hcapacity] at hl hr
  refine ⟨o.proof (gens.take (proofSize w.size)), (o.proof (gens.take (proofSize w.size))).encoded,
    hproof, h.commitments_eq, toBytes_eq_ok_iff.mpr ⟨by omega, by omega, by omega, rfl⟩,
    ofBytes_eq_ok_iff.mpr ⟨by omega, by omega, by omega, by omega, rfl⟩,
    h.verify_eq_ok hp hz⟩

open Ristretto in
/-- A proof for one coin of the largest value. -/
theorem prove_exponent :
    let gens := Generators.ofCapacity Exponent 64
    let w : Witness Scalar := ⟨[⟨18446744073709551615, 7⟩], by decide, by decide⟩
    proofSize w.size ≤ gens.capacity ∧
      ∃ proof bytes, (prove Checksum gens w basePoint (.splitMix 1)).1 = .ok proof ∧
        proof.commitments = w.commitments basePoint ∧ proof.toBytes = .ok bytes ∧
        ofBytes bytes = .ok proof ∧
        ∀ method, verify Checksum method gens proof basePoint = .ok () := by
  intro gens w
  have hcap : proofSize w.size ≤ gens.capacity := (Generators.capacity_ofCapacity 64).ge
  exact ⟨hcap, prove_complete gens w basePoint (.splitMix 1) hcap
    (Checksum.meetsNoZero (Generators.capacity_take hcap) (Nonces.hasSize_draw ..))⟩

end RangeProof

end ConfidentialCoin
