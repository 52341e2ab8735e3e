import ConfidentialCoin.Proofs.RangeProof.Safety
import ConfidentialCoin.Proofs.Ristretto.Exponent

/-!
# Proofs do not depend on how many generators there are

Whoever makes a proof and whoever checks it may have made their generators for proofs of different
sizes. Both take the first generators of the proof's size, `Generators.first`, and look at nothing
else of what they have: two sets that agree in these lead prover and verifier to the same answer
(`RangeProof.prove_congr`, `RangeProof.check_congr`). Sets made by `Generators.ofCapacity` agree in
every prefix that both have (`Generators.first_ofCapacity_eq`), as a generator is the hash of its
index.

`RangeProof.capacity_independent` says so of all capacities, those that are too small included.
-/

namespace ConfidentialCoin

variable {F G τ : Type}

/-- Sets of two capacities have the same first generators. -/
theorem Generators.first_ofCapacity_eq [HashTarget G] {n c₁ c₂ : ℕ} (h₁ : n ≤ c₁) (h₂ : n ≤ c₂) :
    (ofCapacity G c₁).first n = (ofCapacity G c₂).first n :=
  (first_ofCapacity h₁).trans (first_ofCapacity h₂).symm

variable [Zero F] [One F] [Mul F] [BEq F] [SMul F G] [BasePoint G] [HashTarget G] [Encoding G]
  [WideReduction F] [Transcript τ] {gens gens' : Generators G} {w : Witness F}
  {proof : RangeProof F G}

/-- A proof is replayed with the first generators of its size. -/
theorem Replay.ofProof_congr
    (h : gens.first (proofSize proof.commitments.length) =
      gens'.first (proofSize proof.commitments.length)) (tag : G) :
    (ofProof gens proof tag : Except Rejection (Replay F G τ)) = ofProof gens' proof tag := by
  simp only [ofProof, h]

namespace RangeProof

variable [Add F] [Neg F] [Inv F] [NatCast F] [LinearCombination F G]

/-- **The prover** uses the first generators of the proof's size. -/
theorem prove_congr (h : gens.first (proofSize w.size) = gens'.first (proofSize w.size)) (tag : G)
    (source : RandomSource) : prove τ gens w tag source = prove τ gens' w tag source := by
  rw [prove, prove, h]

variable [Sub F] [Zero G] [BEq G]

/-- **The verifiers** use the first generators of the proof's size: past the replay they have no
others. -/
theorem check_congr (h : gens.first (proofSize proof.commitments.length) =
      gens'.first (proofSize proof.commitments.length)) (method : Method) (tag : G) :
    check τ method gens proof tag = check τ method gens' proof tag := by
  rw [check, check, Replay.ofProof_congr h]

/-- The answer about a proof depends on the generators that its size asks for, and on no others. -/
theorem verify_congr (h : gens.first (proofSize proof.commitments.length) =
      gens'.first (proofSize proof.commitments.length)) (method : Method) (tag : G) :
    verify τ method gens proof tag = verify τ method gens' proof tag := by
  rw [verify, verify, check_congr h]

/-- **Capacity.** Generators made for two sizes have the same first generators, as many as both
have. So every capacity of at least 64 for each slot gives the same proof of a witness, or the same
reason for none, with the source at the same place after it; and the same answer about a proof by
each method. With fewer there is no proof of the witness, and nothing is drawn for one; and no proof
is accepted. -/
theorem capacity_independent (τ : Type) [Transcript τ] :
    (∀ c₁ c₂ n, n ≤ min c₁ c₂ → ∃ params : Generators G,
      (Generators.ofCapacity G c₁).first n = .ok params ∧
        (Generators.ofCapacity G c₂).first n = .ok params) ∧
    (∀ (w : Witness F) (tag : G) (source : RandomSource),
      let n := 64 * roundUpPowTwo w.size
      (∀ c₁ c₂, n ≤ c₁ → n ≤ c₂ → prove τ (.ofCapacity G c₁) w tag source =
        prove τ (.ofCapacity G c₂) w tag source) ∧
      ∀ c < n, prove τ (.ofCapacity G c) w tag source =
        (.error (.refused (.invalidInput "proof dimension exceeds generator capacity")), source)) ∧
    ∀ (proof : RangeProof F G) (tag : G) (method : Method),
      let n := 64 * roundUpPowTwo proof.commitments.length
      (∀ c₁ c₂, n ≤ c₁ → n ≤ c₂ → verify τ method (.ofCapacity G c₁) proof tag =
        verify τ method (.ofCapacity G c₂) proof tag) ∧
      ∀ c < n, ∃ text, verify τ method (.ofCapacity G c) proof tag =
        .error (.invalidInput text) := by
  refine ⟨fun c₁ c₂ n hn => ?_, fun w tag source => ⟨fun c₁ c₂ h₁ h₂ => ?_, fun c hc => ?_⟩,
    fun proof tag method => ⟨fun c₁ c₂ h₁ h₂ => ?_, fun c hc => ?_⟩⟩
  · obtain ⟨h₁, h₂⟩ := Nat.le_min.mp hn
    exact ⟨.ofCapacity G n, Generators.first_ofCapacity h₁, Generators.first_ofCapacity h₂⟩
  · exact prove_congr (Generators.first_ofCapacity_eq h₁ h₂) tag source
  · exact prove_of_lt ((Generators.capacity_ofCapacity c).trans_lt hc) tag source
  · exact verify_congr (Generators.first_ofCapacity_eq h₁ h₂) method tag
  · have hsmall : ¬ (proof.HasShape ∧
        proofSize proof.commitments.length ≤ (Generators.ofCapacity G c).capacity) := by
      rw [Generators.capacity_ofCapacity]
      exact fun h => absurd h.2 (Nat.not_le.mpr hc)
    obtain ⟨text, htext⟩ := verify_eq_invalidInput (τ := τ) (Generators.ofCapacity G c) hsmall
    exact ⟨text, htext method tag⟩

open Ristretto in
/-- Two coins take 128 generators: more make no difference to their proof or to the answer about a
proof that nobody made, and one less is too few for either. -/
theorem capacity_independent_exponent :
    let w : Witness Scalar := ⟨[⟨5, 1⟩, ⟨7, 2⟩], by decide, by decide⟩
    let forged : RangeProof Scalar Exponent :=
      ⟨[basePoint, 0], 0, 0, 0, 0, 0, 0, 0, ⟨List.replicate 7 0, List.replicate 7 0, 0, 0, 0⟩⟩
    (∃ params : Generators Exponent, (Generators.ofCapacity Exponent 128).first 100 = .ok params ∧
      (Generators.ofCapacity Exponent maxCapacity).first 100 = .ok params) ∧
    prove Checksum (.ofCapacity Exponent 128) w basePoint (.splitMix 1) =
      prove Checksum (.ofCapacity Exponent maxCapacity) w basePoint (.splitMix 1) ∧
    prove Checksum (.ofCapacity Exponent 127) w basePoint (.splitMix 1) =
      (.error (.refused (.invalidInput "proof dimension exceeds generator capacity")),
        .splitMix 1) ∧
    (∀ method, verify Checksum method (.ofCapacity Exponent 128) forged basePoint =
      verify Checksum method (.ofCapacity Exponent maxCapacity) forged basePoint) ∧
    ∀ method, ∃ text, verify Checksum method (.ofCapacity Exponent 127) forged basePoint =
      .error (.invalidInput text) := by
  intro w forged
  obtain ⟨hfirst, hprove, hverify⟩ :=
    capacity_independent (F := Scalar) (G := Exponent) Checksum
  have hmax : 128 ≤ maxCapacity := by decide
  refine ⟨hfirst 128 maxCapacity 100 (by decide), ?_, ?_, fun method => ?_, fun method => ?_⟩
  · exact (hprove w basePoint (.splitMix 1)).1 128 maxCapacity le_rfl hmax
  · exact (hprove w basePoint (.splitMix 1)).2 127 (by decide)
  · exact (hverify forged basePoint method).1 128 maxCapacity le_rfl hmax
  · exact (hverify forged basePoint method).2 127 (by decide)

end RangeProof

end ConfidentialCoin
