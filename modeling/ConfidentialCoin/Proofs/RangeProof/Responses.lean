import ConfidentialCoin.Proofs.RangeProof.Completeness

/-!
# The responses of an accepted proof

The responses of a range proof, which are `tauX`, `tHat`, `mu` and, of the argument, `a`, `b` and
the claim `p`, are on no transcript. So a proof in which only responses are replaced is checked
against the replay of the proof it comes from, and under its folding challenges; and with these a
check comes to three equations (`verify_eq_of_replay`), which an accepted proof satisfies
(`exists_accepted`).

Each response stands in one of them with a coefficient that does not vanish, and moving it alone
breaks that equation: `tauX` multiplies the blinding generator in the equation of the values, as
`mu` does in that of the claim, and `tHat` multiplies the tag in the one and the scaled generator
`w * u` in the other. The scalars `a` and `b` stand in the last equation, each with a folded
generator and with `w * u` times the other scalar; only where these cancel does the equation survive
(`opens_replace_a_iff`, `opens_replace_b_iff`).

`RangeProof.verify_replaced` puts this together, for every accepted proof and both methods.
-/

namespace ConfidentialCoin

open ConfidentialCoin.InnerProduct

variable {F G τ : Type} [Field F] [AddCommGroup G] [Module F G]

/-! ### The equations with one response replaced -/

namespace InnerProduct

variable {us : List F} {g h : List G} {u : G} {arg : InnerProductProof F G}

/-- Another `a` opens only if it does not matter. -/
theorem opens_replace_a_iff (ho : Opens us g h u arg) {a : F} (hne : a ≠ arg.a) :
    Opens us g h u { arg with a := a } ↔
      pairing (foldWeights (us.map (·⁻¹))) g + arg.b • u = 0 := by
  have hmove : a • pairing (foldWeights (us.map (·⁻¹))) g + arg.b • pairing (foldWeights us) h +
      (a * arg.b) • u = movedClaim us arg.l arg.r arg.p +
        (a - arg.a) • (pairing (foldWeights (us.map (·⁻¹))) g + arg.b • u) := by
    rw [← ho]
    module
  rw [Opens, hmove, add_eq_left, smul_eq_zero_iff_right (sub_ne_zero.mpr hne)]

/-- Another `b` opens only if it does not matter. -/
theorem opens_replace_b_iff (ho : Opens us g h u arg) {b : F} (hne : b ≠ arg.b) :
    Opens us g h u { arg with b := b } ↔ pairing (foldWeights us) h + arg.a • u = 0 := by
  have hmove : arg.a • pairing (foldWeights (us.map (·⁻¹))) g + b • pairing (foldWeights us) h +
      (arg.a * b) • u = movedClaim us arg.l arg.r arg.p +
        (b - arg.b) • (pairing (foldWeights us) h + arg.a • u) := by
    rw [← ho]
    module
  rw [Opens, hmove, add_eq_left, smul_eq_zero_iff_right (sub_ne_zero.mpr hne)]

end InnerProduct

namespace Replay

variable {r : Replay F G τ} {slots : ℕ} {proof : RangeProof F G}

/-- One blinding fits the first equation. -/
theorem not_valueEquation_replace_tauX (h : r.ValueEquation slots proof)
    (hH : r.basis.blinding ≠ 0) {tauX : F} (hne : tauX ≠ proof.tauX) :
    ¬ r.ValueEquation slots { proof with tauX := tauX } := fun h' =>
  hne (smul_left_injective F hH (add_left_cancel (h'.trans h.symm)))

/-- The value generator decides whether another `tHat` is noticed here. -/
theorem valueEquation_replace_tHat_iff (h : r.ValueEquation slots proof) {tHat : F}
    (hne : tHat ≠ proof.tHat) :
    r.ValueEquation slots { proof with tHat := tHat } ↔ r.basis.value = 0 := by
  constructor
  · intro h'
    by_contra hT
    exact hne (smul_left_injective F hT (add_right_cancel (h'.trans h.symm)))
  · intro hT
    have hsame : tHat • r.basis.value = proof.tHat • r.basis.value := by
      rw [hT, smul_zero, smul_zero]
    rw [ValueEquation, hsame]
    exact h

/-- One inner product fits the second equation, unless `u` is zero. -/
theorem not_claimEquation_replace_tHat (h : r.ClaimEquation proof) (hu : r.u ≠ 0) {tHat : F}
    (hne : tHat ≠ proof.tHat) : ¬ r.ClaimEquation { proof with tHat := tHat } := fun h' =>
  hne (smul_left_injective F hu (add_left_cancel (add_right_cancel (add_right_cancel
    (h'.symm.trans h)))))

theorem not_claimEquation_replace_mu (h : r.ClaimEquation proof) (hH : r.basis.blinding ≠ 0)
    {mu : F} (hne : mu ≠ proof.mu) : ¬ r.ClaimEquation { proof with mu := mu } := fun h' =>
  hne (neg_injective (smul_left_injective F hH (add_left_cancel (add_right_cancel
    (add_right_cancel (add_right_cancel (h'.symm.trans h)))))))

theorem not_claimEquation_replace_p (h : r.ClaimEquation proof) {p : G}
    (hne : p ≠ proof.argument.p) :
    ¬ r.ClaimEquation { proof with argument := { proof.argument with p := p } } := fun h' =>
  hne (h'.trans h.symm)

end Replay

/-! ### Accepted proofs -/

namespace RangeProof

variable [BEq F] [LawfulBEq F] [BEq G] [LawfulBEq G] [LinearCombination F G]
  [LawfulLinearCombination F G] [BasePoint G] [HashTarget G] [Encoding G] [WideReduction F]
  [Transcript τ] {gens : Generators G} {proof : RangeProof F G} {tag : G} {r : Replay F G τ}
  {us : List F}

open Classical in
/-- Where all challenges are drawn, both methods come to the same three equations. -/
theorem verify_eq_of_replay (hr : Replay.ofProof gens proof tag = .ok r) {t : τ}
    (hus : challenges r.transcript proof.argument r.n = .ok (us, t)) (method : Method) :
    verify τ method gens proof tag =
      if ¬ r.ValueEquation (slotCount proof.commitments.length) proof then .error .statement1
      else if r.ClaimEquation proof ∧
        Opens us r.params.g (r.params.scaledH r.y) r.u proof.argument then .ok ()
      else .error .statement2 := by
  have hs := Replay.hasSlots_of_ofProof hr
  have hb := Replay.bounded_of_ofProof hr
  have hk := le_slotCount proof.commitments.length
  have hg : r.params.g.length = r.n := hs.capacity_eq
  have hgh : r.params.g.length = (r.params.scaledH r.y).length :=
    (Generators.length_scaledH _ _).symm
  -- The two methods agree, so folding is enough.
  have hfolding : r.openBy method proof.argument = r.openByFolding proof.argument := by
    cases method with
    | folding => rfl
    | atOnce => exact Replay.openAtOnce_eq_openByFolding hs hb
  rw [verify, check, hr]
  simp only [bind, Except.bind]
  by_cases hv : r.ValueEquation (slotCount proof.commitments.length) proof
  · rw [Replay.checkStatement1_eq_ok hs hk hv, if_neg (not_not_intro hv)]
    by_cases hc : r.ClaimEquation proof
    · rw [Replay.checkCommitment_eq_ok hs hc]
      simp only [hfolding, Replay.openByFolding]
      by_cases ho : Opens us r.params.g (r.params.scaledH r.y) r.u proof.argument
      · rw [verify_eq_ok hb.rounds_lt hgh (by rw [hg]; exact hus) ho, if_pos ⟨hc, ho⟩]
        rfl
      · rw [verify_eq_error hb.rounds_lt hgh (by rw [hg]; exact hus) ho, if_neg fun h => ho h.2]
        rfl
    · rw [Replay.checkCommitment_eq_error hs hc, if_neg fun h => hc h.1]
      rfl
  · rw [Replay.checkStatement1_eq_error hs hk hv, if_pos hv]
    rfl

/-- What is known of an accepted proof. -/
structure Accepted (gens : Generators G) (proof : RangeProof F G) (tag : G) (r : Replay F G τ)
    (us : List F) : Prop where
  replay_eq : Replay.ofProof gens proof tag = .ok r
  /-- The challenges of its rounds are drawn. -/
  challenges_eq : ∃ t, challenges r.transcript proof.argument r.n = .ok (us, t)
  /-- The commitments to the values open. -/
  value : r.ValueEquation (slotCount proof.commitments.length) proof
  /-- The claim is the one committed to. -/
  claim : r.ClaimEquation proof
  opens : Opens us r.params.g (r.params.scaledH r.y) r.u proof.argument

theorem exists_accepted (h : verify τ .folding gens proof tag = .ok ()) :
    ∃ (r : Replay F G τ) (us : List F), Accepted gens proof tag r us := by
  have hcheck : check τ .folding gens proof tag = .ok () := by
    rw [verify] at h
    cases hc : check τ .folding gens proof tag with
    | error e =>
      rw [hc] at h
      cases h
    | ok _ => rfl
  obtain ⟨r, hr, hrest⟩ := bind_eq_ok_iff.mp hcheck
  obtain ⟨-, -, hrest⟩ := bind_eq_ok_iff.mp hrest
  obtain ⟨-, -, hopen⟩ := bind_eq_ok_iff.mp hrest
  have hs := Replay.hasSlots_of_ofProof hr
  have hg : r.params.g.length = r.n := hs.capacity_eq
  have hgh : r.params.g.length = (r.params.scaledH r.y).length :=
    (Generators.length_scaledH _ _).symm
  -- An argument whose challenges are not drawn is not opened.
  obtain ⟨us, t, hus⟩ : ∃ us t,
      challenges (F := F) r.transcript proof.argument r.n = .ok (us, t) := by
    cases hc : challenges (F := F) r.transcript proof.argument r.n with
    | error e =>
      rw [Replay.openBy, Replay.openByFolding,
        verify_eq_error_of_challenges hgh (by rw [hg]; exact hc)] at hopen
      cases hopen
    | ok out => exact ⟨out.1, out.2, rfl⟩
  rw [verify_eq_of_replay hr hus] at h
  split_ifs at h with hv hco
  exact ⟨r, us, hr, ⟨t, hus⟩, hv, hco.1, hco.2⟩

/-- The generators of a proof, folded through all its rounds, are `g₀` and `h₀`. -/
def FoldsTo (τ : Type) [Transcript τ] (gens : Generators G) (proof : RangeProof F G) (tag : G)
    (g₀ h₀ : G) : Prop :=
  ∃ (r : Replay F G τ) (us : List F) (t : τ) (p₀ : G), Replay.ofProof gens proof tag = .ok r ∧
    challenges r.transcript proof.argument r.n = .ok (us, t) ∧
    foldClaim (us.zip (proof.argument.l.zip proof.argument.r)) r.params.g (r.params.scaledH r.y)
      proof.argument.p = ([g₀], [h₀], p₀)

/-! ### Replacing a response -/

namespace Accepted

variable (h : Accepted gens proof tag r us)
include h

omit [LawfulBEq F] [BEq G] [LawfulBEq G] [LinearCombination F G] [LawfulLinearCombination F G] in
theorem basis_eq : r.basis = Basis.ofTag tag := by
  obtain ⟨-, -, -, -, -, -, rfl⟩ := Replay.ofProof_eq_ok_iff.mp h.replay_eq
  rfl

omit [LawfulBEq F] [BEq G] [LawfulBEq G] [LinearCombination F G] [LawfulLinearCombination F G] in
theorem u_eq : r.u = (RangeChallenges.ofProof proof tag : RangeChallenges F τ).w • gens.u := by
  obtain ⟨-, -, -, -, -, -, rfl⟩ := Replay.ofProof_eq_ok_iff.mp h.replay_eq
  rfl

omit [BEq G] [LawfulBEq G] [LinearCombination F G] [LawfulLinearCombination F G] in
/-- The challenge `w` is not zero. -/
theorem u_ne_zero (hu : gens.u ≠ 0) : r.u ≠ 0 := by
  obtain ⟨-, -, -, -, -, hzero, -⟩ := Replay.ofProof_eq_ok_iff.mp h.replay_eq
  rw [h.u_eq]
  exact smul_ne_zero (RangeChallenges.hasZero_eq_false_iff.mp hzero).2.2.2 hu

omit [BEq G] [LawfulBEq G] in
/-- The generators of an accepted proof fold to their pairings with the fold weights. -/
theorem foldsTo :
    FoldsTo τ gens proof tag (pairing (foldWeights (us.map (·⁻¹))) r.params.g)
      (pairing (foldWeights us) (r.params.scaledH r.y)) := by
  obtain ⟨t, hus⟩ := h.challenges_eq
  obtain ⟨hl, hr, -, -⟩ := InnerProduct.challenges_eq_ok hus
  have hn := length_eq_of_challenges (Replay.bounded_of_ofProof h.replay_eq).rounds_lt hus
  have hg : r.params.g.length = 2 ^ us.length :=
    (Replay.hasSlots_of_ofProof h.replay_eq).capacity_eq.trans hn
  have hh : (r.params.scaledH r.y).length = 2 ^ us.length :=
    (Generators.length_scaledH _ _).trans hg
  refine ⟨r, us, t, movedClaim us proof.argument.l proof.argument.r proof.argument.p,
    h.replay_eq, hus, ?_⟩
  rw [foldClaim_eq hl hr, foldAll_eq (hg.trans (by rw [List.length_map])), foldAll_eq hh]

/-- Another `tauX` breaks the first equation. -/
theorem verify_tauX (hH : blindingGenerator G ≠ 0) {tauX : F} (hne : tauX ≠ proof.tauX)
    (method : Method) :
    verify τ method gens { proof with tauX := tauX } tag = .error .statement1 := by
  obtain ⟨t, hus⟩ := h.challenges_eq
  have hr : Replay.ofProof gens { proof with tauX := tauX } tag = .ok r := h.replay_eq
  have hblinding : r.basis.blinding ≠ 0 := by rwa [h.basis_eq]
  have hvalue := Replay.not_valueEquation_replace_tauX h.value hblinding hne
  rw [verify_eq_of_replay hr hus, if_pos hvalue]

/-- Another `tHat` breaks the first equation; over the zero tag, where it does not enter there, it
breaks the second. -/
theorem verify_tHat (hu : gens.u ≠ 0) {tHat : F} (hne : tHat ≠ proof.tHat) (method : Method) :
    (tag ≠ 0 → verify τ method gens { proof with tHat := tHat } tag = .error .statement1) ∧
      (tag = 0 → verify τ method gens { proof with tHat := tHat } tag = .error .statement2) := by
  obtain ⟨t, hus⟩ := h.challenges_eq
  have hr : Replay.ofProof gens { proof with tHat := tHat } tag = .ok r := h.replay_eq
  have hvalue := Replay.valueEquation_replace_tHat_iff h.value hne
  have htag : r.basis.value = tag := by rw [h.basis_eq]; rfl
  rw [htag] at hvalue
  have hclaim := Replay.not_claimEquation_replace_tHat h.claim (h.u_ne_zero hu) hne
  constructor
  · intro hT
    rw [verify_eq_of_replay hr hus, if_pos fun hv => hT (hvalue.mp hv)]
  · intro hT
    rw [verify_eq_of_replay hr hus, if_neg (not_not_intro (hvalue.mpr hT)),
      if_neg fun hco => hclaim hco.1]

/-- Another `mu` breaks the second equation. -/
theorem verify_mu (hH : blindingGenerator G ≠ 0) {mu : F} (hne : mu ≠ proof.mu)
    (method : Method) :
    verify τ method gens { proof with mu := mu } tag = .error .statement2 := by
  obtain ⟨t, hus⟩ := h.challenges_eq
  have hr : Replay.ofProof gens { proof with mu := mu } tag = .ok r := h.replay_eq
  have hblinding : r.basis.blinding ≠ 0 := by rwa [h.basis_eq]
  have hvalue : r.ValueEquation (slotCount proof.commitments.length) { proof with mu := mu } :=
    h.value
  have hclaim := Replay.not_claimEquation_replace_mu h.claim hblinding hne
  rw [verify_eq_of_replay hr hus, if_neg (not_not_intro hvalue), if_neg fun hco => hclaim hco.1]

/-- Another claim is not the one committed to. -/
theorem verify_p {p : G} (hne : p ≠ proof.argument.p) (method : Method) :
    verify τ method gens { proof with argument := { proof.argument with p := p } } tag =
      .error .statement2 := by
  obtain ⟨t, hus⟩ := h.challenges_eq
  have hr : Replay.ofProof gens { proof with argument := { proof.argument with p := p } } tag =
    .ok r := h.replay_eq
  have hvalue : r.ValueEquation (slotCount proof.commitments.length)
    { proof with argument := { proof.argument with p := p } } := h.value
  have hclaim := Replay.not_claimEquation_replace_p h.claim hne
  rw [verify_eq_of_replay hr hus, if_neg (not_not_intro hvalue), if_neg fun hco => hclaim hco.1]

/-- Other scalars of the argument are checked by whether it opens with them. -/
theorem verify_argument {a b : F} (method : Method) :
    (Opens us r.params.g (r.params.scaledH r.y) r.u { proof.argument with a := a, b := b } →
      verify τ method gens { proof with argument := { proof.argument with a := a, b := b } } tag =
        .ok ()) ∧
      (¬ Opens us r.params.g (r.params.scaledH r.y) r.u { proof.argument with a := a, b := b } →
        verify τ method gens { proof with argument := { proof.argument with a := a, b := b } } tag =
          .error .statement2) := by
  obtain ⟨t, hus⟩ := h.challenges_eq
  have hr : Replay.ofProof gens
    { proof with argument := { proof.argument with a := a, b := b } } tag = .ok r := h.replay_eq
  have hv : r.ValueEquation (slotCount proof.commitments.length)
    { proof with argument := { proof.argument with a := a, b := b } } := h.value
  have hc : r.ClaimEquation { proof with argument := { proof.argument with a := a, b := b } } :=
    h.claim
  constructor
  · intro ho
    rw [verify_eq_of_replay hr hus, if_neg (not_not_intro hv), if_pos ⟨hc, ho⟩]
  · intro ho
    rw [verify_eq_of_replay hr hus, if_neg (not_not_intro hv), if_neg fun hco => ho hco.2]

end Accepted

/-- **Responses.** In a proof that is accepted no response can be replaced alone, and both methods
report where the proof fails: with another `tauX`, at the commitments to the values; with another
`tHat`, there too, unless the tag is zero and it fails at the argument; with another `mu` or another
claim `p`, at the argument. With another `a` or `b` it fails at the argument too, except where the
folded generator and the other scalar times `w * u` cancel: there the proof is still accepted. -/
theorem verify_replaced (hH : blindingGenerator G ≠ 0) (hu : gens.u ≠ 0)
    (h : verify τ .folding gens proof tag = .ok ()) :
    let u := (RangeChallenges.ofProof proof tag : RangeChallenges F τ).w • gens.u
    ∃ g₀ h₀, FoldsTo τ gens proof tag g₀ h₀ ∧ ∀ method,
      (∀ tauX ≠ proof.tauX,
        verify τ method gens { proof with tauX := tauX } tag = .error .statement1) ∧
      (∀ tHat ≠ proof.tHat,
        (tag ≠ 0 → verify τ method gens { proof with tHat := tHat } tag = .error .statement1) ∧
          (tag = 0 → verify τ method gens { proof with tHat := tHat } tag = .error .statement2)) ∧
      (∀ mu ≠ proof.mu,
        verify τ method gens { proof with mu := mu } tag = .error .statement2) ∧
      (∀ p ≠ proof.argument.p,
        verify τ method gens { proof with argument := { proof.argument with p := p } } tag =
          .error .statement2) ∧
      (∀ a ≠ proof.argument.a,
        (g₀ + proof.argument.b • u = 0 →
          verify τ method gens { proof with argument := { proof.argument with a := a } } tag =
            .ok ()) ∧
          (g₀ + proof.argument.b • u ≠ 0 →
            verify τ method gens { proof with argument := { proof.argument with a := a } } tag =
              .error .statement2)) ∧
      ∀ b ≠ proof.argument.b,
        (h₀ + proof.argument.a • u = 0 →
          verify τ method gens { proof with argument := { proof.argument with b := b } } tag =
            .ok ()) ∧
          (h₀ + proof.argument.a • u ≠ 0 →
            verify τ method gens { proof with argument := { proof.argument with b := b } } tag =
              .error .statement2) := by
  obtain ⟨r, us, hacc⟩ := exists_accepted h
  rw [← hacc.u_eq]
  refine ⟨_, _, hacc.foldsTo, fun method => ⟨fun tauX hne => hacc.verify_tauX hH hne method,
    fun tHat hne => hacc.verify_tHat hu hne method, fun mu hne => hacc.verify_mu hH hne method,
    fun p hne => hacc.verify_p hne method, fun a hne => ?_, fun b hne => ?_⟩⟩
  · have hopens := opens_replace_a_iff hacc.opens hne
    obtain ⟨hok, herror⟩ := hacc.verify_argument method
    exact ⟨fun h0 => hok (hopens.mpr h0), fun h0 => herror fun ho => h0 (hopens.mp ho)⟩
  · have hopens := opens_replace_b_iff hacc.opens hne
    obtain ⟨hok, herror⟩ := hacc.verify_argument method
    exact ⟨fun h0 => hok (hopens.mpr h0), fun h0 => herror fun ho => h0 (hopens.mp ho)⟩

open Ristretto in
/-- The proof for a coin, with one response after the other moved by one. -/
theorem verify_replaced_exponent :
    let gens := Generators.ofCapacity Exponent 64
    let w : Witness Scalar := ⟨[⟨18446744073709551615, 7⟩], by decide, by decide⟩
    blindingGenerator Exponent ≠ 0 ∧ gens.u ≠ 0 ∧
      ∃ proof, (prove Checksum gens w basePoint (.splitMix 1)).1 = .ok proof ∧
        verify Checksum .folding gens proof basePoint = .ok () ∧ ∀ method,
          verify Checksum method gens { proof with tauX := proof.tauX + 1 } basePoint =
              .error .statement1 ∧
            verify Checksum method gens { proof with tHat := proof.tHat + 1 } basePoint =
              .error .statement1 ∧
            verify Checksum method gens { proof with mu := proof.mu + 1 } basePoint =
              .error .statement2 ∧
            verify Checksum method gens
                { proof with argument := { proof.argument with p := proof.argument.p + basePoint } }
                basePoint = .error .statement2 := by
  intro gens w
  have hcap : proofSize w.size ≤ gens.capacity := (Generators.capacity_ofCapacity 64).ge
  have hp : gens.first (proofSize w.size) = .ok (gens.take (proofSize w.size)) := if_pos hcap
  have hcapacity := Generators.capacity_take hcap
  have hd := Nonces.hasSize_draw (F := Scalar) (proofSize w.size) (.splitMix 1)
  obtain ⟨o, h⟩ := Outer.exists_honest Checksum (gens.take (proofSize w.size)) w basePoint
    (Nonces.draw (proofSize w.size) (.splitMix 1)).1
  have hz := Checksum.meetsNoZero hcapacity hd o (h.outer_eq_ok hcapacity hd)
  have hproof : (prove Checksum gens w basePoint (.splitMix 1)).1 =
      .ok (o.proof (gens.take (proofSize w.size))) := by
    rw [prove, hp]
    exact h.proveWith_eq_ok hcapacity hd hz
  have hu : gens.u ≠ 0 := by
    have hval :
        (Scalar.hashTo (textBytes "privacy/bulletproof/U" ++ littleEndian 8 0)).val ≠ 0 := by
      decide +kernel
    exact fun h => hval (congrArg Scalar.val h)
  have hbase : (basePoint : Exponent) ≠ 0 := one_ne_zero (α := Scalar)
  have hmoved (x : Scalar) : x + 1 ≠ x := fun h => one_ne_zero (add_eq_left.mp h)
  obtain ⟨_, _, -, hall⟩ := verify_replaced Exponent.blindingGenerator_ne_zero hu
    (h.verify_eq_ok hp hz .folding)
  refine ⟨Exponent.blindingGenerator_ne_zero, hu, _, hproof, h.verify_eq_ok hp hz .folding,
    fun method => ?_⟩
  obtain ⟨htauX, htHat, hmu, hclaim, -⟩ := hall method
  exact ⟨htauX _ (hmoved _), (htHat _ (hmoved _)).1 hbase, hmu _ (hmoved _),
    hclaim _ fun h => hbase (add_eq_left.mp h)⟩

end RangeProof

end ConfidentialCoin
