import ConfidentialCoin.Proofs.InnerProduct.Rounds
import ConfidentialCoin.Proofs.Ristretto.Exponent

/-!
# An argument opens exactly when its claim is true

The prover takes the claim `p` as given and does not look whether the vectors make it.
`InnerProduct.prove_exact` says what comes of it for all vectors, generators and claims: which sizes
are refused and why, and, where a proof is made, that a verifier who starts from the same transcript
accepts it if `p = ⟨a, g⟩ + ⟨b, h⟩ + ⟨a, b⟩ * u` and finds the false claim out if not.

The route is by the rounds. The prover's argument is `argumentOf` of its rounds (`prove_eq_ok`), a
verifier draws the challenges of these rounds (`challenges_argumentOf`), and under them the argument
opens for one claim only (`opens_argumentOf`).
-/

namespace ConfidentialCoin.InnerProduct

variable {F G τ : Type} [Field F] [AddCommGroup G] [Module F G] [BEq F] [LawfulBEq F]
  [LinearCombination F G] [LawfulLinearCombination F G] [Encoding G] [WideReduction F]
  [Transcript τ] {k : ℕ} {t : τ} {g h : List G} {u : G} {a b : List F}

/-! ### Sizes that are refused -/

section Sizes

omit [AddCommGroup G] [Module F G] [LawfulBEq F] [LawfulLinearCombination F G]

/-- A length that does not halve down to one is refused first. -/
theorem prove_of_length_ne_two_pow (ha : ∀ k, a.length ≠ 2 ^ k) (p : G) :
    prove t g h u a b p = .error notPowerOfTwo := by
  refine if_pos (.inr fun hn => ha (roundCount a.length) ?_)
  rw [← Nat.one_shiftLeft, hn]

/-- Lists that are not as long as the first vector are refused next. -/
theorem prove_of_lengths_differ (ha : a.length = 2 ^ k)
    (hd : b.length ≠ a.length ∨ g.length ≠ a.length ∨ h.length ≠ a.length) (p : G) :
    prove t g h u a b p = .error lengthsDiffer := by
  have hpow : ¬ (a.length = 0 ∨ 1 <<< roundCount a.length ≠ a.length) := by
    rw [ha, roundCount, Nat.log2_two_pow, Nat.one_shiftLeft]
    simp
  rw [prove, if_neg hpow, if_pos hd]

end Sizes

/-! ### The verifier of an honest argument -/

section Verify

variable [BEq G] [LawfulBEq G] (hs : Sized k g h a b) (hk : k < 64)
  (hne : ∀ ρ ∈ rounds u k (Layout.innerProductDomain t (2 ^ k)) g h a b, ρ.1 ≠ 0) {p : G}
include hs hk hne

/-- A true claim is accepted. -/
theorem verify_argumentOf_eq_ok (hp : p = claimValue g h u a b) :
    ∃ t', verify t g h u
      (argumentOf (rounds u k (Layout.innerProductDomain t (2 ^ k)) g h a b) a b p) = .ok t' := by
  obtain ⟨t', ht'⟩ := challenges_argumentOf hk hs.g (congrArg _ hs.g).symm hne p
  exact ⟨t', verify_eq_ok (length_argumentOf_lt hk p) (hs.g.trans hs.h.symm) ht'
    ((opens_argumentOf hs hne).mpr hp)⟩

/-- A false claim does not open, whatever the challenges. -/
theorem verify_argumentOf_eq_error (hp : p ≠ claimValue g h u a b) :
    verify t g h u
      (argumentOf (rounds u k (Layout.innerProductDomain t (2 ^ k)) g h a b) a b p) =
        .error .notOpening := by
  obtain ⟨t', ht'⟩ := challenges_argumentOf hk hs.g (congrArg _ hs.g).symm hne p
  exact verify_eq_error (length_argumentOf_lt hk p) (hs.g.trans hs.h.symm) ht'
    fun ho => hp ((opens_argumentOf hs hne).mp ho)

end Verify

variable [BEq G] [LawfulBEq G]

/-- **Exactness.** Vectors whose length is no power of two are refused, and so are vectors and
generators that differ in length. Of any others a proof is made, unless a folding challenge is
zero, with one `L` and one `R` for each halving and with the claim that was given; and a verifier
accepts it exactly when the claim is true. Lengths are machine words. -/
theorem prove_exact (t : τ) (g h : List G) (u : G) (a b : List F) (p : G) :
    ((∀ k, a.length ≠ 2 ^ k) → prove t g h u a b p = .error notPowerOfTwo) ∧
      ∀ k, a.length = 2 ^ k →
        (b.length ≠ a.length ∨ g.length ≠ a.length ∨ h.length ≠ a.length →
          prove t g h u a b p = .error lengthsDiffer) ∧
        (b.length = a.length → g.length = a.length → h.length = a.length →
          let us := (rounds u k (Layout.innerProductDomain t a.length) g h a b).map (·.1)
          (0 ∈ us → prove t g h u a b p = .error zeroChallenge) ∧
          (0 ∉ us → ∃ proof t', prove t g h u a b p = .ok (proof, t') ∧
            proof.l.length = k ∧ proof.r.length = k ∧ proof.p = p ∧
            (a.length < UInt64.size →
              (p = pairing a g + pairing b h + pairing a b • u →
                ∃ t'', verify t g h u proof = .ok t'') ∧
              (p ≠ pairing a g + pairing b h + pairing a b • u →
                (verify t g h u proof).mapError ArgumentError.verifierError =
                  .error .statement2)))) := by
  refine ⟨fun ha => prove_of_length_ne_two_pow ha p, fun k ha => ⟨fun hd =>
    prove_of_lengths_differ ha hd p, fun hb hg hh => ?_⟩⟩
  have hs : Sized k g h a b := ⟨hg.trans ha, hh.trans ha, ha, hb.trans ha⟩
  rw [ha]
  refine ⟨fun hzero => ?_, fun hzero => ?_⟩
  · obtain ⟨ρ, hρ, h0⟩ := List.mem_map.mp hzero
    exact prove_eq_error hs rfl ⟨ρ, hρ, h0⟩ p
  · have hne : ∀ ρ ∈ rounds u k (Layout.innerProductDomain t (2 ^ k)) g h a b, ρ.1 ≠ 0 :=
      fun ρ hρ h0 => hzero (List.mem_map.mpr ⟨ρ, hρ, h0⟩)
    -- A verifier that starts from the same transcript draws the same challenges.
    obtain ⟨t', hprove⟩ := prove_eq_ok hs rfl hne p
    refine ⟨_, t', hprove, ?_, ?_, rfl, fun hword => ?_⟩
    · rw [(length_argumentOf ..).1, length_rounds]
    · rw [(length_argumentOf ..).2, length_rounds]
    · have hk : k < 64 := (Nat.pow_lt_pow_iff_right one_lt_two).mp hword
      refine ⟨verify_argumentOf_eq_ok hs hk hne, fun hp => ?_⟩
      rw [verify_argumentOf_eq_error hs hk hne hp]
      rfl

open Ristretto in
/-- A true claim about two entries and a false one. -/
theorem prove_exact_exponent :
    let t : Checksum := Transcript.ofProtocol []
    let g : List Exponent := [basePoint, basePoint + basePoint]
    let h : List Exponent := [basePoint + basePoint, basePoint]
    let u : Exponent := basePoint
    let a : List Scalar := [1, 2]
    let b : List Scalar := [3, 4]
    (∃ proof t', prove t g h u a b ((26 : Scalar) • basePoint) = .ok (proof, t') ∧
      ∃ t'', verify t g h u proof = .ok t'') ∧
    ∃ proof t', prove t g h u a b basePoint = .ok (proof, t') ∧
      (verify t g h u proof).mapError ArgumentError.verifierError = .error .statement2 := by
  intro t g h u a b
  have hne : 0 ∉ (rounds u 1 (Layout.innerProductDomain t a.length) g h a b).map (·.1) := by
    intro h0
    obtain ⟨ρ, hρ, hzero⟩ := List.mem_map.mp h0
    exact Checksum.rounds_ne_zero _ _ _ _ _ _ _ ρ hρ hzero
  obtain ⟨proof, t', hprove, -, -, -, hverify⟩ :=
    (((prove_exact t g h u a b ((26 : Scalar) • basePoint)).2 1 rfl).2 rfl rfl rfl).2 hne
  obtain ⟨proof', t'', hprove', -, -, -, hverify'⟩ :=
    (((prove_exact t g h u a b basePoint).2 1 rfl).2 rfl rfl rfl).2 hne
  exact ⟨⟨proof, t', hprove, (hverify (by decide)).1 (by decide +kernel)⟩,
    proof', t'', hprove', (hverify' (by decide)).2 (by decide +kernel)⟩

end ConfidentialCoin.InnerProduct
