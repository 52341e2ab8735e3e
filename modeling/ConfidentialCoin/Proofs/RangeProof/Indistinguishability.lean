import ConfidentialCoin.Proofs.Ristretto.Exponent
import Mathlib.GroupTheory.SpecificGroups.Cyclic.Basic

/-!
# Witness indistinguishability

Which witness of the same commitments made a proof cannot be told from it: what one makes with some
scalars the other makes with others, and the scalars correspond one to one.

* Any outer part could have been made of any witness of its commitments
  (`Honest.exists_nonces`). The blindings of the entries are solved from `l` and `r`, those of `A`
  and `T1` as logarithms to the blinding generator, and those of `S` and `T2` from `mu` and `tauX`.
  That `S` and `T2` then come out the same is not arranged but follows: both parts satisfy the
  equations of the verifier, in which each of them is determined by the rest.
* A witness makes an outer part with one choice of scalars only (`Honest.nonces_unique`).

The rest of a proof is computed from the outer part, so `proveWith_indistinguishable` follows.
-/

namespace ConfidentialCoin

open Finset ConfidentialCoin.InnerProduct

variable {F G τ : Type} [Field F]

/-! ### Solving for the scalars -/

section Vectors

variable {x y : F} {n : ℕ}

/-- There are blindings with which the given entries make a given left vector. -/
private theorem exists_sL (hx : x ≠ 0) (z : F) (aL : ℕ → F) {l : ScalarVector F}
    (hl : l.length = n) :
    ∃ sL : ScalarVector F, sL.length = n ∧
      l = table n (leftEntry z aL (fun i => sL.getD i 0) x) := by
  refine ⟨table n fun i => (l.getD i 0 - (aL i - z)) * x⁻¹, length_table .., ?_⟩
  rw [← table_getD hl 0]
  refine table_congr fun i hi => ?_
  rw [leftEntry, getD_table hi, table_getD hl, inv_mul_cancel_right₀ hx, add_sub_cancel]

/-- There are blindings with which the given entries make a given right vector. -/
private theorem exists_sR (hx : x ≠ 0) (hy : y ≠ 0) (z : F) (aR : ℕ → F) {r : ScalarVector F}
    (hr : r.length = n) :
    ∃ sR : ScalarVector F, sR.length = n ∧
      r = table n (rightEntry y z aR (fun i => sR.getD i 0) x) := by
  refine ⟨table n fun i => (y ^ i)⁻¹ * ((r.getD i 0 - rightConstant y z aR i) * x⁻¹),
    length_table .., ?_⟩
  rw [← table_getD hr 0]
  refine table_congr fun i hi => ?_
  rw [rightEntry, getD_table hi, table_getD hr, mul_inv_cancel_left₀ (pow_ne_zero i hy),
    inv_mul_cancel_right₀ hx, add_sub_cancel]

end Vectors

variable [AddCommGroup G] [Module F G] [HashTarget G]

/-- In a group of prime order every element is a multiple of the blinding generator. -/
theorem exists_smul_blindingGenerator (hprime : (Nat.card G).Prime)
    (hH : blindingGenerator G ≠ 0) (p : G) : ∃ c : F, c • blindingGenerator G = p := by
  have := Fact.mk hprime
  obtain ⟨k, hk⟩ := AddSubgroup.mem_zmultiples_iff.mp
    (mem_zmultiples_of_prime_card (rfl : Nat.card G = Nat.card G) hH : p ∈ _)
  exact ⟨(k : F), (Int.cast_smul_eq_zsmul F k _).trans hk⟩

variable [BasePoint G] [Encoding G] [WideReduction F] [Transcript τ] [LinearCombination F G]
  [LawfulLinearCombination F G]

namespace Outer

variable {params : Generators G} {w w₀ w₁ : Witness F} {tag : G} {d d' : Nonces F}
  {o : Outer F G τ}

/-- **Solving.** What one witness makes, every witness of the same commitments can make. -/
theorem Honest.exists_nonces (hlog : ∀ p : G, ∃ c : F, c • blindingGenerator G = p)
    (h : o.Honest params w₀ tag d) (hcap : params.capacity = proofSize w₀.size) (hy : o.y ≠ 0)
    (hx : o.x ≠ 0) (hsame : w₀.commitments tag = w₁.commitments tag) :
    ∃ d₁ : Nonces F, d₁.HasSize (proofSize w₁.size) ∧ o.Honest params w₁ tag d₁ := by
  have hsize := Witness.size_eq_of_commitments_eq hsame
  have hclaim := h.claim_eq hcap hy 0
  have hvalue := h.value_eq
  have hyz := h.yz_eq
  have hxw := h.xw_eq
  have hl := h.l_eq
  have hr := h.r_eq
  rw [hsize] at hclaim hvalue hyz hxw hl hr hcap
  -- The blindings of the entries keep `l` and `r`.
  obtain ⟨sL, hsL, hl⟩ := exists_sL hx o.z (bitAt F w₁.values)
    (show o.l.length = proofSize w₁.size by rw [hl, length_table])
  obtain ⟨sR, hsR, hr⟩ := exists_sR hx hy o.z (fun i => bitAt F w₁.values i - 1)
    (show o.r.length = proofSize w₁.size by rw [hr, length_table])
  -- Those of `A` and `T1` are logarithms, and those of `S` and `T2` keep `mu` and `tauX`.
  obtain ⟨alpha, halpha⟩ := hlog (o.a - vectorCommitment params (Basis.ofTag tag) 0
    (bitAt F w₁.values) fun i => bitAt F w₁.values i - 1)
  obtain ⟨tau1, htau1⟩ := hlog (o.t1 - linearTerm o.y o.z (proofSize w₁.size)
    (bitAt F w₁.values) (fun i => bitAt F w₁.values i - 1) (fun i => sL.getD i 0)
    (fun i => sR.getD i 0) • tag)
  obtain ⟨rho, hrho⟩ : ∃ rho, o.mu = alpha + rho * o.x :=
    ⟨(o.mu - alpha) * o.x⁻¹, by rw [inv_mul_cancel_right₀ hx, add_sub_cancel]⟩
  obtain ⟨tau2, htau2⟩ : ∃ tau2, o.tauX = tau2 * o.x * o.x + tau1 * o.x +
      ∑ j ∈ range w₁.size, w₁.blindings.getD j 0 * o.z ^ (2 + j) :=
    ⟨(o.tauX - tau1 * o.x - ∑ j ∈ range w₁.size, w₁.blindings.getD j 0 * o.z ^ (2 + j)) *
      o.x⁻¹ * o.x⁻¹, by rw [inv_mul_cancel_right₀ hx, inv_mul_cancel_right₀ hx]; ring⟩
  have ha : o.a = vectorCommitment params (Basis.ofTag tag) alpha (bitAt F w₁.values)
      fun i => bitAt F w₁.values i - 1 := by
    rw [vectorCommitment_eq_smul_add]
    exact sub_eq_iff_eq_add.mp halpha.symm
  have ht1 : o.t1 = (Basis.ofTag tag).commit (linearTerm o.y o.z (proofSize w₁.size)
      (bitAt F w₁.values) (fun i => bitAt F w₁.values i - 1) (fun i => sL.getD i 0)
      (fun i => sR.getD i 0)) tau1 := by
    rw [Basis.commit_eq]
    exact sub_eq_iff_eq_add'.mp htau1.symm
  -- `S` and `T2` are what is left of equations that both sides satisfy.
  have hs : o.s = vectorCommitment params (Basis.ofTag tag) rho (fun i => sL.getD i 0)
      fun i => sR.getD i 0 := by
    have hclaim₁ := claimValue_entries hcap hy (Basis.ofTag tag) 0 o.z o.x alpha rho
      (bitAt F w₁.values) (fun i => bitAt F w₁.values i - 1) (fun i => sL.getD i 0)
      fun i => sR.getD i 0
    rw [← hl, ← hr, hclaim, ← ha, ← hrho, ← h.tHat_eq] at hclaim₁
    have hsmul := add_left_cancel (add_right_cancel (add_right_cancel (add_right_cancel
      (add_right_cancel hclaim₁))))
    exact smul_right_injective G hx hsmul
  have ht2 : o.t2 = (Basis.ofTag tag).commit (quadraticTerm o.y (proofSize w₁.size)
      (fun i => sL.getD i 0) fun i => sR.getD i 0) tau2 := by
    have hvalue₁ := w₁.opening_eq tag o.y o.z o.x tau1 tau2 (fun i => sL.getD i 0)
      fun i => sR.getD i 0
    rw [← hl, ← hr, ← h.tHat_eq, ← htau2, hvalue, ← ht1, h.commitments_eq, hsame] at hvalue₁
    exact smul_right_injective G (mul_ne_zero hx hx) (add_left_cancel hvalue₁)
  exact ⟨⟨alpha, sL, sR, rho, tau1, tau2⟩, ⟨hsL, hsR⟩, h.commitments_eq.trans hsame, ha, hs, hyz,
    ht1, ht2, hxw, hl, hr, h.tHat_eq, htau2, hrho⟩

/-- **Uniqueness.** The scalars with which a witness makes an outer part are determined by it. -/
theorem Honest.nonces_unique (hH : blindingGenerator G ≠ 0) (hy : o.y ≠ 0) (hx : o.x ≠ 0)
    (hd : d.HasSize (proofSize w.size)) (hd' : d'.HasSize (proofSize w.size))
    (h : o.Honest params w tag d) (h' : o.Honest params w tag d') : d = d' := by
  -- The vectors at `x` determine the blindings of the entries, and each commitment then its own
  -- blinding, in the order in which they are made.
  have hsL : d.sL = d'.sL := by
    rw [hd.sL_eq, hd'.sL_eq]
    refine table_congr fun i hi => ?_
    have hi' := congrArg (fun l => l.getD i 0) (h.l_eq.symm.trans h'.l_eq)
    simp only [getD_table hi, leftEntry] at hi'
    exact mul_right_cancel₀ hx (add_left_cancel hi')
  have hsR : d.sR = d'.sR := by
    rw [hd.sR_eq, hd'.sR_eq]
    refine table_congr fun i hi => ?_
    have hi' := congrArg (fun r => r.getD i 0) (h.r_eq.symm.trans h'.r_eq)
    simp only [getD_table hi, rightEntry] at hi'
    exact mul_left_cancel₀ (pow_ne_zero i hy) (mul_right_cancel₀ hx (add_left_cancel hi'))
  have hleft : d.leftAt = d'.leftAt := by
    funext i
    exact congrArg (fun l => l.getD i 0) hsL
  have hright : d.rightAt = d'.rightAt := by
    funext i
    exact congrArg (fun r => r.getD i 0) hsR
  have halpha : d.alpha = d'.alpha := by
    have ha := h.a_eq.symm.trans h'.a_eq
    exact smul_left_injective F hH (add_right_cancel (add_right_cancel ha))
  have hrho : d.rho = d'.rho := by
    have hmu := h.mu_eq.symm.trans h'.mu_eq
    rw [halpha] at hmu
    exact mul_right_cancel₀ hx (add_left_cancel hmu)
  have htau1 : d.tau1 = d'.tau1 := by
    have ht1 := h.t1_eq.symm.trans h'.t1_eq
    rw [hleft, hright, Basis.commit_eq, Basis.commit_eq] at ht1
    exact smul_left_injective F hH (add_left_cancel ht1)
  have htau2 : d.tau2 = d'.tau2 := by
    have htauX := h.tauX_eq.symm.trans h'.tauX_eq
    rw [htau1] at htauX
    exact mul_right_cancel₀ hx (mul_right_cancel₀ hx
      (add_right_cancel (add_right_cancel htauX)))
  cases d
  cases d'
  simp only [Nonces.mk.injEq]
  exact ⟨halpha, hsL, hsR, hrho, htau1, htau2⟩

end Outer

/-! ### The correspondence -/

/-- Elements that correspond one to one are in bijection. -/
private theorem exists_equiv {α β : Type} {R : α → β → Prop} (hα : ∀ a, ∃! b, R a b)
    (hβ : ∀ b, ∃! a, R a b) : ∃ φ : α ≃ β, ∀ a, R a (φ a) := by
  choose f hf hfu using hα
  choose g hg hgu using hβ
  exact ⟨⟨f, g, fun a => (hgu (f a) a (hf a)).symm, fun b => (hfu (g b) b (hg b)).symm⟩, hf⟩

namespace RangeProof

/-- The scalars for proofs of a witness with which no challenge is zero. -/
abbrev Draws (τ : Type) [Transcript τ] (params : Generators G) (w : Witness F) (tag : G) : Type :=
  {d : Nonces F // d.HasSize (proofSize w.size) ∧ MeetsNoZero τ params w tag d}

/-- The outer part made with the scalars. -/
private theorem exists_outer {params : Generators G} {w : Witness F} {tag : G}
    (hcap : params.capacity = proofSize w.size) (d : Draws τ params w tag) :
    ∃ o : Outer F G τ, o.Honest params w tag d ∧ o.NoZero params := by
  obtain ⟨o, h⟩ := Outer.exists_honest τ params w tag d.1
  exact ⟨o, h, d.2.2 o (h.outer_eq_ok hcap d.2.1)⟩

/-- Every choice of scalars for one witness corresponds to exactly one for the other, with which it
makes the same outer part. -/
private theorem existsUnique_draws (hprime : (Nat.card G).Prime) (hH : blindingGenerator G ≠ 0)
    {params : Generators G} {w₀ w₁ : Witness F} {tag : G}
    (hcap : params.capacity = proofSize w₀.size)
    (hsame : w₀.commitments tag = w₁.commitments tag) (d₀ : Draws τ params w₀ tag) :
    ∃! d₁ : Draws τ params w₁ tag, ∃ o : Outer F G τ,
      o.Honest params w₀ tag d₀ ∧ o.Honest params w₁ tag d₁ := by
  have hsize := Witness.size_eq_of_commitments_eq hsame
  have hcap₁ : params.capacity = proofSize w₁.size := hsize ▸ hcap
  obtain ⟨o, h, hz⟩ := exists_outer hcap d₀
  -- The outer part is a function of the scalars, for either witness.
  have hfun₀ {o' : Outer F G τ} (h' : o'.Honest params w₀ tag d₀) : o' = o := by
    have he := (h'.outer_eq_ok hcap d₀.2.1).symm.trans (h.outer_eq_ok hcap d₀.2.1)
    exact Except.ok.inj he
  obtain ⟨d₁, hd₁, h₁⟩ := h.exists_nonces (exists_smul_blindingGenerator hprime hH) hcap hz.y hz.x
    hsame
  have hz₁ : MeetsNoZero τ params w₁ tag d₁ := by
    intro o' ho'
    have he := (h₁.outer_eq_ok hcap₁ hd₁).symm.trans ho'
    exact Except.ok.inj he ▸ hz
  refine ⟨⟨d₁, hd₁, hz₁⟩, ⟨o, h, h₁⟩, ?_⟩
  rintro d ⟨o', h', h'₁⟩
  obtain rfl := hfun₀ h'
  exact Subtype.ext (h'₁.nonces_unique hH hz.y hz.x d.2.1 hd₁ h₁)

variable [BEq F] [LawfulBEq F]

/-- **Witness indistinguishability.** Two witnesses with the same commitments are proved of over the
same generators, and between their scalars there is a bijection under which they make the same
proofs. -/
theorem proveWith_indistinguishable (hprime : (Nat.card G).Prime) (hH : blindingGenerator G ≠ 0)
    {gens params : Generators G} (tag : G) {w₀ w₁ : Witness F}
    (hsame : w₀.commitments tag = w₁.commitments tag)
    (hp : gens.first (proofSize w₀.size) = .ok params) :
    gens.first (proofSize w₁.size) = .ok params ∧
      ∃ φ : Draws τ params w₀ tag ≃ Draws τ params w₁ tag, ∀ d : Draws τ params w₀ tag, ∃ proof,
        proveWith τ params w₀ tag d = .ok proof ∧ proveWith τ params w₁ tag (φ d) = .ok proof := by
  have hsize := Witness.size_eq_of_commitments_eq hsame
  obtain ⟨hle, htake⟩ := Generators.first_eq_ok_iff.mp hp
  have hcap₀ : params.capacity = proofSize w₀.size := by rw [← htake, Generators.capacity_take hle]
  have hcap₁ : params.capacity = proofSize w₁.size := hsize ▸ hcap₀
  obtain ⟨φ, hφ⟩ : ∃ φ : Draws τ params w₀ tag ≃ Draws τ params w₁ tag,
      ∀ d : Draws τ params w₀ tag, ∃ o : Outer F G τ,
        o.Honest params w₀ tag d ∧ o.Honest params w₁ tag (φ d) := by
    -- The relation "one honest outer part for both" is functional in either direction, so it is a
    -- bijection.
    refine exists_equiv (existsUnique_draws hprime hH hcap₀ hsame) ?_
    intro d₁
    obtain ⟨d₀, ⟨o, h₁, h₀⟩, hu⟩ := existsUnique_draws hprime hH hcap₁ hsame.symm d₁
    refine ⟨d₀, ⟨o, h₀, h₁⟩, ?_⟩
    rintro d ⟨o', h', h'₁⟩
    exact hu d ⟨o', h'₁, h'⟩
  refine ⟨hsize ▸ hp, φ, ?_⟩
  intro d
  obtain ⟨o, h₀, h₁⟩ := hφ d
  have hz := d.2.2 o (h₀.outer_eq_ok hcap₀ d.2.1)
  exact ⟨o.proof params, h₀.proveWith_eq_ok hcap₀ d.2.1 hz,
    h₁.proveWith_eq_ok hcap₁ (φ d).2.1 hz⟩

open Ristretto in
/-- A coin of value one cannot be told from an empty one whose blinding makes up for it. -/
theorem proveWith_exponent :
    let params := Generators.ofCapacity Exponent 64
    let tag : Exponent := basePoint
    let w₀ : Witness Scalar := ⟨[⟨1, 0⟩], by decide, by decide⟩
    let w₁ : Witness Scalar := ⟨[⟨0, (blindingGenerator Exponent).log⁻¹⟩], by decide, by decide⟩
    w₀.commitments tag = w₁.commitments tag ∧ Nonempty (Draws Checksum params w₀ tag) ∧
      params.first (proofSize w₁.size) = .ok params ∧
      ∃ φ : Draws Checksum params w₀ tag ≃ Draws Checksum params w₁ tag,
        ∀ d : Draws Checksum params w₀ tag, ∃ proof,
          proveWith Checksum params w₀ tag d = .ok proof ∧
            proveWith Checksum params w₁ tag (φ d) = .ok proof := by
  intro params tag w₀ w₁
  have hsame : w₀.commitments tag = w₁.commitments tag := by
    change [(Basis.ofTag tag).commitValue 1 (0 : Scalar)] =
      [(Basis.ofTag tag).commitValue 0 (blindingGenerator Exponent).log⁻¹]
    rw [Basis.commitValue, Basis.commitValue, Basis.commit_eq, Basis.commit_eq]
    change [((1 : ℕ) : Scalar) • tag + (0 : Scalar) • blindingGenerator Exponent] =
      [((0 : ℕ) : Scalar) • tag + (blindingGenerator Exponent).log⁻¹ • blindingGenerator Exponent]
    rw [Exponent.inv_log_smul Exponent.blindingGenerator_ne_zero, Nat.cast_one, one_smul, zero_smul,
      Nat.cast_zero, zero_smul, add_zero, zero_add]
  have hp : params.first (proofSize w₀.size) = .ok params := Generators.first_ofCapacity le_rfl
  have hd : (⟨0, .zeros 64, .zeros 64, 0, 0, 0⟩ : Nonces Scalar).HasSize (proofSize w₀.size) :=
    ⟨List.length_replicate, List.length_replicate⟩
  exact ⟨hsame, ⟨_, hd, Checksum.meetsNoZero (Generators.capacity_ofCapacity 64) hd⟩,
    proveWith_indistinguishable Exponent.card_prime Exponent.blindingGenerator_ne_zero tag hsame hp⟩

end RangeProof

end ConfidentialCoin
