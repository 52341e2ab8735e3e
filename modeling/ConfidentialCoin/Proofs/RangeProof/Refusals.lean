import ConfidentialCoin.Proofs.InnerProduct.Refusals
import ConfidentialCoin.Proofs.RangeProof.Drawing
import ConfidentialCoin.Proofs.RangeProof.Provenance
import ConfidentialCoin.Proofs.RangeProof.Safety
import ConfidentialCoin.Proofs.Ristretto.Exponent

/-!
# What a proof is refused for

A witness has a proof unless there are too few generators, or a folding challenge is zero. On the
way to a proof vectors are added and multiplied entry by entry, weights are looked up, and sums of
products are taken; each of these would fail on lengths that do not fit. All vectors have the size
of the proof, from the bits of the values on:

* the four coefficient vectors (`VectorPolynomials.exists_ofBits_eq_ok`) and the two vectors at the
  challenge (`VectorPolynomials.HasSize.exists_eval_eq_ok`);
* hence the outer part is made (`exists_outer_eq_ok`), with vectors of the size that the argument
  halves down to one.

The main theorem is `RangeProof.prove_failures`, for the lists that any sequence of ways to make a
witness leads to. It takes no law of the group, and of the scalars only that `==` is equality.
-/

namespace ConfidentialCoin

open ConfidentialCoin.InnerProduct

variable {F G τ : Type}

/-! ### Vectors of one length -/

/-- Vectors of one length are joined to a vector of this length. -/
theorem ScalarVector.exists_zipWith?_eq_ok (f : F → F → F) {a b : ScalarVector F} {n : ℕ}
    (ha : a.length = n) (hb : b.length = n) :
    ∃ c, zipWith? f a b = .ok c ∧ c.length = n :=
  ⟨_, zipWith?_eq_ok_iff.mpr ⟨ha.trans hb.symm, rfl⟩, by
    rw [List.length_zipWith, ha, hb, Nat.min_self]⟩

/-- Vectors of one length have an inner product. -/
theorem ScalarVector.exists_innerProduct_eq_ok [Zero F] [Add F] [Mul F] {a b : ScalarVector F}
    {n : ℕ} (ha : a.length = n) (hb : b.length = n) : ∃ c, innerProduct a b = .ok c :=
  ⟨_, innerProduct_eq_ok_iff.mpr ⟨ha.trans hb.symm, rfl⟩⟩

/-- Every entry of a proof has a weight. -/
theorem exists_entryWeights_eq_ok [Zero F] [One F] [Mul F] [NatCast F] (z : F) (slots : ℕ) :
    ∃ weights, entryWeights (slotWeights z slots) (valueBits * slots) = .ok weights ∧
      weights.length = valueBits * slots := by
  refine ⟨_, mapM_range_eq_ok fun i hi => entryWeight_eq_getD ?_ ?_ 0, length_table ..⟩
  · exact (length_slotWeights z slots).symm ▸ slot_lt hi
  · exact length_bitWeights (F := F).symm ▸ Nat.mod_lt i valueBits_pos

namespace VectorPolynomials

/-- The four vectors of coefficients have the length of a proof. -/
structure HasSize (p : VectorPolynomials F) (n : ℕ) : Prop where
  l0 : p.l0.length = n
  l1 : p.l1.length = n
  r0 : p.r0.length = n
  r1 : p.r1.length = n

variable [Add F] [Mul F]

/-- Vectors of one length make polynomials of that size. -/
theorem exists_ofBits_eq_ok [One F] [Neg F] (y z : F) {n : ℕ} {weights aL sL sR : ScalarVector F}
    (hweights : weights.length = n) (haL : aL.length = n) (hsL : sL.length = n)
    (hsR : sR.length = n) : ∃ p, ofBits y z n weights aL sL sR = .ok p ∧ p.HasSize n := by
  have hpow : (ScalarVector.powers y n).length = n := ScalarVector.length_powers y n
  have hpred : ((aL.addScalar (-1)).addScalar z).length = n := by
    rw [ScalarVector.length_addScalar, ScalarVector.length_addScalar, haL]
  obtain ⟨c, hc, hclen⟩ := ScalarVector.exists_zipWith?_eq_ok (· * ·) hpow hpred
  obtain ⟨r0, hr0, hr0len⟩ := ScalarVector.exists_zipWith?_eq_ok (· + ·) hclen hweights
  obtain ⟨r1, hr1, hr1len⟩ := ScalarVector.exists_zipWith?_eq_ok (· * ·) hpow hsR
  refine ⟨⟨aL.addScalar (-z), sL, r0, r1⟩, ?_, ?_, hsL, hr0len, hr1len⟩
  · exact bind_eq_ok_iff.mpr ⟨c, hc, bind_eq_ok_iff.mpr ⟨r0, hr0,
      bind_eq_ok_iff.mpr ⟨r1, hr1, rfl⟩⟩⟩
  · exact (ScalarVector.length_addScalar aL (-z)).trans haL

namespace HasSize

variable {p : VectorPolynomials F} {n : ℕ} (h : p.HasSize n)
include h

theorem exists_linear_eq_ok [Zero F] : ∃ t, p.linear = .ok t := by
  obtain ⟨c, hc⟩ := ScalarVector.exists_innerProduct_eq_ok h.l0 h.r1
  obtain ⟨d, hd⟩ := ScalarVector.exists_innerProduct_eq_ok h.l1 h.r0
  exact ⟨c + d, bind_eq_ok_iff.mpr ⟨c, hc, bind_eq_ok_iff.mpr ⟨d, hd, rfl⟩⟩⟩

theorem exists_quadratic_eq_ok [Zero F] : ∃ t, p.quadratic = .ok t :=
  ScalarVector.exists_innerProduct_eq_ok h.l1 h.r1

/-- Evaluating at a challenge keeps the length. -/
theorem exists_eval_eq_ok (x : F) :
    ∃ l r, p.eval x = .ok (l, r) ∧ l.length = n ∧ r.length = n := by
  have hl1 := (ScalarVector.length_mulScalar p.l1 x).trans h.l1
  have hr1 := (ScalarVector.length_mulScalar p.r1 x).trans h.r1
  obtain ⟨l, hl, hllen⟩ := ScalarVector.exists_zipWith?_eq_ok (· + ·) h.l0 hl1
  obtain ⟨r, hr, hrlen⟩ := ScalarVector.exists_zipWith?_eq_ok (· + ·) h.r0 hr1
  exact ⟨l, r, bind_eq_ok_iff.mpr ⟨l, hl, bind_eq_ok_iff.mpr ⟨r, hr, rfl⟩⟩, hllen, hrlen⟩

end HasSize

end VectorPolynomials

/-! ### The outer part -/

private theorem mapError_eq_ok {ε ε' α : Type} {f : ε → ε'} {x : Except ε α} {a : α}
    (h : x = .ok a) : x.mapError f = .ok a := by
  rw [h]
  rfl

section Prover

variable [Zero F] [One F] [Add F] [Neg F] [Mul F] [NatCast F] [LinearCombination F G] [BasePoint G]
  [HashTarget G] [Encoding G] [WideReduction F] [Transcript τ] {params : Generators G}
  {w : Witness F} {tag : G} {nonces : Nonces F}

namespace RangeProof

/-- **The outer part** of a proof is made whatever is drawn, with vectors of the proof's size. -/
theorem exists_outer_eq_ok (τ : Type) [Transcript τ] (hcap : params.capacity = proofSize w.size)
    (tag : G) (hnonces : nonces.HasSize (proofSize w.size)) :
    ∃ o : Outer F G τ, outer τ params w tag nonces = .ok o ∧ o.l.length = proofSize w.size ∧
      o.r.length = proofSize w.size := by
  let n := proofSize w.size
  let basis := Basis.ofTag tag
  let t : τ := Layout.start valueBits (slotCount w.size) tag (w.commitments tag)
  -- `A` and `S` have a scalar for each generator.
  let aL := slotBits F w.values (slotCount w.size)
  have haL : aL.length = n := length_slotBits ..
  have hpred : (aL.addScalar (-1)).length = n := (ScalarVector.length_addScalar ..).trans haL
  obtain ⟨a, ha⟩ : ∃ a, commitVectors params basis nonces.alpha aL (aL.addScalar (-1)) = .ok a :=
    ⟨_, commitVectors_eq_ok hcap _ _ haL hpred⟩
  obtain ⟨s, hs⟩ : ∃ s, commitVectors params basis nonces.rho nonces.sL nonces.sR = .ok s :=
    ⟨_, commitVectors_eq_ok hcap _ _ hnonces.left hnonces.right⟩
  let yz := Layout.challengesYZ F t a s
  -- The coefficients at `y` and `z` are vectors of the proof's size.
  obtain ⟨weights, hweights, hweightsLen⟩ := exists_entryWeights_eq_ok yz.1.2 (slotCount w.size)
  obtain ⟨poly, hpoly, hsize⟩ := VectorPolynomials.exists_ofBits_eq_ok yz.1.1 yz.1.2 hweightsLen
    haL hnonces.left hnonces.right
  obtain ⟨t1, ht1⟩ := hsize.exists_linear_eq_ok
  obtain ⟨t2, ht2⟩ := hsize.exists_quadratic_eq_ok
  let xw := Layout.challengesXW F yz.2 (basis.commit t1 nonces.tau1) (basis.commit t2 nonces.tau2)
  -- So are the two vectors at `x`.
  obtain ⟨l, r, heval, hl, hr⟩ := hsize.exists_eval_eq_ok xw.1.1
  obtain ⟨tHat, htHat⟩ := ScalarVector.exists_innerProduct_eq_ok hl hr
  let blindings := (List.zipWith (· * ·) w.blindings (slotWeights yz.1.2 (slotCount w.size))).sum
  let o : Outer F G τ := ⟨w.commitments tag, a, s, basis.commit t1 nonces.tau1,
    basis.commit t2 nonces.tau2, nonces.tau2 * xw.1.1 * xw.1.1 + nonces.tau1 * xw.1.1 + blindings,
    tHat, nonces.alpha + nonces.rho * xw.1.1, yz.1.1, yz.1.2, xw.1.1, xw.1.2, xw.2, l, r⟩
  refine ⟨o, (if_neg (not_not_intro haL)).trans ?_, hl, hr⟩
  exact bind_eq_ok_iff.mpr ⟨a, ha, bind_eq_ok_iff.mpr ⟨s, hs,
    bind_eq_ok_iff.mpr ⟨weights, mapError_eq_ok hweights,
    bind_eq_ok_iff.mpr ⟨poly, mapError_eq_ok hpoly, bind_eq_ok_iff.mpr ⟨t1, mapError_eq_ok ht1,
    bind_eq_ok_iff.mpr ⟨t2, mapError_eq_ok ht2, bind_eq_ok_iff.mpr ⟨(l, r), mapError_eq_ok heval,
    bind_eq_ok_iff.mpr ⟨tHat, mapError_eq_ok htHat, rfl⟩⟩⟩⟩⟩⟩⟩⟩

end RangeProof

variable [Inv F] [SMul F G]

/-- The challenges of the argument's rounds. -/
def Outer.foldingChallenges (params : Generators G) (o : Outer F G τ) : List F :=
  InnerProduct.foldingChallenges (o.w • params.u) (roundCount params.capacity)
    (Layout.innerProductDomain o.transcript params.capacity) params.g (params.scaledH o.y) o.l o.r

namespace RangeProof

variable [BEq F] [LawfulBEq F]

/-- After the outer part nothing but a zero among the folding challenges is in the way. -/
theorem proveWith_of_outer {o : Outer F G τ} (ho : outer τ params w tag nonces = .ok o)
    (hcap : params.capacity = proofSize w.size) (hl : o.l.length = proofSize w.size)
    (hr : o.r.length = proofSize w.size) :
    (0 ∉ o.foldingChallenges params → ∃ proof, proveWith τ params w tag nonces = .ok proof) ∧
      (0 ∈ o.foldingChallenges params →
        proveWith τ params w tag nonces = .error zeroChallenge) := by
  have hpow : params.capacity = 2 ^ roundCount params.capacity := by
    rw [hcap]
    exact proofSize_eq_two_pow _
  have hh : (params.scaledH o.y).length = params.capacity := by
    rw [Generators.scaledH, List.length_zipWith, ScalarVector.length_powers, params.length_h]
    exact Nat.min_self _
  have hs : Sized (roundCount params.capacity) params.g (params.scaledH o.y) o.l o.r :=
    ⟨hpow, hh.trans hpow, hl.trans (hcap.symm.trans hpow), hr.trans (hcap.symm.trans hpow)⟩
  -- The claim of the argument has a scalar for each generator.
  have hlength : (o.l ++ o.r ++ [o.tHat]).length =
      (params.g ++ params.scaledH o.y ++ [o.w • params.u]).length := by
    simp only [List.length_append, List.length_singleton, hs.g, hs.h, hs.a, hs.b]
  let p := combine ((o.l ++ o.r ++ [o.tHat]).zip
    (params.g ++ params.scaledH o.y ++ [o.w • params.u]))
  have hp : (combine? (o.l ++ o.r ++ [o.tHat])
      (params.g ++ params.scaledH o.y ++ [o.w • params.u])).mapError ProverError.fault = .ok p :=
    mapError_eq_ok (combine?_of_length_eq hlength)
  have hdomain : Layout.innerProductDomain o.transcript params.capacity =
      Layout.innerProductDomain o.transcript (2 ^ roundCount params.capacity) :=
    congrArg (Layout.innerProductDomain o.transcript) hpow
  rw [Outer.foldingChallenges, hdomain]
  constructor
  · intro hne
    obtain ⟨⟨argument, t⟩, hargument⟩ := exists_prove_eq_ok_of_notMem hs p hne
    exact ⟨_, bind_eq_ok_iff.mpr ⟨o, ho, bind_eq_ok_iff.mpr ⟨p, hp,
      bind_eq_ok_iff.mpr ⟨(argument, t), hargument, rfl⟩⟩⟩⟩
  · intro hzero
    have hargument := prove_eq_error_of_mem hs p hzero
    exact bind_eq_error_iff.mpr (.inr ⟨o, ho, bind_eq_error_iff.mpr (.inr ⟨p, hp,
      bind_eq_error_iff.mpr (.inl hargument)⟩)⟩)

variable [Sub F]

/-- **Witnesses and their proofs.** Whatever sequence of ways to make a witness leads to two lists,
they have one length, between 1 and 30. Blinders bring the coins under one tag if there is one for
each coin, and are refused for their number if not. A proof is refused, before anything is drawn,
if there are fewer than 64 generators for each slot; otherwise the prover comes to the argument,
and fails there if a folding challenge is zero, and for nothing else. So no operation on vectors
refuses their lengths, no index is past an end, and every sum of products has as many scalars as
elements. The argument finds no length wrong when it halves either: halving at a count makes the
same arguments and the same refusals. -/
theorem prove_failures {lists : WitnessLists F} (h : lists.Reachable) :
    (lists.values.length = lists.blindings.length ∧ 1 ≤ lists.values.length ∧
      lists.values.length ≤ 30) ∧
    (∀ blinders : List F,
      (blinders.length = lists.values.length →
        ∃ lists', lists.underFirstTag blinders = .ok lists' ∧ lists'.Reachable ∧
          lists'.values = lists.values) ∧
      (blinders.length ≠ lists.values.length → lists.underFirstTag blinders =
        .error (.refused (.lengthMismatch lists.values.length blinders.length)))) ∧
    (∃ w : Witness F, w.lists = lists ∧
      ∀ (tag : G) (gens : Generators G) (source : RandomSource),
        let n := 64 * roundUpPowTwo lists.values.length
        let params := gens.take n
        (gens.capacity < n → prove τ gens w tag source =
          (.error (.refused (.invalidInput "proof dimension exceeds generator capacity")),
            source)) ∧
        (n ≤ gens.capacity → ∃ o : Outer F G τ,
          outer τ params w tag (Nonces.draw n source).1 = .ok o ∧
          (0 ∉ o.foldingChallenges params →
            ∃ proof, (prove τ gens w tag source).1 = .ok proof) ∧
          (0 ∈ o.foldingChallenges params → (prove τ gens w tag source).1 =
            .error (.proofConstruction "zero folding challenge")))) ∧
    ∀ (t : τ) (g h : List G) (u : G) (a b : List F) (p : G),
      proveHalving t g h u a b p = InnerProduct.prove t g h u a b p := by
  obtain ⟨w, rfl⟩ := WitnessLists.reachable_iff.mp h
  have hvalues : w.lists.values.length = w.size := w.length_values
  refine ⟨⟨?_, ?_, ?_⟩, fun blinders => ⟨fun hlen => ?_, fun hlen => if_pos hlen⟩, ⟨w, rfl, ?_⟩,
    proveHalving_eq_prove⟩
  · exact hvalues.trans w.length_blindings.symm
  · exact hvalues ▸ w.nonempty
  · exact hvalues ▸ w.length_le
  · obtain ⟨-, w', -, hw', hretagged, -⟩ :=
      WitnessLists.exists_underFirstTag_eq_ok w (hlen.trans hvalues)
    have hlists : w.lists.underFirstTag blinders = .ok w'.lists := by
      rw [WitnessLists.underFirstTag_eq, hw']
      rfl
    exact ⟨w'.lists, hlists, h.underFirstTag hlists, hretagged⟩
  · rw [hvalues]
    intro tag gens source n params
    refine ⟨fun hcap => ?_, fun hcap => ?_⟩
    · have hfirst : gens.first (proofSize w.size) =
          .error (.invalidInput "proof dimension exceeds generator capacity") :=
        if_neg (Nat.not_le.mpr hcap)
      rw [prove, hfirst]
    · have hfirst : gens.first (proofSize w.size) = .ok params := if_pos hcap
      have hcapacity : params.capacity = proofSize w.size := Generators.capacity_take hcap
      obtain ⟨o, ho, hl, hr⟩ := exists_outer_eq_ok τ hcapacity tag
        (Nonces.hasSize_draw (F := F) (proofSize w.size) source)
      obtain ⟨hok, herror⟩ := proveWith_of_outer ho hcapacity hl hr
      have hprove : (prove τ gens w tag source).1 =
          proveWith τ params w tag (Nonces.draw (proofSize w.size) source).1 := by
        rw [prove, hfirst]
      rw [hprove]
      exact ⟨o, ho, hok, herror⟩

end RangeProof

end Prover

section Witness

open Ristretto

/-- Over checksums no folding challenge is zero. -/
theorem Ristretto.Checksum.zero_notMem_foldingChallenges (u : Exponent) (k : ℕ) (t : Checksum)
    (g h : List Exponent) (a b : List Scalar) :
    0 ∉ InnerProduct.foldingChallenges u k t g h a b := by
  induction k generalizing t g h a b with
  | zero => exact List.not_mem_nil
  | succ k ih =>
    rw [InnerProduct.foldingChallenges, List.mem_cons, not_or]
    exact ⟨fun h0 => Checksum.reduce_draw_ne_zero _ h0.symm, ih _ _ _ _ _⟩

/-- Two coins whose second blinding was moved: refused for 64 generators, with the source as it
was, and proved of with 128. -/
theorem RangeProof.prove_failures_exponent :
    let lists : WitnessLists Scalar := ⟨[5, 7], [1, 9]⟩
    lists.Reachable ∧ ∃ w : Witness Scalar, w.lists = lists ∧
      prove Checksum (.ofCapacity Exponent 64) w basePoint (.splitMix 1) =
        (.error (.refused (.invalidInput "proof dimension exceeds generator capacity")),
          .splitMix 1) ∧
      ∃ proof, (prove Checksum (.ofCapacity Exponent 128) w basePoint (.splitMix 1)).1 =
        .ok proof := by
  intro lists
  have hreachable : lists.Reachable := by
    have hgiven : WitnessLists.ofLists [5, 7] [(1 : Scalar), 2] = .ok ⟨[5, 7], [1, 2]⟩ := rfl
    have hretagged : WitnessLists.underFirstTag ⟨[5, 7], [1, 2]⟩ [(3 : Scalar), 4] = .ok lists := by
      decide +kernel
    exact .underFirstTag (.ofLists hgiven) hretagged
  obtain ⟨-, -, ⟨w, hw, hprove⟩, -⟩ :=
    prove_failures (G := Exponent) (τ := Checksum) hreachable
  refine ⟨hreachable, w, hw, ?_, ?_⟩
  · exact (hprove basePoint (.ofCapacity Exponent 64) (.splitMix 1)).1
      ((Generators.capacity_ofCapacity 64).trans_lt (by decide))
  · obtain ⟨o, -, hok, -⟩ := (hprove basePoint (.ofCapacity Exponent 128) (.splitMix 1)).2
      (Generators.capacity_ofCapacity 128).ge
    exact hok (Checksum.zero_notMem_foldingChallenges _ _ _ _ _ _ _)

end Witness

end ConfidentialCoin
