import ConfidentialCoin.Proofs.InnerProduct.Rounds
import ConfidentialCoin.Proofs.RangeProof.Equations
import ConfidentialCoin.RangeProof.Prover
import Mathlib.Algebra.Module.BigOperators

/-!
# What the prover makes

`Outer.Honest` lists the equations between the outer part of a proof, its witness and the scalars
drawn for it: which commitments it holds, from which transcripts its challenges come, and what the
vectors are by their entries. There is one such part for every witness and all scalars
(`exists_honest`), and `RangeProof.outer` computes it (`outer_eq_ok`). The run of the prover is
opened here and nowhere else.

The equations are those that the verifier checks: the commitments open to the inner product
(`Honest.value_eq`), and `A` and `S` commit to the claim (`Honest.claim_eq`).
-/

namespace ConfidentialCoin

open Finset ConfidentialCoin.InnerProduct

variable {F G τ : Type}

/-! ### The scalars drawn -/

namespace Nonces

/-- The blindings fill vectors of length `n`. -/
structure HasSize (d : Nonces F) (n : ℕ) : Prop where
  left : d.sL.length = n
  right : d.sR.length = n

theorem hasSize_draw [WideReduction F] (n : ℕ) (source : RandomSource) :
    (draw n source : Nonces F × RandomSource).1.HasSize n :=
  ⟨RandomSource.length_scalars .., RandomSource.length_scalars ..⟩

variable [Zero F]

/-- The blinding of left entry `i`. -/
def leftAt (d : Nonces F) (i : ℕ) : F := d.sL.getD i 0

/-- The blinding of right entry `i`. -/
def rightAt (d : Nonces F) (i : ℕ) : F := d.sR.getD i 0

theorem HasSize.sL_eq {d : Nonces F} {n : ℕ} (h : d.HasSize n) : d.sL = table n d.leftAt :=
  (table_getD h.left 0).symm

theorem HasSize.sR_eq {d : Nonces F} {n : ℕ} (h : d.HasSize n) : d.sR = table n d.rightAt :=
  (table_getD h.right 0).symm

end Nonces

variable [Field F] [AddCommGroup G] [Module F G]

/-! ### Commitments -/

section

variable [LinearCombination F G] [LawfulLinearCombination F G]

theorem commitVectors_table {params : Generators G} {n : ℕ} (h : params.capacity = n)
    (basis : Basis G) (blinding : F) (left right : ℕ → F) :
    RangeProof.commitVectors params basis blinding (table n left) (table n right) =
      .ok (vectorCommitment params basis blinding left right) := by
  have hg : params.g.length = n := h
  have hh : params.h.length = n := params.length_h.trans hg
  rw [RangeProof.commitVectors, List.cons_append, List.cons_append,
    combine?_eq_pairing (by simp [hg, hh]), pairing_cons, pairing_append (by simp [hg]),
    Generators.pairing_g h, Generators.pairing_h h, vectorCommitment, h, add_assoc]
  rfl

/-- The commitment of coin `j` opens to its value and blinding. -/
theorem Witness.getD_commitments [BasePoint G] [HashTarget G] (w : Witness F) (tag : G) {j : ℕ}
    (h : j < w.size) : (w.commitments tag).getD j 0 =
      ((w.values.getD j 0).toNat : F) • tag + w.blindings.getD j 0 • blindingGenerator G := by
  have hc : j < (w.commitments tag).length := (List.length_map ..).symm ▸ h
  have hv : j < w.values.length := w.length_values.symm ▸ h
  have hb : j < w.blindings.length := w.length_blindings.symm ▸ h
  rw [List.getD_eq_getElem _ _ hc, List.getD_eq_getElem _ _ hv, List.getD_eq_getElem _ _ hb]
  simp only [Witness.commitments, Witness.values, Witness.blindings, List.getElem_map,
    Basis.commitValue, Basis.commit_eq]
  rfl

end

omit [AddCommGroup G] [Module F G] in
theorem Witness.length_commitments [LinearCombination F G] [BasePoint G] [HashTarget G]
    (w : Witness F) (tag : G) : (w.commitments tag).length = w.size := List.length_map ..

omit [AddCommGroup G] [Module F G] in
/-- Witnesses of the same commitments have the same size. -/
theorem Witness.size_eq_of_commitments_eq [LinearCombination F G] [BasePoint G] [HashTarget G]
    {w₀ w₁ : Witness F} {tag : G} (h : w₀.commitments tag = w₁.commitments tag) :
    w₀.size = w₁.size := by
  rw [← w₀.length_commitments tag, h, w₁.length_commitments tag]

/-! ### Two identities

Both hold for the entries as they are, whatever commitments a proof with them may hold. -/

/-- The commitments of a witness open to the inner product, with those to its coefficients. -/
theorem Witness.opening_eq [BasePoint G] [HashTarget G] [LinearCombination F G]
    [LawfulLinearCombination F G] (w : Witness F) (tag : G) (y z x tau1 tau2 : F)
    (sL sR : ℕ → F) :
    pairing (table (proofSize w.size) (leftEntry z (bitAt F w.values) sL x))
        (table (proofSize w.size) (rightEntry y z (fun i => bitAt F w.values i - 1) sR x)) • tag +
        (tau2 * x * x + tau1 * x + ∑ j ∈ range w.size, w.blindings.getD j 0 * z ^ (2 + j)) •
          blindingGenerator G =
      ∑ j ∈ range w.size, z ^ (2 + j) • (w.commitments tag).getD j 0 +
        deltaAt y z (slotCount w.size) • tag +
        x • (Basis.ofTag tag).commit (linearTerm y z (proofSize w.size) (bitAt F w.values)
          (fun i => bitAt F w.values i - 1) sL sR) tau1 +
        (x * x) • (Basis.ofTag tag).commit (quadraticTerm y (proofSize w.size) sL sR) tau2 := by
  have hslots : ∑ j ∈ range (slotCount w.size), z ^ (2 + j) * ((w.values.getD j 0).toNat : F) =
      ∑ j ∈ range w.size, z ^ (2 + j) * ((w.values.getD j 0).toNat : F) := by
    refine (sum_subset (range_mono (le_slotCount w.size)) fun j _ hj => ?_).symm
    have hlen : w.values.length ≤ j := by simpa using hj
    rw [List.getD_eq_default _ _ hlen]
    exact (congrArg _ Nat.cast_zero).trans (mul_zero _)
  have hcommitments : ∑ j ∈ range w.size, z ^ (2 + j) • (w.commitments tag).getD j 0 =
      (∑ j ∈ range w.size, z ^ (2 + j) * ((w.values.getD j 0).toNat : F)) • tag +
        (∑ j ∈ range w.size, w.blindings.getD j 0 * z ^ (2 + j)) • blindingGenerator G := by
    rw [sum_smul, sum_smul, ← sum_add_distrib]
    refine sum_congr rfl fun j hj => ?_
    rw [w.getD_commitments tag (mem_range.mp hj)]
    module
  rw [pairing_table]
  simp only [smul_eq_mul]
  rw [sum_left_mul_right, hcommitments, proofSize, constantTerm_bits, hslots, Basis.commit_eq,
    Basis.commit_eq]
  simp only [Basis.ofTag, Basis.withTag, Basis.standard]
  module

/-- The claim of the two vectors is the one that commitments to the entries and to the blindings
make. -/
theorem claimValue_entries {params : Generators G} {n : ℕ} (hcap : params.capacity = n) {y : F}
    (hy : y ≠ 0) (basis : Basis G) (u : G) (z x alpha rho : F) (aL aR sL sR : ℕ → F) :
    claimValue params.g (params.scaledH y) u (table n (leftEntry z aL sL x))
        (table n (rightEntry y z aR sR x)) =
      vectorCommitment params basis alpha aL aR + x • vectorCommitment params basis rho sL sR +
        -(alpha + rho * x) • basis.blinding +
        pairing (table n (leftEntry z aL sL x)) (table n (rightEntry y z aR sR x)) • u +
        ∑ i ∈ range n, -z • params.g.getD i 0 +
        ∑ i ∈ range n, (z + weightAt z i * y⁻¹ ^ i) • params.h.getD i 0 := by
  have hleft : pairing (table n (leftEntry z aL sL x)) params.g =
      ∑ i ∈ range n, aL i • params.g.getD i 0 + x • ∑ i ∈ range n, sL i • params.g.getD i 0 +
        ∑ i ∈ range n, -z • params.g.getD i 0 := by
    rw [Generators.pairing_g hcap, smul_sum, ← sum_add_distrib, ← sum_add_distrib]
    refine sum_congr rfl fun i _ => ?_
    rw [leftEntry]
    module
  have hright : pairing (table n (rightEntry y z aR sR x)) (params.scaledH y) =
      ∑ i ∈ range n, aR i • params.h.getD i 0 + x • ∑ i ∈ range n, sR i • params.h.getD i 0 +
        ∑ i ∈ range n, (z + weightAt z i * y⁻¹ ^ i) • params.h.getD i 0 := by
    rw [Generators.pairing_scaledH hcap, smul_sum, ← sum_add_distrib, ← sum_add_distrib]
    refine sum_congr rfl fun i _ => ?_
    -- The power of `y` in the entry meets its inverse in the generator.
    have hyi : y ^ i * y⁻¹ ^ i = 1 := by rw [← mul_pow, mul_inv_cancel₀ hy, one_pow]
    rw [rightEntry, rightConstant, smul_smul, ← add_smul, ← add_smul]
    congr 1
    linear_combination (aR i + z + sR i * x) * hyi
  rw [claimValue, hleft, hright, vectorCommitment, vectorCommitment, hcap]
  module

/-! ### The outer part -/

variable [BasePoint G] [HashTarget G] [Encoding G] [WideReduction F] [Transcript τ]
  [LinearCombination F G]

namespace Outer

/-- The outer part is made of the witness with the given scalars. -/
structure Honest (params : Generators G) (w : Witness F) (tag : G) (d : Nonces F)
    (o : Outer F G τ) : Prop where
  commitments_eq : o.commitments = w.commitments tag
  a_eq : o.a = vectorCommitment params (Basis.ofTag tag) d.alpha (bitAt F w.values)
    fun i => bitAt F w.values i - 1
  s_eq : o.s = vectorCommitment params (Basis.ofTag tag) d.rho d.leftAt d.rightAt
  yz_eq : (Layout.challengesYZ F
    (Layout.start valueBits (slotCount w.size) tag o.commitments : τ) o.a o.s).1 = (o.y, o.z)
  t1_eq : o.t1 = (Basis.ofTag tag).commit (linearTerm o.y o.z (proofSize w.size) (bitAt F w.values)
    (fun i => bitAt F w.values i - 1) d.leftAt d.rightAt) d.tau1
  t2_eq : o.t2 = (Basis.ofTag tag).commit
    (quadraticTerm o.y (proofSize w.size) d.leftAt d.rightAt) d.tau2
  xw_eq : Layout.challengesXW F (Layout.challengesYZ F
    (Layout.start valueBits (slotCount w.size) tag o.commitments : τ) o.a o.s).2 o.t1 o.t2 =
      ((o.x, o.w), o.transcript)
  l_eq : o.l = table (proofSize w.size) (leftEntry o.z (bitAt F w.values) d.leftAt o.x)
  r_eq : o.r = table (proofSize w.size)
    (rightEntry o.y o.z (fun i => bitAt F w.values i - 1) d.rightAt o.x)
  tHat_eq : o.tHat = pairing o.l o.r
  tauX_eq : o.tauX = d.tau2 * o.x * o.x + d.tau1 * o.x +
    ∑ j ∈ range w.size, w.blindings.getD j 0 * o.z ^ (2 + j)
  mu_eq : o.mu = d.alpha + d.rho * o.x

variable {params : Generators G} {w : Witness F} {tag : G} {d : Nonces F}

/-- Whatever is drawn, there is an honest outer proof made with it. -/
theorem exists_honest (τ : Type) [Transcript τ] (params : Generators G) (w : Witness F) (tag : G)
    (d : Nonces F) : ∃ o : Outer F G τ, o.Honest params w tag d := by
  let a := vectorCommitment params (Basis.ofTag tag) d.alpha (bitAt F w.values)
    fun i => bitAt F w.values i - 1
  let s := vectorCommitment params (Basis.ofTag tag) d.rho d.leftAt d.rightAt
  let yz := Layout.challengesYZ F
    (Layout.start valueBits (slotCount w.size) tag (w.commitments tag) : τ) a s
  let t1 := (Basis.ofTag tag).commit (linearTerm yz.1.1 yz.1.2 (proofSize w.size)
    (bitAt F w.values) (fun i => bitAt F w.values i - 1) d.leftAt d.rightAt) d.tau1
  let t2 := (Basis.ofTag tag).commit
    (quadraticTerm yz.1.1 (proofSize w.size) d.leftAt d.rightAt) d.tau2
  let xw := Layout.challengesXW F yz.2 t1 t2
  let l := table (proofSize w.size) (leftEntry yz.1.2 (bitAt F w.values) d.leftAt xw.1.1)
  let r := table (proofSize w.size)
    (rightEntry yz.1.1 yz.1.2 (fun i => bitAt F w.values i - 1) d.rightAt xw.1.1)
  exact ⟨⟨w.commitments tag, a, s, t1, t2, d.tau2 * xw.1.1 * xw.1.1 + d.tau1 * xw.1.1 +
    ∑ j ∈ range w.size, w.blindings.getD j 0 * yz.1.2 ^ (2 + j), pairing l r,
    d.alpha + d.rho * xw.1.1, yz.1.1, yz.1.2, xw.1.1, xw.1.2, xw.2, l, r⟩,
    rfl, rfl, rfl, rfl, rfl, rfl, rfl, rfl, rfl, rfl, rfl, rfl⟩

variable [LawfulLinearCombination F G] {o : Outer F G τ}

/-- **The outer run.** The prover computes the outer part that the equations describe. -/
theorem Honest.outer_eq_ok (h : o.Honest params w tag d) (hcap : params.capacity = proofSize w.size)
    (hd : d.HasSize (proofSize w.size)) : RangeProof.outer τ params w tag d = .ok o := by
  have hbits : slotBits F w.values (slotCount w.size) =
      table (proofSize w.size) (bitAt F w.values) := slotBits_eq_table ..
  have hpred : ScalarVector.addScalar (table (proofSize w.size) (bitAt F w.values)) (-1) =
      table (proofSize w.size) fun i => bitAt F w.values i - 1 := by
    rw [ScalarVector.addScalar_table]
    exact table_congr fun i _ => (sub_eq_add_neg _ _).symm
  have hblindings : (List.zipWith (· * ·) w.blindings (slotWeights o.z (slotCount w.size))).sum =
      ∑ j ∈ range w.size, w.blindings.getD j 0 * o.z ^ (2 + j) := by
    have hw : w.blindings = table w.size fun j => w.blindings.getD j 0 :=
      (table_getD w.length_blindings 0).symm
    rw [slotWeights_eq_table, hw, zipWith_table_of_le (le_slotCount w.size), sum_table, ← hw]
  have hweights : entryWeights (slotWeights o.z (slotCount w.size)) (proofSize w.size) =
      .ok (table (proofSize w.size) (weightAt o.z)) := entryWeights_eq_table ..
  have htHat : ScalarVector.innerProduct o.l o.r = .ok o.tHat := by
    rw [h.tHat_eq, ScalarVector.innerProduct_eq_ok_iff, innerProduct_eq_pairing, h.l_eq, h.r_eq]
    simp
  -- The first draw is named, so that the second starts from the transcript that it leaves.
  have hxw := h.xw_eq
  obtain ⟨t, hyz⟩ : ∃ t, Layout.challengesYZ F
      (Layout.start valueBits (slotCount w.size) tag o.commitments : τ) o.a o.s =
        ((o.y, o.z), t) := ⟨_, Prod.ext h.yz_eq rfl⟩
  rw [hyz] at hxw
  have ht1 := h.t1_eq.symm
  have ht2 := h.t2_eq.symm
  rw [RangeProof.outer]
  simp only [hbits, hpred, length_table, ne_eq, not_true_eq_false, if_false, bind, Except.bind]
  rw [commitVectors_table hcap, hd.sL_eq, hd.sR_eq, commitVectors_table hcap, ← h.a_eq, ← h.s_eq,
    ← h.commitments_eq]
  simp only [hyz, hweights, Except.mapError, VectorPolynomials.ofBits_table,
    VectorPolynomials.linear_ofEntries, VectorPolynomials.quadratic_ofEntries, ht1, ht2, hxw,
    VectorPolynomials.eval_ofEntries, ← h.l_eq, ← h.r_eq, htHat, hblindings, ← h.tauX_eq,
    ← h.mu_eq]

omit [LawfulLinearCombination F G] in
theorem Honest.length_commitments (h : o.Honest params w tag d) :
    o.commitments.length = w.size := by
  rw [h.commitments_eq, w.length_commitments]

omit [LawfulLinearCombination F G] in
/-- The vectors are there for all rounds of the argument. -/
theorem Honest.sized (h : o.Honest params w tag d) (hcap : params.capacity = proofSize w.size) :
    Sized (roundCount params.capacity) params.g (params.scaledH o.y) o.l o.r := by
  have hpow : params.capacity = 2 ^ roundCount params.capacity := by
    rw [hcap]
    exact proofSize_eq_two_pow _
  refine ⟨hpow, (params.length_scaledH o.y).trans hpow, ?_, ?_⟩
  · rw [h.l_eq, length_table, ← hcap]
    exact hpow
  · rw [h.r_eq, length_table, ← hcap]
    exact hpow

/-! ### The equations hold -/

/-- **Values.** The commitments to the values and to the coefficients open to the inner product. -/
theorem Honest.value_eq (h : o.Honest params w tag d) :
    o.tHat • tag + o.tauX • blindingGenerator G =
      ∑ j ∈ range w.size, o.z ^ (2 + j) • o.commitments.getD j 0 +
        deltaAt o.y o.z (slotCount w.size) • tag + o.x • o.t1 + (o.x * o.x) • o.t2 := by
  rw [h.tHat_eq, h.l_eq, h.r_eq, h.tauX_eq, h.commitments_eq, h.t1_eq, h.t2_eq]
  exact w.opening_eq tag ..

omit [LawfulLinearCombination F G] in
/-- **Claim.** The claim of the two vectors is the one that `A` and `S` commit to. -/
theorem Honest.claim_eq (h : o.Honest params w tag d) (hcap : params.capacity = proofSize w.size)
    (hy : o.y ≠ 0) (u : G) :
    claimValue params.g (params.scaledH o.y) u o.l o.r =
      o.a + o.x • o.s + -o.mu • blindingGenerator G + o.tHat • u +
        ∑ i ∈ range (proofSize w.size), -o.z • params.g.getD i 0 +
        ∑ i ∈ range (proofSize w.size),
          (o.z + weightAt o.z i * o.y⁻¹ ^ i) • params.h.getD i 0 := by
  rw [h.tHat_eq, h.l_eq, h.r_eq, h.mu_eq, h.a_eq, h.s_eq]
  exact claimValue_entries hcap hy ..

/-! ### The whole run -/

/-- The folding rounds of the argument. -/
def rounds (params : Generators G) (o : Outer F G τ) : List (F × G × G) :=
  InnerProduct.rounds (o.w • params.u) (roundCount params.capacity)
    (Layout.innerProductDomain o.transcript params.capacity) params.g (params.scaledH o.y) o.l o.r

/-- The proof with the given outer part and the argument for its vectors. -/
def proof (params : Generators G) (o : Outer F G τ) : RangeProof F G :=
  ⟨o.commitments, o.a, o.s, o.t1, o.t2, o.tauX, o.tHat, o.mu,
    argumentOf (o.rounds params) o.l o.r
      (claimValue params.g (params.scaledH o.y) (o.w • params.u) o.l o.r)⟩

omit [LawfulLinearCombination F G] [LinearCombination F G] [BasePoint G] [HashTarget G] in
/-- The argument of an honest proof halves the generators down to one. -/
theorem length_argument (params : Generators G) (o : Outer F G τ) :
    (o.proof params).argument.l.length = roundCount params.capacity ∧
      (o.proof params).argument.r.length = roundCount params.capacity := by
  simp only [proof, argumentOf, rounds, List.length_map, length_rounds, and_self]

/-- No challenge of the run is zero. -/
structure NoZero (params : Generators G) (o : Outer F G τ) : Prop where
  y : o.y ≠ 0
  z : o.z ≠ 0
  x : o.x ≠ 0
  w : o.w ≠ 0
  rounds : ∀ ρ ∈ o.rounds params, ρ.1 ≠ 0

variable [BEq F] [LawfulBEq F]

/-- **The prover.** Unless it meets a zero challenge it makes this proof. -/
theorem Honest.proveWith_eq_ok (h : o.Honest params w tag d)
    (hcap : params.capacity = proofSize w.size) (hd : d.HasSize (proofSize w.size))
    (hz : o.NoZero params) : RangeProof.proveWith τ params w tag d = .ok (o.proof params) := by
  have hs := h.sized hcap
  have hclaim := claim_eq_claimValue (u := o.w • params.u) (hs.a.trans hs.g.symm)
    (hs.b.trans hs.h.symm)
  rw [claim, innerProduct_eq_pairing, ← h.tHat_eq] at hclaim
  have hdomain : Layout.innerProductDomain o.transcript params.capacity =
      Layout.innerProductDomain o.transcript (2 ^ roundCount params.capacity) :=
    congrArg (Layout.innerProductDomain o.transcript) hs.g
  obtain ⟨t, ht⟩ := prove_eq_ok hs hdomain hz.rounds
    (claimValue params.g (params.scaledH o.y) (o.w • params.u) o.l o.r)
  rw [RangeProof.proveWith, h.outer_eq_ok hcap hd]
  simp only [bind, Except.bind]
  rw [hclaim]
  simp only [Except.mapError]
  rw [ht]
  rfl

end Outer

/-- The run of the prover with these scalars meets no challenge that is zero. -/
def RangeProof.MeetsNoZero (τ : Type) [Transcript τ] (params : Generators G) (w : Witness F)
    (tag : G) (d : Nonces F) : Prop :=
  ∀ o : Outer F G τ, RangeProof.outer τ params w tag d = .ok o → o.NoZero params

end ConfidentialCoin
