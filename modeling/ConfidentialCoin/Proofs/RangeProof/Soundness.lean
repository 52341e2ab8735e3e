import ConfidentialCoin.Proofs.Commitment.Coordinates
import ConfidentialCoin.Proofs.RangeProof.Honest
import ConfidentialCoin.Proofs.Ristretto.Scalar
import ConfidentialCoin.Proofs.Vectors.Distinct

/-!
# Soundness of the range check

A prover that answers enough challenges has committed to values below `2 ^ 64`. The challenges form
a tree over fixed commitments `V`, `A` and `S`: `64 * m` times `y`, under each `m + 2` times `z`,
then `T1` and `T2`, under them three times `x`, and two times `w` each. Over generators that are
linearly independent the tree is taken apart from its leaves.

* Two `w`: the component of `u` vanishes, so `tHat` is the inner product of `l` and `r`
  (`opened_of_answered`).
* Three `x`: `A` and `S` are commitments to entries `aL`, `aR` and blindings (`exists_entries`), by
  independence `l` and `r` are the vectors of these entries, and the coefficients of `x` cancel the
  constant one up to a multiple of `H` (`constantTerm_mem`).
* `m + 2` times `z`: so do the parts of the constant coefficient, each for itself
  (`partsCancel`).
* `64 * m` times `y`: the products `aL * aR` and the differences `aL - aR - 1` vanish entry by
  entry, which makes `aL` the bits of the values (`RangeProof.commitments_in_range`).

The honest prover answers such a tree over any commitments it can open (`Witness.exists_answers`).
-/

namespace ConfidentialCoin

open Finset ConfidentialCoin.InnerProduct

variable {F G : Type} [Field F] [AddCommGroup G] [Module F G] [LinearCombination F G] [BEq G]

/-- Someone answers the challenges: both checks of the outer proof pass with a claim that is made by
vectors of the right length. -/
def Answered (gens : Generators G) (basis : Basis G) (slots : ℕ) (commitments : List G)
    (a s t1 t2 : G) (y z x w : F) : Prop :=
  ∃ (tHat tauX mu : F) (l r : ScalarVector F) (argument : InnerProductProof F G),
    l.length = gens.capacity ∧ r.length = gens.capacity ∧
      claim gens.g (gens.scaledH y) (w • gens.u) l r = .ok argument.p ∧
      (Replay.ofChallenges () gens basis slots y z x w).checkStatement1
        ⟨commitments, a, s, t1, t2, tauX, tHat, mu, argument⟩ = .ok () ∧
      (Replay.ofChallenges () gens basis slots y z x w).checkCommitment
        ⟨commitments, a, s, t1, t2, tauX, tHat, mu, argument⟩ = .ok ()

/-- The commitments to the values and to the coefficients at the challenges. -/
def valueSide (basis : Basis G) (slots : ℕ) (commitments : List G) (t1 t2 : G) (y z x : F) : G :=
  ∑ j ∈ range commitments.length, z ^ (2 + j) • commitments.getD j 0 +
    deltaAt y z slots • basis.value + x • t1 + (x * x) • t2

/-- The same without the argument: the inner product opens the value side, and the entries shifted
by `z` and the weights open `A + x * S`. -/
def Opened (gens : Generators G) (basis : Basis G) (slots : ℕ) (commitments : List G)
    (a s t1 t2 : G) (y z x : F) : Prop :=
  ∃ (tauX mu : F) (l r : ℕ → F),
    (∑ i ∈ range gens.capacity, l i * r i) • basis.value + tauX • basis.blinding =
        valueSide basis slots commitments t1 t2 y z x ∧
      a + x • s = vectorCommitment gens basis mu (fun i => l i + z)
        fun i => r i * y⁻¹ ^ i - z - weightAt z i * y⁻¹ ^ i

variable [LawfulLinearCombination F G] [LawfulBEq G] {gens : Generators G} {basis : Basis G}
  {slots : ℕ} {commitments : List G} {a s t1 t2 : G} {y z x w : F}

/-! ### The honest prover answers -/

/-- The honest prover answers every challenge, whatever it blinds the bits with. -/
theorem Witness.answered [BasePoint G] [HashTarget G] (w : Witness F) (tag : G)
    (hcap : gens.capacity = proofSize w.size) (hy : y ≠ 0) (alpha rho tau1 tau2 : F)
    (sL sR : ℕ → F) (c : F) :
    Answered gens (Basis.ofTag tag) (slotCount w.size) (w.commitments tag)
      (vectorCommitment gens (Basis.ofTag tag) alpha (bitAt F w.values)
        fun i => bitAt F w.values i - 1)
      (vectorCommitment gens (Basis.ofTag tag) rho sL sR)
      ((Basis.ofTag tag).commit (linearTerm y z (proofSize w.size) (bitAt F w.values)
        (fun i => bitAt F w.values i - 1) sL sR) tau1)
      ((Basis.ofTag tag).commit (quadraticTerm y (proofSize w.size) sL sR) tau2) y z x c := by
  let l := table (proofSize w.size) (leftEntry z (bitAt F w.values) sL x)
  let r := table (proofSize w.size) (rightEntry y z (fun i => bitAt F w.values i - 1) sR x)
  have hl : l.length = gens.capacity := by rw [hcap, length_table]
  have hr : r.length = gens.capacity := by rw [hcap, length_table]
  have hslots := Replay.hasSlots_ofChallenges (τ := Unit) hcap () (Basis.ofTag tag) y z x c
  refine ⟨pairing l r, tau2 * x * x + tau1 * x + ∑ j ∈ range w.size, w.blindings.getD j 0 *
    z ^ (2 + j), alpha + rho * x, l, r, ⟨[], [], 0, 0, claimValue gens.g (gens.scaledH y)
      (c • gens.u) l r⟩, hl, hr, ?_, ?_, ?_⟩
  · exact claim_eq_claimValue hl (hr.trans (gens.length_scaledH y).symm)
  · refine Replay.checkStatement1_eq_ok hslots ?_ ?_
    · rw [w.length_commitments]
      exact le_slotCount w.size
    · rw [Replay.ValueEquation, w.length_commitments]
      exact w.opening_eq tag ..
  · refine Replay.checkCommitment_eq_ok hslots ?_
    exact claimValue_entries hcap hy ..

/-- If there are enough challenges it answers a whole tree of them. -/
theorem Witness.exists_answers [BasePoint G] [HashTarget G] (w : Witness F) (tag : G)
    (hcap : gens.capacity = proofSize w.size) (hmany : proofSize w.size < Nat.card F) :
    ∃ a s, ForDistinct (proofSize w.size) fun y : F => ForDistinct (slotCount w.size + 2) fun z =>
      ∃ t1 t2, ForDistinct 3 fun x => ForDistinct 2 fun c => Answered gens (Basis.ofTag tag)
        (slotCount w.size) (w.commitments tag) a s t1 t2 y z x c := by
  have hslots : 0 < slotCount w.size := w.nonempty.trans_le (le_slotCount w.size)
  have hfew : slotCount w.size + 2 < Nat.card F := by
    have hsize : proofSize w.size = 64 * slotCount w.size := rfl
    omega
  refine ⟨vectorCommitment gens (Basis.ofTag tag) 0 (bitAt F w.values)
    fun i => bitAt F w.values i - 1, vectorCommitment gens (Basis.ofTag tag) (0 : F) (fun _ => 0)
    fun _ => 0, .of_forall hmany fun y hy => .of_forall hfew fun z _ => ?_⟩
  exact ⟨_, _, .of_forall (by omega) fun x _ => .of_forall (by omega) fun c _ =>
    w.answered tag hcap hy 0 0 0 0 _ _ c⟩

/-! ### Two challenges `w` -/

/-- The equations behind an answer. -/
private theorem Answered.equations (hcap : gens.capacity = valueBits * slots)
    (hk : commitments.length ≤ slots)
    (h : Answered gens basis slots commitments a s t1 t2 y z x w) :
    ∃ (tHat tauX mu : F) (l r : ℕ → F),
      tHat • basis.value + tauX • basis.blinding =
          valueSide basis slots commitments t1 t2 y z x ∧
        a + x • s = ((∑ i ∈ range gens.capacity, l i * r i - tHat) * w) • gens.u +
          vectorCommitment gens basis mu (fun i => l i + z)
            fun i => r i * y⁻¹ ^ i - z - weightAt z i * y⁻¹ ^ i := by
  obtain ⟨tHat, tauX, mu, l, r, argument, hl, hr, hclaim, hvalue, hcommitment⟩ := h
  have hslots := Replay.hasSlots_ofChallenges (τ := Unit) hcap () basis y z x w
  rw [Replay.checkStatement1_eq_ok_iff hslots hk] at hvalue
  rw [Replay.checkCommitment_eq_ok_iff hslots] at hcommitment
  have hh : r.length = (gens.scaledH y).length := by rw [hr, Generators.length_scaledH]
  rw [claim_eq_claimValue (by exact hl) hh] at hclaim
  have hp := (Except.ok.inj hclaim).trans hcommitment
  refine ⟨tHat, tauX, mu, fun i => l.getD i 0, fun i => r.getD i 0, hvalue, ?_⟩
  -- Over the unscaled generators the right vector is divided by the powers of `y`.
  have hmade : claimValue gens.g (gens.scaledH y) (w • gens.u) l r =
      ∑ i ∈ range gens.capacity, l.getD i 0 • gens.g.getD i 0 +
        ∑ i ∈ range gens.capacity, (r.getD i 0 * y⁻¹ ^ i) • gens.h.getD i 0 +
        (∑ i ∈ range gens.capacity, l.getD i 0 * r.getD i 0) • w • gens.u := by
    have hlt := table_getD hl 0
    have hrt := table_getD hr 0
    rw [← Generators.pairing_g rfl, ← Generators.pairing_scaledH rfl, hlt, hrt, claimValue]
    congr 2
    rw [← hlt, ← hrt, pairing_table, hlt, hrt]
    rfl
  rw [hmade] at hp
  simp only [Replay.ofChallenges, ← hcap] at hp
  calc a + x • s = (a + x • s + -mu • basis.blinding + tHat • w • gens.u +
        ∑ i ∈ range gens.capacity, -z • gens.g.getD i 0 +
        ∑ i ∈ range gens.capacity, (z + weightAt z i * y⁻¹ ^ i) • gens.h.getD i 0) -
      (-mu • basis.blinding + tHat • w • gens.u +
        ∑ i ∈ range gens.capacity, -z • gens.g.getD i 0 +
        ∑ i ∈ range gens.capacity, (z + weightAt z i * y⁻¹ ^ i) • gens.h.getD i 0) := by abel
    _ = _ := by
      rw [← hp]
      simp only [vectorCommitment, add_smul, sub_smul, neg_smul, sum_add_distrib, sum_sub_distrib,
        sum_neg_distrib]
      module

/-- With two challenges `w` the claim of the argument is split off. -/
theorem opened_of_answered (hcap : gens.capacity = valueBits * slots)
    (hind : gens.Independent F basis) (hk : commitments.length ≤ slots) (hy : y ≠ 0)
    (h : ForDistinct 2 fun w => Answered gens basis slots commitments a s t1 t2 y z x w) :
    Opened gens basis slots commitments a s t1 t2 y z x := by
  obtain ⟨w, w', hne, h, h'⟩ := h.exists_pair
  obtain ⟨tHat, tauX, mu, l, r, hvalue, hopen⟩ := h.equations hcap hk
  obtain ⟨tHat', tauX', mu', l', r', hvalue', hopen'⟩ := h'.equations hcap hk
  have htHat : tHat = tHat' := hind.basis_eq (hvalue.trans hvalue'.symm)
  obtain ⟨hu, hvectors⟩ := hind.vectorCommitment_eq (hopen.symm.trans hopen')
  -- Both answers have the same vectors, so their claims differ by the challenge only.
  have hsum : ∑ i ∈ range gens.capacity, l i * r i = ∑ i ∈ range gens.capacity, l' i * r' i := by
    refine sum_congr rfl fun i hi => ?_
    obtain ⟨hl, hr⟩ := hvectors i (mem_range.mp hi)
    rw [add_right_cancel hl, mul_right_cancel₀ (pow_ne_zero i (inv_ne_zero hy))
      (sub_left_inj.mp (sub_left_inj.mp hr))]
  rw [← hsum, ← htHat] at hu
  have hclaim : ∑ i ∈ range gens.capacity, l i * r i = tHat := by
    by_contra hdiff
    exact hne (mul_left_cancel₀ (sub_ne_zero.mpr hdiff) hu)
  refine ⟨tauX, mu, l, r, ?_, ?_⟩
  · rw [hclaim, hvalue]
  · rw [hopen, hclaim, sub_self, zero_mul, zero_smul, zero_add]

/-! ### Three challenges `x` -/

omit [LinearCombination F G] [BEq G] [LawfulLinearCombination F G] [LawfulBEq G] in
/-- `A` and `S` are commitments to vectors. -/
theorem exists_entries
    (h : ForDistinct 3 fun x => Opened gens basis slots commitments a s t1 t2 y z x) :
    ∃ (alpha rho : F) (aL aR sL sR : ℕ → F), a = vectorCommitment gens basis alpha aL aR ∧
      s = vectorCommitment gens basis rho sL sR := by
  have hmem : ForDistinct 3 fun x : F => ∑ j ∈ range 3, x ^ j • [a, s, 0].getD j 0 ∈
      vectorCommitments F gens basis := by
    refine h.mono ?_
    rintro x - ⟨-, mu, l, r, -, hopen⟩
    refine ⟨mu, _, _, Eq.trans ?_ hopen⟩
    simp [sum_range_succ]
  obtain ⟨alpha, aL, aR, ha⟩ := ForDistinct.coefficient_mem _ hmem (show 0 < 3 by omega)
  obtain ⟨rho, sL, sR, hs⟩ := ForDistinct.coefficient_mem _ hmem (show 1 < 3 by omega)
  exact ⟨alpha, rho, aL, aR, sL, sR, ha, hs⟩

omit [LinearCombination F G] [BEq G] [LawfulLinearCombination F G] [LawfulBEq G] in
/-- The commitments to the values open to the constant coefficient. -/
theorem constantTerm_mem (hind : gens.Independent F basis) (hy : y ≠ 0) {alpha rho : F}
    {aL aR sL sR : ℕ → F} (ha : a = vectorCommitment gens basis alpha aL aR)
    (hs : s = vectorCommitment gens basis rho sL sR)
    (h : ForDistinct 3 fun x => Opened gens basis slots commitments a s t1 t2 y z x) :
    ∑ j ∈ range commitments.length, z ^ (2 + j) • commitments.getD j 0 +
        (deltaAt y z slots - constantTerm y z gens.capacity aL aR) • basis.value ∈
      Submodule.span F {basis.blinding} := by
  refine ForDistinct.coefficient_mem _ (n := 3) (j := 0) (a := fun j => [
    ∑ j ∈ range commitments.length, z ^ (2 + j) • commitments.getD j 0 +
        (deltaAt y z slots - constantTerm y z gens.capacity aL aR) • basis.value,
    t1 - linearTerm y z gens.capacity aL aR sL sR • basis.value,
    t2 - quadraticTerm y gens.capacity sL sR • basis.value].getD j 0) (h.mono ?_) (by omega)
  rintro x - ⟨tauX, mu, l, r, hvalue, hopen⟩
  -- By independence the vectors are those of the entries.
  have hentries : vectorCommitment gens basis (alpha + x * rho) (fun i => aL i + x * sL i)
      (fun i => aR i + x * sR i) = vectorCommitment gens basis mu (fun i => l i + z)
        fun i => r i * y⁻¹ ^ i - z - weightAt z i * y⁻¹ ^ i := by
    rw [← vectorCommitment_add, ← smul_vectorCommitment, ← ha, ← hs, hopen]
  obtain ⟨-, hvectors⟩ := hind.vectorCommitment_eq (congrArg ((0 : F) • gens.u + ·) hentries)
  have hproduct : ∑ i ∈ range gens.capacity, l i * r i =
      ∑ i ∈ range gens.capacity, leftEntry z aL sL x i * rightEntry y z aR sR x i := by
    refine sum_congr rfl fun i hi => ?_
    obtain ⟨hl, hr⟩ := hvectors i (mem_range.mp hi)
    have hyi : y ^ i * y⁻¹ ^ i = 1 := by rw [← mul_pow, mul_inv_cancel₀ hy, one_pow]
    have hleft : l i = leftEntry z aL sL x i := by
      rw [leftEntry]
      linear_combination -hl
    have hright : r i = rightEntry y z aR sR x i := by
      rw [rightEntry, rightConstant]
      linear_combination -(y ^ i) * hr + (weightAt z i - r i) * hyi
    rw [hleft, hright]
  rw [hproduct, sum_left_mul_right] at hvalue
  have hsolve : ∑ j ∈ range 3, x ^ j • [
      ∑ j ∈ range commitments.length, z ^ (2 + j) • commitments.getD j 0 +
          (deltaAt y z slots - constantTerm y z gens.capacity aL aR) • basis.value,
      t1 - linearTerm y z gens.capacity aL aR sL sR • basis.value,
      t2 - quadraticTerm y gens.capacity sL sR • basis.value].getD j 0 =
        tauX • basis.blinding := by
    rw [eq_sub_of_add_eq' hvalue, valueSide, sum_range_succ, sum_range_succ, sum_range_one]
    simp only [List.getD_cons_zero, List.getD_cons_succ]
    module
  rw [hsolve]
  exact Submodule.smul_mem _ _ (Submodule.mem_span_singleton_self _)

/-! ### All challenges `z` -/

/-- The coefficients that cancel for every `z`. -/
private def slotCoefficient (basis : Basis G) (commitments : List G) (y : F) (n : ℕ)
    (aL aR : ℕ → F) : ℕ → G
  | 0 => -(∑ i ∈ range n, y ^ i * (aL i * aR i)) • basis.value
  | 1 => -(∑ i ∈ range n, y ^ i * (aL i - aR i - 1)) • basis.value
  | j + 2 => commitments.getD j 0 - slotValue aL j • basis.value

omit [LinearCombination F G] [BEq G] [LawfulLinearCombination F G] [LawfulBEq G] in
/-- The value equation, sorted by the powers of `z`. -/
private theorem sum_slotCoefficient (hk : commitments.length ≤ slots) (y z : F) (aL aR : ℕ → F) :
    ∑ j ∈ range (slots + 2), z ^ j •
        slotCoefficient basis commitments y (valueBits * slots) aL aR j =
      ∑ j ∈ range commitments.length, z ^ (2 + j) • commitments.getD j 0 +
        (deltaAt y z slots - constantTerm y z (valueBits * slots) aL aR) • basis.value := by
  -- A slot without a coin has no commitment.
  have hpad : ∑ j ∈ range commitments.length, z ^ (2 + j) • commitments.getD j 0 =
      ∑ j ∈ range slots, z ^ (2 + j) • commitments.getD j 0 := by
    refine sum_subset (range_mono hk) fun j _ hj => ?_
    rw [List.getD_eq_default _ _ (by simpa using hj), smul_zero]
  have hslots : ∑ j ∈ range slots, z ^ (j + 1 + 1) •
      slotCoefficient basis commitments y (valueBits * slots) aL aR (j + 1 + 1) =
        ∑ j ∈ range slots, z ^ (2 + j) • commitments.getD j 0 -
          (∑ j ∈ range slots, z ^ (2 + j) * slotValue aL j) • basis.value := by
    rw [sum_smul, ← sum_sub_distrib]
    refine sum_congr rfl fun j _ => ?_
    rw [slotCoefficient, smul_sub, smul_smul, add_comm 2 j]
  rw [sum_range_succ', sum_range_succ', hslots, hpad, constantTerm_eq, slotCoefficient,
    slotCoefficient]
  module

/-- The parts of the constant coefficient cancel each for itself, up to the blinding generator. -/
structure PartsCancel (gens : Generators G) (basis : Basis G) (slots : ℕ) (commitments : List G)
    (aL aR : ℕ → F) (y : F) : Prop where
  products : (∑ i ∈ range gens.capacity, y ^ i * (aL i * aR i)) • basis.value ∈
    Submodule.span F {basis.blinding}
  differences : (∑ i ∈ range gens.capacity, y ^ i * (aL i - aR i - 1)) • basis.value ∈
    Submodule.span F {basis.blinding}
  /-- The commitment to each value, and the entries of its slot. -/
  values (j : ℕ) (hj : j < slots) : commitments.getD j 0 - slotValue aL j • basis.value ∈
    Submodule.span F {basis.blinding}

omit [LinearCombination F G] [BEq G] [LawfulLinearCombination F G] [LawfulBEq G] in
theorem partsCancel (hcap : gens.capacity = valueBits * slots) (hk : commitments.length ≤ slots)
    {aL aR : ℕ → F}
    (h : ForDistinct (slots + 2) fun z : F =>
      ∑ j ∈ range commitments.length, z ^ (2 + j) • commitments.getD j 0 +
          (deltaAt y z slots - constantTerm y z gens.capacity aL aR) • basis.value ∈
        Submodule.span F {basis.blinding}) :
    PartsCancel gens basis slots commitments aL aR y := by
  rw [hcap] at h
  have hmem {j : ℕ} (hj : j < slots + 2) :
      slotCoefficient basis commitments y (valueBits * slots) aL aR j ∈
        Submodule.span F {basis.blinding} := by
    refine ForDistinct.coefficient_mem _ (h.mono ?_) hj
    intro z _ hz
    rw [sum_slotCoefficient hk]
    exact hz
  have hproducts := hmem (show 0 < slots + 2 by omega)
  have hdifferences := hmem (show 1 < slots + 2 by omega)
  simp only [slotCoefficient, neg_smul, neg_mem_iff, ← hcap] at hproducts hdifferences
  exact ⟨hproducts, hdifferences, fun j hj => hmem (Nat.add_lt_add_right hj 2)⟩

/-! ### All challenges `y` -/

omit [LinearCombination F G] [BEq G] [LawfulLinearCombination F G] [LawfulBEq G] in
/-- No multiple of the value generator is one of the blinding generator. -/
private theorem eq_zero_of_smul_mem (hind : gens.Independent F basis) {c : F}
    (h : c • basis.value ∈ Submodule.span F {basis.blinding}) : c = 0 := by
  obtain ⟨e, he⟩ := Submodule.mem_span_singleton.mp h
  have heq : c • basis.value + (0 : F) • basis.blinding =
      (0 : F) • basis.value + e • basis.blinding := by
    rw [zero_smul, zero_smul, add_zero, zero_add, he]
  exact hind.basis_eq heq

omit [LinearCombination F G] [BEq G] [LawfulLinearCombination F G] [LawfulBEq G] in
/-- A polynomial that takes multiples of the blinding generator at enough places has no coefficient
over the value generator. -/
private theorem eq_zero_of_forDistinct (hind : gens.Independent F basis) {n : ℕ} {c : ℕ → F}
    (h : ForDistinct n fun y : F => (∑ i ∈ range n, y ^ i * c i) • basis.value ∈
      Submodule.span F {basis.blinding}) : ∀ i < n, c i = 0 := by
  intro i hi
  refine ForDistinct.coefficient_eq_zero (h.mono ?_) hi
  intro y _ hy
  exact eq_zero_of_smul_mem hind hy

/-- **Soundness.** Whoever answers a tree of challenges has committed to 64-bit values. -/
theorem RangeProof.commitments_in_range (hcap : gens.capacity = valueBits * slots)
    (hind : gens.Independent F basis) (hk : commitments.length ≤ slots)
    (h : ForDistinct (valueBits * slots) fun y : F => ForDistinct (slots + 2) fun z => ∃ t1 t2,
      ForDistinct 3 fun x => ForDistinct 2 fun w =>
        Answered gens basis slots commitments a s t1 t2 y z x w) :
    ∀ j < commitments.length, ∃ (v : UInt64) (r : F),
      commitments.getD j 0 = basis.commitValue v r := by
  intro j hj
  have hopened : ForDistinct (valueBits * slots) fun y : F => ForDistinct (slots + 2) fun z =>
      ∃ t1 t2, ForDistinct 3 fun x => Opened gens basis slots commitments a s t1 t2 y z x := by
    refine h.mono fun y hy hz => hz.mono ?_
    rintro z - ⟨t1, t2, hx⟩
    refine ⟨t1, t2, hx.mono ?_⟩
    intro x _ hw
    exact opened_of_answered hcap hind hk hy hw
  -- One pair of challenges is enough to find the entries.
  obtain ⟨alpha, rho, aL, aR, sL, sR, ha, hs⟩ : ∃ (alpha rho : F) (aL aR sL sR : ℕ → F),
      a = vectorCommitment gens basis alpha aL aR ∧ s = vectorCommitment gens basis rho sL sR := by
    have hpos : 0 < valueBits * slots := Nat.mul_pos valueBits_pos (by omega)
    obtain ⟨y, -, hz⟩ := hopened.exists_of_pos hpos
    obtain ⟨z, -, t1, t2, hx⟩ := hz.exists_of_pos (by omega)
    exact exists_entries hx
  have hparts : ForDistinct (valueBits * slots)
      (PartsCancel gens basis slots commitments aL aR) := by
    refine hopened.mono fun y hy hz => partsCancel hcap hk (hz.mono ?_)
    rintro z - ⟨t1, t2, hx⟩
    exact constantTerm_mem hind hy ha hs hx
  rw [← hcap] at hparts
  have hproducts := eq_zero_of_forDistinct hind (hparts.mono fun y _ hy => hy.products)
  have hdifferences := eq_zero_of_forDistinct hind (hparts.mono fun y _ hy => hy.differences)
  rw [hcap] at hparts hproducts hdifferences
  have hbits : ∀ b < valueBits, aL (valueBits * j + b) * (aL (valueBits * j + b) - 1) = 0 := by
    intro b hb
    have hi : valueBits * j + b < valueBits * slots := by
      have hle := Nat.mul_le_mul_left valueBits (show j + 1 ≤ slots by omega)
      rw [Nat.mul_succ] at hle
      omega
    have hpred : aR (valueBits * j + b) = aL (valueBits * j + b) - 1 := by
      linear_combination -hdifferences _ hi
    rw [← hpred, hproducts _ hi]
  obtain ⟨v, hv⟩ := exists_value_of_bits hbits
  obtain ⟨y, -, hy⟩ := hparts.exists_of_pos (Nat.mul_pos valueBits_pos (by omega))
  obtain ⟨r, hr⟩ := Submodule.mem_span_singleton.mp (hy.values j (by omega))
  refine ⟨v, r, ?_⟩
  rw [Basis.commitValue, Basis.commit_eq, ← hv]
  exact (sub_eq_iff_eq_add'.mp hr.symm)

open Ristretto in
/-- One coin of value 5, proved by the honest prover over unit vectors. -/
theorem RangeProof.commitments_in_range_units :
    ∃ (commitments : List (Coordinates Scalar valueBits)) (a s : Coordinates Scalar valueBits),
      commitments = [(Basis.standard _).commitValue 5 (7 : Scalar)] ∧
      (unitGenerators Scalar valueBits).capacity = valueBits * 1 ∧
      (unitGenerators Scalar valueBits).Independent Scalar (Basis.standard _) ∧
      commitments.length ≤ 1 ∧
      (ForDistinct (valueBits * 1) fun y : Scalar => ForDistinct (1 + 2) fun z => ∃ t1 t2,
        ForDistinct 3 fun x => ForDistinct 2 fun c => Answered (unitGenerators Scalar valueBits)
          (Basis.standard _) 1 commitments a s t1 t2 y z x c) ∧
      ∀ j < commitments.length, ∃ (v : UInt64) (r : Scalar),
        commitments.getD j 0 = (Basis.standard _).commitValue v r := by
  let w : Witness Scalar := ⟨[⟨5, 7⟩], by decide, by decide⟩
  have hcap : (unitGenerators Scalar valueBits).capacity = proofSize w.size :=
    capacity_unitGenerators
  have hmany : proofSize w.size < Nat.card Scalar := by
    rw [Scalar.card_eq]
    decide
  obtain ⟨a, s, hanswers⟩ := w.exists_answers basePoint hcap hmany
  exact ⟨w.commitments basePoint, a, s, rfl, hcap, independent_unitGenerators, le_rfl, hanswers,
    RangeProof.commitments_in_range hcap independent_unitGenerators le_rfl hanswers⟩

end ConfidentialCoin
