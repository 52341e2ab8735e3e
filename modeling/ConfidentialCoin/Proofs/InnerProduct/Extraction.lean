import ConfidentialCoin.Proofs.Commitment.Coordinates
import ConfidentialCoin.Proofs.InnerProduct.Opening
import ConfidentialCoin.Proofs.Ristretto.Scalar
import ConfidentialCoin.Proofs.Vectors.Distinct
import Mathlib.Tactic.FieldSimp
import Mathlib.Tactic.LinearCombination

/-!
# Extraction from one round

A prover that opens the folded claim of a round for four challenges with distinct squares knows an
opening of the claim before the round, and what it opened is that one folded
(`InnerProduct.exists_opening_of_folded`). The generators have no relation between them
(`NoRelation`), so combinations of them are compared by their coefficients.

* A claim over folded generators is a combination of the generators themselves, its vectors being
  spread over both halves (`pairing_fold_eq_spread`).
* Three of the folded claims give `L`, the claim and `R` as combinations (`mem_of_round`).
* An entry of an opened vector enters two coefficients, one in each half. Comparing them gives a
  polynomial of degree three in the square of the challenge, which has four zeros
  (`eq_fold_of_halves`). The coefficient of `u` is compared in the same way.
-/

namespace ConfidentialCoin.InnerProduct

open Finset

variable {F G : Type} [Field F]

/-! ### Four challenges -/

section Challenges

variable {M : Type} [AddCommGroup M] [Module F M] {x : Fin 4 → F} (hx : ∀ i, x i ≠ 0)
  (hsq : Function.Injective fun i => x i ^ 2)
include hx hsq

/-- A polynomial of degree three in the square that vanishes at all of them is zero. -/
theorem coefficients_eq_zero {a₀ a₁ a₂ a₃ : M}
    (h : ∀ i, a₀ + (x i ^ 2) • a₁ + (x i ^ 2) ^ 2 • a₂ + (x i ^ 2) ^ 3 • a₃ = 0) :
    a₀ = 0 ∧ a₁ = 0 ∧ a₂ = 0 ∧ a₃ = 0 := by
  have hzero : ForDistinct 4 fun c : F => ∑ j ∈ range 4, c ^ j • [a₀, a₁, a₂, a₃].getD j 0 = 0 := by
    refine ⟨fun i => x i ^ 2, hsq, fun i => ⟨pow_ne_zero 2 (hx i), Eq.trans ?_ (h i)⟩⟩
    simp [sum_range_succ]
  exact ⟨hzero.coefficient_eq_zero (j := 0) (by omega),
    hzero.coefficient_eq_zero (j := 1) (by omega), hzero.coefficient_eq_zero (j := 2) (by omega),
    hzero.coefficient_eq_zero (j := 3) (by omega)⟩

/-- What the claim of a round lies in, for all of them, the claim before it and the elements `L` and
`R` lie in. -/
theorem mem_of_round {K : Submodule F M} {l p r : M}
    (h : ∀ i, (x i ^ 2) • l + p + ((x i)⁻¹ ^ 2) • r ∈ K) : l ∈ K ∧ p ∈ K ∧ r ∈ K := by
  have hmem : ForDistinct 4 fun c : F => ∑ j ∈ range 4, c ^ j • [r, p, l, 0].getD j 0 ∈ K := by
    refine ⟨fun i => x i ^ 2, hsq, fun i => ⟨pow_ne_zero 2 (hx i), ?_⟩⟩
    have hxx : x i ^ 2 * (x i)⁻¹ ^ 2 = 1 := by rw [← mul_pow, mul_inv_cancel₀ (hx i), one_pow]
    convert K.smul_mem (x i ^ 2) (h i) using 1
    simp only [sum_range_succ, sum_range_zero, List.getD_cons_zero, List.getD_cons_succ, smul_add,
      smul_smul, hxx]
    module
  exact ⟨hmem.coefficient_mem K (j := 2) (by omega), hmem.coefficient_mem K (j := 1) (by omega),
    hmem.coefficient_mem K (j := 0) (by omega)⟩

/-- An entry whose two multiples are the coefficients of a round in the two halves is the fold of
the coefficients before the round. -/
theorem eq_fold_of_halves {e : Fin 4 → F} {l p r l' p' r' : F}
    (hlower : ∀ i, (x i)⁻¹ * e i = x i ^ 2 * l + p + (x i)⁻¹ ^ 2 * r)
    (hupper : ∀ i, x i * e i = x i ^ 2 * l' + p' + (x i)⁻¹ ^ 2 * r') (i : Fin 4) :
    e i = x i * p + (x i)⁻¹ * p' := by
  have hzero : ∀ i,
      -r' + x i ^ 2 • (r - p') + (x i ^ 2) ^ 2 • (p - l') + (x i ^ 2) ^ 3 • l = 0 := by
    intro i
    have hxi := hx i
    have hlo := hlower i
    have hup := hupper i
    field_simp at hlo hup
    simp only [smul_eq_mul]
    linear_combination hup - x i ^ 2 * hlo
  obtain ⟨-, hrp, -, hl⟩ := coefficients_eq_zero hx hsq hzero
  have hlo := hlower i
  rw [hl, mul_zero, zero_add, sub_eq_zero.mp hrp] at hlo
  have hxi := hx i
  field_simp at hlo ⊢
  linear_combination hlo

end Challenges

/-! ### Combinations of the generators -/

variable [AddCommGroup G] [Module F G]

/-- The vector over whole generators that a vector over folded ones stands for. -/
def spread (x : F) (v : List F) : List F := v.map (x * ·) ++ v.map (x⁻¹ * ·)

theorem length_spread (x : F) (v : List F) : (spread x v).length = 2 * v.length := by
  rw [spread, List.length_append, List.length_map, List.length_map, two_mul]

/-- Pairing with folded generators is pairing the spread scalars with the generators. -/
theorem pairing_fold_eq_spread (x : F) {v : List F} {g : List G} (h : g.length = 2 * v.length) :
    pairing v (fold x g) = pairing (spread x v) g := by
  have hlow : (v.map (x * ·)).length = (lower g).length := by
    rw [List.length_map, length_lower h]
  rw [pairing_fold_right x v h, spread, pairing_append_halves hlow, pairing_map_mul,
    pairing_map_mul]

/-- In the lower half a spread entry is multiplied by the challenge. -/
theorem getD_spread_lower (x : F) (v : List F) {k : ℕ} (h : k < v.length) :
    (spread x v).getD k 0 = x * v.getD k 0 := by
  rw [spread, List.getD_append _ _ _ _ (by rwa [List.length_map]), getD_map_mul]

theorem getD_spread_upper (x : F) (v : List F) (k : ℕ) :
    (spread x v).getD (v.length + k) 0 = x⁻¹ * v.getD k 0 := by
  rw [spread, List.getD_append_right _ _ _ _ (by simp), getD_map_mul, List.length_map,
    Nat.add_sub_cancel_left]

/-- The fold of a table is the table of the folded entries. -/
theorem fold_table (x : F) (m : ℕ) (f : ℕ → F) :
    fold x (table (2 * m) f) = table m fun k => x * f k + x⁻¹ * f (m + k) := by
  have hhalf : (table (2 * m) f).length / 2 = m := by
    rw [length_table, Nat.mul_div_cancel_left m two_pos]
  rw [fold, lower, upper, hhalf, two_mul, table_add,
    List.take_left' (length_table m f), List.drop_left' (length_table m f), zipWith_table]
  rfl

/-- No nontrivial combination of the generators is zero. -/
def NoRelation (F : Type) {G : Type} [Field F] [AddCommGroup G] [Module F G] (g h : List G)
    (u : G) : Prop :=
  LinearIndependent F (Sum.elim (fun _ : Unit => u) (Sum.elim g.get h.get))

/-- The basis in which `u` blinds, so that a claim is a commitment to its two vectors. -/
def argumentBasis (gens : Generators G) : Basis G := ⟨0, gens.u⟩

variable {gens : Generators G}

theorem pairings_table {n : ℕ} (h : gens.capacity = n) (c : F) (left right : ℕ → F) :
    pairing (table n left) gens.g + pairing (table n right) gens.h + c • gens.u =
      vectorCommitment gens (argumentBasis gens) c left right := by
  rw [Generators.pairing_g h, Generators.pairing_h h, vectorCommitment, argumentBasis, h]
  abel

/-- The claim of an argument is a vector commitment with `u` in place of the basis. -/
theorem pairings_eq_vectorCommitment {a b : List F} (ha : a.length = gens.capacity)
    (hb : b.length = gens.capacity) (c : F) :
    pairing a gens.g + pairing b gens.h + c • gens.u =
      vectorCommitment gens (argumentBasis gens) c (fun i => a.getD i 0) fun i => b.getD i 0 := by
  rw [← pairings_table rfl, table_getD ha, table_getD hb]

private theorem sum_get (f : ℕ → F) (v : List G) :
    ∑ i : Fin v.length, f i • v.get i = ∑ i ∈ range v.length, f i • v.getD i 0 := by
  rw [sum_range]
  exact sum_congr rfl fun i _ => by rw [List.getD_eq_getElem _ _ i.isLt, List.get_eq_getElem]

/-- Generators without a relation have one opening of each commitment. -/
theorem NoRelation.coefficients_eq (hind : NoRelation F gens.g gens.h gens.u) {c c' : F}
    {left right left' right' : ℕ → F}
    (heq : vectorCommitment gens (argumentBasis gens) c left right =
      vectorCommitment gens (argumentBasis gens) c' left' right') :
    c = c' ∧ ∀ i < gens.capacity, left i = left' i ∧ right i = right' i := by
  have hsum : ∑ i, Sum.elim (fun _ : Unit => c - c') (Sum.elim
      (fun i : Fin gens.g.length => left i - left' i)
      fun i : Fin gens.h.length => right i - right' i) i •
        Sum.elim (fun _ : Unit => gens.u) (Sum.elim gens.g.get gens.h.get) i = 0 := by
    have hdiff := sub_eq_zero.mpr heq
    simp only [Fintype.sum_sum_type, univ_unique, sum_singleton, Sum.elim_inl, Sum.elim_inr]
    rw [sum_get fun i => left i - left' i, sum_get fun i => right i - right' i, gens.length_h]
    refine Eq.trans ?_ hdiff
    simp only [vectorCommitment, argumentBasis, Generators.capacity, sub_smul, sum_sub_distrib]
    abel
  have hzero := Fintype.linearIndependent_iff.mp hind _ hsum
  refine ⟨sub_eq_zero.mp (hzero (.inl ())), fun i hi => ⟨?_, ?_⟩⟩
  · exact sub_eq_zero.mp (hzero (.inr (.inl ⟨i, hi⟩)))
  · exact sub_eq_zero.mp (hzero (.inr (.inr ⟨i, hi.trans_eq gens.length_h.symm⟩)))

/-- The generators of a proof have no relation if they are independent of each other and of a
basis. -/
theorem noRelation_of_independent {basis : Basis G} (hind : gens.Independent F basis) :
    NoRelation F gens.g gens.h gens.u := by
  let place : Unit ⊕ (Fin gens.g.length ⊕ Fin gens.h.length) →
      Fin 3 ⊕ (Fin gens.capacity ⊕ Fin gens.capacity) :=
    Sum.map (fun _ => 2) (Sum.map id (Fin.cast gens.length_h))
  have hplace : Function.Injective place :=
    .sumMap (fun _ _ _ => rfl) (.sumMap Function.injective_id (Fin.cast_injective _))
  rw [NoRelation]
  convert hind.comp place hplace using 1
  funext i
  rcases i with i | i | i
  · rfl
  · exact (List.getD_eq_getElem _ _ i.isLt).symm
  · exact (List.getD_eq_getElem _ _ i.isLt).symm

/-- A claim has one opening. -/
theorem NoRelation.claimValue_inj (hind : NoRelation F gens.g gens.h gens.u) {a b c d : List F}
    (ha : a.length = gens.capacity) (hb : b.length = gens.capacity) (hc : c.length = gens.capacity)
    (hd : d.length = gens.capacity)
    (heq : claimValue gens.g gens.h gens.u a b = claimValue gens.g gens.h gens.u c d) :
    a = c ∧ b = d := by
  rw [claimValue, claimValue, pairings_eq_vectorCommitment ha hb,
    pairings_eq_vectorCommitment hc hd] at heq
  obtain ⟨-, hentries⟩ := hind.coefficients_eq heq
  constructor
  · rw [← table_getD ha 0, ← table_getD hc 0]
    exact table_congr fun i hi => (hentries i hi).1
  · rw [← table_getD hb 0, ← table_getD hd 0]
    exact table_congr fun i hi => (hentries i hi).2

/-! ### The opening before the round -/

/-- The claim after a round, as a combination of the generators before it. -/
theorem claimValue_fold_eq (x : F) {a b : List F} (ha : gens.capacity = 2 * a.length)
    (hb : gens.capacity = 2 * b.length) :
    claimValue (fold x⁻¹ gens.g) (fold x gens.h) gens.u a b =
      vectorCommitment gens (argumentBasis gens) (pairing a b) (fun i => (spread x⁻¹ a).getD i 0)
        fun i => (spread x b).getD i 0 := by
  rw [claimValue, pairing_fold_eq_spread x⁻¹ ha, pairing_fold_eq_spread x (gens.length_h.trans hb),
    pairings_eq_vectorCommitment ((length_spread ..).trans ha.symm)
      ((length_spread ..).trans hb.symm)]

section Round

variable {m : ℕ} {x : Fin 4 → F} (hx : ∀ i, x i ≠ 0) (hsq : Function.Injective fun i => x i ^ 2)
include hx hsq

omit [AddCommGroup G] [Module F G] in
/-- Vectors whose entries, spread over both halves, are the coefficients of a round are the fold of
the coefficients before it. -/
theorem eq_fold_of_spread {v : Fin 4 → List F} {l p r : ℕ → F} (hv : ∀ i, (v i).length = m)
    (h : ∀ i, ∀ k < 2 * m,
      (spread (x i)⁻¹ (v i)).getD k 0 = x i ^ 2 * l k + p k + (x i)⁻¹ ^ 2 * r k) (i : Fin 4) :
    v i = fold (x i) (table (2 * m) p) := by
  rw [fold_table, ← table_getD (hv i) 0]
  refine table_congr fun k hk => ?_
  have hlower : ∀ i, (x i)⁻¹ * (v i).getD k 0 = x i ^ 2 * l k + p k + (x i)⁻¹ ^ 2 * r k := by
    intro i
    rw [← getD_spread_lower _ _ ((hv i).symm ▸ hk), h i k (by omega)]
  have hupper : ∀ i, x i * (v i).getD k 0 =
      x i ^ 2 * l (m + k) + p (m + k) + (x i)⁻¹ ^ 2 * r (m + k) := by
    intro i
    have hspread := getD_spread_upper (x i)⁻¹ (v i) k
    rw [inv_inv, hv i] at hspread
    rw [← hspread, h i (m + k) (by omega)]
  exact eq_fold_of_halves hx hsq hlower hupper i

omit [AddCommGroup G] [Module F G] in
/-- If the inner products of folded vectors are the coefficients of a round, the coefficient before
it is their inner product before they were folded. -/
theorem eq_pairing_of_fold {a b : List F} (ha : a.length = 2 * m) (hb : b.length = 2 * m)
    {l p r : F} (h : ∀ i, pairing (fold (x i) a) (fold (x i)⁻¹ b) =
      x i ^ 2 * l + p + (x i)⁻¹ ^ 2 * r) : p = pairing a b := by
  have hzero : ∀ i, x i ^ 2 • (l - pairing (lower a) (upper b)) + (p - pairing a b) +
      (x i)⁻¹ ^ 2 • (r - pairing (upper a) (lower b)) ∈ (⊥ : Submodule F F) := by
    intro i
    have hi := h i
    rw [pairing_fold_fold (hx i) ha hb] at hi
    rw [Submodule.mem_bot]
    simp only [smul_eq_mul] at hi ⊢
    linear_combination -hi
  obtain ⟨-, hp, -⟩ := mem_of_round hx hsq hzero
  exact sub_eq_zero.mp ((Submodule.mem_bot F).mp hp)

/-- The claims after the rounds make the claim before them a combination of the generators, and
their vectors, spread over both halves, have the coefficients of `L`, the claim and `R`. -/
theorem exists_coefficients (hcap : gens.capacity = 2 * m)
    (hind : NoRelation F gens.g gens.h gens.u) {p l r : G} {a' b' : Fin 4 → List F}
    (ha' : ∀ i, (a' i).length = m) (hb' : ∀ i, (b' i).length = m)
    (hclaim : ∀ i, claimValue (fold (x i)⁻¹ gens.g) (fold (x i) gens.h) gens.u (a' i) (b' i) =
      x i ^ 2 • l + p + (x i)⁻¹ ^ 2 • r) :
    ∃ (cl cp cr : F) (al ap ar bl bp br : ℕ → F),
      p = vectorCommitment gens (argumentBasis gens) cp ap bp ∧
      ∀ i, pairing (a' i) (b' i) = x i ^ 2 * cl + cp + (x i)⁻¹ ^ 2 * cr ∧ ∀ k < 2 * m,
        (spread (x i)⁻¹ (a' i)).getD k 0 = x i ^ 2 * al k + ap k + (x i)⁻¹ ^ 2 * ar k ∧
        (spread (x i) (b' i)).getD k 0 = x i ^ 2 * bl k + bp k + (x i)⁻¹ ^ 2 * br k := by
  have hround : ∀ i, x i ^ 2 • l + p + (x i)⁻¹ ^ 2 • r =
      vectorCommitment gens (argumentBasis gens) (pairing (a' i) (b' i))
        (fun k => (spread (x i)⁻¹ (a' i)).getD k 0) fun k => (spread (x i) (b' i)).getD k 0 := by
    intro i
    rw [← hclaim, claimValue_fold_eq (x i) (by rw [hcap, ha' i]) (by rw [hcap, hb' i])]
  obtain ⟨⟨cl, al, bl, rfl⟩, ⟨cp, ap, bp, rfl⟩, ⟨cr, ar, br, rfl⟩⟩ :=
    mem_of_round hx hsq (K := vectorCommitments F gens (argumentBasis gens)) fun i =>
      ⟨_, _, _, hround i⟩
  refine ⟨cl, cp, cr, al, ap, ar, bl, bp, br, rfl, fun i => ?_⟩
  have h := hround i
  rw [smul_vectorCommitment, smul_vectorCommitment, vectorCommitment_add,
    vectorCommitment_add] at h
  obtain ⟨hc, hentries⟩ := hind.coefficients_eq h
  rw [hcap] at hentries
  exact ⟨hc.symm, fun k hk => ⟨(hentries k hk).1.symm, (hentries k hk).2.symm⟩⟩

end Round

variable [LinearCombination F G] [LawfulLinearCombination F G]

/-- **Extraction.** Over generators without a relation, whoever opens the folded claim of a round
for four challenges that are not zero and have distinct squares has one opening of the claim before
the round, and opened it folded. -/
theorem exists_opening_of_folded {n : ℕ} {g h : List G} {u p l r : G} (hn : Even n)
    (hg : g.length = n) (hh : h.length = n) (hind : NoRelation F g h u) {x : Fin 4 → F}
    (hx : ∀ i, x i ≠ 0) (hsq : Function.Injective fun i => x i ^ 2) {a' b' : Fin 4 → List F}
    (ha' : ∀ i, (a' i).length = n / 2) (hb' : ∀ i, (b' i).length = n / 2)
    (hopen : ∀ i, let (g', h', p') := foldClaim [(x i, l, r)] g h p
      claim g' h' u (a' i) (b' i) = .ok p') :
    ∃ a b : List F, (a.length = n ∧ b.length = n ∧ claim g h u a b = .ok p) ∧
      (∀ i, a' i = foldScalars (x i) (x i)⁻¹ a ∧ b' i = foldScalars (x i)⁻¹ (x i) b) ∧
      ∀ c d : List F, c.length = n → d.length = n → claim g h u c d = .ok p → c = a ∧ d = b := by
  obtain ⟨m, rfl⟩ := even_iff_exists_two_mul.mp hn
  rw [Nat.mul_div_cancel_left m two_pos] at ha' hb'
  let gens : Generators G := ⟨g, h, u, hh.trans hg.symm⟩
  have hcap : gens.capacity = 2 * m := hg
  have hrelation : NoRelation F gens.g gens.h gens.u := hind
  have hclaim : ∀ i, claimValue (fold (x i)⁻¹ g) (fold (x i) h) u (a' i) (b' i) =
      x i ^ 2 • l + p + (x i)⁻¹ ^ 2 • r := by
    intro i
    have ho := hopen i
    simp only [foldClaim, foldPoints_eq_fold, foldPoints_inv_eq_fold, combine_triple] at ho
    rw [claim_eq_claimValue ((ha' i).trans (length_fold _ hg).symm)
      ((hb' i).trans (length_fold _ hh).symm)] at ho
    rw [Except.ok.inj ho, one_smul, pow_two, pow_two]
  obtain ⟨cl, cp, cr, al, ap, ar, bl, bp, br, hp, hcoefficients⟩ :=
    exists_coefficients hx hsq hcap hrelation ha' hb' hclaim
  have hafold := eq_fold_of_spread hx hsq ha' fun i k hk => ((hcoefficients i).2 k hk).1
  -- The right vectors fold the other way round, with `L` and `R` in each other's place.
  have hinv : Function.Injective fun i => (x i)⁻¹ ^ 2 := by
    intro i j hij
    simp only [inv_pow, inv_inj] at hij
    exact hsq hij
  have hbfold : ∀ i, b' i = fold (x i)⁻¹ (table (2 * m) bp) := by
    refine eq_fold_of_spread (l := br) (r := bl) (fun i => inv_ne_zero (hx i)) hinv hb'
      fun i k hk => ?_
    rw [inv_inv, ((hcoefficients i).2 k hk).2]
    ring
  have hlength : ∀ f : ℕ → F, (table (2 * m) f).length = 2 * m := length_table (2 * m)
  have hcp : cp = pairing (table (2 * m) ap) (table (2 * m) bp) :=
    eq_pairing_of_fold hx hsq (hlength ap) (hlength bp) fun i => by
      rw [← hafold i, ← hbfold i, (hcoefficients i).1]
  have hvalue : claimValue g h u (table (2 * m) ap) (table (2 * m) bp) = p := by
    rw [hp, ← pairings_table hcap, claimValue, hcp]
  have hopens : ∀ {c d : List F}, c.length = 2 * m → d.length = 2 * m →
      claim g h u c d = .ok (claimValue g h u c d) := fun hc hd =>
    claim_eq_claimValue (hc.trans hg.symm) (hd.trans hh.symm)
  refine ⟨table (2 * m) ap, table (2 * m) bp, ⟨hlength ap, hlength bp, ?_⟩, fun i => ⟨?_, ?_⟩,
    fun c d hc hd hcd => ?_⟩
  · rw [hopens (hlength ap) (hlength bp), hvalue]
  · rw [foldScalars_eq_fold, hafold i]
  · rw [foldScalars_inv_eq_fold, hbfold i]
  · rw [hopens hc hd, ← hvalue] at hcd
    exact hrelation.claimValue_inj (hc.trans hg.symm) (hd.trans hg.symm)
      ((hlength ap).trans hg.symm) ((hlength bp).trans hg.symm) (Except.ok.inj hcd)

/-- A prover who knows an opening opens the folded claim of an honest round. -/
theorem claim_fold_eq_ok {m : ℕ} {x : F} (hx : x ≠ 0) {g h : List G} (u : G) {a b : List F}
    (hg : g.length = 2 * m) (hh : h.length = 2 * m) (ha : a.length = 2 * m)
    (hb : b.length = 2 * m) :
    let (g', h', p') := foldClaim [(x, leftTerm g h u a b, rightTerm g h u a b)] g h
      (claimValue g h u a b)
    claim g' h' u (foldScalars x x⁻¹ a) (foldScalars x⁻¹ x b) = .ok p' := by
  simp only [foldClaim, foldPoints_eq_fold, foldPoints_inv_eq_fold, foldScalars_eq_fold,
    foldScalars_inv_eq_fold, combine_triple]
  rw [claim_eq_claimValue (by rw [length_fold _ ha, length_fold _ hg])
    (by rw [length_fold _ hb, length_fold _ hh]), claimValue_fold hx u hg hh ha hb, one_smul,
    add_comm (claimValue g h u a b)]

open Ristretto in
/-- A claim about two entries, opened folded for four challenges. -/
theorem exists_opening_of_folded_units :
    let gens := unitGenerators Scalar 2
    let a : List Scalar := [5, 6]
    let b : List Scalar := [7, 8]
    let x : Fin 4 → Scalar := ![1, 2, 3, 4]
    let p := claimValue gens.g gens.h gens.u a b
    Even 2 ∧ gens.g.length = 2 ∧ gens.h.length = 2 ∧ NoRelation Scalar gens.g gens.h gens.u ∧
      (∀ i, x i ≠ 0) ∧ Function.Injective (fun i => x i ^ 2) ∧
      (∀ i, (foldScalars (x i) (x i)⁻¹ a).length = 2 / 2 ∧
        (foldScalars (x i)⁻¹ (x i) b).length = 2 / 2) ∧
      (∀ i, let (g', h', p') := foldClaim [(x i, leftTerm gens.g gens.h gens.u a b,
          rightTerm gens.g gens.h gens.u a b)] gens.g gens.h p
        claim g' h' gens.u (foldScalars (x i) (x i)⁻¹ a) (foldScalars (x i)⁻¹ (x i) b) = .ok p') ∧
      ∃ c d : List Scalar, (c.length = 2 ∧ d.length = 2 ∧ claim gens.g gens.h gens.u c d = .ok p) ∧
        (∀ i, foldScalars (x i) (x i)⁻¹ a = foldScalars (x i) (x i)⁻¹ c ∧
          foldScalars (x i)⁻¹ (x i) b = foldScalars (x i)⁻¹ (x i) d) ∧
        ∀ c' d' : List Scalar, c'.length = 2 → d'.length = 2 →
          claim gens.g gens.h gens.u c' d' = .ok p → c' = c ∧ d' = d := by
  intro gens a b x p
  have hg : gens.g.length = 2 * 1 := List.length_ofFn
  have hh : gens.h.length = 2 * 1 := List.length_ofFn
  have hind : NoRelation Scalar gens.g gens.h gens.u :=
    noRelation_of_independent independent_unitGenerators
  have hx : ∀ i, x i ≠ 0 := by decide +kernel
  have hsq : Function.Injective fun i => x i ^ 2 := by
    rw [Function.Injective]
    decide +kernel
  have ha : ∀ i, (foldScalars (x i) (x i)⁻¹ a).length = 2 / 2 := fun i =>
    length_fold (x i) (n := 1) rfl
  have hb : ∀ i, (foldScalars (x i)⁻¹ (x i) b).length = 2 / 2 := fun i => by
    rw [foldScalars_inv_eq_fold, length_fold _ (n := 1) rfl]
  have hopen := fun i => claim_fold_eq_ok (m := 1) (hx i) gens.u hg hh (a := a) (b := b) rfl rfl
  exact ⟨even_two, hg, hh, hind, hx, hsq, fun i => ⟨ha i, hb i⟩, hopen,
    exists_opening_of_folded even_two hg hh hind hx hsq ha hb hopen⟩

end ConfidentialCoin.InnerProduct
