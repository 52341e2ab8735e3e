import ConfidentialCoin.InnerProduct.Prover
import ConfidentialCoin.Proofs.InnerProduct.Opening
import ConfidentialCoin.Proofs.InnerProduct.Refusals

/-!
# Making an argument

`rounds` is what the folding rounds of a prover come to: for each round its challenge and the
elements `L` and `R` sent before it, computed as sums and as if a challenge that is zero stopped
nothing. Where no challenge is zero

* the prover sends these elements and ends with the folds of its vectors (`foldRounds_eq_ok`), so
  its argument is `argumentOf` of the rounds (`prove_eq_ok`);
* a verifier draws these challenges (`challenges_argumentOf`);
* the claim of the folded vectors is the claim of the vectors moved by all elements
  (`claimValue_foldAll`, from `claimValue_fold` by induction on the rounds). The argument therefore
  opens exactly when its claim is the one the vectors make (`opens_argumentOf`).

Where a challenge is zero the prover fails (`prove_eq_error`).
-/

namespace ConfidentialCoin.InnerProduct

variable {F G τ : Type} [Field F] [AddCommGroup G] [Module F G] [Encoding G] [WideReduction F]
  [Transcript τ]

/-- The challenges of `k` rounds, each with the elements that it is drawn after. -/
def rounds (u : G) : (k : ℕ) → (t : τ) → (g h : List G) → (a b : List F) → List (F × G × G)
  | 0, _, _, _, _, _ => []
  | k + 1, t, g, h, a, b =>
    let l := leftTerm g h u a b
    let r := rightTerm g h u a b
    let x := Layout.roundChallenge F t l r
    (x.1, l, r) :: rounds u k x.2 (fold x.1⁻¹ g) (fold x.1 h) (fold x.1 a) (fold x.1⁻¹ b)

@[simp] theorem length_rounds (u : G) (k : ℕ) (t : τ) (g h : List G) (a b : List F) :
    (rounds u k t g h a b).length = k := by
  induction k generalizing t g h a b with
  | zero => rfl
  | succ k ih => rw [rounds, List.length_cons, ih]

/-- The argument with the given rounds, about the vectors `a` and `b` and with the claim `p`. -/
def argumentOf (rs : List (F × G × G)) (a b : List F) (p : G) : InnerProductProof F G :=
  ⟨rs.map (·.2.1), rs.map (·.2.2), pairing (foldWeights (rs.map (·.1))) a,
    pairing (foldWeights ((rs.map (·.1)).map (·⁻¹))) b, p⟩

omit [AddCommGroup G] [Module F G] [Encoding G] [WideReduction F] in
/-- An argument has one `L` and one `R` for each round. -/
theorem length_argumentOf (rs : List (F × G × G)) (a b : List F) (p : G) :
    (argumentOf rs a b p).l.length = rs.length ∧ (argumentOf rs a b p).r.length = rs.length :=
  ⟨List.length_map _, List.length_map _⟩

variable {u : G} {k : ℕ} {t : τ} {g h : List G} {a b : List F}

/-- The rounds of vectors whose length is a machine word have a count of 32 bits. -/
theorem length_argumentOf_lt (hk : k < 64) (p : G) :
    (argumentOf (rounds u k t g h a b) a b p).l.length < 2 ^ 32 := by
  rw [(length_argumentOf ..).1, length_rounds]
  omega

/-! ### The claim through the rounds -/

/-- **All rounds.** The claim of the folded vectors over the folded generators is the claim of the
vectors, moved. -/
theorem claimValue_foldAll (hs : Sized k g h a b) (hne : ∀ ρ ∈ rounds u k t g h a b, ρ.1 ≠ 0) :
    let us := (rounds u k t g h a b).map (·.1)
    claimValue (foldAll (us.map (·⁻¹)) g) (foldAll us h) u (foldAll us a)
        (foldAll (us.map (·⁻¹)) b) =
      movedClaim us ((rounds u k t g h a b).map (·.2.1)) ((rounds u k t g h a b).map (·.2.2))
        (claimValue g h u a b) := by
  induction k generalizing t g h a b with
  | zero => simp [rounds, foldAll, movedClaim]
  | succ k ih =>
    have htwo : 2 ^ (k + 1) = 2 * 2 ^ k := pow_succ' 2 k
    simp only [rounds] at hne ⊢
    generalize Layout.roundChallenge F t (leftTerm g h u a b) (rightTerm g h u a b) = x at hne ⊢
    obtain ⟨hx, hrest⟩ := List.forall_mem_cons.mp hne
    have hfold := ih (hs.fold x.1) hrest
    have hone := claimValue_fold hx u (hs.g.trans htwo) (hs.h.trans htwo) (hs.a.trans htwo)
      (hs.b.trans htwo)
    simp only [List.map_cons, foldAll]
    rw [hfold, hone, movedClaim_cons]

/-- The argument opens exactly when its claim is the one that the vectors make. -/
theorem opens_argumentOf (hs : Sized k g h a b) (hne : ∀ ρ ∈ rounds u k t g h a b, ρ.1 ≠ 0)
    {p : G} :
    Opens ((rounds u k t g h a b).map (·.1)) g h u (argumentOf (rounds u k t g h a b) a b p) ↔
      p = claimValue g h u a b := by
  have hus : ((rounds u k t g h a b).map (·.1)).length = k := by simp
  have hclaim := claimValue_foldAll hs hne
  obtain ⟨hg, hh, ha, hb⟩ := hs.foldAll_eq hus
  simp only [hg, hh, ha, hb, claimValue, pairing_cons, pairing_nil_left, add_zero,
    smul_eq_mul] at hclaim
  rw [Opens, argumentOf, hclaim, movedClaim, movedClaim, ← claimValue]
  constructor
  · intro he
    exact (add_right_cancel (add_right_cancel he)).symm
  · rintro rfl
    rfl

/-! ### The prover and the rounds -/

section

variable [BEq F] [LawfulBEq F]

/-- A verifier that reads the elements draws the challenges. -/
theorem roundChallenges_rounds (hne : ∀ ρ ∈ rounds u k t g h a b, ρ.1 ≠ 0) :
    ∃ t', roundChallenges ((rounds u k t g h a b).map (·.2)) t =
      .ok ((rounds u k t g h a b).map (·.1), t') := by
  induction k generalizing t g h a b with
  | zero => exact ⟨t, rfl⟩
  | succ k ih =>
    simp only [rounds] at hne ⊢
    simp only [List.map_cons, roundChallenges]
    generalize Layout.roundChallenge F t (leftTerm g h u a b) (rightTerm g h u a b) = x at hne ⊢
    obtain ⟨hx, hrest⟩ := List.forall_mem_cons.mp hne
    obtain ⟨t', ht'⟩ := ih hrest
    refine ⟨t', ?_⟩
    rw [if_neg (by simpa using hx), ht']
    rfl

/-- A verifier draws the challenges of the rounds from the argument made of them. -/
theorem challenges_argumentOf {n : ℕ} (hk : k < 64) (hn : n = 2 ^ k) {t₀ : τ}
    (ht : t = Layout.innerProductDomain t₀ n) (hne : ∀ ρ ∈ rounds u k t g h a b, ρ.1 ≠ 0) (p : G) :
    ∃ t', challenges t₀ (argumentOf (rounds u k t g h a b) a b p) n =
      .ok ((rounds u k t g h a b).map (·.1), t') := by
  obtain ⟨t', ht'⟩ := roundChallenges_rounds hne
  refine ⟨t', ?_⟩
  have hzip : ((rounds u k t g h a b).map (·.2.1)).zip ((rounds u k t g h a b).map (·.2.2)) =
      (rounds u k t g h a b).map (·.2) := by
    rw [List.zip_map', List.map_congr_left fun _ _ => rfl]
  rw [challenges, if_pos (roundsMatch_of_lt (by simp [argumentOf]) (by simpa [argumentOf])
    (by simp [argumentOf, hn])), ← ht]
  simp only [argumentOf]
  rw [hzip, ht']

variable [LinearCombination F G] [LawfulLinearCombination F G]

omit [Encoding G] [WideReduction F] [BEq F] [LawfulBEq F] in
/-- An element of a round is the claim of the halves that it pairs. -/
private theorem pairedElement_eq_claimValue (hg : a.length = g.length) (hh : b.length = h.length) :
    pairedElement g h u a b = claimValue g h u a b := by
  have hlength : (a ++ b ++ [(List.zipWith (· * ·) a b).sum]).length = (g ++ h ++ [u]).length := by
    simp only [List.length_append, List.length_singleton, hg, hh]
  exact Except.ok.inj ((combine?_of_length_eq hlength).symm.trans (claim_eq_claimValue hg hh))

omit [Encoding G] [WideReduction F] [BEq F] [LawfulBEq F] in
/-- The elements of a round are sums. -/
private theorem Sized.elements_eq (hs : Sized (k + 1) g h a b) (u : G) :
    leftElement g h u a b = leftTerm g h u a b ∧
      rightElement g h u a b = rightTerm g h u a b := by
  have htwo : 2 ^ (k + 1) = 2 * 2 ^ k := pow_succ' 2 k
  have hg := hs.g.trans htwo
  have hh := hs.h.trans htwo
  have ha := hs.a.trans htwo
  have hb := hs.b.trans htwo
  exact ⟨pairedElement_eq_claimValue ((length_lower ha).trans (length_upper hg).symm)
      ((length_upper hb).trans (length_lower hh).symm),
    pairedElement_eq_claimValue ((length_upper ha).trans (length_lower hg).symm)
      ((length_lower hb).trans (length_upper hh).symm)⟩

omit [LawfulBEq F] in
/-- **Step.** A round of the prover, with its sums and folds. -/
private theorem foldRounds_succ (hs : Sized (k + 1) g h a b) :
    foldRounds u (k + 1) t g h a b =
      let l := leftTerm g h u a b
      let r := rightTerm g h u a b
      let x := Layout.roundChallenge F t l r
      if x.1 == 0 then .error zeroChallenge
      else (do
        let rest ←
          foldRounds u k x.2 (fold x.1⁻¹ g) (fold x.1 h) (fold x.1 a) (fold x.1⁻¹ b)
        .ok { rest with l := l :: rest.l, r := r :: rest.r }) := by
  obtain ⟨hl, hr⟩ := hs.elements_eq u
  rw [foldRounds_of_sized hs, hl, hr]
  simp only [foldPoints_inv_eq_fold, foldPoints_eq_fold, foldScalars_eq_fold,
    foldScalars_inv_eq_fold]

omit [BEq F] [LawfulBEq F] in
/-- The challenges of the rounds are those that the prover draws. -/
theorem map_rounds (hs : Sized k g h a b) :
    (rounds u k t g h a b).map (·.1) = foldingChallenges u k t g h a b := by
  induction k generalizing t g h a b with
  | zero => rfl
  | succ k ih =>
    obtain ⟨hl, hr⟩ := hs.elements_eq u
    rw [rounds, foldingChallenges, hl, hr, List.map_cons]
    simp only [ih (hs.fold _), foldPoints_inv_eq_fold, foldPoints_eq_fold, foldScalars_eq_fold,
      foldScalars_inv_eq_fold]

/-- **The prover.** Unless a challenge is zero the rounds send their elements, and leave the folds
of the vectors. -/
theorem foldRounds_eq_ok (hs : Sized k g h a b) (hne : ∀ ρ ∈ rounds u k t g h a b, ρ.1 ≠ 0) :
    ∃ t', foldRounds u k t g h a b =
      .ok ⟨(rounds u k t g h a b).map (·.2.1), (rounds u k t g h a b).map (·.2.2),
        foldAll ((rounds u k t g h a b).map (·.1)) a,
        foldAll (((rounds u k t g h a b).map (·.1)).map (·⁻¹)) b, t'⟩ := by
  induction k generalizing t g h a b with
  | zero => exact ⟨t, rfl⟩
  | succ k ih =>
    rw [foldRounds_succ hs]
    simp only [rounds] at hne ⊢
    generalize Layout.roundChallenge F t (leftTerm g h u a b) (rightTerm g h u a b) = x at hne ⊢
    obtain ⟨hx, hrest⟩ := List.forall_mem_cons.mp hne
    obtain ⟨t', ht'⟩ := ih (hs.fold x.1) hrest
    refine ⟨t', ?_⟩
    rw [if_neg (by simpa using hx), ht']
    rfl

/-- The prover's argument is that of its rounds. -/
theorem prove_eq_ok (hs : Sized k g h a b) {t₀ : τ}
    (ht : t = Layout.innerProductDomain t₀ (2 ^ k))
    (hne : ∀ ρ ∈ rounds u k t g h a b, ρ.1 ≠ 0) (p : G) :
    ∃ t', prove t₀ g h u a b p = .ok (argumentOf (rounds u k t g h a b) a b p, t') := by
  have hus : ((rounds u k t g h a b).map (·.1)).length = k := by simp
  obtain ⟨t', ht'⟩ := foldRounds_eq_ok hs hne
  obtain ⟨-, -, ha, hb⟩ := hs.foldAll_eq hus
  refine ⟨t', ?_⟩
  rw [ha, hb] at ht'
  rw [prove_of_sized hs, ← ht, ht']
  rfl

/-- The prover fails when one of its challenges is zero. -/
theorem prove_eq_error (hs : Sized k g h a b) {t₀ : τ}
    (ht : t = Layout.innerProductDomain t₀ (2 ^ k))
    (hzero : ∃ ρ ∈ rounds u k t g h a b, ρ.1 = 0) (p : G) :
    prove t₀ g h u a b p = .error zeroChallenge := by
  obtain ⟨ρ, hρ, hzero⟩ := hzero
  refine prove_eq_error_of_mem hs p ?_
  rw [← ht, ← map_rounds hs, ← hzero]
  exact List.mem_map_of_mem hρ

end

end ConfidentialCoin.InnerProduct
