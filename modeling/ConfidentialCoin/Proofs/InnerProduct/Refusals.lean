import ConfidentialCoin.InnerProduct.Prover
import ConfidentialCoin.Proofs.InnerProduct.Folding

/-!
# What an argument is refused for

On vectors and generators of one length, a power of two, a prover of the argument has one way to
fail, a folding challenge that is zero (`exists_prove_eq_ok_of_notMem`, `prove_eq_error_of_mem`): a
round finds halves of one length on both sides of each of its products and sums, and hands on
vectors and generators of half the length (`Sized.next`). None of this takes a law of the scalars or
the group.

`foldHalving` is the prover's loop with every length looked at. It keeps the length next to the
vectors, halves it, and splits the vectors and the generators there. The lengths fit each time, so
the prover with this loop is the prover (`proveHalving_eq_prove`), on whatever input.
-/

namespace ConfidentialCoin.InnerProduct

variable {F G τ : Type}

/-! ### One round -/

theorem length_foldScalars [Add F] [Mul F] (c d : F) {v : List F} {n : ℕ} (h : v.length = 2 * n) :
    (foldScalars c d v).length = n := by
  rw [foldScalars, List.length_zipWith, length_lower h, length_upper h, Nat.min_self]

section Round

variable [Zero F] [Add F] [Mul F] [LinearCombination F G]

/-- The element that pairs `a` with `g` and `b` with `h`. -/
def pairedElement (g h : List G) (u : G) (a b : List F) : G :=
  combine ((a ++ b ++ [(List.zipWith (· * ·) a b).sum]).zip (g ++ h ++ [u]))

/-- A cross term has as many scalars as elements when its vectors and generators have one
length. -/
theorem crossTerm_eq_pairedElement {g h : List G} {u : G} {a b : List F} {n : ℕ}
    (hg : g.length = n) (hh : h.length = n) (ha : a.length = n) (hb : b.length = n) :
    crossTerm g h u a b = .ok (pairedElement g h u a b) := by
  have hlength : (a ++ b ++ [(List.zipWith (· * ·) a b).sum]).length = (g ++ h ++ [u]).length := by
    simp only [List.length_append, List.length_singleton, ha, hb, hg, hh]
  rw [crossTerm, ScalarVector.innerProduct_eq_ok_iff.mpr ⟨ha.trans hb.symm, rfl⟩]
  simp only [bind, Except.bind, Except.mapError]
  rw [combine?_of_length_eq hlength]
  rfl

/-- The element `L` of a round. -/
def leftElement (g h : List G) (u : G) (a b : List F) : G :=
  pairedElement (upper g) (lower h) u (lower a) (upper b)

/-- The element `R` of a round. -/
def rightElement (g h : List G) (u : G) (a b : List F) : G :=
  pairedElement (lower g) (upper h) u (upper a) (lower b)

end Round

namespace Sized

variable [Add F] [Mul F] [LinearCombination F G] {k : ℕ} {g h : List G} {a b : List F}

/-- Both cross terms of a round are computed. -/
theorem crossTerms [Zero F] (hs : Sized (k + 1) g h a b) (u : G) :
    crossTerm (upper g) (lower h) u (lower a) (upper b) = .ok (leftElement g h u a b) ∧
      crossTerm (lower g) (upper h) u (upper a) (lower b) = .ok (rightElement g h u a b) := by
  have htwo : 2 ^ (k + 1) = 2 * 2 ^ k := pow_succ' 2 k
  have hg := hs.g.trans htwo
  have hh := hs.h.trans htwo
  have ha := hs.a.trans htwo
  have hb := hs.b.trans htwo
  exact ⟨crossTerm_eq_pairedElement (length_upper hg) (length_lower hh) (length_lower ha)
      (length_upper hb),
    crossTerm_eq_pairedElement (length_lower hg) (length_upper hh) (length_upper ha)
      (length_lower hb)⟩

/-- **Step.** A round leaves generators and vectors for the rounds that remain. -/
theorem next [Inv F] (hs : Sized (k + 1) g h a b) (x : F) :
    Sized k (foldPoints x⁻¹ x g) (foldPoints x x⁻¹ h) (foldScalars x x⁻¹ a)
      (foldScalars x⁻¹ x b) := by
  have htwo : 2 ^ (k + 1) = 2 * 2 ^ k := pow_succ' 2 k
  have hhalf : 2 ^ (k + 1) / 2 = 2 ^ k := by rw [htwo, Nat.mul_div_cancel_left _ Nat.two_pos]
  exact ⟨by rw [length_foldPoints, hs.g, hhalf], by rw [length_foldPoints, hs.h, hhalf],
    length_foldScalars _ _ (hs.a.trans htwo), length_foldScalars _ _ (hs.b.trans htwo)⟩

end Sized

/-! ### All rounds -/

variable [Zero F] [Add F] [Mul F] [Inv F] [LinearCombination F G] [Encoding G] [WideReduction F]
  [Transcript τ]

/-- The challenges of `k` rounds, drawn as if a challenge that is zero stopped nothing. -/
def foldingChallenges (u : G) : (k : ℕ) → (t : τ) → (g h : List G) → (a b : List F) → List F
  | 0, _, _, _, _, _ => []
  | k + 1, t, g, h, a, b =>
    let x := Layout.roundChallenge F t (leftElement g h u a b) (rightElement g h u a b)
    x.1 :: foldingChallenges u k x.2 (foldPoints x.1⁻¹ x.1 g) (foldPoints x.1 x.1⁻¹ h)
      (foldScalars x.1 x.1⁻¹ a) (foldScalars x.1⁻¹ x.1 b)

variable [BEq F] {u : G} {k : ℕ} {t : τ} {g h : List G} {a b : List F}

/-- A round, with its sums. -/
theorem foldRounds_of_sized (hs : Sized (k + 1) g h a b) :
    foldRounds u (k + 1) t g h a b =
      let x := Layout.roundChallenge F t (leftElement g h u a b) (rightElement g h u a b)
      if x.1 == 0 then .error zeroChallenge
      else (do
        let rest ← foldRounds u k x.2 (foldPoints x.1⁻¹ x.1 g) (foldPoints x.1 x.1⁻¹ h)
          (foldScalars x.1 x.1⁻¹ a) (foldScalars x.1⁻¹ x.1 b)
        .ok { rest with l := leftElement g h u a b :: rest.l,
                        r := rightElement g h u a b :: rest.r }) := by
  obtain ⟨hl, hr⟩ := hs.crossTerms u
  rw [foldRounds, hl, hr]
  rfl

section Challenges

variable [LawfulBEq F]

/-- Rounds that draw no zero end with one entry of each vector. -/
theorem exists_foldRounds_eq_ok (hs : Sized k g h a b)
    (hne : 0 ∉ foldingChallenges u k t g h a b) :
    ∃ out, foldRounds u k t g h a b = .ok out ∧ out.a.length = 1 ∧ out.b.length = 1 := by
  induction k generalizing t g h a b with
  | zero => exact ⟨_, rfl, hs.a, hs.b⟩
  | succ k ih =>
    rw [foldRounds_of_sized hs]
    rw [foldingChallenges, List.mem_cons, not_or] at hne
    obtain ⟨out, hout, ha, hb⟩ := ih (hs.next _) hne.2
    refine ⟨{ out with l := leftElement g h u a b :: out.l, r := rightElement g h u a b :: out.r },
      ?_, ha, hb⟩
    simp only
    rw [if_neg fun hx => hne.1 (beq_iff_eq.mp hx).symm, hout]
    rfl

/-- A zero among the challenges stops the rounds. -/
theorem foldRounds_eq_error_of_mem (hs : Sized k g h a b)
    (hzero : 0 ∈ foldingChallenges u k t g h a b) :
    foldRounds u k t g h a b = .error zeroChallenge := by
  induction k generalizing t g h a b with
  | zero => exact absurd hzero List.not_mem_nil
  | succ k ih =>
    rw [foldRounds_of_sized hs]
    rw [foldingChallenges, List.mem_cons] at hzero
    rcases hzero with hx | hrest
    · exact if_pos (beq_iff_eq.mpr hx.symm)
    · -- A zero that comes later finds this round done, or stopped by a zero of its own.
      simp only [ih (hs.next _) hrest]
      exact ite_self _

end Challenges

/-! ### The prover -/

/-- Vectors and generators of one length, a power of two, are taken. -/
theorem prove_of_sized (hs : Sized k g h a b) (p : G) :
    prove t g h u a b p = (do
      let out ← foldRounds u k (Layout.innerProductDomain t (2 ^ k)) g h a b
      let a ← (entry out.a 0).mapError .fault
      let b ← (entry out.b 0).mapError .fault
      .ok (⟨out.l, out.r, a, b, p⟩, out.transcript)) := by
  have hcount : roundCount (2 ^ k) = k := Nat.log2_two_pow
  have hpow : ¬ (2 ^ k = 0 ∨ 1 <<< k ≠ 2 ^ k) := by
    rw [Nat.one_shiftLeft]
    exact not_or.mpr ⟨(Nat.two_pow_pos k).ne', not_not_intro rfl⟩
  have hlengths : ¬ (2 ^ k ≠ 2 ^ k ∨ 2 ^ k ≠ 2 ^ k ∨ 2 ^ k ≠ 2 ^ k) := by
    rw [or_self, or_self]
    exact not_not_intro rfl
  rw [prove]
  simp only [hs.g, hs.h, hs.a, hs.b, hcount]
  rw [if_neg hpow, if_neg hlengths]

section Outcome

variable [LawfulBEq F]

/-- **The prover succeeds** where it draws no zero. -/
theorem exists_prove_eq_ok_of_notMem (hs : Sized k g h a b) (p : G)
    (hne : 0 ∉ foldingChallenges u k (Layout.innerProductDomain t (2 ^ k)) g h a b) :
    ∃ out, prove t g h u a b p = .ok out := by
  obtain ⟨out, hout, ha, hb⟩ := exists_foldRounds_eq_ok hs hne
  obtain ⟨x, hx⟩ := List.length_eq_one_iff.mp ha
  obtain ⟨y, hy⟩ := List.length_eq_one_iff.mp hb
  refine ⟨(⟨out.l, out.r, x, y, p⟩, out.transcript), ?_⟩
  rw [prove_of_sized hs, hout]
  simp only [bind, Except.bind, hx, hy]
  rfl

/-- **The prover fails** where it draws a zero, and for nothing else. -/
theorem prove_eq_error_of_mem (hs : Sized k g h a b) (p : G)
    (hzero : 0 ∈ foldingChallenges u k (Layout.innerProductDomain t (2 ^ k)) g h a b) :
    prove t g h u a b p = .error zeroChallenge := by
  rw [prove_of_sized hs, foldRounds_eq_error_of_mem hs hzero]
  rfl

end Outcome

/-! ### Halving at a count -/

/-- The elements before `mid` and from `mid` on; there is no such place past the end. -/
def splitPoints (ps : List G) (mid : ℕ) : Except Fault (List G × List G) :=
  if mid ≤ ps.length then .ok (ps.take mid, ps.drop mid) else .error .indexOutOfRange

/-- Halves vectors and generators of length `n` until that is one, each split at half of `n`. -/
def foldHalving (u : G) (n : ℕ) (t : τ) (g h : List G) (a b : List F) :
    Except ProverError (Folded F G τ) :=
  if _hn : n ≤ 1 then .ok ⟨[], [], a, b, t⟩
  else do
    let (aLower, aUpper) ← (ScalarVector.splitAt? a (n / 2)).mapError .refused
    let (bLower, bUpper) ← (ScalarVector.splitAt? b (n / 2)).mapError .refused
    let (gLower, gUpper) ← (splitPoints g (n / 2)).mapError .fault
    let (hLower, hUpper) ← (splitPoints h (n / 2)).mapError .fault
    let l ← crossTerm gUpper hLower u aLower bUpper
    let r ← crossTerm gLower hUpper u aUpper bLower
    let (x, t) := Layout.roundChallenge F t l r
    if x == 0 then .error zeroChallenge
    else
      let rest ← foldHalving u (n / 2) t
        (List.zipWith (fun lo hi => combine [(x⁻¹, lo), (x, hi)]) gLower gUpper)
        (List.zipWith (fun lo hi => combine [(x, lo), (x⁻¹, hi)]) hLower hUpper)
        (List.zipWith (fun lo hi => x * lo + x⁻¹ * hi) aLower aUpper)
        (List.zipWith (fun lo hi => x⁻¹ * lo + x * hi) bLower bUpper)
      .ok { rest with l := l :: rest.l, r := r :: rest.r }
termination_by n
decreasing_by omega

/-- The argument made by halving at a count. -/
def proveHalving (t : τ) (g h : List G) (u : G) (a b : List F) (p : G) :
    Except ProverError (InnerProductProof F G × τ) := do
  let n := a.length
  if n = 0 ∨ 1 <<< roundCount n ≠ n then .error notPowerOfTwo
  else if b.length ≠ n ∨ g.length ≠ n ∨ h.length ≠ n then .error lengthsDiffer
  else
    let out ← foldHalving u n (Layout.innerProductDomain t n) g h a b
    let a ← (entry out.a 0).mapError .fault
    let b ← (entry out.b 0).mapError .fault
    .ok (⟨out.l, out.r, a, b, p⟩, out.transcript)

omit [Zero F] [Add F] [Mul F] [Inv F] [WideReduction F] [BEq F] in
/-- Half of the count is where the halves meet. -/
theorem splitAt?_half {v : List F} {n : ℕ} (h : v.length = n) :
    ScalarVector.splitAt? v (n / 2) = .ok (lower v, upper v) := by
  subst h
  exact if_pos (Nat.div_le_self _ 2)

omit [Encoding G] in
/-- Splitting at half the length makes the two halves. -/
theorem splitPoints_half {ps : List G} {n : ℕ} (h : ps.length = n) :
    splitPoints ps (n / 2) = .ok (lower ps, upper ps) := by
  subst h
  exact if_pos (Nat.div_le_self _ 2)

/-- Where the sizes fit, no split fails. -/
theorem foldHalving_of_sized (hs : Sized k g h a b) :
    foldHalving u (2 ^ k) t g h a b = foldRounds u k t g h a b := by
  induction k generalizing t g h a b with
  | zero =>
    rw [foldHalving, dif_pos (Nat.pow_zero 2).le]
    rfl
  | succ k ih =>
    have hn : ¬ 2 ^ (k + 1) ≤ 1 := Nat.not_le.mpr (Nat.one_lt_two_pow k.succ_ne_zero)
    have hhalf : 2 ^ (k + 1) / 2 = 2 ^ k := by
      rw [pow_succ, Nat.mul_div_cancel _ two_pos]
    obtain ⟨hl, hr⟩ := hs.crossTerms u
    rw [foldHalving, dif_neg hn, splitAt?_half hs.a, splitAt?_half hs.b, splitPoints_half hs.g,
      splitPoints_half hs.h, foldRounds_of_sized hs, hhalf]
    dsimp only
    rw [← ih (hs.next _)]
    simp only [bind, Except.bind, Except.mapError, hl, hr]
    rfl

/-- **No length is found wrong** that was not refused at the start. -/
theorem proveHalving_eq_prove (t : τ) (g h : List G) (u : G) (a b : List F) (p : G) :
    proveHalving t g h u a b p = prove t g h u a b p := by
  rw [proveHalving, prove]
  by_cases hpow : a.length = 0 ∨ 1 <<< roundCount a.length ≠ a.length
  · rw [if_pos hpow, if_pos hpow]
  by_cases hlengths : b.length ≠ a.length ∨ g.length ≠ a.length ∨ h.length ≠ a.length
  · rw [if_neg hpow, if_neg hpow, if_pos hlengths, if_pos hlengths]
  simp only [not_or, not_not] at hpow hlengths
  have ha : a.length = 2 ^ roundCount a.length := by rw [← Nat.one_shiftLeft, hpow.2]
  have hs : Sized (roundCount a.length) g h a b :=
    ⟨hlengths.2.1.trans ha, hlengths.2.2.trans ha, ha, hlengths.1.trans ha⟩
  have hfold : ∀ t : τ, foldHalving u a.length t g h a b =
      foldRounds u (roundCount a.length) t g h a b := fun t =>
    (congrArg (foldHalving u · t g h a b) ha).trans (foldHalving_of_sized hs)
  rw [hfold]

end ConfidentialCoin.InnerProduct
