import ConfidentialCoin.Proofs.InnerProduct.ClosedForm
import ConfidentialCoin.Proofs.InnerProduct.Coefficients

/-!
# The preconditions of an argument

An argument whose rounds are those of its vectors leaves one generator of each kind after folding,
and every coefficient is computed from one that is there. The shape of the argument, which is looked
at first, is all that this depends on; no law of the group enters, and of the scalars only that `==`
is equality.

The look is not sharp enough. It takes the count of the rounds in 32 bits, so with `2 ^ 32` rounds
too many an argument passes, and folding halves the generators until none is left. And it lets a
length pass for which there is no room.

* `length_foldClaim`: a round halves the generators.
* `exists_foldlM_nextCoefficient`: a step of the loop adds one coefficient.
* `verify_eq_fault_iff`, `coefficients_eq_fault_iff`: when a check answers with a fault, and with
  which one. Otherwise (`Bounded`) neither does.
-/

namespace ConfidentialCoin.InnerProduct

variable {F G τ : Type}

/-! ### Folding -/

/-- Every round halves the generators, also once there are none. -/
theorem length_foldClaim [One F] [Mul F] [Inv F] [LinearCombination F G]
    (rounds : List (F × G × G)) (g h : List G) (p : G) :
    (foldClaim rounds g h p).1.length = g.length / 2 ^ rounds.length ∧
      (foldClaim rounds g h p).2.1.length = h.length / 2 ^ rounds.length := by
  induction rounds generalizing g h p with
  | nil => exact ⟨(Nat.div_one _).symm, (Nat.div_one _).symm⟩
  | cons round rounds ih =>
    obtain ⟨u, l, r⟩ := round
    have hdiv (m : ℕ) : m / 2 / 2 ^ rounds.length = m / 2 ^ (rounds.length + 1) := by
      rw [Nat.div_div_eq_div_mul, pow_succ']
    simp only [foldClaim, ih, length_foldPoints, hdiv, List.length_cons, and_self]

section Challenges

variable [Zero F] [BEq F] [LawfulBEq F] [Encoding G] [WideReduction F] [Transcript τ] {t t' : τ}
  {arg : InnerProductProof F G} {n : ℕ} {us : List F}

/-- Each challenge comes with its two elements. -/
theorem length_zip_of_challenges (hc : challenges t arg n = .ok (us, t')) :
    (us.zip (arg.l.zip arg.r)).length = us.length := by
  obtain ⟨hl, hr, -⟩ := challenges_eq_ok hc
  rw [List.length_zip, List.length_zip, hl, hr, Nat.min_self, Nat.min_self]

/-- Halved once in every round, the length comes down to one, or to nothing where the count of the
rounds falls short of them. -/
theorem length_div_of_challenges (hc : challenges t arg n = .ok (us, t')) :
    n / 2 ^ us.length = if arg.l.length < 2 ^ 32 then 1 else 0 := by
  obtain ⟨hl, -, hn, -⟩ := challenges_eq_ok hc
  split_ifs with hk
  · rw [length_eq_of_challenges hk hc, Nat.div_self (Nat.two_pow_pos _)]
  · have hmod : us.length % 2 ^ 32 < us.length := by omega
    rw [hn, Nat.div_eq_of_lt (Nat.pow_lt_pow_right Nat.one_lt_two hmod)]

end Challenges

section Folding

variable [Zero F] [One F] [Mul F] [Inv F] [BEq F] [LawfulBEq F] [LinearCombination F G] [BEq G]
  [Encoding G] [WideReduction F] [Transcript τ] {t : τ} {g h : List G} {u : G}
  {arg : InnerProductProof F G}

/-- Folding finds an entry in what is left of the generators, unless there were too many rounds. -/
theorem verify_eq_fault_iff {f : Fault} :
    verify t g h u arg = .error (.fault f) ↔
      f = .indexOutOfRange ∧ 2 ^ 32 ≤ arg.l.length ∧ g.length = h.length ∧
        ∃ out, challenges (F := F) t arg g.length = .ok out := by
  by_cases hgh : g.length = h.length
  swap
  · rw [verify, if_pos hgh]
    exact iff_of_false (by rintro ⟨⟩) fun h => hgh h.2.2.1
  cases hc : challenges (F := F) t arg g.length with
  | error e =>
    rw [verify_eq_error_of_challenges hgh hc]
    refine iff_of_false (fun hf => ?_) (by rintro ⟨-, -, -, -, ⟨⟩⟩)
    exact challenges_ne_fault (Except.error.inj hf ▸ hc)
  | ok out =>
    obtain ⟨us, t'⟩ := out
    obtain ⟨hg, hh⟩ := length_foldClaim (us.zip (arg.l.zip arg.r)) g h arg.p
    rw [length_zip_of_challenges hc, length_div_of_challenges hc] at hg
    rw [length_zip_of_challenges hc, ← hgh, length_div_of_challenges hc] at hh
    rw [verify, if_neg (not_not_intro hgh), hc]
    simp only [bind, Except.bind, Except.mapError]
    split_ifs at hg hh with hk
    · -- One generator of each kind is left.
      obtain ⟨g₀, hg₀⟩ := List.length_eq_one_iff.mp hg
      obtain ⟨h₀, hh₀⟩ := List.length_eq_one_iff.mp hh
      have hentry (p : G) : entry [p] 0 = .ok p := rfl
      refine iff_of_false ?_ fun hf => Nat.not_lt.mpr hf.2.1 hk
      simp only [hg₀, hh₀, hentry]
      split_ifs <;> rintro ⟨⟩
    · -- None is left, so the first of them is missing.
      rw [List.length_eq_zero_iff.mp hg]
      refine ⟨fun hf => ?_, fun hf => by rw [hf.1]; rfl⟩
      cases hf
      exact ⟨rfl, Nat.not_lt.mp hk, hgh, _, rfl⟩

end Folding

/-! ### Coefficients -/

/-- **Invariant.** After `m` steps there are `m + 1` coefficients, so the next step finds the one it
needs. -/
theorem exists_foldlM_nextCoefficient [Mul F] (squares : List F) (first : F) {m : ℕ}
    (hm : m + 1 ≤ 2 ^ squares.length) :
    ∃ s, (List.range' 1 m).foldlM (fun s i => do return s.push (← nextCoefficient squares s i))
      #[first] = .ok s ∧ s.size = m + 1 := by
  induction m with
  | zero => exact ⟨#[first], rfl, rfl⟩
  | succ m ih =>
    obtain ⟨s, hs, hsize⟩ := ih (by omega)
    obtain ⟨c, hnext⟩ : ∃ c, nextCoefficient squares s (m + 1) = .ok c :=
      ⟨_, nextCoefficient_eq_ok (Nat.succ_ne_zero m) hm hsize.ge first⟩
    refine ⟨s.push c, ?_, (Array.size_push _).trans (congrArg (· + 1) hsize)⟩
    rw [List.range'_1_concat, List.foldlM_append, hs, Nat.add_comm 1 m]
    simp only [bind, Except.bind, List.foldlM_cons, List.foldlM_nil, hnext, pure, Except.pure]

section Coefficients

variable [Zero F] [One F] [Mul F] [Inv F] [BEq F] [LawfulBEq F] [Encoding G] [WideReduction F]
  [Transcript τ]

/-- The sizes of the coefficients: one for each round, and one for each generator if there is room
for them. -/
theorem exists_coefficients_eq {t t' : τ} {arg : InnerProductProof F G} {n : ℕ} {us : List F}
    (h : challenges t arg n = .ok (us, t')) :
    ∃ c : Coefficients F, c.squares.length = arg.l.length ∧
      c.inverseSquares.length = arg.r.length ∧ c.s.size = n ∧
      coefficients t arg n =
        if n < 2 ^ 58 then .ok (c, t') else .error (.fault .noRoom) := by
  obtain ⟨hl, hr, hn, hne⟩ := challenges_eq_ok h
  let squares := us.map fun u => u * u
  have hsquares : squares.length = us.length := List.length_map _
  have hpos : n - 1 + 1 = n := Nat.sub_add_cancel (hn ▸ Nat.one_le_two_pow)
  have hle : n ≤ 2 ^ squares.length := hsquares ▸ length_le_of_challenges h
  obtain ⟨s, hs, hsize⟩ := exists_foldlM_nextCoefficient squares
    ((us.map (·⁻¹)).foldl (· * ·) 1) (hpos.trans_le hle)
  have hgenerators : generatorCoefficients squares ((us.map (·⁻¹)).foldl (· * ·) 1) n = .ok s := by
    rw [generatorCoefficients, List.drop_one, List.tail_range, hs]
  refine ⟨⟨squares, (us.map (·⁻¹)).map fun u => u * u, s⟩, ?_, ?_, ?_, ?_⟩
  · rw [hsquares, hl]
  · rw [List.length_map, List.length_map, hr]
  · rw [hsize, hpos]
  · simp only [coefficients, h, inverses_eq hne, reserve_scalars, bind, Except.bind]
    split_ifs
    · simp only [Except.mapError]
      rw [hgenerators]
    · rfl

/-- The loop finds every coefficient it needs, unless there is no room for them. -/
theorem coefficients_eq_fault_iff {t : τ} {arg : InnerProductProof F G} {n : ℕ} {f : Fault} :
    coefficients (F := F) t arg n = .error (.fault f) ↔
      f = .noRoom ∧ 2 ^ 58 ≤ n ∧ ∃ out, challenges (F := F) t arg n = .ok out := by
  cases hc : challenges (F := F) t arg n with
  | error e =>
    rw [coefficients_eq_error hc]
    refine iff_of_false (fun hf => ?_) (by rintro ⟨-, -, -, ⟨⟩⟩)
    exact challenges_ne_fault (Except.error.inj hf ▸ hc)
  | ok out =>
    obtain ⟨c, -, -, -, heq⟩ := exists_coefficients_eq hc
    rw [heq]
    split_ifs with hn
    · exact iff_of_false (by rintro ⟨⟩) fun hf => Nat.not_lt.mpr hf.2.1 hn
    · refine ⟨fun hf => ?_, fun hf => by rw [hf.1]⟩
      cases hf
      exact ⟨rfl, Nat.not_lt.mp hn, _, rfl⟩

end Coefficients

end ConfidentialCoin.InnerProduct
