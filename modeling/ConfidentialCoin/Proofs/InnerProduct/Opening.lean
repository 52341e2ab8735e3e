import ConfidentialCoin.InnerProduct.Verifier
import ConfidentialCoin.Proofs.InnerProduct.Folding

/-!
# Opening an argument

Folding round by round, `InnerProduct.verify` decides one equation. With challenges `us` it is
`Opens us`: the generators, paired with the fold weights, and scaled by the two scalars of the
argument, add up to the claim moved by all `L` and `R`.

* `challenges_eq_ok`, `challenges_eq_error`: what is known of an argument whose challenges were
  drawn, and of one whose were not. The count of its rounds is known in 32 bits only; where this is
  the count itself (`Bounded`), the length is that of vectors which the rounds halve down to one.
* `foldClaim_eq`: the generators and the claim after all rounds.
* `verify_eq_ok`, `verify_eq_error`: the check is the equation.
-/

namespace ConfidentialCoin.InnerProduct

variable {F G τ : Type}

/-! ### Challenges -/

/-- An exponent cast to 32 bits is its remainder. -/
theorem powTwo?_toUInt32_eq_some_iff {k n : ℕ} :
    powTwo? k.toUInt32 = some n ↔ k % 2 ^ 32 < 64 ∧ 2 ^ (k % 2 ^ 32) = n := by
  have hcast : k.toUInt32.toNat = k % 2 ^ 32 := UInt32.toNat_ofNat'
  have hlt : k.toUInt32 < 64 ↔ k % 2 ^ 32 < 64 := by
    rw [UInt32.lt_iff_toNat_lt, hcast]
    rfl
  rw [powTwo?, hcast, Nat.one_shiftLeft]
  simp only [hlt]
  split_ifs with h
  · rw [Option.some_inj, and_iff_right h]
  · exact iff_of_false (by rintro ⟨⟩) fun h' => h h'.1

/-- What the check of the shape lets pass: the count of the rounds in 32 bits, and not the rounds,
has to be that of the length. -/
theorem roundsMatch_iff {proof : InnerProductProof F G} {n : ℕ} :
    roundsMatch proof n ↔
      proof.l.length = proof.r.length ∧ proof.l.length % 2 ^ 32 < 64 ∧
        2 ^ (proof.l.length % 2 ^ 32) = n := by
  rw [roundsMatch, Bool.and_eq_true, beq_iff_eq, beq_iff_eq, powTwo?_toUInt32_eq_some_iff]

/-- Up to 63 rounds are counted as they are. -/
theorem roundsMatch_of_lt {proof : InnerProductProof F G} {n : ℕ}
    (hlr : proof.l.length = proof.r.length) (hk : proof.l.length < 64)
    (hn : 2 ^ proof.l.length = n) : roundsMatch proof n := by
  have hmod : proof.l.length % 2 ^ 32 = proof.l.length := Nat.mod_eq_of_lt (by omega)
  rw [roundsMatch_iff, hmod]
  exact ⟨hlr, hk, hn⟩

/-- An argument and a length that are not too big for the checks. -/
structure Bounded (proof : InnerProductProof F G) (n : ℕ) : Prop where
  /-- The rounds have a count of 32 bits. -/
  rounds_lt : proof.l.length < 2 ^ 32
  /-- Memory has room for as many scalars. -/
  length_lt : n < 2 ^ 58

section Challenges

variable [Zero F] [BEq F] [LawfulBEq F] [Encoding G] [WideReduction F] [Transcript τ]

omit [LawfulBEq F] in
/-- Drawing the challenges of rounds fails only at a zero. -/
theorem roundChallenges_eq_error {rounds : List (G × G)} {t : τ} {e : ArgumentError}
    (h : roundChallenges (F := F) rounds t = .error e) : e = .zeroChallenge := by
  induction rounds generalizing t with
  | nil => cases h
  | cons lr rounds ih =>
    obtain ⟨l, r⟩ := lr
    simp only [roundChallenges] at h
    split at h
    · exact (Except.error.inj h).symm
    · cases hr : roundChallenges (F := F) rounds (Layout.roundChallenge F t l r).2 with
      | error e' =>
        rw [hr] at h
        obtain rfl := Except.error.inj h
        exact ih hr
      | ok out =>
        rw [hr] at h
        cases h

/-- One challenge for each round, none of them zero. -/
theorem roundChallenges_eq_ok {rounds : List (G × G)} {t t' : τ} {us : List F}
    (h : roundChallenges rounds t = .ok (us, t')) :
    us.length = rounds.length ∧ ∀ u ∈ us, u ≠ 0 := by
  induction rounds generalizing t us with
  | nil =>
    cases h
    exact ⟨rfl, fun u hu => absurd hu List.not_mem_nil⟩
  | cons lr rounds ih =>
    obtain ⟨l, r⟩ := lr
    simp only [roundChallenges] at h
    split at h
    · cases h
    · next hu =>
      cases hr : roundChallenges (F := F) rounds (Layout.roundChallenge F t l r).2 with
      | error e =>
        rw [hr] at h
        cases h
      | ok out =>
        rw [hr] at h
        cases h
        obtain ⟨hlen, hne⟩ := ih hr
        refine ⟨by rw [List.length_cons, List.length_cons, hlen], fun v hv => ?_⟩
        rcases List.mem_cons.mp hv with rfl | hv
        · exact fun h0 => hu (beq_iff_eq.mpr h0)
        · exact hne v hv

variable {proof : InnerProductProof F G} {n : ℕ} {t t' : τ} {us : List F}

/-- An argument whose challenges were drawn has as many `L` as `R`, and is about vectors whose
length is the power of two that the count of its rounds says. -/
theorem challenges_eq_ok (h : challenges t proof n = .ok (us, t')) :
    proof.l.length = us.length ∧ proof.r.length = us.length ∧ n = 2 ^ (us.length % 2 ^ 32) ∧
      ∀ u ∈ us, u ≠ 0 := by
  rw [challenges] at h
  split at h
  · next hm =>
    obtain ⟨hlr, -, hn⟩ := roundsMatch_iff.mp hm
    obtain ⟨hlen, hne⟩ := roundChallenges_eq_ok h
    rw [List.length_zip, ← hlr, Nat.min_self] at hlen
    exact ⟨hlen.symm, by rw [← hlr, hlen], by rw [hlen, hn], hne⟩
  · cases h

/-- Where the count is that of the rounds, the length is that of vectors which they halve down to
one entry. -/
theorem length_eq_of_challenges (hk : proof.l.length < 2 ^ 32)
    (h : challenges t proof n = .ok (us, t')) : n = 2 ^ us.length := by
  obtain ⟨hl, -, hn, -⟩ := challenges_eq_ok h
  rwa [Nat.mod_eq_of_lt (hl ▸ hk)] at hn

/-- There can be too many rounds for the length, but never too few. -/
theorem length_le_of_challenges (h : challenges t proof n = .ok (us, t')) :
    n ≤ 2 ^ us.length := by
  obtain ⟨-, -, hn, -⟩ := challenges_eq_ok h
  exact hn.trans_le (Nat.pow_le_pow_right Nat.two_pos (Nat.mod_le ..))

omit [LawfulBEq F] in
/-- An argument is refused here for its shape or for a zero challenge. -/
theorem challenges_eq_error {e : ArgumentError}
    (h : challenges (F := F) t proof n = .error e) : e = .roundLengths ∨ e = .zeroChallenge := by
  rw [challenges] at h
  split at h
  · exact .inr (roundChallenges_eq_error h)
  · exact .inl (Except.error.inj h).symm

omit [LawfulBEq F] in
theorem challenges_ne_fault {f : Fault} : challenges (F := F) t proof n ≠ .error (.fault f) :=
  fun h => by rcases challenges_eq_error h with hf | hf <;> cases hf

omit [LawfulBEq F] in
/-- Where no challenges are drawn the check fails for the same reason. -/
theorem verify_eq_error_of_challenges [One F] [Mul F] [Inv F] [LinearCombination F G] [BEq G]
    {g h : List G} {u : G} {e : ArgumentError} (hgh : g.length = h.length)
    (hc : challenges (F := F) t proof g.length = .error e) : verify t g h u proof = .error e := by
  rw [verify, if_neg (not_not_intro hgh), hc]
  rfl

end Challenges

/-! ### The equation -/

variable [Field F] [AddCommGroup G] [Module F G]

/-- The claim `p` moved by the elements of all rounds, `p + ∑ u² * L + ∑ u⁻² * R`. -/
def movedClaim (us : List F) (l r : List G) (p : G) : G :=
  p + pairing (us.map fun u => u * u) l + pairing (us.map fun u => u⁻¹ * u⁻¹) r

/-- The elements of a round move the claim before those of the rounds after it do. -/
theorem movedClaim_cons (x : F) (us : List F) (l₀ r₀ : G) (l r : List G) (p : G) :
    movedClaim (x :: us) (l₀ :: l) (r₀ :: r) p =
      movedClaim us l r (p + (x * x) • l₀ + (x⁻¹ * x⁻¹) • r₀) := by
  simp only [movedClaim, List.map_cons, pairing_cons]
  abel

/-- The argument opens under the challenges: its two scalars, over the folded generators, make the
moved claim. -/
def Opens (us : List F) (g h : List G) (u : G) (proof : InnerProductProof F G) : Prop :=
  proof.a • pairing (foldWeights (us.map (·⁻¹))) g + proof.b • pairing (foldWeights us) h +
    (proof.a * proof.b) • u = movedClaim us proof.l proof.r proof.p

section

variable [LinearCombination F G] [LawfulLinearCombination F G]

/-- The generators fold as vectors do, and the claim moves by the elements of the rounds. -/
theorem foldClaim_eq {us : List F} {l r : List G} (hl : l.length = us.length)
    (hr : r.length = us.length) (g h : List G) (p : G) :
    foldClaim (us.zip (l.zip r)) g h p =
      (foldAll (us.map (·⁻¹)) g, foldAll us h, movedClaim us l r p) := by
  induction us generalizing l r g h p with
  | nil => simp [foldClaim, foldAll, movedClaim]
  | cons u us ih =>
    obtain ⟨l₀, l, rfl⟩ := List.exists_cons_of_length_eq_add_one hl
    obtain ⟨r₀, r, rfl⟩ := List.exists_cons_of_length_eq_add_one hr
    rw [List.zip_cons_cons, List.zip_cons_cons, foldClaim,
      ih (Nat.succ.inj hl) (Nat.succ.inj hr), foldPoints_eq_fold, foldPoints_inv_eq_fold,
      combine_triple, List.map_cons, foldAll, foldAll]
    have hp : (u * u) • l₀ + (1 : F) • p + (u⁻¹ * u⁻¹) • r₀ =
        p + (u * u) • l₀ + (u⁻¹ * u⁻¹) • r₀ := by
      rw [one_smul, add_comm _ p]
    rw [hp, movedClaim_cons]

variable [BEq F] [LawfulBEq F] [BEq G] [LawfulBEq G] [Encoding G] [WideReduction F] [Transcript τ]
  {proof : InnerProductProof F G} {g h : List G} {u : G} {t t' : τ} {us : List F}

omit [LawfulBEq G] in
/-- With the challenges `us` the check compares one sum of three products with the moved claim. -/
private theorem verify_eq (hk : proof.l.length < 2 ^ 32) (hgh : g.length = h.length)
    (hc : challenges t proof g.length = .ok (us, t')) :
    verify t g h u proof =
      if (combine [(proof.a, pairing (foldWeights (us.map (·⁻¹))) g),
        (proof.b, pairing (foldWeights us) h), (proof.a * proof.b, u)] : G) ==
          movedClaim us proof.l proof.r proof.p then .ok t' else .error .notOpening := by
  obtain ⟨hl, hr, -, -⟩ := challenges_eq_ok hc
  have hn := length_eq_of_challenges hk hc
  have hg : foldAll (us.map (·⁻¹)) g = [pairing (foldWeights (us.map (·⁻¹))) g] :=
    foldAll_eq (by rw [List.length_map, hn])
  have hh : foldAll us h = [pairing (foldWeights us) h] := foldAll_eq (by rw [← hgh, hn])
  have hf := foldClaim_eq hl hr g h proof.p
  rw [hg, hh] at hf
  rw [verify, if_neg (not_not_intro hgh), hc]
  simp only [bind, Except.bind]
  rw [hf]
  rfl

/-- An argument that opens is accepted. -/
theorem verify_eq_ok (hk : proof.l.length < 2 ^ 32) (hgh : g.length = h.length)
    (hc : challenges t proof g.length = .ok (us, t')) (ho : Opens us g h u proof) :
    verify t g h u proof = .ok t' := by
  rw [verify_eq hk hgh hc, combine_triple, if_pos (beq_iff_eq.mpr ho)]

/-- An argument that does not open is refused for that reason. -/
theorem verify_eq_error (hk : proof.l.length < 2 ^ 32) (hgh : g.length = h.length)
    (hc : challenges t proof g.length = .ok (us, t')) (ho : ¬ Opens us g h u proof) :
    verify t g h u proof = .error .notOpening := by
  rw [verify_eq hk hgh hc, combine_triple, if_neg fun h => ho (beq_iff_eq.mp h)]

end

end ConfidentialCoin.InnerProduct
