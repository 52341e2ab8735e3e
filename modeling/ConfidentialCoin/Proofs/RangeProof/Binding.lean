import ConfidentialCoin.Proofs.InnerProduct.Opening
import ConfidentialCoin.Proofs.RangeProof.Equations
import ConfidentialCoin.Proofs.Ristretto.Exponent
import ConfidentialCoin.Proofs.Transcript.Events

/-!
# What the challenges of a range proof are bound to

`RangeProof.operations` is the record of what checking a proof writes on the transcript and draws
from it, all folding rounds included. A proof of the right shape leaves the events of its parts, one
after the other (`operations_eq`), and both methods of checking it leave this record
(`log_verify`, `log_coefficients`).

Each draw comes after the fields it is meant to bind. Cut at a draw, the record is a list that
begins with the events of the start, and what is behind them is of a fixed length up to the rounds
(`before_y_operations`, `before_x_operations`, `before_u_operations`); so it is read back from the
front, part by part. `RangeProof.operations_binding` says what two proofs have in common whose
records agree up to a draw, and that the responses, which are in no record, are bound by nothing.
-/

namespace ConfidentialCoin

open ConfidentialCoin.Layout TranscriptEvent

variable {F G τ : Type} [Encoding G] [WideReduction F]

namespace InnerProduct

/-! ### Rounds -/

/-- The transcript after the rounds with the given elements, whatever their challenges are. -/
def afterRounds (F : Type) [WideReduction F] [Transcript τ] (rounds : List (G × G)) (t : τ) : τ :=
  rounds.foldl (fun t lr => (roundChallenge F t lr.1 lr.2).2) t

variable [Transcript τ]

theorem log_afterRounds (rounds : List (G × G)) (t : Recorded τ) :
    (afterRounds F rounds t).log = t.log ++ rounds.flatMap roundEvents := by
  induction rounds generalizing t with
  | nil => simp [afterRounds]
  | cons lr rounds ih =>
    have hstep := ih (roundChallenge F t lr.1 lr.2).2
    rw [log_roundChallenge, List.append_assoc] at hstep
    exact hstep

/-- Rounds whose challenges are all drawn leave the transcript there. -/
theorem eq_afterRounds_of_roundChallenges [Zero F] [BEq F] {rounds : List (G × G)} {t t' : τ}
    {us : List F} (h : roundChallenges rounds t = .ok (us, t')) : t' = afterRounds F rounds t := by
  induction rounds generalizing t us with
  | nil =>
    cases h
    rfl
  | cons lr rounds ih =>
    obtain ⟨l, r⟩ := lr
    simp only [roundChallenges] at h
    split at h
    · cases h
    · obtain ⟨out, hout, heq⟩ := bind_eq_ok_iff.mp h
      cases heq
      exact ih hout

/-- Drawing the challenges leaves the transcript that has the rounds in it. -/
theorem eq_afterRounds_of_challenges [Zero F] [BEq F] {proof : InnerProductProof F G} {n : ℕ}
    {t t' : τ} {us : List F} (h : challenges t proof n = .ok (us, t')) :
    t' = afterRounds F (proof.l.zip proof.r) (innerProductDomain t n) := by
  rw [challenges] at h
  split at h
  · exact eq_afterRounds_of_roundChallenges h
  · cases h

end InnerProduct

open ConfidentialCoin.InnerProduct

namespace RangeProof

/-! ### The record -/

/-- A proof has the shape that its number of coins demands. -/
structure HasShape (proof : RangeProof F G) : Prop where
  pos : 0 < proof.commitments.length
  le_maxCoins : proof.commitments.length ≤ maxCoins
  /-- There is an element `L` for each round. -/
  length_l : proof.argument.l.length = roundCount (proofSize proof.commitments.length)
  /-- There is an element `R` for each round. -/
  length_r : proof.argument.r.length = roundCount (proofSize proof.commitments.length)

/-- What checking a proof does to its transcript, in order. -/
def operations (τ : Type) [Transcript τ] (proof : RangeProof F G) (tag : G) :
    List TranscriptEvent :=
  let c : RangeChallenges F (Recorded τ) := .ofProof proof tag
  (afterRounds F (proof.argument.l.zip proof.argument.r)
    (innerProductDomain c.transcript (proofSize proof.commitments.length))).log

variable [Transcript τ] {proof proof' : RangeProof F G} {tag tag' : G}

/-- **The record**, part by part. -/
theorem operations_eq (proof : RangeProof F G) (tag : G) :
    operations τ proof tag =
      startEvents valueBits (slotCount proof.commitments.length) tag proof.commitments ++
        (yzEvents proof.a proof.s ++ (xwEvents proof.t1 proof.t2 ++
          (domainEvents (proofSize proof.commitments.length) ++
            (proof.argument.l.zip proof.argument.r).flatMap roundEvents))) := by
  simp only [operations, RangeChallenges.ofProof, log_afterRounds, log_innerProductDomain,
    log_challengesXW, log_challengesYZ, log_start, List.append_assoc]

section Verifiers

variable [Field F] [BEq F] [BEq G] [SMul F G] [LinearCombination F G] [BasePoint G] [HashTarget G]
  {gens : Generators G} {r : Replay F G (Recorded τ)}

omit [BEq G] [LinearCombination F G] in
/-- The shape is what a verifier looks at first, whatever generators it has. -/
theorem hasShape_iff :
    proof.HasShape ↔
      (Replay.ofProof gens proof tag : Except Rejection (Replay F G τ)) ≠ .error .coinCount ∧
        (Replay.ofProof gens proof tag : Except Rejection (Replay F G τ)) ≠
          .error .roundCount := by
  rw [Replay.ofProof_eq]
  constructor
  · rintro ⟨hpos, hmax, hl, hr⟩
    rw [if_neg (by omega), if_neg (by omega)]
    split_ifs <;> exact ⟨nofun, nofun⟩
  · rintro ⟨hcoins, hrounds⟩
    by_cases hc : proof.commitments.length = 0 ∨ maxCoins < proof.commitments.length
    · rw [if_pos hc] at hcoins
      exact absurd rfl hcoins
    · by_cases hn : proof.argument.l.length ≠ roundCount (proofSize proof.commitments.length) ∨
          proof.argument.r.length ≠ roundCount (proofSize proof.commitments.length)
      · rw [if_neg hc, if_pos hn] at hrounds
        exact absurd rfl hrounds
      · exact ⟨by omega, by omega, by omega, by omega⟩

omit [BEq G] [LinearCombination F G] in
/-- Drawing the challenges of the argument completes the record. -/
private theorem log_challenges (h : Replay.ofProof gens proof tag = .ok r) {us : List F}
    {t : Recorded τ} (hc : challenges r.transcript proof.argument r.n = .ok (us, t)) :
    t.log = operations τ proof tag := by
  obtain ⟨-, -, -, -, -, -, rfl⟩ := Replay.ofProof_eq_ok_iff.mp h
  rw [eq_afterRounds_of_challenges hc]
  rfl

/-- Folding round by round leaves the record. -/
theorem log_verify (h : Replay.ofProof gens proof tag = .ok r) {t : Recorded τ}
    (hv : InnerProduct.verify r.transcript r.params.g (r.params.scaledH r.y) r.u proof.argument =
      .ok t) : t.log = operations τ proof tag := by
  have hn : r.params.g.length = r.n := (Replay.hasSlots_of_ofProof h).capacity_eq
  rw [InnerProduct.verify] at hv
  split at hv
  · cases hv
  · obtain ⟨⟨us, t'⟩, hc, hrest⟩ := bind_eq_ok_iff.mp hv
    rw [hn] at hc
    obtain ⟨g₀, -, hrest⟩ := bind_eq_ok_iff.mp hrest
    obtain ⟨h₀, -, hrest⟩ := bind_eq_ok_iff.mp hrest
    split at hrest
    · cases hrest
      exact log_challenges h hc
    · cases hrest

omit [BEq G] [LinearCombination F G] in
/-- Computing the coefficients of a single sum leaves the record. -/
theorem log_coefficients (h : Replay.ofProof gens proof tag = .ok r) {c : Coefficients F}
    {t : Recorded τ} (hv : coefficients r.transcript proof.argument r.n = .ok (c, t)) :
    t.log = operations τ proof tag := by
  rw [coefficients] at hv
  obtain ⟨⟨us, t'⟩, hc, hrest⟩ := bind_eq_ok_iff.mp hv
  obtain ⟨inv, -, hrest⟩ := bind_eq_ok_iff.mp hrest
  obtain ⟨-, -, hrest⟩ := bind_eq_ok_iff.mp hrest
  obtain ⟨s, -, hrest⟩ := bind_eq_ok_iff.mp hrest
  cases hrest
  exact log_challenges h hc

end Verifiers

/-! ### The record up to a draw -/

omit [WideReduction F] in
/-- Nothing is drawn at the start. -/
private theorem challenge_notMem_startEvents {label : List UInt8} {bits slots : ℕ} {vs : List G} :
    .challenge label ∉ startEvents bits slots tag vs := by
  simp [startEvents, number, point]

/-- Before the first challenge the record has the statement and the first two commitments. -/
theorem before_y_operations :
    before (textBytes "y") 0 (operations τ proof tag) =
      startEvents valueBits (slotCount proof.commitments.length) tag proof.commitments ++
        [point "A" proof.a, point "S" proof.s] := by
  rw [operations_eq, before_append challenge_notMem_startEvents]
  simp [yzEvents, point, before]

/-- Before the challenge `x` the record has the two commitments to the coefficients as well. -/
theorem before_x_operations :
    before (textBytes "x") 0 (operations τ proof tag) =
      startEvents valueBits (slotCount proof.commitments.length) tag proof.commitments ++
        (yzEvents proof.a proof.s ++ [point "T1" proof.t1, point "T2" proof.t2]) := by
  have hyz : .challenge (textBytes "x") ∉ yzEvents proof.a proof.s := by
    have hy : textBytes "x" ≠ textBytes "y" := by decide
    have hz : textBytes "x" ≠ textBytes "z" := by decide
    simp [yzEvents, point, hy, hz]
  rw [operations_eq, before_append challenge_notMem_startEvents, before_append hyz]
  simp [xwEvents, point, before]

/-- Before a folding challenge the record has the elements of all rounds up to this one. -/
theorem before_u_operations (k : ℕ) :
    before (textBytes "u") k (operations τ proof tag) =
      startEvents valueBits (slotCount proof.commitments.length) tag proof.commitments ++
        (yzEvents proof.a proof.s ++ (xwEvents proof.t1 proof.t2 ++
          (domainEvents (proofSize proof.commitments.length) ++
            before (textBytes "u") k
              ((proof.argument.l.zip proof.argument.r).flatMap roundEvents)))) := by
  have hyz : .challenge (textBytes "u") ∉ yzEvents proof.a proof.s := by
    have hy : textBytes "u" ≠ textBytes "y" := by decide
    have hz : textBytes "u" ≠ textBytes "z" := by decide
    simp [yzEvents, point, hy, hz]
  have hxw : .challenge (textBytes "u") ∉ xwEvents proof.t1 proof.t2 := by
    have hx : textBytes "u" ≠ textBytes "x" := by decide
    have hw : textBytes "u" ≠ textBytes "w" := by decide
    simp [xwEvents, point, hx, hw]
  have hdomain :
      .challenge (textBytes "u") ∉ domainEvents (proofSize proof.commitments.length) := by
    simp [domainEvents, number]
  rw [operations_eq, before_append challenge_notMem_startEvents, before_append hyz,
    before_append hxw, before_append hdomain]

/-! ### What is bound -/

/-- The two proofs start alike: they are about the same commitments, and have `A` and `S` in
common. -/
structure SameStart (proof proof' : RangeProof F G) (tag tag' : G) : Prop where
  tag_eq : tag = tag'
  commitments_eq : proof.commitments = proof'.commitments
  slots_eq : slotCount proof.commitments.length = slotCount proof'.commitments.length
  a_eq : proof.a = proof'.a
  s_eq : proof.s = proof'.s

section Binding

variable (hinj : Function.Injective (encode : G → Bytes 32)) (hs : proof.HasShape)
  (hs' : proof'.HasShape)
include hinj hs hs'

omit [WideReduction F] in
/-- Records that begin with the events of a start and of `A` and `S` are read back up to there. -/
private theorem sameStart_of_events {rest rest' : List TranscriptEvent}
    (h : startEvents valueBits (slotCount proof.commitments.length) tag proof.commitments ++
        (point "A" proof.a :: point "S" proof.s :: rest) =
      startEvents valueBits (slotCount proof'.commitments.length) tag' proof'.commitments ++
        (point "A" proof'.a :: point "S" proof'.s :: rest')) :
    SameStart proof proof' tag tag' ∧ rest = rest' := by
  have hsmall {p : RangeProof F G} (hp : p.HasShape) :
      slotCount p.commitments.length < 2 ^ 64 ∧ p.commitments.length < 2 ^ 64 := by
    obtain ⟨e, he, hle⟩ := exists_slotCount_eq p.commitments.length
    have hpow : 2 ^ e < 2 ^ 64 :=
      Nat.pow_lt_pow_right Nat.one_lt_two (Nat.lt_of_le_of_lt (hle hp.le_maxCoins) (by decide))
    exact ⟨he ▸ hpow, (le_slotCount _).trans_lt (he ▸ hpow)⟩
  obtain ⟨hslots, htag, hcommitments, hrest⟩ := startEvents_inj hinj (hsmall hs).1 (hsmall hs').1
    (hsmall hs).2 (hsmall hs').2 h
  simp only [List.cons.injEq] at hrest
  exact ⟨⟨htag, hcommitments, hslots, point_inj hinj hrest.1, point_inj hinj hrest.2.1⟩,
    hrest.2.2⟩

/-- Up to the draw of `y`. -/
private theorem sameStart_of_before_y
    (h : before (textBytes "y") 0 (operations τ proof tag) =
      before (textBytes "y") 0 (operations τ proof' tag')) : SameStart proof proof' tag tag' := by
  rw [before_y_operations, before_y_operations] at h
  exact (sameStart_of_events hinj hs hs' h).1

/-- Up to the draw of `x`. -/
private theorem eq_of_before_x
    (h : before (textBytes "x") 0 (operations τ proof tag) =
      before (textBytes "x") 0 (operations τ proof' tag')) :
    SameStart proof proof' tag tag' ∧ proof.t1 = proof'.t1 ∧ proof.t2 = proof'.t2 := by
  rw [before_x_operations, before_x_operations] at h
  simp only [yzEvents, List.cons_append, List.nil_append] at h
  obtain ⟨hstart, hrest⟩ := sameStart_of_events hinj hs hs' h
  simp only [List.cons.injEq, true_and, and_true] at hrest
  exact ⟨hstart, point_inj hinj hrest.1, point_inj hinj hrest.2⟩

/-- Up to the draw of a round. -/
private theorem eq_of_before_u {k : ℕ} (hk : k < proof.argument.l.length)
    (h : before (textBytes "u") k (operations τ proof tag) =
      before (textBytes "u") k (operations τ proof' tag')) :
    SameStart proof proof' tag tag' ∧ proof.t1 = proof'.t1 ∧ proof.t2 = proof'.t2 ∧
      proof.argument.l.take (k + 1) = proof'.argument.l.take (k + 1) ∧
      proof.argument.r.take (k + 1) = proof'.argument.r.take (k + 1) := by
  rw [before_u_operations, before_u_operations] at h
  simp only [yzEvents, xwEvents, List.cons_append, List.nil_append] at h
  obtain ⟨hstart, hrest⟩ := sameStart_of_events hinj hs hs' h
  simp only [List.cons.injEq, true_and] at hrest
  obtain ⟨ht1, ht2, hrounds⟩ := hrest
  -- The record has the elements in pairs; of a proof of the right shape both lists come back.
  have hzip (p : RangeProof F G) (hp : p.HasShape) :
      (p.argument.l.zip p.argument.r).map (·.1) = p.argument.l ∧
        (p.argument.l.zip p.argument.r).map (·.2) = p.argument.r :=
    ⟨List.map_fst_zip (hp.length_l.trans hp.length_r.symm).le,
      List.map_snd_zip (hp.length_r.trans hp.length_l.symm).le⟩
  have hlength : k < (proof.argument.l.zip proof.argument.r).length := by
    rw [List.length_zip, hs.length_r, ← hs.length_l, Nat.min_self]
    exact hk
  have htake := take_eq_of_before_roundEvents hinj hlength (List.append_inj hrounds rfl).2
  refine ⟨hstart, point_inj hinj ht1, point_inj hinj ht2, ?_, ?_⟩
  · rw [← (hzip proof hs).1, ← (hzip proof' hs').1, ← List.map_take, htake, List.map_take]
  · rw [← (hzip proof hs).2, ← (hzip proof' hs').2, ← List.map_take, htake, List.map_take]

end Binding

/-- **Binding.** Two proofs of the right shape whose records agree up to the draw of `y` start
alike; if they agree up to the draw of `x`, the proofs have `T1` and `T2` in common too; and up to
the draw of a folding challenge, the elements of this round and of all before it. The responses are
bound by no challenge: proofs that differ only in these have one record. It is the record that
either method of checking leaves. -/
theorem operations_binding [Field F] [BEq F] [BEq G] [SMul F G] [LinearCombination F G]
    [BasePoint G] [HashTarget G] (hinj : Function.Injective (encode : G → Bytes 32))
    (hs : proof.HasShape) (hs' : proof'.HasShape) :
    (before (textBytes "y") 0 (operations τ proof tag) =
        before (textBytes "y") 0 (operations τ proof' tag') → SameStart proof proof' tag tag') ∧
      (before (textBytes "x") 0 (operations τ proof tag) =
        before (textBytes "x") 0 (operations τ proof' tag') →
          SameStart proof proof' tag tag' ∧ proof.t1 = proof'.t1 ∧ proof.t2 = proof'.t2) ∧
      (∀ k < proof.argument.l.length,
        before (textBytes "u") k (operations τ proof tag) =
          before (textBytes "u") k (operations τ proof' tag') →
            SameStart proof proof' tag tag' ∧ proof.t1 = proof'.t1 ∧ proof.t2 = proof'.t2 ∧
              proof.argument.l.take (k + 1) = proof'.argument.l.take (k + 1) ∧
              proof.argument.r.take (k + 1) = proof'.argument.r.take (k + 1)) ∧
      (∀ (tauX tHat mu a b : F) (p : G),
        operations τ
            { proof with
              tauX := tauX, tHat := tHat, mu := mu,
              argument := { proof.argument with a := a, b := b, p := p } } tag =
          operations τ proof tag) ∧
      ∀ (gens : Generators G) (r : Replay F G (Recorded τ)), Replay.ofProof gens proof tag = .ok r →
        (∀ t, InnerProduct.verify r.transcript r.params.g (r.params.scaledH r.y) r.u
            proof.argument = .ok t → t.log = operations τ proof tag) ∧
          ∀ c t, coefficients r.transcript proof.argument r.n = .ok (c, t) →
            t.log = operations τ proof tag := by
  refine ⟨sameStart_of_before_y hinj hs hs', eq_of_before_x hinj hs hs',
    fun k hk => eq_of_before_u hinj hs hs' hk, fun tauX tHat mu a b p => ?_, fun gens r hr =>
    ⟨fun t => log_verify hr, fun c t => log_coefficients hr⟩⟩
  rw [operations_eq, operations_eq]

open Ristretto in
/-- Two proofs that nobody made and that differ in the second element `L`: their records agree up to
the first folding challenge, and differ up to the second. -/
theorem operations_binding_exponent :
    let forged : RangeProof Scalar Exponent :=
      ⟨[basePoint], 0, 0, 0, 0, 0, 0, 0, ⟨List.replicate 6 0, List.replicate 6 0, 0, 0, 0⟩⟩
    let altered : RangeProof Scalar Exponent :=
      ⟨[basePoint], 0, 0, 0, 0, 1, 1, 1,
        ⟨0 :: basePoint :: List.replicate 4 0, List.replicate 6 0, 1, 1, basePoint⟩⟩
    before (textBytes "u") 0 (operations Checksum forged basePoint) =
        before (textBytes "u") 0 (operations Checksum altered basePoint) ∧
      SameStart forged altered basePoint basePoint ∧
      before (textBytes "u") 1 (operations Checksum forged basePoint) ≠
        before (textBytes "u") 1 (operations Checksum altered basePoint) := by
  intro forged altered
  have hinj : Function.Injective (encode : Exponent → Bytes 32) := LawfulEncoding.encode_injective
  have hforged : forged.HasShape := ⟨by decide, by decide, by decide, by decide⟩
  have haltered : altered.HasShape := ⟨by decide, by decide, by decide, by decide⟩
  have hrounds (k : ℕ) (hk : k < 6)
      (h : before (textBytes "u") k (operations Checksum forged basePoint) =
        before (textBytes "u") k (operations Checksum altered basePoint)) :=
    (operations_binding hinj hforged haltered).2.2.1 k hk h
  have hagree : before (textBytes "u") 0 (operations Checksum forged basePoint) =
      before (textBytes "u") 0 (operations Checksum altered basePoint) := by
    decide +kernel
  refine ⟨hagree, (hrounds 0 (by decide) hagree).1, fun h => ?_⟩
  have hl := (hrounds 1 (by decide) h).2.2.2.1
  exact absurd hl (by decide)

end RangeProof

end ConfidentialCoin
