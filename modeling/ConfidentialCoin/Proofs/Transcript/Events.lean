import ConfidentialCoin.Transcript.Layout
import Mathlib.Algebra.Ring.Nat
import Mathlib.Data.List.Basic

/-!
# The record of a range proof

Each block of operations of the layout is a list of events, which it appends to the record whatever
the transcript answers (`Layout.log_start` and the lemmas after it). A list of events can be cut at
a draw (`TranscriptEvent.before`), and what stands before the cut is read back field by field:

* a number below `2 ^ 64` and a group element determine the events that write them, and are
  determined by them (`Layout.number_inj`, `Layout.point_inj`);
* the commitments are preceded by their number, so the events of the start determine them and what
  follows (`Layout.startEvents_inj`);
* what stands before the draw of a round determines the elements of this round and of all rounds
  before it (`Layout.take_eq_of_before_roundEvents`, by induction on the rounds).
-/

namespace ConfidentialCoin

variable {F G τ : Type}

/-- What can be decoded is encoded without collisions. -/
theorem LawfulEncoding.encode_injective [Encoding G] [LawfulEncoding G] :
    Function.Injective (encode : G → Bytes 32) := fun p q h => by
  have hdecode := congrArg (decode? (α := G)) h
  rwa [decode?_encode, decode?_encode, Option.some.injEq] at hdecode

/-! ### Cutting a record -/

namespace TranscriptEvent

/-- What comes before the draw number `k`, from 0 on, of a challenge with the given label. -/
def before (label : List UInt8) : (k : ℕ) → (events : List TranscriptEvent) →
    List TranscriptEvent
  | _, [] => []
  | k, e :: events =>
    if e = .challenge label then
      match k with
      | 0 => []
      | k + 1 => e :: before label k events
    else e :: before label k events

variable {label : List UInt8} {k : ℕ} {e : TranscriptEvent} {events : List TranscriptEvent}

theorem before_cons_of_ne (h : e ≠ .challenge label) :
    before label k (e :: events) = e :: before label k events := by
  cases k <;> exact if_neg h

/-- Events among which there is no such draw all stand before it. -/
theorem before_append {events' : List TranscriptEvent} (h : .challenge label ∉ events) :
    before label k (events ++ events') = events ++ before label k events' := by
  induction events with
  | nil => rfl
  | cons e events ih =>
    obtain ⟨he, hevents⟩ := not_or.mp (mt List.mem_cons.mpr h)
    rw [List.cons_append, before_cons_of_ne (Ne.symm he), ih hevents, List.cons_append]

end TranscriptEvent

namespace Layout

open TranscriptEvent

/-! ### Events -/

/-- A number is appended. -/
def number (label : String) (n : ℕ) : TranscriptEvent :=
  .append (textBytes label) (littleEndian 8 n)

/-- A number of 64 bits is known from its message. -/
theorem number_inj {label : String} {m n : ℕ} (hm : m < 2 ^ 64) (hn : n < 2 ^ 64)
    (h : number label m = number label n) : m = n := by
  have hread (k : ℕ) (hk : k < 2 ^ 64) : ofLittleEndian (littleEndian 8 k) = k :=
    (ofLittleEndian_littleEndian 8 k).trans (Nat.mod_eq_of_lt hk)
  injection h with _ hbytes
  rw [← hread m hm, hbytes, hread n hn]

section

variable [Encoding G]

/-- A group element is appended. -/
def point (label : String) (p : G) : TranscriptEvent := .append (textBytes label) (encode p).toList

/-- The start of a proof. -/
def startEvents (bits slots : ℕ) (tag : G) (commitments : List G) : List TranscriptEvent :=
  [.append (textBytes "proto") (textBytes "v2"),
    .append (textBytes "dom-sep") (textBytes "aggregated-rangeproof"), number "n" bits,
    number "m" slots, point "asset_tag" tag, number "num_value" commitments.length] ++
  commitments.map (point "V")

/-- `A` and `S` are appended, and `y` and `z` drawn. -/
def yzEvents (a s : G) : List TranscriptEvent :=
  [point "A" a, point "S" s, .challenge (textBytes "y"), .challenge (textBytes "z")]

/-- `T1` and `T2` are appended, and `x` and `w` drawn. -/
def xwEvents (t1 t2 : G) : List TranscriptEvent :=
  [point "T1" t1, point "T2" t2, .challenge (textBytes "x"), .challenge (textBytes "w")]

/-- The start of the argument. -/
def domainEvents (n : ℕ) : List TranscriptEvent :=
  [.append (textBytes "dom-sep") (textBytes "inner-product"), number "n" n]

/-- The two elements of a folding round are appended, and its challenge drawn. -/
def roundEvents (lr : G × G) : List TranscriptEvent :=
  [point "L" lr.1, point "R" lr.2, .challenge (textBytes "u")]

/-! ### What the operations record -/

variable [Transcript τ]

/-- What the start of a proof writes. -/
theorem log_start (bits slots : ℕ) (tag : G) (commitments : List G) :
    (start bits slots tag commitments : Recorded τ).log =
      startEvents bits slots tag commitments := by
  have hfold (t : Recorded τ) :
      (commitments.foldl (fun t v => appendPoint t (textBytes "V") v) t).log =
        t.log ++ commitments.map (point "V") := by
    induction commitments generalizing t with
    | nil => simp
    | cons v vs ih =>
      rw [List.foldl_cons, ih, List.map_cons, List.append_cons]
      rfl
  exact hfold _

variable [WideReduction F] (t : Recorded τ)

theorem log_challengesYZ (a s : G) : (challengesYZ F t a s).2.log = t.log ++ yzEvents a s := by
  simp [challengesYZ, challengeScalar, appendPoint, yzEvents, point]

theorem log_challengesXW (t1 t2 : G) :
    (challengesXW F t t1 t2).2.log = t.log ++ xwEvents t1 t2 := by
  simp [challengesXW, challengeScalar, appendPoint, xwEvents, point]

omit [Encoding G] [WideReduction F] in
theorem log_innerProductDomain (n : ℕ) :
    (innerProductDomain t n).log = t.log ++ domainEvents n := by
  simp [innerProductDomain, appendNumber, domainEvents, number]

/-- What a round writes and draws. -/
theorem log_roundChallenge (l r : G) :
    (roundChallenge F t l r).2.log = t.log ++ roundEvents (l, r) := by
  simp [roundChallenge, challengeScalar, appendPoint, roundEvents, point]

end

/-! ### Reading a record back -/

section

variable [Encoding G]

/-- Before the first folding challenge are the elements of the first round only. -/
private theorem before_zero_roundEvents (lr : G × G) (rounds : List (G × G)) :
    before (textBytes "u") 0 ((lr :: rounds).flatMap roundEvents) =
      [point "L" lr.1, point "R" lr.2] := by
  simp [roundEvents, point, before]

/-- Before a later folding challenge is all of the first round. -/
private theorem before_succ_roundEvents (lr : G × G) (rounds : List (G × G)) (k : ℕ) :
    before (textBytes "u") (k + 1) ((lr :: rounds).flatMap roundEvents) =
      roundEvents lr ++ before (textBytes "u") k (rounds.flatMap roundEvents) := by
  simp [roundEvents, point, before]

variable (hinj : Function.Injective (encode : G → Bytes 32))
include hinj

/-- A group element is known from its message. -/
theorem point_inj {label : String} {p q : G} (h : point label p = point label q) : p = q := by
  injection h with _ hbytes
  exact hinj (Bytes.ext hbytes)

/-- **The start** determines the slots, the tag, the commitments and what follows. -/
theorem startEvents_inj {bits m m' : ℕ} {tag tag' : G} {vs vs' : List G}
    {rest rest' : List TranscriptEvent} (hm : m < 2 ^ 64) (hm' : m' < 2 ^ 64)
    (hvs : vs.length < 2 ^ 64) (hvs' : vs'.length < 2 ^ 64)
    (h : startEvents bits m tag vs ++ rest = startEvents bits m' tag' vs' ++ rest') :
    m = m' ∧ tag = tag' ∧ vs = vs' ∧ rest = rest' := by
  simp only [startEvents, List.cons_append, List.nil_append, List.cons.injEq, true_and] at h
  obtain ⟨hslots, htag, hlength, hevents⟩ := h
  have hlength := number_inj hvs hvs' hlength
  -- There are as many commitments on both sides, so they end in the same place.
  have hmapped : (vs.map (point "V")).length = (vs'.map (point "V")).length := by
    rw [List.length_map, List.length_map, hlength]
  obtain ⟨hmap, hrest⟩ := List.append_inj hevents hmapped
  exact ⟨number_inj hm hm' hslots, point_inj hinj htag,
    List.map_injective_iff.mpr (fun _ _ => point_inj hinj) hmap, hrest⟩

/-- **The rounds**, up to the one whose draw follows, are determined. -/
theorem take_eq_of_before_roundEvents {rounds rounds' : List (G × G)} {k : ℕ}
    (hk : k < rounds.length)
    (h : before (textBytes "u") k (rounds.flatMap roundEvents) =
      before (textBytes "u") k (rounds'.flatMap roundEvents)) :
    rounds.take (k + 1) = rounds'.take (k + 1) := by
  -- Each round before the draw is split off both records; its two elements are known from the
  -- messages that begin them.
  induction k generalizing rounds rounds' with
  | zero =>
    obtain ⟨lr, rounds, rfl⟩ := List.exists_cons_of_ne_nil (List.ne_nil_of_length_pos hk)
    cases rounds' with
    | nil =>
      rw [before_zero_roundEvents] at h
      cases h
    | cons lr' rounds' =>
      rw [before_zero_roundEvents, before_zero_roundEvents] at h
      simp only [List.cons.injEq, and_true] at h
      rw [List.take_succ_cons, List.take_succ_cons,
        Prod.ext (point_inj hinj h.1) (point_inj hinj h.2)]
      rfl
  | succ k ih =>
    obtain ⟨lr, rounds, rfl⟩ :=
      List.exists_cons_of_ne_nil (List.ne_nil_of_length_pos (Nat.zero_lt_of_lt hk))
    cases rounds' with
    | nil =>
      rw [before_succ_roundEvents] at h
      cases h
    | cons lr' rounds' =>
      rw [before_succ_roundEvents, before_succ_roundEvents] at h
      obtain ⟨hround, hrest⟩ := List.append_inj h rfl
      simp only [roundEvents, List.cons.injEq, and_true] at hround
      rw [List.take_succ_cons, List.take_succ_cons, ih (Nat.lt_of_succ_lt_succ hk) hrest,
        Prod.ext (point_inj hinj hround.1) (point_inj hinj hround.2)]

end

end Layout

end ConfidentialCoin
