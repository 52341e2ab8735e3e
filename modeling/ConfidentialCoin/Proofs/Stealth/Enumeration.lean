import ConfidentialCoin.Proofs.Stealth.Search
import Mathlib.Data.List.ReduceOption

/-!
# The candidates are the keys 1, 2, … up to the bound

Candidates are asked for one by one, with others passed over, or of a copy (`Query`). What is
answered is said by a count of the indices that are used up (`Query.count`): the next index is the
one after them, passing over uses up what is passed over, and a copy uses up nothing.

A place in the sequence is what is left after the first so many indices (`Candidates.after`). There
is such a place after the last index too, although its own index is then one past the bound, or 0 if
the bound is the largest index there is (`isDone_after`). A query at a place is a step of the count
(`Query.run_after`), and by induction a sequence of queries is a sequence of such steps
(`runAll_after`).
-/

namespace ConfidentialCoin.Candidates

variable {F G : Type}

/-- What may be asked of the candidates. -/
inductive Query where
  | next
  /-- The candidate after `n` that are passed over. -/
  | nth (n : ℕ)
  /-- The next candidate of a copy. -/
  | peek
deriving DecidableEq

/-! ### Counting -/

namespace Query

/-- Which of the indices 1, …, `bound` a query answers when the first `used` of them are used up,
and how many are used up after it. -/
def count (bound : ℕ) : Query → (used : ℕ) → Option ℕ × ℕ
  | next, used => if used < bound then (some (used + 1), used + 1) else (none, used)
  | nth n, used =>
    if used + n < bound then (some (used + n + 1), used + n + 1) else (none, bound)
  | peek, used => if used < bound then (some (used + 1), used) else (none, used)

/-- What queries answer one after another, and how many indices are used up after them. -/
def countAll (bound : ℕ) : List Query → (used : ℕ) → List (Option ℕ) × ℕ
  | [], used => ([], used)
  | q :: queries, used =>
    let (i, used) := q.count bound used
    let (is, used) := countAll bound queries used
    (i :: is, used)

variable {bound used i : ℕ} {q : Query}

theorem countAll_cons (queries : List Query) :
    countAll bound (q :: queries) used =
      ((q.count bound used).1 :: (countAll bound queries (q.count bound used).2).1,
        (countAll bound queries (q.count bound used).2).2) := rfl

/-- An index is answered that is not used up, and only a query of a copy leaves it unused. -/
theorem count_eq_some (h : (q.count bound used).1 = some i) :
    used < i ∧ i ≤ bound ∧ i ≤ (q.count bound used).2 + 1 ∧
      (q ≠ peek → (q.count bound used).2 = i) := by
  cases q <;> grind [count]

/-- Nothing is answered only where all indices are used up. -/
theorem count_eq_none (hle : used ≤ bound) (h : (q.count bound used).1 = none) :
    (q.count bound used).2 = bound := by
  cases q <;> grind [count]

/-- A query does not go past the bound. -/
theorem count_le (hle : used ≤ bound) : (q.count bound used).2 ≤ bound := by
  cases q <;> grind [count]

theorem le_count (hle : used ≤ bound) : used ≤ (q.count bound used).2 := by
  cases q <;> grind [count]

/-- At the bound nothing is left to find. -/
theorem count_bound : q.count bound bound = (none, bound) := by
  cases q <;> grind [count]

theorem countAll_le (queries : List Query) (hle : used ≤ bound) :
    (countAll bound queries used).2 ≤ bound := by
  induction queries generalizing used with
  | nil => exact hle
  | cons q queries ih => exact ih (count_le hle)

/-- What is answered lies behind what is used up. -/
theorem of_mem_countAll {queries : List Query} (hle : used ≤ bound)
    (hi : some i ∈ (countAll bound queries used).1) : used < i ∧ i ≤ bound := by
  induction queries generalizing used with
  | nil => exact absurd hi List.not_mem_nil
  | cons q queries ih =>
    rcases List.mem_cons.mp hi with hi | hi
    · obtain ⟨hlt, hbound, -⟩ := count_eq_some hi.symm
      exact ⟨hlt, hbound⟩
    · obtain ⟨hlt, hbound⟩ := ih (count_le hle) hi
      exact ⟨(le_count hle).trans_lt hlt, hbound⟩

/-- Where all indices are used up nothing is answered any more. -/
theorem eq_none_of_mem_countAll {queries : List Query} {answer : Option ℕ}
    (ha : answer ∈ (countAll bound queries bound).1) : answer = none := by
  cases answer with
  | none => rfl
  | some i =>
    obtain ⟨hlt, hle⟩ := of_mem_countAll le_rfl ha
    omega

/-- After nothing there is nothing. -/
theorem pairwise_none (queries : List Query) (hle : used ≤ bound) :
    (countAll bound queries used).1.Pairwise fun a a' => a = none → a' = none := by
  induction queries generalizing used with
  | nil => exact .nil
  | cons q queries ih =>
    rw [countAll_cons]
    refine .cons (fun a' ha' ha => ?_) (ih (count_le hle))
    rw [count_eq_none hle ha] at ha'
    exact eq_none_of_mem_countAll ha'

/-- The indices increase, except that those of copies stand for others yet to come. -/
theorem pairwise_lt (queries : List Query) (hle : used ≤ bound) :
    (queries.zip (countAll bound queries used).1).Pairwise fun p p' =>
      ∀ i ∈ p.2, ∀ j ∈ p'.2, i ≤ j ∧ (p.1 ≠ peek → i < j) := by
  induction queries generalizing used with
  | nil => exact .nil
  | cons q queries ih =>
    rw [countAll_cons]
    refine .cons (fun p' hp' i hi j hj => ?_) (ih (count_le hle))
    obtain ⟨-, -, hnext, hmoves⟩ := count_eq_some hi
    obtain ⟨hlt, -⟩ := of_mem_countAll (count_le hle) (hj ▸ (List.of_mem_zip hp').2)
    refine ⟨by omega, fun hq => ?_⟩
    rwa [hmoves hq] at hlt

/-- Asked for the next index again and again, the count goes up to the bound. -/
theorem countAll_replicate_next (m : ℕ) (hle : used ≤ bound) :
    (countAll bound (List.replicate m next) used).1.reduceOption.length =
      min m (bound - used) := by
  induction m generalizing used with
  | zero => rw [Nat.zero_min]; rfl
  | succ m ih =>
    rw [List.replicate_succ, countAll_cons]
    by_cases hlt : used < bound
    · have hcount : next.count bound used = (some (used + 1), used + 1) := if_pos hlt
      simp only [hcount, List.reduceOption_cons_of_some, List.length_cons, ih hlt]
      omega
    · have hcount : next.count bound used = (none, used) := if_neg hlt
      simp only [hcount, List.reduceOption_cons_of_none, ih hle]
      omega

end Query

/-! ### Places -/

/-- The place after the first `used` indices. -/
def after (c : Candidates G) (used : ℕ) : Candidates G := { c with index := (used + 1).toUInt32 }

section Places

variable {c : Candidates G} {used : ℕ} (hle : used ≤ c.maxTries.toNat)
include hle

/-- The index after the largest one is 0, and no other is. -/
theorem index_after :
    (c.after used).index = 0 ∧ used + 1 = 2 ^ 32 ∨
      (c.after used).index ≠ 0 ∧ (c.after used).index.toNat = used + 1 := by
  have hmax := c.maxTries.toNat_lt
  rcases Nat.lt_or_ge (used + 1) UInt32.size with hlt | hge
  · have hindex : (c.after used).index.toNat = used + 1 := UInt32.toNat_ofNat_of_lt' hlt
    refine .inr ⟨fun h0 => ?_, hindex⟩
    rw [h0] at hindex
    exact absurd hindex (Nat.succ_ne_zero used).symm
  · have hused : used + 1 = 2 ^ 32 := le_antisymm (by omega) hge
    refine .inl ⟨?_, hused⟩
    rw [after, hused]
    rfl

/-- A place is the last one where all indices are used up. -/
theorem isDone_after : (c.after used).isDone ↔ used = c.maxTries.toNat := by
  have hmax := c.maxTries.toNat_lt
  rw [isDone, Bool.or_eq_true, beq_iff_eq, decide_eq_true_iff, UInt32.lt_iff_toNat_lt]
  change _ ∨ c.maxTries.toNat < _ ↔ _
  rcases index_after hle with ⟨h0, hused⟩ | ⟨h0, hindex⟩
  · exact iff_of_true (.inl h0) (by omega)
  · rw [hindex, or_iff_right h0]
    omega

/-- **Size.** As many candidates are still to come as there are indices left. -/
theorem remaining_after : (c.after used).remaining = c.maxTries.toNat - used := by
  have hmax := c.maxTries.toNat_lt
  rw [remaining]
  rcases index_after hle with ⟨h0, hused⟩ | ⟨h0, hindex⟩
  · rw [if_pos h0]
    omega
  · rw [if_neg h0, hindex, Nat.add_sub_cancel]
    rfl

/-- Skipping stops at the last candidate. -/
theorem skip_after (n : ℕ) :
    (c.after used).skip n = c.after (min (used + n) c.maxTries.toNat) := by
  have hused : used + 1 + min n (c.maxTries.toNat - used) =
      min (used + n) c.maxTries.toNat + 1 := by omega
  rw [skip, remaining_after hle]
  simp only [after, Nat.toUInt32_eq, ← UInt32.ofNat_add, hused]

end Places

/-! ### Queries -/

section Queries

variable [HashTarget F] [BaseMultiple F G] [Add G] {c : Candidates G} {used : ℕ}

/-- A query to the candidates: its answer, and the place after it. -/
def Query.run (F : Type) [HashTarget F] [BaseMultiple F G] : Query → (c : Candidates G) →
    Option (Candidate G) × Candidates G
  | next, c => c.next F
  | nth n, c => c.skipThenNext F n
  | peek, c => ((c.next F).1, c)

/-- Queries one after another: their answers, and the place after them. -/
def runAll (F : Type) [HashTarget F] [BaseMultiple F G] : List Query → (c : Candidates G) →
    List (Option (Candidate G)) × Candidates G
  | [], c => ([], c)
  | q :: queries, c =>
    let (answer, c) := q.run F c
    let (answers, c) := runAll F queries c
    (answer :: answers, c)

/-- The next candidate, while there is one. -/
theorem next_after (hlt : used < c.maxTries.toNat) :
    (c.after used).next F = (some (c.candidate F (used + 1).toUInt32), c.after (used + 1)) := by
  have hdone : ¬ (c.after used).isDone := fun h => hlt.ne ((isDone_after hlt.le).mp h)
  have hadvance : (c.after used).advance = c.after (used + 1) := by
    simp only [advance, after, Nat.toUInt32_eq, UInt32.ofNat_add (used + 1) 1]
    rfl
  rw [next, if_neg hdone, hadvance]
  rfl

/-- After the last candidate there is none, and it stays so. -/
theorem next_after_all :
    (c.after c.maxTries.toNat).next F = (none, c.after c.maxTries.toNat) :=
  if_pos ((isDone_after le_rfl).mpr rfl)

/-- **Step.** A query at a place answers the candidate with the index that the count answers. -/
theorem Query.run_after (q : Query) (hle : used ≤ c.maxTries.toNat) :
    q.run F (c.after used) =
      ((q.count c.maxTries.toNat used).1.map fun i => c.candidate F i.toUInt32,
        c.after (q.count c.maxTries.toNat used).2) := by
  cases q with
  | next =>
    rcases hle.lt_or_eq with hlt | rfl
    · simp only [run, count, next_after hlt, if_pos hlt, Option.map_some]
    · simp only [run, count_bound, next_after_all, Option.map_none]
  | nth n =>
    rw [run, skipThenNext, skip_after hle]
    by_cases hlt : used + n < c.maxTries.toNat
    · rw [min_eq_left hlt.le, next_after hlt, count, if_pos hlt, Option.map_some]
    · rw [min_eq_right (Nat.le_of_not_lt hlt), next_after_all, count, if_neg hlt, Option.map_none]
  | peek =>
    rcases hle.lt_or_eq with hlt | rfl
    · simp only [run, count, next_after hlt, if_pos hlt, Option.map_some]
    · simp only [run, count_bound, next_after_all, Option.map_none]

/-- **Run.** So do queries one after another. -/
theorem runAll_after (queries : List Query) (hle : used ≤ c.maxTries.toNat) :
    runAll F queries (c.after used) =
      ((Query.countAll c.maxTries.toNat queries used).1.map
        (Option.map fun i => c.candidate F i.toUInt32),
        c.after (Query.countAll c.maxTries.toNat queries used).2) := by
  induction queries generalizing used with
  | nil => rfl
  | cons q queries ih =>
    rw [runAll, q.run_after hle]
    simp only [ih (Query.count_le hle), Query.countAll_cons, List.map_cons]

/-- Passing over candidates is asking for them one by one. -/
theorem iterate_next_after (n : ℕ) (hle : used ≤ c.maxTries.toNat) :
    (fun c => (c.next F).2)^[n] (c.after used) = c.after (min (used + n) c.maxTries.toNat) := by
  induction n with
  | zero => rw [Nat.add_zero, min_eq_left hle, Function.iterate_zero_apply]
  | succ n ih =>
    rw [Function.iterate_succ_apply', ih]
    rcases Nat.lt_or_ge (used + n) c.maxTries.toNat with hlt | hge
    · rw [min_eq_left hlt.le, next_after hlt, ← Nat.add_assoc, min_eq_left hlt]
    · rw [min_eq_right hge, next_after_all, min_eq_right (by omega)]

/-- Skipping `n` and taking the next is taking the next `n + 1` times. -/
theorem skipThenNext_after (n : ℕ) (hle : used ≤ c.maxTries.toNat) :
    (c.after used).skipThenNext F n = ((fun c => (c.next F).2)^[n] (c.after used)).next F := by
  rw [skipThenNext, skip_after hle, iterate_next_after n hle]

/-- Indices do not wrap around below the bound. -/
theorem toNat_index_candidate {i : ℕ} (hi : i ≤ c.maxTries.toNat) :
    (c.candidate F i.toUInt32).index.toNat = i :=
  UInt32.toNat_ofNat_of_lt' (hi.trans_lt c.maxTries.toNat_lt)

variable (queries : List Query) (hle : used ≤ c.maxTries.toNat)
include hle

/-- What is answered lies behind what is used up, and is at most the bound. -/
theorem of_mem_runAll {x : Candidate G} (hx : some x ∈ (runAll F queries (c.after used)).1) :
    used < x.index.toNat ∧ x.index ≤ c.maxTries := by
  rw [runAll_after queries hle] at hx
  obtain ⟨a, ha, hax⟩ := List.mem_map.mp hx
  obtain ⟨i, rfl, rfl⟩ := Option.map_eq_some_iff.mp hax
  obtain ⟨hlt, hbound⟩ := Query.of_mem_countAll hle ha
  rw [UInt32.le_iff_toNat_le, toNat_index_candidate hbound]
  exact ⟨hlt, hbound⟩

/-- The indices increase, except that those of copies stand for others yet to come. -/
theorem pairwise_index_runAll :
    (queries.zip (runAll F queries (c.after used)).1).Pairwise fun p p' =>
      ∀ x ∈ p.2, ∀ y ∈ p'.2, x.index ≤ y.index ∧ (p.1 ≠ .peek → x.index < y.index) := by
  rw [runAll_after queries hle, List.zip_map_right, List.pairwise_map]
  refine (Query.pairwise_lt queries hle).imp_of_mem fun {p p'} hp hp' hlt => ?_
  intro x hx y hy
  obtain ⟨i, hi, rfl⟩ := Option.map_eq_some_iff.mp hx
  obtain ⟨j, hj, rfl⟩ := Option.map_eq_some_iff.mp hy
  have hmem := (List.of_mem_zip hp).2
  have hmem' := (List.of_mem_zip hp').2
  rw [hi] at hmem
  rw [hj] at hmem'
  rw [UInt32.le_iff_toNat_le, UInt32.lt_iff_toNat_lt,
    toNat_index_candidate (Query.of_mem_countAll hle hmem).2,
    toNat_index_candidate (Query.of_mem_countAll hle hmem').2]
  exact hlt i hi j hj

/-- After nothing there is nothing. -/
theorem pairwise_none_runAll :
    (runAll F queries (c.after used)).1.Pairwise fun a a' => a = none → a' = none := by
  rw [runAll_after queries hle, List.pairwise_map]
  refine (Query.pairwise_none queries hle).imp fun {a a'} h ha => ?_
  rw [h (Option.map_eq_none_iff.mp ha), Option.map_none]

/-- The size is the number of candidates that are answered from here. -/
theorem length_runAll_next (m : ℕ) :
    (runAll F (List.replicate m .next) (c.after used)).1.reduceOption.length =
      min m (c.after used).remaining := by
  rw [runAll_after _ hle, List.reduceOption_map, List.length_map,
    Query.countAll_replicate_next m hle, remaining_after hle]

end Queries

/-- **Enumeration.** Whatever sequence of queries is put to the candidates for a shared element, a
spend key and a bound, 0 and the largest index included, it is answered by the count, each index
with its one-time key. So the indices lie between 1 and the bound, and increase: none comes after
itself or a greater one, except that a copy shows what the candidates themselves will answer. Once
nothing is answered, nothing ever is. At every place the remaining candidates are those that are
answered if the next one is asked for as often as one likes, and passing over `n` is asking `n`
times. -/
theorem enumeration_exact [HashTarget F] [BaseMultiple F G] [Add G] [Encoding G] (shared spend : G)
    (maxTries : UInt32) (queries : List Query) :
    let item (i : ℕ) : Candidate G := ⟨i.toUInt32, oneTimeKey F (encode shared) i.toUInt32 spend⟩
    let (indices, used) := Query.countAll maxTries.toNat queries 0
    let (answers, c) := runAll F queries (start shared spend maxTries)
    answers = indices.map (Option.map item) ∧
      (∀ x, some x ∈ answers → 1 ≤ x.index ∧ x.index ≤ maxTries) ∧
      ((queries.zip answers).Pairwise fun p p' =>
        ∀ x ∈ p.2, ∀ y ∈ p'.2, x.index ≤ y.index ∧ (p.1 ≠ .peek → x.index < y.index)) ∧
      (answers.Pairwise fun a a' => a = none → a' = none) ∧
      c.remaining = maxTries.toNat - used ∧
      (∀ m, (runAll F (List.replicate m .next) c).1.reduceOption.length = min m c.remaining) ∧
      ∀ n, c.skipThenNext F n = ((fun c => (c.next F).2)^[n] c).next F := by
  intro item
  let first : Candidates G := start shared spend maxTries
  have hzero : 0 ≤ first.maxTries.toNat := Nat.zero_le _
  have hrun := runAll_after (F := F) queries hzero
  have hused := Query.countAll_le queries hzero
  have hplace : (runAll F queries first).2 =
      first.after (Query.countAll maxTries.toNat queries 0).2 := congrArg Prod.snd hrun
  refine ⟨congrArg Prod.fst hrun, fun x hx => ?_, pairwise_index_runAll queries hzero,
    pairwise_none_runAll queries hzero, ?_, ?_, fun n => ?_⟩
  · obtain ⟨hpos, hmax⟩ := of_mem_runAll queries hzero hx
    exact ⟨UInt32.le_iff_toNat_le.mpr hpos, hmax⟩
  · rw [hplace]
    exact remaining_after hused
  · rw [hplace]
    exact length_runAll_next hused
  · rw [hplace]
    exact skipThenNext_after n hused

open Ristretto in
/-- The largest index there is, reached by passing over all the others, is the last one. -/
example : let c : Candidates Exponent := start basePoint basePoint 4294967295
    (runAll Scalar [.nth 4294967294, .peek, .next] c).1.map (Option.map (·.index)) =
      [some 4294967295, none, none] := by
  decide +kernel

end ConfidentialCoin.Candidates
