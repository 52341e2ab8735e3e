import ConfidentialCoin.Proofs.Ristretto.Exponent
import ConfidentialCoin.Proofs.Stealth.Receiver
import ConfidentialCoin.Stealth.Search
import Mathlib.Order.Bounds.Basic

/-!
# The search is exact

A sender looks through the candidates one by one for the first in a bucket. Two facts make the
search exact.

* **The indices** (`Candidates.Ahead`): those still to come are the index at which the search stands
  and those ahead of the next place (`ahead_iff`). That holds at the largest index too, after which
  the place wraps around and nothing is ahead. By induction on the search it ends at the least index
  with a property (`find_isLeast`), or there is none (`find_eq_none`).
* **The bucket**: a key is reported with the shards of its bucket (`Bucket.shardsOfByte_of_ofKey`),
  so no key lies in a bucket of a ninth shard (`Bucket.sender_lt_of_ofKey`).

`Receiver.derive_isLeast` is the statement about every request, bound and random source.
-/

namespace ConfidentialCoin

variable {F G : Type}

/-! ### The least index -/

namespace Candidates

/-- Index `i` is still to come. -/
def Ahead (c : Candidates G) (i : UInt32) : Prop := c.index ≠ 0 ∧ c.index ≤ i ∧ i ≤ c.maxTries

/-- Nothing is ahead of a search that is done. -/
theorem not_ahead_of_isDone {c : Candidates G} (h : c.isDone) (i : UInt32) : ¬ c.Ahead i := by
  rintro ⟨h0, hi, hmax⟩
  simp only [isDone, Bool.or_eq_true, beq_iff_eq, decide_eq_true_eq] at h
  grind

/-- **Step.** Still to come are the index at this place and what is ahead of the next one. -/
theorem ahead_iff {c : Candidates G} (h : ¬ c.isDone) {i : UInt32} :
    c.Ahead i ↔ i = c.index ∨ c.advance.Ahead i := by
  simp only [isDone, Bool.or_eq_true, beq_iff_eq, decide_eq_true_eq] at h
  simp only [Ahead, advance]
  constructor
  · rintro ⟨h0, hi, hmax⟩
    -- An index past this one is no less than the next, which therefore has not wrapped around.
    grind
  · rintro (rfl | ⟨h0, hi, hmax⟩) <;> grind

/-- At the start all indices up to the bound are ahead. -/
theorem ahead_start [Encoding G] {shared spend : G} {maxTries i : UInt32} :
    (start shared spend maxTries).Ahead i ↔ 1 ≤ i ∧ i ≤ maxTries :=
  and_iff_right (by decide : (1 : UInt32) ≠ 0)

section

variable [HashTarget F] [BaseMultiple F G] [Add G]

/-- The candidate with the given index. -/
def candidate (F : Type) [HashTarget F] [BaseMultiple F G] (c : Candidates G) (i : UInt32) :
    Candidate G :=
  ⟨i, oneTimeKey F c.shared i c.spend⟩

variable {p : Candidate G → Bool} {c : Candidates G}

/-- **Found.** The search ends at the candidate of the least index with the property. -/
theorem find_isLeast {found : Candidate G} (h : c.find F p = some found) :
    IsLeast {i | c.Ahead i ∧ p (c.candidate F i)} found.index ∧
      found = c.candidate F found.index := by
  fun_induction find F p c with
  | case1 c hdone => cases h
  | case2 c hdone _ candidate hp =>
    obtain rfl := Option.some.inj h
    refine ⟨⟨⟨(ahead_iff hdone).mpr (.inl rfl), hp⟩, ?_⟩, rfl⟩
    rintro i ⟨⟨-, hle, -⟩, -⟩
    exact hle
  | case3 c hdone _ candidate hp ih =>
    obtain ⟨⟨⟨hahead, hfound⟩, hleast⟩, hcandidate⟩ := ih h
    refine ⟨⟨⟨(ahead_iff hdone).mpr (.inr hahead), hfound⟩, ?_⟩, hcandidate⟩
    rintro i ⟨hi, hpi⟩
    rcases (ahead_iff hdone).mp hi with rfl | hi
    · exact absurd hpi hp
    · exact hleast ⟨hi, hpi⟩

/-- **Not found.** No candidate still to come has the property. -/
theorem find_eq_none (h : c.find F p = none) (i : UInt32) (hi : c.Ahead i) :
    ¬ p (c.candidate F i) := by
  fun_induction find F p c with
  | case1 c hdone => exact absurd hi (not_ahead_of_isDone hdone i)
  | case2 c hdone _ candidate hp => cases h
  | case3 c hdone _ candidate hp ih =>
    rcases (ahead_iff hdone).mp hi with rfl | hi
    · exact hp
    · exact ih h hi

end

end Candidates

/-! ### The bucket of a key -/

namespace Bucket

variable [Encoding G] {key : G} {b : Bucket}

/-- The shards of a key that has a bucket are those of the bucket. -/
theorem shardsOfByte_of_ofKey (h : ofKey key = .ok b) :
    shardsOfByte (encode key).last = (b.sender, b.receiver) := by
  obtain ⟨privacyType, -, h⟩ := bind_eq_ok_iff.mp h
  cases h
  rfl

/-- The sender of a key is a shard. -/
theorem sender_lt_of_ofKey (h : ofKey key = .ok b) : b.sender < shardCount := by
  obtain ⟨privacyType, -, h⟩ := bind_eq_ok_iff.mp h
  cases h
  exact UInt8.mod_lt _ (by decide)

end Bucket

/-! ### The search for a request -/

section

variable [HashTarget F] [Encoding G] [Add G] [SMul F G] [BaseMultiple F G]

namespace ReceiverRequest

/-- The one-time key number `i` for a request, from the scalar `r`. -/
def key (q : ReceiverRequest G) (r : F) (i : UInt32) : G :=
  oneTimeKey F (encode (r • q.address.derive)) i q.address.spend

/-- The indices up to the bound whose keys lie in the bucket asked for. -/
def hits (config : SearchConfig) (q : ReceiverRequest G) (r : F) : Set UInt32 :=
  {i | 1 ≤ i ∧ i ≤ config.maxTries ∧ Bucket.ofKey (q.key r i) = .ok q.target}

end ReceiverRequest

namespace Receiver

variable {config : SearchConfig} {q : ReceiverRequest G} {r c : F}

omit [HashTarget F] [Add G] [SMul F G] [BaseMultiple F G] in
/-- A key whose bucket cannot be told is in no target. -/
private theorem inTarget_iff {key : G} {target : Bucket} :
    (match Bucket.ofKey key with
      | .ok bucket => bucket == target
      | .error _ => false) = true ↔ Bucket.ofKey key = .ok target := by
  rcases Bucket.ofKey key with e | bucket <;> simp

/-- The hits are the candidates that the search looks for. -/
private theorem hits_eq :
    q.hits config r = {i |
      (Candidates.start (r • q.address.derive) q.address.spend config.maxTries).Ahead i ∧
        (match Bucket.ofKey (q.key r i) with
          | .ok bucket => bucket == q.target
          | .error _ => false) = true} := by
  ext i
  rw [ReceiverRequest.hits, Set.mem_ofPred_eq, Set.mem_ofPred_eq, Candidates.ahead_start,
    inTarget_iff, and_assoc]

/-- What is searched for and found is the key of the least hit, published next to its index and the
multiples of the base point by the scalars that were drawn. -/
theorem search_eq_ok {receiver : Receiver G} (h : search config q r c = .ok receiver) :
    ∃ i, IsLeast (q.hits config r) i ∧
      receiver = ⟨q.key r i, .ofFields (mulBase r : G) (mulBase c) i⟩ := by
  simp only [search] at h
  split at h
  · next found hfound =>
    obtain ⟨hleast, hcandidate⟩ := Candidates.find_isLeast hfound
    cases h
    have hkey : found.key = q.key r found.index := congrArg Candidate.key hcandidate
    refine ⟨found.index, ?_, by rw [hkey]⟩
    rw [hits_eq]
    exact hleast
  · cases h

/-- A search fails for one reason only. -/
theorem search_eq_error {e : ProverError} (h : search config q r c = .error e) :
    e = .exhaustedRetries config.maxTries ∧ q.hits config r = ∅ := by
  simp only [search] at h
  split at h
  · cases h
  · next hnone =>
    cases h
    refine ⟨rfl, ?_⟩
    rw [hits_eq, Set.eq_empty_iff_forall_notMem]
    rintro i ⟨hi, hp⟩
    exact Candidates.find_eq_none hnone i hi hp

variable [Zero F] [WideReduction F]

/-- The scalars of the search are the first that are drawn; without concealment the second is 0. -/
theorem derive_fst {source : RandomSource} :
    (derive F config q source).1 =
      search config q (reduce (source.peek 64) : F)
        (if q.conceal then reduce ((source.skip 64).peek 64) else 0) := by
  change search config q (drawSecrets q.conceal source).1.1 (drawSecrets q.conceal source).1.2 = _
  generalize q.conceal = conceal
  cases conceal <;> rfl

end Receiver

end

/-! ### Deriving a receiver -/

namespace Receiver

variable [Field F] [AddCommGroup G] [Module F G] [BasePoint G] [BaseMultiple F G]
  [LawfulBaseMultiple F G] [Encoding G] [HashTarget F] [WideReduction F]

/-- **Exactness.** A receiver is derived exactly if there is a hit: an index up to the bound whose
key `hash (r * K, i) * B + S` lies in the bucket of the target. It is that of the least hit, and it
holds the key, the index and the multiples of the base point by `r` and `c`. If there is no hit, as
for a sender in a ninth shard, the bound is reported. -/
theorem derive_isLeast (config : SearchConfig) (q : ReceiverRequest G) (source : RandomSource) :
    let r : F := reduce (source.peek 64)
    let c : F := if q.conceal then reduce ((source.skip 64).peek 64) else 0
    let key (i : UInt32) : G :=
      (hashTo ((encode (r • q.address.derive)).toList ++ bigEndian 4 i.toNat) : F) • basePoint +
        q.address.spend
    let target : Bucket := ⟨q.sender.getD q.address.shard, q.address.shard, q.privacyType⟩
    let hits : Set UInt32 :=
      {i | 1 ≤ i ∧ i ≤ config.maxTries ∧ Bucket.ofKey (key i) = .ok target}
    let answer := (derive F config q source).1
    ((∃ receiver, answer = .ok receiver) ↔ hits.Nonempty) ∧
      (∀ receiver, answer = .ok receiver → ∃ i, IsLeast hits i ∧ receiver.key = key i ∧
        receiver.txRandom.otaSlot = encode (r • basePoint : G) ∧ receiver.txRandom.index = i ∧
        receiver.txRandom.concealSlot = encode (c • basePoint : G) ∧
        receiver.bucket = .ok target ∧ receiver.shards = (target.sender, target.receiver)) ∧
      (¬ hits.Nonempty → answer = .error (.exhaustedRetries config.maxTries)) ∧
      (q.conceal = false → c • basePoint = (0 : G)) ∧
      (8 ≤ target.sender ∨ config.maxTries = 0 →
        answer = .error (.exhaustedRetries config.maxTries)) := by
  intro r c key target hits answer
  have hkey (i : UInt32) : q.key r i = key i := by
    rw [ReceiverRequest.key, oneTimeKey, LawfulBaseMultiple.mulBase_eq]
    rfl
  have hhits : q.hits config r = hits := by
    ext i
    rw [ReceiverRequest.hits, Set.mem_ofPred_eq, hkey]
    rfl
  have hanswer : answer = search config q r c := derive_fst
  -- The search ends with a hit or with the bound; without hits only the second is left.
  have hexhausted (hnone : ¬ hits.Nonempty) :
      answer = .error (.exhaustedRetries config.maxTries) := by
    rw [hanswer]
    rcases hsearch : search config q r c with e | receiver
    · rw [(search_eq_error hsearch).1]
    · obtain ⟨i, hleast, -⟩ := search_eq_ok hsearch
      exact absurd ⟨i, hhits ▸ hleast.1⟩ hnone
  refine ⟨⟨?_, ?_⟩, ?_, hexhausted, ?_, ?_⟩
  · rintro ⟨receiver, hreceiver⟩
    obtain ⟨i, hleast, -⟩ := search_eq_ok (hanswer.symm.trans hreceiver)
    exact ⟨i, hhits ▸ hleast.1⟩
  · rintro ⟨i, hi⟩
    rw [hanswer]
    rcases hsearch : search config q r c with e | receiver
    · rw [← hhits, (search_eq_error hsearch).2] at hi
      exact absurd hi (Set.notMem_empty i)
    · exact ⟨receiver, rfl⟩
  · intro receiver hreceiver
    obtain ⟨i, hleast, rfl⟩ := search_eq_ok (hanswer.symm.trans hreceiver)
    rw [hhits] at hleast
    have hbucket : Bucket.ofKey (key i) = .ok target := hleast.1.2.2
    rw [hkey, LawfulBaseMultiple.mulBase_eq, LawfulBaseMultiple.mulBase_eq]
    exact ⟨i, hleast, rfl, TxRandom.otaSlot_ofSlots .., TxRandom.index_ofFields ..,
      TxRandom.concealSlot_ofSlots .., hbucket, Bucket.shardsOfByte_of_ofKey hbucket⟩
  · intro hconceal
    simp only [c, hconceal, Bool.false_eq_true, if_false, zero_smul]
  · intro hnever
    refine hexhausted ?_
    rintro ⟨i, hone, hmax, hbucket⟩
    rcases hnever with hsender | hzero
    · exact absurd (Bucket.sender_lt_of_ofKey hbucket) (UInt8.not_lt.mpr hsender)
    · rw [hzero] at hmax
      exact absurd (UInt32.le_trans hone hmax) (by decide)

open Ristretto in
/-- A search that passes over a candidate, and one for a bucket that there is not. -/
theorem derive_isLeast_exponent :
    let q : ReceiverRequest Exponent :=
      ⟨.ofSecrets (3 : Scalar) (5 : Scalar), some 1, .transfer, false⟩
    (∃ receiver, (derive Scalar ⟨3⟩ q (.splitMix 66)).1 = .ok receiver ∧
      receiver.txRandom.index = 2 ∧ receiver.bucket = .ok ⟨1, 0, .transfer⟩ ∧
      receiver.shards = (1, 0)) ∧
    (derive Scalar ⟨50000⟩ { q with sender := some 8 } (.splitMix 66)).1 =
      .error (.exhaustedRetries 50000) := by
  intro q
  have hindex : (derive Scalar ⟨3⟩ q (.splitMix 66)).1.toOption.map (·.txRandom.index) =
      some 2 := by decide +kernel
  have hshard : q.address.shard = 0 := by decide +kernel
  obtain ⟨-, hfound, -⟩ := derive_isLeast (F := Scalar) ⟨3⟩ q (.splitMix 66)
  obtain ⟨-, -, -, -, hnever⟩ :=
    derive_isLeast (F := Scalar) ⟨50000⟩ { q with sender := some 8 } (.splitMix 66)
  refine ⟨?_, hnever (.inl (by decide))⟩
  rcases h : (derive Scalar ⟨3⟩ q (.splitMix 66)).1 with e | receiver
  · rw [h] at hindex
    cases hindex
  · rw [h] at hindex
    obtain ⟨-, -, -, -, -, -, hbucket, hshards⟩ := hfound receiver h
    rw [hshard] at hbucket hshards
    exact ⟨receiver, rfl, Option.some.inj hindex, hbucket, hshards⟩

end Receiver

end ConfidentialCoin
