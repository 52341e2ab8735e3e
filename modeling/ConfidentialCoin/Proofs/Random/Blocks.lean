import ConfidentialCoin.Proofs.RangeProof.Drawing
import ConfidentialCoin.Ristretto.Instances
import ConfidentialCoin.Stealth.Search

/-!
# No byte is drawn twice

A random source is read in blocks of 64 bytes, each of which makes one scalar (`RandomSource.block`,
`RandomSource.scalars_skip`). Three calls draw: blinding the values of a witness, making a proof and
deriving a receiver. How many scalars a call draws is known before it runs (`Call.draws`), and its
answer, good or bad, is a function of these scalars in the order in which they are drawn
(`Call.answer`); that is the step, `Call.run_eq`.

By induction over the calls, any sequence of them on one source is the sequence of their answers,
each on scalars of its own: the blocks of a call begin where those of the call before it end
(`blocks`, `runAll_skip`). So the blocks of all calls together are the first blocks of the source,
each of them once (`flatten_blocks`), and no byte of the source lies in two of them
(`RandomSource.flatMap_block`).
-/

namespace ConfidentialCoin

variable {F G τ : Type}

/-! ### Blocks -/

namespace RandomSource

/-- The bytes that the scalar number `n`, from 0 on, is made of. -/
def block (source : RandomSource) (n : ℕ) : Bytes 64 := (source.skip (64 * n)).peek 64

/-- The scalar number `n` of a source, from 0 on. -/
def scalarAt (F : Type) [WideReduction F] (source : RandomSource) (n : ℕ) : F :=
  reduce (source.block n)

/-- Skipping adds up. -/
theorem skip_skip (source : RandomSource) (m n : ℕ) :
    (source.skip m).skip n = source.skip (m + n) := by
  rw [skip, skip, skip, Nat.add_assoc]

/-- The blocks of a source fill it from its position on. -/
theorem flatMap_block (source : RandomSource) (n : ℕ) :
    ((List.range n).flatMap fun i => (source.block i).toList) = (source.peek (64 * n)).toList := by
  induction n with
  | zero => rfl
  | succ n ih =>
    have hlast (i : ℕ) : source.position + 64 * n + i = source.position + (64 * n + i) :=
      Nat.add_assoc ..
    rw [List.range_succ, List.flatMap_append, ih, List.flatMap_singleton, Nat.mul_succ]
    simp only [block, peek, skip, List.range_add, List.map_append, List.map_map, hlast]
    rfl

section

variable [WideReduction F]

/-- Scalars drawn in a row are the scalars of blocks in a row. -/
theorem scalars_skip (source : RandomSource) (m n : ℕ) :
    (source.skip (64 * m)).scalars n =
      ((List.range' m n).map (source.scalarAt F), source.skip (64 * (m + n))) := by
  induction n generalizing m with
  | zero => rfl
  | succ n ih =>
    have hnext : (source.skip (64 * m)).scalar =
        (source.scalarAt F m, source.skip (64 * (m + 1))) := by
      rw [scalar, skip_skip, Nat.mul_succ]
      rfl
    have hcount : m + 1 + n = m + (n + 1) := by omega
    rw [scalars, hnext]
    simp only [ih, List.range'_succ, List.map_cons, hcount]

theorem scalars_one {source s : RandomSource} {x : F} (h : source.scalar = (x, s)) :
    source.scalars 1 = ([x], s) := by
  rw [scalars, h]
  rfl

/-- Scalars drawn in two portions. -/
theorem scalars_add {source s s' : RandomSource} {m n : ℕ} {xs ys : List F}
    (hm : source.scalars m = (xs, s)) (hn : s.scalars n = (ys, s')) :
    source.scalars (m + n) = (xs ++ ys, s') := by
  induction m generalizing source xs with
  | zero =>
    cases hm
    rwa [Nat.zero_add]
  | succ m ih =>
    rcases hx : source.scalar (F := F) with ⟨x, s₀⟩
    rcases hrest : s₀.scalars (F := F) m with ⟨zs, s₁⟩
    simp only [scalars, hx, hrest] at hm
    cases hm
    rw [Nat.succ_add, scalars, hx]
    simp only [ih hrest, List.cons_append]

end

end RandomSource

/-! ### Calls -/

namespace Nonces

variable [Zero F]

/-- The nonces for a proof of size `n` from the scalars drawn for it, in their order. -/
def ofList (n : ℕ) (xs : List F) : Nonces F where
  alpha := xs.getD 0 0
  sL := (xs.drop 1).take n
  sR := (xs.drop (1 + n)).take n
  rho := xs.getD (2 * n + 1) 0
  tau1 := xs.getD (2 * n + 2) 0
  tau2 := xs.getD (2 * n + 3) 0

/-- The scalars of a prover, in the order in which they are drawn. -/
theorem ofList_append {n : ℕ} {sL sR : List F} (hleft : sL.length = n) (hright : sR.length = n)
    (alpha rho tau1 tau2 : F) :
    ofList n ([alpha] ++ (sL ++ (sR ++ [rho, tau1, tau2]))) =
      ⟨alpha, sL, sR, rho, tau1, tau2⟩ := by
  have hlast (i : ℕ) : ([alpha] ++ (sL ++ (sR ++ [rho, tau1, tau2]))).getD (2 * n + 1 + i) 0 =
      [rho, tau1, tau2].getD i 0 := by
    have hprefix : ([alpha] ++ (sL ++ sR)).length = 2 * n + 1 := by simp [hleft, hright]; omega
    rw [← List.append_assoc sL, ← List.append_assoc, List.getD_append_right _ _ _ _ (by omega),
      hprefix, Nat.add_sub_cancel_left]
  have hleft' : (sL ++ (sR ++ [rho, tau1, tau2])).take n = sL := List.take_left' hleft
  have hright' : (([alpha] ++ sL) ++ (sR ++ [rho, tau1, tau2])).drop (1 + n) =
      sR ++ [rho, tau1, tau2] := List.drop_left' (by simp [hleft, Nat.add_comm])
  rw [ofList, hlast 0, hlast 1, hlast 2, ← List.append_assoc, hright', List.take_left' hright,
    List.append_assoc, List.singleton_append, List.drop_succ_cons, List.drop_zero, hleft']
  rfl

open RandomSource in
/-- Drawing the nonces is drawing scalars in a row. -/
theorem draw_eq [WideReduction F] (n : ℕ) (source : RandomSource) :
    draw (F := F) n source =
      (ofList n (source.scalars (2 * n + 4)).1, (source.scalars (F := F) (2 * n + 4)).2) := by
  rcases halpha : source.scalar (F := F) with ⟨alpha, s₀⟩
  rcases hL : s₀.scalars (F := F) n with ⟨sL, s₁⟩
  rcases hR : s₁.scalars (F := F) n with ⟨sR, s₂⟩
  rcases hrho : s₂.scalar (F := F) with ⟨rho, s₃⟩
  rcases htau1 : s₃.scalar (F := F) with ⟨tau1, s₄⟩
  rcases htau2 : s₄.scalar (F := F) with ⟨tau2, s₅⟩
  have hleft : sL.length = n := by rw [← length_scalars (F := F) n s₀, hL]
  have hright : sR.length = n := by rw [← length_scalars (F := F) n s₁, hR]
  have hcount : 2 * n + 4 = 1 + (n + (n + (1 + (1 + 1)))) := by omega
  have hrow : source.scalars (2 * n + 4) = ([alpha] ++ (sL ++ (sR ++ [rho, tau1, tau2])), s₅) := by
    rw [hcount]
    exact scalars_add (scalars_one halpha) (scalars_add hL (scalars_add hR (scalars_add
      (scalars_one hrho) (scalars_add (scalars_one htau1) (scalars_one htau2)))))
  rw [hrow, ofList_append hleft hright]
  simp only [draw, halpha, hL, hR, hrho, htau1, htau2]

end Nonces

/-- A call that draws scalars. -/
inductive Call (F G : Type) where
  /-- Blinds the values of a witness. -/
  | blind (values : List UInt64)
  /-- Makes a proof for a witness. -/
  | prove (gens : Generators G) (witness : Witness F) (tag : G)
  /-- Derives a receiver. -/
  | derive (config : SearchConfig) (request : ReceiverRequest G)

/-- What a call answers. -/
inductive Answer (F G : Type) where
  | witness (outcome : Except ProverError (Witness F))
  | proof (outcome : Except ProverError (RangeProof F G))
  | receiver (outcome : Except ProverError (Receiver G))

namespace Call

/-- How many scalars a call draws, whatever it answers. -/
def draws : Call F G → ℕ
  | blind values => values.length
  | prove gens w _ => if proofSize w.size ≤ gens.capacity then 2 * proofSize w.size + 4 else 0
  | derive _ q => if q.conceal then 2 else 1

variable [Field F] [BEq F] [Add G] [SMul F G] [LinearCombination F G] [BasePoint G]
  [BaseMultiple F G] [HashTarget F] [HashTarget G] [Encoding G] [WideReduction F]

/-- The answer of a call that has drawn the given scalars. -/
def answer (τ : Type) [Transcript τ] : Call F G → (xs : List F) → Answer F G
  | blind values, xs => .witness (Witness.ofLists values xs)
  | prove gens w tag, xs =>
    .proof (match gens.first (proofSize w.size) with
      | .error e => .error (.refused e)
      | .ok params => RangeProof.proveWith τ params w tag (.ofList (proofSize w.size) xs))
  | derive config q, xs => .receiver (Receiver.search config q (xs.getD 0 0) (xs.getD 1 0))

/-- A call on a source: its answer, and the source that is left. -/
def run (τ : Type) [Transcript τ] : Call F G → (source : RandomSource) →
    Answer F G × RandomSource
  | blind values, source => Prod.map .witness id (Witness.ofRandom values source)
  | prove gens w tag, source => Prod.map .proof id (RangeProof.prove τ gens w tag source)
  | derive config q, source => Prod.map .receiver id (Receiver.derive F config q source)

variable [Transcript τ]

/-- **Step.** A call draws its scalars in a row, and answers from them. -/
theorem run_eq (call : Call F G) (source : RandomSource) :
    call.run τ source =
      (call.answer τ (source.scalars call.draws).1, (source.scalars (F := F) call.draws).2) := by
  cases call with
  | blind values => rfl
  | prove gens w tag =>
    -- Without enough generators a proof draws nothing, so its draws depend on them.
    rcases Nat.lt_or_ge gens.capacity (proofSize w.size) with hcap | hcap
    · simp only [run, answer, draws, RangeProof.prove_of_lt hcap, Generators.first_of_lt hcap,
        if_neg (Nat.not_le.mpr hcap)]
      rfl
    · simp only [run, answer, draws, RangeProof.prove_of_le hcap, Generators.first_of_le hcap,
        if_pos hcap, Nonces.draw_eq]
      rfl
  | derive config q =>
    cases hconceal : q.conceal with
    | true =>
      simp only [run, answer, draws, Receiver.derive, Receiver.drawSecrets, hconceal, if_pos]
      rfl
    | false =>
      simp only [run, answer, draws, Receiver.derive, Receiver.drawSecrets, hconceal]
      rfl

/-! ### Sequences of calls -/

/-- Calls one after the other on one source: their answers, and the source that is left. -/
def runAll (τ : Type) [Transcript τ] : (calls : List (Call F G)) → (source : RandomSource) →
    List (Answer F G) × RandomSource
  | [], source => ([], source)
  | call :: calls, source =>
    let (answer, source) := call.run τ source
    let (answers, source) := runAll τ calls source
    (answer :: answers, source)

omit [Field F] [BEq F] [Add G] [SMul F G] [LinearCombination F G] [BasePoint G] [BaseMultiple F G]
  [HashTarget F] [HashTarget G] [Encoding G] [WideReduction F] [Transcript τ]

/-- How many scalars the calls draw together. -/
def total (calls : List (Call F G)) : ℕ := (calls.map draws).sum

/-- The numbers of the blocks that each call reads, the first call beginning at `first`. -/
def blocks : (first : ℕ) → (calls : List (Call F G)) → List (List ℕ)
  | _, [] => []
  | first, call :: calls =>
    List.range' first call.draws :: blocks (first + call.draws) calls

/-- The calls read blocks in a row, each of them once. -/
theorem flatten_blocks (first : ℕ) (calls : List (Call F G)) :
    (blocks first calls).flatten = List.range' first (total calls) := by
  induction calls generalizing first with
  | nil => rfl
  | cons call calls ih =>
    rw [blocks, List.flatten_cons, ih, List.range'_append_1, total, total, List.map_cons,
      List.sum_cons]

variable [Field F] [BEq F] [Add G] [SMul F G] [LinearCombination F G] [BasePoint G]
  [BaseMultiple F G] [HashTarget F] [HashTarget G] [Encoding G] [WideReduction F] [Transcript τ]

/-- **Run.** The calls answer from the scalars of their blocks, wherever in a source they begin. -/
theorem runAll_skip (calls : List (Call F G)) (source : RandomSource) (first : ℕ) :
    runAll τ calls (source.skip (64 * first)) =
      (List.zipWith (fun call numbers => call.answer τ (numbers.map (source.scalarAt F))) calls
        (blocks first calls), source.skip (64 * (first + total calls))) := by
  induction calls generalizing first with
  | nil => rfl
  | cons call calls ih =>
    have htotal : first + call.draws + total calls = first + total (call :: calls) := by
      rw [total, total, List.map_cons, List.sum_cons, Nat.add_assoc]
    rw [runAll, run_eq, RandomSource.scalars_skip]
    simp only [ih, blocks, List.zipWith_cons_cons, htotal]

end Call

open Call

/-- **No byte is drawn twice.** Any sequence of calls on one source, with any outcomes, answers call
by call from scalars that are the reductions of blocks of 64 bytes each. The blocks of all calls
together are the first blocks of the source, each once and in order, and fill it from its position
on without a gap. A call leaves the source just behind its blocks, however it ends: as many blocks
as there are values, `2 * N + 4` for a proof of size `N` if there are generators for it and none
otherwise, and one or two for a receiver. The blocks of a proof are drawn as the proof goes along.
The reduction of the scalars of Ristretto255 is that modulo their order. -/
theorem runAll_eq [Field F] [BEq F] [Add G] [SMul F G] [LinearCombination F G] [BasePoint G]
    [BaseMultiple F G] [HashTarget F] [HashTarget G] [Encoding G] [WideReduction F] [Transcript τ]
    (calls : List (Call F G)) (source : RandomSource) :
    runAll τ calls source =
        (List.zipWith (fun call numbers => call.answer τ (numbers.map (source.scalarAt F))) calls
          (blocks 0 calls), source.skip (64 * total calls)) ∧
      (blocks 0 calls).flatten = List.range (total calls) ∧
      ((List.range (total calls)).flatMap fun n => (source.block n).toList) =
        (source.peek (64 * total calls)).toList ∧
      (∀ (values : List UInt64) (source : RandomSource),
        (Witness.ofRandom (F := F) values source).2 = source.skip (64 * values.length)) ∧
      (∀ (gens : Generators G) (w : Witness F) (tag : G) (source : RandomSource),
        (RangeProof.prove τ gens w tag source).2 =
            source.skip (if 64 * roundUpPowTwo w.size ≤ gens.capacity then
              64 * (2 * (64 * roundUpPowTwo w.size) + 4) else 0) ∧
          (RangeProof.proveInOrder τ gens w tag).runWith source =
            RangeProof.prove τ gens w tag source) ∧
      (∀ (config : SearchConfig) (q : ReceiverRequest G) (source : RandomSource),
        (Receiver.derive F config q source).2 = source.skip (if q.conceal then 128 else 64)) ∧
      ∀ bytes : Bytes 64,
        (reduce bytes : Ristretto.Scalar).val = bytes.toNatLE % Ristretto.order := by
  have hone (call : Call F G) (source : RandomSource) :
      (call.run τ source).2 = source.skip (64 * call.draws) := by
    rw [run_eq]
    have hskip := RandomSource.scalars_skip (F := F) source 0 call.draws
    rw [Nat.zero_add] at hskip
    exact congrArg Prod.snd hskip
  have hrun := runAll_skip (τ := τ) calls source 0
  rw [Nat.zero_add] at hrun
  refine ⟨hrun, (flatten_blocks 0 calls).trans (List.range_eq_range' ..).symm,
    source.flatMap_block _, fun values source => hone (.blind values) source,
    fun gens w tag source => ⟨(hone (.prove gens w tag) source).trans ?_,
      RangeProof.proveInOrder_eq_prove gens w tag source⟩,
    fun config q source => (hone (.derive config q) source).trans ?_, fun bytes => rfl⟩
  · have hsize : proofSize w.size = 64 * roundUpPowTwo w.size := rfl
    rw [draws, hsize]
    split <;> rfl
  · rw [draws]
    split <;> rfl

end ConfidentialCoin
