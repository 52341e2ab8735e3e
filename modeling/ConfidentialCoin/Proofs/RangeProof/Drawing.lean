import ConfidentialCoin.Proofs.RangeProof.Polynomial
import ConfidentialCoin.RangeProof.Prover

/-!
# The prover, drawing as it goes

`RangeProof.prove` draws all its scalars first. `RangeProof.proveInOrder` is the prover that draws
each scalar where it needs it: the blinding of `A` before `A` is made, the vectors `sL` and `sR` and
the blinding of `S` next, and the blindings of `T1` and `T2` when `y` and `z` are known and the
coefficients are computed. Where a step in between refuses, what has been drawn is used up and
nothing further is.

No such step refuses: once there are generators for the proof, all its vectors have the proof's
size, whatever is drawn (`commitVectors_eq_ok`, `attemptCoefficients_eq_ok`). So the two provers
make the same proof and use up the same scalars (`proveInOrder_eq_prove`).
-/

namespace ConfidentialCoin

variable {F G τ α β : Type}

/-! ### Computations that draw -/

/-- A computation that draws from a random source and may fail. What it has drawn is used up, also
when it fails. -/
abbrev Drawing (α : Type) := ExceptT ProverError (StateM RandomSource) α

namespace Drawing

/-- The answer, and the source that is left. -/
def runWith (x : Drawing α) (source : RandomSource) : Except ProverError α × RandomSource :=
  (ExceptT.run x).run source

/-- A computation that draws nothing. -/
def attempt (x : Except ProverError α) : Drawing α := ExceptT.mk (pure x)

/-- A computation that does not fail. -/
def draw (next : RandomSource → α × RandomSource) : Drawing α := ExceptT.lift (modifyGet next)

/-- A step that succeeds draws nothing. -/
theorem runWith_attempt_ok_bind {x : Except ProverError α} {a : α} (h : x = .ok a)
    (f : α → Drawing β) (source : RandomSource) :
    (attempt x >>= f).runWith source = (f a).runWith source := by
  subst h
  rfl

/-- A step that fails ends the run, and what was drawn stays drawn. -/
theorem runWith_attempt_error_bind {x : Except ProverError α} {e : ProverError} (h : x = .error e)
    (f : α → Drawing β) (source : RandomSource) :
    (attempt x >>= f).runWith source = (.error e, source) := by
  subst h
  rfl

/-- A draw takes its value from the source and moves it on. -/
theorem runWith_draw_bind (next : RandomSource → α × RandomSource) (f : α → Drawing β)
    (source : RandomSource) :
    (draw next >>= f).runWith source = (f (next source).1).runWith (next source).2 := rfl

end Drawing

/-! ### The prover -/

namespace RangeProof

open Drawing

section Prover

variable [Zero F] [One F] [Add F] [Sub F] [Neg F] [Mul F] [Inv F] [NatCast F] [BEq F]
  [SMul F G] [LinearCombination F G] [BasePoint G] [HashTarget G] [Encoding G] [WideReduction F]
  [Transcript τ]

/-- Computes the two coefficients that are committed to after `y` and `z` are drawn. -/
def attemptCoefficients (w : Witness F) (sL sR : ScalarVector F) (y z : F) :
    Except ProverError Unit := do
  let n := proofSize w.size
  let slots := slotCount w.size
  let weights ← (entryWeights (slotWeights z slots) n).mapError .fault
  let poly ←
    (VectorPolynomials.ofBits y z n weights (slotBits F w.values slots) sL sR).mapError .refused
  let _ ← poly.linear.mapError .refused
  let _ ← poly.quadratic.mapError .refused
  .ok ()

/-- The proof for a witness under an asset tag, each scalar drawn where it is needed. The steps
between the draws are taken where they stand, so that a refusal stops the drawing there; the proof
itself is put together at the end, from what was drawn. -/
def proveInOrder (τ : Type) [Transcript τ] (gens : Generators G) (w : Witness F) (tag : G) :
    Drawing (RangeProof F G) := do
  let params ← attempt ((gens.first (proofSize w.size)).mapError .refused)
  let aL := slotBits F w.values (slotCount w.size)
  attempt (if aL.length ≠ proofSize w.size then .error bitVectorLength else .ok ())
  let alpha ← draw RandomSource.scalar
  let a ← attempt (commitVectors params (Basis.ofTag tag) alpha aL (aL.addScalar (-1)))
  let sL ← draw (RandomSource.scalars (proofSize w.size))
  let sR ← draw (RandomSource.scalars (proofSize w.size))
  let rho ← draw RandomSource.scalar
  let s ← attempt (commitVectors params (Basis.ofTag tag) rho sL sR)
  let yz := Layout.challengesYZ F
    (Layout.start valueBits (slotCount w.size) tag (w.commitments tag) : τ) a s
  attempt (attemptCoefficients w sL sR yz.1.1 yz.1.2)
  let tau1 ← draw RandomSource.scalar
  let tau2 ← draw RandomSource.scalar
  attempt (proveWith τ params w tag ⟨alpha, sL, sR, rho, tau1, tau2⟩)

end Prover

/-! ### No step refuses -/

/-- A commitment is made when there is an entry for each generator. -/
theorem commitVectors_eq_ok [LinearCombination F G] {params : Generators G} {n : ℕ}
    (h : params.capacity = n) (basis : Basis G) (blinding : F) {left right : ScalarVector F}
    (hleft : left.length = n) (hright : right.length = n) :
    commitVectors params basis blinding left right =
      .ok (combine ((blinding :: left ++ right).zip (basis.blinding :: params.g ++ params.h))) := by
  have hg : params.g.length = n := h
  have hlength : (blinding :: left ++ right).length =
      (basis.blinding :: params.g ++ params.h).length := by
    simp [hleft, hright, params.length_h, hg]
  rw [commitVectors, combine?_of_length_eq hlength]
  rfl

variable [Field F]

/-- The coefficients are computed, whatever the challenges are. -/
theorem attemptCoefficients_eq_ok (w : Witness F) {sL sR : ScalarVector F}
    (hleft : sL.length = proofSize w.size) (hright : sR.length = proofSize w.size) (y z : F) :
    attemptCoefficients w sL sR y z = .ok () := by
  have hweights : entryWeights (slotWeights z (slotCount w.size)) (proofSize w.size) =
      .ok (table (proofSize w.size) (weightAt z)) := entryWeights_eq_table ..
  have hbits : slotBits F w.values (slotCount w.size) =
      table (proofSize w.size) (bitAt F w.values) := slotBits_eq_table ..
  rw [attemptCoefficients, hweights, hbits, ← table_getD hleft 0, ← table_getD hright 0]
  simp only [bind, Except.bind, Except.mapError, VectorPolynomials.ofBits_table,
    VectorPolynomials.linear_ofEntries, VectorPolynomials.quadratic_ofEntries]

variable [BEq F] [SMul F G] [LinearCombination F G] [BasePoint G] [HashTarget G] [Encoding G]
  [WideReduction F] [Transcript τ]

/-- **In order.** Drawing each scalar where it is needed makes the same proof and leaves the same
source as drawing all of them first. -/
theorem proveInOrder_eq_prove (gens : Generators G) (w : Witness F) (tag : G)
    (source : RandomSource) :
    (proveInOrder τ gens w tag).runWith source = prove τ gens w tag source := by
  rcases Nat.lt_or_ge gens.capacity (proofSize w.size) with hcap | hcap
  · have hparams : (gens.first (proofSize w.size)).mapError ProverError.refused =
        .error (.refused (.invalidInput "proof dimension exceeds generator capacity")) := by
      rw [Generators.first_of_lt hcap]
      rfl
    rw [prove_of_lt hcap, proveInOrder, runWith_attempt_error_bind hparams]
  · have hparams : (gens.first (proofSize w.size)).mapError ProverError.refused =
        .ok (gens.take (proofSize w.size)) := by
      rw [Generators.first_of_le hcap]
      rfl
    have hcapacity := Generators.capacity_take hcap
    -- Between the draws nothing fails, since all vectors have the length of the proof.
    have hbits : (slotBits F w.values (slotCount w.size)).length = proofSize w.size :=
      length_slotBits ..
    have hpred := (ScalarVector.length_addScalar _ (-1 : F)).trans hbits
    have hscalars := RandomSource.length_scalars (F := F) (proofSize w.size)
    rw [prove_of_le hcap, proveInOrder, runWith_attempt_ok_bind hparams,
      runWith_attempt_ok_bind (if_neg (not_not_intro hbits)), runWith_draw_bind,
      runWith_attempt_ok_bind (commitVectors_eq_ok hcapacity _ _ hbits hpred), runWith_draw_bind,
      runWith_draw_bind, runWith_draw_bind,
      runWith_attempt_ok_bind (commitVectors_eq_ok hcapacity _ _ (hscalars _) (hscalars _)),
      runWith_attempt_ok_bind (attemptCoefficients_eq_ok w (hscalars _) (hscalars _) _ _),
      runWith_draw_bind, runWith_draw_bind]
    rfl

end RangeProof

end ConfidentialCoin
