import ConfidentialCoin.Commitment.Basis
import ConfidentialCoin.Commitment.Generators
import ConfidentialCoin.InnerProduct.Verifier
import ConfidentialCoin.RangeProof.Basic
import ConfidentialCoin.RangeProof.Slots

/-!
# Replaying a range proof

A verifier takes no challenge from the proof: it writes what the proof contains on a transcript of
its own and draws them, which is `RangeChallenges.ofProof`. `Replay.ofProof` does that for a proof
of the right shape and wants the challenges not to be zero. The two statements that concern the
outer proof are then

* `Replay.checkStatement1`: the commitments to the values and to the coefficients open to the
  inner product, `tHat * T + tauX * H = ∑ z ^ (2 + j) * V[j] + δ * T + x * T1 + x² * T2`;
* `Replay.checkCommitment`: the claim of the argument is the one that `A` and `S` commit to.

`Rejection` is the cause for which a proof is not accepted, in more detail than is reported.
-/

namespace ConfidentialCoin

/-- Why a range proof is not accepted. -/
inductive Rejection where
  /-- There are no commitments, or more than a proof covers. -/
  | coinCount
  /-- The argument has not as many rounds as the proof needs. -/
  | roundCount
  | refused (error : Error)
  | zeroChallenge
  /-- The commitments to the values do not open to the inner product. -/
  | valueCommitments
  /-- The claim of the argument is not the one committed to. -/
  | claimCommitment
  /-- The argument is not accepted. -/
  | argument (error : ArgumentError)
  | fault (fault : Fault)
deriving DecidableEq, Repr

/-- What is reported of a rejection. -/
def Rejection.verifierError : Rejection → VerifierError
  | .coinCount => .invalidInput "number of value commitments out of range"
  | .roundCount => .invalidInput "inner product rounds do not match proof size"
  | .refused e => .ofError e
  | .zeroChallenge => .invalidInput "zero challenge"
  | .valueCommitments => .statement1
  | .claimCommitment => .statement2
  | .argument e => e.verifierError
  | .fault f => .fault f

/-! ### Challenges -/

/-- The challenges of a range proof. -/
structure RangeChallenges (F τ : Type) where
  /-- First challenge, after `A` and `S`. -/
  y : F
  /-- Second challenge, after `A` and `S`. -/
  z : F
  /-- Third challenge, after `T1` and `T2`. -/
  x : F
  /-- Fourth challenge, after `T1` and `T2`. -/
  w : F
  /-- The transcript after the challenges. -/
  transcript : τ

namespace RangeChallenges

variable {F G τ : Type}

/-- Writes the outer part of a proof on a transcript and draws the challenges. -/
def ofProof [Encoding G] [WideReduction F] [Transcript τ] (proof : RangeProof F G) (tag : G) :
    RangeChallenges F τ :=
  let t : τ := Layout.start valueBits (slotCount proof.commitments.length) tag proof.commitments
  let ((y, z), t) := Layout.challengesYZ F t proof.a proof.s
  let ((x, w), t) := Layout.challengesXW F t proof.t1 proof.t2
  ⟨y, z, x, w, t⟩

/-- One of the challenges is zero. -/
def hasZero [Zero F] [BEq F] (c : RangeChallenges F τ) : Bool :=
  c.y == 0 || c.z == 0 || c.x == 0 || c.w == 0

end RangeChallenges

/-! ### The checks of the outer proof -/

/-- The challenges of a proof and what the checks need next to it. -/
structure Replay (F G τ : Type) where
  /-- The generators of the proof's size. -/
  params : Generators G
  /-- The basis with the asset tag. -/
  basis : Basis G
  /-- The transcript after the challenges. -/
  transcript : τ
  /-- Length of the vectors. -/
  n : Nat
  y : F
  z : F
  x : F
  /-- The generator of the inner product, scaled by the fourth challenge. -/
  u : G
  /-- The weights of the slots. -/
  weights : ScalarVector F

namespace Replay

variable {F G τ : Type} [Zero F] [One F] [Add F] [Sub F] [Neg F] [Mul F] [Inv F] [NatCast F]
  [BEq F] [SMul F G] [LinearCombination F G] [BasePoint G] [HashTarget G] [Encoding G]
  [WideReduction F] [BEq G] [Transcript τ]

/-- The challenges of a proof, if it has the shape that its number of coins demands and there are
generators for it. -/
def ofProof (gens : Generators G) (proof : RangeProof F G) (tag : G) :
    Except Rejection (Replay F G τ) := do
  let coins := proof.commitments.length
  if coins = 0 ∨ maxCoins < coins then .error .coinCount
  else
    let n := proofSize coins
    let rounds := InnerProduct.roundCount n
    if proof.argument.l.length ≠ rounds ∨ proof.argument.r.length ≠ rounds then
      .error .roundCount
    else
      -- The shape is right, so every count below is a function of the number of coins.
      let params ← (gens.first n).mapError .refused
      let c : RangeChallenges F τ := .ofProof proof tag
      if c.hasZero then .error .zeroChallenge
      else
        .ok ⟨params, Basis.ofTag tag, c.transcript, n, c.y, c.z, c.x, c.w • params.u,
          slotWeights c.z (slotCount coins)⟩

/-- The part of the constant coefficient that depends on the challenges alone,
`(z - z²) * ∑ yⁱ - ∑ z ^ (3 + j) * (2 ^ 64 - 1)`. -/
def delta (r : Replay F G τ) : F :=
  (r.z - r.z * r.z) * (ScalarVector.powers r.y r.n).sum -
    r.z * r.weights.sum * ((UInt64.size - 1 : Nat) : F)

/-- The commitments to the values open to the inner product. A slot without a coin has the zero
commitment, which adds nothing. -/
def checkStatement1 (r : Replay F G τ) (proof : RangeProof F G) : Except Rejection Unit := do
  let left := r.basis.commit proof.tHat proof.tauX
  let right ← (combine?
    (r.weights.take proof.commitments.length ++ [r.delta, r.x, r.x * r.x])
    (proof.commitments ++ [r.basis.value, proof.t1, proof.t2])).mapError .fault
  if left == right then .ok () else .error .valueCommitments

/-- The coefficient of `h[i]` in the claim, `z + weight * y⁻ⁱ`. -/
def claimCoefficient (r : Replay F G τ) (bits yInv : ScalarVector F) (i : Nat) :
    Except Fault F := do
  let weight ← entryWeight r.weights bits i
  let yi ← entry yInv i
  .ok (r.z + weight * yi)

/-- The claim of the argument is
`A + x * S - z * ∑ g + ∑ (z + weight[i] * y⁻ⁱ) * h[i] - mu * H + tHat * u`. -/
def checkCommitment (r : Replay F G τ) (proof : RangeProof F G) : Except Rejection Unit := do
  let yInv := ScalarVector.powers r.y⁻¹ r.n
  let hCoefficients ←
    ((List.range r.n).mapM (r.claimCoefficient (bitWeights F) yInv)).mapError .fault
  let expected ← (combine?
    ([1, r.x, -proof.mu, proof.tHat] ++ List.replicate r.n (-r.z) ++ hCoefficients)
    ([proof.a, proof.s, r.basis.blinding, r.u] ++ r.params.g ++ r.params.h)).mapError .fault
  if expected == proof.argument.p then .ok () else .error .claimCommitment

end Replay

end ConfidentialCoin
