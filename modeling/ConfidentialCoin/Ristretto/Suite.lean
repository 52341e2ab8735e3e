import ConfidentialCoin.Commitment.Generators
import ConfidentialCoin.RangeProof.Prover
import ConfidentialCoin.RangeProof.Verifier
import ConfidentialCoin.Ristretto.Instances
import ConfidentialCoin.Transcript.Merlin

/-!
# The standard suite

Range proofs over Ristretto255 with Merlin transcripts, and the generators that are enough for
every proof, made once.
-/

namespace ConfidentialCoin.Ristretto

/-- A range proof of the suite. -/
abbrev Proof := RangeProof Scalar Point

/-- The generators for proofs of every size. -/
def sharedGenerators : Generators Point := .ofCapacity Point maxCapacity

/-- A proof for a witness under an asset tag. -/
def prove (gens : Generators Point) (w : Witness Scalar) (tag : Point) (source : RandomSource) :
    Except ProverError Proof × RandomSource :=
  RangeProof.prove Merlin gens w tag source

/-- The cause for which a proof is rejected by a method, if it is. -/
def check (method : Method) (gens : Generators Point) (proof : Proof) (tag : Point) :
    Except Rejection Unit :=
  RangeProof.check Merlin method gens proof tag

end ConfidentialCoin.Ristretto
