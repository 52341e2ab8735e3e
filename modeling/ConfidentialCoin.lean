import ConfidentialCoin.Bytes
import ConfidentialCoin.Commitment.Basis
import ConfidentialCoin.Commitment.Generators
import ConfidentialCoin.Error
import ConfidentialCoin.Fault
import ConfidentialCoin.Group
import ConfidentialCoin.Hash.Keccak
import ConfidentialCoin.Hash.Sha2
import ConfidentialCoin.InnerProduct.Argument
import ConfidentialCoin.InnerProduct.Prover
import ConfidentialCoin.InnerProduct.Verifier
import ConfidentialCoin.Log
import ConfidentialCoin.Parameters
import ConfidentialCoin.Proofs.Commitment.Coordinates
import ConfidentialCoin.Proofs.Commitment.Vectors
import ConfidentialCoin.Proofs.InnerProduct.ClosedForm
import ConfidentialCoin.Proofs.InnerProduct.Coefficients
import ConfidentialCoin.Proofs.InnerProduct.Exactness
import ConfidentialCoin.Proofs.InnerProduct.Extraction
import ConfidentialCoin.Proofs.InnerProduct.Folding
import ConfidentialCoin.Proofs.InnerProduct.Mirror
import ConfidentialCoin.Proofs.InnerProduct.Opening
import ConfidentialCoin.Proofs.InnerProduct.Refusals
import ConfidentialCoin.Proofs.InnerProduct.Rounds
import ConfidentialCoin.Proofs.InnerProduct.Safety
import ConfidentialCoin.Proofs.Random.Blocks
import ConfidentialCoin.Proofs.RangeProof.Agreement
import ConfidentialCoin.Proofs.RangeProof.Binding
import ConfidentialCoin.Proofs.RangeProof.Canonical
import ConfidentialCoin.Proofs.RangeProof.Capacity
import ConfidentialCoin.Proofs.RangeProof.Codec
import ConfidentialCoin.Proofs.RangeProof.Completeness
import ConfidentialCoin.Proofs.RangeProof.Delimiting
import ConfidentialCoin.Proofs.RangeProof.Equations
import ConfidentialCoin.Proofs.RangeProof.Format
import ConfidentialCoin.Proofs.RangeProof.Honest
import ConfidentialCoin.Proofs.RangeProof.Indistinguishability
import ConfidentialCoin.Proofs.RangeProof.Polynomial
import ConfidentialCoin.Proofs.RangeProof.Provenance
import ConfidentialCoin.Proofs.RangeProof.Recomposition
import ConfidentialCoin.Proofs.RangeProof.Refusals
import ConfidentialCoin.Proofs.RangeProof.Responses
import ConfidentialCoin.Proofs.RangeProof.Retagging
import ConfidentialCoin.Proofs.RangeProof.Safety
import ConfidentialCoin.Proofs.RangeProof.Slots
import ConfidentialCoin.Proofs.RangeProof.Soundness
import ConfidentialCoin.Proofs.RangeProof.Verdict
import ConfidentialCoin.Proofs.RangeProof.Writing
import ConfidentialCoin.Proofs.Ristretto.Exponent
import ConfidentialCoin.Proofs.Ristretto.Scalar
import ConfidentialCoin.Proofs.Stealth.Derivation
import ConfidentialCoin.Proofs.Stealth.Encodings
import ConfidentialCoin.Proofs.Stealth.Enumeration
import ConfidentialCoin.Proofs.Stealth.Ownership
import ConfidentialCoin.Proofs.Stealth.Receiver
import ConfidentialCoin.Proofs.Stealth.Search
import ConfidentialCoin.Proofs.Stealth.Updates
import ConfidentialCoin.Proofs.Text.Json
import ConfidentialCoin.Proofs.Transcript.Events
import ConfidentialCoin.Proofs.Vectors.Distinct
import ConfidentialCoin.Proofs.Vectors.Pairing
import ConfidentialCoin.Proofs.Vectors.Table
import ConfidentialCoin.Random
import ConfidentialCoin.RangeProof.Basic
import ConfidentialCoin.RangeProof.Codec
import ConfidentialCoin.RangeProof.Polynomials
import ConfidentialCoin.RangeProof.Prover
import ConfidentialCoin.RangeProof.Replay
import ConfidentialCoin.RangeProof.Slots
import ConfidentialCoin.RangeProof.Verifier
import ConfidentialCoin.RangeProof.Witness
import ConfidentialCoin.Ristretto.Encoding
import ConfidentialCoin.Ristretto.Field
import ConfidentialCoin.Ristretto.Instances
import ConfidentialCoin.Ristretto.Point
import ConfidentialCoin.Ristretto.Scalar
import ConfidentialCoin.Ristretto.Suite
import ConfidentialCoin.ScalarVector
import ConfidentialCoin.Stealth.Address
import ConfidentialCoin.Stealth.Bucket
import ConfidentialCoin.Stealth.Candidates
import ConfidentialCoin.Stealth.Receiver
import ConfidentialCoin.Stealth.Search
import ConfidentialCoin.Stealth.TxRandom
import ConfidentialCoin.Text.Base58
import ConfidentialCoin.Text.Json.Skip
import ConfidentialCoin.Text.Json.Token
import ConfidentialCoin.Text.Radix
import ConfidentialCoin.Transcript.Basic
import ConfidentialCoin.Transcript.Layout
import ConfidentialCoin.Transcript.Merlin
import ConfidentialCoin.Transcript.Strobe
