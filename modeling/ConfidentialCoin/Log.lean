import ConfidentialCoin.RangeProof.Verifier
import ConfidentialCoin.RangeProof.Witness
import ConfidentialCoin.Stealth.Search

/-!
# The log

What an operation logs is determined by what it answers, so the log is not a part of the
operations but a function of their results: `RangeProof.provingLog`, `RangeProof.checkingLog` and
`Receiver.searchLog`. An event has a level and a sentence.
-/

namespace ConfidentialCoin

/-- How much attention an event asks for. -/
inductive LogLevel where
  /-- Of interest to who follows a computation. -/
  | trace
  /-- Of interest to who looks for a cause. -/
  | debug
  /-- Of interest to who runs the program. -/
  | warn
deriving DecidableEq, Repr

def LogLevel.text : LogLevel → String
  | .trace => "TRACE"
  | .debug => "DEBUG"
  | .warn => "WARN"

/-- Something that is logged. -/
inductive LogEvent where
  /-- The challenges after `A` and `S` were drawn. -/
  | drewYZ
  /-- The challenges after `T1` and `T2` were drawn. -/
  | drewXW
  /-- A proof was made. -/
  | builtProof (coins size rounds : Nat)
  /-- The value commitments of a proof do not open. -/
  | rejectedValues
  /-- The claim of a proof is not the one committed to. -/
  | rejectedClaim
  /-- The argument of a proof was rejected round by round. -/
  | rejectedByFolding (error : VerifierError)
  /-- The argument of a proof does not add up. -/
  | rejectedAtOnce
  /-- No candidate key lies in a bucket. -/
  | searchExhausted (tries : UInt32) (target : Bucket)
  /-- A candidate key lies in a bucket. -/
  | derivedKey (index : UInt32) (target : Bucket)
deriving DecidableEq, Repr

namespace LogEvent

def level : LogEvent → LogLevel
  | .drewYZ | .drewXW => .trace
  | .searchExhausted _ _ => .warn
  | _ => .debug

/-- The sentence of an event. -/
def text : LogEvent → String
  | .drewYZ => "derived range challenges y, z"
  | .drewXW => "derived range challenges x, w"
  | .builtProof coins size rounds =>
    "built range proof: coins=" ++ toString coins ++ " n=" ++ toString size ++ " rounds=" ++
      toString rounds
  | .rejectedValues => "range proof rejected: statement 1"
  | .rejectedClaim => "range proof rejected: inner product commitment mismatch"
  | .rejectedByFolding error => "direct verifier rejected proof: " ++ error.message
  | .rejectedAtOnce => "batched verifier rejected proof: inner product does not open"
  | .searchExhausted tries target =>
    "one-time key search exhausted after " ++ toString tries.toNat ++ " tries for " ++
      target.describe
  | .derivedKey index target =>
    "derived one-time key at index " ++ toString index.toNat ++ " for " ++ target.describe

/-- An event as a line. -/
def line (e : LogEvent) : String := e.level.text ++ " " ++ e.text

end LogEvent

namespace RangeProof

/-- The challenges of a proof that got as far as to draw them. -/
def challengeLog : List LogEvent := [.drewYZ, .drewXW]

/-- What making a proof logs. Without enough generators nothing is begun. -/
def provingLog {F G : Type} (w : Witness F) :
    (result : Except ProverError (RangeProof F G)) → List LogEvent
  | .ok proof =>
    challengeLog ++ [.builtProof w.size (proofSize w.size) proof.argument.l.length]
  | .error (.refused _) => []
  | .error _ => challengeLog

/-- What checking a proof logs. -/
def checkingLog (method : Method) : (result : Except Rejection Unit) → List LogEvent
  | .ok () => challengeLog
  | .error .coinCount => []
  | .error .roundCount => []
  | .error (.refused _) => []
  | .error .zeroChallenge => challengeLog
  | .error .valueCommitments => challengeLog ++ [.rejectedValues]
  | .error .claimCommitment => challengeLog ++ [.rejectedClaim]
  | .error (.argument e) =>
    match method, e with
    | .folding, e => challengeLog ++ [.rejectedByFolding e.verifierError]
    | .atOnce, .notOpening => challengeLog ++ [.rejectedAtOnce]
    | .atOnce, _ => challengeLog
  | .error (.fault _) => challengeLog

end RangeProof

/-- What deriving a receiver logs. -/
def Receiver.searchLog {G : Type} [Encoding G] (config : SearchConfig) (q : ReceiverRequest G) :
    (result : Except ProverError (Receiver G)) → List LogEvent
  | .ok r => [.derivedKey r.txRandom.index q.target]
  | .error _ => [.searchExhausted config.maxTries q.target]

end ConfidentialCoin
