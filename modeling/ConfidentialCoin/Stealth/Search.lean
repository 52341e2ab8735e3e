import ConfidentialCoin.Random
import ConfidentialCoin.Stealth.Candidates
import ConfidentialCoin.Stealth.Receiver
import ConfidentialCoin.Text.Json.Skip

/-!
# Deriving a receiver for an address

A sender draws `r`, and a second scalar if the amount is to be concealed, and searches the
candidate keys for the first in the bucket that the coin belongs to. The bucket's receiver shard
is the address's; its sender shard is too, unless another is asked for.

* `Receiver.derive`: the search. What it draws does not depend on what it finds.
* `SearchConfig.ofJson`, `SearchConfig.toJson`: the bound of the search as a JSON document.
-/

namespace ConfidentialCoin

/-- How long to search. -/
structure SearchConfig where
  /-- The largest index tried. -/
  maxTries : UInt32
deriving DecidableEq, Repr

namespace SearchConfig

/-- The search that is made if nothing else is asked for. -/
def standard : SearchConfig := ⟨defaultMaxTries⟩

/-! ### JSON -/

/-- The JSON document of a configuration. -/
def toJson (c : SearchConfig) : String :=
  "\x7b\"max_tries\":" ++ toString c.maxTries.toNat ++ "\x7d"

/-- A bound that fits an index. -/
def bound? : Option Nat → Option UInt32
  | some n => if n < UInt32.size then some n.toUInt32 else none
  | none => none

/-- The members of an object from the first one on, of which there are at most `most`. The bound is
given once at most; what other keys hold is passed over. -/
def members : (most : Nat) → (found : Option UInt32) → List Json.Token → Option SearchConfig
  | most + 1, found, .text key :: .colon :: rest => do
    let key ← Json.contentText? key
    -- A second bound is refused, and so is a bound in any other form.
    let (found, rest) ←
      if key = "max_tries".toList then
        match found, rest with
        | none, .number n :: rest => (bound? n).map fun n => (some n, rest)
        | _, _ => none
      else (Json.skipValue rest).map fun rest => (found, rest)
    match rest with
    | .comma :: rest => members most found rest
    | [.closeBrace] => some ⟨found.getD defaultMaxTries⟩
    | _ => none
  | _, _, _ => none

/-- The configuration with the given JSON document: an object whose member `max_tries` is the
bound, or an array of the bound. A bound that is missing is the standard one. -/
def ofJson (document : String) : Option SearchConfig := do
  match ← Json.scan document with
  | [.openBracket, .closeBracket] => some standard
  | [.openBracket, .number n, .closeBracket] => (bound? n).map SearchConfig.mk
  | [.openBrace, .closeBrace] => some standard
  | .openBrace :: rest => members rest.length none rest
  | _ => none

end SearchConfig

/-- What a receiver is derived for. -/
structure ReceiverRequest (G : Type) where
  address : PaymentAddress G
  /-- The shard of the sender; that of the recipient if none is given. -/
  sender : Option UInt8
  /-- How the coin comes to be. -/
  privacyType : PrivacyType
  /-- Whether the amount is concealed. -/
  conceal : Bool

namespace ReceiverRequest

variable {G : Type} [Encoding G]

/-- A minted coin for an address: its sender shard is the address's, and its amount is
concealed. -/
def minting (address : PaymentAddress G) : ReceiverRequest G := ⟨address, none, .mint, true⟩

/-- The bucket that the key must lie in. -/
def target (q : ReceiverRequest G) : Bucket where
  sender := q.sender.getD q.address.shard
  receiver := q.address.shard
  privacyType := q.privacyType

end ReceiverRequest

namespace Receiver

variable {F G : Type} [Zero F] [WideReduction F] [HashTarget F] [Encoding G] [Add G] [SMul F G]
  [BaseMultiple F G]

/-- The scalars drawn for a receiver: `r`, and the one that conceals the amount, which is 0 if the
amount is not concealed. -/
def drawSecrets (conceal : Bool) (source : RandomSource) : (F × F) × RandomSource :=
  let (r, source) : F × RandomSource := source.scalar
  if conceal then
    let (c, source) : F × RandomSource := source.scalar
    ((r, c), source)
  else ((r, 0), source)

/-- The first receiver of the scalar `r` that lies in the bucket asked for. -/
def search (config : SearchConfig) (q : ReceiverRequest G) (r c : F) :
    Except ProverError (Receiver G) :=
  let candidates := Candidates.start (r • q.address.derive) q.address.spend config.maxTries
  let inTarget := fun candidate : Candidate G =>
    match Bucket.ofKey candidate.key with
    | .ok bucket => bucket == q.target
    | .error _ => false
  match candidates.find F inTarget with
  | some found => .ok ⟨found.key, .ofFields (mulBase r : G) (mulBase c) found.index⟩
  | none => .error (.exhaustedRetries config.maxTries)

/-- A receiver as asked for, with scalars from a random source. -/
def derive (F : Type) [Zero F] [WideReduction F] [HashTarget F] [SMul F G] [BaseMultiple F G]
    (config : SearchConfig) (q : ReceiverRequest G) (source : RandomSource) :
    Except ProverError (Receiver G) × RandomSource :=
  let ((r, c), source) : (F × F) × RandomSource := drawSecrets q.conceal source
  (search config q r c, source)

end Receiver

end ConfidentialCoin
