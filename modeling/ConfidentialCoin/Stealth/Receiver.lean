import ConfidentialCoin.Stealth.Address
import ConfidentialCoin.Stealth.TxRandom
import ConfidentialCoin.Text.Base58
import ConfidentialCoin.Text.Json.Token

/-!
# Receivers

A receiver is the one-time address of one coin: its key and the bytes published with it. It is
written as the byte 4, the key and those bytes, 101 in all; as text in checked base 58; and in
JSON as that text in quotes.

The recipient recognises a receiver by deriving its key again, and spends from it with the secret
that belongs to the key.
-/

namespace ConfidentialCoin

/-- The one-time address of a coin. -/
structure Receiver (G : Type) where
  key : G
  /-- The bytes published with the key. -/
  txRandom : TxRandom
deriving DecidableEq

namespace Receiver

variable {F G : Type} [Encoding G]

/-! ### Properties -/

/-- Both published elements decode. -/
def isValid (r : Receiver G) : Bool :=
  (r.txRandom.otaPoint : Except Error G).isOk && (r.txRandom.concealPoint : Except Error G).isOk

/-- The bucket of the key. -/
def bucket (r : Receiver G) : Except Error Bucket := Bucket.ofKey r.key

def shards (r : Receiver G) : UInt8 × UInt8 := Bucket.shardsOfByte (encode r.key).last

section Ownership

variable [HashTarget F]

/-- The element that sender and recipient share. -/
def sharedPoint [SMul F G] (r : Receiver G) (derive : F) : Except Error G := do
  let p ← r.txRandom.otaPoint
  .ok (derive • p)

/-- The receiver was derived for the address with the given secret and spend key. -/
def isOwnedBy [SMul F G] [BaseMultiple F G] [Add G] [BEq G] (r : Receiver G) (derive : F)
    (spend : G) : Bool :=
  match r.sharedPoint derive with
  | .ok shared => oneTimeKey F (encode shared) r.txRandom.index spend == r.key
  | .error _ => false

/-- The secret of the one-time key. -/
def spendingKey [SMul F G] [Add F] (r : Receiver G) (derive spend : F) : Except Error F := do
  let shared ← r.sharedPoint derive
  .ok (oneTimeScalar F (encode shared) r.txRandom.index + spend)

end Ownership

/-! ### Bytes -/

/-- The byte that begins a receiver. -/
def typeByte : UInt8 := 4

def size : Nat := 1 + pointSize + TxRandom.size

/-- The bytes end before the receiver does. -/
def tooShort : Error := .invalidInput "not enough bytes to parse receiving address"

/-- The first byte is not that of a receiver. -/
def wrongType : Error := .invalidInput "unrecognized prefix for receiving address"

/-- The bytes of a receiver. -/
def toBytes (r : Receiver G) : List UInt8 :=
  typeByte :: (encode r.key).toList ++ r.txRandom.bytes.toList

/-- The receiver with the given bytes. -/
def ofBytes : List UInt8 → Except Error (Receiver G)
  | [] => .error tooShort
  | type :: rest => do
    if type ≠ typeByte then .error wrongType
    else if rest.length < pointSize then .error tooShort
    else
      -- The key is read before the length of what follows it is looked at.
      let key ← readPointSlice (rest.take pointSize)
      let txRandom ← TxRandom.ofBytes (rest.drop pointSize)
      .ok ⟨key, txRandom⟩

/-! ### Text -/

/-- The version byte of texts. -/
def textVersion : UInt8 := 0

/-- The text is not in checked base 58. -/
def malformedText : Error := .invalidInput "malformed base58-check receiving address"

/-- The text of a receiver. -/
def toText (r : Receiver G) : String := String.ofList (Base58.encodeChecked textVersion r.toBytes)

/-- The receiver with the given text. -/
def ofText (text : String) : Except Error (Receiver G) :=
  match Base58.decodeChecked? textVersion text.toList with
  | some bytes => ofBytes bytes
  | none => .error malformedText

/-- The text of the key alone. -/
def keyText (r : Receiver G) : String :=
  String.ofList (Base58.encodeChecked textVersion (encode r.key).toList)

/-- The text of the published bytes alone. -/
def txRandomText (r : Receiver G) : String :=
  String.ofList (Base58.encodeChecked textVersion r.txRandom.bytes.toList)

/-! ### JSON -/

/-- Why a JSON document is no receiver. -/
inductive JsonError where
  /-- The document is not a text. -/
  | notText
  /-- The text is no receiver. -/
  | refused (error : Error)
deriving DecidableEq, Repr

/-- The JSON document of a receiver. -/
def toJson (r : Receiver G) : String := Json.quote r.toText

/-- The receiver with the given JSON document. -/
def ofJson (document : String) : Except JsonError (Receiver G) :=
  match Json.scan document with
  | some [.text content] =>
    match Json.contentText? content with
    | some text => (ofText (String.ofList text)).mapError .refused
    | none => .error .notText
  | _ => .error .notText

end Receiver

end ConfidentialCoin
