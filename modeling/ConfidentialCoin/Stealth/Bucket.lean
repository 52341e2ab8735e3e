import ConfidentialCoin.Error
import ConfidentialCoin.Parameters

/-!
# Shards and buckets

Addresses and coins are partitioned into eight shards by the last byte of a key. Of the seven low
bits of a coin's key, the lowest three are the shard of the receiver, the next three the shard of
the sender, and the top one says whether the coin is a transfer or minted. The three together are
the coin's bucket.
-/

namespace ConfidentialCoin

/-- How a coin comes to be. -/
inductive PrivacyType where
  /-- From other coins. -/
  | transfer
  /-- Newly minted. -/
  | mint
deriving DecidableEq, Repr

namespace PrivacyType

/-- The type with the given number. -/
def ofByte (b : UInt8) : Except Error PrivacyType :=
  if b = 0 then .ok .transfer
  else if b = 1 then .ok .mint
  else .error (.unsupportedPrivacyType b)

/-- The number of a type. -/
def toByte : PrivacyType → UInt8
  | .transfer => 0
  | .mint => 1

/-- The name of a type in reports. -/
def describe : PrivacyType → String
  | .transfer => "Transfer"
  | .mint => "Mint"

end PrivacyType

/-- The shard that a byte falls into. -/
def shardOfByte (b : UInt8) : UInt8 := b % shardCount

/-- The bucket of a coin. -/
structure Bucket where
  sender : UInt8
  receiver : UInt8
  /-- How the coin comes to be. -/
  privacyType : PrivacyType
deriving DecidableEq, Repr

namespace Bucket

/-- The shards of sender and receiver in the last byte of a key. -/
def shardsOfByte (b : UInt8) : UInt8 × UInt8 :=
  let n := b % 128
  (shardOfByte (n / shardCount), shardOfByte n)

/-- The bucket of the key with the given encoding. -/
def ofKeyBytes (key : Bytes 32) : Except Error Bucket := do
  let (sender, receiver) := shardsOfByte key.last
  let privacyType ← PrivacyType.ofByte (key.last % 128 / shardCount / shardCount)
  .ok ⟨sender, receiver, privacyType⟩

/-- The bucket of a key. -/
def ofKey {G : Type} [Encoding G] (key : G) : Except Error Bucket := ofKeyBytes (encode key)

/-- The text of a bucket in reports. -/
def describe (b : Bucket) : String :=
  "CoinShardInfo \x7b sender_shard: " ++ toString b.sender.toNat ++ ", receiver_shard: " ++
    toString b.receiver.toNat ++ ", privacy_type: " ++ b.privacyType.describe ++ " \x7d"

end Bucket

end ConfidentialCoin
