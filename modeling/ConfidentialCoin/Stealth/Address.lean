import ConfidentialCoin.Stealth.Bucket

/-!
# Payment addresses and one-time keys

A recipient publishes a spend key `S` and a second key `K = k * B` to derive one-time keys with. A
sender who picks `r` shares the element `r * K = k * (r * B)` with the recipient, and the one-time
key number `i` is `hash (r * K, i) * B + S`: only the recipient can tell that it is theirs, and
only who knows the secret of `S` can spend from it.
-/

namespace ConfidentialCoin

/-- The long-term keys of a recipient. -/
structure PaymentAddress (G : Type) where
  /-- The key that spends. -/
  spend : G
  /-- The key that one-time keys are derived with. -/
  derive : G
deriving DecidableEq

namespace PaymentAddress

variable {F G : Type}

/-- The address of the given secrets. -/
def ofSecrets [BaseMultiple F G] (spend derive : F) : PaymentAddress G :=
  ⟨mulBase spend, mulBase derive⟩

/-- The shard of an address. -/
def shard [Encoding G] (address : PaymentAddress G) : UInt8 :=
  shardOfByte (encode address.spend).last

end PaymentAddress

/-- The scalar that separates the one-time key number `index` from the spend key; of the shared
element only its encoding matters. -/
def oneTimeScalar (F : Type) [HashTarget F] (shared : Bytes 32) (index : UInt32) : F :=
  hashTo (shared.toList ++ bigEndian 4 index.toNat)

/-- The one-time key number `index`. -/
def oneTimeKey (F : Type) {G : Type} [HashTarget F] [BaseMultiple F G] [Add G] (shared : Bytes 32)
    (index : UInt32) (spend : G) : G :=
  mulBase (oneTimeScalar F shared index) + spend

end ConfidentialCoin
