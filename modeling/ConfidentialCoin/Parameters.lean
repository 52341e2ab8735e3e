/-!
# Sizes

The numbers that prover, verifier and address search agree on.
-/

namespace ConfidentialCoin

/-- Bits of every proven value. -/
def valueBits : Nat := 64

/-- Most coins that one proof covers. -/
def maxCoins : Nat := 30

/-- Default bound of the address search. -/
def defaultMaxTries : UInt32 := 50000

/-- Shards that addresses and coins are partitioned into. -/
def shardCount : UInt8 := 8

/-- Bytes of an encoded group element. -/
def pointSize : Nat := 32

/-- Bytes of an encoded scalar. -/
def scalarSize : Nat := 32

/-- The least power of two that is at least `n`; 1 for `n = 0`. Below `n` come the
powers up to the leading bit of `n - 1`. -/
def roundUpPowTwo (n : Nat) : Nat := if n ≤ 1 then 1 else 1 <<< (Nat.log2 (n - 1) + 1)

/-- The least power of two that is at least `n`, in 64 bits: past `2 ^ 63` there is none, and the
answer is 0. -/
def roundUpPowTwo64 (n : UInt64) : UInt64 := (roundUpPowTwo n.toNat).toUInt64

/-- Slots of a proof that covers `coins` coins. -/
def slotCount (coins : Nat) : Nat := roundUpPowTwo coins

/-- Length of the vectors of a proof that covers `coins` coins: 64 entries for each slot. -/
def proofSize (coins : Nat) : Nat := valueBits * slotCount coins

/-- Generators that the largest proof needs. -/
def maxCapacity : Nat := proofSize maxCoins

example : roundUpPowTwo 0 = 1 ∧ roundUpPowTwo 5 = 8 ∧ maxCapacity = 2048 := by decide

end ConfidentialCoin
