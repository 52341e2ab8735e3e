import ConfidentialCoin.Parameters
import ConfidentialCoin.ScalarVector

/-!
# Slots and bits

The vectors of a proof are divided into slots of 64 entries, one slot for each coin and the rest,
up to a power of two, empty: entry `i` is bit `i % 64` of slot `i / 64`. The proof adds up all its
claims with one weight each: slot `j` weighs `z ^ (2 + j)`, and bit `b` of a slot weighs `2 ^ b`
times the slot.

* `slotBits`: the entries themselves, the bits of the values.
* `slotWeights`, `bitWeights`, `entryWeight`: the weights.
-/

namespace ConfidentialCoin

variable {F : Type}

/-- The bits of the values in `slots` slots; a slot without a coin holds zeros. -/
def slotBits (F : Type) [Zero F] [One F] (values : List UInt64) (slots : Nat) : ScalarVector F :=
  (List.range slots).flatMap fun j => ScalarVector.bits (values.getD j 0) valueBits

/-- The weights of the slots, `z ^ (2 + j)`. -/
def slotWeights [One F] [Mul F] (z : F) (slots : Nat) : ScalarVector F :=
  (ScalarVector.powers z slots).mulScalar (z * z)

/-- The weights of the bits in a slot, `2 ^ b`. -/
def bitWeights (F : Type) [One F] [Mul F] [NatCast F] : ScalarVector F :=
  ScalarVector.powers ((2 : Nat) : F) valueBits

/-- The weight of entry `i`: that of its slot times that of its bit. -/
def entryWeight [Mul F] (slots bits : ScalarVector F) (i : Nat) : Except Fault F := do
  let slot ← entry slots (i / valueBits)
  let bit ← entry bits (i % valueBits)
  .ok (slot * bit)

/-- The weights of the first `n` entries. -/
def entryWeights [One F] [Mul F] [NatCast F] (slots : ScalarVector F) (n : Nat) :
    Except Fault (ScalarVector F) :=
  (List.range n).mapM (entryWeight slots (bitWeights F))

@[simp] theorem length_slotWeights [One F] [Mul F] (z : F) (slots : Nat) :
    (slotWeights z slots).length = slots := by
  simp [slotWeights]

@[simp] theorem length_bitWeights [One F] [Mul F] [NatCast F] :
    (bitWeights F).length = valueBits := ScalarVector.length_powers ..

@[simp] theorem length_slotBits [Zero F] [One F] (values : List UInt64) (slots : Nat) :
    (slotBits F values slots).length = valueBits * slots := by
  simp [slotBits, List.length_flatMap, List.map_const', Nat.mul_comm]

end ConfidentialCoin
