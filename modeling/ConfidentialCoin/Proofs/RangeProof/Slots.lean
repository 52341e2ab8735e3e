import ConfidentialCoin.InnerProduct.Argument
import ConfidentialCoin.Proofs.Vectors.Table
import ConfidentialCoin.RangeProof.Slots
import Mathlib.Algebra.BigOperators.Intervals
import Mathlib.Algebra.Order.Ring.GeomSum
import Mathlib.Data.Nat.Bitwise
import Mathlib.Tactic.LinearCombination

/-!
# Slots, bits and weights

The vectors of a range proof as tables: entry `i` is bit `i % 64` of slot `i / 64`
(`slotBits_eq_table`), of weight `z ^ (2 + i / 64) * 2 ^ (i % 64)` (`entryWeights_eq_table`). Sums
over all entries are sums over slots of sums over bits (`sum_slots`), and the weighted bits of a
slot add up to its value (`slotValue_bitAt`).

The number of slots is a power of two and at least the number of coins (`le_slotCount`,
`exists_slotCount_eq`), so the size of a proof is one too, with at most eleven folding rounds
(`proofSize_eq_two_pow`).
-/

namespace ConfidentialCoin

open Finset

theorem valueBits_pos : 0 < valueBits := by decide

/-! ### Sizes -/

theorem exists_slotCount_eq (coins : ℕ) :
    ∃ e, slotCount coins = 2 ^ e ∧ (coins ≤ maxCoins → e ≤ 5) := by
  rw [slotCount, roundUpPowTwo]
  split
  · exact ⟨0, rfl, fun _ => Nat.zero_le 5⟩
  · refine ⟨_, Nat.one_shiftLeft _, ?_⟩
    intro h
    have hlog : (coins - 1).log2 < 5 := (Nat.log2_lt (by omega)).mpr (by
      have : maxCoins = 30 := rfl
      omega)
    omega

/-- Every coin has a slot. -/
theorem le_slotCount (coins : ℕ) : coins ≤ slotCount coins := by
  rw [slotCount, roundUpPowTwo, Nat.one_shiftLeft]
  split
  · assumption
  · have h := Nat.lt_log2_self (n := coins - 1)
    omega

/-- The size of a proof is a power of two, at most 2048. -/
private theorem exists_proofSize_eq (coins : ℕ) :
    ∃ e, proofSize coins = 2 ^ e ∧ (coins ≤ maxCoins → e ≤ 11) := by
  obtain ⟨e, he, hle⟩ := exists_slotCount_eq coins
  refine ⟨6 + e, ?_, ?_⟩
  · rw [proofSize, he, pow_add]
    rfl
  · intro h
    have := hle h
    omega

/-- The size of a proof is a power of two, and the argument halves it in that many rounds. -/
theorem proofSize_eq_two_pow (coins : ℕ) :
    proofSize coins = 2 ^ InnerProduct.roundCount (proofSize coins) := by
  obtain ⟨e, he, -⟩ := exists_proofSize_eq coins
  rw [he, InnerProduct.roundCount, Nat.log2_two_pow]

/-- No proof has more than 11 rounds. -/
theorem roundCount_proofSize_le {coins : ℕ} (h : coins ≤ maxCoins) :
    InnerProduct.roundCount (proofSize coins) ≤ 11 := by
  obtain ⟨e, he, hle⟩ := exists_proofSize_eq coins
  rw [he, InnerProduct.roundCount, Nat.log2_two_pow]
  exact hle h

/-! ### Entries -/

section Index

variable {b : ℕ} (j : ℕ) (h : b < valueBits)
include h

theorem slot_of_entry : (valueBits * j + b) / valueBits = j := by
  rw [Nat.mul_add_div valueBits_pos, Nat.div_eq_of_lt h, Nat.add_zero]

theorem bit_of_entry : (valueBits * j + b) % valueBits = b := by
  rw [Nat.mul_add_mod, Nat.mod_eq_of_lt h]

end Index

theorem slot_lt {i slots : ℕ} (h : i < valueBits * slots) : i / valueBits < slots :=
  Nat.div_lt_of_lt_mul h

/-- A sum over all entries goes slot by slot. -/
theorem sum_slots {M : Type} [AddCommMonoid M] (slots : ℕ) (f : ℕ → M) :
    ∑ i ∈ range (valueBits * slots), f i =
      ∑ j ∈ range slots, ∑ b ∈ range valueBits, f (valueBits * j + b) := by
  induction slots with
  | zero => rfl
  | succ slots ih => rw [Nat.mul_succ, sum_range_add, ih, sum_range_succ]

/-- Slots one after another are the table of all entries. -/
theorem flatMap_table {α : Type} (slots : ℕ) (f : ℕ → ℕ → α) :
    ((List.range slots).flatMap fun j => table valueBits (f j)) =
      table (valueBits * slots) fun i => f (i / valueBits) (i % valueBits) := by
  induction slots with
  | zero => rfl
  | succ slots ih =>
    have hlast : (table valueBits fun b => f ((valueBits * slots + b) / valueBits)
        ((valueBits * slots + b) % valueBits)) = table valueBits (f slots) :=
      table_congr fun b hb => by rw [slot_of_entry slots hb, bit_of_entry slots hb]
    rw [List.range_succ, List.flatMap_append, ih, List.flatMap_singleton, ← hlast, Nat.mul_succ,
      table_add]

variable {F : Type}

/-- Entry `i` of the bits of the values. -/
def bitAt (F : Type) [Zero F] [One F] (values : List UInt64) (i : ℕ) : F :=
  if (values.getD (i / valueBits) 0).toNat.testBit (i % valueBits) then 1 else 0

/-- The bits of all slots, by their entries. -/
theorem slotBits_eq_table [Zero F] [One F] (values : List UInt64) (slots : ℕ) :
    slotBits F values slots = table (valueBits * slots) (bitAt F values) :=
  flatMap_table slots fun j b => if (values.getD j 0).toNat.testBit b then 1 else 0

section Field

variable [Field F]

/-- The weight of entry `i`, `z ^ (2 + i / 64) * 2 ^ (i % 64)`. -/
def weightAt (z : F) (i : ℕ) : F := z ^ (2 + i / valueBits) * 2 ^ (i % valueBits)

/-- The weight of slot `j` is `z ^ (2 + j)`. -/
theorem slotWeights_eq_table (z : F) (slots : ℕ) :
    slotWeights z slots = table slots fun j => z ^ (2 + j) := by
  rw [slotWeights, ScalarVector.powers_eq_table, ScalarVector.mulScalar_table]
  exact table_congr fun j _ => by ring

theorem bitWeights_eq_table : bitWeights F = table valueBits fun b => 2 ^ b := by
  rw [bitWeights, ScalarVector.powers_eq_table]
  exact table_congr fun b _ => by rw [Nat.cast_ofNat]

theorem entryWeight_eq (z : F) {slots i : ℕ} (h : i < valueBits * slots) :
    entryWeight (slotWeights z slots) (bitWeights F) i = .ok (weightAt z i) := by
  have hbit : i % valueBits < valueBits := Nat.mod_lt i valueBits_pos
  rw [entryWeight, slotWeights_eq_table, bitWeights_eq_table, entry_table (slot_lt h),
    entry_table hbit]
  rfl

theorem entryWeights_eq_table (z : F) (slots : ℕ) :
    entryWeights (slotWeights z slots) (valueBits * slots) =
      .ok (table (valueBits * slots) (weightAt z)) :=
  mapM_range_eq_ok fun _ h => entryWeight_eq z h

/-! ### Bits recompose -/

/-- An entry is zero or one. -/
theorem bitAt_mul_pred (values : List UInt64) (i : ℕ) :
    bitAt F values i * (bitAt F values i - 1) = 0 := by
  rw [bitAt]
  split <;> ring

/-- The lowest bits of a number add up to it, modulo what they cannot hold. -/
theorem sum_testBit (v width : ℕ) :
    ∑ b ∈ range width, (if v.testBit b then (1 : F) else 0) * 2 ^ b =
      ((v % 2 ^ width : ℕ) : F) := by
  induction width with
  | zero => simp [Nat.mod_one]
  | succ width ih =>
    have hbit : (if v.testBit width then (1 : F) else 0) = ((v / 2 ^ width % 2 : ℕ) : F) := by
      rw [← Nat.toNat_testBit]
      cases v.testBit width <;> simp
    rw [sum_range_succ, ih, Nat.mod_pow_succ, hbit]
    push_cast
    ring

/-- The entries of slot `j` read as the digits of a number. -/
def slotValue (a : ℕ → F) (j : ℕ) : F := ∑ b ∈ range valueBits, a (valueBits * j + b) * 2 ^ b

/-- The weighted bits of a slot add up to its value. -/
theorem slotValue_bitAt (values : List UInt64) (j : ℕ) :
    slotValue (bitAt F values) j = ((values.getD j 0).toNat : F) := by
  have hterm : ∀ b ∈ range valueBits, bitAt F values (valueBits * j + b) * 2 ^ b =
      (if (values.getD j 0).toNat.testBit b then (1 : F) else 0) * 2 ^ b := by
    intro b hb
    rw [bitAt, slot_of_entry j (mem_range.mp hb), bit_of_entry j (mem_range.mp hb)]
  rw [slotValue, sum_congr rfl hterm, sum_testBit, Nat.mod_eq_of_lt]
  exact (values.getD j 0).toNat_lt

/-- Entries that are zeros and ones are the bits of a number. -/
private theorem exists_nat_of_bits {a : ℕ → F} {width : ℕ}
    (h : ∀ b < width, a b * (a b - 1) = 0) :
    ∃ v : ℕ, v < 2 ^ width ∧ ∑ b ∈ range width, a b * 2 ^ b = (v : F) := by
  induction width with
  | zero => exact ⟨0, Nat.one_pos, by simp⟩
  | succ width ih =>
    obtain ⟨v, hv, hsum⟩ := ih fun b hb => h b (Nat.lt_succ_of_lt hb)
    rw [sum_range_succ, hsum]
    rcases mul_eq_zero.mp (h width (Nat.lt_succ_self width)) with h0 | h1
    · exact ⟨v, hv.trans (Nat.pow_lt_pow_succ Nat.one_lt_two), by rw [h0, zero_mul, add_zero]⟩
    · refine ⟨v + 2 ^ width, by rw [pow_succ]; omega, ?_⟩
      rw [sub_eq_zero.mp h1]
      push_cast
      ring

/-- Entries of a slot that are zeros and ones add up, with their weights, to a 64-bit value. -/
theorem exists_value_of_bits {a : ℕ → F} {j : ℕ}
    (h : ∀ b < valueBits, a (valueBits * j + b) * (a (valueBits * j + b) - 1) = 0) :
    ∃ v : UInt64, slotValue a j = (v.toNat : F) := by
  obtain ⟨v, hv, hsum⟩ := exists_nat_of_bits h
  have hsize : v < UInt64.size := hv
  exact ⟨.ofNatLT v hsize, by rw [slotValue, hsum, UInt64.toNat_ofNatLT]⟩

/-- The weights of the bits of one slot. -/
theorem sum_two_pow : ∑ b ∈ range valueBits, (2 : F) ^ b = ((UInt64.size - 1 : ℕ) : F) := by
  have h := Nat.geomSum_eq (Nat.le_refl 2) valueBits
  have hv : (2 ^ valueBits - 1) / (2 - 1) = UInt64.size - 1 := by decide
  rw [hv] at h
  exact_mod_cast congrArg (Nat.cast : ℕ → F) h

end Field

end ConfidentialCoin
