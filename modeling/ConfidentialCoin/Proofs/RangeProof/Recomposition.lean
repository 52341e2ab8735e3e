import ConfidentialCoin.Proofs.RangeProof.Polynomial

/-!
# Bits recompose

A value enters a range proof as the vector of its bits, and two things are shown of such a vector.
Its entries are zeros and ones, which is to say that their products with their predecessors vanish
(`ScalarVector.hadamard_pred_eq_zeros_iff`). With the powers of two as weights they add up to the
value, or to what of it so many bits can hold (`ScalarVector.innerProduct_bits`).

The bits of all values stand one after another, in slots of 64 entries (`entry_slotBits`). With the
weights of the entries they add up to the weighted values, each slot to its own and a slot without a
coin to nothing (`innerProduct_slotBits`). `bits_recompose` says both, for one value at any width
and for the vector that a prover commits to.
-/

namespace ConfidentialCoin

open Finset

/-- A value has 64 bits, and the lowest of them, of any number, are among these. -/
theorem toNat_mod_two_pow_min (value : UInt64) (width : ℕ) :
    value.toNat % 2 ^ min width 64 = value.toNat % 2 ^ width := by
  rcases Nat.le_total width 64 with hle | hge
  · rw [Nat.min_eq_left hle]
  · have hlt : value.toNat < 2 ^ 64 := value.toNat_lt
    have hwide : value.toNat < 2 ^ width := hlt.trans_le (Nat.pow_le_pow_right Nat.two_pos hge)
    rw [Nat.min_eq_right hge, Nat.mod_eq_of_lt hlt, Nat.mod_eq_of_lt hwide]

variable {F : Type} [Field F]

/-! ### The bits of one value -/

namespace ScalarVector

/-- The bits of a value are zeros and ones. -/
theorem eq_zero_or_one_of_mem_bits {value : UInt64} {width : ℕ} {x : F}
    (h : x ∈ bits value width) : x = 0 ∨ x = 1 := by
  obtain ⟨i, -, rfl⟩ := List.mem_map.mp h
  split
  · exact .inr rfl
  · exact .inl rfl

/-- Entries whose products with their predecessors vanish are zeros and ones, and no others have
such products. -/
theorem hadamard_pred_eq_zeros_iff {a : ScalarVector F} :
    a.hadamard (a.addScalar (-1)) = .ok (zeros a.length) ↔ ∀ x ∈ a, x = 0 ∨ x = 1 := by
  have hproducts : List.zipWith (· * ·) a (a.addScalar (-1)) = a.map fun x => x * (x + -1) := by
    rw [addScalar, List.zipWith_map_right, List.zipWith_self]
  rw [hadamard_eq_ok_iff, hproducts, zeros, List.map_eq_replicate_iff, length_addScalar]
  simp only [true_and, mul_eq_zero, add_neg_eq_zero]

/-- **One value.** The weighted bits add up to the value, modulo what they cannot hold. -/
theorem innerProduct_bits (value : UInt64) (width : ℕ) :
    (bits value width).innerProduct (powers 2 width) =
      .ok ((value.toNat % 2 ^ width : ℕ) : F) := by
  rw [bits_eq_table, powers_eq_table, innerProduct_table, sum_testBit]

end ScalarVector

/-! ### The bits of all values -/

variable (values : List UInt64) (slots : ℕ)

/-- Entry `i` is bit `i % 64` of the value in slot `i / 64`. -/
theorem entry_slotBits {i : ℕ} (h : i < valueBits * slots) :
    entry (slotBits F values slots) i =
      entry (ScalarVector.bits (values.getD (i / valueBits) 0) valueBits) (i % valueBits) := by
  rw [slotBits_eq_table, entry_table h, ScalarVector.bits_eq_table,
    entry_table (Nat.mod_lt i valueBits_pos), bitAt]

theorem eq_zero_or_one_of_mem_slotBits {x : F} (h : x ∈ slotBits F values slots) :
    x = 0 ∨ x = 1 := by
  obtain ⟨j, -, hx⟩ := List.mem_flatMap.mp h
  exact ScalarVector.eq_zero_or_one_of_mem_bits hx

/-- **All values.** The weighted bits of all slots add up to the weighted values. -/
theorem innerProduct_slotBits (z : F) :
    (slotBits F values slots).innerProduct (table (valueBits * slots) (weightAt z)) =
      .ok (∑ j ∈ range slots, z ^ (2 + j) * ((values.getD j 0).toNat : F)) := by
  rw [slotBits_eq_table, ScalarVector.innerProduct_table, sum_mul_weightAt]
  simp only [slotValue_bitAt]

/-- **Recomposition.** The lowest bits of a value, as many as one likes and also more than 64, are a
vector of that length, of zeros and ones. Its inner product with the powers of two is the value
modulo `2 ^ width`, or modulo `2 ^ 64` if there are more bits than that. Now let any values be given
and as many slots as one likes, those without a value filled with zeros. Entry `i` of the vector of
all bits is bit `i % 64` of value `i / 64`, and the products of the entries with their predecessors
are zero. For every `z` the entries have weights, `z ^ (2 + j) * 2 ^ b` for bit `b` of slot `j`, and
the inner product with these is the sum of the values with the weights `z ^ (2 + j)`. -/
theorem bits_recompose (F : Type) [Field F] :
    (∀ (value : UInt64) (width : ℕ),
      let bits : ScalarVector F := ScalarVector.bits value width
      bits.length = width ∧ (∀ x ∈ bits, x = 0 ∨ x = 1) ∧
        bits.innerProduct (ScalarVector.powers 2 width) =
          .ok ((value.toNat % 2 ^ min width 64 : ℕ) : F)) ∧
    ∀ (values : List UInt64) (slots : ℕ),
      let n := valueBits * slots
      let aL := slotBits F values slots
      aL.length = n ∧
        (∀ i < n, entry aL i =
          entry (ScalarVector.bits (values.getD (i / valueBits) 0) valueBits) (i % valueBits)) ∧
        aL.hadamard (aL.addScalar (-1)) = .ok (ScalarVector.zeros n) ∧
        ∀ z : F,
          let weights := table n fun i => z ^ (2 + i / valueBits) * 2 ^ (i % valueBits)
          entryWeights (slotWeights z slots) n = .ok weights ∧
            aL.innerProduct weights =
              .ok (∑ j ∈ range slots, z ^ (2 + j) * ((values.getD j 0).toNat : F)) := by
  refine ⟨fun value width => ⟨?_, ?_, ?_⟩, fun values slots => ⟨?_, ?_, ?_, fun z => ⟨?_, ?_⟩⟩⟩
  · exact ScalarVector.length_bits value width
  · exact fun x => ScalarVector.eq_zero_or_one_of_mem_bits
  · rw [toNat_mod_two_pow_min]
    exact ScalarVector.innerProduct_bits value width
  · exact length_slotBits values slots
  · exact fun i => entry_slotBits values slots
  · have hbits := ScalarVector.hadamard_pred_eq_zeros_iff.mpr fun x =>
      eq_zero_or_one_of_mem_slotBits (F := F) values slots
    rwa [length_slotBits] at hbits
  · exact entryWeights_eq_table z slots
  · exact innerProduct_slotBits values slots z

end ConfidentialCoin
