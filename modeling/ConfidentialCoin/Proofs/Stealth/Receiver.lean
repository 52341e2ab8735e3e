import ConfidentialCoin.Stealth.Receiver
import Mathlib.Tactic.SplitIfs

/-!
# What a recipient reads

The bytes and the text of a receiver are exact: nothing is read but what is written, and it is read
as what was written (`Receiver.ofBytes_eq_ok_iff`, `Receiver.ofText_eq_ok_iff`). The fields that a
sender publishes next to the key come back one by one (`TxRandom.index_ofFields` and the lemmas
after it).

`Receiver.isOwnedBy_iff` and `Receiver.spendingKey_eq_ok_iff` say what the recipient computes from
these fields: the same one-time scalar, once as a key and once as its secret.
-/

namespace ConfidentialCoin

variable {F G : Type} [Encoding G]

/-! ### The published fields -/

namespace TxRandom

variable (ota conceal : G) (index : UInt32)

/-- An index is read back from its bytes. -/
theorem toUInt32_indexBytes : (indexBytes index).toNatBE.toUInt32 = index := by
  have hlt : index.toNat < Nat.pow 256 4 := index.toNat_lt
  rw [indexBytes, Bytes.toNatBE, Bytes.ofNatBE, ofBigEndian_bigEndian, Nat.mod_eq_of_lt hlt]
  exact UInt32.ofNat_toNat

@[simp] theorem index_ofFields : (ofFields ota conceal index).index = index := by
  rw [TxRandom.index, ofFields, indexSlot_ofSlots, toUInt32_indexBytes]

variable [LawfulEncoding G]

@[simp] theorem otaPoint_ofFields : (ofFields ota conceal index).otaPoint = .ok ota :=
  readPoint_eq_ok_iff.mpr (otaSlot_ofSlots ..)

@[simp] theorem concealPoint_ofFields : (ofFields ota conceal index).concealPoint = .ok conceal :=
  readPoint_eq_ok_iff.mpr (concealSlot_ofSlots ..)

end TxRandom

namespace Receiver

/-! ### Encodings -/

section Encodings

variable [LawfulEncoding G] {r : Receiver G}

/-- **Bytes.** A receiver has one string, and nothing else is read. -/
theorem ofBytes_eq_ok_iff {bytes : List UInt8} : ofBytes bytes = .ok r ↔ bytes = r.toBytes := by
  constructor
  · intro h
    cases bytes with
    | nil => cases h
    | cons type rest =>
      simp only [ofBytes] at h
      split_ifs at h with htype hlen
      obtain ⟨key, hkey, h⟩ := bind_eq_ok_iff.mp h
      obtain ⟨txRandom, htx, h⟩ := bind_eq_ok_iff.mp h
      -- The two parts that were read are those that the string was cut into.
      cases h
      have hkey := readPointSlice_eq_ok_iff.mp hkey
      have htx := TxRandom.ofBytes_eq_ok_iff.mp htx
      rw [toBytes, List.cons_append, ← hkey, ← htx, List.take_append_drop,
        Decidable.not_not.mp htype]
  · rintro rfl
    have hlen : ¬ ((encode r.key).toList ++ r.txRandom.bytes.toList).length < pointSize := by
      simp [pointSize]
    have hkey : (encode r.key).toList.length = pointSize := Bytes.length_toList _
    rw [toBytes, List.cons_append]
    simp only [ofBytes]
    rw [if_neg (not_not_intro rfl), if_neg hlen, List.take_left' hkey, List.drop_left' hkey]
    exact bind_eq_ok_iff.mpr ⟨r.key, readPointSlice_eq_ok_iff.mpr rfl,
      bind_eq_ok_iff.mpr ⟨r.txRandom, TxRandom.ofBytes_eq_ok_iff.mpr rfl, rfl⟩⟩

/-- **Text.** A receiver has one text, and nothing else is read. -/
theorem ofText_eq_ok_iff {text : String} : ofText text = .ok r ↔ text = r.toText := by
  rw [ofText]
  constructor
  · intro h
    split at h
    · next bytes hbytes =>
      rw [toText, ← ofBytes_eq_ok_iff.mp h, ← Base58.decodeChecked?_eq_some_iff.mp hbytes]
      exact String.ofList_toList.symm
    · cases h
  · rintro rfl
    rw [toText, String.toList_ofList, Base58.decodeChecked?_eq_some_iff.mpr rfl]
    exact ofBytes_eq_ok_iff.mpr rfl

end Encodings

/-! ### Ownership -/

section Ownership

variable [HashTarget F] [SMul F G] {r : Receiver G} {derive : F}

/-- What is recognised: the key is derived again from the published element and the index. -/
theorem isOwnedBy_iff [BaseMultiple F G] [Add G] [BEq G] [LawfulBEq G] {spend : G} :
    r.isOwnedBy derive spend ↔ ∃ p : G, r.txRandom.otaPoint = .ok p ∧
      oneTimeKey F (encode (derive • p)) r.txRandom.index spend = r.key := by
  rw [isOwnedBy, sharedPoint]
  rcases r.txRandom.otaPoint (G := G) with e | p <;> simp [bind, Except.bind]

/-- The secret: the one-time scalar, from the same element and index, and that of the spend key. -/
theorem spendingKey_eq_ok_iff [Add F] {spend x : F} :
    r.spendingKey derive spend = .ok x ↔ ∃ p : G, r.txRandom.otaPoint = .ok p ∧
      oneTimeScalar F (encode (derive • p)) r.txRandom.index + spend = x := by
  rw [spendingKey, sharedPoint]
  rcases r.txRandom.otaPoint (G := G) with e | p <;> simp [bind, Except.bind]

end Ownership

end Receiver

end ConfidentialCoin
