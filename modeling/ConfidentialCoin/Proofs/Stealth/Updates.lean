import ConfidentialCoin.Proofs.Ristretto.Exponent
import ConfidentialCoin.Proofs.Stealth.Receiver

/-!
# The published bytes are updated field by field

The 68 bytes that are published next to a key hold two elements with the index between them. An
update sets one of the three, and is a write of the new bytes over the old ones in the place of the
field (`TxRandom.bytes_apply`). The places do not overlap (`TxRandom.Field.disjoint`), and a write
changes nothing outside its place (`window_overwrite_of_disjoint`): so after any sequence of updates
a field holds the bytes of its last update, or what it held before if there was none
(`TxRandom.fieldBytes_updateAll`). Nothing is asked of the bytes at the start, which need not be
encodings.

What is read of a field depends on its bytes alone, which gives `TxRandom.updates_exact`.
-/

namespace ConfidentialCoin

variable {G : Type}

/-! ### Writing into a byte string -/

/-- The `n` bytes of a string from an offset on. -/
def window (bytes : List UInt8) (offset n : ℕ) : List UInt8 := (bytes.drop offset).take n

/-- The string with new bytes over the old ones from an offset on. -/
def overwrite (bytes : List UInt8) (offset : ℕ) (new : List UInt8) : List UInt8 :=
  bytes.take offset ++ (new ++ bytes.drop (offset + new.length))

section Overwrite

variable {bytes new : List UInt8} {offset : ℕ}

/-- The new bytes are where they were written. -/
theorem window_overwrite_self (h : offset ≤ bytes.length) :
    window (overwrite bytes offset new) offset new.length = new := by
  have htake : (bytes.take offset).length = offset := by rw [List.length_take, Nat.min_eq_left h]
  rw [window, overwrite, List.drop_left' htake, List.take_left' rfl]

/-- Bytes before or after the new ones are the old ones. -/
theorem window_overwrite_of_disjoint {i n : ℕ} (h : offset + new.length ≤ bytes.length)
    (hdisjoint : i + n ≤ offset ∨ offset + new.length ≤ i) :
    window (overwrite bytes offset new) i n = window bytes i n := by
  have htake : (bytes.take offset).length = offset := by
    rw [List.length_take, Nat.min_eq_left (by omega)]
  refine List.ext_getElem? fun k => ?_
  rcases Nat.lt_or_ge k n with hk | hk
  · rw [window, window, List.getElem?_take_of_lt hk, List.getElem?_take_of_lt hk,
      List.getElem?_drop, List.getElem?_drop, overwrite]
    rcases hdisjoint with hbefore | hafter
    · rw [List.getElem?_append_left (by omega), List.getElem?_take_of_lt (by omega)]
    · have hplace : offset + new.length + (i + k - offset - new.length) = i + k := by omega
      rw [List.getElem?_append_right (by omega), htake, List.getElem?_append_right (by omega),
        List.getElem?_drop, hplace]
  · rw [window, window, List.getElem?_take_eq_none hk, List.getElem?_take_eq_none hk]

end Overwrite

namespace TxRandom

/-! ### Fields -/

/-- The fields of the published bytes. -/
inductive Field where
  /-- The element for the key. -/
  | ota
  | index
  /-- The element for the amount. -/
  | conceal
deriving DecidableEq

namespace Field

/-- The offset of the first byte of a field. -/
def offset : Field → ℕ
  | ota => 0
  | index => 32
  | conceal => 36

/-- Bytes of a field. -/
def width : Field → ℕ
  | ota => 32
  | index => 4
  | conceal => 32

/-- A field lies within the 68 bytes. -/
theorem offset_add_width_le (f : Field) : f.offset + f.width ≤ 68 := by
  cases f <;> decide

/-- Different fields have no byte in common. -/
theorem disjoint {f f' : Field} (h : f ≠ f') :
    f.offset + f.width ≤ f'.offset ∨ f'.offset + f'.width ≤ f.offset := by
  cases f <;> cases f' <;> simp_all [offset, width]

end Field

/-- The bytes of a field. -/
def fieldBytes (t : TxRandom) (f : Field) : List UInt8 := window t.bytes.toList f.offset f.width

/-- The fields are all there is. -/
theorem ext_fieldBytes {t t' : TxRandom} (h : ∀ f, t.fieldBytes f = t'.fieldBytes f) : t = t' := by
  have hota : t.otaSlot = t'.otaSlot := Bytes.ext (h .ota)
  have hindex : t.indexSlot = t'.indexSlot := Bytes.ext (h .index)
  have hconceal : t.concealSlot = t'.concealSlot := Bytes.ext (h .conceal)
  rw [← ofSlots_slots t, hota, hindex, hconceal, ofSlots_slots]

/-- The index depends on its own bytes only. -/
theorem index_eq_of_fieldBytes {t t' : TxRandom} (h : t.fieldBytes .index = t'.fieldBytes .index) :
    t.index = t'.index := by
  have hslot : t.indexSlot = t'.indexSlot := Bytes.ext h
  rw [index, hslot, index]

section

variable [Encoding G] {t t' : TxRandom}

theorem otaPoint_eq_of_fieldBytes (h : t.fieldBytes .ota = t'.fieldBytes .ota) :
    (t.otaPoint : Except Error G) = t'.otaPoint := by
  have hslot : t.otaSlot = t'.otaSlot := Bytes.ext h
  rw [otaPoint, hslot, otaPoint]

theorem concealPoint_eq_of_fieldBytes (h : t.fieldBytes .conceal = t'.fieldBytes .conceal) :
    (t.concealPoint : Except Error G) = t'.concealPoint := by
  have hslot : t.concealSlot = t'.concealSlot := Bytes.ext h
  rw [concealPoint, hslot, concealPoint]

end

/-! ### Updates -/

/-- A change of one field. -/
inductive Update (G : Type) where
  | index (i : UInt32)
  | otaPoint (p : G)
  | concealPoint (p : G)

namespace Update

/-- The field that is set. -/
def field : Update G → Field
  | index _ => .index
  | otaPoint _ => .ota
  | concealPoint _ => .conceal

variable [Encoding G]

/-- The string after an update. -/
def apply (t : TxRandom) : Update G → TxRandom
  | index i => t.setIndex i
  | otaPoint p => t.setOtaPoint p
  | concealPoint p => t.setConcealPoint p

/-- The bytes that are written. -/
def bytes : Update G → List UInt8
  | index i => bigEndian 4 i.toNat
  | otaPoint p => (encode p).toList
  | concealPoint p => (encode p).toList

theorem length_bytes (u : Update G) : u.bytes.length = u.field.width := by
  cases u with
  | index i => exact length_bigEndian 4 i.toNat
  | otaPoint p => exact (encode p).length_toList
  | concealPoint p => exact (encode p).length_toList

end Update

variable [Encoding G]

/-- **In place.** An update writes its bytes over those of its field. -/
theorem bytes_apply (u : Update G) (t : TxRandom) :
    (u.apply t).bytes.toList = overwrite t.bytes.toList u.field.offset u.bytes := by
  have hlength : t.bytes.toList.length = 68 := t.bytes.length_toList
  -- The slots before and after a field make up the string before and after its place.
  have hindex : t.bytes.toList.take 36 =
      t.bytes.toList.take 32 ++ (t.bytes.toList.drop 32).take 4 := List.take_add (j := 4)
  have hend : (t.bytes.toList.drop 36).take 32 = t.bytes.toList.drop 36 :=
    List.take_of_length_le (by rw [List.length_drop, hlength])
  have hrest : t.bytes.toList.drop 32 =
      (t.bytes.toList.drop 32).take 4 ++ t.bytes.toList.drop 36 := by
    rw [← List.drop_drop (i := 4) (j := 32), List.take_append_drop]
  rw [overwrite, u.length_bytes]
  cases u with
  | index i =>
    simp only [Update.apply, setIndex, ofSlots, Bytes.append, otaSlot, concealSlot, Bytes.slice,
      hend, List.append_assoc]
    rfl
  | otaPoint p =>
    simp only [Update.apply, setOtaPoint, ofSlots, Bytes.append, indexSlot, concealSlot,
      Bytes.slice, hend, List.append_assoc, ← hrest]
    rfl
  | concealPoint p =>
    simp only [Update.apply, setConcealPoint, ofSlots, Bytes.append, otaSlot, indexSlot,
      Bytes.slice, List.drop_zero, ← hindex]
    simp [Update.field, Field.offset, Field.width, Update.bytes, hlength]

/-- **Step.** The field of an update holds the bytes written, and every other field what it held. -/
theorem fieldBytes_apply (u : Update G) (t : TxRandom) (f : Field) :
    (u.apply t).fieldBytes f = if u.field = f then u.bytes else t.fieldBytes f := by
  have hlength : t.bytes.toList.length = 68 := t.bytes.length_toList
  have hplace := u.field.offset_add_width_le
  rw [fieldBytes, bytes_apply]
  split_ifs with hf
  · rw [← hf, ← u.length_bytes, window_overwrite_self (by omega)]
  · refine window_overwrite_of_disjoint ?_ ?_
    · rwa [u.length_bytes, hlength]
    · rw [u.length_bytes]
      exact (Field.disjoint hf).symm

/-- The string after updates, one after another. -/
def updateAll (t : TxRandom) (us : List (Update G)) : TxRandom := us.foldl Update.apply t

omit [Encoding G] in
/-- The last update of a field, if there is one. -/
def lastOf (f : Field) (us : List (Update G)) : Option (Update G) :=
  (us.filter fun u => u.field = f).getLast?

omit [Encoding G] in
/-- There is no last update of a field that was never written. -/
theorem lastOf_eq_none_iff {f : Field} {us : List (Update G)} :
    lastOf f us = none ↔ ∀ u ∈ us, u.field ≠ f := by
  simp [lastOf]

omit [Encoding G] in
theorem lastOf_append_singleton (f : Field) (us : List (Update G)) (u : Update G) :
    lastOf f (us ++ [u]) = if u.field = f then some u else lastOf f us := by
  rw [lastOf, List.filter_append, lastOf]
  split_ifs with hf
  · rw [List.filter_singleton, decide_eq_true hf, cond_true, List.getLast?_concat]
  · rw [List.filter_singleton, decide_eq_false hf, cond_false, List.append_nil]

/-- **Run.** After any updates a field holds the bytes of its last one, or what it held before. -/
theorem fieldBytes_updateAll (us : List (Update G)) (t : TxRandom) (f : Field) :
    (t.updateAll us).fieldBytes f = ((lastOf f us).map Update.bytes).getD (t.fieldBytes f) := by
  induction us using List.reverseRecOn with
  | nil => rfl
  | append_singleton us u ih =>
    have hlast : t.updateAll (us ++ [u]) = u.apply (t.updateAll us) := by
      rw [updateAll, List.foldl_append, updateAll]
      rfl
    rw [hlast, fieldBytes_apply, lastOf_append_singleton, ih]
    split_ifs <;> rfl

/-! ### What is read after updates -/

section Reading

variable {us : List (Update G)} {t : TxRandom}

/-- The index that was written last is read. -/
theorem index_updateAll {i : UInt32} (h : lastOf .index us = some (.index i)) :
    (t.updateAll us).index = i := by
  have hfield := fieldBytes_updateAll us t .index
  rw [h] at hfield
  have hslot : (t.updateAll us).indexSlot = indexBytes i := Bytes.ext hfield
  rw [index, hslot, toUInt32_indexBytes]

variable {p : G} (hdecode : decode? (encode p) = some p)
include hdecode

theorem otaPoint_updateAll (h : lastOf .ota us = some (.otaPoint p)) :
    (t.updateAll us).otaPoint = .ok p := by
  have hfield := fieldBytes_updateAll us t .ota
  rw [h] at hfield
  have hslot : (t.updateAll us).otaSlot = encode p := Bytes.ext hfield
  rw [otaPoint, hslot, readPoint, hdecode]

theorem concealPoint_updateAll (h : lastOf .conceal us = some (.concealPoint p)) :
    (t.updateAll us).concealPoint = .ok p := by
  have hfield := fieldBytes_updateAll us t .conceal
  rw [h] at hfield
  have hslot : (t.updateAll us).concealSlot = encode p := Bytes.ext hfield
  rw [concealPoint, hslot, readPoint, hdecode]

end Reading

/-- A field that no update sets holds what it held. -/
theorem fieldBytes_updateAll_of_forall_ne {us : List (Update G)} {f : Field}
    (h : ∀ u ∈ us, u.field ≠ f) (t : TxRandom) :
    (t.updateAll us).fieldBytes f = t.fieldBytes f := by
  rw [fieldBytes_updateAll, lastOf_eq_none_iff.mpr h]
  rfl

/-- **Updates.** Take any 68 bytes and any sequence of updates of their three fields, and let
decoding undo encoding. The index that is read afterwards is the last one set, and so are the two
elements. A field that was never set has the bytes that it had, and reads as it did, be it a value
or the reason why there is none. Of two sequences that set the same fields, to the same last value
each, the bytes afterwards are the same. The string is read back from its bytes, and bytes of any
other number are refused. -/
theorem updates_exact (hdecode : ∀ p : G, decode? (encode p) = some p) (start : TxRandom)
    (us : List (Update G)) :
    let t := start.updateAll us
    ((∀ i, lastOf .index us = some (.index i) → t.index = i) ∧
      (∀ p, lastOf .ota us = some (.otaPoint p) → t.otaPoint = .ok p) ∧
      ∀ p, lastOf .conceal us = some (.concealPoint p) → t.concealPoint = .ok p) ∧
    ((∀ f, (∀ u ∈ us, u.field ≠ f) → t.fieldBytes f = start.fieldBytes f) ∧
      ((∀ u ∈ us, u.field ≠ .index) → t.index = start.index) ∧
      ((∀ u ∈ us, u.field ≠ .ota) → (t.otaPoint : Except Error G) = start.otaPoint) ∧
      ((∀ u ∈ us, u.field ≠ .conceal) →
        (t.concealPoint : Except Error G) = start.concealPoint)) ∧
    (∀ us', (∀ f, lastOf f us' = lastOf f us) → start.updateAll us' = t) ∧
    ofBytes t.bytes.toList = .ok t ∧
    ∀ bytes, bytes.length ≠ 68 →
      ofBytes bytes = .error (.invalidInput "tx random must be 68 bytes") := by
  intro t
  have hkept (f : Field) (h : ∀ u ∈ us, u.field ≠ f) : t.fieldBytes f = start.fieldBytes f :=
    fieldBytes_updateAll_of_forall_ne h start
  refine ⟨⟨fun i => index_updateAll, fun p => otaPoint_updateAll (hdecode p),
      fun p => concealPoint_updateAll (hdecode p)⟩,
    ⟨hkept, fun h => index_eq_of_fieldBytes (hkept _ h),
      fun h => otaPoint_eq_of_fieldBytes (hkept _ h),
      fun h => concealPoint_eq_of_fieldBytes (hkept _ h)⟩,
    fun us' hlast => ext_fieldBytes fun f => ?_, ofBytes_eq_ok_iff.mpr rfl, fun bytes hlength => ?_⟩
  · rw [fieldBytes_updateAll, fieldBytes_updateAll, hlast]
  · have hnone : Bytes.ofList? 68 bytes = none := dif_neg hlength
    rw [ofBytes, hnone]

open Ristretto in
/-- Bytes none of whose elements decode, the index set twice and one element once: the last index
and the element are read, the other element is still none, and the order of the two fields is of no
matter. -/
theorem updates_exact_exponent :
    let start : TxRandom := ⟨⟨List.replicate 68 255, by decide⟩⟩
    let us : List (Update Exponent) := [.index 7, .concealPoint basePoint, .index 9]
    let t := start.updateAll us
    t.index = 9 ∧ t.concealPoint = .ok (basePoint : Exponent) ∧
      (start.otaPoint : Except Error Exponent) = .error .notAPoint ∧
      (t.otaPoint : Except Error Exponent) = .error .notAPoint ∧
      start.updateAll [.index 9, .concealPoint (basePoint : Exponent)] = t ∧
      ofBytes (t.bytes.toList ++ [0]) = .error (.invalidInput "tx random must be 68 bytes") := by
  intro start us t
  obtain ⟨⟨hindex, -, hconceal⟩, ⟨-, -, hota, -⟩, horder, -, hlength⟩ :=
    updates_exact LawfulEncoding.decode?_encode start us
  have hnone : (start.otaPoint : Except Error Exponent) = .error .notAPoint := by decide +kernel
  refine ⟨hindex 9 rfl, hconceal basePoint rfl, hnone, ?_, ?_, ?_⟩
  · exact (hota (by simp [us, Update.field])).trans hnone
  · exact horder _ fun f => by cases f <;> rfl
  · exact hlength _ (by simp)

end TxRandom

end ConfidentialCoin
