import ConfidentialCoin.Error
import ConfidentialCoin.Parameters

/-!
# What a sender publishes next to a one-time key

The recipient needs the sender's `r * B` and the index of the key, and another element with which
the amount is concealed. They travel as one string of 68 bytes, which may be anything: whether the
elements decode is asked only when one is read.

* `otaSlot_ofSlots`, `indexSlot_ofSlots`, `concealSlot_ofSlots`: the three fields are independent.
* `ofSlots_slots`: there is nothing else in the string.
-/

namespace ConfidentialCoin

/-- The 68 published bytes. -/
structure TxRandom where
  /-- The element for the key, the index, and the element for the amount. -/
  bytes : Bytes 68
deriving DecidableEq

namespace TxRandom

def size : Nat := 2 * pointSize + 4

/-! ### Fields as bytes -/

/-- The bytes of the element for the key. -/
def otaSlot (t : TxRandom) : Bytes 32 := t.bytes.slice 0 32

/-- The bytes of the index. -/
def indexSlot (t : TxRandom) : Bytes 4 := t.bytes.slice 32 4

/-- The bytes of the element for the amount. -/
def concealSlot (t : TxRandom) : Bytes 32 := t.bytes.slice 36 32

/-- The string with the given fields. -/
def ofSlots (ota : Bytes 32) (index : Bytes 4) (conceal : Bytes 32) : TxRandom :=
  ⟨(ota.append index).append conceal⟩

@[simp] theorem otaSlot_ofSlots (o : Bytes 32) (i : Bytes 4) (c : Bytes 32) :
    (ofSlots o i c).otaSlot = o := by
  ext1
  simp [otaSlot, ofSlots, Bytes.slice, Bytes.append]

@[simp] theorem indexSlot_ofSlots (o : Bytes 32) (i : Bytes 4) (c : Bytes 32) :
    (ofSlots o i c).indexSlot = i := by
  ext1
  simp [indexSlot, ofSlots, Bytes.slice, Bytes.append]

@[simp] theorem concealSlot_ofSlots (o : Bytes 32) (i : Bytes 4) (c : Bytes 32) :
    (ofSlots o i c).concealSlot = c := by
  ext1
  have ho : o.toList.drop 36 = [] := List.drop_eq_nil_of_le (by simp)
  have hc : c.toList.take 32 = c.toList := List.take_of_length_le (by simp)
  simp [concealSlot, ofSlots, Bytes.slice, Bytes.append, List.drop_append, ho, hc]

@[simp] theorem ofSlots_slots (t : TxRandom) :
    ofSlots t.otaSlot t.indexSlot t.concealSlot = t := by
  obtain ⟨⟨bs, h⟩⟩ := t
  -- The three slices follow one another without a gap and end with the string.
  have hsplit : bs.take 32 ++ (bs.drop 32).take 4 ++ (bs.drop 36).take 32 = bs := by
    rw [List.take_of_length_le (l := bs.drop 36) (by simp [h]),
      show bs.drop 36 = (bs.drop 32).drop 4 by rw [List.drop_drop], List.append_assoc,
      List.take_append_drop, List.take_append_drop]
  simp [ofSlots, otaSlot, indexSlot, concealSlot, Bytes.slice, Bytes.append, hsplit]

/-! ### Reading -/

/-- The string with the given bytes. -/
def ofBytes (bs : List UInt8) : Except Error TxRandom :=
  match Bytes.ofList? 68 bs with
  | some b => .ok ⟨b⟩
  | none => .error (.invalidInput "tx random must be 68 bytes")

/-- Random data are read from their bytes and from nothing else. -/
theorem ofBytes_eq_ok_iff {bs : List UInt8} {t : TxRandom} :
    ofBytes bs = .ok t ↔ bs = t.bytes.toList := by
  unfold ofBytes
  split
  · next b hb =>
    rw [Bytes.ofList?_eq_some_iff] at hb
    subst hb
    constructor
    · rintro h; cases h; rfl
    · intro h; rw [Bytes.ext h]
  · next hb =>
    constructor
    · intro h; cases h
    · rintro rfl; simp at hb

/-- The index. -/
def index (t : TxRandom) : UInt32 := t.indexSlot.toNatBE.toUInt32

section

variable {G : Type} [Encoding G]

/-- The element for the key, if its bytes are one. -/
def otaPoint (t : TxRandom) : Except Error G := readPoint t.otaSlot

/-- The element for the amount, if its bytes are one. -/
def concealPoint (t : TxRandom) : Except Error G := readPoint t.concealSlot

end

/-! ### Writing -/

/-- The bytes of an index. -/
def indexBytes (index : UInt32) : Bytes 4 := .ofNatBE 4 index.toNat

/-- Replaces the index. -/
def setIndex (t : TxRandom) (index : UInt32) : TxRandom :=
  ofSlots t.otaSlot (indexBytes index) t.concealSlot

section

variable {G : Type} [Encoding G]

def setOtaPoint (t : TxRandom) (p : G) : TxRandom :=
  ofSlots (encode p) t.indexSlot t.concealSlot

def setConcealPoint (t : TxRandom) (p : G) : TxRandom :=
  ofSlots t.otaSlot t.indexSlot (encode p)

/-- The string with the given elements and index. -/
def ofFields (ota conceal : G) (index : UInt32) : TxRandom :=
  ofSlots (encode ota) (indexBytes index) (encode conceal)

end

/-- The string of zeros. -/
def zero : TxRandom := ⟨.zero size⟩

/-- A list of bytes in reports. -/
def describeBytes (bs : List UInt8) : String :=
  "[" ++ ", ".intercalate (bs.map fun b => toString b.toNat) ++ "]"

/-- The text of a string in reports. -/
def describe (t : TxRandom) : String :=
  "TxRandom \x7b ota_random_point: " ++ describeBytes t.otaSlot.toList ++ ", index: " ++
    toString t.index.toNat ++ ", conceal_random_point: " ++ describeBytes t.concealSlot.toList ++
    " \x7d"

end TxRandom

end ConfidentialCoin
