import ConfidentialCoin.Bytes
import ConfidentialCoin.Hash.Sha2
import ConfidentialCoin.Text.Radix

/-!
# Base-58 text with a checksum

Bytes are digits in base 256, and the letters of the alphabet are digits in base 58; a byte string
is written by converting its digits. In the checked form a version byte comes before the content
and the first four bytes of a double SHA-256 after it.

* `Base58.decode?_encode`, `Base58.encode_of_decode?`: texts over the alphabet and byte strings
  correspond one to one.
* `Base58.decodeChecked?_eq_some_iff`: reading accepts exactly what writing produces.
-/

namespace ConfidentialCoin.Base58

/-- The letters, in the order of their values. -/
def alphabet : List Char := "123456789ABCDEFGHJKLMNPQRSTUVWXYZabcdefghijkmnopqrstuvwxyz".toList

/-- The letter with the given value below 58. -/
def letter (d : Nat) : Char := alphabet.getD d '1'

def value? (c : Char) : Option Nat := alphabet.idxOf? c

theorem letter_of_value? {c : Char} {d : Nat} (h : value? c = some d) : letter d = c := by
  obtain ⟨hlt, heq, -⟩ := List.idxOf?_eq_some_iff.1 h
  simp [letter, List.getD_eq_getElem?_getD, List.getElem?_eq_getElem hlt, heq]

theorem value?_lt {c : Char} {d : Nat} (h : value? c = some d) : d < 58 := by
  obtain ⟨hlt, -, -⟩ := List.idxOf?_eq_some_iff.1 h
  exact hlt

/-- A digit is known from its letter. -/
theorem value?_letter {d : Nat} (h : d < 58) : value? (letter d) = some d := by
  have key : ∀ i : Fin 58, value? (letter i.val) = some i.val := by decide
  exact key ⟨d, h⟩

/-! ### Plain -/

/-- The text of a byte string. -/
def encode (bytes : List UInt8) : List Char :=
  (Radix.convert 256 58 (bytes.map (·.toNat))).map letter

/-- The byte string with the given text. -/
def decode? (text : List Char) : Option (List UInt8) := do
  let values ← text.mapM value?
  return (Radix.convert 58 256 values).map (·.toUInt8)

theorem mapM_value?_map_letter {ds : List Nat} (h : ∀ d ∈ ds, d < 58) :
    (ds.map letter).mapM value? = some ds := by
  induction ds with
  | nil => rfl
  | cons d ds ih =>
    simp [value?_letter (h d List.mem_cons_self), ih fun x hx => h x (List.mem_cons_of_mem _ hx)]

/-- A text that is read as digits is the one that writes them. -/
theorem map_letter_of_mapM_value? {text : List Char} {ds : List Nat}
    (h : text.mapM value? = some ds) : ds.map letter = text ∧ ∀ d ∈ ds, d < 58 := by
  induction text generalizing ds with
  | nil =>
    cases h
    exact ⟨rfl, by simp⟩
  | cons c cs ih =>
    simp only [List.mapM_cons, Option.bind_eq_bind, Option.bind_eq_some_iff, Option.pure_def,
      Option.some.injEq] at h
    obtain ⟨d, hd, ds', hds, rfl⟩ := h
    obtain ⟨hmap, hlt⟩ := ih hds
    refine ⟨by rw [List.map_cons, letter_of_value? hd, hmap], ?_⟩
    intro x hx
    rcases List.mem_cons.1 hx with rfl | hx
    · exact value?_lt hd
    · exact hlt x hx

theorem map_toUInt8_toNat (bytes : List UInt8) :
    (bytes.map (·.toNat)).map (·.toUInt8) = bytes := by
  rw [List.map_map]
  conv => rhs; rw [← List.map_id bytes]
  exact List.map_congr_left fun b _ => by simp

theorem map_toNat_toUInt8 {ds : List Nat} (h : ∀ d ∈ ds, d < 256) :
    (ds.map (·.toUInt8)).map (·.toNat) = ds := by
  rw [List.map_map]
  conv => rhs; rw [← List.map_id ds]
  refine List.map_congr_left fun d hd => ?_
  simpa using h d hd

/-- Reading undoes writing. -/
theorem decode?_encode (bytes : List UInt8) : decode? (encode bytes) = some bytes := by
  rw [decode?, encode, mapM_value?_map_letter fun d hd => Radix.lt_of_mem_convert (by decide) hd]
  simp only [Option.bind_eq_bind, Option.bind_some, Option.pure_def, Option.some.injEq]
  rw [Radix.convert_convert (by decide) (by decide), map_toUInt8_toNat]
  intro d hd
  obtain ⟨b, -, rfl⟩ := List.mem_map.1 hd
  exact b.toNat_lt

/-- A text that can be read is what its bytes are written as. -/
theorem encode_of_decode? {text : List Char} {bytes : List UInt8}
    (h : decode? text = some bytes) : encode bytes = text := by
  simp only [decode?, Option.bind_eq_bind, Option.bind_eq_some_iff, Option.pure_def,
    Option.some.injEq] at h
  obtain ⟨ds, hds, rfl⟩ := h
  obtain ⟨hmap, hlt⟩ := map_letter_of_mapM_value? hds
  rw [encode, map_toNat_toUInt8 fun d hd => Radix.lt_of_mem_convert (by decide) hd,
    Radix.convert_convert (by decide) (by decide) hlt, hmap]

/-! ### Checked -/

/-- Bytes of the checksum. -/
def checksumSize : Nat := 4

def checksum (bytes : List UInt8) : List UInt8 :=
  (sha256 (sha256 bytes).toList).toList.take checksumSize

@[simp] theorem length_checksum (bytes : List UInt8) : (checksum bytes).length = checksumSize := by
  simp [checksum, checksumSize]

/-- The text of a content under a version byte. -/
def encodeChecked (version : UInt8) (content : List UInt8) : List Char :=
  encode (version :: content ++ checksum (version :: content))

/-- The content with the given text under a version byte. -/
def decodeChecked? (version : UInt8) (text : List Char) : Option (List UInt8) := do
  let bytes ← decode? text
  let body := bytes.take (bytes.length - checksumSize)
  if bytes.drop (bytes.length - checksumSize) ≠ checksum body then none
  else
    match body with
    | [] => none
    | v :: content => if v = version then some content else none

/-- Reading accepts exactly what writing produces. -/
theorem decodeChecked?_eq_some_iff {version : UInt8} {text : List Char} {content : List UInt8} :
    decodeChecked? version text = some content ↔ text = encodeChecked version content := by
  constructor
  · intro h
    simp only [decodeChecked?, Option.bind_eq_bind, Option.bind_eq_some_iff] at h
    obtain ⟨bytes, hbytes, h⟩ := h
    split at h
    · cases h
    · next hsum =>
      have hsum := Decidable.not_not.1 hsum
      split at h
      · cases h
      · next v content' hbody =>
        split at h
        · next hv =>
          cases h
          subst hv
          -- The body and the checksum after it are the whole of the bytes.
          rw [encodeChecked, ← hbody, ← hsum, List.take_append_drop, encode_of_decode? hbytes]
        · cases h
  · rintro rfl
    have hlen : (version :: content ++ checksum (version :: content)).length - checksumSize =
        (version :: content).length := by
      rw [List.length_append, length_checksum, Nat.add_sub_cancel]
    simp only [decodeChecked?, encodeChecked, decode?_encode, Option.bind_eq_bind,
      Option.bind_some, hlen, List.take_left', List.drop_left']
    simp

end ConfidentialCoin.Base58
