/-!
# Byte strings

Byte strings are lists of `UInt8`. This module adds the fixed-width ones, `Bytes n`, and the two
ways of writing a natural number in a fixed number of bytes.

* `Bytes n`: a list of bytes together with the proof that it has `n` of them; `Bytes.ofList?`
  is the length check every decoder starts with.
* `littleEndian w n` and `bigEndian w n`: the number `n`, reduced modulo `256 ^ w`, in `w` bytes;
  `ofLittleEndian` and `ofBigEndian` read a byte string of any length back.
-/

namespace ConfidentialCoin

/-! ### Numbers in bytes -/

/-- The `w` bytes of `n`, least significant first; what does not fit is dropped. -/
def littleEndian : (w n : Nat) → List UInt8
  | 0, _ => []
  | w + 1, n => n.toUInt8 :: littleEndian w (n / 256)

/-- The number whose bytes, least significant first, are given. -/
def ofLittleEndian : List UInt8 → Nat
  | [] => 0
  | b :: bs => b.toNat + 256 * ofLittleEndian bs

/-- The `w` bytes of `n`, most significant first; what does not fit is dropped. -/
def bigEndian (w n : Nat) : List UInt8 := (littleEndian w n).reverse

/-- The number whose bytes, most significant first, are given. -/
def ofBigEndian (bs : List UInt8) : Nat := ofLittleEndian bs.reverse

@[simp] theorem length_littleEndian (w n : Nat) : (littleEndian w n).length = w := by
  induction w generalizing n with
  | zero => rfl
  | succ w ih => simp [littleEndian, ih]

@[simp] theorem length_bigEndian (w n : Nat) : (bigEndian w n).length = w := by
  simp [bigEndian]

/-- Reading undoes writing, up to the bytes that do not fit. -/
theorem ofLittleEndian_littleEndian (w n : Nat) :
    ofLittleEndian (littleEndian w n) = n % Nat.pow 256 w := by
  induction w generalizing n with
  | zero => simp [littleEndian, ofLittleEndian, Nat.mod_one]
  | succ w ih =>
    -- The lowest byte is the remainder by 256, and the others are the bytes of the quotient.
    rw [littleEndian, ofLittleEndian, ih, Nat.pow_eq, Nat.pow_eq, Nat.pow_succ', Nat.mod_mul]
    simp

/-- Writing undoes reading: a byte string is determined by its length and its number. -/
theorem littleEndian_ofLittleEndian (bs : List UInt8) :
    littleEndian bs.length (ofLittleEndian bs) = bs := by
  induction bs with
  | nil => rfl
  | cons b bs ih =>
    have hb : b.toNat < 256 := b.toNat_lt
    have hdiv : (b.toNat + 256 * ofLittleEndian bs) / 256 = ofLittleEndian bs := by omega
    have hmod : (b.toNat + 256 * ofLittleEndian bs).toUInt8 = b := by
      apply UInt8.toNat_inj.1
      simp only [Nat.toUInt8, UInt8.toNat_ofNat']
      omega
    rw [List.length_cons, littleEndian, ofLittleEndian, hdiv, hmod, ih]

/-- As many bytes write a number below as large a power of 256. -/
theorem ofLittleEndian_lt (bs : List UInt8) : ofLittleEndian bs < Nat.pow 256 bs.length := by
  induction bs with
  | nil => simp [ofLittleEndian]
  | cons b bs ih =>
    have hb : b.toNat < 256 := b.toNat_lt
    rw [Nat.pow_eq] at ih
    rw [ofLittleEndian, List.length_cons, Nat.pow_eq, Nat.pow_succ]
    omega

/-- Written in `w` bytes, a number is read back modulo `256 ^ w`. -/
theorem ofBigEndian_bigEndian (w n : Nat) : ofBigEndian (bigEndian w n) = n % Nat.pow 256 w := by
  simp [ofBigEndian, bigEndian, ofLittleEndian_littleEndian]

/-! ### Strings of a fixed width -/

/-- A byte string of exactly `n` bytes. -/
structure Bytes (n : Nat) where
  toList : List UInt8
  length_toList : toList.length = n
deriving DecidableEq

namespace Bytes

attribute [simp] length_toList

/-- A fixed-width string is its list of bytes. -/
@[ext] theorem ext {n : Nat} {a b : Bytes n} (h : a.toList = b.toList) : a = b := by
  cases a; cases b; cases h; rfl

/-- The string as one of width `n`, if that is its length. -/
def ofList? (n : Nat) (bs : List UInt8) : Option (Bytes n) :=
  if h : bs.length = n then some ⟨bs, h⟩ else none

@[simp] theorem ofList?_toList {n : Nat} (b : Bytes n) : ofList? n b.toList = some b := by
  simp [ofList?]

/-- A list becomes a string of `n` bytes exactly when it is that string. -/
theorem ofList?_eq_some_iff {n : Nat} {bs : List UInt8} {b : Bytes n} :
    ofList? n bs = some b ↔ bs = b.toList := by
  constructor
  · intro h
    unfold ofList? at h
    split at h
    · cases h; rfl
    · cases h
  · rintro rfl
    exact ofList?_toList b

/-- The string of `n` zero bytes. -/
def zero (n : Nat) : Bytes n := ⟨List.replicate n 0, List.length_replicate⟩

def append {m n : Nat} (a : Bytes m) (b : Bytes n) : Bytes (m + n) :=
  ⟨a.toList ++ b.toList, by simp⟩

/-- The `n` bytes that start at offset `i`. -/
def slice {m : Nat} (b : Bytes m) (i n : Nat) (h : i + n ≤ m := by decide) : Bytes n :=
  ⟨(b.toList.drop i).take n, by simp; omega⟩

def last {n : Nat} (b : Bytes (n + 1)) : UInt8 :=
  b.toList.getLast (by rw [← List.length_pos_iff]; simp)

/-- The number `n` in `w` bytes, least significant first. -/
def ofNatLE (w n : Nat) : Bytes w := ⟨littleEndian w n, length_littleEndian w n⟩

/-- The number `n` in `w` bytes, most significant first. -/
def ofNatBE (w n : Nat) : Bytes w := ⟨bigEndian w n, length_bigEndian w n⟩

/-- The number a string writes, least significant byte first. -/
def toNatLE {n : Nat} (b : Bytes n) : Nat := ofLittleEndian b.toList

/-- The number a string writes, most significant byte first. -/
def toNatBE {n : Nat} (b : Bytes n) : Nat := ofBigEndian b.toList

theorem toNatLE_lt {n : Nat} (b : Bytes n) : b.toNatLE < Nat.pow 256 n := by
  simpa [toNatLE] using ofLittleEndian_lt b.toList

/-- A byte string is the only one of its length that writes its number. -/
theorem ofNatLE_toNatLE {n : Nat} (b : Bytes n) : ofNatLE n b.toNatLE = b := by
  apply ext
  have h := littleEndian_ofLittleEndian b.toList
  rwa [length_toList] at h

theorem toNatLE_ofNatLE (w n : Nat) : (ofNatLE w n).toNatLE = n % Nat.pow 256 w :=
  ofLittleEndian_littleEndian w n

end Bytes

/-- The bytes of a text in UTF-8. -/
def textBytes (s : String) : List UInt8 := s.toUTF8.data.toList

end ConfidentialCoin
