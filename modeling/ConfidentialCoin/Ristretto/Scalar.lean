import ConfidentialCoin.Bytes

/-!
# Scalars

Residues modulo the prime order of the group. A scalar is kept reduced, so that equality is
equality of residues and the 32-byte encoding is canonical.

* `Scalar.ofBytes?_toBytes` and `Scalar.toBytes_of_ofBytes?`: the encodings are exactly the
  32-byte little-endian numbers below the order, one for each scalar.
-/

namespace ConfidentialCoin.Ristretto

/-- The order of the group, `2 ^ 252 + 27742317777372353535851937790883648493`. -/
def order : Nat := (1 <<< 252) + 27742317777372353535851937790883648493

theorem order_pos : 0 < order := by decide

/-- A residue modulo the group order. -/
structure Scalar where
  val : Nat
  val_lt : val < order
deriving DecidableEq

namespace Scalar

/-- The residue of `n`. -/
def ofNat (n : Nat) : Scalar := ⟨n % order, Nat.mod_lt _ order_pos⟩

@[ext] theorem ext {a b : Scalar} (h : a.val = b.val) : a = b := by
  cases a; cases b; cases h; rfl

@[simp] theorem ofNat_val (a : Scalar) : ofNat a.val = a := by
  ext; exact Nat.mod_eq_of_lt a.val_lt

instance : Zero Scalar := ⟨ofNat 0⟩

instance : One Scalar := ⟨ofNat 1⟩

instance : NatCast Scalar := ⟨ofNat⟩

instance : Add Scalar := ⟨fun a b => ofNat (a.val + b.val)⟩

instance : Mul Scalar := ⟨fun a b => ofNat (a.val * b.val)⟩

instance : Neg Scalar := ⟨fun a => ofNat (order - a.val)⟩

instance : Sub Scalar := ⟨fun a b => ofNat (a.val + (order - b.val))⟩

/-- The product `acc * base ^ e`, by squaring. -/
def mulPow (acc base : Scalar) (e : Nat) : Scalar :=
  if e = 0 then acc
  else mulPow (if e % 2 = 1 then acc * base else acc) (base * base) (e / 2)
termination_by e

/-- The inverse, `a ^ (order - 2)`; the inverse of 0 is 0. -/
instance : Inv Scalar := ⟨fun a => mulPow 1 a (order - 2)⟩

/-! ### Bytes -/

/-- The canonical encoding. -/
def toBytes (a : Scalar) : Bytes 32 := .ofNatLE 32 a.val

/-- The scalar with the given canonical encoding. -/
def ofBytes? (b : Bytes 32) : Option Scalar :=
  if h : b.toNatLE < order then some ⟨b.toNatLE, h⟩ else none

/-- Decoding undoes encoding. -/
theorem ofBytes?_toBytes (a : Scalar) : ofBytes? a.toBytes = some a := by
  have hval : a.toBytes.toNatLE = a.val := by
    rw [toBytes, Bytes.toNatLE_ofNatLE, Nat.mod_eq_of_lt]
    exact Nat.lt_trans a.val_lt (by decide)
  simp [ofBytes?, hval, a.val_lt]

/-- What decodes is the encoding of its scalar. -/
theorem toBytes_of_ofBytes? {b : Bytes 32} {a : Scalar} (h : ofBytes? b = some a) :
    a.toBytes = b := by
  unfold ofBytes? at h
  split at h
  · cases h
    exact b.ofNatLE_toNatLE
  · cases h

/-- The residue of a 64-byte number, least significant byte first. -/
def ofWideBytes (b : Bytes 64) : Scalar := ofNat b.toNatLE

/-- Digit `i` of the residue in base `2 ^ width`, from the least significant. -/
@[inline] def digit (a : Scalar) (width i : Nat) : Nat := a.val >>> (width * i) % (1 <<< width)

end Scalar

end ConfidentialCoin.Ristretto
