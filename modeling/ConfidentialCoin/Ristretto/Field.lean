import ConfidentialCoin.Bytes

/-!
# The field of order 2²⁵⁵ - 19

An element is held in ten limbs of alternately 26 and 25 bits, so that the products of limbs and
their sums fit in 64-bit words. The representation is not unique: `toNat` gives the residue, and
equality, sign and encoding go through it.

Every operation ends by carrying, so that a limb never exceeds its width by more than `2 ^ 18`.
With operands in that range a coefficient of a product stays below `2 ^ 62`, and a difference is
taken from twice the modulus, whose limbs are larger than any limb subtracted.
-/

namespace ConfidentialCoin.Ristretto

/-- The modulus, `2 ^ 255 - 19`. -/
def modulus : Nat := (1 <<< 255) - 19

/-- A field element in ten limbs; limb `i` has weight `2 ^ ⌈25.5 * i⌉`. -/
structure FieldElement where
  l0 : UInt64
  l1 : UInt64
  l2 : UInt64
  l3 : UInt64
  l4 : UInt64
  l5 : UInt64
  l6 : UInt64
  l7 : UInt64
  l8 : UInt64
  l9 : UInt64

namespace FieldElement

/-! ### Residues -/

/-- The residue that the limbs stand for. Two limbs make a digit in base `2 ^ 51`. -/
def toNat (x : FieldElement) : Nat :=
  ((((digit x.l8 x.l9 <<< 51 + digit x.l6 x.l7) <<< 51 + digit x.l4 x.l5) <<< 51 +
    digit x.l2 x.l3) <<< 51 + digit x.l0 x.l1) % modulus
where
  /-- The digit made of a limb of 26 bits and the limb above it. -/
  digit (low high : UInt64) : Nat := (low + (high <<< 26)).toNat

/-- The element with residue `n`. -/
def ofNat (n : Nat) : FieldElement :=
  let n := n % modulus
  ⟨limb n 0 26, limb n 26 25, limb n 51 26, limb n 77 25, limb n 102 26, limb n 128 25,
    limb n 153 26, limb n 179 25, limb n 204 26, limb n 230 25⟩
where
  /-- The `width` bits of `n` from bit `start` on. -/
  limb (n start width : Nat) : UInt64 := (n >>> start % (1 <<< width)).toUInt64

instance (n : Nat) : OfNat FieldElement n := ⟨ofNat n⟩

instance : BEq FieldElement := ⟨fun x y => x.toNat == y.toNat⟩

/-- An element is negative if its residue is odd. -/
def isNegative (x : FieldElement) : Bool := x.toNat % 2 == 1

/-! ### Arithmetic -/

/-- Passes what exceeds each limb on to the next, and from the last limb nineteen times to the
first, because `2 ^ 255` is 19. -/
@[inline] def carry (h0 h1 h2 h3 h4 h5 h6 h7 h8 h9 : UInt64) : FieldElement :=
  let low26 : UInt64 := 0x3ffffff
  let low25 : UInt64 := 0x1ffffff
  let h1 := h1 + (h0 >>> 26)
  let h2 := h2 + (h1 >>> 25)
  let h3 := h3 + (h2 >>> 26)
  let h4 := h4 + (h3 >>> 25)
  let h5 := h5 + (h4 >>> 26)
  let h6 := h6 + (h5 >>> 25)
  let h7 := h7 + (h6 >>> 26)
  let h8 := h8 + (h7 >>> 25)
  let h9 := h9 + (h8 >>> 26)
  let g0 := (h0 &&& low26) + (19 : UInt64) * (h9 >>> 25)
  ⟨g0 &&& low26, (h1 &&& low25) + (g0 >>> 26), h2 &&& low26, h3 &&& low25, h4 &&& low26,
    h5 &&& low25, h6 &&& low26, h7 &&& low25, h8 &&& low26, h9 &&& low25⟩

/-- Sum. -/
def add (x y : FieldElement) : FieldElement :=
  carry (x.l0 + y.l0) (x.l1 + y.l1) (x.l2 + y.l2) (x.l3 + y.l3) (x.l4 + y.l4) (x.l5 + y.l5)
    (x.l6 + y.l6) (x.l7 + y.l7) (x.l8 + y.l8) (x.l9 + y.l9)

/-- Difference, taken from twice the modulus. -/
def sub (x y : FieldElement) : FieldElement :=
  carry (x.l0 + 0x7ffffda - y.l0) (x.l1 + 0x3fffffe - y.l1) (x.l2 + 0x7fffffe - y.l2)
    (x.l3 + 0x3fffffe - y.l3) (x.l4 + 0x7fffffe - y.l4) (x.l5 + 0x3fffffe - y.l5)
    (x.l6 + 0x7fffffe - y.l6) (x.l7 + 0x3fffffe - y.l7) (x.l8 + 0x7fffffe - y.l8)
    (x.l9 + 0x3fffffe - y.l9)

/-- Product. The weights of two odd limbs multiply to twice the weight of their even sum, whence
the doubled odd limbs; limbs that meet past the last weight come back nineteenfold. -/
def mul (x y : FieldElement) : FieldElement :=
  let x0 := x.l0; let x1 := x.l1; let x2 := x.l2; let x3 := x.l3; let x4 := x.l4
  let x5 := x.l5; let x6 := x.l6; let x7 := x.l7; let x8 := x.l8; let x9 := x.l9
  let y0 := y.l0; let y1 := y.l1; let y2 := y.l2; let y3 := y.l3; let y4 := y.l4
  let y5 := y.l5; let y6 := y.l6; let y7 := y.l7; let y8 := y.l8; let y9 := y.l9
  let d1 := x1 + x1; let d3 := x3 + x3; let d5 := x5 + x5; let d7 := x7 + x7; let d9 := x9 + x9
  let z1 := (19 : UInt64) * y1; let z2 := (19 : UInt64) * y2; let z3 := (19 : UInt64) * y3
  let z4 := (19 : UInt64) * y4; let z5 := (19 : UInt64) * y5; let z6 := (19 : UInt64) * y6
  let z7 := (19 : UInt64) * y7; let z8 := (19 : UInt64) * y8; let z9 := (19 : UInt64) * y9
  carry
    (x0 * y0 + d1 * z9 + x2 * z8 + d3 * z7 + x4 * z6 +
      d5 * z5 + x6 * z4 + d7 * z3 + x8 * z2 + d9 * z1)
    (x0 * y1 + x1 * y0 + x2 * z9 + x3 * z8 + x4 * z7 +
      x5 * z6 + x6 * z5 + x7 * z4 + x8 * z3 + x9 * z2)
    (x0 * y2 + d1 * y1 + x2 * y0 + d3 * z9 + x4 * z8 +
      d5 * z7 + x6 * z6 + d7 * z5 + x8 * z4 + d9 * z3)
    (x0 * y3 + x1 * y2 + x2 * y1 + x3 * y0 + x4 * z9 +
      x5 * z8 + x6 * z7 + x7 * z6 + x8 * z5 + x9 * z4)
    (x0 * y4 + d1 * y3 + x2 * y2 + d3 * y1 + x4 * y0 +
      d5 * z9 + x6 * z8 + d7 * z7 + x8 * z6 + d9 * z5)
    (x0 * y5 + x1 * y4 + x2 * y3 + x3 * y2 + x4 * y1 +
      x5 * y0 + x6 * z9 + x7 * z8 + x8 * z7 + x9 * z6)
    (x0 * y6 + d1 * y5 + x2 * y4 + d3 * y3 + x4 * y2 +
      d5 * y1 + x6 * y0 + d7 * z9 + x8 * z8 + d9 * z7)
    (x0 * y7 + x1 * y6 + x2 * y5 + x3 * y4 + x4 * y3 +
      x5 * y2 + x6 * y1 + x7 * y0 + x8 * z9 + x9 * z8)
    (x0 * y8 + d1 * y7 + x2 * y6 + d3 * y5 + x4 * y4 +
      d5 * y3 + x6 * y2 + d7 * y1 + x8 * y0 + d9 * z9)
    (x0 * y9 + x1 * y8 + x2 * y7 + x3 * y6 + x4 * y5 +
      x5 * y4 + x6 * y3 + x7 * y2 + x8 * y1 + x9 * y0)

instance : Add FieldElement := ⟨add⟩

instance : Sub FieldElement := ⟨sub⟩

instance : Mul FieldElement := ⟨mul⟩

instance : Neg FieldElement := ⟨fun x => sub ⟨0, 0, 0, 0, 0, 0, 0, 0, 0, 0⟩ x⟩

/-- The square, with each mixed product taken once and doubled. -/
def square (x : FieldElement) : FieldElement :=
  let x0 := x.l0; let x1 := x.l1; let x2 := x.l2; let x3 := x.l3; let x4 := x.l4
  let x5 := x.l5; let x6 := x.l6; let x7 := x.l7; let x8 := x.l8; let x9 := x.l9
  let d0 := x0 + x0; let d1 := x1 + x1; let d2 := x2 + x2; let d3 := x3 + x3; let d4 := x4 + x4
  let d5 := x5 + x5; let d6 := x6 + x6; let d7 := x7 + x7
  let z5 := (38 : UInt64) * x5; let z6 := (19 : UInt64) * x6; let z7 := (38 : UInt64) * x7
  let z8 := (19 : UInt64) * x8; let z9 := (38 : UInt64) * x9
  carry
    (x0 * x0 + d1 * z9 + d2 * z8 + d3 * z7 + d4 * z6 + x5 * z5)
    (d0 * x1 + x2 * z9 + d3 * z8 + x4 * z7 + d5 * z6)
    (d0 * x2 + d1 * x1 + d3 * z9 + d4 * z8 + d5 * z7 + x6 * z6)
    (d0 * x3 + d1 * x2 + x4 * z9 + d5 * z8 + x6 * z7)
    (d0 * x4 + d1 * d3 + x2 * x2 + d5 * z9 + d6 * z8 + x7 * z7)
    (d0 * x5 + d1 * x4 + d2 * x3 + x6 * z9 + d7 * z8)
    (d0 * x6 + d1 * d5 + d2 * x4 + d3 * x3 + d7 * z9 + x8 * z8)
    (d0 * x7 + d1 * x6 + d2 * x5 + d3 * x4 + x8 * z9)
    (d0 * x8 + d1 * d7 + d2 * x6 + d3 * d5 + x4 * x4 + x9 * z9)
    (d0 * x9 + d1 * x8 + d2 * x7 + d3 * x6 + d4 * x5)

/-- The power `x ^ (2 ^ n)`. -/
def squareTimes : (n : Nat) → FieldElement → FieldElement
  | 0, x => x
  | n + 1, x => squareTimes n x.square

/-- The power `x ^ (2 ^ n - 1)`, for `n > 0`: the exponent, `n` ones in binary, is doubled in length
by a shift of half its length. -/
def powOnes (x : FieldElement) (n : Nat) : FieldElement :=
  if n ≤ 1 then x
  else if n % 2 = 0 then
    let half := powOnes x (n / 2)
    squareTimes (n / 2) half * half
  else (powOnes x (n - 1)).square * x
termination_by n

/-- The power `x ^ ((modulus - 5) / 8)`, the exponent being `2 ^ 252 - 3`. -/
def powRoot (x : FieldElement) : FieldElement := squareTimes 2 (powOnes x 250) * x

/-- The one of `x` and `-x` that is not negative. -/
def abs (x : FieldElement) : FieldElement := if x.isNegative then -x else x

/-! ### Constants and roots -/

/-- The coefficient `d` of the curve `-x² + y² = 1 + d x² y²`. -/
def curveD : FieldElement :=
  ofNat 37095705934669439343138083508754565189542113879843219016388785533085940283555

/-- Twice the coefficient `d`. -/
def twiceCurveD : FieldElement := curveD + curveD

/-- The even square root of -1. -/
def sqrtMinusOne : FieldElement :=
  ofNat 19681161376707505956807079304988542015446066515923890162744021073123829784752

/-- A square root of `-d - 1`. -/
def sqrtADMinusOne : FieldElement :=
  ofNat 25063068953384623474111414158702152701244531502492656460079210482610430750235

/-- A square root of `1 / (-1 - d)`. -/
def invSqrtAMinusD : FieldElement :=
  ofNat 54469307008909316920995813868745141605393597292927456921205312896311721017578

/-- The constant `1 - d²`. -/
def oneMinusDSquared : FieldElement := 1 - curveD.square

/-- The constant `(d - 1)²`. -/
def dMinusOneSquared : FieldElement := (curveD - 1).square

/-- The non-negative root of `u / v`, or of `u / v` times the root of -1 if `u / v` is no square,
together with the answer whether it is one. A quotient by zero counts as 0: a square exactly if
`u` is 0. -/
def sqrtRatio (u v : FieldElement) : Bool × FieldElement :=
  let v3 := v.square * v
  let v7 := v3.square * v
  let r := u * v3 * powRoot (u * v7)
  let check := (v * r.square).toNat
  -- The candidate is off by a fourth root of 1; a factor of the root of -1 mends half the cases.
  let negU := -u
  let correct := check == u.toNat
  let flipped := check == negU.toNat
  let flippedOff := check == (negU * sqrtMinusOne).toNat
  let r := if flipped || flippedOff then sqrtMinusOne * r else r
  (correct || flipped, r.abs)

/-! ### Bytes -/

/-- The canonical encoding: the residue, least significant byte first. -/
def toBytes (x : FieldElement) : Bytes 32 := .ofNatLE 32 x.toNat

/-- The element with the given canonical encoding. -/
def ofBytes? (b : Bytes 32) : Option FieldElement :=
  if b.toNatLE < modulus then some (ofNat b.toNatLE) else none

end FieldElement

end ConfidentialCoin.Ristretto
