import ConfidentialCoin.Ristretto.Point
import ConfidentialCoin.Hash.Sha2

/-!
# Group elements as bytes, and bytes as group elements

Each group element has one encoding of 32 bytes, chosen independently of the point that stands for
it. `encode` picks the point of the coset that the encoding belongs to; `decode?` refuses strings
that are not the encoding of an element. `hashTo` sends any string to an element, as the sum of
two images of the map `ofField` from the field into the group.
-/

namespace ConfidentialCoin.Ristretto

open FieldElement

namespace Point

/-- The encoding of the coset of a point. -/
def encode (p : Point) : Bytes 32 :=
  let u1 := (p.z + p.y) * (p.z - p.y)
  let u2 := p.x * p.y
  let invsqrt := (sqrtRatio 1 (u1 * u2.square)).2
  let den1 := invsqrt * u1
  let den2 := invsqrt * u2
  let zInv := den1 * den2 * p.t
  -- Of the four points of the coset, the one with `x * y` and `x` non-negative is encoded.
  let rotate := (p.t * zInv).isNegative
  let x := if rotate then p.y * sqrtMinusOne else p.x
  let y := if rotate then p.x * sqrtMinusOne else p.y
  let denInv := if rotate then den1 * invSqrtAMinusD else den2
  let y := if (x * zInv).isNegative then -y else y
  (denInv * (p.z - y)).abs.toBytes

/-- The element with the given encoding. -/
def decode? (b : Bytes 32) : Option Point := do
  let s ← FieldElement.ofBytes? b
  if s.isNegative then none
  let ss := s.square
  let u1 := 1 - ss
  let u2 := 1 + ss
  let u2Squared := u2.square
  let v := -(curveD * u1.square) - u2Squared
  -- A string that is no encoding shows by a root that is missing or has the wrong sign.
  let (wasSquare, invsqrt) := sqrtRatio 1 (v * u2Squared)
  let denX := invsqrt * u2
  let denY := invsqrt * denX * v
  let x := ((s + s) * denX).abs
  let y := u1 * denY
  let t := x * y
  if !wasSquare || t.isNegative || y == 0 then none
  return ⟨x, y, 1, t⟩

/-- The map from the field into the group. -/
def ofField (t : FieldElement) : Point :=
  let r := sqrtMinusOne * t.square
  let u := (r + 1) * oneMinusDSquared
  let v := (-1 - r * curveD) * (r + curveD)
  let (wasSquare, root) := sqrtRatio u v
  let s := if wasSquare then root else -(root * t).abs
  let c := if wasSquare then -1 else r
  let n := c * (r - 1) * dMinusOneSquared - v
  let w0 := (s + s) * v
  let w1 := n * sqrtADMinusOne
  let w2 := 1 - s.square
  let w3 := 1 + s.square
  ⟨w0 * w3, w2 * w1, w1 * w3, w0 * w2⟩

/-- The element derived from 64 uniform bytes: each half, without its top bit, is sent into the
group, and the images are added. -/
def ofUniformBytes (b : Bytes 64) : Point :=
  ofField (half 0) + ofField (half 32)
where
  /-- The field element in the 32 bytes from offset `i` on. -/
  half (i : Nat) : FieldElement :=
    .ofNat (ofLittleEndian ((b.toList.drop i).take 32) % (1 <<< 255))

/-- The element that a string hashes to. -/
def hashTo (bs : List UInt8) : Point := ofUniformBytes (sha512 bs)

end Point

/-- The scalar that a string hashes to. -/
def Scalar.hashTo (bs : List UInt8) : Scalar := ofWideBytes (sha512 bs)

end ConfidentialCoin.Ristretto
