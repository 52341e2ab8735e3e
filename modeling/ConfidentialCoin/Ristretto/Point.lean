import ConfidentialCoin.Ristretto.Field
import ConfidentialCoin.Ristretto.Scalar

/-!
# Points of the curve and elements of the group

The curve is `-x² + y² = 1 + d x² y²`. A point is held in extended coordinates `(X : Y : Z : T)`
with `x = X / Z`, `y = Y / Z` and `x y = T / Z`; the addition formulas hold for all points of the
curve. A group element is a coset of the four points of order dividing 4, and any of its points
stands for it: `==` compares cosets, not coordinates.

Multiples are formed digit by digit. `combine` adds up multiples of several elements with one chain
of doublings for all of them, and `mulBase` has a table of the multiples of the base point by every
digit in every place and needs no doubling.
-/

namespace ConfidentialCoin.Ristretto

/-- A point in extended coordinates, which stands for its coset. -/
structure Point where
  /-- The coordinate `x`, times the denominator. -/
  x : FieldElement
  /-- The coordinate `y`, times the denominator. -/
  y : FieldElement
  /-- The common denominator. -/
  z : FieldElement
  /-- The product `x * y`, times the denominator. -/
  t : FieldElement

namespace Point

instance : Zero Point := ⟨⟨0, 1, 1, 0⟩⟩

/-- Sum of points. -/
def add (p q : Point) : Point :=
  let a := (p.y - p.x) * (q.y - q.x)
  let b := (p.y + p.x) * (q.y + q.x)
  let c := p.t * FieldElement.twiceCurveD * q.t
  let d := (p.z + p.z) * q.z
  let e := b - a
  let f := d - c
  let g := d + c
  let h := b + a
  ⟨e * f, g * h, f * g, e * h⟩

instance : Add Point := ⟨add⟩

/-- Twice a point. -/
def double (p : Point) : Point :=
  let a := p.x.square
  let b := p.y.square
  let c := p.z.square
  let h := a + b
  let e := h - (p.x + p.y).square
  let g := a - b
  let f := c + c + g
  ⟨e * f, g * h, f * g, e * h⟩

instance : Neg Point := ⟨fun p => ⟨-p.x, p.y, p.z, -p.t⟩⟩

/-- Equality of cosets. -/
instance : BEq Point := ⟨fun p q => p.x * q.y == p.y * q.x || p.y * q.y == p.x * q.x⟩

/-- The base point, of `y = 4 / 5`. -/
def base : Point :=
  let x := FieldElement.ofNat
    15112221349535400772501151409588531511454012693041857206046113283949847762202
  let y := FieldElement.ofNat
    46316835694926478169428394003475163141307993866256225615783033603165251855960
  ⟨x, y, 1, x * y⟩

/-! ### Multiples -/

/-- The multiples `0, p, 2 p, …, (n - 1) p`. -/
def multiples (p : Point) (n : Nat) : Array Point :=
  (Array.range n).foldl (fun acc _ => acc.push (acc.back?.elim 0 (· + p))) #[]

/-- The multiple `2 ^ n * p`. -/
def doubleTimes : (n : Nat) → (p : Point) → Point
  | 0, p => p
  | n + 1, p => doubleTimes n p.double

/-- Bits of a digit in sums of products. -/
def digitWidth : Nat := 4

/-- A scalar to multiply with, and the multiples of the point that its digits choose from. -/
structure Term where
  scalar : Scalar
  /-- The multiples of the point by the digits. -/
  table : Array Point

/-- The term `c * p`. -/
def Term.ofPair (cp : Scalar × Point) : Term := ⟨cp.1, cp.2.multiples (1 <<< digitWidth)⟩

/-- Adds the table entry chosen by digit `i`; the digit 0 adds nothing. -/
@[inline] def Term.addDigit (i : Nat) (acc : Point) (term : Term) : Point :=
  let j := term.scalar.digit digitWidth i
  if j = 0 then acc else acc + term.table.getD j 0

/-- The sum `acc` moved up by `n` digits, plus the lowest `n` digits of all terms. -/
def combineDigits (terms : List Term) : (n : Nat) → (acc : Point) → Point
  | 0, acc => acc
  | n + 1, acc => combineDigits terms n (terms.foldl (Term.addDigit n) (doubleTimes digitWidth acc))

/-- The sum of the products of the pairs. -/
def combine (pairs : List (Scalar × Point)) : Point :=
  combineDigits (pairs.map Term.ofPair) (256 / digitWidth) 0

instance : SMul Scalar Point := ⟨fun c p => combine [(c, p)]⟩

/-- Bits of a digit in multiples of the base point. -/
def baseWidth : Nat := 8

/-- Row `i` holds the multiples of the base point by the values of digit `i`. -/
def baseTable : Array (Array Point) :=
  ((List.range (256 / baseWidth)).foldl
    (fun (acc : Array (Array Point) × Point) _ =>
      (acc.1.push (acc.2.multiples (1 <<< baseWidth)), doubleTimes baseWidth acc.2))
    (#[], base)).1

/-- A multiple of the base point. -/
def mulBase (c : Scalar) : Point :=
  (List.range (256 / baseWidth)).foldl
    (fun acc i =>
      let j := c.digit baseWidth i
      if j = 0 then acc else acc + (baseTable.getD i #[]).getD j 0)
    0

end Point

end ConfidentialCoin.Ristretto
