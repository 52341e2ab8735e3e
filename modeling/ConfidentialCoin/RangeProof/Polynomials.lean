import ConfidentialCoin.RangeProof.Slots

/-!
# The vector polynomials of a range proof

The bits of all values form a vector `aₗ`. Blinded by `sₗ` and `sᵣ`, and at the challenges `y` and
`z`, they give two vectors of polynomials of degree one,

* `l(X) = (aₗ - z) + sₗ * X` and `r(X) = yⁿ ∘ (aₗ - 1 + z + sᵣ * X) + w`,

`yⁿ` holding the powers of `y` and `w` the weights of the entries. The inner product
`⟨l(X), r(X)⟩` has degree two. Its constant coefficient is the sum of the weighted values and of
terms that the challenges determine exactly when the entries of `aₗ` are the bits of the values;
`VectorPolynomials.linear` and `VectorPolynomials.quadratic` are the other two coefficients.
-/

namespace ConfidentialCoin

/-- Two vectors of polynomials of degree one. -/
structure VectorPolynomials (F : Type) where
  /-- The constant coefficients of `l`. -/
  l0 : ScalarVector F
  /-- The linear coefficients of `l`. -/
  l1 : ScalarVector F
  /-- The constant coefficients of `r`. -/
  r0 : ScalarVector F
  /-- The linear coefficients of `r`. -/
  r1 : ScalarVector F
deriving DecidableEq

namespace VectorPolynomials

variable {F : Type} [One F] [Add F] [Neg F] [Mul F]

/-- The polynomials of the entries `aL` with the blindings `sL` and `sR`, at the challenges `y` and
`z`, of length `n`. -/
def ofBits (y z : F) (n : Nat) (weights aL sL sR : ScalarVector F) :
    Except Error (VectorPolynomials F) := do
  let yPow := ScalarVector.powers y n
  let r0 ← (← yPow.hadamard ((aL.addScalar (-1)).addScalar z)).add weights
  let r1 ← yPow.hadamard sR
  .ok ⟨aL.addScalar (-z), sL, r0, r1⟩

/-- The linear coefficient of `⟨l(X), r(X)⟩`. -/
def linear [Zero F] (p : VectorPolynomials F) : Except Error F := do
  let c ← p.l0.innerProduct p.r1
  let d ← p.l1.innerProduct p.r0
  .ok (c + d)

/-- The quadratic coefficient of `⟨l(X), r(X)⟩`. -/
def quadratic [Zero F] (p : VectorPolynomials F) : Except Error F := p.l1.innerProduct p.r1

/-- The vectors `l(x)` and `r(x)`. -/
def eval (p : VectorPolynomials F) (x : F) : Except Error (ScalarVector F × ScalarVector F) := do
  let l ← p.l0.add (p.l1.mulScalar x)
  let r ← p.r0.add (p.r1.mulScalar x)
  .ok (l, r)

end VectorPolynomials

end ConfidentialCoin
