import ConfidentialCoin.Commitment.Generators
import ConfidentialCoin.InnerProduct.Prover
import ConfidentialCoin.RangeProof.Basic
import ConfidentialCoin.RangeProof.Polynomials
import ConfidentialCoin.RangeProof.Witness

/-!
# Making a range proof

The prover commits to the bits of the values and to their blindings, and draws `y` and `z`. It
commits to the two coefficients of `⟨l(X), r(X)⟩` that it owes, and draws `x` and `w`. It then
opens `⟨l(x), r(x)⟩` with an inner-product argument.

`RangeProof.prove` draws all its randomness first; `RangeProof.proveWith` is the same proof as a
function of what is drawn, and `RangeProof.outer` all of it up to the argument.
-/

namespace ConfidentialCoin

variable {F G τ : Type}

/-- The scalars drawn for a proof, in the order in which they are drawn. -/
structure Nonces (F : Type) where
  /-- The blinding of `A`. -/
  alpha : F
  /-- The blindings of the left entries. -/
  sL : ScalarVector F
  /-- The blindings of the right entries. -/
  sR : ScalarVector F
  /-- The blinding of `S`. -/
  rho : F
  /-- The blinding of `T1`. -/
  tau1 : F
  /-- The blinding of `T2`. -/
  tau2 : F
deriving DecidableEq

namespace Nonces

/-- Draws the scalars for a proof of size `n`, `2 * n + 4` of them. -/
def draw [WideReduction F] (n : Nat) (source : RandomSource) : Nonces F × RandomSource :=
  let (alpha, source) : F × RandomSource := source.scalar
  let (sL, source) := source.scalars n
  let (sR, source) := source.scalars n
  let (rho, source) : F × RandomSource := source.scalar
  let (tau1, source) : F × RandomSource := source.scalar
  let (tau2, source) : F × RandomSource := source.scalar
  (⟨alpha, sL, sR, rho, tau1, tau2⟩, source)

end Nonces

/-- The outer part of a proof, with its parts named as there, and what the argument is made from:
the challenges, in the order in which they are drawn, and the two vectors whose inner product it
opens. -/
structure Outer (F G τ : Type) where
  commitments : List G
  a : G
  s : G
  t1 : G
  t2 : G
  tauX : F
  tHat : F
  mu : F
  y : F
  z : F
  x : F
  w : F
  /-- The transcript after the challenges. -/
  transcript : τ
  /-- The left vector at the challenge. -/
  l : ScalarVector F
  /-- The right vector at the challenge. -/
  r : ScalarVector F

namespace RangeProof

/-- The vector of bits does not fill the proof. -/
def bitVectorLength : ProverError := .proofConstruction "bit vector has the wrong length"

section

variable [Zero F] [One F] [Add F] [Sub F] [Neg F] [Mul F] [Inv F] [NatCast F] [BEq F]
  [SMul F G] [LinearCombination F G] [BasePoint G] [HashTarget G] [Encoding G] [WideReduction F]
  [Transcript τ]

/-- The commitment `blinding * H + ⟨left, g⟩ + ⟨right, h⟩`. -/
def commitVectors (params : Generators G) (basis : Basis G) (blinding : F)
    (left right : ScalarVector F) : Except ProverError G :=
  (combine? (blinding :: left ++ right) (basis.blinding :: params.g ++ params.h)).mapError .fault

/-- What the prover has made of a witness, of which `params` are exactly the generators, with the
given scalars, when it comes to the argument. -/
def outer (τ : Type) [Transcript τ] (params : Generators G) (w : Witness F) (tag : G)
    (nonces : Nonces F) : Except ProverError (Outer F G τ) := do
  let slots := slotCount w.size
  let n := proofSize w.size
  let basis := Basis.ofTag tag
  let commitments := w.commitments tag
  let t : τ := Layout.start valueBits slots tag commitments
  -- `A` and `S` are on the transcript before `y` and `z` are drawn.
  let aL := slotBits F w.values slots
  if aL.length ≠ n then .error bitVectorLength
  else
    let a ← commitVectors params basis nonces.alpha aL (aL.addScalar (-1))
    let s ← commitVectors params basis nonces.rho nonces.sL nonces.sR
    let ((y, z), t) := Layout.challengesYZ F t a s
    -- `T1` and `T2` are on it before `x` and `w` are.
    let perSlot := slotWeights z slots
    let weights ← (entryWeights perSlot n).mapError .fault
    let poly ← (VectorPolynomials.ofBits y z n weights aL nonces.sL nonces.sR).mapError .refused
    let t1 ← poly.linear.mapError .refused
    let t2 ← poly.quadratic.mapError .refused
    let t1Commit := basis.commit t1 nonces.tau1
    let t2Commit := basis.commit t2 nonces.tau2
    let ((x, w'), t) := Layout.challengesXW F t t1Commit t2Commit
    -- What remains is to open the inner product of `l(x)` and `r(x)`.
    let (l, r) ← (poly.eval x).mapError .refused
    let tHat ← (l.innerProduct r).mapError .refused
    let blindings := (List.zipWith (· * ·) w.blindings perSlot).sum
    let tauX := nonces.tau2 * x * x + nonces.tau1 * x + blindings
    let mu := nonces.alpha + nonces.rho * x
    .ok ⟨commitments, a, s, t1Commit, t2Commit, tauX, tHat, mu, y, z, x, w', t, l, r⟩

/-- The proof for a witness, of which `params` are exactly the generators, with the given
scalars. -/
def proveWith (τ : Type) [Transcript τ] (params : Generators G) (w : Witness F) (tag : G)
    (nonces : Nonces F) : Except ProverError (RangeProof F G) := do
  let o ← outer τ params w tag nonces
  -- The factors `yⁿ` of `r` are taken out of the generators `h`, and `w` binds `u` to `tHat`.
  let u := o.w • params.u
  let h := params.scaledH o.y
  let p ← (combine? (o.l ++ o.r ++ [o.tHat]) (params.g ++ h ++ [u])).mapError .fault
  let (argument, _) ← InnerProduct.prove o.transcript params.g h u o.l o.r p
  .ok ⟨o.commitments, o.a, o.s, o.t1, o.t2, o.tauX, o.tHat, o.mu, argument⟩

/-- The proof for a witness under an asset tag, with scalars from a random source. Nothing is drawn
if there are not enough generators. -/
def prove (τ : Type) [Transcript τ] (gens : Generators G) (w : Witness F) (tag : G)
    (source : RandomSource) : Except ProverError (RangeProof F G) × RandomSource :=
  match gens.first (proofSize w.size) with
  | .error e => (.error (.refused e), source)
  | .ok params =>
    let (nonces, source) := Nonces.draw (proofSize w.size) source
    (proveWith τ params w tag nonces, source)

omit [Sub F] in
/-- Where there are enough generators, the random scalars are drawn and the proof is made with them.
-/
theorem prove_of_le {gens : Generators G} {w : Witness F} (hcap : proofSize w.size ≤ gens.capacity)
    (tag : G) (source : RandomSource) :
    prove τ gens w tag source =
      (Nonces.draw (proofSize w.size) source).map
        (proveWith τ (gens.take (proofSize w.size)) w tag) id := by
  rw [prove, Generators.first_of_le hcap]
  rfl

omit [Sub F] in
/-- Without enough generators nothing is drawn. -/
theorem prove_of_lt {gens : Generators G} {w : Witness F} (hcap : gens.capacity < proofSize w.size)
    (tag : G) (source : RandomSource) :
    prove τ gens w tag source =
      (.error (.refused (.invalidInput "proof dimension exceeds generator capacity")), source) := by
  rw [prove, Generators.first_of_lt hcap]

end

end RangeProof

end ConfidentialCoin
