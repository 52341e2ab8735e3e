import ConfidentialCoin.RangeProof.Replay

/-!
# Checking a range proof

Two methods decide the same statements. Both replay the challenges and check the outer proof;
they differ in how they open the inner-product argument.

* `Replay.openByFolding` folds the generators round by round.
* `Replay.openAtOnce` adds up the whole argument, each generator with the coefficient that the
  challenges give it, and looks whether the sum is zero.

`RangeProof.check` accepts or rejects a proof by either, and `RangeProof.verify` is what is
reported.
-/

namespace ConfidentialCoin

/-- The way in which the inner-product argument is opened. -/
inductive Method where
  /-- Fold the generators round by round. -/
  | folding
  /-- Compute one sum of products. -/
  | atOnce
deriving DecidableEq, Repr

variable {F G τ : Type} [Zero F] [One F] [Add F] [Sub F] [Neg F] [Mul F] [Inv F] [NatCast F]
  [BEq F] [Zero G] [SMul F G] [LinearCombination F G] [BasePoint G] [HashTarget G] [Encoding G]
  [WideReduction F] [BEq G]

namespace Replay

variable [Transcript τ]

/-- Accepts an argument that opens when it is folded round by round. -/
def openByFolding (r : Replay F G τ) (arg : InnerProductProof F G) : Except Rejection Unit := do
  let _ ← (InnerProduct.verify r.transcript r.params.g (r.params.scaledH r.y) r.u arg).mapError
    .argument

/-- Accepts an argument that is zero when it is summed up at once. The powers of `y⁻¹` that scale
the generators `h` are multiplied into their coefficients. -/
def openAtOnce (r : Replay F G τ) (arg : InnerProductProof F G) : Except Rejection Unit := do
  let (c, _) ← (InnerProduct.coefficients r.transcript arg r.n).mapError .argument
  let yInv := ScalarVector.powers r.y⁻¹ r.n
  -- Both sides of the last opening, and the folded claim, are brought to one side.
  let gCoefficients := c.s.toList.map fun s => -(arg.a * s)
  let hCoefficients := List.zipWith (fun s yi => -(arg.b * s * yi)) c.s.toList.reverse yInv
  let sum ← (combine?
    ([1, -(arg.a * arg.b)] ++ c.squares ++ c.inverseSquares ++ gCoefficients ++ hCoefficients)
    ([arg.p, r.u] ++ arg.l ++ arg.r ++ r.params.g ++ r.params.h)).mapError .fault
  if sum == 0 then .ok () else .error (.argument .notOpening)

/-- Opens an argument by the given method. -/
def openBy (r : Replay F G τ) : (method : Method) → (arg : InnerProductProof F G) →
    Except Rejection Unit
  | .folding => r.openByFolding
  | .atOnce => r.openAtOnce

end Replay

namespace RangeProof

/-- Accepts or rejects a proof by the given method. -/
def check (τ : Type) [Transcript τ] (method : Method) (gens : Generators G)
    (proof : RangeProof F G) (tag : G) : Except Rejection Unit := do
  let r : Replay F G τ ← Replay.ofProof gens proof tag
  r.checkStatement1 proof
  r.checkCommitment proof
  r.openBy method proof.argument

/-- The answer about a proof that is reported. -/
def verify (τ : Type) [Transcript τ] (method : Method) (gens : Generators G)
    (proof : RangeProof F G) (tag : G) : Except VerifierError Unit :=
  (check τ method gens proof tag).mapError Rejection.verifierError

end RangeProof

end ConfidentialCoin
