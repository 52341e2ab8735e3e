import ConfidentialCoin.InnerProduct.Argument
import ConfidentialCoin.Parameters

/-!
# Checking an inner-product argument

Both checks first draw the folding challenges from the transcript.

* `InnerProduct.verify` folds generators and claim round by round, as the prover did, and opens
  the last claim with the two scalars of the argument.
* `InnerProduct.coefficients` gives what every generator is multiplied with in the fully folded
  one, from the challenges alone; with it the whole check is one sum of products.

An argument of the wrong shape is refused before anything is computed from it. Its rounds are
counted in 32 bits for this, so one that has `2 ^ 32` rounds too many is taken for one without them.
-/

namespace ConfidentialCoin

/-- Why an inner-product argument is not accepted. -/
inductive ArgumentError where
  /-- The two lists of generators differ in length. -/
  | generatorLengths
  /-- The rounds are not those of vectors of this length. -/
  | roundLengths
  | zeroChallenge
  /-- The last claim does not open. -/
  | notOpening
  | fault (fault : Fault)
deriving DecidableEq, Repr

/-- What the verifier of a proof reports. -/
def ArgumentError.verifierError : ArgumentError → VerifierError
  | .generatorLengths => .invalidInput "generator vectors differ in length"
  | .roundLengths => .invalidInput "inner product rounds do not match length"
  | .zeroChallenge => .invalidInput "zero folding challenge"
  | .notOpening => .statement2
  | .fault f => .fault f

namespace InnerProduct

variable {F G τ : Type}

/-! ### Challenges -/

/-- The power of two with the given exponent, a number of 64 bits. -/
def powTwo? (k : UInt32) : Option Nat := if k < 64 then some (1 <<< k.toNat) else none

/-- The rounds of a proof, counted in 32 bits, are those of vectors of length `n`. -/
def roundsMatch (proof : InnerProductProof F G) (n : Nat) : Bool :=
  proof.l.length == proof.r.length && powTwo? proof.l.length.toUInt32 == some n

/-- The challenges of the given rounds. -/
def roundChallenges [Zero F] [BEq F] [WideReduction F] [Encoding G] [Transcript τ] :
    (rounds : List (G × G)) → (t : τ) → Except ArgumentError (List F × τ)
  | [], t => .ok ([], t)
  | (l, r) :: rounds, t => do
    let (u, t) := Layout.roundChallenge F t l r
    if u == 0 then .error .zeroChallenge
    else
      let (us, t) ← roundChallenges rounds t
      .ok (u :: us, t)

/-- The challenges of an argument about vectors of length `n`, and the transcript after them. -/
def challenges [Zero F] [BEq F] [WideReduction F] [Encoding G] [Transcript τ] (t : τ)
    (proof : InnerProductProof F G) (n : Nat) : Except ArgumentError (List F × τ) :=
  if roundsMatch proof n then
    roundChallenges (proof.l.zip proof.r) (Layout.innerProductDomain t n)
  else .error .roundLengths

/-! ### Folding -/

section Folding

variable [Zero F] [One F] [Mul F] [Inv F] [BEq F] [LinearCombination F G] [BEq G] [Encoding G]
  [WideReduction F] [Transcript τ]

/-- The generators and the claim after the rounds with the given challenges and elements. -/
def foldClaim : (rounds : List (F × G × G)) → (g h : List G) → (p : G) → List G × List G × G
  | [], g, h, p => (g, h, p)
  | (u, l, r) :: rounds, g, h, p =>
    let uInv := u⁻¹
    foldClaim rounds (foldPoints uInv u g) (foldPoints u uInv h)
      (combine [(u * u, l), (1, p), (uInv * uInv, r)])

/-- Accepts an argument whose claim, folded round by round, opens to its two scalars. -/
def verify (t : τ) (g h : List G) (u : G) (proof : InnerProductProof F G) :
    Except ArgumentError τ := do
  if g.length ≠ h.length then .error .generatorLengths
  else
    let (us, t) ← challenges t proof g.length
    let (g, h, p) := foldClaim (us.zip (proof.l.zip proof.r)) g h proof.p
    let g0 ← (entry g 0).mapError .fault
    let h0 ← (entry h 0).mapError .fault
    if combine [(proof.a, g0), (proof.b, h0), (proof.a * proof.b, u)] == p then .ok t
    else .error .notOpening

end Folding

/-! ### Coefficients -/

section Coefficients

variable [Zero F] [One F] [Mul F] [Inv F] [BEq F] [Encoding G] [WideReduction F] [Transcript τ]

/-- What the parts of an argument are multiplied with in a single check. -/
structure Coefficients (F : Type) where
  /-- Of the elements `L`: the squares of the challenges. -/
  squares : List F
  /-- Of the elements `R`: the squares of their inverses. -/
  inverseSquares : List F
  /-- Of the generators `g` in the folded one; those `h` take the list backwards. -/
  s : Array F

/-- The inverses of scalars, none of them zero. -/
def inverses (us : List F) : Except Fault (List F) :=
  if us.any (· == 0) then .error .zeroInverse else .ok (us.map (·⁻¹))

/-- Entry `i > 0` of the coefficients of the generators, given those before it: flipping the
leading bit `j` of `i` trades the inverse of a challenge for the challenge, the first challenge
having the highest bit. -/
def nextCoefficient (squares : List F) (s : Array F) (i : Nat) : Except Fault F := do
  let j := Nat.log2 i
  let last ← indexDifference squares.length 1
  let k ← indexDifference last j
  let square ← entry squares k
  -- Without its leading bit `i` is smaller, so the entry is there already.
  let before ← indexDifference i (1 <<< j)
  let c ← arrayEntry s before
  .ok (c * square)

/-- The coefficients of the `n` generators, the first being the product of all inverses. -/
def generatorCoefficients (squares : List F) (first : F) (n : Nat) : Except Fault (Array F) :=
  ((List.range n).drop 1).foldlM
    (fun s i => do return s.push (← nextCoefficient squares s i)) #[first]

/-- The coefficients of an argument about vectors of length `n`, and the transcript after it. -/
def coefficients (t : τ) (proof : InnerProductProof F G) (n : Nat) :
    Except ArgumentError (Coefficients F × τ) := do
  let (us, t) ← challenges t proof n
  let inv ← (inverses us).mapError .fault
  let squares := us.map fun u => u * u
  -- A scalar takes up as many bytes as its encoding.
  (reserve n scalarSize).mapError .fault
  let s ← (generatorCoefficients squares (inv.foldl (· * ·) 1) n).mapError .fault
  .ok (⟨squares, inv.map fun u => u * u, s⟩, t)

end Coefficients

end InnerProduct

end ConfidentialCoin
