import ConfidentialCoin.InnerProduct.Argument

/-!
# Making an inner-product argument

`InnerProduct.prove` runs the folding rounds on vectors it knows. It wants vectors and generators
of one length, a power of two, and fails otherwise; it also fails on a challenge that is zero.
-/

namespace ConfidentialCoin.InnerProduct

variable {F G τ : Type}

/-- The length of the vectors is not a power of two. -/
def notPowerOfTwo : ProverError := .proofConstruction "inner product length must be a power of two"

/-- The vectors and generators are not of one length. -/
def lengthsDiffer : ProverError :=
  .proofConstruction "inner product vectors and generators differ in length"

/-- A round's challenge is zero. -/
def zeroChallenge : ProverError := .proofConstruction "zero folding challenge"

/-- What the rounds leave: the elements sent, the vectors of length one, and the transcript. -/
structure Folded (F G τ : Type) where
  l : List G
  r : List G
  /-- The folded left vector. -/
  a : List F
  /-- The folded right vector. -/
  b : List F
  transcript : τ

section

variable [Zero F] [Add F] [Mul F] [Inv F] [BEq F] [LinearCombination F G] [Encoding G]
  [WideReduction F] [Transcript τ]

/-- The element of one round that pairs one half of `a` with the other half of `b`. -/
def crossTerm (g h : List G) (u : G) (a b : List F) : Except ProverError G := do
  let c ← (ScalarVector.innerProduct a b).mapError .refused
  (combine? (a ++ b ++ [c]) (g ++ h ++ [u])).mapError .fault

/-- Runs `rounds` folding rounds. -/
def foldRounds (u : G) : (rounds : Nat) → (t : τ) → (g h : List G) → (a b : List F) →
    Except ProverError (Folded F G τ)
  | 0, t, _, _, a, b => .ok ⟨[], [], a, b, t⟩
  | rounds + 1, t, g, h, a, b => do
    let l ← crossTerm (upper g) (lower h) u (lower a) (upper b)
    let r ← crossTerm (lower g) (upper h) u (upper a) (lower b)
    let (x, t) := Layout.roundChallenge F t l r
    if x == 0 then .error zeroChallenge
    else
      -- Vectors and generators fold with opposite factors, which keeps the claim about them true.
      let xInv := x⁻¹
      let rest ← foldRounds u rounds t (foldPoints xInv x g) (foldPoints x xInv h)
        (foldScalars x xInv a) (foldScalars xInv x b)
      .ok { rest with l := l :: rest.l, r := r :: rest.r }

/-- The argument that `p` is the claim of `a` and `b`, and the transcript after it. The claim is
taken as given: a false one is found out by the verifier. -/
def prove (t : τ) (g h : List G) (u : G) (a b : List F) (p : G) :
    Except ProverError (InnerProductProof F G × τ) := do
  let n := a.length
  if n = 0 ∨ 1 <<< roundCount n ≠ n then .error notPowerOfTwo
  else if b.length ≠ n ∨ g.length ≠ n ∨ h.length ≠ n then .error lengthsDiffer
  else
    let out ← foldRounds u (roundCount n) (Layout.innerProductDomain t n) g h a b
    let a ← (entry out.a 0).mapError .fault
    let b ← (entry out.b 0).mapError .fault
    .ok (⟨out.l, out.r, a, b, p⟩, out.transcript)

end

end ConfidentialCoin.InnerProduct
