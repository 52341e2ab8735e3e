import ConfidentialCoin.Error
import ConfidentialCoin.ScalarVector
import ConfidentialCoin.Transcript.Layout

/-!
# The inner-product argument

A claim is a group element `p` said to be `⟨a, g⟩ + ⟨b, h⟩ + ⟨a, b⟩ * u` for vectors `a` and `b`
that the prover knows. The argument halves the vectors round by round. In a round with challenge
`x` the prover sends

* `L = ⟨aₗ, gₕ⟩ + ⟨bₕ, hₗ⟩ + ⟨aₗ, bₕ⟩ * u` and `R = ⟨aₕ, gₗ⟩ + ⟨bₗ, hₕ⟩ + ⟨aₕ, bₗ⟩ * u`,

where `ₗ` and `ₕ` are the lower and upper halves, and the claim becomes `x² * L + p + x⁻² * R`
about the folded vectors `x * aₗ + x⁻¹ * aₕ`, `x⁻¹ * bₗ + x * bₕ` and the folded generators
`x⁻¹ * gₗ + x * gₕ`, `x * hₗ + x⁻¹ * hₕ`. At length one the prover sends the two scalars.

This module holds the argument as data, the claim, and the halves and folds that prover and
verifier share.
-/

namespace ConfidentialCoin

/-- An inner-product argument. -/
structure InnerProductProof (F G : Type) where
  /-- The elements `L` of the rounds. -/
  l : List G
  /-- The elements `R` of the rounds. -/
  r : List G
  /-- The last entry of the left vector. -/
  a : F
  /-- The last entry of the right vector. -/
  b : F
  /-- The claim. -/
  p : G
deriving DecidableEq

namespace InnerProduct

variable {F G : Type}

/-- Folding rounds for vectors of length `n`, a power of two. -/
def roundCount (n : Nat) : Nat := Nat.log2 n

def lower {α : Type} (xs : List α) : List α := xs.take (xs.length / 2)

def upper {α : Type} (xs : List α) : List α := xs.drop (xs.length / 2)

/-- The vector `c * lower + d * upper`. -/
def foldScalars [Add F] [Mul F] (c d : F) (v : List F) : List F :=
  List.zipWith (fun lo hi => c * lo + d * hi) (lower v) (upper v)

/-- The generators `c * lower + d * upper`. -/
def foldPoints [LinearCombination F G] (c d : F) (ps : List G) : List G :=
  List.zipWith (fun lo hi => combine [(c, lo), (d, hi)]) (lower ps) (upper ps)

/-- A fold is half as long, whatever the length; of an odd one the last generator is left out. -/
theorem length_foldPoints [LinearCombination F G] (c d : F) (ps : List G) :
    (foldPoints c d ps).length = ps.length / 2 := by
  simp only [foldPoints, lower, upper, List.length_zipWith, List.length_take, List.length_drop]
  omega

/-- The claim that `a` and `b` make over the generators, `⟨a, g⟩ + ⟨b, h⟩ + ⟨a, b⟩ * u`. -/
def claim [Zero F] [Add F] [Mul F] [LinearCombination F G] (g h : List G) (u : G) (a b : List F) :
    Except Fault G :=
  combine? (a ++ b ++ [(List.zipWith (· * ·) a b).sum]) (g ++ h ++ [u])

end InnerProduct

end ConfidentialCoin
