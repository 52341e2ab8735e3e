import ConfidentialCoin.Group

/-!
# Commitments to values

A value `v` with blinding `r` is committed to as `v * T + r * H`. The blinding generator `H` is one
for all; the value generator `T` is the base point, or the tag of the asset that the value counts.

* `Basis.commit`: the commitment.
* `Basis.blindTag`: a tag moved by a multiple of `H`, which hides the asset.
-/

namespace ConfidentialCoin

/-- The two places of a basis. -/
inductive GeneratorRole where
  | value
  | blinding
deriving DecidableEq, Repr

/-- A value generator and a blinding generator. -/
structure Basis (G : Type) where
  value : G
  blinding : G

/-- The blinding generator of every basis. -/
def blindingGenerator (G : Type) [HashTarget G] : G :=
  hashTo (textBytes "privacy/PedersenRandomness")

/-- The tag of the asset with the given identifier, before blinding. -/
def assetTag {G : Type} [HashTarget G] (id : List UInt8) : G :=
  hashTo (textBytes "privacy/AssetTag" ++ id)

namespace Basis

variable {F G : Type}

instance [BEq G] : BEq (Basis G) := ⟨fun a b => a.value == b.value && a.blinding == b.blinding⟩

/-- The basis for values of no asset. -/
def standard (G : Type) [BasePoint G] [HashTarget G] : Basis G := ⟨basePoint, blindingGenerator G⟩

/-- The same blinding generator with a tag in the value place. -/
def withTag (b : Basis G) (tag : G) : Basis G := { b with value := tag }

/-- The basis for values of the asset with the given tag. -/
def ofTag [BasePoint G] [HashTarget G] (tag : G) : Basis G := (standard G).withTag tag

/-- The generator in a place. -/
def generator (b : Basis G) : GeneratorRole → G
  | .value => b.value
  | .blinding => b.blinding

/-- The commitment to a value with a blinding. -/
def commit [LinearCombination F G] (b : Basis G) (value blinding : F) : G :=
  combine [(value, b.value), (blinding, b.blinding)]

/-- The commitment to a 64-bit value with a blinding. -/
def commitValue [NatCast F] [LinearCombination F G] (b : Basis G) (value : UInt64) (blinding : F) :
    G :=
  b.commit (value.toNat : F) blinding

/-- A tag with a blinding of its own. -/
def blindTag [Add G] [SMul F G] (b : Basis G) (tag : G) (blinder : F) : G :=
  tag + blinder • b.blinding

end Basis

end ConfidentialCoin
