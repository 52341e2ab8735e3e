import ConfidentialCoin.Bytes
import ConfidentialCoin.Fault

/-!
# The group the protocols run in

The protocols of this library are written over a type `F` of scalars and a type `G` of group
elements, with the operations `+`, `-`, `*`, `⁻¹` and `•` of the core language and the classes of
this module for the rest: encodings, hashing, the base point, and sums of products.

Each class comes with the law that the theory of the protocols uses. Encodings are exact: one
string for each value, and nothing else decodes. A sum of products is what its name says, however
it is computed.

* `combine?`: sums of products of as many scalars as group elements.
-/

namespace ConfidentialCoin

/-! ### Encodings -/

/-- Values written as 32 bytes. -/
class Encoding (α : Type) where
  encode : α → Bytes 32
  decode? : Bytes 32 → Option α

export Encoding (encode decode?)

/-- Every value has one encoding, and only encodings decode. -/
class LawfulEncoding (α : Type) [Encoding α] : Prop where
  decode?_encode (x : α) : decode? (encode x) = some x
  encode_of_decode? {b : Bytes 32} {x : α} : decode? b = some x → encode x = b

/-- Values derived from byte strings. -/
class HashTarget (α : Type) where
  hashTo : List UInt8 → α

export HashTarget (hashTo)

/-- Scalars as reductions of 64-byte strings, which makes uniform bytes a uniform scalar. -/
class WideReduction (F : Type) where
  /-- The scalar that 64 bytes reduce to. -/
  reduce : Bytes 64 → F

export WideReduction (reduce)

/-! ### Multiples -/

/-- The element that one-time keys and addresses are multiples of. -/
class BasePoint (G : Type) where
  basePoint : G

export BasePoint (basePoint)

/-- Multiples of the base point. -/
class BaseMultiple (F G : Type) where
  mulBase : F → G

export BaseMultiple (mulBase)

/-- Sums of products. -/
class LinearCombination (F G : Type) where
  /-- The sum of the products of the pairs. -/
  combine : List (F × G) → G

export LinearCombination (combine)

/-- The law of `mulBase`: it multiplies the base point. -/
class LawfulBaseMultiple (F G : Type) [SMul F G] [BasePoint G] [BaseMultiple F G] : Prop where
  mulBase_eq (c : F) : mulBase c = c • (basePoint : G)

/-- The law of `combine`: it adds up products. -/
class LawfulLinearCombination (F G : Type) [Zero G] [Add G] [SMul F G] [LinearCombination F G] :
    Prop where
  combine_eq (pairs : List (F × G)) : combine pairs = (pairs.map fun p => p.1 • p.2).sum

/-- The sum of the products of scalars and group elements in the same places. -/
def combine? {F G : Type} [LinearCombination F G] (scalars : List F) (elements : List G) :
    Except Fault G :=
  if scalars.length = elements.length then .ok (combine (scalars.zip elements))
  else .error .lengthsDiffer

/-- A sum of products with as many scalars as elements has a value. -/
theorem combine?_of_length_eq {F G : Type} [LinearCombination F G] {scalars : List F}
    {elements : List G} (h : scalars.length = elements.length) :
    combine? scalars elements = .ok (combine (scalars.zip elements)) := if_pos h

end ConfidentialCoin
