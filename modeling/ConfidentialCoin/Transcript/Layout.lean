import ConfidentialCoin.Group
import ConfidentialCoin.Transcript.Basic

/-!
# What the range proof writes on its transcript

Prover and verifiers draw their challenges from one sequence of operations:

* the protocol, the bits of a value, the number of slots, the asset tag, and the number of value
  commitments with the commitments themselves;
* `A` and `S`, then the challenges `y` and `z`;
* `T1` and `T2`, then the challenges `x` and `w`;
* the size of the inner product, and for each folding round `L` and `R`, then its challenge.

Each list is preceded by its length, so the sequence determines what was written.
-/

namespace ConfidentialCoin

namespace Layout

variable {F G τ : Type} [Transcript τ]

/-- Appends a number in eight bytes. -/
def appendNumber (t : τ) (label : String) (n : Nat) : τ :=
  Transcript.append t (textBytes label) (littleEndian 8 n)

/-- Appends the encoding of a group element. -/
def appendPoint [Encoding G] (t : τ) (label : List UInt8) (p : G) : τ :=
  Transcript.append t label (encode p).toList

/-- Draws a scalar. -/
def challengeScalar [WideReduction F] (t : τ) (label : List UInt8) : F × τ :=
  let (bytes, t) := Transcript.challenge t label
  (reduce bytes, t)

/-- Starts the transcript of a proof over `slots` slots of values of `bits` bits. -/
def start [Encoding G] (bits slots : Nat) (tag : G) (commitments : List G) : τ :=
  let t : τ := Transcript.ofProtocol (textBytes "privacy/ca-bulletproof")
  let t := Transcript.append t (textBytes "proto") (textBytes "v2")
  let t := Transcript.append t (textBytes "dom-sep") (textBytes "aggregated-rangeproof")
  let t := appendNumber t "n" bits
  let t := appendNumber t "m" slots
  let t := appendPoint t (textBytes "asset_tag") tag
  let t := appendNumber t "num_value" commitments.length
  commitments.foldl (fun t v => appendPoint t (textBytes "V") v) t

/-- Appends `A` and `S` and draws `y` and `z`. -/
def challengesYZ (F : Type) [WideReduction F] [Encoding G] (t : τ) (a s : G) : (F × F) × τ :=
  let t := appendPoint t (textBytes "A") a
  let t := appendPoint t (textBytes "S") s
  let (y, t) := challengeScalar t (textBytes "y")
  let (z, t) := challengeScalar t (textBytes "z")
  ((y, z), t)

/-- Appends `T1` and `T2` and draws `x` and `w`. -/
def challengesXW (F : Type) [WideReduction F] [Encoding G] (t : τ) (t1 t2 : G) : (F × F) × τ :=
  let t := appendPoint t (textBytes "T1") t1
  let t := appendPoint t (textBytes "T2") t2
  let (x, t) := challengeScalar t (textBytes "x")
  let (w, t) := challengeScalar t (textBytes "w")
  ((x, w), t)

/-- Starts the inner-product argument for vectors of length `n`. -/
def innerProductDomain (t : τ) (n : Nat) : τ :=
  appendNumber (Transcript.append t (textBytes "dom-sep") (textBytes "inner-product")) "n" n

/-- Appends the two elements of a folding round and draws its challenge. -/
def roundChallenge (F : Type) [WideReduction F] [Encoding G] (t : τ) (l r : G) : F × τ :=
  let t := appendPoint t (textBytes "L") l
  let t := appendPoint t (textBytes "R") r
  challengeScalar t (textBytes "u")

end Layout

end ConfidentialCoin
