import ConfidentialCoin.Group

/-!
# Random sources

A random source is a stream of bytes and a position in it. A scalar is the reduction of the next
64 bytes; drawing moves the position by 64 and does nothing else, so no byte is used twice.

* `RandomSource.splitMix`: the bytes of the SplitMix64 generator.
* `RandomSource.cycle`: given bytes over and over.
-/

namespace ConfidentialCoin

/-- A stream of bytes, of which those before a position are used up. -/
structure RandomSource where
  /-- The byte at every offset. -/
  byteAt : Nat → UInt8
  /-- The offset of the next byte. -/
  position : Nat

namespace RandomSource

/-- The next `n` bytes, unused. -/
def peek (source : RandomSource) (n : Nat) : Bytes n :=
  ⟨(List.range n).map fun i => source.byteAt (source.position + i), by simp⟩

/-- The source with the next `n` bytes used up. -/
def skip (source : RandomSource) (n : Nat) : RandomSource :=
  { source with position := source.position + n }

/-- Bytes that make a scalar. -/
def scalarBytes : Nat := 64

section

variable {F : Type} [WideReduction F]

/-- The next scalar. -/
def scalar (source : RandomSource) : F × RandomSource :=
  (reduce (source.peek scalarBytes), source.skip scalarBytes)

/-- The next `n` scalars. -/
def scalars : (n : Nat) → (source : RandomSource) → List F × RandomSource
  | 0, source => ([], source)
  | n + 1, source =>
    let (x, source) : F × RandomSource := source.scalar
    let (xs, source) := scalars n source
    (x :: xs, source)

@[simp] theorem length_scalars (n : Nat) (source : RandomSource) :
    (scalars (F := F) n source).1.length = n := by
  induction n generalizing source with
  | zero => rfl
  | succ n ih => simp [scalars, ih]

/-- A scalar takes 64 bytes of the source. -/
theorem position_scalars (n : Nat) (source : RandomSource) :
    (scalars (F := F) n source).2.position = source.position + 64 * n := by
  induction n generalizing source with
  | zero => rfl
  | succ n ih =>
    simp only [scalars, ih, scalar, skip, scalarBytes]
    omega

end

/-! ### Two streams -/

/-- Word `i` of the SplitMix64 generator: the seed moved `i + 1` steps, and scrambled. -/
def splitMixWord (seed : UInt64) (i : Nat) : UInt64 :=
  let z := seed + (i + 1).toUInt64 * 0x9E3779B97F4A7C15
  let z := (z ^^^ (z >>> 30)) * 0xBF58476D1CE4E5B9
  let z := (z ^^^ (z >>> 27)) * 0x94D049BB133111EB
  z ^^^ (z >>> 31)

/-- The words of the SplitMix64 generator, each in eight bytes, least significant first. -/
def splitMix (seed : UInt64) : RandomSource where
  byteAt n := (splitMixWord seed (n / 8) >>> (8 * (n % 8)).toUInt64).toUInt8
  position := 0

/-- The given bytes over and over; zeros if there are none. -/
def cycle (bytes : Array UInt8) : RandomSource where
  byteAt n := bytes.getD (n % bytes.size) 0
  position := 0

end RandomSource

end ConfidentialCoin
