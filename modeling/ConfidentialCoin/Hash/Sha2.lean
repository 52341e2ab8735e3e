import ConfidentialCoin.Bytes

/-!
# SHA-256 and SHA-512

One construction over words of 32 or of 64 bits. `Word` collects what differs between the two:
the width, the six rotation mixes, and how many rounds a block takes. The initial state and the
round constants are not tables: they are the leading fractional bits of the square and cube roots
of the first primes, computed from `fractionalRoot`.

* `sha256` and `sha512`: the digests, of 32 and 64 bytes.
* `length_padded`: a padded message is a whole number of blocks.
-/

namespace ConfidentialCoin.Sha2

/-! ### Constants -/

/-- The first 80 primes. -/
def primes : List Nat :=
  ((List.range 410).drop 2).filter fun n => ((List.range n).drop 2).all fun d => n % d ≠ 0

/-- The greatest `r` with `r ^ k ≤ n` whose bits lie among the lowest `bits`, found from the top
bit down. -/
def floorRoot (k n : Nat) (bits : Nat) : Nat :=
  (List.range bits).reverse.foldl
    (fun r i => if Nat.pow (r + 1 <<< i) k ≤ n then r + 1 <<< i else r) 0

/-- The leading 64 bits of the fractional part of the `k`-th root of `n`. -/
def fractionalRoot (k n : Nat) : Nat := floorRoot k (n <<< (64 * k)) 70 % UInt64.size

/-! ### Words -/

/-- What tells the two functions of the family apart. -/
class Word (W : Type) extends Add W, XorOp W, AndOp W, Complement W where
  /-- Bytes in a word. -/
  bytes : Nat
  /-- Rounds for one block. -/
  rounds : Nat
  /-- The word with the given value, reduced to its width. -/
  ofNat : Nat → W
  toNat : W → Nat
  /-- The mix of the first state word. -/
  bigSigma0 : W → W
  /-- The mix of the fifth state word. -/
  bigSigma1 : W → W
  /-- The mix of the schedule word fifteen back. -/
  smallSigma0 : W → W
  /-- The mix of the schedule word two back. -/
  smallSigma1 : W → W

/-- The word `x` rotated right by `n` bits, `0 < n < 32`. -/
@[inline] def rotateRight32 (x n : UInt32) : UInt32 := (x >>> n) ||| (x <<< (32 - n))

/-- The word `x` rotated right by `n` bits, `0 < n < 64`. -/
@[inline] def rotateRight64 (x n : UInt64) : UInt64 := (x >>> n) ||| (x <<< (64 - n))

instance : Word UInt32 where
  bytes := 4
  rounds := 64
  ofNat n := n.toUInt32
  toNat w := w.toNat
  bigSigma0 x := rotateRight32 x 2 ^^^ rotateRight32 x 13 ^^^ rotateRight32 x 22
  bigSigma1 x := rotateRight32 x 6 ^^^ rotateRight32 x 11 ^^^ rotateRight32 x 25
  smallSigma0 x := rotateRight32 x 7 ^^^ rotateRight32 x 18 ^^^ (x >>> 3)
  smallSigma1 x := rotateRight32 x 17 ^^^ rotateRight32 x 19 ^^^ (x >>> 10)

instance : Word UInt64 where
  bytes := 8
  rounds := 80
  ofNat n := n.toUInt64
  toNat w := w.toNat
  bigSigma0 x := rotateRight64 x 28 ^^^ rotateRight64 x 34 ^^^ rotateRight64 x 39
  bigSigma1 x := rotateRight64 x 14 ^^^ rotateRight64 x 18 ^^^ rotateRight64 x 41
  smallSigma0 x := rotateRight64 x 1 ^^^ rotateRight64 x 8 ^^^ (x >>> 7)
  smallSigma1 x := rotateRight64 x 19 ^^^ rotateRight64 x 61 ^^^ (x >>> 6)

section Construction

variable {W : Type} [Word W]

/-- The word made of the leading bits of a 64-bit fraction. -/
def ofFraction (W : Type) [Word W] (n : Nat) : W := Word.ofNat (n >>> (64 - 8 * Word.bytes W))

/-- The round constants: cube roots of the first primes. -/
def roundConstants (W : Type) [Word W] : List W :=
  (primes.take (Word.rounds W)).map fun p => ofFraction W (fractionalRoot 3 p)

/-- The eight chaining words. -/
structure State (W : Type) where
  a : W
  b : W
  c : W
  d : W
  e : W
  f : W
  g : W
  h : W

namespace State

/-- The state before the first block: square roots of the first eight primes. -/
def initial (W : Type) [Word W] : State W :=
  ⟨root 2, root 3, root 5, root 7, root 11, root 13, root 17, root 19⟩
where
  /-- The leading bits of the fractional part of `√p`. -/
  root (p : Nat) : W := ofFraction W (fractionalRoot 2 p)

/-- One round, with schedule word `w` and round constant `k`. -/
@[specialize] def round (s : State W) (k w : W) : State W :=
  let t1 := s.h + Word.bigSigma1 s.e + ((s.e &&& s.f) ^^^ (~~~s.e &&& s.g)) + k + w
  let t2 := Word.bigSigma0 s.a + ((s.a &&& s.b) ^^^ (s.a &&& s.c) ^^^ (s.b &&& s.c))
  ⟨t1 + t2, s.a, s.b, s.c, s.d + t1, s.e, s.f, s.g⟩

/-- Wordwise sum. -/
def add (s t : State W) : State W :=
  ⟨s.a + t.a, s.b + t.b, s.c + t.c, s.d + t.d, s.e + t.e, s.f + t.f, s.g + t.g, s.h + t.h⟩

def words (s : State W) : List W := [s.a, s.b, s.c, s.d, s.e, s.f, s.g, s.h]

end State

/-- The words of a block, each big-endian. -/
def blockWords (W : Type) [Word W] : (n : Nat) → List UInt8 → List W
  | 0, _ => []
  | n + 1, bs =>
    Word.ofNat (ofBigEndian (bs.take (Word.bytes W))) :: blockWords W n (bs.drop (Word.bytes W))

/-- The schedule continued by `n` words, latest word first: each is given by the recurrence
`w[i] = σ₁ w[i-2] + w[i-7] + σ₀ w[i-15] + w[i-16]`. -/
@[specialize] def extend : (n : Nat) → (latest : List W) → List W
  | 0, ws => ws
  | n + 1, ws =>
    match ws with
    | _ :: w2 :: _ :: _ :: _ :: _ :: w7 :: _ :: _ :: _ :: _ :: _ :: _ :: _ :: w15 :: w16 :: _ =>
      extend n ((Word.smallSigma1 w2 + w7 + Word.smallSigma0 w15 + w16) :: ws)
    | _ => ws

/-- The schedule of a block, one word for each round. -/
@[specialize] def schedule (block : List UInt8) : List W :=
  (extend (Word.rounds W - 16) (blockWords W 16 block).reverse).reverse

/-- The rounds of a block. -/
@[specialize] def rounds : (ks ws : List W) → State W → State W
  | k :: ks, w :: ws, s => rounds ks ws (s.round k w)
  | _, _, s => s

/-- Absorbs one block. -/
@[specialize] def compress (ks : List W) (s : State W) (block : List UInt8) : State W :=
  s.add (rounds ks (schedule block) s)

/-- Zero bytes between the delimiter and the length. -/
def paddingZeros (W : Type) [Word W] (length : Nat) : Nat :=
  (16 * Word.bytes W - (length + 1 + 2 * Word.bytes W) % (16 * Word.bytes W)) %
    (16 * Word.bytes W)

/-- The message, a one bit, zeros, and the length in bits. -/
def padded (W : Type) [Word W] (message : List UInt8) : List UInt8 :=
  message ++ 0x80 :: List.replicate (paddingZeros W message.length) 0 ++
    bigEndian (2 * Word.bytes W) (8 * message.length)

/-- A padded message is a whole number of blocks. -/
theorem length_padded (message : List UInt8) (h : 0 < Word.bytes W) :
    (padded W message).length % (16 * Word.bytes W) = 0 := by
  have hlen : (padded W message).length =
      message.length + 1 + 2 * Word.bytes W + paddingZeros W message.length := by
    simp [padded]; omega
  rw [hlen, paddingZeros]
  -- With `n` bytes before the zeros and blocks of `m`, the zeros fill the last block.
  generalize message.length + 1 + 2 * Word.bytes W = n
  have hm : 0 < 16 * Word.bytes W := by omega
  generalize 16 * Word.bytes W = m at hm
  have hlt := Nat.mod_lt n hm
  rcases Nat.eq_zero_or_pos (n % m) with hz | hp
  · simp [hz]
  · rw [Nat.mod_eq_of_lt (show m - n % m < m by omega), Nat.add_mod,
      Nat.mod_eq_of_lt (show m - n % m < m by omega)]
    rw [show n % m + (m - n % m) = m by omega, Nat.mod_self]

/-- Absorbs `n` blocks. -/
@[specialize] def absorb (ks : List W) : (n : Nat) → State W → List UInt8 → State W
  | 0, s, _ => s
  | n + 1, s, bs =>
    absorb ks n (compress ks s (bs.take (16 * Word.bytes W))) (bs.drop (16 * Word.bytes W))

/-- The digest of a message. -/
@[specialize] def digest (ks : List W) (start : State W) (message : List UInt8) : List UInt8 :=
  let bs := padded W message
  (absorb ks (bs.length / (16 * Word.bytes W)) start bs).words.flatMap fun w =>
    bigEndian (Word.bytes W) (Word.toNat w)

/-- A digest is eight words, whatever the message. -/
theorem length_digest (ks : List W) (start : State W) (message : List UInt8) :
    (digest ks start message).length = 8 * Word.bytes W := by
  simp [digest, State.words]
  omega

end Construction

def constants256 : List UInt32 := roundConstants UInt32

def constants512 : List UInt64 := roundConstants UInt64

def initial256 : State UInt32 := State.initial UInt32

def initial512 : State UInt64 := State.initial UInt64

end Sha2

def sha256 (message : List UInt8) : Bytes 32 :=
  ⟨Sha2.digest Sha2.constants256 Sha2.initial256 message, Sha2.length_digest _ _ _⟩

def sha512 (message : List UInt8) : Bytes 64 :=
  ⟨Sha2.digest Sha2.constants512 Sha2.initial512 message, Sha2.length_digest _ _ _⟩

end ConfidentialCoin
