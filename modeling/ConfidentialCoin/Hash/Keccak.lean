/-!
# The permutation Keccak-f[1600]

Twenty-five lanes of 64 bits, `x + 5 * y` being the index of column `x` and row `y`. Each of the
five steps of a round is given entrywise: the lane at `(x, y)` of the result in terms of lanes of
the argument.
-/

namespace ConfidentialCoin.Keccak

/-- The twenty-five lanes. -/
abbrev Lanes := Vector UInt64 25

/-- The word `w` rotated left by `n < 64` bits. -/
def rotateLeft (w : UInt64) (n : Nat) : UInt64 :=
  if n = 0 then w else (w <<< n.toUInt64) ||| (w >>> (64 - n).toUInt64)

/-- The lane in column `x` and row `y`, both reduced modulo 5. -/
@[inline] def lane (s : Lanes) (x y : Nat) : UInt64 := s[x % 5 + 5 * (y % 5)]

/-- The state whose lane at `(x, y)` is `f x y`. -/
@[inline] def ofLanes (f : (x y : Nat) → UInt64) : Lanes :=
  Vector.ofFn fun i => f (i.val % 5) (i.val / 5)

/-- Every lane takes in the parities of the column before it and, rotated, the column after it. -/
def theta (s : Lanes) : Lanes :=
  let parity : Vector UInt64 5 := Vector.ofFn fun x =>
    lane s x 0 ^^^ lane s x 1 ^^^ lane s x 2 ^^^ lane s x 3 ^^^ lane s x 4
  let effect : Vector UInt64 5 := Vector.ofFn fun x =>
    parity[(x.val + 4) % 5] ^^^ rotateLeft parity[(x.val + 1) % 5] 1
  ofLanes fun x y => lane s x y ^^^ effect[x % 5]

/-- How far each lane is rotated. -/
def offsets : Vector Nat 25 :=
  #v[0, 1, 62, 28, 27, 36, 44, 6, 55, 20, 3, 10, 43, 25, 39, 41, 45, 15, 21, 8, 18, 2, 61, 56, 14]

/-- Rotates each lane and moves it: the lane at `(x, y)` comes from `(x + 3 * y, x)`. -/
def rhoPi (s : Lanes) : Lanes :=
  ofLanes fun x y =>
    rotateLeft (lane s (x + 3 * y) x) offsets[(x + 3 * y) % 5 + 5 * (x % 5)]

/-- The nonlinear step, along rows. -/
def chi (s : Lanes) : Lanes :=
  ofLanes fun x y => lane s x y ^^^ (~~~(lane s (x + 1) y) &&& lane s (x + 2) y)

/-- Adds the round constant to the first lane. -/
def iota (rc : UInt64) (s : Lanes) : Lanes := s.set 0 (s[0] ^^^ rc)

/-- The twenty-four round constants. -/
def roundConstants : List UInt64 :=
  [0x0000000000000001, 0x0000000000008082, 0x800000000000808A, 0x8000000080008000,
   0x000000000000808B, 0x0000000080000001, 0x8000000080008081, 0x8000000000008009,
   0x000000000000008A, 0x0000000000000088, 0x0000000080008009, 0x000000008000000A,
   0x000000008000808B, 0x800000000000008B, 0x8000000000008089, 0x8000000000008003,
   0x8000000000008002, 0x8000000000000080, 0x000000000000800A, 0x800000008000000A,
   0x8000000080008081, 0x8000000000008080, 0x0000000080000001, 0x8000000080008008]

/-- The permutation. -/
def permute (s : Lanes) : Lanes :=
  roundConstants.foldl (fun s rc => iota rc (chi (rhoPi (theta s)))) s

end ConfidentialCoin.Keccak
