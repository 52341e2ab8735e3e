import ConfidentialCoin.Bytes
import ConfidentialCoin.Hash.Keccak

/-!
# The duplex STROBE-128

A Keccak state that bytes are absorbed into and squeezed out of, 166 bytes between permutations.
Every operation first absorbs a two-byte header, the place where the previous operation began and
its own flags, so that the sequence of operations is part of what is hashed.

Only the operations a transcript needs are here: associated data, framing data and pseudo-random
output, each given its whole input at once.
-/

namespace ConfidentialCoin.Strobe

/-- Bytes absorbed or squeezed between two permutations. -/
def rate : Nat := 166

/-- The kinds of operation. -/
inductive Operation where
  /-- Data both sides know. -/
  | associatedData
  /-- Framing of the operation that follows. -/
  | framing
  /-- Pseudo-random output. -/
  | random
deriving DecidableEq

/-- The flag byte: 1 inbound, 2 application, 4 cipher, 16 framing. -/
def Operation.flags : Operation → UInt8
  | .associatedData => 2
  | .framing => 18
  | .random => 7

/-- Whether the operation starts at a permutation boundary. -/
def Operation.startsBlock : Operation → Bool
  | .random => true
  | _ => false

/-- The duplex. -/
structure Duplex where
  /-- The Keccak state. -/
  lanes : Keccak.Lanes
  /-- The next byte of the block. -/
  position : Nat
  /-- There is a next byte. -/
  position_lt : position < rate
  /-- Where the current operation began in this block, counted from 1; 0 if in an earlier one. -/
  start : UInt8

namespace Duplex

def byteAt (s : Keccak.Lanes) (i : Nat) (h : i < 200) : UInt8 :=
  (s[i / 8] >>> (8 * (i % 8)).toUInt64).toUInt8

/-- Adds `b` to the byte at offset `i`. -/
def xorAt (s : Keccak.Lanes) (i : Nat) (b : UInt8) (h : i < 200) : Keccak.Lanes :=
  s.set (i / 8) (s[i / 8] ^^^ (b.toUInt64 <<< (8 * (i % 8)).toUInt64))

/-- The duplex at the start of the block after `lanes`, which ends at `position`: what was absorbed
is closed by the place where the operation began and the padding, and permuted. -/
def nextBlock (lanes : Keccak.Lanes) (position : Nat) (start : UInt8) (h : position ≤ rate) :
    Duplex :=
  have hr : rate = 166 := rfl
  let s := xorAt lanes position start (by omega)
  let s := xorAt s (position + 1) 0x04 (by omega)
  let s := xorAt s (rate + 1) 0x80 (by omega)
  ⟨Keccak.permute s, 0, by decide, 0⟩

/-- Moves to the next byte, over the end of the block if need be. -/
def advance (d : Duplex) (lanes : Keccak.Lanes) : Duplex :=
  if h : d.position + 1 < rate then ⟨lanes, d.position + 1, h, d.start⟩
  else nextBlock lanes rate d.start (Nat.le_refl _)

def absorbByte (d : Duplex) (b : UInt8) : Duplex :=
  d.advance (xorAt d.lanes d.position b (by have := d.position_lt; have : rate = 166 := rfl; omega))

def absorb (d : Duplex) (bs : List UInt8) : Duplex := bs.foldl absorbByte d

/-- Takes one byte out and leaves zero in its place. -/
def squeezeByte (d : Duplex) : UInt8 × Duplex :=
  have h : d.position < 200 := by have := d.position_lt; have : rate = 166 := rfl; omega
  let b := byteAt d.lanes d.position h
  (b, d.advance (xorAt d.lanes d.position b h))

/-- Takes `n` bytes out. -/
def squeeze : (n : Nat) → Duplex → Bytes n × Duplex
  | 0, d => (⟨[], rfl⟩, d)
  | n + 1, d =>
    let (b, d) := d.squeezeByte
    let (bs, d) := squeeze n d
    (⟨b :: bs.toList, by simp⟩, d)

def startOperation (d : Duplex) (op : Operation) : Duplex :=
  -- The header names the previous operation's start; this one starts after the byte at hand.
  let header := [d.start, op.flags]
  let d := absorb { d with start := (d.position + 1).toUInt8 } header
  if op.startsBlock && d.position != 0 then
    nextBlock d.lanes d.position d.start (Nat.le_of_lt d.position_lt)
  else d

/-- Absorbs data both sides know. -/
def associatedData (d : Duplex) (bs : List UInt8) : Duplex :=
  (d.startOperation .associatedData).absorb bs

/-- Absorbs the framing of the operation that follows. -/
def framing (d : Duplex) (bs : List UInt8) : Duplex :=
  (d.startOperation .framing).absorb bs

/-- Takes `n` pseudo-random bytes. -/
def random (d : Duplex) (n : Nat) : Bytes n × Duplex := (d.startOperation .random).squeeze n

/-- A fresh duplex for the protocol `name`. The first block announces the rate, the sizes of the
fields, and the version. -/
def ofProtocol (name : List UInt8) : Duplex :=
  let blank : Duplex := ⟨Vector.replicate 25 0, 0, by decide, 0⟩
  -- The announcement fills no block; it is permuted without being closed.
  let announced := absorb blank ([1, 168, 1, 0, 1, 96] ++ textBytes "STROBEv1.0.2")
  framing ⟨Keccak.permute announced.lanes, 0, by decide, 0⟩ name

end Duplex

end ConfidentialCoin.Strobe
