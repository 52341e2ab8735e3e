import ConfidentialCoin.Stealth.Address

/-!
# Candidate keys

The candidates for a one-time key are the keys number 1, 2, … up to a bound. `Candidates` is a
place in that sequence. Indices have 32 bits: after the last of them the next index is 0, which is
no candidate's.

* `Candidates.remaining`: how many are still to come.
* `Candidates.next`, `Candidates.skipThenNext`: the next candidate, and the one after those passed
  over.
* `Candidates.find`: the first candidate with a property.
-/

namespace ConfidentialCoin

/-- A place in the sequence of candidates. -/
structure Candidates (G : Type) where
  /-- The encoding of the element shared with the recipient. -/
  shared : Bytes 32
  /-- The recipient's spend key. -/
  spend : G
  /-- The index of the next candidate, or 0 past the largest index. -/
  index : UInt32
  /-- The largest index tried. -/
  maxTries : UInt32

/-- An index and its key. -/
structure Candidate (G : Type) where
  index : UInt32
  /-- The one-time key with that index. -/
  key : G

namespace Candidates

variable {F G : Type}

/-- All candidates up to a bound. -/
def start [Encoding G] (shared spend : G) (maxTries : UInt32) : Candidates G :=
  ⟨encode shared, spend, 1, maxTries⟩

/-- There is no next candidate. -/
def isDone (c : Candidates G) : Bool := c.index == 0 || c.maxTries < c.index

/-- Candidates still to come. -/
def remaining (c : Candidates G) : Nat :=
  if c.index = 0 then 0 else c.maxTries.toNat - (c.index.toNat - 1)

/-- The place after the next candidate. -/
def advance (c : Candidates G) : Candidates G := { c with index := c.index + 1 }

/-- The place `n` candidates on, or past the last one. -/
def skip (c : Candidates G) (n : Nat) : Candidates G :=
  { c with index := c.index + (min n c.remaining).toUInt32 }

/-- A step leaves fewer candidates, so a walk over them ends. -/
theorem remaining_advance_lt {c : Candidates G} (h : c.isDone = false) :
    c.advance.remaining < c.remaining := by
  simp only [isDone, Bool.or_eq_false_iff, beq_eq_false_iff_ne, decide_eq_false_iff_not,
    UInt32.lt_iff_toNat_lt] at h
  obtain ⟨h0, hle⟩ := h
  have hpos : c.index.toNat ≠ 0 := fun h => h0 (UInt32.toNat_inj.1 h)
  unfold remaining advance
  rw [if_neg h0]
  -- The next index is 0, with nothing to come, or one more.
  split
  · omega
  · next h1 =>
    have hlt := c.index.toNat_lt
    have hlt' := c.maxTries.toNat_lt
    have hne : (c.index + 1).toNat ≠ 0 := fun h => h1 (UInt32.toNat_inj.1 h)
    have hadd : (c.index + 1).toNat = (c.index.toNat + 1) % 2 ^ 32 := by
      rw [UInt32.toNat_add]; rfl
    have hle' : ¬c.maxTries.toNat < c.index.toNat := hle
    dsimp only
    rw [hadd] at hne ⊢
    omega

section

variable [HashTarget F] [BaseMultiple F G] [Add G]

/-- The candidate at this place. -/
def current (F : Type) [HashTarget F] [BaseMultiple F G] (c : Candidates G) : Candidate G :=
  ⟨c.index, oneTimeKey F c.shared c.index c.spend⟩

/-- The next candidate and the place after it. -/
def next (F : Type) [HashTarget F] [BaseMultiple F G] (c : Candidates G) :
    Option (Candidate G) × Candidates G :=
  if c.isDone then (none, c) else (some (c.current F), c.advance)

/-- The candidate after `n` that are passed over, and the place after it. -/
def skipThenNext (F : Type) [HashTarget F] [BaseMultiple F G] (c : Candidates G) (n : Nat) :
    Option (Candidate G) × Candidates G :=
  (c.skip n).next F

/-- The first candidate still to come with a property. -/
def find (F : Type) [HashTarget F] [BaseMultiple F G] (p : Candidate G → Bool) (c : Candidates G) :
    Option (Candidate G) :=
  if h : c.isDone then none
  else
    have := remaining_advance_lt (Bool.eq_false_iff.2 h)
    let candidate := c.current F
    if p candidate then some candidate else find F p c.advance
termination_by c.remaining

end

end Candidates

end ConfidentialCoin
