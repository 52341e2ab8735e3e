import ConfidentialCoin.Commitment.Basis
import ConfidentialCoin.Error
import ConfidentialCoin.Parameters
import ConfidentialCoin.Random

/-!
# Witnesses

A witness opens the commitments of one proof: a value and a blinding for each coin, and between 1
and 30 coins. The bounds are part of the type, so a witness once made can always be proved of.

* `Witness.ofLists_eq_ok_iff`: which values and blindings make a witness.
* `Witness.underFirstTag`: coins committed to under tags that differ by multiples of the blinding
  generator open, with other blindings, under the first coin's tag.
-/

namespace ConfidentialCoin

/-- The value and the blinding of a coin. -/
structure Opening (F : Type) where
  value : UInt64
  blinding : F
deriving DecidableEq

/-- The openings of the coins of one proof. -/
structure Witness (F : Type) where
  /-- One opening for each coin. -/
  openings : List (Opening F)
  /-- There is a coin. -/
  nonempty : 0 < openings.length
  /-- There are no more coins than a proof covers. -/
  length_le : openings.length ≤ maxCoins
deriving DecidableEq

namespace Witness

variable {F G : Type}

/-- Coins of a witness. -/
def size (w : Witness F) : Nat := w.openings.length

/-- The values, in order. -/
def values (w : Witness F) : List UInt64 := w.openings.map (·.value)

/-- The blindings, in order. -/
def blindings (w : Witness F) : List F := w.openings.map (·.blinding)

@[simp] theorem length_values (w : Witness F) : w.values.length = w.size := List.length_map ..

@[simp] theorem length_blindings (w : Witness F) : w.blindings.length = w.size :=
  List.length_map ..

/-- The witness with the given values and blindings. -/
def ofLists (values : List UInt64) (blindings : List F) : Except ProverError (Witness F) :=
  if values.length ≠ blindings.length then
    .error (.refused (.lengthMismatch values.length blindings.length))
  else
    let openings := List.zipWith Opening.mk values blindings
    if hpos : openings.length = 0 then .error (.invalidInput "witness has no values")
    else if hle : openings.length ≤ maxCoins then .ok ⟨openings, Nat.pos_of_ne_zero hpos, hle⟩
    else .error (.invalidInput "too many values for one proof")

theorem values_zipWith {values : List UInt64} {blindings : List F}
    (h : values.length = blindings.length) :
    (List.zipWith Opening.mk values blindings).map (·.value) = values := by
  induction values generalizing blindings with
  | nil => rfl
  | cons v vs ih =>
    cases blindings with
    | nil => simp at h
    | cons r rs => simp [ih (Nat.succ.inj h)]

theorem blindings_zipWith {values : List UInt64} {blindings : List F}
    (h : values.length = blindings.length) :
    (List.zipWith Opening.mk values blindings).map (·.blinding) = blindings := by
  induction values generalizing blindings with
  | nil => exact (List.length_eq_zero_iff.1 h.symm).symm
  | cons v vs ih =>
    cases blindings with
    | nil => simp at h
    | cons r rs => simp [ih (Nat.succ.inj h)]

/-- Values and blindings make a witness when there are as many of the one as of the other, and
between 1 and 30; the witness is then determined by them. -/
theorem ofLists_eq_ok_iff {values : List UInt64} {blindings : List F} {w : Witness F} :
    ofLists values blindings = .ok w ↔
      values.length = blindings.length ∧ 0 < values.length ∧ values.length ≤ maxCoins ∧
        w.values = values ∧ w.blindings = blindings := by
  constructor
  · intro h
    unfold ofLists at h
    split at h
    · cases h
    · next hlen =>
      have hlen := Decidable.not_not.1 hlen
      have hz : (List.zipWith Opening.mk values blindings).length = values.length := by
        simp [hlen]
      simp only at h
      split at h
      · cases h
      · next hpos =>
        split at h
        · next hle =>
          cases h
          exact ⟨hlen, by omega, by omega, values_zipWith hlen, blindings_zipWith hlen⟩
        · cases h
  · rintro ⟨hlen, hpos, hle, hv, hr⟩
    have hz : (List.zipWith Opening.mk values blindings).length = values.length := by
      simp [hlen]
    -- The openings are determined by the two lists that they are zipped from.
    have ho : List.zipWith Opening.mk values blindings = w.openings := by
      subst hv hr
      simp only [Witness.values, Witness.blindings, List.zipWith_map]
      induction w.openings with
      | nil => rfl
      | cons o os _ => simp
    unfold ofLists
    rw [if_neg (by simpa using hlen)]
    simp only
    rw [dif_neg (by omega), dif_pos (by omega)]
    cases w
    simp_all

/-- The witness of the given values with blindings drawn one by one. They are drawn even if the
values then make no witness. -/
def ofRandom [WideReduction F] (values : List UInt64) (source : RandomSource) :
    Except ProverError (Witness F) × RandomSource :=
  let (blindings, source) := source.scalars values.length
  (ofLists values blindings, source)

/-- The commitments of the coins under an asset tag. -/
def commitments [NatCast F] [BasePoint G] [HashTarget G] [LinearCombination F G] (w : Witness F)
    (tag : G) : List G :=
  let basis := Basis.ofTag tag
  w.openings.map fun o => basis.commitValue o.value o.blinding

/-- The same coins under the first coin's tag. Coin `i` was committed to under a tag blinded by
`blinders[i]`; the difference to the first blinder, times the value, moves into its blinding. -/
def underFirstTag [NatCast F] [Add F] [Sub F] [Mul F] (w : Witness F) (blinders : List F) :
    Except ProverError (Witness F) :=
  if h : blinders.length = w.size then
    let first := blinders.head (by
      rw [← List.length_pos_iff, h]
      exact w.nonempty)
    let openings := List.zipWith
      (fun o b => { o with blinding := o.blinding + (b - first) * (o.value.toNat : F) })
      w.openings blinders
    have hlen : openings.length = w.openings.length := by
      simp only [openings, List.length_zipWith, h, size, Nat.min_self]
    .ok ⟨openings, hlen ▸ w.nonempty, hlen ▸ w.length_le⟩
  else .error (.refused (.lengthMismatch w.size blinders.length))

/-- The text of a witness in reports: the values, and of the blindings only how many there are. -/
def describe (w : Witness F) : String :=
  "Witness \x7b values: [" ++ ", ".intercalate (w.values.map fun v => toString v.toNat) ++
    "], rands: <" ++ toString w.size ++ " redacted> \x7d"

end Witness

end ConfidentialCoin
