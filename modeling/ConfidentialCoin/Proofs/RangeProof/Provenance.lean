import ConfidentialCoin.RangeProof.Witness
import Mathlib.Data.List.Zip

/-!
# Where witnesses come from

A witness is made of given values and blindings, of given values with blindings drawn, or of a
witness whose coins are brought under one tag. `WitnessLists` is what each of the three makes when a
witness is kept as two lists that nothing is known of: lengths are compared when the lists are put
together, the first blinder is looked up in its list, and what comes out of a transformation is put
together, and compared, once more.

Nothing depends on these comparisons after the first one. Each of the three makes the two lists of
the witness that it makes where the sizes are part of the type, and fails where that fails
(`ofLists_eq`, `ofRandom_eq`, `underFirstTag_eq`). So whatever sequence of them leads to two lists,
these are the lists of a witness (`reachable_iff`).
-/

namespace ConfidentialCoin

variable {F : Type}

/-- The values and the blindings of some coins, as two lists. -/
@[ext] structure WitnessLists (F : Type) where
  /-- The values. -/
  values : List UInt64
  /-- The blindings. -/
  blindings : List F
deriving DecidableEq

/-- The two lists of a witness. -/
def Witness.lists (w : Witness F) : WitnessLists F := ⟨w.values, w.blindings⟩

namespace WitnessLists

/-! ### Making lists -/

/-- Puts two lists together, after a look at their lengths. -/
def ofLists (values : List UInt64) (blindings : List F) : Except ProverError (WitnessLists F) :=
  if values.length ≠ blindings.length then
    .error (.refused (.lengthMismatch values.length blindings.length))
  else if values.isEmpty then .error (.invalidInput "witness has no values")
  else if maxCoins < values.length then .error (.invalidInput "too many values for one proof")
  else .ok ⟨values, blindings⟩

/-- Draws a blinding for each value. -/
def ofRandom [WideReduction F] (values : List UInt64) (source : RandomSource) :
    Except ProverError (WitnessLists F) × RandomSource :=
  let (blindings, source) := source.scalars values.length
  (ofLists values blindings, source)

/-- Moves each blinding by the difference of its blinder to the first one, times the value. -/
def underFirstTag [NatCast F] [Add F] [Sub F] [Mul F] (w : WitnessLists F) (blinders : List F) :
    Except ProverError (WitnessLists F) :=
  if blinders.length ≠ w.values.length then
    .error (.refused (.lengthMismatch w.values.length blinders.length))
  else do
    let first ← (entry blinders 0).mapError .fault
    ofLists w.values (List.zipWith (fun o b => o.2 + (b - first) * (o.1.toNat : F))
      (w.values.zip w.blindings) blinders)

/-- Lists that some sequence of the three leads to. -/
inductive Reachable [NatCast F] [Add F] [Sub F] [Mul F] [WideReduction F] :
    WitnessLists F → Prop
  /-- From values and blindings. -/
  | ofLists {values : List UInt64} {blindings : List F} {w : WitnessLists F}
      (h : ofLists values blindings = .ok w) : Reachable w
  /-- From values, with blindings from a source. -/
  | ofRandom {values : List UInt64} {source : RandomSource} {w : WitnessLists F}
      (h : (ofRandom values source).1 = .ok w) : Reachable w
  /-- From lists reached before, under the first of their tags. -/
  | underFirstTag {w w' : WitnessLists F} {blinders : List F} (hw : Reachable w)
      (h : w.underFirstTag blinders = .ok w') : Reachable w'

/-! ### The lists of witnesses -/

/-- A witness is made of its own lists. -/
theorem ofLists_values_blindings (w : Witness F) :
    Witness.ofLists w.values w.blindings = .ok w := by
  refine Witness.ofLists_eq_ok_iff.mpr ⟨?_, ?_, ?_, rfl, rfl⟩
  · rw [w.length_values, w.length_blindings]
  · exact w.length_values ▸ w.nonempty
  · exact w.length_values ▸ w.length_le

/-- The lists that are accepted are those of a witness. -/
theorem ofLists_eq (values : List UInt64) (blindings : List F) :
    ofLists values blindings = (Witness.ofLists values blindings).map Witness.lists := by
  by_cases hlen : values.length = blindings.length
  · have hzip : (List.zipWith Opening.mk values blindings).length = values.length := by
      rw [List.length_zipWith, hlen, Nat.min_self]
    rw [ofLists, Witness.ofLists, if_neg (not_not_intro hlen), if_neg (not_not_intro hlen)]
    by_cases hpos : values.length = 0
    · rw [if_pos (List.isEmpty_iff_length_eq_zero.mpr hpos)]
      simp only [dif_pos (hzip.trans hpos)]
      rfl
    · rw [if_neg (hpos ∘ List.isEmpty_iff_length_eq_zero.mp)]
      simp only [dif_neg (hpos ∘ hzip.symm.trans)]
      by_cases hle : values.length ≤ maxCoins
      · rw [if_neg (Nat.not_lt.mpr hle), dif_pos (hzip ▸ hle)]
        refine congrArg Except.ok (WitnessLists.ext ?_ ?_)
        · exact (Witness.values_zipWith hlen).symm
        · exact (Witness.blindings_zipWith hlen).symm
      · rw [if_pos (Nat.lt_of_not_le hle), dif_neg (hzip ▸ hle)]
        rfl
  · rw [ofLists, Witness.ofLists, if_pos hlen, if_pos hlen]
    rfl

theorem ofRandom_eq [WideReduction F] (values : List UInt64) (source : RandomSource) :
    ofRandom values source =
      ((Witness.ofRandom values source).1.map (Witness.lists (F := F)),
        (Witness.ofRandom (F := F) values source).2) :=
  Prod.ext (ofLists_eq ..) rfl

variable [NatCast F] [Add F] [Sub F] [Mul F]

/-- Where there is a blinder for each coin there is a first one, and a witness comes of them, of the
same values. -/
theorem exists_underFirstTag_eq_ok (w : Witness F) {blinders : List F}
    (hlen : blinders.length = w.size) :
    ∃ first w', entry blinders 0 = .ok first ∧ w.underFirstTag blinders = .ok w' ∧
      w'.values = w.values ∧
      w'.blindings = List.zipWith (fun o b => o.2 + (b - first) * (o.1.toNat : F))
        (w.values.zip w.blindings) blinders := by
  obtain ⟨first, rest, rfl⟩ :=
    List.exists_cons_of_length_pos (hlen.symm ▸ w.nonempty : 0 < blinders.length)
  obtain ⟨w', hw', hopenings⟩ : ∃ w', w.underFirstTag (first :: rest) = .ok w' ∧
      w'.openings = List.zipWith (fun o b => { o with
        blinding := o.blinding + (b - first) * (o.value.toNat : F) }) w.openings
          (first :: rest) := ⟨_, dif_pos hlen, rfl⟩
  refine ⟨first, w', rfl, hw', ?_, ?_⟩
  · rw [Witness.values, hopenings, List.map_zipWith]
    refine List.ext_getElem ?_ fun i hi hi' => ?_
    · rw [List.length_zipWith, hlen, w.length_values, Witness.size, Nat.min_self]
    · simp only [Witness.values, List.getElem_zipWith, List.getElem_map]
  · rw [Witness.blindings, hopenings, List.map_zipWith, Witness.values, Witness.blindings,
      List.zip_map', List.zipWith_map_left]

/-- The lists of a witness come under one tag as the witness does. -/
theorem underFirstTag_eq (w : Witness F) (blinders : List F) :
    w.lists.underFirstTag blinders = (w.underFirstTag blinders).map Witness.lists := by
  by_cases hlen : blinders.length = w.size
  · obtain ⟨first, w', hfirst, hw', hvalues, hblindings⟩ := exists_underFirstTag_eq_ok w hlen
    have hremade : Witness.ofLists w.values w'.blindings = .ok w' :=
      hvalues ▸ ofLists_values_blindings w'
    have hlists : w.lists.underFirstTag blinders = ofLists w.values w'.blindings := by
      rw [underFirstTag, hfirst, hblindings]
      exact if_neg (not_not_intro (hlen.trans w.length_values.symm))
    rw [hlists, ofLists_eq, hremade, hw']
  · rw [underFirstTag, if_pos (hlen ∘ (·.trans w.length_values)), Witness.underFirstTag,
      dif_neg hlen, Witness.lists, w.length_values]
    rfl

/-- **Invariant.** The lists that are reached are those of witnesses. -/
theorem reachable_iff [WideReduction F] {lists : WitnessLists F} :
    lists.Reachable ↔ ∃ w : Witness F, w.lists = lists := by
  have hmap : ∀ {x : Except ProverError (Witness F)} {lists : WitnessLists F},
      x.map Witness.lists = .ok lists → ∃ w : Witness F, w.lists = lists := by
    intro x lists hx
    cases x with
    | ok w => exact ⟨w, Except.ok.inj hx⟩
    | error e => cases hx
  constructor
  · intro h
    -- Each way to make lists makes those of a witness; only the last starts from lists.
    induction h with
    | ofLists h => exact hmap ((ofLists_eq ..).symm.trans h)
    | ofRandom h => exact hmap ((congrArg Prod.fst (ofRandom_eq ..)).symm.trans h)
    | underFirstTag _ h ih =>
      obtain ⟨w, rfl⟩ := ih
      exact hmap ((underFirstTag_eq ..).symm.trans h)
  · rintro ⟨w, rfl⟩
    have hlists : ofLists w.values w.blindings = .ok w.lists := by
      rw [ofLists_eq, ofLists_values_blindings]
      rfl
    exact .ofLists hlists

end WitnessLists

end ConfidentialCoin
