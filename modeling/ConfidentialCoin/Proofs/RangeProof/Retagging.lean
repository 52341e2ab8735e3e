import ConfidentialCoin.Proofs.Ristretto.Exponent
import Mathlib.Data.List.Zip

/-!
# Coins under one tag

Coins of one asset are committed to under tags of their own, each the tag of the asset with a
blinder. `Witness.underFirstTag` opens them all under the tag of the first coin, so that one proof
covers them.

* Coin by coin the blinding moves by a multiple of the value (`Opening.move`), which is what the
  commitment loses with the tag (`Opening.commitValue_move`).
* Moving twice is moving once by the sum (`underFirstTag_bind`), and coins that are under one tag
  already stay as they are (`underFirstTag_replicate`); so the opposite blinders move them back.
* A proof holds the commitments of its witness (`RangeProof.commitments_of_prove`), hence those of
  the coins under their own tags.
-/

namespace ConfidentialCoin

variable {F G τ : Type} [Field F]

/-! ### One coin -/

namespace Opening

/-- The same value, its blinding moved by a multiple of it. -/
def move (d : F) (o : Opening F) : Opening F :=
  { o with blinding := o.blinding + d * (o.value.toNat : F) }

theorem move_zero (o : Opening F) : o.move 0 = o := by
  rw [move, zero_mul, add_zero]

/-- Two moves are one move by the sum. -/
theorem move_move (c d : F) (o : Opening F) : (o.move c).move d = o.move (c + d) := by
  simp only [move, add_assoc, add_mul]

end Opening

section Commitments

variable [AddCommGroup G] [Module F G] [BasePoint G] [HashTarget G]

/-- The tag of an asset, blinded for a coin. -/
def blindedTag (tag : G) (blinder : F) : G := (Basis.standard G).blindTag tag blinder

variable [LinearCombination F G]

/-- **One coin.** What moves into the blinding moves out of the tag. -/
theorem Opening.commitValue_move [LawfulLinearCombination F G] (tag : G) (b c : F)
    (o : Opening F) :
    (Basis.ofTag (blindedTag tag c)).commitValue o.value (o.move (b - c)).blinding =
      (Basis.ofTag (blindedTag tag b)).commitValue o.value o.blinding := by
  simp only [move, Basis.commitValue, Basis.commit_eq, Basis.ofTag, Basis.withTag, blindedTag,
    Basis.blindTag]
  module

/-- The commitments of the coins, each under the tag blinded for it. -/
def Witness.ownCommitments (w : Witness F) (tag : G) (blinders : List F) : List G :=
  List.zipWith (fun o b => (Basis.ofTag (blindedTag tag b)).commitValue o.value o.blinding)
    w.openings blinders

end Commitments

/-! ### All coins -/

namespace Witness

/-- The openings, moved by the differences of the blinders to the first one. -/
def moved (w : Witness F) (blinders : List F) : List (Opening F) :=
  List.zipWith (fun o b => o.move (b - blinders.getD 0 0)) w.openings blinders

theorem length_moved {w : Witness F} {blinders : List F} (h : blinders.length = w.size) :
    (w.moved blinders).length = w.size := by
  rw [moved, List.length_zipWith, h, size, Nat.min_self]

/-- As many blinders as coins move every opening by its own blinder. -/
theorem underFirstTag_eq_ok_iff {w w' : Witness F} {blinders : List F} :
    w.underFirstTag blinders = .ok w' ↔
      blinders.length = w.size ∧ w'.openings = w.moved blinders := by
  rw [underFirstTag]
  split
  · next h =>
    have hpos : 0 < blinders.length := h ▸ w.nonempty
    have hfirst : blinders.head (List.length_pos_iff.mp hpos) = blinders.getD 0 0 := by
      rw [List.head_eq_getElem, List.getD_eq_getElem _ _ hpos]
    simp only [hfirst]
    refine ⟨fun hw => ⟨h, congrArg openings (Except.ok.inj hw).symm⟩, fun hw => ?_⟩
    cases w'
    cases hw.2
    rfl
  · next h => exact ⟨by rintro ⟨⟩, fun hw => absurd hw.1 h⟩

/-- Any other number of blinders is refused, and both lengths are named. -/
theorem underFirstTag_eq_error_iff {w : Witness F} {blinders : List F} {e : ProverError} :
    w.underFirstTag blinders = .error e ↔
      blinders.length ≠ w.size ∧ e = .refused (.lengthMismatch w.size blinders.length) := by
  rw [underFirstTag]
  split
  · next h => exact ⟨by rintro ⟨⟩, fun he => absurd h he.1⟩
  · next h => exact ⟨fun he => ⟨h, (Except.error.inj he).symm⟩, fun he => he.2 ▸ rfl⟩

theorem exists_underFirstTag {w : Witness F} {blinders : List F} (h : blinders.length = w.size) :
    ∃ w', w.underFirstTag blinders = .ok w' ∧ w'.openings = w.moved blinders :=
  ⟨⟨w.moved blinders, (length_moved h).symm ▸ w.nonempty, (length_moved h).symm ▸ w.length_le⟩,
    underFirstTag_eq_ok_iff.mpr ⟨h, rfl⟩, rfl⟩

/-- Moving changes no value. -/
theorem values_of_moved {w w' : Witness F} {blinders : List F} (hlen : blinders.length = w.size)
    (h : w'.openings = w.moved blinders) : w'.values = w.values := by
  rw [values, h, moved, List.map_zipWith]
  refine List.ext_getElem ?_ fun i hi hi' => ?_
  · rw [List.length_zipWith, hlen, size, Nat.min_self, values, List.length_map]
  · simp only [values, List.getElem_zipWith, List.getElem_map, Opening.move]

/-- The first blinding does not move. -/
theorem blinding_of_moved {w w' : Witness F} {blinders : List F} (hlen : blinders.length = w.size)
    (h : w'.openings = w.moved blinders) :
    w'.blindings.getD 0 0 = w.blindings.getD 0 0 := by
  have hpos : 0 < w.openings.length := w.nonempty
  have hb : 0 < blinders.length := hlen ▸ w.nonempty
  obtain ⟨o, os, ho⟩ := List.exists_cons_of_length_pos hpos
  obtain ⟨b, bs, rfl⟩ := List.exists_cons_of_length_pos hb
  simp [blindings, h, moved, ho, Opening.move_zero]

/-- Moving twice is moving by the sums. -/
theorem moved_moved {w w' : Witness F} {b c : List F} (hlen : c.length = b.length)
    (h : w'.openings = w.moved b) : w'.moved c = w.moved (List.zipWith (· + ·) b c) := by
  have hfirst : (List.zipWith (· + ·) b c).getD 0 0 = b.getD 0 0 + c.getD 0 0 := by
    cases b with
    | nil => simp [List.eq_nil_of_length_eq_zero hlen]
    | cons x b =>
      obtain ⟨y, c, rfl⟩ := List.exists_cons_of_length_eq_add_one hlen
      rfl
  simp only [moved, h, hfirst, List.zipWith_zipWith_left, List.zipWith_zipWith_right]
  -- Both sides now join the openings with both lists of blinders, entry by entry.
  congr 1
  funext o x y
  rw [Opening.move_move]
  congr 1
  ring

/-- **Sums.** Two transformations are the one by the sums of the blinders. -/
theorem underFirstTag_bind (w : Witness F) {b c : List F} (hlen : c.length = b.length) :
    (w.underFirstTag b >>= fun w' => w'.underFirstTag c) =
      w.underFirstTag (List.zipWith (· + ·) b c) := by
  have hsum : (List.zipWith (· + ·) b c).length = b.length := by
    rw [List.length_zipWith, hlen, Nat.min_self]
  by_cases h : b.length = w.size
  · obtain ⟨w', hw', hopenings⟩ := exists_underFirstTag h
    have hsize : w'.size = w.size := by rw [size, hopenings, length_moved h]
    obtain ⟨w'', hw'', hopenings'⟩ := exists_underFirstTag (hlen.trans (h.trans hsize.symm))
    rw [hw', (underFirstTag_eq_ok_iff (w := w)).mpr
      ⟨hsum.trans h, hopenings'.trans (moved_moved hlen hopenings)⟩]
    exact hw''
  · rw [underFirstTag_eq_error_iff.mpr ⟨h, rfl⟩,
      (underFirstTag_eq_error_iff (w := w)).mpr ⟨hsum.symm ▸ h, rfl⟩, hsum]
    rfl

/-- Coins under one tag stay as they are. -/
theorem underFirstTag_replicate (w : Witness F) (b : F) :
    w.underFirstTag (List.replicate w.size b) = .ok w := by
  have hfirst : (List.replicate w.size b).getD 0 0 = b := List.getD_replicate _ w.nonempty
  refine underFirstTag_eq_ok_iff.mpr ⟨List.length_replicate, ?_⟩
  refine List.ext_getElem (length_moved List.length_replicate).symm fun i hi hi' => ?_
  simp only [moved, hfirst, List.getElem_zipWith, List.getElem_replicate, sub_self,
    Opening.move_zero]

/-- **Back.** The opposite blinders undo the transformation. -/
theorem underFirstTag_neg {w : Witness F} {blinders : List F} (h : blinders.length = w.size) :
    (w.underFirstTag blinders >>= fun w' => w'.underFirstTag (blinders.map (-·))) = .ok w := by
  have hzero : List.zipWith (· + ·) blinders (blinders.map (-·)) = List.replicate w.size 0 := by
    rw [List.zipWith_map_right, List.zipWith_self, ← h, ← List.map_const']
    exact List.map_congr_left fun b _ => add_neg_cancel b
  rw [underFirstTag_bind w (List.length_map _), hzero, underFirstTag_replicate]

variable [AddCommGroup G] [Module F G] [BasePoint G] [HashTarget G] [LinearCombination F G]
  [LawfulLinearCombination F G]

/-- **Coin by coin** the commitments under the first tag are those under the tags of the coins. -/
theorem commitments_of_moved {w w' : Witness F} {blinders : List F}
    (h : w'.openings = w.moved blinders) (tag : G) :
    w'.commitments (blindedTag tag (blinders.getD 0 0)) = w.ownCommitments tag blinders := by
  simp only [commitments, h, moved, ownCommitments, List.map_zipWith]
  congr 1
  funext o b
  exact o.commitValue_move tag b _

end Witness

/-! ### The proof of the coins -/

section Proof

variable [AddCommGroup G] [Module F G] [BasePoint G] [HashTarget G] [LinearCombination F G]
  [LawfulLinearCombination F G] [BEq F] [Encoding G] [WideReduction F] [Transcript τ]

/-- A proof holds the commitments of its witness. -/
theorem RangeProof.commitments_of_prove {gens : Generators G} {w : Witness F} {tag : G}
    {source : RandomSource} {proof : RangeProof F G}
    (h : (prove τ gens w tag source).1 = .ok proof) : proof.commitments = w.commitments tag := by
  rw [prove] at h
  split at h
  · cases h
  · next params hp =>
    obtain ⟨hcap, rfl⟩ := Generators.first_eq_ok_iff.mp hp
    obtain ⟨o, ho⟩ := Outer.exists_honest τ (gens.take (proofSize w.size)) w tag
      (Nonces.draw (proofSize w.size) source).1
    change proveWith τ _ w tag (Nonces.draw (proofSize w.size) source).1 = .ok proof at h
    rw [proveWith, ho.outer_eq_ok (Generators.capacity_take hcap) (Nonces.hasSize_draw _ _)] at h
    obtain ⟨_, ⟨⟩, h⟩ := bind_eq_ok_iff.mp h
    obtain ⟨p, -, h⟩ := bind_eq_ok_iff.mp h
    obtain ⟨argument, -, h⟩ := bind_eq_ok_iff.mp h
    cases h
    exact ho.commitments_eq

/-- With enough generators a witness is proved, unless a challenge is zero. -/
theorem RangeProof.exists_prove_eq_ok [LawfulBEq F] {gens : Generators G} {w : Witness F} {tag : G}
    {source : RandomSource} (hcap : proofSize w.size ≤ gens.capacity)
    (hzero : MeetsNoZero τ (gens.take (proofSize w.size)) w tag
      (Nonces.draw (proofSize w.size) source).1) :
    ∃ proof, (prove τ gens w tag source).1 = .ok proof := by
  have hcapacity := Generators.capacity_take hcap
  have hd := Nonces.hasSize_draw (F := F) (proofSize w.size) source
  obtain ⟨o, ho⟩ := Outer.exists_honest τ (gens.take (proofSize w.size)) w tag
    (Nonces.draw (proofSize w.size) source).1
  refine ⟨o.proof (gens.take (proofSize w.size)), ?_⟩
  rw [prove_of_le hcap]
  exact ho.proveWith_eq_ok hcapacity hd (hzero o (ho.outer_eq_ok hcapacity hd))

/-- **One tag for all coins.** Coins committed to under blinded tags open under the first of them if
there is a blinder for each, with the same values and the first blinding unchanged, and a proof
under that tag holds the commitments the coins had. Transforming twice adds the blinders, and the
opposite blinders restore the witness. -/
theorem Witness.underFirstTag_exact [LawfulBEq F] (w : Witness F) (tag : G) (blinders : List F) :
    let firstTag := blindedTag tag (blinders.getD 0 0)
    (∀ e, w.underFirstTag blinders = .error e ↔
      blinders.length ≠ w.size ∧ e = .refused (.lengthMismatch w.size blinders.length)) ∧
    (blinders.length = w.size → ∃ w', w.underFirstTag blinders = .ok w' ∧
      w'.values = w.values ∧ w'.blindings.getD 0 0 = w.blindings.getD 0 0 ∧
      w'.commitments firstTag = w.ownCommitments tag blinders ∧
      ∀ gens source,
        (∀ proof, (RangeProof.prove τ gens w' firstTag source).1 = .ok proof →
          proof.commitments = w.ownCommitments tag blinders) ∧
        (proofSize w.size ≤ gens.capacity →
          RangeProof.MeetsNoZero τ (gens.take (proofSize w.size)) w' firstTag
            (Nonces.draw (proofSize w.size) source).1 →
          ∃ proof, (RangeProof.prove τ gens w' firstTag source).1 = .ok proof)) ∧
    (∀ c, c.length = blinders.length →
      (w.underFirstTag blinders >>= fun w' => w'.underFirstTag c) =
        w.underFirstTag (List.zipWith (· + ·) blinders c)) ∧
    (blinders.length = w.size →
      (w.underFirstTag blinders >>= fun w' => w'.underFirstTag (blinders.map (-·))) = .ok w) := by
  intro firstTag
  refine ⟨fun e => underFirstTag_eq_error_iff, fun h => ?_, fun c hc => underFirstTag_bind w hc,
    fun h => underFirstTag_neg h⟩
  obtain ⟨w', hw', hopenings⟩ := exists_underFirstTag h
  have hcommitments := commitments_of_moved hopenings tag
  have hsize : w'.size = w.size := by rw [size, hopenings, length_moved h]
  refine ⟨w', hw', values_of_moved h hopenings, ?_, hcommitments,
    fun gens source => ⟨fun proof hproof => ?_, fun hcap hzero => ?_⟩⟩
  · exact blinding_of_moved h hopenings
  · rw [RangeProof.commitments_of_prove hproof, hcommitments]
  · rw [← hsize] at hcap hzero
    exact RangeProof.exists_prove_eq_ok hcap hzero

open Ristretto in
/-- Two coins under the blinders 3 and 4, moved once more and moved back. -/
theorem Witness.underFirstTag_exact_exponent :
    let w : Witness Scalar := ⟨[⟨5, 1⟩, ⟨9, 2⟩], by decide, by decide⟩
    let blinders : List Scalar := [3, 4]
    let firstTag : Exponent := blindedTag basePoint (3 : Scalar)
    blinders.length = w.size ∧
      (∃ w' proof, w.underFirstTag blinders = .ok w' ∧ w'.values = [5, 9] ∧
        w'.blindings.getD 0 0 = 1 ∧
        (RangeProof.prove Checksum (Generators.ofCapacity Exponent 128) w' firstTag
          (.splitMix 1)).1 = .ok proof ∧
        proof.commitments = w.ownCommitments basePoint blinders) ∧
      (w.underFirstTag blinders >>= fun w' => w'.underFirstTag [5, 6]) =
        w.underFirstTag [3 + 5, 4 + 6] ∧
      (w.underFirstTag blinders >>= fun w' => w'.underFirstTag [-3, -4]) = .ok w := by
  intro w blinders firstTag
  obtain ⟨-, hmoved, hsum, hback⟩ :=
    w.underFirstTag_exact (τ := Checksum) (basePoint : Exponent) blinders
  obtain ⟨w', hw', hvalues, hfirst, -, hprove⟩ := hmoved rfl
  obtain ⟨hcommitments, hexists⟩ := hprove (.ofCapacity Exponent 128) (.splitMix 1)
  have hcap : proofSize w.size ≤ (Generators.ofCapacity Exponent 128).capacity :=
    (Generators.capacity_ofCapacity 128).ge
  have hsize : w'.size = w.size := by rw [← length_values, hvalues, length_values]
  obtain ⟨proof, hproof⟩ := hexists hcap (Checksum.meetsNoZero
    (by rw [hsize, Generators.capacity_take hcap]) (hsize ▸ Nonces.hasSize_draw _ _))
  exact ⟨rfl, ⟨w', proof, hw', hvalues, hfirst, hproof, hcommitments proof hproof⟩,
    hsum [5, 6] rfl, hback rfl⟩

end Proof

end ConfidentialCoin
