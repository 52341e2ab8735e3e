import ConfidentialCoin.Proofs.InnerProduct.Coefficients
import ConfidentialCoin.Proofs.RangeProof.Safety
import ConfidentialCoin.Proofs.Ristretto.Exponent
import ConfidentialCoin.RangeProof.Verifier

/-!
# Both methods give one answer

Folding round by round and summing up at once decide the same equation, `InnerProduct.Opens`: the
coefficients of the sum are the weights with which the generators enter the folded ones, those of
`h` backwards and with the powers of `y⁻¹` multiplied in. The sum is therefore the difference of the
two sides of the equation (`openAtOnce_eq`), for every argument whose challenges can be drawn, and
for any other both methods give the error of drawing them.

`RangeProof.verify_folding_eq_atOnce` is the statement about whole proofs. That neither method meets
a broken precondition on the way is a matter of lengths alone, `RangeProof.verify_ne_fault`.
-/

namespace ConfidentialCoin

open ConfidentialCoin.InnerProduct

variable {F G τ : Type} [Field F] [AddCommGroup G] [Module F G]

namespace Replay

/-- Coefficients for `h` make a pairing with the scaled generators. -/
private theorem pairing_scaledH (gens : Generators G) (y b : F) (s : List F) :
    pairing (List.zipWith (fun s yi => -(b * s * yi)) s (ScalarVector.powers y⁻¹ gens.capacity))
      gens.h = -b • pairing s (gens.scaledH y) := by
  have hmap : List.zipWith (fun s yi => -(b * s * yi)) s
      (ScalarVector.powers y⁻¹ gens.capacity) =
        (List.zipWith (· * ·) s (ScalarVector.powers y⁻¹ gens.capacity)).map (-b * ·) := by
    rw [List.map_zipWith]
    congr 1
    funext s yi
    ring
  rw [hmap, pairing_map_mul, Generators.scaledH, pairing_scale_right]

variable [BEq F] [LawfulBEq F] [BEq G] [LawfulBEq G] [LinearCombination F G]
  [LawfulLinearCombination F G] [Encoding G] [WideReduction F] [Transcript τ] {r : Replay F G τ}
  {slots : ℕ} {arg : InnerProductProof F G}

omit [LawfulBEq G] in
/-- The sum is what the moved claim exceeds the opened scalars by. -/
private theorem openAtOnce_eq (h : r.HasSlots slots) (hb : Bounded arg r.n) {us : List F} {t : τ}
    (hc : challenges r.transcript arg r.n = .ok (us, t)) :
    r.openAtOnce arg =
      if movedClaim us arg.l arg.r arg.p -
        (arg.a • pairing (foldWeights (us.map (·⁻¹))) r.params.g +
          arg.b • pairing (foldWeights us) (r.params.scaledH r.y) + (arg.a * arg.b) • r.u) == 0
      then .ok () else .error (.argument .notOpening) := by
  obtain ⟨hl, hr, -, -⟩ := challenges_eq_ok hc
  have hn := length_eq_of_challenges hb.rounds_lt hc
  have hcap := h.capacity_eq
  have hg : r.params.g.length = 2 ^ us.length := hcap.trans hn
  have hh : r.params.h.length = 2 ^ us.length := r.params.length_h.trans hg
  have hsum : combine?
      ([1, -(arg.a * arg.b)] ++ us.map (fun u => u * u) ++ us.map (fun u => u⁻¹ * u⁻¹) ++
        (foldWeights (us.map (·⁻¹))).map (fun s => -(arg.a * s)) ++
        List.zipWith (fun s yi => -(arg.b * s * yi)) (foldWeights us)
          (ScalarVector.powers r.y⁻¹ r.n))
      ([arg.p, r.u] ++ arg.l ++ arg.r ++ r.params.g ++ r.params.h) =
      .ok (movedClaim us arg.l arg.r arg.p -
        (arg.a • pairing (foldWeights (us.map (·⁻¹))) r.params.g +
          arg.b • pairing (foldWeights us) (r.params.scaledH r.y) +
            (arg.a * arg.b) • r.u)) := by
    have hneg : (fun s => -(arg.a * s)) = (-arg.a * ·) := funext fun s => (neg_mul _ _).symm
    rw [combine?_eq_pairing (by simp [hl, hr, hg, hh, hn]),
      pairing_append (by simp [hl, hr, hg]), pairing_append (by simp [hl, hr]),
      pairing_append (by simp [hl]), pairing_append (by simp), hneg, pairing_map_mul, ← hcap,
      pairing_scaledH, movedClaim]
    simp only [pairing_cons, pairing_nil_left]
    congr 1
    module
  -- The generators `h` take the weights backwards, which are those of the inverse challenges.
  have hrev : (foldWeights (us.map (·⁻¹))).reverse = foldWeights us := by
    rw [reverse_foldWeights, List.map_map]
    congr 1
    exact List.map_id'' (fun u => inv_inv u) us
  rw [openAtOnce, coefficients_eq_ok hb hc]
  simp only [bind, Except.bind, Except.mapError, hrev]
  rw [hsum]

/-- The two methods of opening an argument agree, in the reason for refusing it too. -/
theorem openAtOnce_eq_openByFolding (h : r.HasSlots slots) (hb : Bounded arg r.n) :
    r.openAtOnce arg = r.openByFolding arg := by
  have hg : r.params.g.length = r.n := h.capacity_eq
  have hgh : r.params.g.length = (r.params.scaledH r.y).length :=
    (Generators.length_scaledH _ _).symm
  cases hc : challenges (F := F) r.transcript arg r.n with
  | error e =>
    rw [openAtOnce, coefficients_eq_error hc, openByFolding,
      verify_eq_error_of_challenges hgh (by rwa [hg])]
    rfl
  | ok out =>
    obtain ⟨us, t⟩ := out
    have hc' : challenges r.transcript arg r.params.g.length = .ok (us, t) := by rwa [hg]
    rw [openAtOnce_eq h hb hc, openByFolding]
    by_cases ho : Opens us r.params.g (r.params.scaledH r.y) r.u arg
    · rw [verify_eq_ok hb.rounds_lt hgh hc' ho, if_pos (beq_iff_eq.mpr (sub_eq_zero.mpr ho.symm))]
      rfl
    · rw [verify_eq_error hb.rounds_lt hgh hc' ho,
        if_neg fun hb => ho (sub_eq_zero.mp (beq_iff_eq.mp hb)).symm]
      rfl

end Replay

namespace RangeProof

variable [BEq F] [LawfulBEq F] [BEq G] [LawfulBEq G] [LinearCombination F G]
  [LawfulLinearCombination F G] [BasePoint G] [HashTarget G] [Encoding G] [WideReduction F]
  [Transcript τ]

/-- **Agreement.** Both methods report the same about every proof, honest or not: that it is
accepted, or the same reason why it is not. That reason is never a broken precondition. -/
theorem verify_folding_eq_atOnce (gens : Generators G) (proof : RangeProof F G) (tag : G) :
    verify τ .folding gens proof tag = verify τ .atOnce gens proof tag ∧
      ∀ f, verify τ .folding gens proof tag ≠ .error (.fault f) := by
  refine ⟨?_, verify_ne_fault .folding gens proof tag⟩
  rw [verify, verify, check, check]
  cases hr : (Replay.ofProof gens proof tag : Except Rejection (Replay F G τ)) with
  | error e => rfl
  | ok r =>
    -- The first two checks are those of both methods, and the last one gives the same.
    have hopen : r.openBy .atOnce proof.argument = r.openBy .folding proof.argument :=
      Replay.openAtOnce_eq_openByFolding (Replay.hasSlots_of_ofProof hr)
        (Replay.bounded_of_ofProof hr)
    simp only [bind, Except.bind, hopen]

open Ristretto in
/-- A proof that nobody made, of the right shape. -/
theorem verify_forged_exponent :
    let gens := Generators.ofCapacity Exponent 64
    let forged : RangeProof Scalar Exponent :=
      ⟨[basePoint], 0, 0, 0, 0, 0, 0, 0, ⟨List.replicate 6 0, List.replicate 6 0, 0, 0, 0⟩⟩
    verify Checksum .folding gens forged basePoint = verify Checksum .atOnce gens forged basePoint ∧
      ∀ f, verify Checksum .folding gens forged basePoint ≠ .error (.fault f) :=
  verify_folding_eq_atOnce ..

end RangeProof

end ConfidentialCoin
