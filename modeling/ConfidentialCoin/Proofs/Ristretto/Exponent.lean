import ConfidentialCoin.Proofs.InnerProduct.ClosedForm
import ConfidentialCoin.Proofs.RangeProof.Honest
import ConfidentialCoin.Proofs.Ristretto.Scalar
import ConfidentialCoin.Ristretto.Instances

/-!
# The suite of exponents

The protocols are written over any group and any transcript, and their theory asks these for laws.
This module has a suite in which the laws hold and everything can be computed. Its scalars are those
of Ristretto255; a group element is its own logarithm to the base point, so the group has the same
prime order (`Exponent.card_prime`); and a transcript is a checksum of what was written.

A checksum is turned into a challenge that is not zero, so no run of a prover meets a zero challenge
(`Checksum.meetsNoZero`).
-/

namespace ConfidentialCoin.Ristretto

/-! ### The group -/

/-- A group element, given by its logarithm to the base point. -/
def Exponent : Type := Scalar

namespace Exponent

instance : AddCommGroup Exponent := inferInstanceAs (AddCommGroup Scalar)

instance : Module Scalar Exponent := inferInstanceAs (Module Scalar Scalar)

instance : DecidableEq Exponent := inferInstanceAs (DecidableEq Scalar)

instance : Encoding Exponent := inferInstanceAs (Encoding Scalar)

instance : LawfulEncoding Exponent := inferInstanceAs (LawfulEncoding Scalar)

instance : HashTarget Exponent := inferInstanceAs (HashTarget Scalar)

instance : BasePoint Exponent := ⟨(1 : Scalar)⟩

instance : BaseMultiple Scalar Exponent := ⟨fun c => c • (basePoint : Exponent)⟩

instance : LawfulBaseMultiple Scalar Exponent := ⟨fun _ => rfl⟩

instance : LinearCombination Scalar Exponent := ⟨fun pairs => (pairs.map fun p => p.1 • p.2).sum⟩

instance : LawfulLinearCombination Scalar Exponent := ⟨fun _ => rfl⟩

/-- The logarithm to the base point. -/
def log (p : Exponent) : Scalar := p

/-- Every element but zero is a generator of the group. -/
theorem inv_log_smul {p : Exponent} (h : p ≠ 0) : p.log⁻¹ • p = basePoint :=
  inv_mul_cancel₀ (show (p.log : Scalar) ≠ 0 from h)

/-- The group has prime order. -/
theorem card_prime : (Nat.card Exponent).Prime := by
  rw [show Nat.card Exponent = order from Scalar.card_eq]
  exact order_prime

/-- The blinding generator is not zero here. -/
theorem blindingGenerator_ne_zero : blindingGenerator Exponent ≠ 0 := by
  have hval : (Scalar.hashTo (textBytes "privacy/PedersenRandomness")).val ≠ 0 := by decide +kernel
  exact fun h => hval (congrArg Scalar.val h)

/-- An argument of `k` rounds, all alike. -/
def uniformArgument (k : ℕ) : InnerProductProof Scalar Exponent :=
  ⟨List.replicate k basePoint, List.replicate k basePoint, 1, 1, basePoint⟩

@[simp] theorem length_l_uniformArgument (k : ℕ) : (uniformArgument k).l.length = k :=
  List.length_replicate

@[simp] theorem length_r_uniformArgument (k : ℕ) : (uniformArgument k).r.length = k :=
  List.length_replicate

/-- What such an argument passes for. -/
theorem roundsMatch_uniformArgument_iff {k n : ℕ} :
    InnerProduct.roundsMatch (uniformArgument k) n ↔ k % 2 ^ 32 < 64 ∧ 2 ^ (k % 2 ^ 32) = n := by
  rw [InnerProduct.roundsMatch_iff, length_l_uniformArgument, length_r_uniformArgument,
    and_iff_right rfl]

end Exponent

/-! ### The transcript -/

/-- A transcript that keeps a checksum of what was written. -/
structure Checksum where
  value : ℕ

namespace Checksum

/-- The checksum with further bytes. -/
def write (t : Checksum) (bytes : List UInt8) : Checksum :=
  ⟨t.value * 256 ^ bytes.length + ofLittleEndian bytes⟩

/-- The challenge drawn from the checksum, between 1 and the group order. -/
def draw (t : Checksum) : Bytes 64 := .ofNatLE 64 (t.value % (order - 1) + 1)

instance : Transcript Checksum where
  ofProtocol name := write ⟨0⟩ name
  append t label message := (t.write label).write message
  challenge t label := ((t.write label).draw, (t.write label).write (t.write label).draw.toList)

/-- No challenge is zero. -/
theorem reduce_draw_ne_zero (t : Checksum) : (reduce t.draw : Scalar) ≠ 0 := by
  intro h
  have hlt : t.value % (order - 1) + 1 < order := by
    have := Nat.mod_lt t.value (show 0 < order - 1 by decide)
    omega
  have hval : (Scalar.ofNat t.draw.toNatLE).val = 0 := congrArg Scalar.val h
  rw [draw, Bytes.toNatLE_ofNatLE, Nat.mod_eq_of_lt (hlt.trans (by decide)), Scalar.ofNat] at hval
  simp only [Nat.mod_eq_of_lt hlt] at hval
  omega

/-- No folding challenge is zero. -/
theorem rounds_ne_zero (u : Exponent) (k : ℕ) (t : Checksum) (g h : List Exponent)
    (a b : List Scalar) : ∀ ρ ∈ InnerProduct.rounds u k t g h a b, ρ.1 ≠ 0 := by
  induction k generalizing t g h a b with
  | zero => exact fun _ hρ => absurd hρ List.not_mem_nil
  | succ k ih =>
    exact List.forall_mem_cons.mpr ⟨reduce_draw_ne_zero _, fun ρ hρ => ih _ _ _ _ _ ρ hρ⟩

/-- Nor is one that a verifier draws. -/
theorem zero_notMem_drawnChallenges (rounds : List (Exponent × Exponent)) (t : Checksum) :
    (0 : Scalar) ∉ InnerProduct.drawnChallenges Scalar rounds t := by
  induction rounds generalizing t with
  | nil => exact List.not_mem_nil
  | cons lr rounds ih =>
    rw [InnerProduct.drawnChallenges, List.mem_cons, not_or]
    exact ⟨fun h0 => reduce_draw_ne_zero _ h0.symm, ih _⟩

/-- The challenges of an argument are drawn whenever its shape passes. -/
theorem exists_challenges_eq_ok {arg : InnerProductProof Scalar Exponent} {n : ℕ}
    (hm : InnerProduct.roundsMatch arg n) (t : Checksum) :
    ∃ out, InnerProduct.challenges (F := Scalar) t arg n = .ok out :=
  InnerProduct.exists_challenges_eq_ok_iff.mpr ⟨hm, zero_notMem_drawnChallenges _ _⟩

/-- No prover meets a zero challenge. -/
theorem meetsNoZero {params : Generators Exponent} {w : Witness Scalar} {tag : Exponent}
    {d : Nonces Scalar} (hcap : params.capacity = proofSize w.size)
    (hd : d.HasSize (proofSize w.size)) : RangeProof.MeetsNoZero Checksum params w tag d := by
  intro o' ho'
  obtain ⟨o, h⟩ := Outer.exists_honest Checksum params w tag d
  obtain rfl := Except.ok.inj ((h.outer_eq_ok hcap hd).symm.trans ho')
  have hyz := Prod.ext_iff.mp h.yz_eq
  have hxw := Prod.ext_iff.mp (Prod.ext_iff.mp h.xw_eq).1
  exact ⟨fun h => reduce_draw_ne_zero _ (hyz.1.trans h),
    fun h => reduce_draw_ne_zero _ (hyz.2.trans h), fun h => reduce_draw_ne_zero _ (hxw.1.trans h),
    fun h => reduce_draw_ne_zero _ (hxw.2.trans h), rounds_ne_zero _ _ _ _ _ _ _⟩

end Checksum

end ConfidentialCoin.Ristretto
