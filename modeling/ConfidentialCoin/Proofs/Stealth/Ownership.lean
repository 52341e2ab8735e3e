import ConfidentialCoin.Proofs.Stealth.Derivation

/-!
# Who owns a receiver can spend from it

A recipient recognises a receiver by a computation on group elements (`Receiver.isOwnedBy`) and
spends from it by one on scalars (`Receiver.spendingKey`). Both start from the published element, so
neither goes on where its bytes are none (`TxRandom.otaPoint_eq_error_iff`). Where they are one, the
two computations are the same times the base point (`smul_oneTimeScalar_add`), whoever made the
receiver; and the receiver has one spend key only, what is left of its key without the multiple of
the base point that the shared element gives (`Receiver.isOwnedBy_iff_eq_sub`).
-/

namespace ConfidentialCoin

variable {F G : Type} [Encoding G]

/-! ### The published element -/

namespace TxRandom

/-- The first point of the random data is read where its slot decodes. -/
theorem otaPoint_eq_ok_iff {t : TxRandom} {p : G} :
    t.otaPoint = .ok p ↔ decode? t.otaSlot = some p := by
  rw [otaPoint, readPoint]
  cases decode? t.otaSlot (α := G) <;> simp

/-- There is one reason for which the first point is not read. -/
theorem otaPoint_eq_error_iff {t : TxRandom} {e : Error} :
    (t.otaPoint : Except Error G) = .error e ↔
      decode? t.otaSlot = (none : Option G) ∧ e = .notAPoint := by
  rw [otaPoint, readPoint]
  cases decode? t.otaSlot (α := G) with
  | none => simp [eq_comm]
  | some p => simp

end TxRandom

/-! ### The two computations -/

namespace Receiver

variable [Field F] [AddCommGroup G] [Module F G] [BEq G] [LawfulBEq G] [BasePoint G]
  [BaseMultiple F G] [LawfulBaseMultiple F G] [HashTarget F] {r : Receiver G} {derive : F}

omit [LawfulBEq G] [BasePoint G] [LawfulBaseMultiple F G] in
/-- Without a published element nobody owns the receiver. -/
theorem isOwnedBy_of_otaPoint_eq_error {e : Error} (h : r.txRandom.otaPoint (G := G) = .error e)
    (spend : G) : r.isOwnedBy derive spend = false := by
  rw [isOwnedBy, sharedPoint, h]
  rfl

omit [BEq G] [LawfulBEq G] [BasePoint G] [BaseMultiple F G] [LawfulBaseMultiple F G] in
/-- Without the point there is no spending key, for the same reason. -/
theorem spendingKey_of_otaPoint_eq_error {e : Error} (h : r.txRandom.otaPoint (G := G) = .error e)
    (spend : F) : r.spendingKey derive spend = .error e := by
  rw [spendingKey, sharedPoint, h]
  rfl

omit [BasePoint G] [LawfulBaseMultiple F G] in
/-- The spend key of a receiver is determined by the rest of it. -/
theorem isOwnedBy_iff_eq_sub {p : G} (h : r.txRandom.otaPoint = .ok p) {spend : G} :
    r.isOwnedBy derive spend ↔
      spend = r.key - mulBase (oneTimeScalar F (encode (derive • p)) r.txRandom.index) := by
  rw [isOwnedBy_iff, h, eq_sub_iff_add_eq']
  constructor
  · rintro ⟨q, hq, hkey⟩
    cases hq
    exact hkey
  · intro hkey
    exact ⟨p, rfl, hkey⟩

/-- **One computation.** To own a receiver under the multiple of the base point by a secret is to
hold the secret of its key. -/
theorem isOwnedBy_smul_iff (spend : F) :
    r.isOwnedBy derive (spend • (basePoint : G)) ↔
      ∃ x, r.spendingKey derive spend = .ok x ∧ x • basePoint = r.key := by
  rw [isOwnedBy_iff, ← LawfulBaseMultiple.mulBase_eq]
  constructor
  · rintro ⟨p, hp, hkey⟩
    refine ⟨_, spendingKey_eq_ok_iff.mpr ⟨p, hp, rfl⟩, ?_⟩
    rw [smul_oneTimeScalar_add, hkey]
  · rintro ⟨x, hx, hkey⟩
    obtain ⟨p, hp, rfl⟩ := spendingKey_eq_ok_iff.mp hx
    rw [smul_oneTimeScalar_add] at hkey
    exact ⟨p, hp, hkey⟩

/-- **Ownership.** Of any receiver, whoever made it and whatever bytes were published with it, a
recipient owns exactly what they hold the secret for. If the element for the key does not decode,
nobody owns it, and the secret is refused for that reason. No two spend keys own it under one
derivation secret, and there is one that does if the element decodes. -/
theorem owned_iff_spendable (r : Receiver G) (derive : F) :
    (∀ spend : F, r.isOwnedBy derive (spend • (basePoint : G)) ↔
      ∃ x, r.spendingKey derive spend = .ok x ∧ x • basePoint = r.key) ∧
    (decode? r.txRandom.otaSlot = (none : Option G) →
      (∀ spend : G, r.isOwnedBy derive spend = false) ∧
        ∀ spend : F, r.spendingKey derive spend =
          .error (.invalidPoint "bytes do not decode to a Ristretto point")) ∧
    (∀ spend spend' : G, r.isOwnedBy derive spend → r.isOwnedBy derive spend' → spend = spend') ∧
    ((∃ p : G, decode? r.txRandom.otaSlot = some p) → ∃ spend : G, r.isOwnedBy derive spend) := by
  refine ⟨isOwnedBy_smul_iff, fun hnone => ?_, fun spend spend' h h' => ?_, ?_⟩
  · have herror := (TxRandom.otaPoint_eq_error_iff (G := G)).mpr ⟨hnone, rfl⟩
    exact ⟨isOwnedBy_of_otaPoint_eq_error herror, spendingKey_of_otaPoint_eq_error herror⟩
  · obtain ⟨p, hp, -⟩ := isOwnedBy_iff.mp h
    rw [(isOwnedBy_iff_eq_sub hp).mp h, (isOwnedBy_iff_eq_sub hp).mp h']
  · rintro ⟨p, hp⟩
    exact ⟨_, (isOwnedBy_iff_eq_sub (TxRandom.otaPoint_eq_ok_iff.mpr hp)).mpr rfl⟩

open Ristretto in
/-- A receiver with the index 0, which no candidate has, belongs to one spend key, and one whose
published bytes are no element belongs to none. -/
theorem owned_iff_spendable_exponent :
    let crafted : Receiver Exponent := ⟨basePoint, .ofFields (basePoint : Exponent) basePoint 0⟩
    let broken : Receiver Exponent :=
      ⟨basePoint, .ofSlots ⟨List.replicate 32 255, rfl⟩ (.zero 4) (.zero 32)⟩
    (∃ spend : Exponent, crafted.isOwnedBy (5 : Scalar) spend ∧
      ∀ spend', crafted.isOwnedBy (5 : Scalar) spend' → spend' = spend) ∧
    (crafted.isOwnedBy (5 : Scalar) ((7 : Scalar) • basePoint) ↔
      ∃ x : Scalar, crafted.spendingKey 5 7 = .ok x ∧ x • basePoint = crafted.key) ∧
    decode? broken.txRandom.otaSlot = (none : Option Exponent) ∧
      broken.isOwnedBy (5 : Scalar) basePoint = false ∧
      broken.spendingKey (5 : Scalar) 7 =
        .error (.invalidPoint "bytes do not decode to a Ristretto point") := by
  intro crafted broken
  have hdecodes : decode? crafted.txRandom.otaSlot = some (basePoint : Exponent) :=
    TxRandom.otaPoint_eq_ok_iff.mp (TxRandom.otaPoint_ofFields ..)
  have hbroken : decode? broken.txRandom.otaSlot = (none : Option Exponent) := by decide +kernel
  obtain ⟨hspendable, -, hunique, hexists⟩ := owned_iff_spendable crafted (5 : Scalar)
  obtain ⟨-, hnone, -⟩ := owned_iff_spendable broken (5 : Scalar)
  obtain ⟨spend, hspend⟩ := hexists ⟨basePoint, hdecodes⟩
  exact ⟨⟨spend, hspend, fun spend' h => hunique spend' spend h hspend⟩, hspendable 7, hbroken,
    (hnone hbroken).1 _, (hnone hbroken).2 _⟩

end Receiver

end ConfidentialCoin
