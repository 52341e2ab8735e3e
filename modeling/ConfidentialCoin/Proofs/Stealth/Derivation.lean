import ConfidentialCoin.Proofs.Ristretto.Exponent
import ConfidentialCoin.Proofs.Stealth.Search

/-!
# Sender and recipient agree

A receiver that a sender derives belongs to the recipient, also after it has been written and read
again. The sender's key is a candidate, so it comes from the scalar `r` of the published element and
the published index (`Receiver.derive_eq_ok`). Sender and recipient share an element because
`k * (r * B) = r * (k * B)` (`smul_mulBase_comm`), and the secret of the recipient is the logarithm
of the key (`smul_oneTimeScalar_add`).

`Receiver.derive_agrees` is the statement about every request whose address belongs to two secrets.
-/

namespace ConfidentialCoin

variable {F G : Type}

/-! ### What is derived -/

/-- What is derived: the key of some index, published next to the index and the multiples of the
base point by the scalars that were drawn. -/
theorem Receiver.derive_eq_ok [Zero F] [WideReduction F] [HashTarget F] [Encoding G] [Add G]
    [SMul F G] [BaseMultiple F G] {config : SearchConfig} {q : ReceiverRequest G}
    {source : RandomSource} {receiver : Receiver G}
    (h : (derive F config q source).1 = .ok receiver) :
    ∃ (r c : F) (index : UInt32), receiver =
      ⟨oneTimeKey F (encode (r • q.address.derive)) index q.address.spend,
        .ofFields (mulBase r : G) (mulBase c) index⟩ := by
  obtain ⟨index, -, hreceiver⟩ := search_eq_ok (derive_fst.symm.trans h)
  exact ⟨_, _, index, hreceiver⟩

/-! ### The shared element -/

section Module

variable [Field F] [AddCommGroup G] [Module F G] [BasePoint G] [BaseMultiple F G]
  [LawfulBaseMultiple F G]

/-- What the recipient computes from the published element is what the sender computes from the
address. -/
theorem smul_mulBase_comm (k r : F) : k • (mulBase r : G) = r • mulBase k := by
  rw [LawfulBaseMultiple.mulBase_eq, LawfulBaseMultiple.mulBase_eq, smul_comm]

/-- The one-time scalar and the secret of the spend key make the secret of the one-time key. -/
theorem smul_oneTimeScalar_add [HashTarget F] (shared : Bytes 32) (index : UInt32) (spend : F) :
    (oneTimeScalar F shared index + spend) • (basePoint : G) =
      oneTimeKey F shared index (mulBase spend) := by
  rw [oneTimeKey, LawfulBaseMultiple.mulBase_eq, LawfulBaseMultiple.mulBase_eq, add_smul]

end Module

namespace Receiver

variable [Field F] [AddCommGroup G] [Module F G] [BEq G] [LawfulBEq G] [BasePoint G]
  [BaseMultiple F G] [LawfulBaseMultiple F G] [Encoding G] [LawfulEncoding G] [HashTarget F]
  [WideReduction F]

/-- **Agreement.** Whatever is derived for the address of two secrets is read back from its text and
from its bytes, decodes, is recognised by the recipient, and can be spent with the secret that the
recipient computes. -/
theorem derive_agrees {config : SearchConfig} {spend derive : F} {sender : Option UInt8}
    {privacyType : PrivacyType} {conceal : Bool} {source : RandomSource} {receiver : Receiver G}
    (h : (Receiver.derive F config
      ⟨.ofSecrets spend derive, sender, privacyType, conceal⟩ source).1 = .ok receiver) :
    ofText receiver.toText = .ok receiver ∧ ofBytes receiver.toBytes = .ok receiver ∧
      receiver.isValid ∧ receiver.isOwnedBy derive (spend • basePoint) ∧
      ∃ x, receiver.spendingKey derive spend = .ok x ∧ x • basePoint = receiver.key := by
  obtain ⟨r, c, index, rfl⟩ := derive_eq_ok h
  have hshared : derive • (mulBase r : G) = r • mulBase derive := smul_mulBase_comm ..
  refine ⟨ofText_eq_ok_iff.mpr rfl, ofBytes_eq_ok_iff.mpr rfl, ?_, ?_, ?_⟩
  · rw [isValid, TxRandom.otaPoint_ofFields, TxRandom.concealPoint_ofFields]
    rfl
  · refine isOwnedBy_iff.mpr ⟨mulBase r, TxRandom.otaPoint_ofFields .., ?_⟩
    rw [hshared, TxRandom.index_ofFields, ← LawfulBaseMultiple.mulBase_eq]
    rfl
  · refine ⟨_, spendingKey_eq_ok_iff.mpr ⟨mulBase r, TxRandom.otaPoint_ofFields .., rfl⟩, ?_⟩
    rw [hshared, TxRandom.index_ofFields, smul_oneTimeScalar_add]
    rfl

open Ristretto in
/-- A search that ends at the first candidate. -/
theorem derive_agrees_exponent :
    let q : ReceiverRequest Exponent :=
      ⟨.ofSecrets (3 : Scalar) (5 : Scalar), none, .transfer, true⟩
    ∃ receiver, (Receiver.derive Scalar ⟨1⟩ q (RandomSource.splitMix 38)).1 = .ok receiver ∧
      ofText receiver.toText = .ok receiver ∧ ofBytes receiver.toBytes = .ok receiver ∧
      receiver.isValid ∧ receiver.isOwnedBy (5 : Scalar) ((3 : Scalar) • basePoint) ∧
      ∃ x : Scalar, receiver.spendingKey 5 3 = .ok x ∧ x • basePoint = receiver.key := by
  intro q
  have hfound : (Receiver.derive Scalar ⟨1⟩ q (RandomSource.splitMix 38)).1.isOk := by
    decide +kernel
  rcases h : (Receiver.derive Scalar ⟨1⟩ q (RandomSource.splitMix 38)).1 with e | receiver
  · rw [h] at hfound
    cases hfound
  · exact ⟨receiver, rfl, derive_agrees h⟩

end Receiver

end ConfidentialCoin
