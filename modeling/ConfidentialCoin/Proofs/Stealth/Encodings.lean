import ConfidentialCoin.Proofs.Ristretto.Exponent
import ConfidentialCoin.Proofs.Stealth.Receiver
import ConfidentialCoin.Proofs.Text.Json

/-!
# One form for each receiver

A receiver has one byte string and one text, and nothing else is read as a receiver
(`Receiver.ofBytes_eq_ok_iff`, `Receiver.ofText_eq_ok_iff`). JSON adds no more than quotes: no
character of a text has to be escaped (`Receiver.spells_toText`), and a document that is a string is
read as the text that it writes (`Receiver.ofJson_of_isString`), so that a receiver is read exactly
from the strings that write its text (`Receiver.ofJson_eq_ok_iff`).
-/

namespace ConfidentialCoin

/-- Every letter of the text is in the alphabet. -/
theorem Base58.letter_mem_alphabet (d : ℕ) : letter d ∈ alphabet := by
  rw [letter]
  rcases Nat.lt_or_ge d alphabet.length with hlt | hge
  · rw [List.getD_eq_getElem _ _ hlt]
    exact List.getElem_mem hlt
  · rw [List.getD_eq_default _ _ hge]
    decide

namespace Receiver

variable {G : Type} [Encoding G]

/-- The characters of a text may stand for themselves in JSON. -/
theorem spells_toText (r : Receiver G) : Json.Spells r.toText.toList r.toText.toList := by
  have hall : Base58.alphabet.all (Json.IsPlain ·) := by decide
  have hplain : ∀ c ∈ Base58.alphabet, Json.IsPlain c := fun c hc =>
    of_decide_eq_true (List.all_eq_true.mp hall c hc)
  refine Json.spells_self fun c hc => hplain c ?_
  rw [toText, String.toList_ofList, Base58.encodeChecked, Base58.encode] at hc
  obtain ⟨d, -, rfl⟩ := List.mem_map.mp hc
  exact Base58.letter_mem_alphabet d

/-- **Documents.** A string is read as the text that it writes. -/
theorem ofJson_of_isString {document text : String} (h : Json.IsString document text) :
    (ofJson document : Except JsonError (Receiver G)) = (ofText text).mapError .refused := by
  obtain ⟨content, hscan, htext⟩ := Json.isString_iff.mp h
  simp only [ofJson, hscan, htext, String.ofList_toList]

variable [LawfulEncoding G] {r : Receiver G}

/-- A receiver is read from the strings that write its text. -/
theorem ofJson_eq_ok_iff {document : String} :
    ofJson document = .ok r ↔ Json.IsString document r.toText := by
  constructor
  · intro h
    rw [ofJson] at h
    split at h
    · next content hscan =>
      split at h
      · next text htext =>
        have hstring : Json.IsString document (String.ofList text) :=
          Json.isString_iff.mpr ⟨content, hscan, by rw [htext, String.toList_ofList]⟩
        cases hread : (ofText (String.ofList text) : Except Error (Receiver G)) with
        | error e =>
          rw [hread] at h
          cases h
        | ok r' =>
          rw [hread] at h
          cases h
          rwa [ofText_eq_ok_iff.mp hread] at hstring
      · cases h
    · cases h
  · intro h
    rw [ofJson_of_isString h, ofText_eq_ok_iff.mpr rfl]
    rfl

/-- **The encodings** of a receiver. It is read from its bytes and from no others, from its text and
from no other, and from the JSON strings that write its text. Its own document is the text in
quotes, without an escape. A JSON string of any content is read as the content is. -/
theorem encodings_exact (r : Receiver G) :
    (∀ bytes, ofBytes bytes = .ok r ↔ bytes = r.toBytes) ∧
      (∀ text, ofText text = .ok r ↔ text = r.toText) ∧
      (∀ document, ofJson document = .ok r ↔ Json.IsString document r.toText) ∧
      (r.toJson = "\"" ++ r.toText ++ "\"" ∧ Json.Spells r.toText.toList r.toText.toList) ∧
      ∀ document text, Json.IsString document text →
        (ofJson document : Except JsonError (Receiver G)) = (ofText text).mapError .refused :=
  ⟨fun _ => ofBytes_eq_ok_iff, fun _ => ofText_eq_ok_iff, fun _ => ofJson_eq_ok_iff,
    ⟨rfl, r.spells_toText⟩, fun _ _ => ofJson_of_isString⟩

open Ristretto in
/-- A receiver whose published bytes do not all decode is read back from all its forms, and from its
document between blanks. A further leading digit makes its text another one. A string with escapes
is read as what it writes. -/
theorem encodings_exact_exponent :
    let r : Receiver Exponent := ⟨basePoint, .ofSlots (encode (basePoint : Exponent)) (.zero 4)
      ⟨List.replicate 32 255, rfl⟩⟩
    ofBytes r.toBytes = .ok r ∧ ofText r.toText = .ok r ∧
      ofJson (" " ++ r.toJson ++ "\n") = .ok r ∧ ofText ("1" ++ r.toText) ≠ .ok r ∧
      Json.IsString "\"\\u0031\\/\"" "1/" ∧
        (ofJson "\"\\u0031\\/\"" : Except JsonError (Receiver Exponent)) =
          (ofText "1/").mapError .refused := by
  intro r
  obtain ⟨hbytes, htext, hjson, ⟨-, hspells⟩, hstring⟩ := encodings_exact r
  have hescaped : Json.IsString "\"\\u0031\\/\"" "1/" := by
    refine ⟨"\\u0031\\/".toList, ⟨[], [], nofun, nofun, rfl⟩, ?_⟩
    exact .unit ⟨0, 0, 3, 1, by decide, by decide, by decide, by decide, rfl⟩ (by decide)
      (.short (by decide) .nil)
  refine ⟨(hbytes _).mpr rfl, (htext _).mpr rfl, (hjson _).mpr ?_, ?_, hescaped,
    hstring _ _ hescaped⟩
  · exact (Json.isString_quote hspells).between_blanks (by simp [Json.isBlank])
      (by simp [Json.isBlank])
  · intro h
    have hlen := congrArg String.length ((htext _).mp h)
    simp at hlen

end Receiver

end ConfidentialCoin
