import ConfidentialCoin.Group

/-!
# Refused input

`Error` is the cause for which a byte string, a list or a number is refused, with the sentence
that reports it. `ProverError` and `VerifierError` are the causes for which no proof or address is
made, and for which a proof is not accepted; both take in an `Error` in their own way.

The readers that every format of this library starts from, of a group element and of a scalar,
are here with the errors they give.
-/

namespace ConfidentialCoin

/-- Why an input is refused. -/
inductive Error where
  /-- The input breaks the rule that the text names. -/
  | invalidInput (text : String)
  | lengthMismatch (expected actual : Nat)
  /-- Bytes that are no group element. -/
  | invalidPoint (text : String)
  /-- A byte that is no privacy type. -/
  | unsupportedPrivacyType (value : UInt8)
deriving DecidableEq, Repr

namespace Error

def message : Error → String
  | .invalidInput text => "invalid input: " ++ text
  | .lengthMismatch expected actual =>
    "vector length mismatch: expected " ++ toString expected ++ ", got " ++ toString actual
  | .invalidPoint text => "invalid point: " ++ text
  | .unsupportedPrivacyType value => "unsupported coin privacy type " ++ toString value.toNat

/-- A point must be given in 32 bytes. -/
def pointLength : Error := .invalidInput "point encoding must be 32 bytes"

/-- The bytes are not the encoding of a group element. -/
def notAPoint : Error := .invalidPoint "bytes do not decode to a Ristretto point"

/-- The bytes are not a scalar below the group order. -/
def notAScalar : Error := .invalidInput "non-canonical scalar encoding"

end Error

/-- Why no proof or one-time address is made. -/
inductive ProverError where
  /-- The request breaks the rule that the text names. -/
  | invalidInput (text : String)
  /-- No candidate key lies in the bucket asked for. -/
  | exhaustedRetries (attempts : UInt32)
  /-- The argument cannot be made of these vectors or this transcript. -/
  | proofConstruction (text : String)
  /-- A part of the request is refused. -/
  | refused (error : Error)
  | fault (fault : Fault)
deriving DecidableEq, Repr

namespace ProverError

def message : ProverError → String
  | .invalidInput text => "invalid input: " ++ text
  | .exhaustedRetries attempts =>
    "no one-time key matched the target bucket after " ++ toString attempts.toNat ++ " attempts"
  | .proofConstruction text => "proof construction failed: " ++ text
  | .refused error => error.message
  | .fault f => f.message

end ProverError

/-- Why a proof is not accepted. -/
inductive VerifierError where
  /-- The proof or the request breaks the rule that the text names. -/
  | invalidInput (text : String)
  /-- The value commitments do not open to the claimed inner product. -/
  | statement1
  /-- The inner-product argument does not open. -/
  | statement2
  | fault (fault : Fault)
deriving DecidableEq, Repr

namespace VerifierError

def message : VerifierError → String
  | .invalidInput text => "invalid input: " ++ text
  | .statement1 => "statement 1 failed: commitment does not open to tHat"
  | .statement2 => "statement 2 failed: inner product argument rejected"
  | .fault f => f.message

/-- A refused part makes the whole an invalid input; numbers in the cause are not reported. -/
def ofError : Error → VerifierError
  | .invalidInput text => .invalidInput text
  | .invalidPoint text => .invalidInput text
  | .lengthMismatch _ _ => .invalidInput "vector length mismatch"
  | .unsupportedPrivacyType _ => .invalidInput "unsupported privacy type"

end VerifierError

/-- What a sequence of two steps answers comes from an answer of the first. -/
theorem bind_eq_ok_iff {ε α β : Type} {x : Except ε α} {f : α → Except ε β} {b : β} :
    x >>= f = .ok b ↔ ∃ a, x = .ok a ∧ f a = .ok b := by
  constructor
  · intro h
    cases x with
    | error e => cases h
    | ok a => exact ⟨a, rfl, h⟩
  · rintro ⟨a, rfl, h⟩
    exact h

/-- A sequence of two steps fails where the first fails, or the second after it. -/
theorem bind_eq_error_iff {ε α β : Type} {x : Except ε α} {f : α → Except ε β} {e : ε} :
    x >>= f = .error e ↔ x = .error e ∨ ∃ a, x = .ok a ∧ f a = .error e := by
  cases x with
  | error e' =>
    constructor
    · intro h
      cases h
      exact .inl rfl
    · rintro (h | ⟨a, ha, -⟩)
      · cases h
        rfl
      · cases ha
  | ok a =>
    constructor
    · intro h
      exact .inr ⟨a, rfl, h⟩
    · rintro (h | ⟨a', ha, h⟩)
      · cases h
      · cases ha
        exact h

/-- The group element with the given encoding. -/
def readPoint {G : Type} [Encoding G] (b : Bytes 32) : Except Error G :=
  match decode? b with
  | some p => .ok p
  | none => .error .notAPoint

/-- The group element that a byte string of any length encodes. -/
def readPointSlice {G : Type} [Encoding G] (bs : List UInt8) : Except Error G :=
  match Bytes.ofList? 32 bs with
  | some b => readPoint b
  | none => .error .pointLength

/-- The scalar with the given encoding. -/
def readScalar {F : Type} [Encoding F] (b : Bytes 32) : Except Error F :=
  match decode? b with
  | some x => .ok x
  | none => .error .notAScalar

section

variable {α : Type} [Encoding α] [LawfulEncoding α]

/-- A group element is read from its encoding and from nothing else. -/
theorem readPoint_eq_ok_iff {b : Bytes 32} {p : α} : readPoint b = .ok p ↔ b = encode p := by
  constructor
  · intro h
    unfold readPoint at h
    split at h
    · next h' => cases h; exact (LawfulEncoding.encode_of_decode? h').symm
    · cases h
  · rintro rfl
    simp [readPoint, LawfulEncoding.decode?_encode]

theorem readPointSlice_eq_ok_iff {bs : List UInt8} {p : α} :
    readPointSlice bs = .ok p ↔ bs = (encode p).toList := by
  rw [readPointSlice]
  constructor
  · intro h
    split at h
    · next b hb => rw [Bytes.ofList?_eq_some_iff.mp hb, readPoint_eq_ok_iff.mp h]
    · cases h
  · rintro rfl
    rw [Bytes.ofList?_toList]
    exact readPoint_eq_ok_iff.mpr rfl

/-- A scalar is read from its encoding and from nothing else. -/
theorem readScalar_eq_ok_iff {b : Bytes 32} {x : α} : readScalar b = .ok x ↔ b = encode x := by
  constructor
  · intro h
    unfold readScalar at h
    split at h
    · next h' => cases h; exact (LawfulEncoding.encode_of_decode? h').symm
    · cases h
  · rintro rfl
    simp [readScalar, LawfulEncoding.decode?_encode]

end

end ConfidentialCoin
