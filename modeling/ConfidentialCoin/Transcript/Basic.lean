import ConfidentialCoin.Bytes

/-!
# Transcripts

A transcript is a state that labelled messages are appended to and labelled challenges are drawn
from. The protocols of this library use a transcript only through `Transcript`, so that they can
be run over a hash, or over `Recorded`, which keeps the ordered list of what was done next to the
state of another transcript.

* `Recorded.log_append`, `Recorded.log_challenge`: what each operation adds to the record.
* `Recorded.state_append`, `Recorded.challenge_fst`: recording changes no answer.
-/

namespace ConfidentialCoin

/-- A state to append labelled messages to and to draw labelled challenges of 64 bytes from. -/
class Transcript (τ : Type) where
  /-- The empty transcript of the protocol with the given name. -/
  ofProtocol : (name : List UInt8) → τ
  /-- Appends a message. -/
  append : τ → (label message : List UInt8) → τ
  /-- Draws a challenge. -/
  challenge : τ → (label : List UInt8) → Bytes 64 × τ

/-- One operation on a transcript. -/
inductive TranscriptEvent where
  | append (label message : List UInt8)
  | challenge (label : List UInt8)
deriving DecidableEq

/-- A transcript that remembers what was done to it. -/
structure Recorded (τ : Type) where
  name : List UInt8
  /-- The operations so far, in order. -/
  log : List TranscriptEvent
  /-- The transcript they were applied to. -/
  state : τ

namespace Recorded

variable {τ : Type} [Transcript τ]

instance : Transcript (Recorded τ) where
  ofProtocol name := ⟨name, [], Transcript.ofProtocol name⟩
  append t label message :=
    ⟨t.name, t.log ++ [.append label message], Transcript.append t.state label message⟩
  challenge t label :=
    let (c, s) := Transcript.challenge t.state label
    (c, ⟨t.name, t.log ++ [.challenge label], s⟩)

@[simp] theorem log_ofProtocol (name : List UInt8) :
    (Transcript.ofProtocol name : Recorded τ).log = [] := rfl

@[simp] theorem log_append (t : Recorded τ) (label message : List UInt8) :
    (Transcript.append t label message).log = t.log ++ [.append label message] := rfl

@[simp] theorem log_challenge (t : Recorded τ) (label : List UInt8) :
    (Transcript.challenge t label).2.log = t.log ++ [.challenge label] := rfl

@[simp] theorem state_append (t : Recorded τ) (label message : List UInt8) :
    (Transcript.append t label message).state = Transcript.append t.state label message := rfl

@[simp] theorem challenge_fst (t : Recorded τ) (label : List UInt8) :
    (Transcript.challenge t label).1 = (Transcript.challenge t.state label).1 := rfl

@[simp] theorem state_challenge (t : Recorded τ) (label : List UInt8) :
    (Transcript.challenge t label).2.state = (Transcript.challenge t.state label).2 := rfl

end Recorded

end ConfidentialCoin
