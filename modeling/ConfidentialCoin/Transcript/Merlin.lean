import ConfidentialCoin.Transcript.Basic
import ConfidentialCoin.Transcript.Strobe

/-!
# Merlin transcripts

The transcript over STROBE-128. A message is framed by its label and its length in four bytes, and
a challenge by its label and the number of bytes asked for, so different sequences of operations
feed the duplex different bytes.
-/

namespace ConfidentialCoin

/-- A Merlin transcript. -/
structure Merlin where
  /-- The duplex that has taken in everything so far. -/
  duplex : Strobe.Duplex

namespace Merlin

/-- The frame of an operation on `n` bytes. -/
def frame (label : List UInt8) (n : Nat) : List UInt8 := label ++ littleEndian 4 n

def append (t : Merlin) (label message : List UInt8) : Merlin :=
  ⟨(t.duplex.framing (frame label message.length)).associatedData message⟩

def challenge (t : Merlin) (label : List UInt8) (n : Nat) : Bytes n × Merlin :=
  let (bytes, duplex) := (t.duplex.framing (frame label n)).random n
  (bytes, ⟨duplex⟩)

/-- The transcript of the protocol `name`. -/
def ofProtocol (name : List UInt8) : Merlin :=
  append ⟨.ofProtocol (textBytes "Merlin v1.0")⟩ (textBytes "dom-sep") name

instance : Transcript Merlin where
  ofProtocol := ofProtocol
  append := append
  challenge t label := t.challenge label 64

end Merlin

end ConfidentialCoin
