import ConfidentialCoin.Proofs.RangeProof.Codec
import ConfidentialCoin.Proofs.Ristretto.Exponent

/-!
# One string for each proof

Every proof that can be read has one string, which is what writing gives, and nothing else is read
(`RangeProof.ofBytes_eq_ok_iff_toBytes`). Writing goes further than reading: its counts have to fit
a byte, where reading wants 1 to 30 commitments and at most 31 rounds. The strings of the proofs in
between are refused for the count that is out of range (`ofBytes_of_coins`, `ofBytes_of_rounds`).
A count is looked at before the fields it counts are read, so the refusal of a number of rounds
comes after the outer part has been read.

`RangeProof.codec_exact` puts both together.
-/

namespace ConfidentialCoin

variable {F G : Type} [Encoding F] [Encoding G]

private theorem ok_bind {ε α β : Type} (a : α) (f : α → Except ε β) :
    (Except.ok a >>= f) = f a := rfl

private theorem error_bind {ε α β : Type} (e : ε) (f : α → Except ε β) :
    ((Except.error e : Except ε α) >>= f) = .error e := rfl

/-! ### Counts that are refused -/

namespace Reader

/-- A count of one byte is read back. -/
theorem count_toUInt8 {k : ℕ} (h : k ≤ 255) (rest : List UInt8) :
    count (k.toUInt8 :: rest) = .ok (k, rest) :=
  count_eq_ok_iff.mpr ⟨Nat.lt_succ_of_le h, rfl⟩

/-- Too many rounds are refused at their count. -/
theorem argument_of_rounds {proof : InnerProductProof F G} (hmax : maxRounds < proof.l.length)
    (hle : proof.l.length ≤ 255) :
    argument proof.encoded =
      (.error .tooManyRounds : Except Error (InnerProductProof F G × _)) := by
  rw [argument, InnerProductProof.encoded, count_toUInt8 hle, ok_bind]
  exact if_pos hmax

/-- No coins, or too many, are refused at their count. -/
theorem rangeProof_of_coins {proof : RangeProof F G}
    (hcoins : proof.commitments.length = 0 ∨ maxCoins < proof.commitments.length)
    (hle : proof.commitments.length ≤ 255) :
    rangeProof proof.encoded = (.error .commitmentCount : Except Error (RangeProof F G × _)) := by
  rw [rangeProof, RangeProof.encoded, count_toUInt8 hle, ok_bind]
  exact if_pos hcoins

variable [LawfulEncoding F] [LawfulEncoding G]

/-- Where the outer part can be read, what happens to the argument happens to the proof. -/
theorem rangeProof_of_argument {proof : RangeProof F G} (hpos : 0 < proof.commitments.length)
    (hmax : proof.commitments.length ≤ maxCoins) {e : Error}
    (he : argument proof.argument.encoded =
      (.error e : Except Error (InnerProductProof F G × List UInt8))) :
    rangeProof proof.encoded = (.error e : Except Error (RangeProof F G × _)) := by
  have hle : proof.commitments.length ≤ 255 := hmax.trans (by decide)
  have hcoins : ¬ (proof.commitments.length = 0 ∨ maxCoins < proof.commitments.length) := by omega
  have hpoints : ∀ (ps : List G) (rest : List UInt8),
      points ps.length (encodeAll ps ++ rest) = .ok (ps, rest) :=
    fun ps rest => points_eq_ok_iff.mpr ⟨rfl, rfl⟩
  have hpoint : ∀ (p : G) (rest : List UInt8),
      point ((encode p).toList ++ rest) = .ok (p, rest) := fun p rest => point_eq_ok_iff.mpr rfl
  have hscalar : ∀ (x : F) (rest : List UInt8),
      scalar ((encode x).toList ++ rest) = .ok (x, rest) := fun x rest => scalar_eq_ok_iff.mpr rfl
  rw [rangeProof, RangeProof.encoded, count_toUInt8 hle]
  simp only [ok_bind, if_neg hcoins, hpoints, hpoint, hscalar, he, error_bind]

end Reader

namespace RangeProof

variable {bytes : List UInt8} {proof : RangeProof F G}

/-- The bytes of a proof with a wrong number of coins are not read. -/
theorem ofBytes_of_coins (h : proof.toBytes = .ok bytes)
    (hcoins : proof.commitments.length = 0 ∨ maxCoins < proof.commitments.length) :
    (ofBytes bytes : Except Error (RangeProof F G)) = .error .commitmentCount := by
  obtain ⟨hle, -, -, rfl⟩ := toBytes_eq_ok_iff.mp h
  rw [ofBytes, Reader.rangeProof_of_coins hcoins hle]
  rfl

variable [LawfulEncoding F] [LawfulEncoding G]

/-- The bytes of a proof with too many rounds are not read. -/
theorem ofBytes_of_rounds (h : proof.toBytes = .ok bytes) (hpos : 0 < proof.commitments.length)
    (hmax : proof.commitments.length ≤ maxCoins)
    (hrounds : Reader.maxRounds < proof.argument.l.length) :
    (ofBytes bytes : Except Error (RangeProof F G)) = .error .tooManyRounds := by
  obtain ⟨-, hle, -, rfl⟩ := toBytes_eq_ok_iff.mp h
  rw [ofBytes, Reader.rangeProof_of_argument hpos hmax (Reader.argument_of_rounds hrounds hle)]
  rfl

/-! ### Both directions -/

/-- What is read is what was written, with the counts in the range of reading. -/
theorem ofBytes_eq_ok_iff_toBytes :
    ofBytes bytes = .ok proof ↔
      (1 ≤ proof.commitments.length ∧ proof.commitments.length ≤ maxCoins) ∧
        (proof.argument.l.length = proof.argument.r.length ∧
          proof.argument.r.length ≤ Reader.maxRounds) ∧ proof.toBytes = .ok bytes := by
  have hmaxCoins : maxCoins = 30 := rfl
  have hmaxRounds : Reader.maxRounds = 31 := rfl
  rw [ofBytes_eq_ok_iff, toBytes_eq_ok_iff]
  constructor
  · rintro ⟨hpos, hle, hrounds, hlength, rfl⟩
    exact ⟨⟨hpos, hle⟩, ⟨hlength.symm, by omega⟩, by omega, by omega, hlength, rfl⟩
  · rintro ⟨⟨hpos, hle⟩, ⟨hlength, hrounds⟩, -, -, -, rfl⟩
    exact ⟨hpos, hle, by omega, hlength.symm, rfl⟩

/-- **The codec.** A string is read as a proof exactly when it is the string that the proof is
written as, the proof has 1 to 30 commitments, and its argument has as many `L` as `R` and at most
31. So reading undoes writing, writing undoes reading, and no proof has a second string. The string
of any other proof is refused, for the count that is out of range. -/
theorem codec_exact (bytes : List UInt8) (proof : RangeProof F G) :
    (ofBytes bytes = .ok proof ↔
      (1 ≤ proof.commitments.length ∧ proof.commitments.length ≤ 30) ∧
        (proof.argument.l.length = proof.argument.r.length ∧ proof.argument.r.length ≤ 31) ∧
          proof.toBytes = .ok bytes) ∧
      (proof.toBytes = .ok bytes →
        (proof.commitments.length = 0 ∨ 30 < proof.commitments.length →
          (ofBytes bytes : Except Error (RangeProof F G)) = .error .commitmentCount) ∧
        (1 ≤ proof.commitments.length → proof.commitments.length ≤ 30 →
          31 < proof.argument.l.length →
            (ofBytes bytes : Except Error (RangeProof F G)) = .error .tooManyRounds)) :=
  ⟨ofBytes_eq_ok_iff_toBytes, fun h => ⟨ofBytes_of_coins h, ofBytes_of_rounds h⟩⟩

open Ristretto in
/-- A proof that is read back, one with a commitment too many, and one with a round too many. -/
theorem codec_exact_exponent :
    let proof (coins rounds : ℕ) : RangeProof Scalar Exponent :=
      ⟨List.replicate coins 0, 0, 0, 0, 0, 0, 0, 0,
        ⟨List.replicate rounds 0, List.replicate rounds 0, 0, 0, 0⟩⟩
    ofBytes (proof 1 6).encoded = .ok (proof 1 6) ∧
      (ofBytes (proof 31 11).encoded : Except Error (RangeProof Scalar Exponent)) =
        .error .commitmentCount ∧
      (ofBytes (proof 1 32).encoded : Except Error (RangeProof Scalar Exponent)) =
        .error .tooManyRounds := by
  intro proof
  have hwritten : ∀ coins ≤ 255, ∀ rounds ≤ 255,
      (proof coins rounds).toBytes = .ok (proof coins rounds).encoded := by
    intro coins hcoins rounds hrounds
    refine toBytes_eq_ok_iff.mpr ⟨?_, ?_, rfl, rfl⟩
    · exact List.length_replicate.trans_le hcoins
    · exact List.length_replicate.trans_le hrounds
  refine ⟨?_, ?_, ?_⟩
  · exact (codec_exact _ (proof 1 6)).1.mpr
      ⟨by decide, by decide, hwritten 1 (by decide) 6 (by decide)⟩
  · exact ((codec_exact _ (proof 31 11)).2 (hwritten 31 (by decide) 11 (by decide))).1
      (.inr (by decide))
  · exact ((codec_exact _ (proof 1 32)).2 (hwritten 1 (by decide) 32 (by decide))).2 (by decide)
      (by decide) (by decide)

end RangeProof

end ConfidentialCoin
