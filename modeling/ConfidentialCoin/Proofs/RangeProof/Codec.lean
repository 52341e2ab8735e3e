import ConfidentialCoin.RangeProof.Codec
import Mathlib.Data.UInt

/-!
# The codec is exact

`encoded` is the string of a proof, field after field. Writing gives it or refuses the proof
(`RangeProof.toBytes_eq_ok_iff`). Each reader takes a string apart exactly where writing put it
together: it answers `x` and `rest` if and only if its input is the encoding of `x`, followed by
`rest`. The lemmas of the readers compose like the readers do, up to `ofBytes_eq_ok_iff`.
-/

namespace ConfidentialCoin

/-! ### Lists of encodings -/

section EncodeAll

variable {α : Type} [Encoding α]

@[simp] theorem encodeAll_nil : encodeAll ([] : List α) = [] := rfl

@[simp] theorem encodeAll_cons (x : α) (xs : List α) :
    encodeAll (x :: xs) = (encode x).toList ++ encodeAll xs := rfl

@[simp] theorem encodeAll_append (xs ys : List α) :
    encodeAll (xs ++ ys) = encodeAll xs ++ encodeAll ys := List.flatMap_append ..

end EncodeAll

variable {F G : Type} [Encoding F] [Encoding G]

/-! ### Writing -/

/-- The string of an argument. -/
def InnerProductProof.encoded (proof : InnerProductProof F G) : List UInt8 :=
  proof.l.length.toUInt8 :: (encodeAll proof.l ++ (encodeAll proof.r ++
    ((encode proof.a).toList ++ ((encode proof.b).toList ++ (encode proof.p).toList))))

/-- The string of a proof. -/
def RangeProof.encoded (proof : RangeProof F G) : List UInt8 :=
  proof.commitments.length.toUInt8 :: (encodeAll proof.commitments ++
    ((encode proof.a).toList ++ ((encode proof.s).toList ++ ((encode proof.t1).toList ++
      ((encode proof.t2).toList ++ ((encode proof.tauX).toList ++ ((encode proof.tHat).toList ++
        ((encode proof.mu).toList ++ proof.argument.encoded))))))))

/-- Writing gives the string if every count fits its byte, and the two lists of the argument have
one length. -/
theorem RangeProof.toBytes_eq_ok_iff {proof : RangeProof F G} {bytes : List UInt8} :
    proof.toBytes = .ok bytes ↔
      proof.commitments.length ≤ 255 ∧ proof.argument.l.length ≤ 255 ∧
        proof.argument.r.length = proof.argument.l.length ∧ proof.encoded = bytes := by
  rw [toBytes]
  by_cases hcoins : 255 < proof.commitments.length
  · rw [if_pos hcoins]
    refine iff_of_false (by rintro ⟨⟩) ?_
    omega
  rw [if_neg hcoins]
  simp only [InnerProductProof.write]
  by_cases hrounds : 255 < proof.argument.l.length
  · rw [if_pos hrounds]
    refine iff_of_false (by rintro ⟨⟩) ?_
    omega
  rw [if_neg hrounds]
  by_cases hlength : proof.argument.r.length = proof.argument.l.length
  · rw [if_neg (not_not_intro hlength)]
    -- The two orders in which the parts are appended come to one string.
    have hbytes : [proof.commitments.length.toUInt8] ++ encodeAll proof.commitments ++
        encodeAll [proof.a, proof.s, proof.t1, proof.t2] ++
        encodeAll [proof.tauX, proof.tHat, proof.mu] ++ [proof.argument.l.length.toUInt8] ++
        encodeAll (proof.argument.l ++ proof.argument.r) ++
        encodeAll [proof.argument.a, proof.argument.b] ++ (encode proof.argument.p).toList =
          proof.encoded := by
      simp only [encoded, InnerProductProof.encoded, encodeAll_cons, encodeAll_nil,
        encodeAll_append, List.append_assoc, List.append_nil, List.cons_append, List.nil_append]
    simp only [hbytes]
    constructor
    · intro h
      exact ⟨by omega, by omega, hlength, Except.ok.inj h⟩
    · rintro ⟨-, -, -, rfl⟩
      rfl
  · rw [if_pos hlength]
    refine iff_of_false (by rintro ⟨⟩) ?_
    rintro ⟨-, -, h, -⟩
    exact hlength h

/-! ### Reading -/

namespace Reader

/-- As many bytes as asked for are split off. -/
theorem bytes_eq_ok_iff {n : ℕ} {input rest : List UInt8} {b : Bytes n} :
    bytes n input = .ok (b, rest) ↔ input = b.toList ++ rest := by
  rw [bytes]
  constructor
  · intro h
    split at h
    · cases h
      exact (List.take_append_drop ..).symm
    · cases h
  · rintro rfl
    have hn : b.toList.length = n := b.length_toList
    rw [dif_pos (by rw [List.length_append]; omega)]
    congr 2
    · exact Bytes.ext (List.take_left' hn)
    · exact List.drop_left' hn

theorem count_eq_ok_iff {input rest : List UInt8} {k : ℕ} :
    count input = .ok (k, rest) ↔ k < 256 ∧ input = k.toUInt8 :: rest := by
  constructor
  · intro h
    cases input with
    | nil => cases h
    | cons b input =>
      cases h
      exact ⟨b.toNat_lt, by rw [Nat.toUInt8_eq, UInt8.ofNat_toNat]⟩
  · rintro ⟨hk, rfl⟩
    rw [count, Nat.toUInt8_eq, UInt8.toNat_ofNat_of_lt' hk]

/-- A field of 32 bytes is the encoding of its value, if nothing else is taken for one. -/
private theorem value_eq_ok_iff {α : Type} [Encoding α] {read : Bytes 32 → Except Error α}
    (hread : ∀ {b x}, read b = .ok x ↔ b = encode x) {input rest : List UInt8} {x : α} :
    (bytes 32 input >>= fun p => read p.1 >>= fun x => .ok (x, p.2)) = .ok (x, rest) ↔
      input = (encode x).toList ++ rest := by
  rw [bind_eq_ok_iff]
  constructor
  · rintro ⟨⟨b, rest'⟩, hb, h⟩
    obtain ⟨y, hy, h⟩ := bind_eq_ok_iff.mp h
    cases h
    obtain rfl := hread.mp hy
    exact bytes_eq_ok_iff.mp hb
  · intro h
    refine ⟨(encode x, rest), bytes_eq_ok_iff.mpr h, bind_eq_ok_iff.mpr ⟨x, ?_, rfl⟩⟩
    exact hread.mpr rfl

/-- A scalar is read from its encoding and from nothing else. -/
theorem scalar_eq_ok_iff [LawfulEncoding F] {input rest : List UInt8} {x : F} :
    scalar input = .ok (x, rest) ↔ input = (encode x).toList ++ rest :=
  value_eq_ok_iff readScalar_eq_ok_iff

section

variable [LawfulEncoding G]

theorem point_eq_ok_iff {input rest : List UInt8} {p : G} :
    point input = .ok (p, rest) ↔ input = (encode p).toList ++ rest :=
  value_eq_ok_iff readPoint_eq_ok_iff

/-- A list of elements is read from their encodings in a row. -/
theorem points_eq_ok_iff {n : ℕ} {input rest : List UInt8} {ps : List G} :
    points n input = .ok (ps, rest) ↔ ps.length = n ∧ input = encodeAll ps ++ rest := by
  induction n generalizing input ps with
  | zero =>
    constructor
    · intro h
      cases h
      exact ⟨rfl, rfl⟩
    · rintro ⟨hlen, rfl⟩
      obtain rfl := List.eq_nil_of_length_eq_zero hlen
      rfl
  | succ n ih =>
    rw [points, bind_eq_ok_iff]
    constructor
    · rintro ⟨⟨p, rest₁⟩, hp, h⟩
      obtain ⟨⟨qs, rest₂⟩, hqs, h⟩ := bind_eq_ok_iff.mp h
      cases h
      obtain ⟨hlen, hrest⟩ := ih.mp hqs
      rw [point_eq_ok_iff.mp hp, hrest, encodeAll_cons, List.append_assoc, List.length_cons, hlen]
      exact ⟨rfl, rfl⟩
    · rintro ⟨hlen, rfl⟩
      obtain ⟨p, qs, rfl⟩ := List.exists_cons_of_length_eq_add_one hlen
      rw [encodeAll_cons, List.append_assoc]
      exact ⟨(p, encodeAll qs ++ rest), point_eq_ok_iff.mpr rfl,
        bind_eq_ok_iff.mpr ⟨(qs, rest), ih.mpr ⟨Nat.succ.inj hlen, rfl⟩, rfl⟩⟩

end

variable [LawfulEncoding F] [LawfulEncoding G]

/-- An argument is read from its encoding, if it has the rounds that a reader takes. -/
theorem argument_eq_ok_iff {input rest : List UInt8} {proof : InnerProductProof F G} :
    argument input = .ok (proof, rest) ↔
      proof.l.length ≤ maxRounds ∧ proof.r.length = proof.l.length ∧
        input = proof.encoded ++ rest := by
  rw [argument, bind_eq_ok_iff]
  constructor
  · rintro ⟨⟨k, i₀⟩, hk, h⟩
    obtain ⟨-, rfl⟩ := count_eq_ok_iff.mp hk
    dsimp only at h
    by_cases hrounds : maxRounds < k
    · rw [if_pos hrounds] at h
      cases h
    rw [if_neg hrounds] at h
    -- Part by part, what is read is the encoding that the input begins with.
    obtain ⟨⟨l, i₁⟩, hl, h⟩ := bind_eq_ok_iff.mp h
    obtain ⟨⟨r, i₂⟩, hr, h⟩ := bind_eq_ok_iff.mp h
    obtain ⟨⟨a, i₃⟩, ha, h⟩ := bind_eq_ok_iff.mp h
    obtain ⟨⟨b, i₄⟩, hb, h⟩ := bind_eq_ok_iff.mp h
    obtain ⟨⟨p, i₅⟩, hp, h⟩ := bind_eq_ok_iff.mp h
    cases h
    obtain ⟨rfl, rfl⟩ := points_eq_ok_iff.mp hl
    obtain ⟨hlength, rfl⟩ := points_eq_ok_iff.mp hr
    obtain rfl := scalar_eq_ok_iff.mp ha
    obtain rfl := scalar_eq_ok_iff.mp hb
    obtain rfl := point_eq_ok_iff.mp hp
    refine ⟨Nat.le_of_not_lt hrounds, hlength, ?_⟩
    simp only [InnerProductProof.encoded, List.append_assoc, List.cons_append]
  · rintro ⟨hrounds, hlength, rfl⟩
    -- A number of rounds that a reader takes fits the byte of the count.
    have hmax : maxRounds = 31 := rfl
    simp only [InnerProductProof.encoded, List.append_assoc, List.cons_append]
    refine ⟨(proof.l.length, _), count_eq_ok_iff.mpr ⟨by omega, rfl⟩, ?_⟩
    dsimp only
    rw [if_neg (Nat.not_lt.mpr hrounds)]
    exact bind_eq_ok_iff.mpr ⟨(proof.l, _), points_eq_ok_iff.mpr ⟨rfl, rfl⟩,
      bind_eq_ok_iff.mpr ⟨(proof.r, _), points_eq_ok_iff.mpr ⟨hlength, rfl⟩,
      bind_eq_ok_iff.mpr ⟨(proof.a, _), scalar_eq_ok_iff.mpr rfl,
      bind_eq_ok_iff.mpr ⟨(proof.b, _), scalar_eq_ok_iff.mpr rfl,
      bind_eq_ok_iff.mpr ⟨(proof.p, rest), point_eq_ok_iff.mpr rfl, rfl⟩⟩⟩⟩⟩

/-- A proof is read from its encoding, if its counts are ones that a reader takes. -/
theorem rangeProof_eq_ok_iff {input rest : List UInt8} {proof : RangeProof F G} :
    rangeProof input = .ok (proof, rest) ↔
      0 < proof.commitments.length ∧ proof.commitments.length ≤ maxCoins ∧
        proof.argument.l.length ≤ maxRounds ∧
        proof.argument.r.length = proof.argument.l.length ∧ input = proof.encoded ++ rest := by
  rw [rangeProof, bind_eq_ok_iff]
  constructor
  · rintro ⟨⟨k, i₀⟩, hk, h⟩
    obtain ⟨-, rfl⟩ := count_eq_ok_iff.mp hk
    dsimp only at h
    by_cases hcoins : k = 0 ∨ maxCoins < k
    · rw [if_pos hcoins] at h
      cases h
    rw [if_neg hcoins] at h
    obtain ⟨⟨vs, i₁⟩, hvs, h⟩ := bind_eq_ok_iff.mp h
    obtain ⟨⟨a, i₂⟩, ha, h⟩ := bind_eq_ok_iff.mp h
    obtain ⟨⟨s, i₃⟩, hs, h⟩ := bind_eq_ok_iff.mp h
    obtain ⟨⟨t1, i₄⟩, ht1, h⟩ := bind_eq_ok_iff.mp h
    obtain ⟨⟨t2, i₅⟩, ht2, h⟩ := bind_eq_ok_iff.mp h
    obtain ⟨⟨tauX, i₆⟩, htauX, h⟩ := bind_eq_ok_iff.mp h
    obtain ⟨⟨tHat, i₇⟩, htHat, h⟩ := bind_eq_ok_iff.mp h
    obtain ⟨⟨mu, i₈⟩, hmu, h⟩ := bind_eq_ok_iff.mp h
    obtain ⟨⟨arg, i₉⟩, harg, h⟩ := bind_eq_ok_iff.mp h
    cases h
    obtain ⟨rfl, rfl⟩ := points_eq_ok_iff.mp hvs
    obtain rfl := point_eq_ok_iff.mp ha
    obtain rfl := point_eq_ok_iff.mp hs
    obtain rfl := point_eq_ok_iff.mp ht1
    obtain rfl := point_eq_ok_iff.mp ht2
    obtain rfl := scalar_eq_ok_iff.mp htauX
    obtain rfl := scalar_eq_ok_iff.mp htHat
    obtain rfl := scalar_eq_ok_iff.mp hmu
    obtain ⟨hrounds, hlength, rfl⟩ := argument_eq_ok_iff.mp harg
    obtain ⟨hzero, hmax⟩ := not_or.mp hcoins
    refine ⟨Nat.pos_of_ne_zero hzero, Nat.le_of_not_lt hmax, hrounds, hlength, ?_⟩
    simp only [RangeProof.encoded, List.append_assoc, List.cons_append]
  · rintro ⟨hpos, hle, hrounds, hlength, rfl⟩
    have hmax : maxCoins = 30 := rfl
    simp only [RangeProof.encoded, List.append_assoc, List.cons_append]
    refine ⟨(proof.commitments.length, _), count_eq_ok_iff.mpr ⟨by omega, rfl⟩, ?_⟩
    dsimp only
    rw [if_neg (by omega)]
    exact bind_eq_ok_iff.mpr ⟨(proof.commitments, _), points_eq_ok_iff.mpr ⟨rfl, rfl⟩,
      bind_eq_ok_iff.mpr ⟨(proof.a, _), point_eq_ok_iff.mpr rfl,
      bind_eq_ok_iff.mpr ⟨(proof.s, _), point_eq_ok_iff.mpr rfl,
      bind_eq_ok_iff.mpr ⟨(proof.t1, _), point_eq_ok_iff.mpr rfl,
      bind_eq_ok_iff.mpr ⟨(proof.t2, _), point_eq_ok_iff.mpr rfl,
      bind_eq_ok_iff.mpr ⟨(proof.tauX, _), scalar_eq_ok_iff.mpr rfl,
      bind_eq_ok_iff.mpr ⟨(proof.tHat, _), scalar_eq_ok_iff.mpr rfl,
      bind_eq_ok_iff.mpr ⟨(proof.mu, _), scalar_eq_ok_iff.mpr rfl,
      bind_eq_ok_iff.mpr ⟨(proof.argument, rest),
        argument_eq_ok_iff.mpr ⟨hrounds, hlength, rfl⟩, rfl⟩⟩⟩⟩⟩⟩⟩⟩⟩

end Reader

/-- A string decodes to a proof exactly if it is the proof's, and the counts are in range. -/
theorem RangeProof.ofBytes_eq_ok_iff [LawfulEncoding F] [LawfulEncoding G] {input : List UInt8}
    {proof : RangeProof F G} :
    ofBytes input = .ok proof ↔
      0 < proof.commitments.length ∧ proof.commitments.length ≤ maxCoins ∧
        proof.argument.l.length ≤ Reader.maxRounds ∧
        proof.argument.r.length = proof.argument.l.length ∧ proof.encoded = input := by
  rw [ofBytes, bind_eq_ok_iff]
  constructor
  · rintro ⟨⟨q, rest⟩, hq, h⟩
    cases rest with
    | cons b rest => cases h
    | nil =>
      cases h
      obtain ⟨hpos, hle, hrounds, hlength, rfl⟩ := Reader.rangeProof_eq_ok_iff.mp hq
      exact ⟨hpos, hle, hrounds, hlength, (List.append_nil _).symm⟩
  · rintro ⟨hpos, hle, hrounds, hlength, rfl⟩
    exact ⟨(proof, []), Reader.rangeProof_eq_ok_iff.mpr
      ⟨hpos, hle, hrounds, hlength, (List.append_nil _).symm⟩, rfl⟩

end ConfidentialCoin
