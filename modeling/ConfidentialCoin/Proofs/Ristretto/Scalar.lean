import ConfidentialCoin.Ristretto.Scalar
import Mathlib.FieldTheory.Finite.Basic
import Mathlib.Tactic.NormNum.Prime
import Mathlib.Tactic.ReduceModChar
import Mathlib.NumberTheory.LucasPrimality

/-!
# The scalars form a field

The operations on scalars, as they are computed, are those of the field with `order` elements: the
residues map into `ZMod order` and each operation to its namesake (`Scalar.toZMod`). An inverse is a
power by Fermat's theorem.

That needs the order to be prime. It is shown to be so by a chain of primes `q`, each of which
divides the next number less one and is greater than its square root: if `a` has an order divisible
by `q` modulo every prime factor, there is no room for two factors (`prime_of_factor`).
-/

namespace ConfidentialCoin.Ristretto

/-! ### The order is prime -/

/-- A number `q * r + 1` with a large prime `q` is prime if some `a` is of order divisible by `q`
modulo all its prime factors. -/
theorem prime_of_factor {n q r : ℕ} (hn : n = q * r + 1) (hq : q.Prime) (hr : 0 < r)
    (hlt : n < q * q) (a b : ZMod n) (hpow : a ^ (q * r) = 1) (hunit : (a ^ r - 1) * b = 1) :
    n.Prime := by
  by_contra hprime
  have htwo : 2 ≤ n := by
    have := Nat.mul_pos hq.pos hr
    omega
  have hp : n.minFac.Prime := Nat.minFac_prime (by omega)
  have hsq : n.minFac ^ 2 ≤ n := Nat.minFac_sq_le_self (by omega) hprime
  have := Fact.mk hp
  have := Fact.mk hq
  -- The image of `a ^ r` modulo the least prime factor has order `q`.
  let f := ZMod.castHom (Nat.minFac_dvd n) (ZMod n.minFac)
  have hone : f (a ^ r) ^ q = 1 := by
    rw [← map_pow, ← pow_mul, mul_comm, hpow, map_one]
  have hne : f (a ^ r) ≠ 1 := by
    intro h
    have hzero := congrArg f hunit
    rw [map_mul, map_sub, map_one, h, sub_self, zero_mul] at hzero
    exact zero_ne_one hzero
  have hne0 : f (a ^ r) ≠ 0 := by
    intro h
    rw [h, zero_pow hq.ne_zero] at hone
    exact zero_ne_one hone
  have hdvd : q ∣ n.minFac - 1 := by
    rw [← orderOf_eq_prime hone hne]
    exact ZMod.orderOf_dvd_card_sub_one hne0
  have hle : q ≤ n.minFac - 1 := Nat.le_of_dvd (Nat.sub_pos_of_lt hp.one_lt) hdvd
  have hmul : q * q ≤ n.minFac * n.minFac := Nat.mul_le_mul (by omega) (by omega)
  rw [sq] at hsq
  omega

private theorem prime_50 : Nat.Prime 1257559732178653 := by
  refine lucas_primality _ 2 (by reduce_mod_char) fun q hq hdvd => ?_
  have hfactors : q ∣ 2 * 2 * 3 * 7 * 23 * 531581 * 1224481 := hdvd.trans (dvd_of_eq (by norm_num))
  have hcases : q = 2 ∨ q = 3 ∨ q = 7 ∨ q = 23 ∨ q = 531581 ∨ q = 1224481 := by
    have hprimes : Nat.Prime 2 ∧ Nat.Prime 3 ∧ Nat.Prime 7 ∧ Nat.Prime 23 ∧ Nat.Prime 531581 ∧
        Nat.Prime 1224481 := by norm_num
    obtain ⟨h2, h3, h7, h23, h531581, h1224481⟩ := hprimes
    simp only [hq.dvd_mul, Nat.prime_dvd_prime_iff_eq hq, h2, h3, h7, h23, h531581, h1224481]
      at hfactors
    omega
  rcases hcases with rfl | rfl | rfl | rfl | rfl | rfl <;> norm_num <;> reduce_mod_char <;> decide

private theorem prime_62 : Nat.Prime 4434155615661930479 :=
  prime_of_factor (by norm_num) prime_50 (by norm_num) (by norm_num) 2 1010501025739283171
    (r := 3526) (by reduce_mod_char) (by reduce_mod_char)

private theorem prime_87 : Nat.Prime 172054593956031949258510691 :=
  prime_of_factor (by norm_num) prime_62 (by norm_num) (by norm_num) 2 154275350521713489305385904
    (r := 38802110) (by reduce_mod_char) (by reduce_mod_char)

private theorem prime_134 : Nat.Prime 19757330305831588566944191468367130476339 :=
  prime_of_factor (by norm_num) prime_87 (by norm_num) (by norm_num) 2
    16371654433361644093796961727196399386194 (r := 114831751082918) (by reduce_mod_char)
    (by reduce_mod_char)

private theorem prime_138 : Nat.Prime 276602624281642239937218680557139826668747 :=
  prime_of_factor (by norm_num) prime_134 (by norm_num) (by norm_num) 2
    94074944912245044309966580483695483989395 (r := 14) (by reduce_mod_char) (by reduce_mod_char)

/-- The order of the group is prime. -/
theorem order_prime : order.Prime := by
  have horder : order =
      7237005577332262213973186563042994240857116359379907606001950938285454250989 := by decide
  rw [horder]
  exact prime_of_factor (by norm_num) prime_138 (by norm_num) (by norm_num) 2
    2233364593245673852815932892735013076939656528578070433728021143254617821614
    (r := 26163907866482859529727157400808004) (by reduce_mod_char) (by reduce_mod_char)

/-! ### The field -/

namespace Scalar

instance : Fact order.Prime := ⟨order_prime⟩

/-- The residue of a scalar. -/
def toZMod (a : Scalar) : ZMod order := (a.val : ZMod order)

/-- Scalars are integers modulo the order, and two of them are equal when these are. -/
theorem toZMod_injective : Function.Injective toZMod := by
  intro a b h
  have hmod := (ZMod.natCast_eq_natCast_iff' a.val b.val order).mp h
  rw [Nat.mod_eq_of_lt a.val_lt, Nat.mod_eq_of_lt b.val_lt] at hmod
  exact Scalar.ext hmod

@[simp] theorem toZMod_ofNat (n : ℕ) : toZMod (ofNat n) = n := by
  rw [toZMod, ofNat, ZMod.natCast_mod]

@[simp] theorem toZMod_zero : toZMod 0 = 0 := by
  rw [show (0 : Scalar) = ofNat 0 from rfl, toZMod_ofNat, Nat.cast_zero]

@[simp] theorem toZMod_one : toZMod 1 = 1 := by
  rw [show (1 : Scalar) = ofNat 1 from rfl, toZMod_ofNat, Nat.cast_one]

@[simp] theorem toZMod_natCast (n : ℕ) : toZMod (n : Scalar) = n := toZMod_ofNat n

@[simp] theorem toZMod_add (a b : Scalar) : toZMod (a + b) = toZMod a + toZMod b := by
  rw [show a + b = ofNat (a.val + b.val) from rfl, toZMod_ofNat, Nat.cast_add, toZMod, toZMod]

@[simp] theorem toZMod_mul (a b : Scalar) : toZMod (a * b) = toZMod a * toZMod b := by
  rw [show a * b = ofNat (a.val * b.val) from rfl, toZMod_ofNat, Nat.cast_mul, toZMod, toZMod]

@[simp] theorem toZMod_neg (a : Scalar) : toZMod (-a) = -toZMod a := by
  rw [show -a = ofNat (order - a.val) from rfl, toZMod_ofNat, Nat.cast_sub a.val_lt.le,
    ZMod.natCast_self, zero_sub, toZMod]

@[simp] theorem toZMod_sub (a b : Scalar) : toZMod (a - b) = toZMod a - toZMod b := by
  rw [show a - b = ofNat (a.val + (order - b.val)) from rfl, toZMod_ofNat, Nat.cast_add,
    Nat.cast_sub b.val_lt.le, ZMod.natCast_self, zero_sub, ← sub_eq_add_neg, toZMod, toZMod]

/-- Squaring and multiplying makes a power. -/
theorem toZMod_mulPow (acc base : Scalar) (e : ℕ) :
    toZMod (mulPow acc base e) = toZMod acc * toZMod base ^ e := by
  induction e using Nat.strong_induction_on generalizing acc base with
  | _ e ih =>
    rw [mulPow]
    by_cases h0 : e = 0
    · rw [if_pos h0, h0, pow_zero, mul_one]
    rw [if_neg h0, ih (e / 2) (Nat.div_lt_self (by omega) (by omega)), toZMod_mul, ← sq, ← pow_mul]
    by_cases hodd : e % 2 = 1
    · have he : e = 2 * (e / 2) + 1 := by omega
      rw [if_pos hodd, toZMod_mul, mul_assoc, ← pow_succ', ← he]
    · have he : e = 2 * (e / 2) := by omega
      rw [if_neg hodd, ← he]

/-- The power that computes an inverse is the inverse, of zero too. -/
theorem toZMod_inv (a : Scalar) : toZMod a⁻¹ = (toZMod a)⁻¹ := by
  have htwo : 2 < order := by decide
  rw [show a⁻¹ = mulPow 1 a (order - 2) from rfl, toZMod_mulPow, toZMod_one, one_mul]
  by_cases h0 : toZMod a = 0
  · rw [h0, inv_zero, zero_pow (Nat.sub_ne_zero_of_lt htwo)]
  · refine eq_inv_of_mul_eq_one_left ?_
    rw [← pow_succ, show order - 2 + 1 = order - 1 by omega, ZMod.pow_card_sub_one_eq_one h0]

instance : CommRing Scalar where
  add_assoc a b c := toZMod_injective (by simp only [toZMod_add, add_assoc])
  zero_add a := toZMod_injective (by rw [toZMod_add, toZMod_zero, zero_add])
  add_zero a := toZMod_injective (by rw [toZMod_add, toZMod_zero, add_zero])
  add_comm a b := toZMod_injective (by rw [toZMod_add, toZMod_add, add_comm])
  mul_assoc a b c := toZMod_injective (by simp only [toZMod_mul, mul_assoc])
  one_mul a := toZMod_injective (by rw [toZMod_mul, toZMod_one, one_mul])
  mul_one a := toZMod_injective (by rw [toZMod_mul, toZMod_one, mul_one])
  mul_comm a b := toZMod_injective (by rw [toZMod_mul, toZMod_mul, mul_comm])
  zero_mul a := toZMod_injective (by rw [toZMod_mul, toZMod_zero, zero_mul])
  mul_zero a := toZMod_injective (by rw [toZMod_mul, toZMod_zero, mul_zero])
  left_distrib a b c := toZMod_injective (by simp only [toZMod_add, toZMod_mul, mul_add])
  right_distrib a b c := toZMod_injective (by simp only [toZMod_add, toZMod_mul, add_mul])
  neg_add_cancel a := toZMod_injective (by
    rw [toZMod_add, toZMod_neg, toZMod_zero, neg_add_cancel])
  sub_eq_add_neg a b := toZMod_injective (by
    rw [toZMod_sub, toZMod_add, toZMod_neg, sub_eq_add_neg])
  natCast_zero := rfl
  natCast_succ n := toZMod_injective (by
    rw [toZMod_natCast, toZMod_add, toZMod_natCast, toZMod_one, Nat.cast_succ])
  nsmul := nsmulRec
  zsmul := zsmulRec

instance : Field Scalar where
  exists_pair_ne := ⟨0, 1, fun h => by
    have hzero := congrArg toZMod h
    rw [toZMod_zero, toZMod_one] at hzero
    exact zero_ne_one hzero⟩
  mul_inv_cancel a ha := toZMod_injective (by
    have hne : toZMod a ≠ 0 := fun h => ha (toZMod_injective (h.trans toZMod_zero.symm))
    rw [toZMod_mul, toZMod_inv, toZMod_one, mul_inv_cancel₀ hne])
  inv_zero := toZMod_injective (by rw [toZMod_inv, toZMod_zero, inv_zero])
  nnqsmul := _
  qsmul := _

/-- There are as many scalars as the order says. -/
theorem card_eq : Nat.card Scalar = order := by
  have e : Scalar ≃ Fin order :=
    ⟨fun a => ⟨a.val, a.val_lt⟩, fun i => ⟨i.val, i.isLt⟩, fun _ => rfl, fun _ => rfl⟩
  rw [Nat.card_congr e, Nat.card_eq_fintype_card, Fintype.card_fin]

end Scalar

end ConfidentialCoin.Ristretto
