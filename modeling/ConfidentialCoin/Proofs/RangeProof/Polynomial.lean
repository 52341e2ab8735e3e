import ConfidentialCoin.Proofs.RangeProof.Slots
import ConfidentialCoin.RangeProof.Polynomials

/-!
# The inner product as a polynomial

The vectors `l(X)` and `r(X)` of a proof by their entries, for arbitrary entries `aL`, `aR` and
blindings `sL`, `sR`: `⟨l(x), r(x)⟩` is `constantTerm + linearTerm * x + quadraticTerm * x²`
(`sum_left_mul_right`), and these are the coefficients that `VectorPolynomials` computes.

The constant coefficient is where the range is checked. It splits, by powers of `y` and `z`, into

* `∑ yⁱ * aLᵢ * aRᵢ`, the products that must vanish,
* `z * ∑ yⁱ * (aLᵢ - aRᵢ - 1)`, the differences that must be one,
* `∑ z ^ (2 + j) * ∑ aL * 2 ^ b`, the weighted entries of each slot,
* `deltaAt y z`, what the challenges alone determine.

That is `constantTerm_eq`. For bits the first two vanish and the third adds up the values
(`constantTerm_bits`); a proof with other entries passes only if it makes up for them for every
challenge.
-/

namespace ConfidentialCoin

open Finset

variable {F : Type} [Field F]

/-- The part of the constant coefficient that the challenges determine,
`(z - z²) * ∑ yⁱ - z * ∑ z ^ (2 + j) * (2 ^ 64 - 1)`. -/
def deltaAt (y z : F) (slots : ℕ) : F :=
  (z - z * z) * ∑ i ∈ range (valueBits * slots), y ^ i -
    z * (∑ j ∈ range slots, z ^ (2 + j)) * ((UInt64.size - 1 : ℕ) : F)

/-! ### Entries and coefficients -/

section Terms

variable (y z : F) (n : ℕ) (aL aR sL sR : ℕ → F)

/-- Entry `i` of `r(0)`. -/
def rightConstant (i : ℕ) : F := y ^ i * (aR i + z) + weightAt z i

/-- Entry `i` of `l(x)`. -/
def leftEntry (x : F) (i : ℕ) : F := (aL i - z) + sL i * x

/-- Entry `i` of `r(x)`. -/
def rightEntry (x : F) (i : ℕ) : F := rightConstant y z aR i + y ^ i * sR i * x

/-- The constant coefficient of the inner product. -/
def constantTerm : F := ∑ i ∈ range n, (aL i - z) * rightConstant y z aR i

/-- The linear coefficient of the inner product. -/
def linearTerm : F :=
  ∑ i ∈ range n, (aL i - z) * (y ^ i * sR i) + ∑ i ∈ range n, sL i * rightConstant y z aR i

/-- The quadratic coefficient of the inner product. -/
def quadraticTerm : F := ∑ i ∈ range n, sL i * (y ^ i * sR i)

/-- The inner product of the two vectors at `x` is a polynomial of degree two. -/
theorem sum_left_mul_right (x : F) :
    ∑ i ∈ range n, leftEntry z aL sL x i * rightEntry y z aR sR x i =
      constantTerm y z n aL aR + linearTerm y z n aL aR sL sR * x +
        quadraticTerm y n sL sR * (x * x) := by
  simp only [constantTerm, linearTerm, quadraticTerm, sum_mul, add_mul, ← sum_add_distrib]
  refine sum_congr rfl fun i _ => ?_
  rw [leftEntry, rightEntry]
  ring

end Terms

/-! ### What is computed -/

namespace VectorPolynomials

variable (y z : F) (n : ℕ) (aL aR sL sR : ℕ → F)

/-- The vectors of polynomials with the given entries. -/
def ofEntries : VectorPolynomials F :=
  ⟨table n fun i => aL i - z, table n sL, table n (rightConstant y z aR),
    table n fun i => y ^ i * sR i⟩

/-- The vectors of the polynomials, by their entries. -/
theorem ofBits_table :
    ofBits y z n (table n (weightAt z)) (table n aL) (table n sL) (table n sR) =
      .ok (ofEntries y z n aL (fun i => aL i - 1) sL sR) := by
  rw [ofBits, ScalarVector.powers_eq_table, ScalarVector.addScalar_table,
    ScalarVector.addScalar_table, ScalarVector.addScalar_table, ScalarVector.hadamard_table]
  simp only [bind, Except.bind]
  rw [ScalarVector.add_table, ScalarVector.hadamard_table]
  simp only [← sub_eq_add_neg]
  rfl

theorem linear_ofEntries :
    (ofEntries y z n aL aR sL sR).linear = .ok (linearTerm y z n aL aR sL sR) := by
  rw [linear, ofEntries, ScalarVector.innerProduct_table, ScalarVector.innerProduct_table]
  rfl

theorem quadratic_ofEntries :
    (ofEntries y z n aL aR sL sR).quadratic = .ok (quadraticTerm y n sL sR) := by
  rw [quadratic, ofEntries, ScalarVector.innerProduct_table]
  rfl

/-- The two vectors at a challenge. -/
theorem eval_ofEntries (x : F) : (ofEntries y z n aL aR sL sR).eval x =
    .ok (table n (leftEntry z aL sL x), table n (rightEntry y z aR sR x)) := by
  rw [eval, ofEntries, ScalarVector.mulScalar_table, ScalarVector.mulScalar_table,
    ScalarVector.add_table, ScalarVector.add_table]
  rfl

end VectorPolynomials

/-! ### The constant coefficient -/

/-- The weights of the bits of all slots add up to `2 ^ 64 - 1` in each. -/
theorem sum_weightAt (z : F) (slots : ℕ) :
    ∑ i ∈ range (valueBits * slots), weightAt z i =
      (∑ j ∈ range slots, z ^ (2 + j)) * ((UInt64.size - 1 : ℕ) : F) := by
  rw [sum_slots, sum_mul]
  refine sum_congr rfl fun j _ => ?_
  rw [← sum_two_pow, mul_sum]
  refine sum_congr rfl fun b hb => ?_
  rw [weightAt, slot_of_entry j (mem_range.mp hb), bit_of_entry j (mem_range.mp hb)]

/-- The weighted entries, slot by slot. -/
theorem sum_mul_weightAt (z : F) (slots : ℕ) (aL : ℕ → F) :
    ∑ i ∈ range (valueBits * slots), aL i * weightAt z i =
      ∑ j ∈ range slots, z ^ (2 + j) * slotValue aL j := by
  rw [sum_slots]
  refine sum_congr rfl fun j _ => ?_
  rw [slotValue, mul_sum]
  refine sum_congr rfl fun b hb => ?_
  rw [weightAt, slot_of_entry j (mem_range.mp hb), bit_of_entry j (mem_range.mp hb)]
  ring

/-- **The constant coefficient**, by powers of the challenges. -/
theorem constantTerm_eq (y z : F) (slots : ℕ) (aL aR : ℕ → F) :
    constantTerm y z (valueBits * slots) aL aR =
      ∑ i ∈ range (valueBits * slots), y ^ i * (aL i * aR i) +
        z * ∑ i ∈ range (valueBits * slots), y ^ i * (aL i - aR i - 1) +
        ∑ j ∈ range slots, z ^ (2 + j) * slotValue aL j + deltaAt y z slots := by
  have hexpand : constantTerm y z (valueBits * slots) aL aR =
      ∑ i ∈ range (valueBits * slots), y ^ i * (aL i * aR i) +
        z * ∑ i ∈ range (valueBits * slots), y ^ i * (aL i - aR i - 1) +
        ∑ i ∈ range (valueBits * slots), aL i * weightAt z i +
        ((z - z * z) * ∑ i ∈ range (valueBits * slots), y ^ i -
          z * ∑ i ∈ range (valueBits * slots), weightAt z i) := by
    simp only [constantTerm, mul_sum, ← sum_add_distrib, ← sum_sub_distrib]
    refine sum_congr rfl fun i _ => ?_
    rw [rightConstant]
    ring
  rw [hexpand, sum_weightAt, sum_mul_weightAt, deltaAt, mul_assoc z]

/-- For the bits of values the constant coefficient is the sum of the weighted values, and
`deltaAt`. -/
theorem constantTerm_bits (y z : F) (slots : ℕ) (values : List UInt64) :
    constantTerm y z (valueBits * slots) (bitAt F values) (fun i => bitAt F values i - 1) =
      ∑ j ∈ range slots, z ^ (2 + j) * ((values.getD j 0).toNat : F) + deltaAt y z slots := by
  have hproduct : ∀ i, y ^ i * (bitAt F values i * (bitAt F values i - 1)) = 0 := by
    intro i
    rw [bitAt_mul_pred, mul_zero]
  have hdifference : ∀ i, y ^ i * (bitAt F values i - (bitAt F values i - 1) - 1) = 0 := by
    intro i
    ring
  simp only [constantTerm_eq, hproduct, hdifference, sum_const_zero, mul_zero, zero_add,
    slotValue_bitAt]

end ConfidentialCoin
