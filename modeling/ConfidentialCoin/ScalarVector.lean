import ConfidentialCoin.Error

/-!
# Vectors of scalars

A vector is a list of scalars. Operations on two vectors want them of one length and answer
`Error.lengthMismatch` otherwise; they never drop entries.

* `length_powers`, `length_bits`: the lengths of the two families of vectors.
* `add_eq_ok_iff`, `hadamard_eq_ok_iff`, `innerProduct_eq_ok_iff`: success is equality of lengths.
-/

namespace ConfidentialCoin

/-- A vector of scalars. -/
abbrev ScalarVector (F : Type) := List F

namespace ScalarVector

variable {F : Type}

/-- The vector of `n` zeros. -/
def zeros [Zero F] (n : Nat) : ScalarVector F := List.replicate n 0

/-- The vector `start, start * base, …` of `n` entries. -/
def geometric [Mul F] (base : F) : (n : Nat) → (start : F) → ScalarVector F
  | 0, _ => []
  | n + 1, start => start :: geometric base n (start * base)

/-- The vector `1, base, base², …` of `n` entries. -/
def powers [One F] [Mul F] (base : F) (n : Nat) : ScalarVector F := geometric base n 1

/-- The lowest `width` bits of a value as zeros and ones, lowest first; there are none above the
64th. -/
def bits [Zero F] [One F] (value : UInt64) (width : Nat) : ScalarVector F :=
  (List.range width).map fun i => if value.toNat.testBit i then 1 else 0

@[simp] theorem length_geometric [Mul F] (base : F) (n : Nat) (start : F) :
    (geometric base n start).length = n := by
  induction n generalizing start with
  | zero => rfl
  | succ n ih => simp [geometric, ih]

@[simp] theorem length_powers [One F] [Mul F] (base : F) (n : Nat) :
    (powers base n).length = n := length_geometric ..

@[simp] theorem length_bits [Zero F] [One F] (value : UInt64) (width : Nat) :
    (bits value width : ScalarVector F).length = width := by
  simp [bits]

/-! ### Entrywise operations -/

/-- The entries of two vectors of one length, joined by `f`. -/
def zipWith? (f : F → F → F) (a b : ScalarVector F) : Except Error (ScalarVector F) :=
  if a.length = b.length then .ok (List.zipWith f a b)
  else .error (.lengthMismatch a.length b.length)

/-- Sum of vectors. -/
def add [Add F] (a b : ScalarVector F) : Except Error (ScalarVector F) := zipWith? (· + ·) a b

/-- Entrywise product of vectors. -/
def hadamard [Mul F] (a b : ScalarVector F) : Except Error (ScalarVector F) :=
  zipWith? (· * ·) a b

/-- Adds a scalar to every entry. -/
def addScalar [Add F] (a : ScalarVector F) (s : F) : ScalarVector F := a.map (· + s)

/-- Multiplies every entry by a scalar. -/
def mulScalar [Mul F] (a : ScalarVector F) (s : F) : ScalarVector F := a.map (· * s)

/-- The sum of the products of entries in the same places. -/
def innerProduct [Zero F] [Add F] [Mul F] (a b : ScalarVector F) : Except Error F :=
  if a.length = b.length then .ok (List.zipWith (· * ·) a b).sum
  else .error (.lengthMismatch a.length b.length)

/-- The entries before `mid` and the entries from `mid` on. -/
def splitAt? (a : ScalarVector F) (mid : Nat) :
    Except Error (ScalarVector F × ScalarVector F) :=
  if mid ≤ a.length then .ok (a.take mid, a.drop mid)
  else .error (.lengthMismatch mid a.length)

/-- An operation on two vectors asks for one length, and for nothing else. -/
theorem zipWith?_eq_ok_iff {f : F → F → F} {a b c : ScalarVector F} :
    zipWith? f a b = .ok c ↔ a.length = b.length ∧ List.zipWith f a b = c := by
  unfold zipWith?
  split <;> simp_all

theorem add_eq_ok_iff [Add F] {a b c : ScalarVector F} :
    add a b = .ok c ↔ a.length = b.length ∧ List.zipWith (· + ·) a b = c := zipWith?_eq_ok_iff

theorem hadamard_eq_ok_iff [Mul F] {a b c : ScalarVector F} :
    hadamard a b = .ok c ↔ a.length = b.length ∧ List.zipWith (· * ·) a b = c :=
  zipWith?_eq_ok_iff

theorem innerProduct_eq_ok_iff [Zero F] [Add F] [Mul F] {a b : ScalarVector F} {c : F} :
    innerProduct a b = .ok c ↔
      a.length = b.length ∧ (List.zipWith (· * ·) a b).sum = c := by
  unfold innerProduct
  split <;> simp_all

@[simp] theorem length_addScalar [Add F] (a : ScalarVector F) (s : F) :
    (a.addScalar s).length = a.length := List.length_map ..

@[simp] theorem length_mulScalar [Mul F] (a : ScalarVector F) (s : F) :
    (a.mulScalar s).length = a.length := List.length_map ..

end ScalarVector

end ConfidentialCoin
