import ConfidentialCoin.InnerProduct.Argument

/-!
# Aggregated range proofs

One proof covers the values of several commitments. It holds the commitments themselves, the
commitments `A`, `S` to the bits and their blindings, the commitments `T1`, `T2` to the
coefficients of the inner product as a polynomial, the values at the challenge, and the argument
for the inner product.
-/

namespace ConfidentialCoin

/-- A proof that the values of commitments lie in range, under one asset tag. -/
structure RangeProof (F G : Type) where
  /-- The commitments to the values. -/
  commitments : List G
  /-- The commitment to the bits. -/
  a : G
  /-- The commitment to the blindings of the bits. -/
  s : G
  /-- The commitment to the linear coefficient. -/
  t1 : G
  /-- The commitment to the quadratic coefficient. -/
  t2 : G
  /-- The blinding of the inner product at the challenge. -/
  tauX : F
  /-- The inner product at the challenge. -/
  tHat : F
  /-- The blinding of the bits at the challenge. -/
  mu : F
  /-- The argument for the inner product. -/
  argument : InnerProductProof F G
deriving DecidableEq

end ConfidentialCoin
