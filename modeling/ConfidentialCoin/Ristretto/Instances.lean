import ConfidentialCoin.Group
import ConfidentialCoin.Ristretto.Encoding

/-!
# Ristretto255 as the group of the protocols

The classes of `ConfidentialCoin.Group` for the group of prime order with its canonical encoding.
Strings are hashed with SHA-512, to a scalar by reduction and to an element by the map from the
field into the group.
-/

namespace ConfidentialCoin.Ristretto

instance : Encoding Point := ⟨Point.encode, Point.decode?⟩

instance : Encoding Scalar := ⟨Scalar.toBytes, Scalar.ofBytes?⟩

instance : LawfulEncoding Scalar := ⟨Scalar.ofBytes?_toBytes, Scalar.toBytes_of_ofBytes?⟩

instance : HashTarget Point := ⟨Point.hashTo⟩

instance : HashTarget Scalar := ⟨Scalar.hashTo⟩

instance : WideReduction Scalar := ⟨Scalar.ofWideBytes⟩

instance : BasePoint Point := ⟨Point.base⟩

instance : BaseMultiple Scalar Point := ⟨Point.mulBase⟩

instance : LinearCombination Scalar Point := ⟨Point.combine⟩

end ConfidentialCoin.Ristretto
