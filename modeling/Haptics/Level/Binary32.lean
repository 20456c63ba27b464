import Haptics.Level
import Haptics.Text.Numeral

/-!
# Binary32 levels

The level arithmetic that runs: IEEE binary32, every operation rounded once to nearest.
-/

namespace Haptics

/-- The binary32 number nearest to a natural number. -/
def binary32OfNat (n : Nat) : Float32 :=
  if n < 18446744073709551616 then (UInt64.ofNat n).toFloat32 else Float32.ofNat n

instance : PerceptualLevel Float32 where
  zero := 0
  one := 1
  natCast := binary32OfNat
  decideLT _ _ := inferInstance
  decideLE _ _ := inferInstance
  pow := Float32.pow
  exp := Float32.exp

/-- A written number is rounded to binary64 first and to binary32 after that. -/
instance : Text.OfNumeral Float32 where
  ofNumeral
    | .nan => 0 / 0
    | .infinite negative => if negative then -1 / 0 else 1 / 0
    | .finite negative digits exponent =>
      let x := (Float.ofScientific digits (exponent < 0) exponent.natAbs).toFloat32
      if negative then -x else x

end Haptics
