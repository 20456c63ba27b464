import Haptics.Level

/-!
# Rational levels

Exact level arithmetic, to compute with in proofs.
-/

namespace Haptics

instance : Level Rat where
  zero := 0
  one := 1
  natCast n := n
  decideLT _ _ := inferInstance
  decideLE _ _ := inferInstance

end Haptics
