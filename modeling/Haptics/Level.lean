/-!
# Levels

Amplitudes, frequencies and scale factors are numbers of one type `R`. The library computes with
them only through the operations collected here, so it runs on binary32 and can be reasoned about
on exact rationals.
-/

namespace Haptics

/-- Numbers that amplitudes and frequencies are measured in. -/
class Level (R : Type) extends
    Zero R, One R, Add R, Sub R, Mul R, Div R, Neg R, LT R, LE R, BEq R, NatCast R where
  decideLT (a b : R) : Decidable (a < b)
  decideLE (a b : R) : Decidable (a ≤ b)

namespace Level
variable {R : Type} [Level R]

instance (a b : R) : Decidable (a < b) := decideLT a b

instance (a b : R) : Decidable (a ≤ b) := decideLE a b

/-- The level nearest to a quotient of small natural numbers. -/
def ratio (a b : Nat) : R := (a : R) / (b : R)

/-- The amplitude below which a motor counts as off while ramping down. -/
def faint : R := ratio 1 1000

/-- The amplitude reported for a motor that is active but has no programmed amplitude. -/
def unset : R := -1

/-- `x` moved into the unit interval. A value that compares with nothing stays as it is. -/
def clampUnit (x : R) : R :=
  if x < 0 then 0 else if (1 : R) < x then 1 else x

/-- The point a fraction `t` of the way from `a` to `b`. -/
def between (a b t : R) : R := a + (b - a) * t

end Level

/-- Levels that also have the transcendental functions of the perceptual scaling curve. -/
class PerceptualLevel (R : Type) extends Level R where
  pow : R → R → R
  exp : R → R

end Haptics
