import Haptics.Level

/-!
# Scaling curves

How a scale factor changes an amplitude in the unit interval.
-/

namespace Haptics.Curve
variable {R : Type}

/-- Amplitudes in proportion to the factor. -/
def linear [Level R] (amplitude factor : R) : R := Level.clampUnit (amplitude * factor)

/-- The exponent that makes perceived intensity linear. -/
def gamma [Level R] : R := Level.ratio 65 100

/-- Perceived intensity in proportion to the factor. Scaling down multiplies by the gamma-corrected
factor; scaling up follows a hyperbolic tangent that meets full scale at full scale, so amplitudes
converge to it instead of being cut off. -/
def perceptual [PerceptualLevel R] (amplitude factor : R) : R :=
  let scale := PerceptualLevel.pow factor (1 / gamma)
  if factor ≤ 1 then Level.clampUnit (amplitude * scale)
  else
    let extra := PerceptualLevel.pow factor (((4 : Nat) : R) - factor)
    let x := amplitude * scale * extra
    let top := scale * extra
    let expX := PerceptualLevel.exp x
    let expTop := PerceptualLevel.exp top
    let a := (expTop + 1) / (expTop - 1)
    let fx := (expX - 1) / (expX + 1)
    Level.clampUnit (a * fx)

/-- `r · a ^ n`, multiplying a bit of `n` at a time from the lowest. -/
def squaring [Level R] (r a : R) (n : Nat) : R :=
  let r := if n % 2 = 1 then r * a else r
  if n / 2 = 0 then r else squaring r (a * a) (n / 2)
termination_by n

/-- `gain` to the power `n` by repeated squaring. A negative power is one over the positive one. -/
def power [Level R] (gain : R) (n : Int) : R :=
  let r := squaring 1 gain n.natAbs
  if n < 0 then 1 / r else r

end Haptics.Curve
