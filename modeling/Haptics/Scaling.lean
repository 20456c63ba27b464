import Haptics.Tuning
import Haptics.Effect.Vibration

/-!
# Scaling

How the user's intensity settings change an effect. The scale level of a usage is the distance from
the default intensity to the current one; at the default intensity nothing is scaled.
-/

namespace Haptics

/-- The distance between two intensities. -/
inductive ScaleLevel
  | veryLow | low | none | high | veryHigh
deriving DecidableEq, Repr

namespace ScaleLevel

def ofDelta? : Int → Option ScaleLevel
  | -2 => some veryLow
  | -1 => some low
  | 0 => some none
  | 1 => some high
  | 2 => some veryHigh
  | _ => .none

def delta : ScaleLevel → Int
  | veryLow => -2
  | low => -1
  | none => 0
  | high => 1
  | veryHigh => 2

def title : ScaleLevel → String
  | veryLow => "VeryLow"
  | low => "Low"
  | none => "None"
  | high => "High"
  | veryHigh => "VeryHigh"

/-- The factor of a level in table mode. -/
def tableFactor {R : Type} [Level R] : ScaleLevel → R
  | veryLow => Level.ratio 6 10
  | low => Level.ratio 8 10
  | none => 1
  | high => Level.ratio 12 10
  | veryHigh => Level.ratio 14 10

end ScaleLevel

/-- The settings of a device together with what the user chose. -/
structure Scaling (R : Type) where
  tuning : Tuning R
  /-- The current intensity of a usage, if the user chose one. -/
  chosen : Usage → Option Intensity := fun _ => none
  /-- An extra scale of a usage that follows the surroundings. -/
  adaptive : Usage → Option R := fun _ => none

namespace Scaling
variable {R : Type}

def setIntensity (s : Scaling R) (u : Usage) (i : Intensity) : Scaling R :=
  { s with chosen := fun u' => if u' = u then some i else s.chosen u' }

def setAdaptive (s : Scaling R) (u : Usage) (x : Option R) : Scaling R :=
  { s with adaptive := fun u' => if u' = u then x else s.adaptive u' }

def clearAdaptive (s : Scaling R) : Scaling R := { s with adaptive := fun _ => none }

def defaultIntensity (s : Scaling R) (u : Usage) : Intensity := s.tuning.intensity u

def currentIntensity (s : Scaling R) (u : Usage) : Intensity :=
  (s.chosen u).getD (s.defaultIntensity u)

def level (s : Scaling R) (u : Usage) : ScaleLevel :=
  let current := s.currentIntensity u
  if current = .off then .none
  else (ScaleLevel.ofDelta? (current.level - (s.defaultIntensity u).level)).getD .none

/-- The strength of prebaked effects. Where the user switched a usage off, its default decides. -/
def strength (s : Scaling R) (u : Usage) : Strength :=
  let current := s.currentIntensity u
  match if current = .off then s.defaultIntensity u else current with
  | .low => .light
  | .medium => .medium
  | .high | .off => .strong

variable [PerceptualLevel R]

def adaptiveScale (s : Scaling R) (u : Usage) : R := (s.adaptive u).getD 1

/-- The factor of a scale level. -/
def levelFactor (s : Scaling R) (level : ScaleLevel) : R :=
  match s.tuning.scaleMode, level with
  | .table, _ => level.tableFactor
  | .exponential, .none => 1
  | .exponential, _ =>
    let factor := Curve.power s.tuning.gain level.delta
    if 0 < factor then factor else 1

/-- The scale factor of a usage. The factors of the device win over the scale level. -/
def factor (s : Scaling R) (u : Usage) (external : Bool) : R :=
  let current := s.currentIntensity u
  if current = .off then 1
  else
    let levelFactor := s.levelFactor (s.level u)
    if external then s.tuning.externalFactor current levelFactor
    else s.tuning.factor current levelFactor

/-- Resolves default amplitudes, sets strengths and scales an effect for a usage. -/
def scale (s : Scaling R) (u : Usage) (e : Effect R) : Effect R :=
  let factor := s.factor u false
  let resolved := (e.resolve s.tuning.amplitude).withStrength (s.strength u)
  let scaled :=
    if s.tuning.scaleMode = .table ∧ s.tuning.hasFactors then resolved.scaleLinearly factor
    else resolved.scale factor
  scaled.scaleAdaptively (s.adaptiveScale u)

end Scaling
end Haptics
