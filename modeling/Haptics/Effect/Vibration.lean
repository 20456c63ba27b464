import Haptics.Effect.Pattern
import Haptics.Effect.Curve

/-!
# Effects and vibrations

An effect is what one actuator plays: a pattern, or an opaque vendor payload. A vibration gives
effects to actuators, either one effect to all of them or one to each.
-/

namespace Haptics

/-- The number by which an actuator is known. -/
abbrev ActuatorId := Int

/-- A payload only the vendor's hardware understands. -/
structure Vendor (R : Type) where
  data : List Nat
  strength : Strength
  scale : R
  adaptiveScale : R
deriving Repr, Inhabited

/-- What one actuator plays. -/
inductive Effect (R : Type)
  | pattern (p : Pattern R)
  | vendor (v : Vendor R)
deriving Inhabited

namespace Effect
variable {R : Type}

/-- How long the effect lasts, if that is known before it is played. -/
def duration? : Effect R → Option Nat
  | pattern p => p.duration?
  | vendor _ => none

/-- Replaces the device default amplitude by a level. -/
def resolve (default : R) : Effect R → Effect R
  | pattern p => pattern (p.map (·.resolve default))
  | vendor v => vendor v

def withStrength (strength : Strength) : Effect R → Effect R
  | pattern p => pattern (p.map (·.withStrength strength))
  | vendor v => vendor { v with strength }

/-- Scales by a factor through a curve on amplitudes. A vendor payload only notes the factor. -/
def scaleWith (curve : R → R → R) (factor : R) : Effect R → Effect R
  | pattern p => pattern (p.map (·.mapAmplitudes (curve · factor)))
  | vendor v => vendor { v with scale := factor }

/-- Scales perceived intensity. -/
def scale [PerceptualLevel R] (factor : R) : Effect R → Effect R :=
  scaleWith Curve.perceptual factor

/-- Scales amplitudes in proportion. -/
def scaleLinearly [Level R] (factor : R) : Effect R → Effect R := scaleWith Curve.linear factor

/-- Scales amplitudes in proportion, on top of an earlier scale. -/
def scaleAdaptively [Level R] (factor : R) : Effect R → Effect R
  | pattern p => pattern (p.map (·.mapAmplitudes (Curve.linear · factor)))
  | vendor v => vendor { v with adaptiveScale := factor }

end Effect

/-- Effects for one or many actuators. -/
inductive Vibration (R : Type)
  /-- The same effect for every actuator. -/
  | mono (e : Effect R)
  /-- One effect for each of some actuators, in the order in which they were named. -/
  | stereo (entries : List (ActuatorId × Effect R))
deriving Inhabited

namespace Vibration
variable {R : Type}

/-- Sets the effect of an entry in its place, or adds an entry at the end. -/
def setEntry (id : ActuatorId) (e : Effect R) :
    List (ActuatorId × Effect R) → List (ActuatorId × Effect R)
  | [] => [(id, e)]
  | x :: xs => if x.1 = id then (id, e) :: xs else x :: setEntry id e xs

/-- Gives an actuator of a stereo vibration an effect. A mono vibration stays as it is. -/
def withActuator (id : ActuatorId) (e : Effect R) : Vibration R → Vibration R
  | mono m => mono m
  | stereo entries => stereo (setEntry id e entries)

def isEmpty : Vibration R → Bool
  | mono _ => false
  | stereo entries => entries.isEmpty

/-- The effects by actuator: of a mono vibration one for each available actuator, of a stereo
vibration the ones it names. -/
def expand (available : List ActuatorId) : Vibration R → List (ActuatorId × Effect R)
  | mono e => available.map (·, e)
  | stereo entries => entries

end Vibration
end Haptics
