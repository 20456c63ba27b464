import Haptics.Level
import Haptics.Effect.Attributes
import Haptics.Effect.Identifier

/-!
# Segments

A segment is one piece of a pattern: an amplitude hold, a hardware effect, a primitive, or a sweep
between two points in one of three encodings. Only holds and sweeps know how long they last.
-/

namespace Haptics

/-- The amplitude of a hold. -/
inductive Amplitude (R : Type)
  /-- Stands for the amplitude that the device is configured with. -/
  | deviceDefault
  /-- A level, where zero means that the motor is off. -/
  | level (x : R)
deriving Repr, Inhabited

/-- An amplitude kept for a while. A frequency of zero leaves it to the motor. -/
structure Hold (R : Type) where
  amplitude : Amplitude R
  hz : R
  ms : Nat
deriving Repr, Inhabited

/-- An effect stored in the hardware. -/
structure Prebaked where
  effect : EffectId
  strength : Strength
  /-- Whether a configured composition may replace the effect where it is not supported. -/
  replaceable : Bool
deriving DecidableEq, Repr, Inhabited

/-- One primitive of a composition. -/
structure Primitive (R : Type) where
  id : PrimitiveId
  scale : R
  delay : Nat
deriving Repr, Inhabited

/-- A straight line from one amplitude and frequency to another. -/
structure Sweep (R : Type) where
  startAmplitude : R
  endAmplitude : R
  startHz : R
  endHz : R
  ms : Nat
deriving Repr, Inhabited

/-- A corner of an envelope: what is reached after `ms` more milliseconds. -/
structure ControlPoint (R : Type) where
  amplitude : R
  hz : R
  ms : Nat
deriving Repr, Inhabited

/-- One piece of a pattern. -/
inductive Segment (R : Type)
  | hold (h : Hold R)
  | prebaked (p : Prebaked)
  | primitive (p : Primitive R)
  /-- A sweep that motors with ramp support play. -/
  | ramp (s : Sweep R)
  /-- A sweep that motors with envelope support play. -/
  | envelope (s : Sweep R)
  /-- A sweep in perceptual units, intensity and sharpness. No motor plays it. -/
  | basic (s : Sweep R)
deriving Repr, Inhabited

variable {R : Type}

namespace Amplitude
variable [Level R]

/-- The level of an amplitude, the device default counting as full scale. -/
def value : Amplitude R → R
  | deviceDefault => 1
  | level x => x

def isZero : Amplitude R → Bool
  | deviceDefault => false
  | level x => x == 0

omit [Level R] in
def map (f : R → R) : Amplitude R → Amplitude R
  | deviceDefault => deviceDefault
  | level x => level (f x)

omit [Level R] in
/-- Replaces the device default by a level. -/
def resolve (default : R) : Amplitude R → Amplitude R
  | deviceDefault => level default
  | level x => level x

end Amplitude

namespace Sweep

def mapAmplitudes (f : R → R) (s : Sweep R) : Sweep R :=
  { s with startAmplitude := f s.startAmplitude, endAmplitude := f s.endAmplitude }

end Sweep

namespace Segment

/-- How long the segment lasts, if that is known before it is played. -/
def duration? : Segment R → Option Nat
  | hold h => some h.ms
  | ramp s | envelope s | basic s => some s.ms
  | prebaked _ | primitive _ => none

/-- Replaces the device default amplitude by a level. -/
def resolve (default : R) : Segment R → Segment R
  | hold h => hold { h with amplitude := h.amplitude.resolve default }
  | s => s

/-- Sets the strength of a prebaked effect. -/
def withStrength (strength : Strength) : Segment R → Segment R
  | prebaked p => prebaked { p with strength }
  | s => s

/-- Applies `f` to every amplitude that the segment states. -/
def mapAmplitudes (f : R → R) : Segment R → Segment R
  | hold h => hold { h with amplitude := h.amplitude.map f }
  | prebaked p => prebaked p
  | primitive p => primitive { p with scale := f p.scale }
  | ramp s => ramp (s.mapAmplitudes f)
  | envelope s => envelope (s.mapAmplitudes f)
  | basic s => basic (s.mapAmplitudes f)

end Segment
end Haptics
