import Haptics.Table
import Haptics.Effect.Vibration
import Haptics.Actuator.Capability

/-!
# Profiles

What is known about an actuator: its abilities, the effects and primitives it has, its limits.
-/

namespace Haptics

/-- The band of frequencies that an actuator plays. -/
structure Band (R : Type) where
  resonance : Option R
  low : R
  high : R
deriving Repr

/-- Whether an actuator has a prebaked effect. -/
inductive Support
  | yes
  | no
  /-- The actuator does not say which effects it has. -/
  | unknown
deriving DecidableEq, Repr

def Support.name : Support → String
  | yes => "yes"
  | no => "no"
  | unknown => "unknown"

/-- What is known about an actuator. A limit of zero is no limit. -/
structure Profile (R : Type) where
  id : ActuatorId
  capabilities : Flags Capability
  /-- The duration of each prebaked effect, if the actuator says which it has. -/
  effects : Option (Table EffectId Nat)
  /-- The duration of each primitive. -/
  primitives : Table PrimitiveId Nat
  primitiveDelayMax : Nat
  /-- The most primitives in one composition. -/
  compositionMax : Nat
  /-- The most ramps in one call. -/
  rampsMax : Nat
  /-- The longest ramp. -/
  rampMsMax : Nat
  /-- The most control points in one envelope. -/
  envelopeMax : Nat
  qFactor : Option R
  band : Band R

variable {R : Type}

namespace Band
variable [Level R]

/-- A band counts only if it is a range of positive frequencies. -/
def isValid (b : Band R) : Bool := decide (0 < b.low) && decide (b.low ≤ b.high)

def contains (b : Band R) (hz : R) : Bool :=
  b.isValid && decide (b.low ≤ hz) && decide (hz ≤ b.high)

end Band

namespace Profile

/-- The profile of an actuator about which nothing is known. -/
def degraded [Level R] (id : ActuatorId) : Profile R where
  id
  capabilities := .empty
  effects := none
  primitives := {}
  primitiveDelayMax := 0
  compositionMax := 0
  rampsMax := 0
  rampMsMax := 0
  envelopeMax := 0
  qFactor := none
  band := ⟨none, 0, 0⟩

def can (p : Profile R) (c : Capability) : Bool := p.capabilities.has c

def support (p : Profile R) (e : EffectId) : Support :=
  match p.effects with
  | none => .unknown
  | some table => if table.contains e then .yes else .no

/-- The duration of a prebaked effect, zero where the actuator does not have it. -/
def effectMs (p : Profile R) (e : EffectId) : Nat := ((p.effects.bind (·.find? e))).getD 0

def supportsPrimitive (p : Profile R) (x : PrimitiveId) : Bool :=
  p.can .composeEffects && p.primitives.contains x

/-- The duration of a primitive, zero where the actuator does not have it. -/
def primitiveMs (p : Profile R) (x : PrimitiveId) : Nat := (p.primitives.find? x).getD 0

/-- The duration of a composition, delays included. -/
def compositionMs (p : Profile R) (xs : List (Primitive R)) : Nat :=
  totalMs (xs.map fun x => p.primitiveMs x.id + x.delay)

end Profile
end Haptics
