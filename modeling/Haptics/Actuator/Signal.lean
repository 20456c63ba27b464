import Haptics.Actuator.Profile

/-!
# Signals

What an operation on an actuator shows to the outside: calls to the hardware, completions that the
hardware will report, and changes that observers hear about.
-/

namespace Haptics

/-- Why a hardware call failed. -/
inductive HardwareError
  | unsupported
  | failed (reason : String)
  | dead
deriving DecidableEq, Repr

namespace HardwareError

def message : HardwareError → String
  | unsupported => "operation not supported by the hardware"
  | failed reason => "hardware call failed: " ++ reason
  | dead => "remote hardware service died"

/-- The answer to a drive that failed: an unsupported one counts as skipped. -/
def driveResult : HardwareError → Int
  | unsupported => 0
  | failed _ | dead => -1

end HardwareError

/-- What an actuator can be told to play. -/
inductive Drive (R : Type)
  | hold (ms : Nat)
  | prebaked (p : Prebaked)
  | composition (ps : List (Primitive R))
  | ramps (rs : List (Sweep R))
  | envelope (points : List (ControlPoint R))
  | vendor (v : Vendor R)

/-- A call that reached the hardware of an actuator or of the group of actuators. -/
inductive Call (R : Type)
  | on (actuator : ActuatorId) (ms : Nat)
  | off (actuator : ActuatorId)
  | setAmplitude (actuator : ActuatorId) (amplitude : R)
  | setExternalControl (actuator : ActuatorId) (enabled : Bool)
  | perform (actuator : ActuatorId) (effect : EffectId) (strength : Strength)
  | compose (actuator : ActuatorId) (count : Nat)
  | composeRamps (actuator : ActuatorId) (count : Nat)
  | composeEnvelope (actuator : ActuatorId) (count : Nat)
  | performVendor (actuator : ActuatorId)
  | alwaysOn (actuator : ActuatorId) (slot : Int) (enabled : Bool)
  | prepare (ids : List ActuatorId)
  | trigger
  | cancelSync
  | startSession (ids : List ActuatorId)
  | endSession (abort : Bool)
  | clearSessions

/-- The call that a drive makes. -/
def Drive.call {R : Type} (actuator : ActuatorId) : Drive R → Call R
  | hold ms => .on actuator ms
  | prebaked p => .perform actuator p.effect p.strength
  | composition ps => .compose actuator ps.length
  | ramps rs => .composeRamps actuator rs.length
  | envelope points => .composeEnvelope actuator points.length
  | vendor _ => .performVendor actuator

/-- A completion on its way to whoever waits for it. -/
inductive Report
  /-- The drive of a step ended. -/
  | step (actuator : ActuatorId) (vibration step : Nat)
  /-- A group of actuators that started together ended. -/
  | synced (vibration : Nat)
  | session (id : Nat)
  /-- Nobody asked to be told. -/
  | unheard
deriving DecidableEq, Repr

/-- An observer hears whether an actuator is active. -/
structure Flip where
  observer : String
  actuator : ActuatorId
  active : Bool
deriving DecidableEq, Repr

/-- What an operation on an actuator shows to the outside. -/
inductive Signal (R : Type)
  | call (c : Call R)
  /-- What a call handed over beyond what the call itself says. -/
  | payload (actuator : ActuatorId) (x : Drive R)
  /-- A completion that arrives after a delay. -/
  | arm (delay : Nat) (r : Report)
  | flip (f : Flip)

end Haptics
