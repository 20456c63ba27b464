import Haptics.Hardware.Rig
import Haptics.Tuning
import Haptics.Conductor.Step

/-!
# The stage

What steps act on: the hardware and the counter of step numbers. The stage keeps a record of what
was done on it: every request to the hardware with its answer, and what the vibration told about
itself, in order.
-/

namespace Haptics

/-- What a vibration tells about itself. -/
inductive Telemetry
  | on (caller : Caller) (ms : Nat)
  | off (caller : Caller)
deriving DecidableEq, Repr

/-- Something that a vibration does. A request to the hardware comes with its answer. -/
inductive Deed (R : Type)
  /-- An actuator is to play something for a step. -/
  | drive (actuator : ActuatorId) (step : Nat) (x : Drive R) (answer : Int)
  | stop (actuator : ActuatorId)
  | setAmplitude (actuator : ActuatorId) (x : R) (ok : Bool)
  | prepare (ids : List ActuatorId) (ok : Bool)
  | trigger (ok : Bool)
  | cancelSync (ok : Bool)
  | tell (t : Telemetry)

def Deed.told? {R : Type} : Deed R → Option Telemetry
  | tell t => some t
  | _ => none

/-- What stays the same while a vibration plays. -/
structure Plan (R : Type) where
  vibration : Nat
  caller : Caller
  tuning : Tuning R

/-- What steps act on. -/
structure Stage (R : Type) where
  rig : Rig R
  nextStep : Nat := 1
  /-- The longest duration that was started, zero if nothing was, negative if the start failed. -/
  startResult : Option Int := none
  /-- What was done so far, and when. -/
  deeds : Array (Nat × Deed R) := #[]

/-- What playing a step leaves: the stage, the steps to do next, and the answer to its drive, zero
if it made none. -/
structure Played (R : Type) where
  stage : Stage R
  next : List (Step R) := []
  result : Int := 0

namespace Stage
variable {R : Type}

def now (s : Stage R) : Nat := s.rig.now

def record (s : Stage R) (d : Deed R) : Stage R := { s with deeds := s.deeds.push (s.now, d) }

/-- What was done so far. -/
def history (s : Stage R) : List (Deed R) := s.deeds.toList.map (·.2)

def telemetry (s : Stage R) : List Telemetry := s.history.filterMap Deed.told?

/-- Issues a step for an actuator under a new number. -/
def issue (s : Stage R) (start : StartTime) (actuator : ActuatorId) (deadline : Deadline)
    (task : Task R) : Step R × Stage R :=
  (.lane { id := s.nextStep, start, actuator, deadline } task,
    { s with nextStep := s.nextStep + 1 })

def tell (s : Stage R) (t : Telemetry) : Stage R := s.record (.tell t)

section
variable [Level R]

def stop (s : Stage R) (l : Lane) : Stage R :=
  { s with rig := s.rig.stop l.actuator }.record (.stop l.actuator)

/-- Drives the actuator of a lane, which then waits for the report. -/
def drive (s : Stage R) (plan : Plan R) (l : Lane) (x : Drive R) : Int × Lane × Stage R :=
  let (result, rig) := s.rig.drive l.actuator plan.vibration l.id x
  (result,
    { l with deadline := l.deadline.afterDrive s.now plan.tuning.grace l.id result },
    { s with rig }.record (.drive l.actuator l.id x result))

omit [Level R] in
/-- Programs an amplitude. An actuator that refuses plays on as it is. -/
def setAmplitude (s : Stage R) (l : Lane) (x : R) : Stage R :=
  let (ok, rig) := s.rig.setAmplitude l.actuator x
  { s with rig }.record (.setAmplitude l.actuator x ok)

end

/-- Prepares actuators for a common start that needs some abilities. Only a group that has them is
asked. -/
def prepare (s : Stage R) (required : Flags GroupCapability) (ids : List ActuatorId) :
    Bool × Stage R :=
  if s.rig.group.allows required ids then
    let (ok, rig) := s.rig.prepare required ids
    (ok, { s with rig }.record (.prepare ids ok))
  else (false, s)

/-- Starts what was prepared. -/
def trigger (s : Stage R) (plan : Plan R) : Bool × Stage R :=
  let (ok, rig) := s.rig.trigger plan.vibration
  (ok, { s with rig }.record (.trigger ok))

/-- Gives up what was prepared. -/
def cancelSync (s : Stage R) : Stage R :=
  let (ok, rig) := s.rig.cancelSync
  { s with rig }.record (.cancelSync ok)

end Stage

namespace Played
variable {R : Type}

/-- One more step for the actuator of a lane, after a drive with an answer. -/
def followed (stage : Stage R) (l : Lane) (start : StartTime) (task : Task R) (result : Int) :
    Played R :=
  let (step, stage) := stage.issue start l.actuator l.deadline task
  ⟨stage, [step], result⟩

end Played
end Haptics
