import Haptics.Effect.Position
import Haptics.Conductor.Queue

/-!
# Steps

A vibration is played step by step. Most steps belong to one actuator: they carry the lane they run
in, that is the actuator with the drive it still waits for, and the task to do there.
-/

namespace Haptics

/-- One actuator's share of a vibration at one moment. -/
structure Lane where
  /-- The number that reports of drives made by this step carry. -/
  id : Nat
  start : StartTime
  actuator : ActuatorId
  deadline : Deadline
  /-- Whether the drive it waited for has reported. -/
  reported : Bool := false
deriving DecidableEq, Repr

/-- What a step does with its actuator. -/
inductive Task (R : Type)
  /-- Holds an amplitude. -/
  | hold (p : Position R)
  | prebaked (p : Position R)
  /-- Plays a run of primitives in one call. -/
  | composition (p : Position R)
  | ramps (p : Position R)
  | envelope (p : Position R)
  | vendor (v : Vendor R)
  /-- Ends an effect, which may be cut short. -/
  | complete (cancelled : Bool)
  /-- Programs an amplitude on the way down, `delta` below the one before. -/
  | rampOff (target delta : R)
  | turnOff

inductive Step (R : Type)
  /-- Starts the effects of all actuators. -/
  | start (v : Vibration R) (t : Nat)
  | lane (l : Lane) (task : Task R)
  /-- Closes the vibration once everything else is done. -/
  | finish

namespace Task
variable {R : Type}

/-- Cleanup tasks are what a graceful cancel leaves. -/
def isCleanup : Task R → Bool
  | complete _ | rampOff _ _ | turnOff => true
  | hold _ | prebaked _ | composition _ | ramps _ | envelope _ | vendor _ => false

/-- The task for a place in a pattern. Past the end it is the loop start's, or completion. -/
def ofPosition (p : Pattern R) (index : Nat) : Task R :=
  let index := if p.segments.length ≤ index then p.loopStart.getD index else index
  match p.segments[index]? with
  | none => complete false
  | some (.hold _) | some (.basic _) => hold ⟨p, index⟩
  | some (.prebaked _) => prebaked ⟨p, index⟩
  | some (.primitive _) => composition ⟨p, index⟩
  | some (.ramp _) => ramps ⟨p, index⟩
  | some (.envelope _) => envelope ⟨p, index⟩

/-- The first task of an effect. -/
def ofEffect : Effect R → Task R
  | .pattern p => ofPosition p 0
  | .vendor v => vendor v

end Task

namespace Lane

/-- Offers a report. A step that waits for it stops waiting, and may run now if the report is in
time. -/
def accept (l : Lane) (a : ActuatorId) (step : Option Nat) (now : Nat) : Bool × Lane :=
  match l.deadline.awaiting? with
  | none => (false, l)
  | some awaiting =>
    if l.actuator = a ∧ step.all (· == awaiting) then
      (l.deadline.isPending now, { l with deadline := .idle, reported := true })
    else (false, l)

end Lane

namespace Step
variable {R : Type}

def isCleanup : Step R → Bool
  | start _ _ => false
  | lane _ task => task.isCleanup
  | finish => true

instance : Scheduled (Step R) where
  start
    | start _ t => .at t
    | lane l _ => l.start
    | finish => .afterPending
  actuator?
    | lane l _ => some l.actuator
    | start _ _ | finish => none
  accept
    | lane l task, a, step, now => let (ok, l) := l.accept a step now; (ok, lane l task)
    | s, _, _, _ => (false, s)

end Step
end Haptics
