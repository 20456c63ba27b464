import Haptics.Conductor.Turn

/-!
# Runs

A run plays one vibration. Three things happen to it: a step's time comes, a report arrives, or it
is cancelled. All decisions of the conductor are made here; when things happen is decided elsewhere.
-/

namespace Haptics

/-- How to end a vibration early. -/
inductive CancelMode
  /-- Every actuator ramps down and turns off. -/
  | graceful
  /-- Everything stops now. -/
  | immediate
deriving DecidableEq, Repr

/-- How a vibration ended. -/
inductive Status
  | finished
  | cancelled
  /-- Nothing could be started. -/
  | ignoredUnsupported
  | failed
deriving DecidableEq, Repr

namespace Status

def name : Status → String
  | finished => "finished"
  | cancelled => "cancelled"
  | ignoredUnsupported => "ignored_unsupported"
  | failed => "failed"

/-- The title of a status, in one word. -/
def title : Status → String
  | finished => "Finished"
  | cancelled => "Cancelled"
  | ignoredUnsupported => "IgnoredUnsupported"
  | failed => "Failed"

end Status

/-- A vibration being played. -/
structure Run (R : Type) where
  plan : Plan R
  stage : Stage R
  queue : Queue (Step R)
  cancelled : Option CancelMode := none

namespace Run
variable {R : Type}

/-- A run that has nothing done yet, of a vibration that was asked for at `asked`. -/
def fresh (plan : Plan R) (v : Vibration R) (rig : Rig R) (asked : Nat) : Run R where
  plan
  stage := { rig }
  queue := ({} : Queue (Step R)).push (.start v asked)

def now (r : Run R) : Nat := r.stage.now

def rig (r : Run R) : Rig R := r.stage.rig

def withRig (r : Run R) (rig : Rig R) : Run R := { r with stage := { r.stage with rig } }

def isOver (r : Run R) : Bool := r.queue.isEmpty

/-- A report arrives. One that no step waits for changes nothing. -/
def hear (r : Run R) : Event → Run R
  | .stepComplete a _ step => { r with queue := (r.queue.acceptCompletion a (some step) r.now).2 }
  | .syncedComplete _ => { r with queue := (r.queue.acceptSynced r.now).2 }

/-- How the vibration ended, if it has. -/
def status (r : Run R) : Status :=
  match r.cancelled, r.stage.startResult with
  | cancelled, some result =>
    if result < 0 then .failed
    else if cancelled.isSome then .cancelled
    else if 0 < result then .finished
    else .ignoredUnsupported
  | some _, none => .cancelled
  | none, none => .ignoredUnsupported

variable [Level R]

/-- Plays the step whose time has come, if there is one. -/
def playDue? (r : Run R) : Option (Run R) :=
  (r.queue.popDue r.now).map fun (step, queue) =>
    let played := r.stage.play r.plan step
    { r with stage := played.stage, queue := queue.extend played.next }

/-- What playing the step whose time has come leaves, if the program dies of it. -/
def overflow? (r : Run R) : Option (Run R) :=
  (r.queue.popDue r.now).bind fun (step, _) =>
    (r.stage.overflow? r.plan step).map fun stage => { r with stage }

/-- Cancels one step gracefully. Only cleanup steps go back into the queue; anything else is torn
down on the spot. -/
def cancelStep (r : Run R) (step : Step R) : Run R :=
  let (steps, stage) := r.stage.cancel step
  steps.foldl (fun r s =>
    if s.isCleanup then { r with queue := r.queue.push s }
    else { r with stage := r.stage.cancelNow r.plan s }) { r with stage }

/-- Cancels the vibration. After an immediate cancel nothing more happens. -/
def cancel (r : Run R) (mode : CancelMode) : Run R :=
  if r.cancelled = some .immediate then r
  else
    let r := { r with cancelled := some mode }
    match mode with
    | .immediate =>
      let (steps, queue) := r.queue.drainReversed
      { r with queue, stage := r.stage.tearDown r.plan steps }
    | .graceful =>
      let (steps, queue) := r.queue.drainInOrder
      steps.foldl cancelStep { r with queue }

end Run
end Haptics
