import Haptics.Scaling
import Haptics.Fitting
import Haptics.Conductor.Performance

/-!
# The service

Requests are scaled for their usage, fitted to their actuators and queued for a worker that plays
one vibration after the other. A new request cancels the one before it gracefully. A request is
refused as a whole, before anything happens, if one of its actuators cannot play its part.
-/

namespace Haptics

/-- Why a request is refused. -/
inductive RequestError
  | emptyVibration
  | unknownActuator (id : ActuatorId)
  | unsupportedEffect (id : ActuatorId)
  | workerStopped
deriving DecidableEq, Repr

namespace RequestError

/-- The title of a cause, in one word. -/
def title : RequestError → String
  | emptyVibration => "EmptyVibration"
  | unknownActuator _ => "UnknownActuator"
  | unsupportedEffect _ => "UnsupportedEffect"
  | workerStopped => "ThreadStopped"

def message : RequestError → String
  | emptyVibration => "vibration has no effect to play"
  | unknownActuator id => "actuator " ++ toString id ++ " is not registered"
  | unsupportedEffect id => "actuator " ++ toString id ++ " cannot play the requested effect"
  | workerStopped => "vibration thread is not running"

end RequestError

/-- The service with the hardware it drives. -/
structure Service (R : Type) where
  rig : Rig R
  scaling : Scaling R
  /-- The vibration that plays. -/
  running : Option (Performance R) := none
  /-- The vibrations that wait for their turn. -/
  waiting : List (Performance R) := []
  workerAlive : Bool := true
  /-- How accepted vibrations ended. -/
  endings : Table Nat Status := {}
  /-- The accepted vibrations in order. -/
  accepted : List Nat := []
  /-- The vibration that was accepted last. -/
  current : Option Nat := none
  nextId : Nat := 1
  telemetry : List Telemetry := []
  /-- Whether telling that a vibration started kills the worker. -/
  telemetryBroken : Bool := false

namespace Service
variable {R : Type}

def now (s : Service R) : Nat := s.rig.now

def tuning (s : Service R) : Tuning R := s.scaling.tuning

def fitting (s : Service R) : Fitting R := ⟨s.tuning.fallbacks, s.tuning.rampStep⟩

def status? (s : Service R) (id : Nat) : Option Status := s.endings.find? id

/-- Whether an accepted vibration will never end, because the worker died. -/
def isLost (s : Service R) (id : Nat) : Bool := (s.status? id).isNone && !s.workerAlive

/-- What waiting for a vibration comes to. -/
def outcome (s : Service R) (id : Nat) : Status := (s.status? id).getD .failed

/-! ## Requests -/

/-- Sends a cancel to a vibration that has not ended. -/
def cancel (s : Service R) (id : Nat) (mode : CancelMode) : Service R :=
  let send (p : Performance R) : Performance R :=
    if p.run.plan.vibration = id then (p.send mode).2 else p
  { s with running := s.running.map send, waiting := s.waiting.map send }

def cancelCurrent (s : Service R) (mode : CancelMode) : Service R :=
  match s.current with
  | some id => s.cancel id mode
  | none => s

/-- Takes the next vibration number. -/
def allocate (s : Service R) : Nat × Service R :=
  (s.nextId, { s with nextId := s.nextId + 1 })

/-- Hands a vibration to the worker. -/
def submit (s : Service R) (id : Nat) (caller : Caller) (v : Vibration R) :
    Except RequestError (Service R) :=
  if s.workerAlive then
    .ok { s with
      waiting := s.waiting ++ [.fresh ⟨id, caller, s.tuning⟩ v s.rig]
      accepted := s.accepted ++ [id] }
  else .error .workerStopped

/-- Makes a vibration the current one and cancels the one before it, unless that has ended. -/
def supersede (s : Service R) (id : Nat) : Service R :=
  let s' := match s.current with
    | some previous => if (s.status? previous).isSome then s else s.cancel previous .graceful
    | none => s
  { s' with current := some id }

section
variable [PerceptualLevel R]

/-- Scales and fits the effect of one actuator. -/
def prepareEffect (s : Service R) (u : Usage) (v : Vibration R) (x : ActuatorId × Effect R) :
    Except RequestError (Vibration R) :=
  match s.rig.device? x.1 with
  | none => .error (.unknownActuator x.1)
  | some d =>
    match s.fitting.fit? d.control.profile (s.scaling.scale u x.2) with
    | none => .error (.unsupportedEffect x.1)
    | some e => .ok (v.withActuator x.1 (e.resolve s.tuning.amplitude))

/-- Scales and fits every effect of a vibration. -/
def prepare (s : Service R) (v : Vibration R) (u : Usage) : Except RequestError (Vibration R) :=
  if v.isEmpty then .error .emptyVibration
  else
    match (v.expand s.rig.group.ids).foldlM (s.prepareEffect u) (.stereo []) with
    | .error e => .error e
    | .ok v => if v.isEmpty then .error .emptyVibration else .ok v

/-- Requests a vibration. An accepted one gets a number. -/
def request (s : Service R) (v : Vibration R) (u : Usage) (caller : Caller) :
    Except RequestError Nat × Service R :=
  match s.prepare v u with
  | .error e => (.error e, s)
  | .ok v =>
    let (id, s) := s.allocate
    match s.submit id caller v with
    | .error e => (.error e, s)
    | .ok s => (.ok id, s.supersede id)

end

/-! ## The worker -/

variable [Level R]

/-- Takes over what a step of the running vibration did. A start that cannot be told kills the
worker. -/
def afterStep (s : Service R) (before p : Performance R) : Service R :=
  let told := p.run.stage.telemetry.drop before.run.stage.telemetry.length
  let killed := s.telemetryBroken && told.any fun
    | .on _ _ => true
    | .off _ => false
  if killed then
    { s with rig := p.close.rig, running := none, waiting := [], workerAlive := false }
  else { s with rig := p.rig, running := some p, telemetry := s.telemetry ++ told }

/-- Takes over what the running vibration did by the step that the worker died of. -/
def afterOverflow (s : Service R) (p : Performance R) : Service R :=
  { s with rig := p.close.rig, running := none, waiting := [], workerAlive := false }

/-- Does the next thing there is for the worker to do at the present instant. -/
def step? (s : Service R) : Option (Service R) :=
  match s.running, s.waiting with
  | some p, _ =>
    if p.isOver then
      some { s with
        running := none
        endings := s.endings.insert p.run.plan.vibration p.status }
    else
      let p := p.withRig s.rig
      match p.overflow? with
      | some p => some (s.afterOverflow p)
      | none => p.step?.map (s.afterStep p)
  | none, p :: ps =>
    let p := (p.withRig s.rig).opened
    some { s with rig := p.rig, running := some p, waiting := ps }
  | none, [] => none

/-- Does everything there is to do at the present instant, in at most `n` steps. -/
def settle : Nat → Service R → Service R
  | 0, s => s
  | n + 1, s => match s.step? with
    | some s => settle n s
    | none => s

/-- Everything that happens at an instant. -/
def instant (s : Service R) (t : Nat) : Service R :=
  let s := { s with rig := s.rig.moveTo t }.settle patience
  { s with rig := s.rig.fireDue }.settle patience

/-- The next instant at which something happens. -/
def next? (s : Service R) : Option Nat :=
  [s.running.bind (·.wake?), s.rig.nextDue?].filterMap id |>.min?

/-- Lets time pass from instant `t` until something is the case, not beyond `last`. -/
def passUntil (s : Service R) (done : Service R → Bool) (t last : Nat) : Service R :=
  let s := s.instant t
  if done s then s
  else
    match s.next? with
    | none => s
    | some t' => if t < t' ∧ t' ≤ last then s.passUntil done t' last else s
termination_by last - t

/-- Lets time pass until something is the case. -/
def waitUntil (s : Service R) (done : Service R → Bool) : Service R :=
  s.passUntil done s.now lastInstant

/-- Waits for a vibration to end. -/
def wait (s : Service R) (id : Nat) : Service R :=
  s.waitUntil fun s => (s.status? id).isSome || !s.workerAlive

/-- Lets an amount of time pass. -/
def pass (s : Service R) (ms : Nat) : Service R :=
  let t := s.now + ms
  (s.passUntil (fun _ => false) s.now t).instant t

/-- Shuts the service down: stops the current vibration now and plays what still waits. -/
def shutDown (s : Service R) : Service R :=
  (s.cancelCurrent .immediate).waitUntil fun s => s.running.isNone && s.waiting.isEmpty

end Service
end Haptics
