import Haptics.Conductor.Playing

/-!
# Opening a vibration

The first step of a vibration drives every actuator. Several actuators start together if the
hardware can prepare that combination. If one of them fails, those that started are turned off again
and nothing is left to do.
-/

namespace Haptics

variable {R : Type}

/-- The ways to start an actuator that the coordinating hardware tells apart. -/
inductive OpeningKind
  | on | perform | compose
deriving DecidableEq, Repr

/-- How an effect starts, if the hardware has a way to prepare that. -/
def OpeningKind.ofEffect? : Effect R → Option OpeningKind
  | .vendor _ => some .perform
  | .pattern p =>
    match p.segments.head? with
    | some (.prebaked _) => some .perform
    | some (.hold _) => some .on
    | some (.primitive _) => some .compose
    | _ => none

/-- The abilities that a common start of some effects needs: preparing each kind, and triggering
each kind together with another. -/
def requiredSync (effects : List (Effect R)) : Flags GroupCapability :=
  let kinds := effects.filterMap OpeningKind.ofEffect?
  let mixed (k : OpeningKind) : Bool := kinds.contains k && kinds.any (· != k)
  ⟨fun
    | .sync => true
    | .prepareOn => kinds.contains .on
    | .preparePerform => kinds.contains .perform
    | .prepareCompose => kinds.contains .compose
    | .mixedTriggerOn => mixed .on
    | .mixedTriggerPerform => mixed .perform
    | .mixedTriggerCompose => mixed .compose
    | .triggerCallback | .startSessions => false⟩

/-- The duration of an effect as an answer to a drive: negative where it is not known. -/
def Effect.expected (e : Effect R) : Int :=
  match e.duration? with
  | none => -1
  | some ms => driveResult ms

/-- The effects of a vibration for registered actuators, in start order. -/
def Stage.effects (s : Stage R) (v : Vibration R) : List (ActuatorId × Effect R) :=
  (v.expand s.rig.group.ids).filter fun (id, _) => (s.rig.device? id).isSome

/-- Issues the first step of each effect. -/
def Stage.issueFirst (s : Stage R) : List (ActuatorId × Effect R) →
    List (Lane × Task R × Effect R) × Stage R
  | [] => ([], s)
  | (id, e) :: es =>
    let l : Lane := { id := s.nextStep, start := .at s.now, actuator := id, deadline := .idle }
    let (rest, s) := { s with nextStep := s.nextStep + 1 }.issueFirst es
    ((l, .ofEffect e, e) :: rest, s)

variable [Level R]

/-- What starting actuators one by one leaves: the stage, the steps to do next, and the longest
expected duration, or nothing if one of them failed. -/
structure Opened (R : Type) where
  stage : Stage R
  next : List (Step R)
  longest : Option Int

/-- Plays first steps in order up to the first that fails. -/
def Stage.openEach (s : Stage R) (plan : Plan R) (next : List (Step R)) (longest : Int) :
    List (Lane × Task R × Effect R) → Opened R
  | [] => ⟨s, next, some longest⟩
  | (l, task, e) :: es =>
    let played := l.play plan s task
    let next := next ++ played.next
    if played.result < 0 then ⟨played.stage, next, none⟩
    else played.stage.openEach plan next (max longest (max played.result e.expected)) es

/-- Tears a step down. -/
def Stage.cancelNow (s : Stage R) (plan : Plan R) : Step R → Stage R
  | .start _ _ => s
  | .lane l task => l.cancelNow s task
  | .finish => s.tell (.off plan.caller)

/-- Tears steps down one after the other. -/
def Stage.tearDown (s : Stage R) (plan : Plan R) (steps : List (Step R)) : Stage R :=
  steps.foldl (·.cancelNow plan ·) s

/-- Ends a start. After a failure what started is torn down, the last first; otherwise actuators that
were prepared are triggered if there is something to play. What was prepared and not triggered is
given up. -/
def Opened.close (o : Opened R) (plan : Plan R) (prepared : Bool) : Played R :=
  match o.longest with
  | none =>
    let s := o.stage.tearDown plan o.next.reverse
    ⟨if prepared then s.cancelSync else s, [], -1⟩
  | some longest =>
    let (triggered, s) :=
      if prepared ∧ 0 < longest then o.stage.trigger plan else (false, o.stage)
    ⟨if prepared && !triggered then s.cancelSync else s, o.next, longest⟩

/-- Starts the effects. The result is the longest expected duration, zero if there is nothing to
play and negative if the start failed. -/
def Stage.openAll (s : Stage R) (plan : Plan R) (effects : List (ActuatorId × Effect R)) :
    Played R :=
  if effects.isEmpty then ⟨s, [], 0⟩
  else
    let (firsts, s) := s.issueFirst effects
    let (prepared, s) :=
      if 1 < effects.length then s.prepare (requiredSync (effects.map (·.2))) (effects.map (·.1))
      else (false, s)
    (s.openEach plan [] 0 firsts).close plan prepared

/-- The duration that a start announces. -/
def announced (result : Int) : Nat := if result = indefinite then forever else result.toNat

/-- Plays the first step of a vibration. If anything started, it says so and queues the step that
closes the vibration. -/
def Stage.openVibration (s : Stage R) (plan : Plan R) (v : Vibration R) : Played R :=
  let played := s.openAll plan (s.effects v)
  let s := { played.stage with startResult := some played.result }
  if 0 < played.result then
    ⟨s.tell (.on plan.caller (announced played.result)), played.next ++ [.finish], played.result⟩
  else ⟨s, played.next, played.result⟩

/-- Plays any step. -/
def Stage.play (s : Stage R) (plan : Plan R) : Step R → Played R
  | .start v _ => s.openVibration plan v
  | .lane l task => l.play plan s task
  | .finish => ⟨s.tell (.off plan.caller), [], 0⟩

omit [Level R] in
/-- What a graceful cancel leaves of a step. -/
def Stage.cancel (s : Stage R) : Step R → List (Step R) × Stage R
  | .start _ _ => ([], s)
  | .lane l task => let (step, s) := l.cancel s task; ([step], s)
  | .finish => ([.finish], s)

end Haptics
