import Haptics.Conductor.Stage

/-!
# Playing a step

What each task does when its time has come, and what it leaves to do when it is cancelled. A hold
schedules its successor from its own start, so a late step delays nothing; a step that hands work to
the hardware schedules its successor after the answer.
-/

namespace Haptics

variable {R : Type} [Level R]

namespace Lane

/-- When a lane begins, or now if it waited for a report. -/
def instant (l : Lane) (now : Nat) : Nat := l.start.instant?.getD now

/-- When to go on after an answer to a drive. -/
def goOn (now : Nat) (result : Int) : StartTime :=
  if 0 < result then .after now result else .at now

/-- Turns an actuator that stopped early on again, for its run of holds and the time until they
begin, and programs the amplitude it had. The program dies if that is longer than a word holds
(`Turn.overflow?`). -/
def turnBackOn (l : Lane) (plan : Plan R) (s : Stage R) (p : Position R) (until_ : Nat) :
    Int × Lane × Stage R :=
  let on := p.onDuration plan.tuning.rampDown
  if on = 0 then (0, l, s)
  else
    let amplitude := s.rig.amplitude l.actuator
    let (result, l, s) := s.drive plan l (.hold (on + until_))
    (result, l, if 0 < result ∧ 0 < amplitude then s.setAmplitude l amplitude else s)

/-- Plays a hold. A segment that is none, or takes no time, is passed over. -/
def playHold (l : Lane) (plan : Plan R) (s : Stage R) (p : Position R) : Played R :=
  let now := s.now
  let start := l.instant now
  if l.reported ∧ now < start then
    let (result, l, s) := l.turnBackOn plan s p (start - now)
    ⟨s, [.lane { l with reported := false } (.hold p)], result⟩
  else
    let next := Task.ofPosition p.pattern (p.advance 1)
    match p.segment? with
    | some (.hold h) =>
      if h.ms = 0 then .followed s l (.at start) next 0
      else
        let amplitude := h.amplitude.value
        if amplitude == 0 then
          let (l, s) :=
            if l.deadline.isPending now || s.rig.isActive l.actuator then
              ({ l with deadline := .idle }, s.stop l)
            else (l, s)
          .followed s l (.at (start + h.ms)) next 0
        else
          let on := p.onDuration plan.tuning.rampDown
          let (result, l, s) :=
            if !l.deadline.covers start && on != 0 then s.drive plan l (.hold on) else (0, l, s)
          .followed (s.setAmplitude l amplitude) l (.at (start + h.ms)) next result
    | _ => .followed s l (.at start) next 0

/-- Plays a prebaked effect. -/
def playPrebaked (l : Lane) (plan : Plan R) (s : Stage R) (p : Position R) : Played R :=
  let now := s.now
  let next := Task.ofPosition p.pattern (p.advance 1)
  match p.segment? with
  | some (.prebaked b) =>
    let (result, l, s) := s.drive plan l (.prebaked b)
    .followed s l (goOn now result) next result
  | _ => .followed s l (.at (l.instant now)) next 0

/-- Plays a run of `count` segments in one call. -/
def playRun (l : Lane) (plan : Plan R) (s : Stage R) (p : Position R) (count : Nat) (x : Drive R) :
    Played R :=
  let now := s.now
  let next := Task.ofPosition p.pattern (p.advance (max count 1))
  if count = 0 then .followed s l (.at (l.instant now)) next 0
  else
    let (result, l, s) := s.drive plan l x
    .followed s l (goOn now result) next result

/-- A limit of the actuator of a lane. -/
def limit (l : Lane) (s : Stage R) (f : Profile R → Nat) : Nat :=
  ((s.rig.device? l.actuator).map (f ·.control.profile)).getD 0

end Lane

/-- The corners of a run of envelope segments: where the first begins, then where each ends. -/
def ControlPoint.ofSweeps {R : Type} : List (Sweep R) → List (ControlPoint R)
  | [] => []
  | s :: ss =>
    ⟨s.startAmplitude, s.startHz, 0⟩ ::
      (s :: ss).map fun t => ⟨t.endAmplitude, t.endHz, t.ms⟩

namespace Lane

def playComposition (l : Lane) (plan : Plan R) (s : Stage R) (p : Position R) : Played R :=
  let ps := p.run (l.limit s (·.compositionMax)) fun
    | .primitive x => some x
    | _ => none
  l.playRun plan s p ps.length (.composition ps)

def playRamps (l : Lane) (plan : Plan R) (s : Stage R) (p : Position R) : Played R :=
  let rs := p.run (l.limit s (·.rampsMax)) fun
    | .ramp x => some x
    | _ => none
  l.playRun plan s p rs.length (.ramps rs)

/-- The most envelope segments in one call: an envelope has one control point more than segments. -/
def envelopeLimit (points : Nat) : Nat := if points = 0 then 0 else max (points - 1) 1

def playEnvelope (l : Lane) (plan : Plan R) (s : Stage R) (p : Position R) : Played R :=
  let es := p.run (envelopeLimit (l.limit s (·.envelopeMax))) fun
    | .envelope x => some x
    | _ => none
  l.playRun plan s p es.length (.envelope (ControlPoint.ofSweeps es))

/-- Plays a vendor payload, after which the effect is complete. -/
def playVendor (l : Lane) (plan : Plan R) (s : Stage R) (v : Vendor R) : Played R :=
  let now := s.now
  let (result, l, s) := s.drive plan l (.vendor v)
  .followed s l (goOn now result) (.complete false) result

/-- How long a lane may ramp down for: no longer than its actuator stays on by itself. -/
def rampDownTime (l : Lane) (t : Tuning R) (now : Nat) : Nat :=
  match l.deadline.remaining? now t.grace with
  | some remaining => min remaining t.rampDown
  | none => t.rampDown

/-- Ends an effect: ramps down where there is time and amplitude for it, else turns off. A cancelled
effect turns off at once, one that played to its end when its last drive is over. -/
def playComplete (l : Lane) (plan : Plan R) (s : Stage R) (cancelled : Bool) : Played R :=
  if l.reported then ⟨s.stop l, [], 0⟩
  else
    let now := s.now
    let t := plan.tuning
    let amplitude := s.rig.amplitude l.actuator
    let rampDown := l.rampDownTime t now
    if amplitude < Level.faint ∨ t.rampStep = 0 ∨ rampDown ≤ t.rampStep then
      if cancelled then ⟨s.stop l, [], 0⟩
      else .followed s l (l.deadline.turnOff now) .turnOff 0
    else
      let delta := amplitude / ((rampDown / t.rampStep : Nat) : R)
      let l := if cancelled then
          { l with deadline := .at (now + rampDown) (l.deadline.awaiting?.getD l.id) }
        else l
      .followed s l (.at (l.instant now)) (.rampOff (amplitude - delta) delta) 0

/-- Programs an amplitude on the way down. The next one follows a ramp step later, until it would be
too faint. -/
def playRampOff (l : Lane) (plan : Plan R) (s : Stage R) (target delta : R) : Played R :=
  if l.reported then ⟨s.stop l, [], 0⟩
  else
    let now := s.now
    let s := s.setAmplitude l target
    if target - delta < Level.faint then .followed s l (l.deadline.turnOff now) .turnOff 0
    else
      .followed s l (.at (l.instant now + plan.tuning.rampStep)) (.rampOff (target - delta) delta) 0

/-- Does the task of a lane. -/
def play (l : Lane) (plan : Plan R) (s : Stage R) : Task R → Played R
  | .hold p => l.playHold plan s p
  | .prebaked p => l.playPrebaked plan s p
  | .composition p => l.playComposition plan s p
  | .ramps p => l.playRamps plan s p
  | .envelope p => l.playEnvelope plan s p
  | .vendor v => l.playVendor plan s v
  | .complete cancelled => l.playComplete plan s cancelled
  | .rampOff target delta => l.playRampOff plan s target delta
  | .turnOff => ⟨s.stop l, [], 0⟩

omit [Level R] in
/-- What a graceful cancel leaves of a lane: the way down, or nothing but turning off if it was on
the way down already. -/
def cancel (l : Lane) (s : Stage R) : Task R → Step R × Stage R
  | .complete true | .rampOff _ _ | .turnOff =>
    s.issue (.at s.now) l.actuator l.deadline .turnOff
  | _ => s.issue (.at s.now) l.actuator l.deadline (.complete true)

/-- Tears a lane down: turns the actuator off if it may be on. -/
def cancelNow (l : Lane) (s : Stage R) : Task R → Stage R
  | .turnOff => s.stop l
  | _ => if l.deadline.isPending s.now then s.stop l else s

end Lane
end Haptics
