import Haptics.Service
import Haptics.Settings
import Haptics.Command.Options

/-!
# Sessions of the command line

A session assembles the hardware that the settings describe, requests the one vibration that the
options ask for and waits until it has ended.
-/

namespace Haptics.Command

/-- Why a session has no vibration. -/
inductive SessionError
  | settings (e : SettingsError)
  | unknownUsage (name : String)
  | unknownEffect (name : String)
  | noTimings
  | rejected (e : RequestError)
deriving DecidableEq, Repr

/-- The message for a session with the settings document at `path`. -/
def SessionError.message (path : String) : SessionError → String
  | settings _ => "Failed to load configuration: " ++ path
  | unknownUsage name => "Unknown usage: " ++ name
  | unknownEffect name => "Unknown prebaked effect: " ++ name
  | noTimings => "Waveform needs at least one timing"
  | rejected e => "Vibration request rejected: " ++ e.message

/-! ## The request -/

/-- How long a vibration lasts if the options do not say. -/
def standardDuration : Nat := 200

variable {R : Type}

section
variable [Level R]

/-- The effect that options ask for. -/
def Options.effect (o : Options) : Except SessionError (Effect R) :=
  match o.prebaked, o.waveform with
  | some name, _ =>
    match EffectId.ofName? name with
    | some id => .ok (.pattern (.prebaked id true))
    | none => .error (.unknownEffect name)
  | none, some [] => .error .noTimings
  | none, some timings => .ok (.pattern (.onOff timings o.loopStart))
  | none, none => .ok (.pattern (.oneShot (o.oneshot.getD standardDuration)))

/-- The vibration that options ask for: the effect on some actuators, or on all of them. -/
def Options.vibration (o : Options) : Except SessionError (Vibration R) := do
  let e ← o.effect
  match o.actuators with
  | some ids => return ids.foldl (fun v id => v.withActuator id e) (.stereo [])
  | none => return .mono e

/-! ## The hardware -/

/-- The one actuator of a device whose settings describe none. -/
def standardActuators : Table ActuatorId (ActuatorSettings R) :=
  .ofList [(0, {
    interface := .negotiated
    profile := { (Profile.degraded 0 : Profile R) with
      capabilities := .ofList [.onCallback, .amplitudeControl] }
    latency := 0 })]

/-- The hardware that settings describe, not registered yet. -/
def hardware (s : Settings R) : Rig R :=
  let actuators := if s.actuators.isEmpty then standardActuators else s.actuators
  { catalogue := fun id => match actuators.find? id with
      | some a => (a.interface, { profile := a.profile, latency := a.latency })
      | none => (.negotiated, { profile := .degraded id })
    group := match s.group with
      | some capabilities => .coordinated { capabilities, ids := actuators.keys }
      | none => .fixed actuators.keys }

/-! ## The session -/

/-- Who the command line says it is. -/
def caller : Caller := ⟨0, "haptics-cli"⟩

/-- Waits for a vibration to end. It is cancelled gracefully if that takes too long. -/
def await (s : Service R) (id : Nat) (cancelAfter : Option Nat) : Service R :=
  match cancelAfter with
  | none => s.wait id
  | some ms =>
    let t := s.now + ms
    let s := s.passUntil (fun s => (s.status? id).isSome) s.now t
    if (s.status? id).isSome then s else ((s.instant t).cancel id .graceful).wait id

end

/-- Plays what options ask for: how it ended, and the calls that the hardware got. -/
def play [PerceptualLevel R] (o : Options) (settings : Except SettingsError (Settings R)) :
    Except SessionError (Status × List (Call R)) := do
  let settings ← settings.mapError .settings
  let usage ← match Usage.ofName? o.usageName with
    | some usage => pure usage
    | none => throw (.unknownUsage o.usageName)
  let v ← o.vibration
  let rig := { (hardware settings).init with log := #[] }
  let service : Service R := { rig, scaling := { tuning := settings.tuning } }
  match service.request v usage caller with
  | (.error e, _) => throw (.rejected e)
  | (.ok id, s) =>
    let s := await s id o.cancelAfter
    return (s.outcome id, s.rig.log.toList.map (·.2))

end Haptics.Command
