import Haptics.Actuator.Control
import Haptics.Actuator.Motor

/-!
# Devices

A motor together with its control state. There are two generations of hardware interface. A
negotiated one is told where to report completions and does so itself where it can; a direct one
knows nothing of completions, so the software arms a timer for every drive that started. Both keep
the same rules: a positive answer means that the device vibrates, and a stop leaves it idle even if
the hardware refuses. A drive of several parts takes as long as all of them. The program dies of one
whose total does not fit a word (`Device.overflow?`).
-/

namespace Haptics

/-- The generation of the hardware interface. -/
inductive Interface
  | negotiated
  | direct
deriving DecidableEq, Repr, Inhabited

/-- A motor and what the software knows about it. -/
structure Device (R : Type) where
  interface : Interface
  control : Control R
  motor : Motor R

/-- The outcome of an operation on a device. -/
structure Reaction (R : Type) (α : Type) where
  value : α
  device : Device R
  signals : List (Signal R) := []

/-- The ability that a drive depends on. -/
def Drive.needs {R : Type} : Drive R → Option Capability
  | hold _ | prebaked _ => none
  | composition _ => some .composeEffects
  | ramps _ => some .composeRamps
  | envelope _ => some .composeEnvelopes
  | vendor _ => some .performVendor

namespace Device
variable {R : Type} [Level R]

def fresh (interface : Interface) (motor : Motor R) (id : ActuatorId) : Device R :=
  ⟨interface, .fresh id, motor⟩

omit [Level R] in
def id (d : Device R) : ActuatorId := d.control.id

omit [Level R] in
/-- Asks the motor to describe itself, and takes over what it says. -/
def load (d : Device R) : Bool × Device R :=
  match d.motor.describe with
  | (some profile, motor) =>
    (true, { d with motor, control := { d.control with profile, loaded := true } })
  | (none, motor) => (false, { d with motor })

omit [Level R] in
/-- Asks the motor to describe itself unless it has done so. -/
def query (d : Device R) : Bool × Device R :=
  if d.control.loaded then (true, d) else d.load

/-- Enters an activity and tells the observers. -/
def enter (d : Device R) (a : Activity) : Device R × List (Signal R) :=
  let (control, flips) := d.control.setActivity a
  ({ d with control }, flips.map .flip)

/-- Turns the motor off. The device is idle afterwards in any case. -/
def stop (d : Device R) : Device R × List (Signal R) :=
  let (_, calls) := Motor.attempt d.motor.faults.off (.off d.id)
  let (d, flips) := d.enter .idle
  (d, calls ++ flips)

def setExternalControl (d : Device R) (enabled : Bool) : Reaction R Bool :=
  if d.control.profile.can .externalControl then
    let (_, calls) := Motor.attempt d.motor.faults.external (.setExternalControl d.id enabled)
    let (d, flips) := d.enter (if enabled then .externallyControlled else .idle)
    ⟨true, d, calls ++ flips⟩
  else ⟨false, d, []⟩

omit [Level R] in
def setAlwaysOn (d : Device R) (slot : Int) (effect : Option Prebaked) : Reaction R Bool :=
  if d.control.profile.can .alwaysOnControl then
    let (ok, calls) := Motor.attempt d.motor.faults.alwaysOn (.alwaysOn d.id slot effect.isSome)
    ⟨ok, d, calls⟩
  else ⟨false, d, []⟩

omit [Level R] in
def setAmplitude (d : Device R) (x : R) : Reaction R Bool :=
  if d.control.profile.can .amplitudeControl then
    let (ok, calls) := Motor.attempt d.motor.faults.amplitude (.setAmplitude d.id x)
    ⟨ok, if ok then { d with control := d.control.recordAmplitude x } else d, calls⟩
  else ⟨false, d, []⟩

/-- Connects the device to its completions, loads its profile and resets the hardware. -/
def init (d : Device R) : Device R × List (Signal R) :=
  let d := { d with control := { d.control with attached := true } }
  let (_, d) := d.load
  let external := d.setExternalControl false
  let (d, off) := external.device.stop
  (d, external.signals ++ off)

omit [Level R] in
/-- How long a drive takes by the profile, where the software works that out itself. -/
def promised? (d : Device R) : Drive R → Option Nat
  | .composition ps => some (d.control.profile.compositionMs ps)
  | .ramps rs => some (totalMs (rs.map (·.ms)))
  | .envelope points => some (totalMs (points.map (·.ms)))
  | .hold _ | .prebaked _ | .vendor _ => none

omit [Level R] in
/-- Whether the hardware reports the end of a drive itself. -/
def reportsItself (d : Device R) : Drive R → Bool
  | .hold _ => d.control.profile.can .onCallback
  | .prebaked _ => d.control.profile.can .performCallback
  | .composition _ | .ramps _ | .envelope _ | .vendor _ => true

/-- Plays on a negotiated interface. -/
def driveNegotiated (d : Device R) (vibration step : Nat) (x : Drive R) : Reaction R Int :=
  let report : Report :=
    if d.control.attached then .step d.id vibration step else .unheard
  let seen := d.motor.driveSignals x
  if x.needs.any (!d.control.profile.can ·) || d.promised? x == some 0 then ⟨0, d, []⟩
  else
    match d.motor.failure, x, d.motor.duration? x with
    | some e, _, _ => ⟨e.driveResult, d, seen⟩
    | none, .prebaked _, some 0 => ⟨0, d, seen⟩
    | none, _, ms =>
      let optional : Bool := match x with
        | .hold _ | .prebaked _ => true
        | _ => false
      let (motor, armed) :=
        if d.reportsItself x then
          if optional && !d.control.attached then (d.motor, [])
          else d.motor.schedule ms report
        else (d.motor, if d.control.attached then [.arm (ms.getD 0) report] else [])
      let (d', flips) := { d with motor }.enter .vibrating
      let result := match d.promised? x, ms with
        | some promised, _ => Haptics.driveResult promised
        | none, some ms => Haptics.driveResult ms
        | none, none => indefinite
      ⟨result, d', seen ++ armed ++ flips⟩

/-- Plays on a direct interface, which knows neither envelopes nor vendor payloads. -/
def driveDirect (d : Device R) (vibration step : Nat) (x : Drive R) : Reaction R Int :=
  let unknown : Bool := match x with
    | .envelope _ | .vendor _ => true
    | _ => false
  let seen := d.motor.driveSignals x
  if unknown || x.needs.any (!d.control.profile.can ·) then ⟨0, d, []⟩
  else
    match d.motor.failure, x, (d.motor.duration? x).getD 0 with
    | some e, _, _ => ⟨e.driveResult, d, seen⟩
    | none, .prebaked _, 0 | none, .composition _, 0 | none, .ramps _, 0 => ⟨0, d, seen⟩
    | none, _, ms =>
      let (d', flips) := d.enter .vibrating
      let armed := if d.control.attached then [.arm ms (.step d.id vibration step)] else []
      ⟨Haptics.driveResult ms, d', seen ++ armed ++ flips⟩

/-- Plays something for a step of a vibration. The answer is positive for the expected duration,
zero if the device does not support it, negative if the hardware failed. There is none if the
program dies of it (`drive?`). -/
def drive (d : Device R) (vibration step : Nat) (x : Drive R) : Reaction R Int :=
  match d.interface with
  | .negotiated => d.driveNegotiated vibration step x
  | .direct => d.driveDirect vibration step x

/-! ## Totals that do not fit -/

omit [Level R] in
/-- What a drive on a negotiated interface shows, if the program dies of it. The software works the
total out before the call, and the motor again once it has accepted that. -/
def overflowNegotiated? (d : Device R) (x : Drive R) : Option (List (Signal R)) :=
  if x.needs.any (!d.control.profile.can ·) then none
  else
    match d.promised? x with
    | none => none
    | some total =>
      if wordCount ≤ total then some []
      else if total ≠ 0 ∧ d.motor.overflows x then some (d.motor.driveSignals x)
      else none

omit [Level R] in
/-- What a drive on a direct interface shows, if the program dies of it. Only the motor works the
total out. -/
def overflowDirect? (d : Device R) (x : Drive R) : Option (List (Signal R)) :=
  let unknown : Bool := match x with
    | .envelope _ | .vendor _ => true
    | _ => false
  if unknown || x.needs.any (!d.control.profile.can ·) then none
  else if d.motor.overflows x then some (d.motor.driveSignals x)
  else none

omit [Level R] in
/-- What a drive shows, if the program dies of it. -/
def overflow? (d : Device R) (x : Drive R) : Option (List (Signal R)) :=
  match d.interface with
  | .negotiated => d.overflowNegotiated? x
  | .direct => d.overflowDirect? x

/-- Plays something for a step of a vibration, unless the program dies of that. -/
def drive? (d : Device R) (vibration step : Nat) (x : Drive R) : Option (Reaction R Int) :=
  if (d.overflow? x).isSome then none else some (d.drive vibration step x)

/-! ## Observers -/

omit [Level R] in
def observe (d : Device R) (observer : String) : Reaction R Bool :=
  let (ok, control, flips) := d.control.observe observer
  ⟨ok, { d with control }, flips.map .flip⟩

omit [Level R] in
def unobserve (d : Device R) (observer : String) : Reaction R Bool :=
  let (ok, control) := d.control.unobserve observer
  ⟨ok, { d with control }, []⟩

end Device
end Haptics
