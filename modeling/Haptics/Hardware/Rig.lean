import Haptics.Actuator.Device
import Haptics.Hardware.Bridge
import Haptics.Hardware.Group

/-!
# The rig

All hardware on one clock: the devices, the group they form, the completions on their way, and a
record of every call. An operation on a device leaves its signals in the record.
-/

namespace Haptics

/-- A completion that arrives at an instant. -/
structure Timer where
  due : Nat
  report : Report
deriving DecidableEq, Repr

/-- All hardware on one clock. Instants are in milliseconds. -/
structure Rig (R : Type) where
  now : Nat := 0
  /-- The motor that a first registration finds under a number, and the interface to it. -/
  catalogue : ActuatorId → Interface × Motor R
  group : Group
  devices : Table ActuatorId (Device R) := {}
  bridge : Bridge := {}
  /-- Completions on their way, earliest first, those of one instant in the order of arming. -/
  timers : List Timer := []
  log : Array (Nat × Call R) := #[]
  payloads : Array (ActuatorId × Drive R) := #[]
  flips : Array Flip := #[]

namespace Rig
variable {R : Type}

/-! ## The record -/

/-- Puts a timer behind all that are due no later. -/
def arm (t : Timer) : List Timer → List Timer
  | [] => [t]
  | x :: xs => if t.due < x.due then t :: x :: xs else x :: arm t xs

/-- Takes a signal into the record. -/
def note (r : Rig R) : Signal R → Rig R
  | .call c => { r with log := r.log.push (r.now, c) }
  | .payload id x => { r with payloads := r.payloads.push (id, x) }
  | .arm delay report => { r with timers := arm ⟨r.now + delay, report⟩ r.timers }
  | .flip f => { r with flips := r.flips.push f }

def noteAll (r : Rig R) (ss : List (Signal R)) : Rig R := ss.foldl note r

def noteCalls (r : Rig R) (cs : List (Call R)) : Rig R := r.noteAll (cs.map .call)

/-! ## Completions -/

/-- Delivers a completion. -/
def deliver (r : Rig R) : Report → Rig R
  | .step a v s => { r with bridge := r.bridge.post v (.stepComplete a v s) }
  | .synced v => { r with bridge := r.bridge.post v (.syncedComplete v) }
  | .session id => { r with group := r.group.closeSession id, bridge := r.bridge.endSession id }
  | .unheard => r

/-- The instant of the next completion on its way. -/
def nextDue? (r : Rig R) : Option Nat := r.timers.head?.map (·.due)

/-- Delivers every completion that is due by now. -/
def fireDue (r : Rig R) : Rig R :=
  let due := r.timers.takeWhile (·.due ≤ r.now)
  due.foldl (fun r t => r.deliver t.report) { r with timers := r.timers.drop due.length }

/-- Moves the clock, which never runs back. -/
def moveTo (r : Rig R) (t : Nat) : Rig R := { r with now := max r.now t }

/-- Delivers the first `n` completions on their way that are due by `t`, each at its own instant. -/
def passTimers (r : Rig R) (t : Nat) : Nat → Rig R
  | 0 => r
  | n + 1 =>
    match r.timers with
    | [] => r
    | x :: xs =>
      if x.due ≤ t then passTimers (({ r with timers := xs }.moveTo x.due).deliver x.report) t n
      else r

/-- Lets time pass until `t`, with everything that is due by then. -/
def advanceTo (r : Rig R) (t : Nat) : Rig R := (r.passTimers t r.timers.length).moveTo t

/-! ## Devices -/

def device? (r : Rig R) (id : ActuatorId) : Option (Device R) := r.devices.find? id

/-- Operates on a device, if it is registered. -/
def onDevice {α : Type} (r : Rig R) (id : ActuatorId) (other : α)
    (f : Device R → Reaction R α) : α × Rig R :=
  match r.device? id with
  | none => (other, r)
  | some d =>
    let reaction := f d
    (reaction.value,
      { r with devices := r.devices.insert id reaction.device }.noteAll reaction.signals)

/-- Changes the motor of a device, if it is registered. -/
def onMotor (r : Rig R) (id : ActuatorId) (f : Motor R → Motor R) : Rig R :=
  { r with devices := r.devices.modify id fun d => { d with motor := f d.motor } }

/-- Makes a motor report everything it held back. -/
def releaseMotor (r : Rig R) (id : ActuatorId) : Nat × Rig R :=
  match r.device? id with
  | none => (0, r)
  | some d =>
    let (reports, motor) := d.motor.release
    (reports.length,
      reports.foldl deliver { r with devices := r.devices.insert id { d with motor } })

def isActive (r : Rig R) (id : ActuatorId) : Bool :=
  ((r.device? id).map (·.control.activity.isActive)).getD false

section
variable [Level R]

def drive (r : Rig R) (id : ActuatorId) (vibration step : Nat) (x : Drive R) : Int × Rig R :=
  r.onDevice id 0 (·.drive vibration step x)

omit [Level R] in
/-- What a drive leaves, if the program dies of it. The time of a hold may be a sum as well, which
is worked out before anybody is asked. -/
def overflow? (r : Rig R) (id : ActuatorId) (x : Drive R) : Option (Rig R) :=
  match x with
  | .hold ms => if wordCount ≤ ms then some r else none
  | x => ((r.device? id).bind (·.overflow? x)).map r.noteAll

/-- Plays something for a step of a vibration, unless the program dies of that. -/
def drive? (r : Rig R) (id : ActuatorId) (vibration step : Nat) (x : Drive R) :
    Option (Int × Rig R) :=
  if (r.overflow? id x).isSome then none else some (r.drive id vibration step x)

def stop (r : Rig R) (id : ActuatorId) : Rig R :=
  (r.onDevice id () fun d => let (d, signals) := d.stop; ⟨(), d, signals⟩).2

omit [Level R] in
def setAmplitude (r : Rig R) (id : ActuatorId) (x : R) : Bool × Rig R :=
  r.onDevice id false (·.setAmplitude x)

/-- The amplitude of a device, zero where none is registered. -/
def amplitude (r : Rig R) (id : ActuatorId) : R :=
  ((r.device? id).map (·.control.amplitude)).getD 0

omit [Level R] in
/-- The motor under a number and the interface to it. A motor that is registered already is in the
state that its device left it in. -/
def motor (r : Rig R) (id : ActuatorId) : Interface × Motor R :=
  match r.device? id with
  | some d => (d.interface, d.motor)
  | none => r.catalogue id

/-- Registers an actuator: finds its motor, connects it and resets it. -/
def registerDevice (r : Rig R) (id : ActuatorId) : Rig R :=
  let (interface, motor) := r.motor id
  let (d, signals) := (Device.fresh interface motor id).init
  { r with devices := r.devices.insert id d }.noteAll signals

/-- Registers every actuator of the group anew, on the motors as they are, and clears what an
earlier run may have left on the coordinating hardware. -/
def init (r : Rig R) : Rig R :=
  let group := r.group.register
  let r := group.ids.foldl registerDevice { r with group, catalogue := r.motor, devices := {} }
  let (_, group, cancelled) := r.group.cancelSync
  let (group, cleared) := group.clearSessions
  { r with group }.noteCalls (cancelled ++ cleared)

omit [Level R] in
/-- Asks every device that has not described itself yet to do so. -/
def queryAll (r : Rig R) : Rig R :=
  { r with devices := ⟨r.devices.entries.map fun (id, d) => (id, d.query.2)⟩ }

end

/-! ## Groups -/

/-- Operates on the group. -/
def onGroup {α : Type} (r : Rig R) (f : Group → α × Group × List (Call R)) : α × Rig R :=
  let (a, group, calls) := f r.group
  (a, { r with group }.noteCalls calls)

def prepare (r : Rig R) (required : Flags GroupCapability) (ids : List ActuatorId) : Bool × Rig R :=
  let (ok, calls) := r.group.prepare required ids
  (ok, r.noteCalls calls)

def trigger (r : Rig R) (vibration : Nat) : Bool × Rig R := r.onGroup (·.trigger vibration)

def cancelSync (r : Rig R) : Bool × Rig R := r.onGroup (·.cancelSync)

/-- Makes the coordinating hardware report that the group ended. -/
def releaseSynced (r : Rig R) : Bool × Rig R :=
  let (report, group) := r.group.releaseSynced
  match report with
  | some report => (true, { r with group }.deliver report)
  | none => (false, { r with group })

/-- Makes the coordinating hardware report that every session ended. -/
def releaseSessions (r : Rig R) : Rig R :=
  let (reports, group) := r.group.releaseSessions
  reports.foldl deliver { r with group }

end Rig
end Haptics
