import Haptics.Millis

/-!
# Start times and deadlines

When a step may run, and until when a step waits for the actuator to report that it stopped.
Instants are in milliseconds from an arbitrary origin.
-/

namespace Haptics

/-- The last instant the clock can name. -/
def lastInstant : Nat := 9223372036854775807999

/-- The instant a duration after another, if the clock can name it. -/
def reach? (t d : Nat) : Option Nat := if t + d ≤ lastInstant then some (t + d) else none

/-- When a step may run. -/
inductive StartTime
  | at (t : Nat)
  /-- Once the drive before it reports that it ended. -/
  | whenComplete
  /-- Once nothing else is left to do. -/
  | afterPending
deriving DecidableEq, Repr

namespace StartTime

/-- The start after an answer to a drive: a known duration later, or when the drive reports. -/
def after (t : Nat) (result : Int) : StartTime :=
  if result = indefinite then whenComplete
  else match reach? t result.toNat with
    | some t => .at t
    | none => whenComplete

def instant? : StartTime → Option Nat
  | .at t => some t
  | whenComplete | afterPending => none

def isDue (now : Nat) : StartTime → Bool
  | .at t => t ≤ now
  | whenComplete => false
  | afterPending => true

/-- Instants come before a wait for a report, and that before a wait for everything. -/
def before : StartTime → StartTime → Bool
  | .at s, .at t => s < t
  | .at _, _ => true
  | whenComplete, afterPending => true
  | _, _ => false

end StartTime

/-- Until when a step waits for the actuator to report that it stopped. -/
inductive Deadline
  /-- Nothing was driven. -/
  | idle
  /-- The drive of step `awaiting` may report until `t`. -/
  | at (t : Nat) (awaiting : Nat)
  /-- The drive of step `awaiting` may report at any time. -/
  | indefinite (awaiting : Nat)
deriving DecidableEq, Repr

namespace Deadline

def isPending (now : Nat) : Deadline → Bool
  | idle => false
  | .at t _ => now < t
  | indefinite _ => true

/-- Whether the actuator is expected to be on at an instant. -/
def covers (t : Nat) : Deadline → Bool
  | idle => false
  | .at t' _ => t < t'
  | indefinite _ => true

def awaiting? : Deadline → Option Nat
  | idle => none
  | .at _ awaiting | indefinite awaiting => some awaiting

/-- How long the actuator stays on by itself, not counting the grace for late reports. -/
def remaining? (now grace : Nat) : Deadline → Option Nat
  | idle => some 0
  | .at t _ => some (t - now - grace)
  | indefinite _ => none

/-- When to turn the actuator off if nothing else happens. -/
def turnOff (now : Nat) : Deadline → StartTime
  | idle => .at now
  | .at t _ => .at t
  | indefinite _ => .whenComplete

/-- The deadline after step `awaiting` got an answer to a drive. A drive that did not start leaves
it as it was. -/
def afterDrive (d : Deadline) (now grace : Nat) (awaiting : Nat) (result : Int) : Deadline :=
  if result = Haptics.indefinite then .indefinite awaiting
  else if 0 < result then
    match reach? now (result.toNat + grace) with
    | some t => .at t awaiting
    | none => .indefinite awaiting
  else d

end Deadline
end Haptics
