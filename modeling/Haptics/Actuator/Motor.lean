import Haptics.Actuator.Signal

/-!
# Motors

Simulated hardware. A motor accepts or refuses calls and reports completions, after the time the
call takes or when it is told to.
-/

namespace Haptics

/-- Errors that calls other than drives end with before they reach the hardware. -/
structure MotorFaults where
  off : Option HardwareError := none
  amplitude : Option HardwareError := none
  external : Option HardwareError := none
  alwaysOn : Option HardwareError := none

/-- The hardware of one actuator. -/
structure Motor (R : Type) where
  profile : Profile R
  /-- How much later than expected completions arrive. -/
  latency : Nat := 0
  /-- Whether completions wait until the motor is told to report them. -/
  manual : Bool := false
  /-- How many more times the motor fails to describe itself. -/
  infoFailures : Nat := 0
  infoAttempts : Nat := 0
  held : List Report := []
  /-- How many completions the motor was asked to report. -/
  handed : Nat := 0
  /-- What every drive fails with. -/
  failure : Option HardwareError := none
  faults : MotorFaults := {}

namespace Motor
variable {R : Type}

def id (m : Motor R) : ActuatorId := m.profile.id

/-- Asks the motor to describe itself. -/
def describe (m : Motor R) : Option (Profile R) × Motor R :=
  let m := { m with infoAttempts := m.infoAttempts + 1 }
  if m.infoFailures = 0 then (some m.profile, m)
  else (none, { m with infoFailures := m.infoFailures - 1 })

/-- How long the motor takes for a drive, unless only the vendor knows. -/
def duration? (m : Motor R) : Drive R → Option Nat
  | .hold ms => some ms
  | .prebaked p => some (m.profile.effectMs p.effect)
  | .composition ps => some (m.profile.compositionMs ps)
  | .ramps rs => some (totalMs (rs.map (·.ms)))
  | .envelope points => some (totalMs (points.map (·.ms)))
  | .vendor _ => none

/-- Whether a motor that accepts a call adds up more for it than a word holds. -/
def overflows (m : Motor R) (x : Drive R) : Bool :=
  m.failure.isNone && match x with
    | .composition _ | .ramps _ | .envelope _ => (m.duration? x).any (wordCount ≤ ·)
    | .hold _ | .prebaked _ | .vendor _ => false

/-- What a drive call shows: the call, and what it hands over if the call only counts it. -/
def driveSignals (m : Motor R) (x : Drive R) : List (Signal R) :=
  match x with
  | .hold _ | .prebaked _ => [.call (x.call m.id)]
  | .composition _ | .ramps _ | .envelope _ | .vendor _ =>
    [.payload m.id x, .call (x.call m.id)]

/-- Takes a completion to report once `ms` have passed. It is held back on a manual motor, and where
only the vendor knows when. -/
def schedule (m : Motor R) (ms : Option Nat) (r : Report) : Motor R × List (Signal R) :=
  let m := { m with handed := m.handed + 1 }
  match ms, m.manual with
  | some ms, false => (m, [.arm (ms + m.latency) r])
  | _, _ => ({ m with held := m.held ++ [r] }, [])

/-- Reports everything held back. -/
def release (m : Motor R) : List Report × Motor R := (m.held, { m with held := [] })

/-- Makes a call that is not a drive: it fails unseen if it has a fault, and works otherwise. -/
def attempt (fault : Option HardwareError) (c : Call R) : Bool × List (Signal R) :=
  match fault with
  | some _ => (false, [])
  | none => (true, [.call c])

end Motor
end Haptics
