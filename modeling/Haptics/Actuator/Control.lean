import Haptics.Actuator.Signal

/-!
# Control state

What the software knows about an actuator: whether it is active, the amplitude last programmed, and
who wants to hear when it starts or stops being active.
-/

namespace Haptics

inductive Activity
  | idle
  | vibrating
  | externallyControlled
deriving DecidableEq, Repr

namespace Activity

/-- Everything but idle counts as active. -/
def isActive (a : Activity) : Bool := a != .idle

def name : Activity → String
  | idle => "idle"
  | vibrating => "vibrating"
  | externallyControlled => "external"

def ofName? (s : String) : Option Activity :=
  [idle, vibrating, externallyControlled].find? (·.name == s)

end Activity

/-- What the software knows about an actuator. -/
structure Control (R : Type) where
  id : ActuatorId
  /-- The profile, degraded until the hardware answers. -/
  profile : Profile R
  loaded : Bool := false
  /-- Whether completions have somewhere to go. -/
  attached : Bool := false
  activity : Activity := .idle
  amplitude : R
  observers : List String := []

namespace Control
variable {R : Type} [Level R]

def fresh (id : ActuatorId) : Control R where
  id
  profile := .degraded id
  amplitude := 0

/-- Enters an activity. Observers hear of it only if the actuator starts or stops being active. -/
def setActivity (c : Control R) (a : Activity) : Control R × List Flip :=
  ({ c with activity := a, amplitude := if a.isActive then Level.unset else 0 },
    if c.activity.isActive = a.isActive then []
    else c.observers.map (⟨·, c.id, a.isActive⟩))

omit [Level R]

/-- Notes a programmed amplitude, which lasts as long as the actuator vibrates. -/
def recordAmplitude (c : Control R) (x : R) : Control R :=
  if c.activity = .vibrating then { c with amplitude := x } else c

/-- Adds an observer and tells it at once whether the actuator is active. A known one is refused. -/
def observe (c : Control R) (observer : String) : Bool × Control R × List Flip :=
  if c.observers.contains observer then (false, c, [])
  else (true, { c with observers := c.observers ++ [observer] },
    [⟨observer, c.id, c.activity.isActive⟩])

/-- Removes an observer, if it is known. -/
def unobserve (c : Control R) (observer : String) : Bool × Control R :=
  (c.observers.contains observer, { c with observers := c.observers.filter (· != observer) })

end Control
end Haptics
