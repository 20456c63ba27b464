/-!
# Attributes of a request

How strong a hardware effect plays, how intense the user wants a usage to be, what a vibration is
for and who asked for it.
-/

namespace Haptics

/-- The strength of a prebaked effect. -/
inductive Strength
  | light | medium | strong
deriving DecidableEq, Repr, Inhabited

namespace Strength

def name : Strength → String
  | light => "light"
  | medium => "medium"
  | strong => "strong"

def ofName? (s : String) : Option Strength := [light, medium, strong].find? (·.name == s)

/-- The title of a strength, in one word. -/
def title : Strength → String
  | light => "Light"
  | medium => "Medium"
  | strong => "Strong"

end Strength

/-- How intense the user wants vibrations to be. -/
inductive Intensity
  | off | low | medium | high
deriving DecidableEq, Repr, Inhabited

namespace Intensity

/-- The rank of an intensity, `off` being zero. -/
def level : Intensity → Nat
  | off => 0 | low => 1 | medium => 2 | high => 3

/-- The name of an intensity in settings and requests. -/
def name : Intensity → String
  | off => "off"
  | low => "low"
  | medium => "medium"
  | high => "high"

def ofName? (s : String) : Option Intensity := [off, low, medium, high].find? (·.name == s)

end Intensity

/-- What a vibration is for. -/
inductive Usage
  | unknown | alarm | ringtone | notification | communication | touch
  | physicalEmulation | hardwareFeedback | accessibility | media
deriving DecidableEq, Repr, Inhabited

namespace Usage

def all : List Usage :=
  [unknown, alarm, ringtone, notification, communication, touch, physicalEmulation,
    hardwareFeedback, accessibility, media]

/-- The name of a usage in settings and requests. -/
def name : Usage → String
  | unknown => "unknown"
  | alarm => "alarm"
  | ringtone => "ringtone"
  | notification => "notification"
  | communication => "communication"
  | touch => "touch"
  | physicalEmulation => "physical_emulation"
  | hardwareFeedback => "hardware_feedback"
  | accessibility => "accessibility"
  | media => "media"

def ofName? (s : String) : Option Usage := all.find? (·.name == s)

/-- The title of a usage, in one word. -/
def title : Usage → String
  | unknown => "Unknown"
  | alarm => "Alarm"
  | ringtone => "Ringtone"
  | notification => "Notification"
  | communication => "Communication"
  | touch => "Touch"
  | physicalEmulation => "PhysicalEmulation"
  | hardwareFeedback => "HardwareFeedback"
  | accessibility => "Accessibility"
  | media => "Media"

theorem mem_all (u : Usage) : u ∈ all := by cases u <;> decide

end Usage

/-- Who asked for a vibration. -/
structure Caller where
  uid : Nat
  package : String
deriving DecidableEq, Repr, Inhabited

end Haptics
