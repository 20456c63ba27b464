import Haptics.Millis
import Haptics.Effect.Segment

/-!
# Patterns

A pattern is a list of segments that may start again from one of them. The segment to repeat from
always lies inside the list.
-/

namespace Haptics

/-- A list of segments, with the index to go on from after the last one if the pattern repeats. -/
structure Pattern (R : Type) where
  segments : List (Segment R)
  loopStart : Option Nat
  loopStart_lt : ∀ r ∈ loopStart, r < segments.length

namespace Pattern
variable {R : Type}

instance : Inhabited (Pattern R) := ⟨⟨[], none, by simp⟩⟩

/-- A pattern of segments. A loop start outside the list means that it does not repeat. -/
def ofSegments (segments : List (Segment R)) (loopStart : Option Nat) : Pattern R where
  segments
  loopStart := loopStart.filter (· < segments.length)
  loopStart_lt := by
    intro r hr
    simp only [Option.mem_def, Option.filter_eq_some_iff, decide_eq_true_eq] at hr
    exact hr.2

/-- One hold at the device default amplitude. -/
def oneShot [Level R] (ms : Nat) : Pattern R :=
  ofSegments [.hold ⟨.deviceDefault, 0, ms⟩] none

/-- Holds of given durations and amplitudes, as many as both lists have. -/
def waveform [Level R] (timings : List Nat) (amplitudes : List (Amplitude R))
    (loopStart : Option Nat) : Pattern R :=
  ofSegments ((timings.zip amplitudes).map fun (ms, a) => .hold ⟨a, 0, ms⟩) loopStart

/-- Holds that are off and at the device default amplitude in turn, off first. -/
def onOff [Level R] (timings : List Nat) (loopStart : Option Nat) : Pattern R :=
  waveform timings ((List.range timings.length).map fun i =>
    if i % 2 = 0 then .level 0 else .deviceDefault) loopStart

/-- One prebaked effect at medium strength. -/
def prebaked (effect : EffectId) (replaceable : Bool) : Pattern R :=
  ofSegments [.prebaked ⟨effect, .medium, replaceable⟩] none

/-- How long the pattern lasts: for ever if it repeats, unknown if one of its segments is. -/
def duration? (p : Pattern R) : Option Nat :=
  if p.loopStart.isSome then some forever
  else p.segments.foldlM (fun total s => (s.duration?).map (saturate total)) 0

/-- Changes every segment. -/
def map (f : Segment R → Segment R) (p : Pattern R) : Pattern R where
  segments := p.segments.map f
  loopStart := p.loopStart
  loopStart_lt := by simpa using p.loopStart_lt

@[simp] theorem segments_map (f : Segment R → Segment R) (p : Pattern R) :
    (p.map f).segments = p.segments.map f := rfl

@[simp] theorem loopStart_map (f : Segment R → Segment R) (p : Pattern R) :
    (p.map f).loopStart = p.loopStart := rfl

end Pattern
end Haptics
