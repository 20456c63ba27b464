import Haptics.Effect.Pattern

/-!
# Positions in a pattern

Playback walks through a pattern by position. Past the last segment it goes on at the loop start, or
is over.
-/

namespace Haptics

/-- A place in a pattern. -/
structure Position (R : Type) where
  pattern : Pattern R
  index : Nat

/-- The least time a motor is turned on for when the pattern never turns it off. -/
def repeatingOnTime : Nat := 5000

/-- Adds up the holds in front of a list for which the motor stays on. Tells whether that is the
whole list. -/
def onRun {R : Type} [Level R] : List (Segment R) → Nat → Nat × Bool
  | [], total => (total, true)
  | .hold h :: ss, total =>
    if h.amplitude.isZero then (total, false) else onRun ss (saturate total h.ms)
  | _ :: _, total => (total, false)

namespace Position
variable {R : Type}

def segment? (p : Position R) : Option (Segment R) := p.pattern.segments[p.index]?

/-- The index `played` segments further on, past the end if a pattern that does not repeat is
over. -/
def advance (p : Position R) (played : Nat) : Nat :=
  let next := p.index + played
  let length := p.pattern.segments.length
  match p.pattern.loopStart with
  | some r => if length ≤ next then r + (next - length) % (length - r) else next
  | none => next

/-- How long to turn a motor on for: the run of holds with the motor on that begins here and goes on
once through the loop. A pattern that ends with the motor on leaves room to ramp down. -/
def onDuration [Level R] (p : Position R) (rampDown : Nat) : Nat :=
  let segments := p.pattern.segments
  match onRun (segments.drop p.index) 0, p.pattern.loopStart with
  | (total, false), _ => total
  | (total, true), none => saturate total rampDown
  | (total, true), some r =>
    if r ≤ p.index then
      match onRun ((segments.drop r).take (p.index - r)) total with
      | (total, true) => max total repeatingOnTime
      | (total, false) => total
    else (onRun (segments.drop r) total).1

/-- The segments from here on that `pick` takes, at most `limit` of them. A limit of zero is no
limit. -/
def run {α : Type} (p : Position R) (limit : Nat) (pick : Segment R → Option α) : List α :=
  let found := takeSome pick (p.pattern.segments.drop p.index)
  if limit = 0 then found else found.take limit
where
  takeSome (pick : Segment R → Option α) : List (Segment R) → List α
    | [] => []
    | s :: ss => match pick s with
      | some x => x :: takeSome pick ss
      | none => []

end Position
end Haptics
