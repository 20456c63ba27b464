import Haptics.Actuator.Profile

/-!
# Fitting a pattern to an actuator

Before an actuator plays a pattern, each segment is replaced by segments that it can play: a
prebaked effect into its fallback composition, a ramp into a staircase of holds, a hold with a
frequency into a flat ramp, a long ramp into short ones. Every pass goes through the segment list and
puts a list into the place of each segment; the loop start follows the segment it points at. What is
left must be playable.
-/

namespace Haptics

/-- A way to replace each segment of a list. -/
abbrev Pass (R : Type) := Segment R → List (Segment R)

/-- How far a pass has come with a segment list: what stands in front by now, and the index that the
list, as it stands with the rest of the segments behind, repeats from. -/
structure Splicing (R : Type) where
  done : Array (Segment R)
  loopStart : Option Nat

namespace Splicing
variable {R : Type}

/-- Where in the list the pass is. -/
def index (s : Splicing R) : Nat := s.done.size

/-- Puts some segments into the place of the next one and goes on behind them. A loop start behind
that segment moves along. -/
def put (s : Splicing R) (xs : List (Segment R)) : Splicing R :=
  let loopStart := s.loopStart.map fun r => if s.index < r then r + xs.length - 1 else r
  ⟨s.done ++ xs, loopStart⟩

end Splicing

namespace Pass
variable {R : Type}

/-- The pass that leaves everything as it is. -/
def keep : Pass R := fun s => [s]

/-- How far the pass has come behind some segments. -/
def goThrough (pass : Pass R) (xs : List (Segment R)) (loopStart : Option Nat) : Splicing R :=
  xs.foldl (fun s x => s.put (pass x)) ⟨#[], loopStart⟩

/-- Replaces the segments of a list and moves its loop start along. -/
def apply (pass : Pass R) (x : List (Segment R) × Option Nat) : List (Segment R) × Option Nat :=
  let s := pass.goThrough x.1 x.2
  (s.done.toList, s.loopStart)

variable [Level R]

/-- Replaces a prebaked effect that the actuator does not have by its composition. -/
def fallback (fallbacks : Table EffectId (List (Segment R))) (p : Profile R) : Pass R
  | .prebaked b =>
    if b.replaceable ∧ p.support b.effect = .no then
      (fallbacks.find? b.effect).getD [.prebaked b]
    else [.prebaked b]
  | s => [s]

/-- The `i`-th of `count` points that divide a whole evenly, both ends included. A single point is
the end. -/
def evenly (i count : Nat) : R :=
  if 1 < count then (i : R) / ((count - 1 : Nat) : R) else 1

/-- The number of pieces of at most `limit` that make up `ms`. -/
def pieces (ms limit : Nat) : Nat := (ms + limit - 1) / limit

/-- A ramp as holds of `step` milliseconds, the last one shorter if it has to be. A flat ramp is one
hold. -/
def staircase (step : Nat) (keepHz : Bool) (s : Sweep R) : List (Segment R) :=
  let hz (x : R) : R := if keepHz then x else 0
  if s.startAmplitude == s.endAmplitude && s.startHz == s.endHz then
    [.hold ⟨.level s.startAmplitude, hz s.startHz, s.ms⟩]
  else
    let count := max (pieces s.ms step) 1
    (List.range count).map fun i =>
      let t : R := evenly i count
      .hold {
        amplitude := .level (Level.between s.startAmplitude s.endAmplitude t)
        hz := hz (Level.between s.startHz s.endHz t)
        ms := if i + 1 = count then s.ms - step * (count - 1) else step }

/-- Replaces ramps by staircases on an actuator without ramps. A step of zero leaves them. -/
def rampToHolds (step : Nat) (p : Profile R) : Pass R
  | .ramp s =>
    if p.can .composeRamps ∨ step = 0 then [.ramp s]
    else staircase step (p.can .frequencyControl) s
  | s => [s]

/-- Replaces holds that state a frequency by flat ramps on an actuator with ramps. -/
def holdToRamp (p : Profile R) : Pass R
  | .hold h =>
    if p.can .composeRamps ∧ (h.hz == 0) = false then
      [.ramp ⟨h.amplitude.value, h.amplitude.value, h.hz, h.hz, h.ms⟩]
    else [.hold h]
  | s => [s]

/-- The `i`-th of `count` pieces of equal length that a ramp is cut into. What the division leaves
over goes to the last piece. -/
def piece (count : Nat) (s : Sweep R) (i : Nat) : Sweep R :=
  let base := s.ms / count
  let part (elapsed : Nat) : R := (elapsed : R) / (s.ms : R)
  let start := base * i
  let stop := if i + 1 = count then s.ms else base * (i + 1)
  { startAmplitude := Level.between s.startAmplitude s.endAmplitude (part start)
    endAmplitude := Level.between s.startAmplitude s.endAmplitude (part stop)
    startHz := Level.between s.startHz s.endHz (part start)
    endHz := Level.between s.startHz s.endHz (part stop)
    ms := stop - start }

/-- A ramp cut into as few pieces as take at most `limit` milliseconds on average. -/
def split (limit : Nat) (s : Sweep R) : List (Segment R) :=
  let count := pieces s.ms limit
  (List.range count).map fun i => .ramp (piece count s i)

/-- Cuts ramps that are longer than the actuator takes. -/
def shortenRamps (p : Profile R) : Pass R
  | .ramp s =>
    if p.can .composeRamps ∧ p.rampMsMax ≠ 0 ∧ p.rampMsMax < s.ms then split p.rampMsMax s
    else [.ramp s]
  | s => [s]

end Pass

/-! ## Playability -/

namespace Profile
variable {R : Type} [Level R]

/-- Envelopes need the ability and both frequencies inside the band. -/
def playsEnvelope (p : Profile R) : Segment R → Bool
  | .envelope s => p.can .composeEnvelopes && p.band.contains s.startHz && p.band.contains s.endHz
  | _ => true

omit [Level R] in
def playsPrimitive (p : Profile R) : Segment R → Bool
  | .primitive x => p.supportsPrimitive x.id
  | _ => true

omit [Level R] in
/-- No actuator plays sweeps in perceptual units. -/
def playsBasic (_ : Profile R) : Segment R → Bool
  | .basic _ => false
  | _ => true

omit [Level R] in
/-- A prebaked effect is refused only if the actuator says that it does not have it. -/
def playsPrebaked (p : Profile R) : Segment R → Bool
  | .prebaked b => p.support b.effect != .no
  | _ => true

/-- Whether the actuator plays a segment as it is. -/
def plays (p : Profile R) (s : Segment R) : Bool :=
  p.playsEnvelope s && p.playsPrimitive s && p.playsBasic s && p.playsPrebaked s

end Profile

/-- How patterns are fitted: the fallback compositions and the length of a staircase step. -/
structure Fitting (R : Type) where
  fallbacks : Table EffectId (List (Segment R))
  step : Nat

namespace Fitting
variable {R : Type} [Level R]

/-- Runs all passes over a segment list. A loop start that ends up past the end is dropped. -/
def fitSegments (f : Fitting R) (p : Profile R) (segments : List (Segment R))
    (loopStart : Option Nat) : List (Segment R) × Option Nat :=
  let passes := [Pass.fallback f.fallbacks p, Pass.rampToHolds f.step p, Pass.holdToRamp p,
    Pass.shortenRamps p]
  let (fitted, index) := passes.foldl (fun x pass => pass.apply x) (segments, loopStart)
  (fitted, index.filter (· < fitted.length))

/-- Fits an effect to an actuator, if what comes out is playable. Vendor payloads pass through. -/
def fit? (f : Fitting R) (p : Profile R) : Effect R → Option (Effect R)
  | .vendor v => some (.vendor v)
  | .pattern x =>
    let (segments, loopStart) := f.fitSegments p x.segments x.loopStart
    if segments.all p.plays then some (.pattern (.ofSegments segments loopStart)) else none

end Fitting
end Haptics
