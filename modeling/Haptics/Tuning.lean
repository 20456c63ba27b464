import Haptics.Table
import Haptics.Effect.Segment

/-!
# Tuning

The settings of a device as they were configured, and what they mean: values outside their range
read as the default.
-/

namespace Haptics

/-- How the distance between two intensities becomes a scale factor. -/
inductive ScaleMode
  /-- A power of the gain. -/
  | exponential
  /-- A fixed factor per level. The factors of the device then apply in proportion. -/
  | table
deriving DecidableEq, Repr, Inhabited

/-- The settings of a device. Durations are in milliseconds. -/
structure Tuning (R : Type) where
  rawAmplitude : Int := 255
  rawGain : R
  scaleMode : ScaleMode := .exponential
  /-- Scale factors for low, medium and high intensity. -/
  rawFactors : Option (List R) := none
  /-- The same for vibrations that other devices drive. -/
  rawExternalFactors : Option (List R) := none
  rawRampDown : Int := 0
  rawRampStep : Int := 5
  /-- How long after its expected end a drive may still report that it ended. -/
  rawGrace : Int := 1000
  rawCapacity : Nat := 64
  intensities : Usage → Option Intensity := fun _ => none
  /-- The compositions that replace prebaked effects. -/
  fallbacks : Table EffectId (List (Segment R)) := {}

namespace Tuning
variable {R : Type} [Level R]

def defaultGain : R := Level.ratio 14 10

instance : Inhabited (Tuning R) := ⟨{ rawGain := defaultGain }⟩

/-- The settings of a device that configures nothing. -/
def standard : Tuning R := default

/-- The device default amplitude, positive and at most one. -/
def amplitude (t : Tuning R) : R :=
  Level.ratio (if 1 ≤ t.rawAmplitude ∧ t.rawAmplitude ≤ 255 then t.rawAmplitude.toNat else 255) 255

/-- The gain of the exponential mode, above one. -/
def gain (t : Tuning R) : R := if 1 < t.rawGain then t.rawGain else defaultGain

/-- Factors are used only if there is a positive one for each intensity. -/
def valid? (factors : Option (List R)) : Option (List R) :=
  factors.filter fun f => f.length == 3 && f.all (fun x => decide (0 < x))

def hasFactors (t : Tuning R) : Bool := (valid? t.rawFactors).isSome

def hasExternalFactors (t : Tuning R) : Bool := (valid? t.rawExternalFactors).isSome

/-- The factor for an intensity, or `other` where there is none. -/
def pick (factors : Option (List R)) (intensity : Intensity) (other : R) : R :=
  match factors, intensity.level with
  | some f, i + 1 => f.getD i other
  | _, _ => other

/-- The device scale factor for an intensity, or `other` where the device has none. -/
def factor (t : Tuning R) (intensity : Intensity) (other : R) : R :=
  pick (valid? t.rawFactors) intensity other

/-- The device scale factor for external vibrations, the ordinary one standing in. -/
def externalFactor (t : Tuning R) (intensity : Intensity) (other : R) : R :=
  match valid? t.rawExternalFactors with
  | some f => pick (some f) intensity other
  | none => t.factor intensity other

omit [Level R] in
def rampDown (t : Tuning R) : Nat := t.rawRampDown.toNat

omit [Level R] in
def rampStep (t : Tuning R) : Nat := t.rawRampStep.toNat

omit [Level R] in
def grace (t : Tuning R) : Nat := t.rawGrace.toNat

omit [Level R] in
/-- How many callbacks may wait for a conductor. -/
def capacity (t : Tuning R) : Nat := max t.rawCapacity 1

omit [Level R] in
def intensity (t : Tuning R) (u : Usage) : Intensity := (t.intensities u).getD .medium

end Tuning
end Haptics
