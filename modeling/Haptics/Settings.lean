import Haptics.Actuator.Device
import Haptics.Tuning
import Haptics.Yaml.Reader

/-!
# Settings

The settings document of a device: its tuning, its actuators and the hardware that coordinates them.
Every part is optional. Names that mean nothing here are passed over, while a value of the wrong
shape spoils the whole document.
-/

namespace Haptics

/-- The description of one actuator. -/
structure ActuatorSettings (R : Type) where
  interface : Interface
  profile : Profile R
  /-- How much later than expected completions arrive. -/
  latency : Nat

/-- What a settings document says. -/
structure Settings (R : Type) where
  tuning : Tuning R
  actuators : Table ActuatorId (ActuatorSettings R) := {}
  /-- The abilities of the coordinating hardware, if there is any. -/
  group : Option (Flags GroupCapability) := none

/-- Why there are no settings. -/
inductive SettingsError
  | unreadable
  | malformed
deriving DecidableEq, Repr

def SettingsError.message : SettingsError → String
  | unreadable => "Cannot open configuration file"
  | malformed => "Failed to parse YAML file"

namespace Settings
variable {R : Type} [Level R]

/-- The settings of a device without a document. -/
def standard : Settings R := { tuning := .standard }

open Yaml (Reader)

/-! ## Reading -/

def names : Reader (List String) := .list .text

/-- A number of milliseconds, or of anything else. -/
def count : Reader Nat := .natural wordCount

/-- A table by the names of its keys, of which the unknown are left out. -/
def named {κ α : Type} [DecidableEq κ] [LT κ] [DecidableLT κ]
    (ofName? : String → Option κ) (es : List (String × α)) : Table κ α :=
  .ofList ((Table.ofList es).entries.filterMap fun (name, x) => (ofName? name).map (·, x))

section
variable [Text.OfNumeral R]

/-- A primitive of a composition that replaces a prebaked effect. One with an unknown name is left
out. -/
def primitive : Reader (Option (Primitive R)) :=
  .record ["primitive", "scale", "delay_ms"] fun f => do
    let name ← f.required "primitive" .text
    let scale ← f.getD "scale" 1 .number
    let delay ← f.getD "delay_ms" 0 (.natural 4294967296)
    return (PrimitiveId.ofName? name).map fun id => ⟨id, scale, delay⟩

/-- The compositions that replace prebaked effects. One that is left with no primitive is none. -/
def fallbacks (es : List (String × List (Option (Primitive R)))) :
    Table EffectId (List (Segment R)) :=
  let t := named EffectId.ofName? (es.map fun (name, ps) => (name, ps.filterMap id))
  ⟨(t.entries.map fun (id, ps) => (id, ps.map Segment.primitive)).filter fun e => !e.2.isEmpty⟩

def tuningReader : Reader (Tuning R) :=
  .record ["default_amplitude", "scale_level_gain", "scale_mode", "scale_factors",
      "external_scale_factors", "ramp_down_duration_ms", "ramp_step_duration_ms",
      "callbacks_extra_timeout_ms", "callback_queue_capacity", "default_intensities",
      "fallback_effects"] fun f => do
    let t : Tuning R := .standard
    let integer (name : String) (other : Int) : Option Int := do
      return (← f.optional name (.integer (-9223372036854775808) 9223372036854775808)).getD other
    let mode ← f.optional "scale_mode" .text
    let intensities ← f.getD "default_intensities" [] (.pairs .text .text)
    let chosen := Table.ofList intensities
    let replaced ← f.getD "fallback_effects" [] (.pairs .text (.list primitive))
    return {
      rawAmplitude := ← integer "default_amplitude" t.rawAmplitude
      rawGain := (← f.optional "scale_level_gain" .number).getD t.rawGain
      scaleMode := if mode = some "table" then .table else .exponential
      rawFactors := ← f.optional "scale_factors" (.list .number)
      rawExternalFactors := ← f.optional "external_scale_factors" (.list .number)
      rawRampDown := ← integer "ramp_down_duration_ms" t.rawRampDown
      rawRampStep := ← integer "ramp_step_duration_ms" t.rawRampStep
      rawGrace := ← integer "callbacks_extra_timeout_ms" t.rawGrace
      rawCapacity := (← f.optional "callback_queue_capacity" count).getD t.rawCapacity
      intensities := fun u => (chosen.find? u.name).map fun s => (Intensity.ofName? s).getD .medium
      fallbacks := fallbacks replaced }

def bandReader : Reader (Band R) :=
  .record ["min_hz", "max_hz", "resonant_hz"] fun f => do
    return {
      resonance := ← f.optional "resonant_hz" .number
      low := ← f.required "min_hz" .number
      high := ← f.required "max_hz" .number }

/-- An actuator without its number. -/
def actuatorReader : Reader (ActuatorId → ActuatorSettings R) :=
  .record ["backend", "capabilities", "supported_effects", "supported_primitives", "frequency",
      "composition_size_max", "pwle_size_max", "pwle_primitive_duration_max_ms",
      "max_envelope_effect_size", "hal_latency_ms"] fun f => do
    let backend ← f.optional "backend" .text
    let capabilities ← f.getD "capabilities" [] names
    let effects ← f.optional "supported_effects" (.pairs .text count)
    let primitives ← f.getD "supported_primitives" [] (.pairs .text count)
    let band ← f.optional "frequency" bandReader
    let compositionMax ← f.getD "composition_size_max" 0 count
    let rampsMax ← f.getD "pwle_size_max" 0 count
    let rampMsMax ← f.getD "pwle_primitive_duration_max_ms" 0 count
    let envelopeMax ← f.getD "max_envelope_effect_size" 0 count
    let latency ← f.getD "hal_latency_ms" 0 count
    return fun id => {
      interface := if backend = some "legacy" then .direct else .negotiated
      profile := { (Profile.degraded id : Profile R) with
        capabilities := .ofNames capabilities
        effects := effects.map (named EffectId.ofName?)
        primitives := named PrimitiveId.ofName? primitives
        compositionMax, rampsMax, rampMsMax, envelopeMax
        band := band.getD (Profile.degraded id : Profile R).band }
      latency }

def groupReader : Reader (Flags GroupCapability) :=
  .record ["capabilities"] fun f => do
    return .ofNames (← f.getD "capabilities" [] names)

def reader : Reader (Settings R) :=
  .record ["vibration", "actuators", "manager"] fun f => do
    let actuators ← f.getD "actuators" []
      (.pairs (.integer (-2147483648) 2147483648) actuatorReader)
    return {
      tuning := ← f.getD "vibration" .standard tuningReader
      actuators := .ofList (actuators.map fun (id, describe) => (id, describe id))
      group := ← f.optional "manager" groupReader }

/-- Reads the settings of a document, if its text could be read at all. -/
def load (text : Option String) : Except SettingsError (Settings R) :=
  match text with
  | none => .error .unreadable
  | some text =>
    match (Yaml.Document.read? text).bind fun d => reader d d.root with
    | some settings => .ok settings
    | none => .error .malformed

end

end Settings
end Haptics
