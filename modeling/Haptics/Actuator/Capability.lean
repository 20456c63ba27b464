import Haptics.Flags

/-!
# Capabilities

What the hardware of an actuator can do, and what the hardware that coordinates actuators can do.
-/

namespace Haptics

/-- An optional ability of an actuator. -/
inductive Capability
  | onCallback | performCallback | amplitudeControl | externalControl | externalAmplitudeControl
  | composeEffects | alwaysOnControl | resonantFrequency | qFactor | frequencyControl
  | composeRamps | performVendor | composeEnvelopes
deriving DecidableEq, Repr

instance : Flag Capability where
  all :=
    [.onCallback, .performCallback, .amplitudeControl, .externalControl, .externalAmplitudeControl,
      .composeEffects, .alwaysOnControl, .resonantFrequency, .qFactor, .frequencyControl,
      .composeRamps, .performVendor, .composeEnvelopes]
  name
    | .onCallback => "on_callback"
    | .performCallback => "perform_callback"
    | .amplitudeControl => "amplitude_control"
    | .externalControl => "external_control"
    | .externalAmplitudeControl => "external_amplitude_control"
    | .composeEffects => "compose_effects"
    | .alwaysOnControl => "always_on_control"
    | .resonantFrequency => "get_resonant_frequency"
    | .qFactor => "get_q_factor"
    | .frequencyControl => "frequency_control"
    | .composeRamps => "compose_pwle_effects"
    | .performVendor => "perform_vendor_effects"
    | .composeEnvelopes => "compose_pwle_effects_v2"

/-- An optional ability of the hardware that coordinates actuators. -/
inductive GroupCapability
  | sync | prepareOn | preparePerform | prepareCompose
  | mixedTriggerOn | mixedTriggerPerform | mixedTriggerCompose | triggerCallback | startSessions
deriving DecidableEq, Repr

instance : Flag GroupCapability where
  all :=
    [.sync, .prepareOn, .preparePerform, .prepareCompose, .mixedTriggerOn, .mixedTriggerPerform,
      .mixedTriggerCompose, .triggerCallback, .startSessions]
  name
    | .sync => "sync"
    | .prepareOn => "prepare_on"
    | .preparePerform => "prepare_perform"
    | .prepareCompose => "prepare_compose"
    | .mixedTriggerOn => "mixed_trigger_on"
    | .mixedTriggerPerform => "mixed_trigger_perform"
    | .mixedTriggerCompose => "mixed_trigger_compose"
    | .triggerCallback => "trigger_callback"
    | .startSessions => "start_sessions"

end Haptics
