import Haptics.Actuator.Signal
import Haptics.Text.Decimal

/-!
# Transcripts

The text of a hardware call: its name, and its fields between braces if it has any.
-/

namespace Haptics.Command

/-- A name with named fields. -/
def record (name : String) (fields : List (String × String)) : String :=
  let inner := ", ".intercalate (fields.map fun (field, value) => field ++ ": " ++ value)
  name ++ " \x7b " ++ inner ++ " \x7d"

def idsText (ids : List ActuatorId) : String := "[" ++ ", ".intercalate (ids.map toString) ++ "]"

/-- The text of a call. -/
def callText : Call Float32 → String
  | .on a ms => record "On" [("actuator", toString a), ("millis", toString ms)]
  | .off a => record "Off" [("actuator", toString a)]
  | .setAmplitude a x =>
    record "SetAmplitude" [("actuator", toString a), ("amplitude", Text.short x)]
  | .setExternalControl a enabled =>
    record "SetExternalControl" [("actuator", toString a), ("enabled", toString enabled)]
  | .perform a e s =>
    record "Perform" [("actuator", toString a),
      ("effect", "EffectId(" ++ toString e.code ++ ")"), ("strength", s.title)]
  | .compose a n => record "Compose" [("actuator", toString a), ("count", toString n)]
  | .composeRamps a n => record "ComposePwle" [("actuator", toString a), ("count", toString n)]
  | .composeEnvelope a n => record "ComposePwleV2" [("actuator", toString a), ("count", toString n)]
  | .performVendor a => record "PerformVendor" [("actuator", toString a)]
  | .alwaysOn a slot enabled =>
    record "AlwaysOn" [("actuator", toString a), ("slot", toString slot),
      ("enabled", toString enabled)]
  | .prepare ids => record "PrepareSynced" [("ids", idsText ids)]
  | .trigger => "TriggerSynced"
  | .cancelSync => "CancelSynced"
  | .startSession ids => record "StartSession" [("ids", idsText ids)]
  | .endSession abort => record "EndSession" [("abort", toString abort)]
  | .clearSessions => "ClearSessions"

end Haptics.Command
