import Haptics.Level.Binary32
import Haptics.Command.Session
import Haptics.Command.Transcript

/-!
# The program

Plays one vibration on simulated actuators and lists the hardware calls it took.
-/

open Haptics Command

/-- The text of a file, if it can be read. -/
def readText (path : String) : IO (Option String) := do
  try
    return some (← IO.FS.readFile path)
  catch _ => return none

def helpText : String :=
  "Plays one vibration on simulated actuators\n\nOptions:\n" ++
    "\n".intercalate (Opt.all.map Opt.synopsis) ++ "\n  -h, --help\n          Print help"

/-- Loads the settings that options name. -/
def loadSettings (o : Options) : IO (Except SettingsError (Settings Float32)) := do
  match o.config with
  | some path => return Settings.load (← readText path)
  | none => return .ok .standard

def main (arguments : List String) : IO UInt32 := do
  match Options.parse arguments with
  | .error .helpWanted =>
    IO.println helpText
    return 0
  | .error e =>
    IO.eprintln ("error: " ++ e.message)
    return 2
  | .ok o =>
    match play o (← loadSettings o) with
    | .error e =>
      IO.eprintln (e.message (o.config.getD ""))
      return 1
    | .ok (status, calls) =>
      for call in calls do
        IO.println (callText call)
      IO.println status.title
      return 0
