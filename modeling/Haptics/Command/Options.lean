import Haptics.Text.Numeral

/-!
# Options of the command line

An option takes one value, attached to it or as the next argument. A value that follows is read only
when the next option begins or the arguments end, so an unknown argument is reported before a bad
value in front of it.
-/

namespace Haptics.Command

/-- The options that take a value. -/
inductive Opt
  | config | oneshot | waveform | loopStart | prebaked | actuators | usage | cancelAfter
deriving DecidableEq, Repr

namespace Opt

def all : List Opt :=
  [config, oneshot, waveform, loopStart, prebaked, actuators, usage, cancelAfter]

def long : Opt → String
  | config => "config"
  | oneshot => "oneshot"
  | waveform => "waveform"
  | loopStart => "repeat"
  | prebaked => "prebaked"
  | actuators => "actuators"
  | usage => "usage"
  | cancelAfter => "cancel-after"

def short? : Opt → Option Char
  | config => some 'c'
  | oneshot => some 'o'
  | waveform => some 'w'
  | loopStart => some 'r'
  | prebaked => some 'p'
  | actuators => some 'a'
  | usage => some 'u'
  | cancelAfter => none

/-- What an option is for. -/
def purpose : Opt → String
  | config => "Path to the YAML vibration / actuator configuration file"
  | oneshot => "Play a single hold of this many milliseconds"
  | waveform => "Play an off/on timing pattern (first entry is off)"
  | loopStart => "Repeat index into the waveform"
  | prebaked => "Play a prebaked effect by name (click, tick, thud, ...)"
  | actuators => "Target only these actuators (stereo). Default plays on all of them"
  | usage => "Usage category used for intensity scaling [default: touch]"
  | cancelAfter => "Gracefully cancel the vibration after this many milliseconds"

/-- How an option is introduced to a user. -/
def synopsis (opt : Opt) : String :=
  let short := match opt.short? with
    | some c => String.ofList ['-', c] ++ ", "
    | none => "    "
  "  " ++ short ++ "--" ++ opt.long ++ "\n          " ++ opt.purpose

def ofLong? (name : String) : Option Opt := all.find? (·.long == name)

def ofShort? (c : Char) : Option Opt := all.find? (·.short? == some c)

end Opt

/-- Why arguments are refused. -/
inductive UsageError
  | helpWanted
  | unknownArgument (argument : String)
  | missingValue (opt : Opt)
  | badValue (opt : Opt) (value : String)
  /-- A value is attached to an option that takes none. -/
  | needlessValue (value : String)
  /-- Two options exclude each other, or one that counts once is given twice. -/
  | conflict (opt other : Opt)
  /-- An option makes sense only with another one. -/
  | lacking (opt : Opt)
deriving DecidableEq, Repr

def UsageError.message : UsageError → String
  | helpWanted => "help is wanted"
  | unknownArgument a => "unexpected argument '" ++ a ++ "' found"
  | missingValue opt => "a value is required for '--" ++ opt.long ++ "' but none was supplied"
  | badValue opt value => "invalid value '" ++ value ++ "' for '--" ++ opt.long ++ "'"
  | needlessValue value => "unexpected value '" ++ value ++ "' for '--help' found"
  | conflict opt other =>
    if opt = other then "'--" ++ opt.long ++ "' cannot be used multiple times"
    else "'--" ++ opt.long ++ "' cannot be used with '--" ++ other.long ++ "'"
  | lacking opt => "'--" ++ opt.long ++ "' is required but was not provided"

/-- What the arguments ask for. Durations are in milliseconds. -/
structure Options where
  config : Option String := none
  oneshot : Option Nat := none
  /-- How long the motor is off and on in turns. -/
  waveform : Option (List Nat) := none
  /-- Where the waveform starts over. -/
  loopStart : Option Nat := none
  prebaked : Option String := none
  actuators : Option (List Int) := none
  usage : Option String := none
  cancelAfter : Option Nat := none
deriving DecidableEq, Repr

namespace Options

def has (o : Options) : Opt → Bool
  | .config => o.config.isSome
  | .oneshot => o.oneshot.isSome
  | .waveform => o.waveform.isSome
  | .loopStart => o.loopStart.isSome
  | .prebaked => o.prebaked.isSome
  | .actuators => o.actuators.isSome
  | .usage => o.usage.isSome
  | .cancelAfter => o.cancelAfter.isSome

def usageName (o : Options) : String := o.usage.getD "touch"

/-! ## Values -/

/-- Reads digits below a bound, behind an optional plus. -/
def natural? (bound : Nat) (cs : List Char) : Option Nat :=
  let digits := match cs with
    | '+' :: cs => cs
    | cs => cs
  (Text.digits? 10 digits).filter (· < bound)

/-- Reads the number of an actuator. -/
def integer? (s : String) : Option Int :=
  match s.toList with
  | '-' :: '+' :: _ => none
  | '-' :: cs => (natural? 2147483649 cs).map fun n => -(n : Int)
  | cs => (natural? 2147483648 cs).map fun n => (n : Int)

/-- Reads values between commas. -/
def listOf? {α : Type} (read : String → Option α) (s : String) : Option (List α) :=
  (s.splitOn ",").mapM read

def word? (s : String) : Option Nat := natural? 18446744073709551616 s.toList

/-- Gives an option a value. An option with a list takes more values when it is given again. -/
def give (o : Options) (opt : Opt) (value : String) : Except UsageError Options := do
  let read {α : Type} (x : Option α) : Except UsageError α :=
    match x with
    | some x => .ok x
    | none => .error (.badValue opt value)
  match opt with
  | .waveform =>
    return { o with waveform := some (o.waveform.getD [] ++ (← read (listOf? word? value))) }
  | .actuators =>
    return { o with actuators := some (o.actuators.getD [] ++ (← read (listOf? integer? value))) }
  | opt =>
    if o.has opt then throw (.conflict opt opt)
    match opt with
    | .config =>
      if value.isEmpty then throw (.missingValue opt) else return { o with config := value }
    | .oneshot => return { o with oneshot := some (← read (word? value)) }
    | .loopStart => return { o with loopStart := some (← read (word? value)) }
    | .cancelAfter => return { o with cancelAfter := some (← read (word? value)) }
    | .prebaked => return { o with prebaked := value }
    | .usage => return { o with usage := value }
    | .waveform | .actuators => return o

/-! ## Arguments -/

/-- Arguments that are partly read. -/
structure Reading where
  options : Options := {}
  /-- An option whose value follows, and that value. -/
  pending : Option (Opt × Option String) := none
  /-- Whether no options can follow. -/
  isClosed : Bool := false

namespace Reading

/-- Gives the pending option its value. -/
def settle (r : Reading) : Except UsageError Reading :=
  match r.pending with
  | none => .ok r
  | some (opt, none) => .error (.missingValue opt)
  | some (opt, some value) => do
    return { r with options := ← r.options.give opt value, pending := none }

/-- Begins an option. -/
def begin (r : Reading) (opt : Opt) (attached : Option String) : Except UsageError Reading := do
  let r ← r.settle
  match attached with
  | some value => return { r with options := ← r.options.give opt value }
  | none => return { r with pending := some (opt, none) }

/-- Asks for help, if all is well so far. -/
def help (r : Reading) : Except UsageError Reading := do
  let _ ← r.settle
  throw .helpWanted

/-- An option by its long name, with a value behind an equals sign. -/
def long (r : Reading) (text : List Char) : Except UsageError Reading :=
  let name := String.ofList (text.takeWhile (· != '='))
  let attached := match text.dropWhile (· != '=') with
    | _ :: value => some (String.ofList value)
    | [] => none
  match Opt.ofLong? name, attached with
  | some opt, _ => r.begin opt attached
  | none, none => if name = "help" then r.help else .error (.unknownArgument ("--" ++ name))
  | none, some value =>
    .error (if name = "help" then .needlessValue value else .unknownArgument ("--" ++ name))

/-- An option by its letter. What follows the letter is the value, with or without an equals
sign. -/
def short (r : Reading) (letter : Char) (rest : List Char) : Except UsageError Reading :=
  match Opt.ofShort? letter with
  | some opt => r.begin opt (match rest with
      | [] => none
      | '=' :: value => some (String.ofList value)
      | value => some (String.ofList value))
  | none =>
    if letter = 'h' then r.help else .error (.unknownArgument (String.ofList ['-', letter]))

/-- Reads an argument. -/
def next (r : Reading) (argument : String) : Except UsageError Reading :=
  let unknown := .error (.unknownArgument argument)
  if r.isClosed then unknown
  else match argument.toList with
    | ['-', '-'] => .ok { r with isClosed := true }
    | '-' :: '-' :: text => r.long text
    | '-' :: letter :: rest => r.short letter rest
    | _ => match r.pending with
      | some (opt, none) => .ok { r with pending := some (opt, some argument) }
      | _ => unknown

end Reading

/-- The pairs of options that exclude each other. -/
def exclusive : List (Opt × Opt) :=
  [(.oneshot, .waveform), (.oneshot, .prebaked), (.waveform, .prebaked)]

/-- Checks what options need of each other. A loop needs a waveform, unless something excludes the
waveform anyway. -/
def check (o : Options) : Except UsageError Options :=
  match exclusive.find? fun (a, b) => o.has a && o.has b with
  | some (a, b) => .error (.conflict a b)
  | none =>
    if o.has .loopStart && !o.has .waveform && !o.has .oneshot && !o.has .prebaked then
      .error (.lacking .waveform)
    else .ok o

/-- Reads the arguments of a command line. -/
def parse (arguments : List String) : Except UsageError Options := do
  let r ← arguments.foldlM Reading.next {}
  let r ← r.settle
  r.options.check

end Options
end Haptics.Command
