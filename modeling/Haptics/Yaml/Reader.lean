import Haptics.Yaml.Node
import Haptics.Text.Numeral

/-!
# Readers

What the nodes of a document mean where a certain type is expected. Any scalar is a text, a number
is plain, and nothing at all is an empty collection. A record passes over fields it does not know,
but no field it knows may be written twice.
-/

namespace Haptics.Yaml

/-- Reads a value from a node of a document, if there is one of the type. -/
abbrev Reader (α : Type) := Document → Node → Option α

namespace Reader
variable {α κ : Type}

def text : Reader String := fun d x =>
  match d.follow x with
  | .scalar _ s => some s.text
  | _ => none

/-- Reads a text that may be a number: a plain one, or a literal one with the tag of a type. -/
def numberText (type : String) : Reader String := fun d x =>
  match d.follow x with
  | .scalar tag s =>
    if s.style = .plain ∨ s.style = .literal ∧ tag = some ("tag:yaml.org,2002:" ++ type) then
      some s.text
    else none
  | _ => none

/-- Reads an integer from `low` on and below `high`. -/
def integer (low high : Int) : Reader Int := fun d x => do
  let i ← Text.integer? (← numberText "int" d x)
  if low ≤ i ∧ i < high then some i else none

/-- Reads a natural number below a bound. -/
def natural (bound : Nat) : Reader Nat := fun d x => do
  let n ← Text.natural? (← numberText "int" d x)
  if n < bound then some n else none

def number {R : Type} [Text.OfNumeral R] : Reader R := fun d x => do
  let n ← Text.numeral? (← numberText "float" d x)
  some (Text.OfNumeral.ofNumeral n)

/-- The ways to write that there is nothing. -/
def nothings : List String := ["~", "null", "Null", "NULL"]

/-- Reads a value that may be missing. -/
def optional (read : Reader α) : Reader (Option α) := fun d x =>
  match d.follow x with
  | .scalar tag s =>
    if s.style ≠ .plain then some <$> read d x
    else match tag with
      | some "tag:yaml.org,2002:null" => if nothings.contains s.text then some none else none
      | some _ => some <$> read d x
      | none =>
        if s.text.isEmpty ∨ nothings.contains s.text then some none else some <$> read d x
  | _ => some <$> read d x

/-- Whether nothing is written at a node. -/
def isBlank : Node → Bool
  | .scalar _ s => s.style = .plain ∧ s.text.isEmpty
  | _ => false

def list (item : Reader α) : Reader (List α) := fun d x =>
  match d.follow x with
  | .sequence items => items.mapM (item d)
  | x => if isBlank x then some [] else none

/-- Reads the pairs of a mapping. -/
def pairs (key : Reader κ) (value : Reader α) : Reader (List (κ × α)) := fun d x =>
  match d.follow x with
  | .mapping pairs => pairs.mapM fun (k, v) => do return (← key d k, ← value d v)
  | x => if isBlank x then some [] else none

end Reader

/-! ## Records -/

/-- The fields of a mapping that a record knows. -/
structure Fields where
  document : Document
  values : List (String × Node)

namespace Fields
variable {α : Type}

/-- Reads a field that has to be there. -/
def required (f : Fields) (name : String) (read : Reader α) : Option α := do
  read f.document (← f.values.lookup name)

/-- Reads a field, `other` standing in where it is missing. -/
def getD (f : Fields) (name : String) (other : α) (read : Reader α) : Option α :=
  match f.values.lookup name with
  | some x => read f.document x
  | none => some other

/-- Reads a field that may be missing or hold nothing. -/
def optional (f : Fields) (name : String) (read : Reader α) : Option (Option α) :=
  f.getD name none (Reader.optional read)

end Fields

/-- Reads a record with some fields. -/
def Reader.record {α : Type} (names : List String) (read : Fields → Option α) : Reader α :=
  fun d x => do
    let ps ← Reader.pairs Reader.text (fun _ x => some x) d x
    let values := ps.filter fun (name, _) => names.contains name
    if (values.map (·.1)).Nodup then read ⟨d, values⟩ else none

end Haptics.Yaml
