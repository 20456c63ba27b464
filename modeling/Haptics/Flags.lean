/-!
# Sets of flags

A set over a finite enumeration of named flags, listed in the order of the enumeration.
-/

namespace Haptics

/-- A finite enumeration of flags with a name each. The position in `all` is the bit number. -/
class Flag (α : Type) where
  all : List α
  name : α → String

/-- A set of flags, given by its members. -/
structure Flags (α : Type) where
  has : α → Bool

namespace Flags
variable {α : Type}

instance : Inhabited (Flags α) := ⟨⟨fun _ => false⟩⟩

def empty : Flags α := ⟨fun _ => false⟩

def full : Flags α := ⟨fun _ => true⟩

def union (s t : Flags α) : Flags α := ⟨fun x => s.has x || t.has x⟩

def diff (s t : Flags α) : Flags α := ⟨fun x => s.has x && !t.has x⟩

def ofList [DecidableEq α] (xs : List α) : Flags α := ⟨fun x => xs.contains x⟩

section
variable [Flag α]

/-- The members in the order of the enumeration. -/
def toList (s : Flags α) : List α := (Flag.all (α := α)).filter s.has

def isEmpty (s : Flags α) : Bool := s.toList.isEmpty

/-- Whether every member of `t` is a member of `s`. -/
def contains (s t : Flags α) : Bool := t.toList.all s.has

/-- The set as a number whose bits are the members. -/
def bits (s : Flags α) : Nat :=
  (Flag.all (α := α)).zipIdx.foldr (fun (x, i) n => (if s.has x then 1 <<< i else 0) + n) 0

/-- The set whose members are the bits of `n`. Bits without a flag are dropped. -/
def ofBits [DecidableEq α] (n : Nat) : Flags α :=
  ofList (((Flag.all (α := α)).zipIdx.filter fun (_, i) => n.testBit i).map (·.1))

/-- The set of the known names of a list, read without regard to case. -/
def ofNames [DecidableEq α] (names : List String) : Flags α :=
  ofList (names.filterMap find?)
where
  find? (name : String) : Option α := (Flag.all (α := α)).find? (Flag.name · == name.toLower)

end
end Flags

/-- The flag with a name, read without regard to the case of ASCII letters. -/
def Flag.ofName? (α : Type) [Flag α] (name : String) : Option α :=
  (Flag.all (α := α)).find? (Flag.name · == name.toLower)

end Haptics
