/-!
# Identifiers of hardware effects

Prebaked effects and composition primitives are named by number. Hardware may report numbers that
have no name here, so the identifiers are open.
-/

namespace Haptics

/-- The number of a prebaked effect. -/
structure EffectId where
  code : Int
deriving DecidableEq, Repr, Inhabited

/-- The number of a composition primitive. -/
structure PrimitiveId where
  code : Int
deriving DecidableEq, Repr, Inhabited

namespace EffectId

instance : LT EffectId := ⟨fun a b => a.code < b.code⟩

instance (a b : EffectId) : Decidable (a < b) := inferInstanceAs (Decidable (a.code < b.code))

/-- The named effects. -/
def named : List (String × EffectId) :=
  [("click", ⟨0⟩), ("double_click", ⟨1⟩), ("tick", ⟨2⟩), ("thud", ⟨3⟩), ("pop", ⟨4⟩),
    ("heavy_click", ⟨5⟩), ("texture_tick", ⟨21⟩)]

def ofName? (s : String) : Option EffectId := named.lookup s

/-- The name in capitals, or the number of an effect without a name. -/
def label (id : EffectId) : String :=
  match named.find? (·.2 == id) with
  | some (name, _) => name.toUpper
  | none => toString id.code

end EffectId

namespace PrimitiveId

instance : LT PrimitiveId := ⟨fun a b => a.code < b.code⟩

instance (a b : PrimitiveId) : Decidable (a < b) :=
  inferInstanceAs (Decidable (a.code < b.code))

/-- The named primitives. -/
def named : List (String × PrimitiveId) :=
  [("noop", ⟨0⟩), ("click", ⟨1⟩), ("thud", ⟨2⟩), ("spin", ⟨3⟩), ("quick_rise", ⟨4⟩),
    ("slow_rise", ⟨5⟩), ("quick_fall", ⟨6⟩), ("tick", ⟨7⟩), ("low_tick", ⟨8⟩)]

def ofName? (s : String) : Option PrimitiveId := named.lookup s

end PrimitiveId
end Haptics
