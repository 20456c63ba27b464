import Haptics.Conductor.Opening

/-!
# Turns

Playing a step gives actuators a turn: a step of an actuator gives it one, and the first step of a
vibration one to each actuator, up to the first that fails. The program dies in a turn that makes a
drive whose total does not fit a word.
-/

namespace Haptics

variable {R : Type}

/-- A step of an actuator is played on a stage. -/
structure Turn (R : Type) where
  stage : Stage R
  lane : Lane
  task : Task R

/-- What a deed leaves on a stage, if it is a drive that the program dies of. -/
def Deed.overflow? (s : Stage R) : Deed R → Option (Stage R)
  | .drive a _ x _ => (s.rig.overflow? a x).map fun rig => { s with rig }
  | _ => none

variable [Level R]

namespace Turn

def played (plan : Plan R) (t : Turn R) : Played R := t.lane.play plan t.stage t.task

/-- What a turn leaves, if the program dies of it. A lane drives before it does anything else. -/
def overflow? (plan : Plan R) (t : Turn R) : Option (Stage R) :=
  ((t.played plan).stage.deeds.extract t.stage.deeds.size).toList.findSome?
    (·.2.overflow? t.stage)

end Turn

namespace Stage

variable (plan : Plan R)

/-- The turns of first steps, up to the first that fails. -/
def turnsEach (s : Stage R) : List (Lane × Task R × Effect R) → List (Turn R)
  | [] => []
  | (l, task, _) :: es =>
    let played := l.play plan s task
    ⟨s, l, task⟩ :: if played.result < 0 then [] else played.stage.turnsEach es

/-- The turns of a start. -/
def turnsAll (s : Stage R) (es : List (ActuatorId × Effect R)) : List (Turn R) :=
  let (firsts, s) := s.issueFirst es
  let (_, s) :=
    if 1 < es.length then s.prepare (requiredSync (es.map (·.2))) (es.map (·.1)) else (false, s)
  s.turnsEach plan firsts

/-- The turns of actuators in the playing of a step. -/
def turns (s : Stage R) : Step R → List (Turn R)
  | .start v _ => s.turnsAll plan (s.effects v)
  | .lane l task => [⟨s, l, task⟩]
  | .finish => []

/-- What playing a step leaves, if the program dies of it. -/
def overflow? (s : Stage R) (x : Step R) : Option (Stage R) :=
  (s.turns plan x).findSome? (·.overflow? plan)

end Stage
end Haptics
