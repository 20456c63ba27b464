import Haptics.Conductor.Performance

/-!
# Recitals

A performance on a clock that jumps from one event to the next, with a script of things that happen
to it from outside. At one instant the conductor goes first, then completions arrive, then the
script acts. The script is finished even if the performance ends before it, but not if the program
dies.
-/

namespace Haptics

/-- A performance with the rest of its script. -/
structure Recital (R α : Type) where
  performance : Performance R
  /-- What happens from outside, and when. -/
  script : List (Nat × (Performance R → α × Performance R))
  /-- The instant at which the performance is stopped. -/
  horizon : Nat
  /-- What the script saw so far. -/
  seen : List α := []
  /-- When the performance ended. -/
  ended : Option Nat := none
  /-- Whether the program died. -/
  died : Bool := false

namespace Recital
variable {R α : Type} [Level R]

/-- Lets the conductor do what there is to do. -/
def settle (r : Recital R α) : Recital R α :=
  let performance := r.performance.settle patience
  { r with
    performance
    died := performance.overflow?.isSome
    ended := if r.ended.isNone ∧ performance.isOver then some performance.rig.now else r.ended }

omit [Level R] in
/-- Acts out the script up to an instant. -/
def act (r : Recital R α) (t : Nat) : Recital R α :=
  let due := r.script.takeWhile (·.1 ≤ t)
  let (seen, performance) := due.foldl (fun (seen, p) (_, f) =>
    let (a, p) := f p
    (seen ++ [a], p)) (r.seen, r.performance)
  { r with performance, seen, script := r.script.drop due.length }

omit [Level R] in
/-- Stops the performance if its time is up. -/
def expire (r : Recital R α) (t : Nat) : Recital R α :=
  if r.horizon ≤ t ∧ r.ended.isNone then
    { r with performance := { r.performance with
        cancels := r.performance.cancels ++ [.immediate] } }
  else r

omit [Level R] in
/-- Changes the rig. -/
def onRig (r : Recital R α) (f : Rig R → Rig R) : Recital R α :=
  { r with performance := r.performance.withRig (f r.performance.rig) }

/-- Everything that happens at an instant. The conductor has its turn after each. -/
def instant (r : Recital R α) (t : Nat) : Recital R α :=
  [(onRig · (·.moveTo t)), (onRig · Rig.fireDue), (act · t), (expire · t)].foldl
    (fun r f => if r.died then r else (f r).settle) r

omit [Level R] in
/-- The next instant at which something happens, if anything is left to happen. -/
def next? (r : Recital R α) : Option Nat :=
  if r.died ∨ r.ended.isSome ∧ r.script.isEmpty then none
  else
    let horizon := if r.ended.isNone then some r.horizon else none
    let wake := [r.performance.wake?, r.performance.rig.nextDue?]
    (wake ++ [r.script.head?.map (·.1), horizon]).filterMap id |>.min?

/-- Goes on from instant `t`, not beyond `last`. -/
def goOn (r : Recital R α) (t last : Nat) : Recital R α :=
  let r := r.instant t
  match r.next? with
  | none => r
  | some t' => if t < t' ∧ t' ≤ last then r.goOn t' last else r
termination_by last - t

/-- Plays to the end of both the performance and its script. -/
def play (p : Performance R) (script : List (Nat × (Performance R → α × Performance R)))
    (horizon : Nat) : Recital R α :=
  let start := p.rig.now
  let last := (horizon :: script.map (·.1)).foldl max start
  ({ performance := p.opened, script, horizon } : Recital R α).goOn start last

end Recital
end Haptics
