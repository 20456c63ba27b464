import Haptics.Effect.Vibration
import Haptics.Conductor.Schedule

/-!
# The queue of a vibration

Steps that wait for their time, in the order of start and insertion, and steps that a report
released early, in the order of release. Released steps go first. The step that waits for everything
else comes out only when it is alone.
-/

namespace Haptics

/-- What a queue has to know about its items. -/
class Scheduled (α : Type) where
  start : α → StartTime
  actuator? : α → Option ActuatorId
  /-- Offers a report of an actuator, for a certain step or for whichever it waits for. Tells
  whether the item may run now, and what it becomes. -/
  accept : α → ActuatorId → Option Nat → Nat → Bool × α

/-- A queued item, with the number of its insertion and its start time. -/
structure Entry (α : Type) where
  seq : Nat
  start : StartTime
  item : α

structure Queue (α : Type) where
  /-- Items that wait for their time, in order. -/
  timed : List (Entry α) := []
  /-- Items that were released, in order. -/
  released : List (Entry α) := []
  nextSeq : Nat := 0

namespace Queue
variable {α : Type}

instance : Inhabited (Queue α) := ⟨{}⟩

def length (q : Queue α) : Nat := q.timed.length + q.released.length

def isEmpty (q : Queue α) : Bool := q.timed.isEmpty && q.released.isEmpty

/-- Puts an entry behind all that start no later. -/
def place (e : Entry α) : List (Entry α) → List (Entry α)
  | [] => [e]
  | x :: xs => if e.start.before x.start then e :: x :: xs else x :: place e xs

/-- Takes the item to run at an instant, if there is one. -/
def popDue (q : Queue α) (now : Nat) : Option (α × Queue α) :=
  match q.released, q.timed with
  | e :: es, _ => some (e.item, { q with released := es })
  | [], [] => none
  | [], e :: es =>
    if e.start = .afterPending ∧ es ≠ [] then none
    else if e.start.isDue now then some (e.item, { q with timed := es })
    else none

/-- The instant at which the next item may run by itself. -/
def nextWake (q : Queue α) : Option Nat := q.timed.head?.bind (·.start.instant?)

/-- Takes out every item, the last inserted first. -/
def drainReversed (q : Queue α) : List α × Queue α :=
  (((q.released ++ q.timed).mergeSort fun a b => decide (b.seq ≤ a.seq)).map (·.item),
    { q with timed := [], released := [] })

/-- Takes out every item in the order in which they would run. -/
def drainInOrder (q : Queue α) : List α × Queue α :=
  ((q.released ++ q.timed).map (·.item), { q with timed := [], released := [] })

variable [Scheduled α]

def push (q : Queue α) (x : α) : Queue α :=
  { q with
    timed := place ⟨q.nextSeq, Scheduled.start x, x⟩ q.timed
    nextSeq := q.nextSeq + 1 }

def extend (q : Queue α) (xs : List α) : Queue α := xs.foldl push q

/-- Offers a report to waiting items in order. Returns the first that may run now, and the others.
An item may change even if it refuses. -/
def offer (a : ActuatorId) (step : Option Nat) (now : Nat) :
    List (Entry α) → Option (Entry α) × List (Entry α)
  | [] => (none, [])
  | e :: es =>
    match Scheduled.accept e.item a step now with
    | (true, x) => (some { e with item := x }, es)
    | (false, x) =>
      let (found, es) := offer a step now es
      (found, { e with item := x } :: es)

/-- Releases the first item that accepts a report. -/
def acceptCompletion (q : Queue α) (a : ActuatorId) (step : Option Nat) (now : Nat) :
    Bool × Queue α :=
  match offer a step now q.timed with
  | (some e, timed) => (true, { q with timed, released := q.released ++ [e] })
  | (none, timed) => (false, { q with timed })

/-- The actuators that waiting items belong to, ascending. -/
def actuators (q : Queue α) : List ActuatorId :=
  ((q.timed.filterMap (Scheduled.actuator? ·.item)).eraseDups).mergeSort (· ≤ ·)

/-- Releases one item of each actuator that accepts the report of a whole group. -/
def acceptSynced (q : Queue α) (now : Nat) : Nat × Queue α :=
  q.actuators.foldl (fun (n, q) a =>
    let (ok, q) := q.acceptCompletion a none now
    (if ok then n + 1 else n, q)) (0, q)

end Queue
end Haptics
