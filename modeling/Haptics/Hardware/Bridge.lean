import Haptics.Actuator.Signal

/-!
# The bridge

Completions reach the vibration that waits for them through an inbox of limited size. Attaching a
vibration opens a fresh inbox and closes the road to the one before; what it still holds can be
read. A completion for a vibration that is not attached reaches nobody.
-/

namespace Haptics

/-- What a vibration hears about its drives. -/
inductive Event
  | stepComplete (actuator : ActuatorId) (vibration step : Nat)
  | syncedComplete (vibration : Nat)
deriving DecidableEq, Repr

/-- The events that wait for one attached vibration. -/
structure Inbox where
  vibration : Nat
  capacity : Nat
  waiting : List Event := []
  /-- Whether anybody still reads the inbox. -/
  hasReader : Bool := true
deriving DecidableEq, Repr

/-- Adds an event for a vibration if it is this one's, there is room and somebody reads. -/
def Inbox.post (b : Inbox) (vibration : Nat) (e : Event) : Inbox :=
  if b.vibration = vibration ∧ b.hasReader ∧ b.waiting.length < b.capacity then
    { b with waiting := b.waiting ++ [e] }
  else b

/-- All inboxes that were ever opened, and the one that completions go to. -/
structure Bridge where
  inboxes : Array Inbox := #[]
  route : Option Nat := none
  /-- Whether somebody wants to hear about sessions. -/
  sessionsObserved : Bool := false
  /-- The sessions whose end was heard, oldest first. -/
  sessionsHeard : List Nat := []
deriving Repr

namespace Bridge

instance : Inhabited Bridge := ⟨{}⟩

/-- Opens an inbox with room for at least one event and directs completions to it. -/
def attach (b : Bridge) (vibration capacity : Nat) : Bridge :=
  { b with
    inboxes := b.inboxes.push { vibration, capacity := max capacity 1 }
    route := some b.inboxes.size }

/-- The vibration that completions go to. -/
def attached? (b : Bridge) : Option Nat :=
  (b.route.bind (b.inboxes[·]?)).map (·.vibration)

/-- Directs completions nowhere, if they went to this vibration. -/
def detach (b : Bridge) (vibration : Nat) : Bridge :=
  if b.attached? = some vibration then { b with route := none } else b

/-- Puts an event for a vibration into the current inbox. -/
def post (b : Bridge) (vibration : Nat) (e : Event) : Bridge :=
  match b.route with
  | none => b
  | some i => { b with inboxes := b.inboxes.modify i (·.post vibration e) }

def endSession (b : Bridge) (session : Nat) : Bridge :=
  if b.sessionsObserved then { b with sessionsHeard := b.sessionsHeard ++ [session] } else b

/-- What an inbox holds. -/
def waiting (b : Bridge) (i : Nat) : List Event := (b.inboxes[i]?.map (·.waiting)).getD []

/-- Whether nothing more can come into an inbox. -/
def isClosed (b : Bridge) (i : Nat) : Bool := b.route != some i

/-- Empties an inbox. -/
def read (b : Bridge) (i : Nat) : List Event × Bridge :=
  (b.waiting i, { b with inboxes := b.inboxes.modify i ({ · with waiting := [] }) })

/-- Nobody reads an inbox any more. -/
def abandon (b : Bridge) (i : Nat) : Bridge :=
  { b with inboxes := b.inboxes.modify i ({ · with hasReader := false, waiting := [] }) }

/-- Nobody reads any inbox any more. -/
def abandonAll (b : Bridge) : Bridge :=
  { b with inboxes := b.inboxes.map ({ · with hasReader := false, waiting := [] }) }

/-- Empties every inbox that has a reader. Tells for each whether it is closed. -/
def readAll (b : Bridge) : List (List Event × Bool) × Bridge :=
  ((b.inboxes.toList.zipIdx.filter (·.1.hasReader)).map fun (inbox, i) =>
      (inbox.waiting, b.isClosed i),
    { b with inboxes := b.inboxes.map ({ · with waiting := [] }) })

end Bridge
end Haptics
