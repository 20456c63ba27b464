import Haptics.Actuator.Signal

/-!
# Groups of actuators

The registry of actuators and the hardware that coordinates them: starting several together in two
phases, and sessions over several of them. A registry without coordinating hardware refuses both.
-/

namespace Haptics

/-- Errors that calls to the coordinating hardware end with before they reach it. -/
structure GroupFaults where
  capabilities : Option HardwareError := none
  ids : Option HardwareError := none
  cancel : Option HardwareError := none
  startSession : Option HardwareError := none
  clearSessions : Option HardwareError := none
  session : Option HardwareError := none

/-- The hardware that coordinates actuators. -/
structure Coordinator where
  capabilities : Flags GroupCapability
  ids : List ActuatorId
  failPrepare : Bool := false
  failTrigger : Bool := false
  /-- Whether the far end of every session is gone. -/
  sessionsDead : Bool := false
  /-- The completion of the group that was triggered last. -/
  heldSynced : Option Report := none
  /-- The completions of open sessions. -/
  heldSessions : List Report := []
  faults : GroupFaults := {}

/-- The registry of actuators, and what it knows about the coordinating hardware. -/
structure Group where
  coordinator : Option Coordinator
  capabilities : Flags GroupCapability := .empty
  /-- The registered actuators in order of registration. -/
  ids : List ActuatorId := []
  attached : Bool := false
  /-- The open sessions, ascending. -/
  sessions : List Nat := []
  nextSession : Nat := 1

namespace Group
variable {R : Type}

/-- A registry over a fixed list, without coordinating hardware. -/
def fixed (ids : List ActuatorId) : Group := { coordinator := none, ids }

/-- A registry that asks the coordinating hardware for its actuators. -/
def coordinated (c : Coordinator) : Group := { coordinator := some c }

instance : Inhabited Group := ⟨fixed []⟩

def can (g : Group) (c : GroupCapability) : Bool := g.capabilities.has c

/-- Asks the coordinating hardware what it can do and which actuators there are. What it fails to
say counts as nothing. -/
def register (g : Group) : Group :=
  match g.coordinator with
  | none => g
  | some c =>
    { g with
      capabilities := if c.faults.capabilities.isSome then .empty else c.capabilities
      ids := if c.faults.ids.isSome then [] else c.ids
      attached := true }

/-- Prepares actuators for a common start. -/
def prepareIds (g : Group) (ids : List ActuatorId) : Bool × List (Call R) :=
  match g.coordinator with
  | some c => if g.can .sync then (!c.failPrepare, [.prepare ids]) else (false, [])
  | none => (false, [])

/-- Whether the group can be asked for a common start that needs some abilities. -/
def allows (g : Group) (required : Flags GroupCapability) (ids : List ActuatorId) : Bool :=
  2 ≤ ids.length ∧ g.capabilities.contains required

/-- Prepares at least two actuators for a common start that needs some abilities. Nothing reaches
the hardware if it lacks one. -/
def prepare (g : Group) (required : Flags GroupCapability) (ids : List ActuatorId) :
    Bool × List (Call R) :=
  if g.allows required ids then g.prepareIds ids else (false, [])

/-- Starts what was prepared. -/
def trigger (g : Group) (vibration : Nat) : Bool × Group × List (Call R) :=
  match g.coordinator with
  | some c =>
    if g.can .sync then
      if c.failTrigger then (false, g, [.trigger])
      else
        let report := if g.attached ∧ g.can .triggerCallback then some (.synced vibration) else none
        (true, { g with coordinator := some { c with heldSynced := report } }, [.trigger])
    else (false, g, [])
  | none => (false, g, [])

/-- Gives up what was prepared. -/
def cancelSync (g : Group) : Bool × Group × List (Call R) :=
  match g.coordinator with
  | some c =>
    if g.can .sync then
      if c.faults.cancel.isSome then (false, g, [])
      else (true, { g with coordinator := some { c with heldSynced := none } }, [.cancelSync])
    else (false, g, [])
  | none => (false, g, [])

/-! ## Sessions -/

/-- Asks the hardware for a session and gives it a number. The number is spent even if the hardware
refuses. -/
def askSession (g : Group) (ids : List ActuatorId) : Option (Nat × Bool) × Group × List (Call R) :=
  match g.coordinator with
  | some c =>
    if g.can .startSessions then
      let id := g.nextSession
      let g := { g with nextSession := id + 1 }
      if c.faults.startSession.isSome then (some (id, false), g, [])
      else
        (some (id, true),
          { g with coordinator := some { c with heldSessions := c.heldSessions ++ [.session id] } },
          [.startSession ids])
    else (none, g, [])
  | none => (none, g, [])

/-- Notes a session as open. -/
def openSession (g : Group) (id : Nat) : Group :=
  { g with sessions := g.sessions.filter (· < id) ++ id :: g.sessions.filter (id < ·) }

def closeSession (g : Group) (id : Nat) : Group :=
  { g with sessions := g.sessions.filter (· != id) }

/-- Opens a session over some actuators. -/
def startSession (g : Group) (ids : List ActuatorId) : Option Nat × Group × List (Call R) :=
  match g.askSession ids with
  | (some (id, true), g, calls) => (some id, g.openSession id, calls)
  | (_, g, calls) => (none, g, calls)

/-- Asks the hardware to end a session, which stays open until the hardware reports its end. A
session whose far end is gone is forgotten. -/
def endSession (g : Group) (id : Nat) (abort : Bool) : Bool × Group × List (Call R) :=
  match g.coordinator with
  | some c =>
    if g.sessions.contains id then
      match c.faults.session, c.sessionsDead with
      | some .dead, _ | none, true => (false, g.closeSession id, [])
      | some _, _ => (false, g, [])
      | none, false => (true, g, [.endSession abort])
    else (false, g, [])
  | none => (false, g, [])

/-- Gives up all sessions, on the hardware too if it lets itself be told. -/
def clearSessions (g : Group) : Group × List (Call R) :=
  match g.coordinator with
  | some c =>
    if g.can .startSessions then
      let g := { g with sessions := [] }
      if c.faults.clearSessions.isSome then (g, [])
      else ({ g with coordinator := some { c with heldSessions := [] } }, [.clearSessions])
    else (g, [])
  | none => (g, [])

/-- Takes the held completion of the group. -/
def releaseSynced (g : Group) : Option Report × Group :=
  match g.coordinator with
  | some c => (c.heldSynced, { g with coordinator := some { c with heldSynced := none } })
  | none => (none, g)

/-- Takes the held completions of all sessions. -/
def releaseSessions (g : Group) : List Report × Group :=
  match g.coordinator with
  | some c => (c.heldSessions, { g with coordinator := some { c with heldSessions := [] } })
  | none => ([], g)

/-- Changes the coordinating hardware, if there is any. -/
def alter (g : Group) (f : Coordinator → Coordinator) : Group :=
  { g with coordinator := g.coordinator.map f }

end Group
end Haptics
