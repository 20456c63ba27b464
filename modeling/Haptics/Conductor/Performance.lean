import Haptics.Conductor.Run

/-!
# Performances

A run together with its two mailboxes: the cancels that callers send and the inbox for reports. At
any instant the conductor first handles all cancels, then all reports, and then plays one step; it
waits when there is nothing to do. If nothing can ever wake it, it gives up. The program may die of
a step (`Performance.overflow?`), and then nothing else is done.
-/

namespace Haptics

/-- A run with its mailboxes. -/
structure Performance (R : Type) where
  run : Run R
  /-- The inbox that reports come to, once the conductor has begun. -/
  inbox : Option Nat := none
  /-- Cancels that were sent and not handled. -/
  cancels : List CancelMode := []
  /-- Whether somebody can still send cancels. -/
  callerPresent : Bool := true
  isOver : Bool := false

/-- How many steps a conductor may take at one instant. Only a loop that takes no time gets
there. -/
def patience : Nat := 1000000

namespace Performance
variable {R : Type}

/-- A performance that has not begun, of a vibration that is asked for now. -/
def fresh (plan : Plan R) (v : Vibration R) (rig : Rig R) : Performance R :=
  { run := .fresh plan v rig rig.now }

def rig (p : Performance R) : Rig R := p.run.rig

def withRig (p : Performance R) (rig : Rig R) : Performance R := { p with run := p.run.withRig rig }

def onBridge (p : Performance R) (f : Bridge → Bridge) : Performance R :=
  p.withRig { p.rig with bridge := f p.rig.bridge }

/-- Directs completions to the conductor. -/
def opened (p : Performance R) : Performance R :=
  let plan := p.run.plan
  { p.onBridge (·.attach plan.vibration plan.tuning.capacity) with
    inbox := some p.rig.bridge.inboxes.size }

/-- Sends a cancel. Tells whether the conductor still listens. -/
def send (p : Performance R) (mode : CancelMode) : Bool × Performance R :=
  if p.callerPresent ∧ !p.isOver then (true, { p with cancels := p.cancels ++ [mode] })
  else (false, p)

def status (p : Performance R) : Status := p.run.status

/-- Whether reports can still come in. -/
def hearsReports (p : Performance R) : Bool := p.inbox.any fun i => !p.rig.bridge.isClosed i

/-- When the conductor goes on by itself. -/
def wake? (p : Performance R) : Option Nat := if p.isOver then none else p.run.queue.nextWake

/-- Takes what waits in the inbox. -/
def takeReports (p : Performance R) : List Event × Performance R :=
  match p.inbox with
  | none => ([], p)
  | some i =>
    let (events, bridge) := p.rig.bridge.read i
    (events, p.withRig { p.rig with bridge })

/-- Ends the performance: completions go elsewhere and nobody listens any more. -/
def close (p : Performance R) : Performance R :=
  { p.onBridge fun b =>
      let b := b.detach p.run.plan.vibration
      match p.inbox with
      | some i => b.abandon i
      | none => b with
    isOver := true, cancels := [] }

variable [Level R]

/-- Handles all cancels, then all reports. -/
def handleMail (p : Performance R) : Performance R :=
  let p := { p with run := p.cancels.foldl Run.cancel p.run, cancels := [] }
  let (events, p) := p.takeReports
  { p with run := events.foldl Run.hear p.run }

/-- Does the next thing there is to do at the present instant. -/
def step? (p : Performance R) : Option (Performance R) :=
  if p.isOver then none
  else
    let mail := !p.cancels.isEmpty || p.inbox.any fun i => !(p.rig.bridge.waiting i).isEmpty
    let p := p.handleMail
    match p.run.playDue? with
    | some run => some { p with run }
    | none =>
      if p.run.isOver then some p.close
      else if p.run.queue.nextWake = none ∧ !p.callerPresent ∧ !p.hearsReports then
        some { p with run := p.run.cancel .immediate }
      else if mail then some p
      else none

/-- What the next thing leaves, if the program dies of it. -/
def overflow? (p : Performance R) : Option (Performance R) :=
  if p.isOver then none
  else
    let p := p.handleMail
    p.run.overflow?.map fun run => { p with run }

/-- Does everything there is to do at the present instant, in at most `n` steps, as long as the
program does not die of it. -/
def settle : Nat → Performance R → Performance R
  | 0, p => p
  | n + 1, p =>
    if p.overflow?.isSome then p
    else match p.step? with
      | some p => settle n p
      | none => p

end Performance
end Haptics
