import Haptics.Level.Rational
import Haptics.Proofs.Hardware
import Mathlib.Data.List.Basic
import Mathlib.Data.List.Induction
import Mathlib.Data.List.Nodup
import Mathlib.Data.List.Perm.Subperm

/-!
# Sessions

A start asks the coordinating hardware for a session, and notes the session as open when the
hardware has answered. The hardware has the completion of the session from the moment it is asked,
so the session may be over before it is noted. A completion that comes then finds nothing to close:
the session is noted afterwards and stays open. In every other order of starts, ends, completions
and registrations the open sessions are those that were noted and neither completed, dropped nor
cleared since (`Desk.sessions_after`).
-/

namespace Haptics

variable {R : Type}

/-! ## The group -/

/-- The handles of sessions report that their far end is gone. -/
def Coordinator.isGone (c : Coordinator) : Bool :=
  match c.faults.session with
  | some e => e == .dead
  | none => c.sessionsDead

namespace Group

variable (g : Group) (id : Nat)

/-- Whether the end of a session finds its far end gone. -/
def findsGone : Bool := g.sessions.contains id && g.coordinator.any (·.isGone)

/-- Whether a new registration gives up all sessions. -/
def forgets : Bool := g.coordinator.isSome && g.register.can .startSessions

theorem mem_openSession {i : Nat} :
    i ∈ (g.openSession id).sessions ↔ i = id ∨ i ∈ g.sessions := by
  simp only [openSession, List.mem_append, List.mem_cons, List.mem_filter, decide_eq_true_eq]
  constructor
  · rintro (⟨h, -⟩ | h | ⟨h, -⟩)
    · exact .inr h
    · exact .inl h
    · exact .inr h
  · rintro (h | h)
    · exact .inr (.inl h)
    · rcases Nat.lt_trichotomy i id with hlt | heq | hlt
      · exact .inl ⟨h, hlt⟩
      · exact .inr (.inl heq)
      · exact .inr (.inr ⟨h, hlt⟩)

theorem mem_closeSession {i : Nat} :
    i ∈ (g.closeSession id).sessions ↔ i ∈ g.sessions ∧ i ≠ id := by
  simp [closeSession]

/-- A session that is not open is not ended, and the hardware hears nothing of it. -/
theorem endSession_of_not_mem (abort : Bool) (h : id ∉ g.sessions) :
    g.endSession id abort = ((false, g, []) : Bool × Group × List (Call R)) := by
  unfold endSession
  cases g.coordinator with
  | none => rfl
  | some c => simp [h]

/-- The end of a session closes it only if its far end is gone. -/
theorem endSession_group (abort : Bool) :
    (g.endSession id abort : Bool × Group × List (Call R)).2.1 =
      if g.findsGone id then g.closeSession id else g := by
  unfold endSession findsGone
  cases hc : g.coordinator with
  | none => simp
  | some c =>
    simp only [Option.any_some]
    cases hopen : g.sessions.contains id with
    | false => simp
    | true =>
      simp only [if_true, Bool.true_and]
      split
      · rename_i hdead
        simp [Coordinator.isGone, hdead]
      · rename_i hnone hdead
        simp [Coordinator.isGone, hnone, hdead]
      · rename_i e hne he
        have hgone : c.isGone = false := by
          cases e with
          | dead => exact absurd rfl hne
          | unsupported | failed => simp [Coordinator.isGone, he]
        simp [hgone]
      · rename_i hnone hdead
        simp [Coordinator.isGone, hnone, hdead]

/-- A session gets the next number, whether the hardware grants it or not. -/
theorem askSession_cases (ids : List ActuatorId) :
    let answer : Option (Nat × Bool) × Group × List (Call R) := g.askSession ids
    answer.2.1.sessions = g.sessions ∧
      ((answer.1 = none ∧ answer.2.1.nextSession = g.nextSession) ∨ ∃ granted,
        answer.1 = some (g.nextSession, granted) ∧
        answer.2.1.nextSession = g.nextSession + 1) := by
  unfold askSession
  cases hc : g.coordinator with
  | none => exact ⟨rfl, .inl ⟨rfl, rfl⟩⟩
  | some c =>
    dsimp only
    split
    · split
      · exact ⟨rfl, .inr ⟨_, rfl, rfl⟩⟩
      · exact ⟨rfl, .inr ⟨_, rfl, rfl⟩⟩
    · exact ⟨rfl, .inl ⟨rfl, rfl⟩⟩

theorem register_sessions : g.register.nextSession = g.nextSession ∧
    g.register.sessions = g.sessions ∧ g.register.coordinator = g.coordinator := by
  unfold register
  cases hc : g.coordinator <;> simp [hc]

theorem cancelSync_sessions : let g' := (g.cancelSync : _ × _ × List (Call R)).2.1
    g'.nextSession = g.nextSession ∧ g'.sessions = g.sessions ∧ g'.capabilities = g.capabilities ∧
      g'.coordinator.isSome = g.coordinator.isSome := by
  unfold cancelSync
  cases hc : g.coordinator with
  | none => simp [hc]
  | some c =>
    dsimp only
    split
    · split <;> simp [hc]
    · simp [hc]

theorem clearSessions_sessions : let g' := (g.clearSessions : _ × List (Call R)).1
    g'.nextSession = g.nextSession ∧
      g'.sessions = if g.coordinator.isSome && g.can .startSessions then [] else g.sessions := by
  unfold clearSessions
  cases hc : g.coordinator with
  | none => simp
  | some c =>
    dsimp only
    by_cases hcan : g.can .startSessions = true
    · rw [if_pos hcan]
      split <;> simp [hcan]
    · simp [hcan]

end Group

namespace Rig

section
variable [Level R] (r : Rig R)

theorem registerDevice_frame (id : ActuatorId) :
    (r.registerDevice id).group = r.group ∧ (r.registerDevice id).bridge = r.bridge := by
  unfold registerDevice
  simp

theorem foldl_registerDevice (ids : List ActuatorId) :
    (ids.foldl registerDevice r).group = r.group ∧
      (ids.foldl registerDevice r).bridge = r.bridge := by
  induction ids generalizing r with
  | nil => exact ⟨rfl, rfl⟩
  | cons id ids ih =>
    have hfirst := r.registerDevice_frame id
    have hrest := ih (r.registerDevice id)
    exact ⟨hrest.1.trans hfirst.1, hrest.2.trans hfirst.2⟩

theorem init_bridge : r.init.bridge = r.bridge := by
  unfold init noteCalls
  simp [(foldl_registerDevice _ _).2]

/-- A new registration changes what is known of sessions only if it gives up all of them. -/
theorem init_sessions : r.init.group.nextSession = r.group.nextSession ∧
    r.init.group.sessions = if r.group.forgets then [] else r.group.sessions := by
  have hinit : r.init.group =
      ((r.group.register.cancelSync : _ × _ × List (Call R)).2.1.clearSessions (R := R)).1 := by
    unfold init noteCalls
    simp [(foldl_registerDevice _ _).1]
  obtain ⟨hnext, hsessions, hcoordinator⟩ := r.group.register_sessions
  obtain ⟨hnext', hsessions', hcan, hsome⟩ := r.group.register.cancelSync_sessions (R := R)
  obtain ⟨hnext'', hsessions''⟩ :=
    (r.group.register.cancelSync : _ × _ × List (Call R)).2.1.clearSessions_sessions (R := R)
  rw [hinit]
  refine ⟨hnext''.trans (hnext'.trans hnext), ?_⟩
  rw [hsessions'', hsome, hcoordinator, Group.can, hcan, hsessions', hsessions]
  rfl

end

theorem noteAll_regroup (r : Rig R) (g : Group) (ss : List (Signal R)) :
    { r with group := g }.noteAll ss = { r.noteAll ss with group := g } := by
  induction ss generalizing r with
  | nil => rfl
  | cons x ss ih =>
    have hx : { r with group := g }.note x = { r.note x with group := g } := by cases x <;> rfl
    exact (congrArg (·.noteAll ss) hx).trans (ih (r.note x))

/-- A start asks for a session, and notes it if it is granted. -/
theorem onGroup_startSession (r : Rig R) (ids : List ActuatorId) :
    r.onGroup (·.startSession ids) = match r.onGroup (·.askSession ids) with
      | (some (id, true), r') => (some id, { r' with group := r'.group.openSession id })
      | (_, r') => (none, r') := by
  unfold onGroup Group.startSession
  dsimp only
  generalize (r.group.askSession ids : _ × _ × List (Call R)) = answer
  obtain ⟨_ | ⟨id, _ | _⟩, group, calls⟩ := answer
  · rfl
  · rfl
  · unfold noteCalls
    dsimp only
    rw [noteAll_regroup r, noteAll_regroup r group]

end Rig

/-! ## What happens to sessions -/

/-- Something that happened to a session, or to all of them. -/
inductive Notice
  | asked (id : Nat)
  | opened (id : Nat)
  | completed (id : Nat)
  /-- Its far end was found gone. -/
  | dropped (id : Nat)
  | cleared
deriving DecidableEq, Repr

namespace Notice

def asked? : Notice → Option Nat
  | asked id => some id
  | _ => none

def opened? : Notice → Option Nat
  | opened id => some id
  | _ => none

def completed? : Notice → Option Nat
  | completed id => some id
  | _ => none

/-- Whether a session is over by what happened. -/
def ends (id : Nat) : Notice → Bool
  | completed i | dropped i => i == id
  | cleared => true
  | asked _ | opened _ => false

theorem ends_completed {id i : Nat} : (completed i).ends id = false ↔ id ≠ i := by
  simp [ends, Ne, eq_comm (a := id)]

theorem ends_dropped {id i : Nat} : (dropped i).ends id = false ↔ id ≠ i := ends_completed

/-- A session was opened, and nothing ended it since. -/
def LeftOpen (record : List Notice) (id : Nat) : Prop :=
  ∃ before after, record = before ++ opened id :: after ∧ ∀ x ∈ after, x.ends id = false

variable {record : List Notice} {id : Nat}

@[simp] theorem not_leftOpen_nil : ¬LeftOpen [] id := by
  rintro ⟨before, after, h, -⟩
  cases before <;> cases h

theorem leftOpen_concat {x : Notice} :
    LeftOpen (record ++ [x]) id ↔ x = opened id ∨ LeftOpen record id ∧ x.ends id = false := by
  constructor
  · rintro ⟨before, after, h, hafter⟩
    rcases List.eq_nil_or_concat after with rfl | ⟨after, y, rfl⟩
    · cases (List.append_inj' h rfl).2
      exact .inl rfl
    · rw [List.concat_eq_append] at h hafter
      have h : record ++ [x] = (before ++ opened id :: after) ++ [y] := by simpa using h
      obtain ⟨rfl, hx⟩ := List.append_inj' h rfl
      cases hx
      exact .inr ⟨⟨before, after, rfl, fun y hy => hafter y (List.mem_append_left _ hy)⟩,
        hafter x (List.mem_append_right _ List.mem_cons_self)⟩
  · rintro (rfl | ⟨⟨before, after, rfl, hafter⟩, hx⟩)
    · exact ⟨record, [], rfl, fun _ h => by cases h⟩
    · refine ⟨before, after ++ [x], by simp, fun y hy => ?_⟩
      rcases List.mem_append.mp hy with hy | hy
      · exact hafter y hy
      · cases List.mem_singleton.mp hy
        exact hx

/-- A session that was opened once is open as long as nothing ends it after that. -/
theorem leftOpen_iff {before after : List Notice} (once : (record.filterMap opened?).Nodup)
    (h : record = before ++ opened id :: after) :
    LeftOpen record id ↔ completed id ∉ after ∧ dropped id ∉ after ∧ cleared ∉ after := by
  have hends : (∀ x ∈ after, x.ends id = false) ↔
      completed id ∉ after ∧ dropped id ∉ after ∧ cleared ∉ after := by
    constructor
    · intro hafter
      exact ⟨fun h => absurd rfl (ends_completed.mp (hafter _ h)),
        fun h => absurd rfl (ends_dropped.mp (hafter _ h)), fun h => by cases hafter _ h⟩
    · rintro ⟨hcompleted, hdropped, hcleared⟩ x hx
      cases x with
      | asked | opened => rfl
      | completed i => exact ends_completed.mpr fun heq => hcompleted (heq ▸ hx)
      | dropped i => exact ends_dropped.mpr fun heq => hdropped (heq ▸ hx)
      | cleared => exact absurd hx hcleared
  rw [← hends]
  constructor
  · rintro ⟨before', after', h', hafter'⟩
    -- The notice stands in the record once, so both splits are the same.
    have hid : (opened id).opened? = some id := rfl
    rw [h, List.filterMap_append, List.filterMap_cons_some hid, List.nodup_middle,
      List.nodup_cons, List.mem_append, not_or] at once
    have hnot : ∀ {xs : List Notice}, id ∉ xs.filterMap opened? → opened id ∉ xs :=
      fun h hmem => h (List.mem_filterMap.mpr ⟨_, hmem, rfl⟩)
    have hsplit := (List.append_cons_inj_of_notMem (hnot once.1.1) (hnot once.1.2)).mp
      (h.symm.trans h')
    rwa [← hsplit.2.2] at hafter'
  · exact fun hafter => ⟨before, after, h, hafter⟩

/-- Sessions are dropped only after they were opened, and dropped for good. -/
def DroppedForGood (record : List Notice) : Prop :=
  ∀ id, dropped id ∈ record → opened id ∈ record ∧ ¬LeftOpen record id

theorem DroppedForGood.concat {x : Notice} (H : DroppedForGood record)
    (hopened : ∀ id, x = opened id → opened id ∉ record)
    (hdropped : ∀ id, x = dropped id → opened id ∈ record) :
    DroppedForGood (record ++ [x]) := by
  intro id h
  rw [leftOpen_concat]
  rcases List.mem_append.mp h with h | h
  · obtain ⟨hmem, hgone⟩ := H id h
    exact ⟨List.mem_append_left _ hmem, fun hopen => hopen.elim
      (fun hx => hopened id hx hmem) fun hopen => hgone hopen.1⟩
  · cases List.mem_singleton.mp h
    refine ⟨List.mem_append_left _ (hdropped id rfl), ?_⟩
    rintro (hx | ⟨-, hx⟩)
    · cases hx
    · exact absurd rfl (ends_dropped.mp hx)

theorem LeftOpen.opened_mem (h : LeftOpen record id) : opened id ∈ record := by
  obtain ⟨before, after, rfl, -⟩ := h
  exact List.mem_append_right _ List.mem_cons_self

end Notice

/-- A rig, and what goes on with the sessions over it. -/
structure Desk (R : Type) where
  rig : Rig R
  /-- The sessions that the hardware granted and that are not noted yet. -/
  granted : List Nat := []
  /-- The sessions whose completion the hardware has and has not called. -/
  pending : List Nat := []
  /-- What happened to sessions, in order. -/
  record : List Notice := []

namespace Desk

/-- Something that happens at a desk. The two halves of a start may be any time apart, and the
completion may be called as soon as the hardware has it. -/
inductive Act
  | init
  /-- The hardware is asked for a session, and gets its completion. -/
  | ask (ids : List ActuatorId)
  /-- A session that was granted is noted as open. -/
  | enter (id : Nat)
  /-- The hardware calls the completion of a session, perhaps from within another call. -/
  | complete (id : Nat)
  /-- Somebody ends a session. -/
  | finish (id : Nat) (abort : Bool)
  /-- The hardware changes: from now on it answers something else. -/
  | alter (f : Coordinator → Coordinator)

section
variable [Level R]

def act (d : Desk R) : Act → Desk R
  | .init => { d with
      rig := d.rig.init
      record := if d.rig.group.forgets then d.record ++ [.cleared] else d.record }
  | .ask ids =>
    match d.rig.onGroup (·.askSession ids) with
    | (none, rig) => { d with rig }
    | (some (id, granted), rig) => {
        rig
        granted := if granted then d.granted ++ [id] else d.granted
        pending := d.pending ++ [id]
        record := d.record ++ [.asked id] }
  | .enter id =>
    if id ∈ d.granted then { d with
      rig := { d.rig with group := d.rig.group.openSession id }
      granted := d.granted.erase id
      record := d.record ++ [.opened id] }
    else d
  | .complete id =>
    if id ∈ d.pending then { d with
      rig := d.rig.deliver (.session id)
      pending := d.pending.erase id
      record := d.record ++ [.completed id] }
    else d
  | .finish id abort => { d with
      rig := (d.rig.onGroup (·.endSession id abort)).2
      record := if d.rig.group.findsGone id then d.record ++ [.dropped id] else d.record }
  | .alter f => { d with rig := { d.rig with group := d.rig.group.alter f } }

theorem act_ask_none {d : Desk R} {rig : Rig R} {ids : List ActuatorId}
    (h : d.rig.onGroup (·.askSession ids) = (none, rig)) : d.act (.ask ids) = { d with rig } := by
  unfold act
  dsimp only
  rw [h]

theorem act_ask_some {d : Desk R} {rig : Rig R} {ids : List ActuatorId} {id : Nat} {granted : Bool}
    (h : d.rig.onGroup (·.askSession ids) = (some (id, granted), rig)) : d.act (.ask ids) = {
      rig
      granted := if granted then d.granted ++ [id] else d.granted
      pending := d.pending ++ [id]
      record := d.record ++ [.asked id] } := by
  unfold act
  dsimp only
  rw [h]

theorem act_enter_of_mem {d : Desk R} {id : Nat} (h : id ∈ d.granted) : d.act (.enter id) = {
    d with
    rig := { d.rig with group := d.rig.group.openSession id }
    granted := d.granted.erase id
    record := d.record ++ [.opened id] } := if_pos h

theorem act_enter_of_not_mem {d : Desk R} {id : Nat} (h : id ∉ d.granted) :
    d.act (.enter id) = d := if_neg h

def after (d : Desk R) (as : List Act) : Desk R := as.foldl act d

@[simp] theorem after_nil (d : Desk R) : d.after [] = d := rfl

@[simp] theorem after_concat (d : Desk R) (as : List Act) (a : Act) :
    d.after (as ++ [a]) = (d.after as).act a := by
  simp [after]

omit [Level R]

/-- A desk over coordinating hardware that was not asked for anything yet. Somebody hears about
sessions. -/
def fresh (rig : Rig R) (c : Coordinator) : Desk R := {
  rig := { rig with
    group := .coordinated c
    bridge := { rig.bridge with sessionsObserved := true, sessionsHeard := [] } } }

end

/-- The sessions that the hardware was asked for, that were noted as open, and that were completed,
in order. -/
def asked (d : Desk R) : List Nat := d.record.filterMap Notice.asked?

def opened (d : Desk R) : List Nat := d.record.filterMap Notice.opened?

def completed (d : Desk R) : List Nat := d.record.filterMap Notice.completed?

/-- A desk after anything that may have happened at it. -/
structure Kept (d : Desk R) : Prop where
  observed : d.rig.bridge.sessionsObserved = true
  heard : d.rig.bridge.sessionsHeard = d.completed
  ascending : d.asked.Pairwise (· < ·)
  below : ∀ id ∈ d.asked, id < d.rig.group.nextSession
  /-- The completion of every session is called once or pending. -/
  completions : (d.completed ++ d.pending).Perm d.asked
  openings : (d.opened ++ d.granted).Subperm d.asked
  open_iff : ∀ id, id ∈ d.rig.group.sessions ↔ Notice.LeftOpen d.record id
  dropped : Notice.DroppedForGood d.record

variable {d : Desk R} {rig : Rig R} {id : Nat}

theorem kept_fresh (rig : Rig R) (c : Coordinator) : (fresh rig c).Kept where
  observed := rfl
  heard := rfl
  ascending := .nil
  below := fun id h => by cases h
  completions := .rfl
  openings := .refl _
  open_iff := fun id => by simp [fresh, Group.coordinated]
  dropped := fun id h => by cases h

namespace Kept

/-- The rest of the rig has nothing to do with sessions. -/
theorem elsewhere (H : d.Kept) (bridge : rig.bridge = d.rig.bridge)
    (next : rig.group.nextSession = d.rig.group.nextSession)
    (sessions : rig.group.sessions = d.rig.group.sessions) : Kept { d with rig } where
  observed := bridge ▸ H.observed
  heard := bridge ▸ H.heard
  ascending := H.ascending
  below := next ▸ H.below
  completions := H.completions
  openings := H.openings
  open_iff := sessions ▸ H.open_iff
  dropped := H.dropped

/-- Sessions are dropped or cleared. -/
theorem closed (H : d.Kept) {x : Notice}
    (hx : (∃ id ∈ d.rig.group.sessions, x = .dropped id) ∨ x = .cleared)
    (bridge : rig.bridge = d.rig.bridge)
    (next : rig.group.nextSession = d.rig.group.nextSession)
    (sessions : ∀ id, id ∈ rig.group.sessions ↔ id ∈ d.rig.group.sessions ∧ x.ends id = false) :
    Kept { d with rig, record := d.record ++ [x] } := by
  have hquiet : x.asked? = none ∧ x.opened? = none ∧ x.completed? = none := by
    rcases hx with ⟨id, -, rfl⟩ | rfl <;> exact ⟨rfl, rfl, rfl⟩
  have hopened : ∀ id, x ≠ .opened id := by
    rcases hx with ⟨id, -, rfl⟩ | rfl <;> exact nofun
  have hdropped : ∀ id, x = .dropped id → .opened id ∈ d.record := by
    rcases hx with ⟨id, hopen, rfl⟩ | rfl
    · rintro _ ⟨rfl⟩
      exact ((H.open_iff id).mp hopen).opened_mem
    · exact nofun
  constructor
  case observed => exact bridge ▸ H.observed
  case dropped => exact H.dropped.concat (fun id h => absurd h (hopened id)) hdropped
  case open_iff =>
    intro id
    rw [sessions, Notice.leftOpen_concat, H.open_iff]
    simp [hopened]
  all_goals
    simp only [asked, opened, completed, List.filterMap_append, List.filterMap_cons,
      List.filterMap_nil, hquiet, List.append_nil]
  case heard => exact bridge ▸ H.heard
  case ascending => exact H.ascending
  case below => exact next ▸ H.below
  case completions => exact H.completions
  case openings => exact H.openings

/-- The hardware is asked for the next session. -/
theorem asked (H : d.Kept) (granted : Bool) (bridge : rig.bridge = d.rig.bridge)
    (next : rig.group.nextSession = d.rig.group.nextSession + 1)
    (sessions : rig.group.sessions = d.rig.group.sessions) : Kept {
      rig
      granted := if granted then d.granted ++ [d.rig.group.nextSession] else d.granted
      pending := d.pending ++ [d.rig.group.nextSession]
      record := d.record ++ [.asked d.rig.group.nextSession] } := by
  constructor
  case observed => exact bridge ▸ H.observed
  case dropped => exact H.dropped.concat nofun nofun
  case open_iff =>
    intro id
    rw [sessions, Notice.leftOpen_concat, H.open_iff]
    simp [Notice.ends]
  all_goals
    simp only [Desk.asked, opened, completed, List.filterMap_append, List.filterMap_cons,
      List.filterMap_nil, Notice.asked?, Notice.opened?, Notice.completed?, List.append_nil]
  case heard => exact bridge ▸ H.heard
  case ascending =>
    refine List.pairwise_append.mpr ⟨H.ascending, List.pairwise_singleton .., fun i hi j hj => ?_⟩
    cases List.mem_singleton.mp hj
    exact H.below i hi
  case below =>
    intro id h
    rw [next]
    rcases List.mem_append.mp h with h | h
    · exact Nat.lt_succ_of_lt (H.below id h)
    · cases List.mem_singleton.mp h
      exact Nat.lt_succ_self _
  case completions =>
    rw [← List.append_assoc]
    exact H.completions.append_right _
  case openings =>
    cases granted with
    | true =>
      rw [if_pos rfl, ← List.append_assoc]
      exact H.openings.append (.refl _)
    | false => exact H.openings.trans (List.sublist_append_left ..).subperm

theorem asked_nodup (H : d.Kept) : d.asked.Nodup := H.ascending.imp Nat.ne_of_lt

theorem opened_nodup (H : d.Kept) : (d.opened ++ d.granted).Nodup := by
  obtain ⟨xs, hperm, hsub⟩ := H.openings
  exact hperm.nodup_iff.mp (H.asked_nodup.sublist hsub)

theorem not_opened_of_granted (H : d.Kept) (h : id ∈ d.granted) : .opened id ∉ d.record :=
  fun hmem => List.disjoint_of_nodup_append H.opened_nodup
    (List.mem_filterMap.mpr ⟨_, hmem, rfl⟩) h

/-- A session that was granted is noted. -/
theorem entered (H : d.Kept) (h : id ∈ d.granted) : Kept { d with
    rig := { d.rig with group := d.rig.group.openSession id }
    granted := d.granted.erase id
    record := d.record ++ [.opened id] } := by
  constructor
  case observed => exact H.observed
  case dropped =>
    refine H.dropped.concat ?_ nofun
    rintro _ ⟨rfl⟩ hmem
    exact H.not_opened_of_granted h hmem
  case open_iff =>
    intro i
    rw [Group.mem_openSession, Notice.leftOpen_concat, H.open_iff]
    simp [Notice.ends, eq_comm]
  all_goals
    simp only [Desk.asked, opened, completed, List.filterMap_append, List.filterMap_cons,
      List.filterMap_nil, Notice.asked?, Notice.opened?, Notice.completed?, List.append_nil]
  case heard => exact H.heard
  case ascending => exact H.ascending
  case below => exact H.below
  case completions => exact H.completions
  case openings =>
    rw [List.append_assoc]
    exact ((List.perm_cons_erase h).symm.append_left _).subperm.trans H.openings

/-- A session is completed. -/
theorem completed (H : d.Kept) (h : id ∈ d.pending) : Kept { d with
    rig := d.rig.deliver (.session id)
    pending := d.pending.erase id
    record := d.record ++ [.completed id] } := by
  have hbridge : (d.rig.deliver (.session id)).bridge =
      { d.rig.bridge with sessionsHeard := d.rig.bridge.sessionsHeard ++ [id] } :=
    if_pos H.observed
  constructor
  case observed => exact hbridge ▸ H.observed
  case dropped => exact H.dropped.concat nofun nofun
  case open_iff =>
    intro i
    rw [Rig.deliver, Group.mem_closeSession, Notice.leftOpen_concat, H.open_iff,
      Notice.ends_completed]
    simp
  all_goals
    simp only [Desk.asked, opened, Desk.completed, List.filterMap_append, List.filterMap_cons,
      List.filterMap_nil, Notice.asked?, Notice.opened?, Notice.completed?, List.append_nil]
  case heard =>
    rw [hbridge]
    exact congrArg (· ++ [id]) H.heard
  case ascending => exact H.ascending
  case below => exact H.below
  case completions =>
    rw [List.append_assoc]
    exact ((List.perm_cons_erase h).symm.append_left _).trans H.completions
  case openings => exact H.openings

variable [Level R]

theorem act_init (H : d.Kept) : (d.act .init).Kept := by
  obtain ⟨hnext, hsessions⟩ := d.rig.init_sessions
  unfold Desk.act
  dsimp only
  split at hsessions
  · rename_i hforgets
    rw [if_pos hforgets]
    exact H.closed (.inr rfl) d.rig.init_bridge hnext fun id => by simp [hsessions, Notice.ends]
  · rename_i hforgets
    rw [if_neg hforgets]
    exact H.elsewhere d.rig.init_bridge hnext hsessions

theorem act_ask (H : d.Kept) (ids : List ActuatorId) : (d.act (.ask ids)).Kept := by
  have hvalue : (d.rig.onGroup (·.askSession ids)).1 = (d.rig.group.askSession ids).1 := rfl
  have hgroup := d.rig.onGroup_group (·.askSession ids)
  have hbridge := d.rig.onGroup_bridge (·.askSession ids)
  generalize hanswer : d.rig.onGroup (·.askSession ids) = answer at hvalue hgroup hbridge
  obtain ⟨value, rig⟩ := answer
  obtain ⟨hsessions, ⟨hask, hnext⟩ | ⟨granted, hask, hnext⟩⟩ :=
    d.rig.group.askSession_cases (R := R) ids
  · cases hvalue.trans hask
    rw [act_ask_none hanswer]
    exact H.elsewhere hbridge ((congrArg Group.nextSession hgroup).trans hnext)
      ((congrArg Group.sessions hgroup).trans hsessions)
  · cases hvalue.trans hask
    rw [act_ask_some hanswer]
    exact H.asked granted hbridge ((congrArg Group.nextSession hgroup).trans hnext)
      ((congrArg Group.sessions hgroup).trans hsessions)

theorem act_finish (H : d.Kept) (id : Nat) (abort : Bool) : (d.act (.finish id abort)).Kept := by
  have hgroup := (Rig.onGroup_group d.rig (·.endSession id abort)).trans
    (d.rig.group.endSession_group id abort)
  have hbridge := Rig.onGroup_bridge d.rig (·.endSession id abort)
  unfold Desk.act
  dsimp only
  split at hgroup
  · rename_i hgone
    rw [if_pos hgone]
    have hnext : (d.rig.group.closeSession id).nextSession = d.rig.group.nextSession := rfl
    have hopen : id ∈ d.rig.group.sessions := by
      simpa using (Bool.and_eq_true_iff.mp hgone).1
    refine H.closed (.inl ⟨id, hopen, rfl⟩) hbridge
      ((congrArg Group.nextSession hgroup).trans hnext) fun i => ?_
    rw [hgroup, Group.mem_closeSession, Notice.ends_dropped]
  · rename_i hgone
    rw [if_neg hgone]
    exact H.elsewhere hbridge (congrArg Group.nextSession hgroup)
      (congrArg Group.sessions hgroup)

theorem act (H : d.Kept) (a : Act) : (d.act a).Kept := by
  cases a with
  | init => exact H.act_init
  | ask ids => exact H.act_ask ids
  | enter id =>
    by_cases h : id ∈ d.granted
    · exact act_enter_of_mem h ▸ H.entered h
    · rwa [act_enter_of_not_mem h]
  | complete id =>
    unfold Desk.act
    dsimp only
    split
    · exact H.completed ‹id ∈ d.pending›
    · exact H
  | finish id abort => exact H.act_finish id abort
  | alter f => exact H.elsewhere rfl rfl rfl

theorem after (H : d.Kept) (as : List Act) : (d.after as).Kept := by
  induction as using List.reverseRecOn with
  | nil => exact H
  | append_singleton as a ih =>
    rw [after_concat]
    exact ih.act a

end Kept

/-! ## Starts without anything in between -/

/-- A start that nothing comes in between of asks for a session and notes it at once. -/
theorem act_start [Level R] (H : d.Kept) (ids : List ActuatorId) :
    let d' := (d.act (.ask ids)).act (.enter d.rig.group.nextSession)
    (d.rig.onGroup (·.startSession ids)).2 = d'.rig ∧
      ∀ id, (d.rig.onGroup (·.startSession ids)).1 = some id ↔
        d'.record = d.record ++ [.asked id, .opened id] := by
  have hgranted : d.rig.group.nextSession ∉ d.granted := fun h => by
    have hmem := H.openings.subset (List.mem_append_right _ h)
    exact Nat.lt_irrefl _ (H.below _ hmem)
  have hvalue : (d.rig.onGroup (·.askSession ids)).1 = (d.rig.group.askSession ids).1 := rfl
  obtain ⟨-, hcases⟩ := d.rig.group.askSession_cases (R := R) ids
  rw [Rig.onGroup_startSession]
  generalize hanswer : d.rig.onGroup (·.askSession ids) = answer at hvalue ⊢
  obtain ⟨value, rig⟩ := answer
  obtain ⟨hask, -⟩ | ⟨granted, hask, -⟩ := hcases
  · cases hvalue.trans hask
    have hd := act_ask_none hanswer
    rw [act_enter_of_not_mem (hd ▸ hgranted), hd]
    exact ⟨rfl, fun id => ⟨nofun, fun h => by simp at h⟩⟩
  · cases hvalue.trans hask
    have hd := act_ask_some hanswer
    cases granted with
    | false =>
      rw [act_enter_of_not_mem (hd ▸ hgranted), hd]
      exact ⟨rfl, fun id => ⟨nofun, fun h => by simp at h⟩⟩
    | true =>
      rw [act_enter_of_mem (hd ▸ List.mem_append_right _ List.mem_cons_self), hd]
      exact ⟨rfl, fun id => by simp⟩

/-! ## The open sessions -/

variable [Level R]

/-- Whatever happens at a desk, in whatever order: sessions are numbered in ascending order, the
completion of each is called once at most, and what was heard of are the completed ones, each once.
Sessions that are not open cannot be ended, and those dropped are not open. A session that was noted
is open exactly as long as it is neither completed, dropped nor cleared after that. -/
theorem sessions_after (rig : Rig R) (c : Coordinator) (as : List Act) :
    let d := (fresh rig c).after as
    d.asked.Pairwise (· < ·) ∧
    (d.completed ++ d.pending).Perm d.asked ∧
    d.rig.bridge.sessionsHeard = d.completed ∧ d.completed.Nodup ∧
    (∀ id ∈ d.rig.group.sessions, .opened id ∈ d.record) ∧
    (∀ id, .dropped id ∈ d.record → id ∉ d.rig.group.sessions) ∧
    (∀ id ∉ d.rig.group.sessions, ∀ abort,
      d.rig.group.endSession id abort = ((false, d.rig.group, []) : _ × _ × List (Call R))) ∧
    ∀ id before after, d.record = before ++ .opened id :: after →
      (id ∈ d.rig.group.sessions ↔
        .completed id ∉ after ∧ .dropped id ∉ after ∧ .cleared ∉ after) := by
  have H := (kept_fresh rig c).after as
  generalize (fresh rig c).after as = d at H
  have hcompleted : (d.completed ++ d.pending).Nodup := H.completions.nodup_iff.mpr H.asked_nodup
  refine ⟨H.ascending, H.completions, H.heard, (List.nodup_append'.mp hcompleted).1,
    fun id h => ((H.open_iff id).mp h).opened_mem,
    fun id h hopen => (H.dropped id h).2 ((H.open_iff id).mp hopen),
    fun id h abort => d.rig.group.endSession_of_not_mem id abort h, fun id before after h => ?_⟩
  rw [H.open_iff]
  exact Notice.leftOpen_iff (List.nodup_append'.mp H.opened_nodup).1 h

/-- A desk over hardware that grants sessions over its one actuator. -/
def granting : Desk Rat :=
  fresh { catalogue := fun id => (.negotiated, { profile := .degraded id }), group := .fixed [] }
    { capabilities := .ofList [.startSessions], ids := [0] }

/-- A session that is completed after it was noted is gone for good. -/
theorem sessions_after_completion :
    let d := granting.after [.init, .ask [0], .enter 1, .complete 1]
    d.record = [.cleared, .asked 1] ++ .opened 1 :: [.completed 1] ∧
      1 ∉ d.rig.group.sessions ∧
      d.rig.group.endSession 1 true = ((false, d.rig.group, []) : _ × _ × List (Call Rat)) :=
  have hrecord : (granting.after [.init, .ask [0], .enter 1, .complete 1]).record =
      [.cleared, .asked 1] ++ .opened 1 :: [.completed 1] := by decide +kernel
  have ⟨_, _, _, _, _, _, refused, open_iff⟩ :=
    sessions_after _ _ [.init, .ask [0], .enter 1, .complete 1]
  have hgone := fun hopen => ((open_iff 1 _ _ hrecord).mp hopen).1 List.mem_cons_self
  ⟨hrecord, hgone, refused 1 hgone true⟩

/-- The hardware completes a session before the start has noted it. The session is noted after that,
stays open and is ended on the hardware once more. -/
theorem open_after_completion :
    let d := granting.after [.init, .ask [0], .complete 1, .enter 1]
    .completed 1 ∈ d.record ∧ .opened 1 ∈ d.record ∧ d.pending = [] ∧ d.granted = [] ∧
      1 ∈ d.rig.group.sessions ∧
      d.rig.group.endSession 1 false =
        ((true, d.rig.group, [.endSession false]) : _ × _ × List (Call Rat)) :=
  ⟨by decide +kernel, by decide +kernel, by decide +kernel, by decide +kernel, by decide +kernel,
    rfl⟩

end Desk
end Haptics
