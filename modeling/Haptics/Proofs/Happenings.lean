import Haptics.Proofs.Strays
import Haptics.Proofs.Voicing
import Mathlib.Algebra.GroupWithZero.Nat

/-!
# Performances on a clock that waits

What happens to a performance on a clock that goes on only when there is nothing to do
(`Performance.happen`), and what of it concerns an actuator: the cues that its voice gets, and what
is pending for it.
-/

namespace Haptics

variable {R : Type}

/-! ## Happenings -/

/-- Something that happens to a performance. -/
inductive Happening (R : Type)
  /-- The conductor does the next thing there is to do. -/
  | conduct
  /-- The next completion on its way arrives, if it is due. -/
  | fire
  /-- A millisecond passes. -/
  | tick
  | send (mode : CancelMode)
  /-- Nobody can send cancels any more. -/
  | leave
  /-- A motor does something without being called. -/
  | stir (b : ActuatorId) (x : Quirk R)

namespace Happening

/-- What an actuator gets to feel from outside. -/
def cue? (a : ActuatorId) : Happening R → Option (Cue R)
  | send mode => some (.cancel mode)
  | stir b x => if b = a then some (.motor x) else none
  | conduct | fire | tick | leave => none

/-- The time that passes. -/
def span : Happening R → Nat
  | tick => 1
  | conduct | fire | send _ | leave | stir _ _ => 0

/-- What an actuator gets to feel from outside, and when, if it begins at `t`. -/
def cues (a : ActuatorId) : Nat → List (Happening R) → List (Nat × Cue R)
  | _, [] => []
  | t, h :: hs => (h.cue? a).toList.map (t, ·) ++ cues a (t + h.span) hs

/-- The time that passes in all. -/
def spans (hs : List (Happening R)) : Nat := (hs.map span).sum

end Happening

/-- The vibration that a report is for. -/
def Report.vibration? : Report → Option Nat
  | .step _ v _ | .synced v => some v
  | .session _ | .unheard => none

/-- What a vibration hears of a report. -/
def Report.event? (v : Nat) : Report → Option Event
  | .step b w i => if w = v then some (.stepComplete b w i) else none
  | .synced w => if w = v then some (.syncedComplete w) else none
  | .session _ | .unheard => none

namespace Performance

/-- The next completion on its way, if it is due. -/
def due? (p : Performance R) : Option Timer := p.rig.timers.head?.filter (·.due ≤ p.rig.now)

def arrive (p : Performance R) (x : Report) : Performance R := p.withRig (p.rig.deliver x)

/-- A report arrives, if there is one. -/
def arriveAny (p : Performance R) : Option Report → Performance R
  | none => p
  | some x => p.arrive x

/-- The inbox is not full if the report is for this vibration. -/
def HasRoom (p : Performance R) (x : Report) : Prop :=
  x.vibration? = some p.run.plan.vibration → p.rig.bridge.HasRoom p.inbox p.run.plan.vibration

instance (p : Performance R) (x : Report) : Decidable (p.HasRoom x) :=
  inferInstanceAs (Decidable (_ = _ → _))

section
variable [Level R]

def happen (p : Performance R) : Happening R → Performance R
  | .conduct => p.step?.getD p
  | .fire =>
    match p.due? with
    | some t => (p.withRig (p.rig.withTimers p.rig.timers.tail)).arrive t.report
    | none => p
  | .tick => p.withRig (p.rig.moveTo (p.rig.now + 1))
  | .send mode => (p.send mode).2
  | .leave => { p with callerPresent := false }
  | .stir b x =>
    match p.rig.device? b with
    | some d =>
      (p.withRig (p.rig.file b { d with motor := (d.motor.stir x).2 })).arriveAny (d.motor.stir x).1
    | none => p

def after (p : Performance R) (hs : List (Happening R)) : Performance R := hs.foldl happen p

theorem happen_fire_cases (p : Performance R) : p.happen .fire = p ∨
    ∃ t ts, p.due? = some t ∧ p.rig.timers = t :: ts ∧ t.due ≤ p.rig.now ∧
      p.happen .fire = (p.withRig (p.rig.withTimers ts)).arrive t.report := by
  unfold happen
  dsimp only
  cases h : p.due? with
  | none => exact .inl rfl
  | some t =>
    obtain ⟨hhead, hle⟩ := Option.filter_eq_some_iff.mp h
    obtain ⟨ts, hts⟩ := List.head?_eq_some_iff.mp hhead
    refine .inr ⟨t, ts, rfl, hts, of_decide_eq_true hle, ?_⟩
    rw [hts]
    rfl

theorem happen_stir_cases (p : Performance R) (b : ActuatorId) (x : Quirk R) :
    p.rig.device? b = none ∧ p.happen (.stir b x) = p ∨
    ∃ d, p.rig.device? b = some d ∧ p.happen (.stir b x) =
      (p.withRig (p.rig.file b { d with motor := (d.motor.stir x).2 })).arriveAny
        (d.motor.stir x).1 := by
  unfold happen
  dsimp only
  cases p.rig.device? b with
  | none => exact .inl ⟨rfl, rfl⟩
  | some d => exact .inr ⟨d, rfl, rfl⟩

theorem happen_conduct_of_isOver {p : Performance R} (h : p.isOver = true) :
    p.happen .conduct = p := by
  unfold happen step?
  dsimp only
  rw [if_pos h]
  rfl

/-- There is nothing to do, and nothing arrives. -/
def Settled (p : Performance R) : Prop :=
  p.step?.isNone = true ∧ ∀ t ∈ p.rig.timers, p.rig.now < t.due

/-- No time passes while there is something to do, no report comes to a full inbox, and who cannot
send cancels does not. -/
def Allows (p : Performance R) : Happening R → Prop
  | .conduct | .leave => True
  | .fire => ∀ t ∈ p.due?, p.HasRoom t.report
  | .tick => p.Settled
  | .send _ => p.callerPresent = true
  | .stir b x => ∀ d ∈ p.rig.device? b, ∀ y ∈ (d.motor.stir x).1, p.HasRoom y

/-- Plays take no time and no report is lost, from now until there is nothing to do any more. -/
def Prompt (p : Performance R) : List (Happening R) → Prop
  | [] => p.Settled
  | h :: hs => p.Allows h ∧ (p.happen h).Prompt hs

omit [Level R] in
/-- How many things are to happen to an actuator now: cancels, callbacks, and its step. -/
def pending (p : Performance R) (a : ActuatorId) : Nat :=
  p.cancels.length + (p.reports.filterMap (Event.step? a p.run.plan.vibration)).length +
    ((p.rig.timers.filterMap (Timer.step? a p.run.plan.vibration)).filter
      (·.1 ≤ p.rig.now)).length +
    (p.run.queue.own a).countP fun (released, l, _) => released || l.start.isDue p.rig.now

/-- No two of a callback of an actuator, a step of it that is due, and something that comes from
outside fall on one instant, and neither does anything on the instant `last` or before. -/
def Apart (a : ActuatorId) (last : Nat) (p : Performance R) : List (Happening R) → Prop
  | [] => True
  | h :: hs => p.pending a ≤ 1 ∧ ((h.cue? a).isSome → last < p.rig.now ∧ p.pending a = 0) ∧
    Apart a (if (h.cue? a).isSome ∨ 0 < p.pending a then p.rig.now else last) (p.happen h) hs

instance (p : Performance R) : Decidable p.Settled := inferInstanceAs (Decidable (_ ∧ _))

instance (p : Performance R) (h : Happening R) : Decidable (p.Allows h) :=
  match h with
  | .conduct | .leave => .isTrue trivial
  | .fire => inferInstanceAs (Decidable (∀ t ∈ p.due?, p.HasRoom t.report))
  | .tick => inferInstanceAs (Decidable p.Settled)
  | .send _ => inferInstanceAs (Decidable (_ = true))
  | .stir b x =>
    inferInstanceAs (Decidable (∀ d ∈ p.rig.device? b, ∀ y ∈ (d.motor.stir x).1, p.HasRoom y))

instance decidablePrompt : (hs : List (Happening R)) → (p : Performance R) → Decidable (p.Prompt hs)
  | [], p => inferInstanceAs (Decidable p.Settled)
  | _ :: hs, _ =>
    have := decidablePrompt hs
    inferInstanceAs (Decidable (_ ∧ _))

instance decidableApart (a : ActuatorId) : (hs : List (Happening R)) → (last : Nat) →
    (p : Performance R) → Decidable (p.Apart a last hs)
  | [], _, _ => .isTrue trivial
  | _ :: hs, _, _ =>
    have := decidableApart a hs
    inferInstanceAs (Decidable (_ ∧ _ ∧ _))

end

end Performance

/-! ## The hardware -/

namespace Motor

variable (m : Motor R) (x : Quirk R)

theorem id_stir : (m.stir x).2.id = m.id := by cases x <;> rfl

variable {m x} in
theorem mem_of_stir {y : Report} (h : y ∈ (m.stir x).1) : y ∈ m.held := by
  cases x with
  | report k => exact List.mem_of_getElem? h
  | alter f => cases h

variable {m x} in
theorem mem_held_stir {y : Report} (h : y ∈ (m.stir x).2.held) : y ∈ m.held := by
  cases x with
  | report k => exact List.mem_of_mem_eraseIdx h
  | alter f => exact h

end Motor

/-- Reports that are alike are for steps that correspond, if any. -/
theorem Report.steps_alike {a : ActuatorId} {v : Nat} {ρ : Nat → Nat → Prop} {x y : Option Report}
    (H : Option.Rel (Report.Alike a v ρ) x y) :
    List.Forall₂ ρ (x.bind (Report.step? a v)).toList (y.bind (Report.step? a v)).toList := by
  cases H with
  | none => exact .nil
  | some h => exact h.toList

/-- Devices that differ in the numbers of what they hold back do the same without being called. -/
theorem Device.Alike.stir {a : ActuatorId} {v : Nat} {ρ : Nat → Nat → Prop} {d d' : Device R}
    (H : d.Alike a v ρ d') (x : Quirk R) :
    Option.Rel (Report.Alike a v ρ) (d.motor.stir x).1 (d'.motor.stir x).1 ∧
      Device.Alike a v ρ { d with motor := (d.motor.stir x).2 }
        { d' with motor := (d'.motor.stir x).2 } := by
  obtain ⟨hs, hheld, rfl⟩ := H
  cases x with
  | report k =>
    exact ⟨hheld.getElem? k, _, hheld.eraseIdx k, rfl⟩
  | alter f => exact ⟨.none, _, hheld, rfl⟩

theorem Device.Filed.stir {b : ActuatorId} {d : Device R} (H : d.Filed b) (x : Quirk R) :
    Device.Filed b { d with motor := (d.motor.stir x).2 } :=
  ⟨H.control, (d.motor.id_stir x).trans H.motor⟩

namespace Rig

variable {a b : ActuatorId} {v : Nat} {ρ : Nat → Nat → Prop} {r r' : Rig R}

theorem Orderly.withTimers (H : r.Orderly v) {ts : List Timer} (h : ts.Sublist r.timers) :
    (r.withTimers ts).Orderly v :=
  ⟨H.filed, H.held, fun t ht => H.timers t (h.subset ht), H.timely.sublist h⟩

namespace Shares

theorem withBridge (H : r.Shares a v ρ r') (b : Bridge) : (r.withBridge b).Shares a v ρ r' :=
  ⟨⟨H.orderly.filed, H.orderly.held, H.orderly.timers, H.orderly.timely⟩, H.timely, H.now, H.device,
    H.timers, H.calls⟩

theorem deliver (H : r.Shares a v ρ r') (x : Report) : (r.deliver x).Shares a v ρ r' := by
  cases x with
  | step | synced => exact H.withBridge _
  | session id =>
    exact (H.group_aside (r.group.closeSession id)).withBridge (r.bridge.endSession id)
  | unheard => exact H

theorem moveTo (H : r.Shares a v ρ r') (t : Nat) : (r.moveTo t).Shares a v ρ (r'.moveTo t) :=
  ⟨⟨H.orderly.filed, H.orderly.held, H.orderly.timers, H.orderly.timely⟩, H.timely,
    congrArg (max · t) H.now, H.device, H.timers, H.calls⟩

/-- The completions of the actuator arrive at the same instants. -/
theorem arrivals (H : r.Shares a v ρ r') :
    List.Forall₂ (fun x y => y.1 = x.1 ∧ ρ x.2 y.2) (r.timers.filterMap (Timer.step? a v))
      (r'.timers.filterMap (Timer.step? a v)) := by
  have hown : ∀ ts : List Timer, ts.filterMap (Timer.step? a v) =
      (ts.filter (·.isOwn a v)).filterMap (Timer.step? a v) := by
    intro ts
    rw [List.filterMap_filter]
    refine List.filterMap_congr fun t _ => ?_
    unfold Timer.isOwn
    cases t.step? a v <;> rfl
  rw [hown, hown r'.timers]
  have htimers := H.timers
  generalize r.timers.filter (·.isOwn a v) = ts at htimers ⊢
  generalize r'.timers.filter (·.isOwn a v) = us at htimers ⊢
  induction htimers with
  | nil => exact .nil
  | @cons t u ts us halike _ ih =>
    obtain ⟨hdue, hstep⟩ := halike
    unfold Report.Alike at hstep
    simp only [List.filterMap_cons, Timer.step?]
    generalize t.report.step? a v = i? at hstep ⊢
    generalize u.report.step? a v = j? at hstep ⊢
    cases hstep with
    | none => exact ih
    | some h => exact .cons ⟨hdue, h⟩ ih

/-- As many completions of the actuator are due. -/
theorem length_due (H : r.Shares a v ρ r') (t : Nat) :
    ((r'.timers.filterMap (Timer.step? a v)).filter (·.1 ≤ t)).length =
      ((r.timers.filterMap (Timer.step? a v)).filter (·.1 ≤ t)).length := by
  have harrivals := H.arrivals
  generalize r.timers.filterMap (Timer.step? a v) = xs at harrivals ⊢
  generalize r'.timers.filterMap (Timer.step? a v) = ys at harrivals ⊢
  induction harrivals with
  | nil => rfl
  | cons h _ ih =>
    rw [List.filter_cons, List.filter_cons, h.1]
    split
    · exact congrArg (· + 1) ih
    · exact ih

/-- The arrival of what does not concern the actuator changes nothing. -/
theorem fire_aside (H : r.Shares a v ρ r') {t : Timer} {ts : List Timer} (h : r.timers = t :: ts)
    (aside : t.report.step? a v = none) : (r.withTimers ts).Shares a v ρ r' where
  orderly := H.orderly.withTimers (h ▸ List.sublist_cons_self t ts)
  timely := H.timely
  now := H.now
  device := H.device
  timers := by
    have htimers := H.timers
    rw [h, List.filter_cons_of_neg (by rw [Timer.isOwn_eq, aside]; exact Bool.false_ne_true)]
      at htimers
    exact htimers
  calls := H.calls

/-- The next completion of the actuator arrives on both rigs. -/
theorem fire (H : r.Shares a v ρ r') {t : Timer} {ts : List Timer} (h : r.timers = t :: ts)
    {i : Nat} (own : t.report.step? a v = some i) : ∃ j us, ρ i j ∧
      r'.timers.filterMap (Timer.step? a v) = (t.due, j) :: us ∧
      (r.withTimers ts).Shares a v ρ
        { r' with timers := r'.timers.eraseP fun t => (t.step? a v).isSome } := by
  have harrivals := H.arrivals
  rw [h, List.filterMap_cons_some (b := (t.due, i)) (by unfold Timer.step?; rw [own]; rfl)]
    at harrivals
  obtain ⟨⟨_, j⟩, us, ⟨rfl, hj⟩, -, hus⟩ := List.forall₂_cons_left_iff.mp harrivals
  refine ⟨j, us, hj, hus, ?_⟩
  have htimers := H.timers
  rw [h, List.filter_cons_of_pos (by rw [Timer.isOwn_eq, own]; rfl)] at htimers
  obtain ⟨u, us', -, hrest, hus'⟩ := List.forall₂_cons_left_iff.mp htimers
  exact {
    orderly := H.orderly.withTimers (h ▸ List.sublist_cons_self t ts)
    timely := H.timely.sublist List.eraseP_sublist
    now := H.now
    device := H.device
    timers := by
      show List.Forall₂ _ (ts.filter _) ((r'.timers.eraseP (·.isOwn a v)).filter (·.isOwn a v))
      rw [List.filter_eraseP, hus']
      exact hrest
    calls := H.calls }

/-- What another motor does without being called changes nothing. -/
theorem stir_aside (H : r.Shares a v ρ r') (hb : b ≠ a) {d : Device R} (hd : r.device? b = some d)
    (x : Quirk R) : (r.file b { d with motor := (d.motor.stir x).2 }).Shares a v ρ r' :=
  H.file_aside hb ((H.orderly.filed hd).stir x) fun y hy =>
    H.orderly.held hd y (Motor.mem_held_stir hy)

/-- Both motors of the actuator do the same without being called. -/
theorem stir (H : r.Shares a v ρ r') {d : Device R} (hd : r.device? a = some d) (x : Quirk R) :
    ∃ d', r'.device? a = some d' ∧
      Option.Rel (Report.Alike a v ρ) (d.motor.stir x).1 (d'.motor.stir x).1 ∧
      (r.file a { d with motor := (d.motor.stir x).2 }).Shares a v ρ
        (r'.file a { d' with motor := (d'.motor.stir x).2 }) := by
  have hdevice := H.device
  rw [hd] at hdevice
  generalize hd' : r'.device? a = device at hdevice
  cases hdevice with
  | @some _ d' halike =>
    obtain ⟨hreport, hmotor⟩ := halike.stir x
    exact ⟨d', rfl, hreport, H.file hmotor ((H.orderly.filed hd).stir x) fun y hy =>
      H.orderly.held hd y (Motor.mem_held_stir hy)⟩

end Shares
end Rig

/-! ## The mailbox -/

namespace Bridge

variable {b : Bridge} {i v : Nat} {x : Inbox}

theorem post_route (b : Bridge) (v : Nat) (e : Event) : (b.post v e).route = b.route := by
  unfold post
  split <;> rfl

theorem get_post (route : b.route = some i) (h : b.inboxes[i]? = some x) (v : Nat) (e : Event) :
    (b.post v e).inboxes[i]? = some (x.post v e) := by
  rw [post_of_route route]
  dsimp only
  rw [Array.getElem?_modify, if_pos rfl, h]
  rfl

end Bridge

/-- What a report does to the bridge. -/
theorem Rig.deliver_cases (r : Rig R) (x : Report) :
    (∃ w e, x.vibration? = some w ∧ (∀ v, x.event? v = if w = v then some e else none) ∧
      (r.deliver x).bridge = r.bridge.post w e) ∨
    (∀ v, x.event? v = none) ∧ (r.deliver x).bridge.route = r.bridge.route ∧
      (r.deliver x).bridge.inboxes = r.bridge.inboxes := by
  cases x with
  | step | synced => exact .inl ⟨_, _, rfl, fun _ => rfl, rfl⟩
  | session =>
    refine .inr ⟨fun _ => rfl, ?_, ?_⟩
    all_goals
      unfold deliver Bridge.endSession
      dsimp only
      split <;> rfl
  | unheard => exact .inr ⟨fun _ => rfl, rfl, rfl⟩

theorem Report.step_event (a : ActuatorId) (v : Nat) (x : Report) :
    (x.event? v).bind (Event.step? a v) = x.step? a v := by
  cases x with
  | step b w i =>
    unfold event? step?
    dsimp only
    by_cases hw : w = v
    · rw [if_pos hw]
      rfl
    · rw [if_neg hw, if_neg fun h => hw h.2]
      rfl
  | synced w =>
    unfold event? step?
    dsimp only
    split <;> rfl
  | _ => rfl

/-- Apart from completions of the group, a vibration hears of steps of its own only. -/
theorem Report.step_of_event {v : Nat} {x : Report} (lone : x ≠ .synced v) {e : Event}
    (h : e ∈ x.event? v) : ∃ b i, e = .stepComplete b v i := by
  cases x with
  | step b w j =>
    unfold event? at h
    dsimp only at h
    split at h
    · rename_i hw
      subst hw
      cases h
      exact ⟨b, j, rfl⟩
    · cases h
  | synced w =>
    unfold event? at h
    dsimp only at h
    split at h
    · rename_i hw
      exact absurd (congrArg Report.synced hw) lone
    · cases h
  | session | unheard => cases h

/-- A delivered report is put behind the others of its vibration if their inbox has room. -/
theorem Rig.inbox_deliver {r : Rig R} {i v : Nat} {x : Inbox} (route : r.bridge.route = some i)
    (get : r.bridge.inboxes[i]? = some x) (attached : x.vibration = v) (reader : x.hasReader = true)
    {y : Report} (room : y.vibration? = some v → x.waiting.length < x.capacity) :
    ∃ z : Inbox, (r.deliver y).bridge.route = some i ∧
      (r.deliver y).bridge.inboxes[i]? = some z ∧ z.vibration = x.vibration ∧
      z.hasReader = x.hasReader ∧ z.waiting = x.waiting ++ (y.event? v).toList := by
  rcases r.deliver_cases y with ⟨w, e, hw, hevent, hbridge⟩ | ⟨hevent, hroute, hinboxes⟩
  · rw [hbridge, Bridge.post_route]
    refine ⟨x.post w e, route, Bridge.get_post route get w e, ?_⟩
    rw [hevent]
    unfold Inbox.post
    by_cases hwv : w = v
    · have hlt := room (hw.trans (congrArg some hwv))
      rw [if_pos ⟨attached.trans hwv.symm, reader, hlt⟩, if_pos hwv]
      exact ⟨rfl, rfl, rfl⟩
    · rw [if_neg fun h => hwv (h.1.symm.trans attached), if_neg hwv]
      exact ⟨rfl, rfl, (List.append_nil _).symm⟩
  · rw [hroute, hinboxes, hevent]
    exact ⟨x, route, get, rfl, rfl, (List.append_nil _).symm⟩

namespace Performance

variable {p q : Performance R}

/-- Reports for the vibration come to its inbox, and only steps of it were reported. -/
structure Listens (p : Performance R) : Prop where
  inbox : ∃ i x, p.inbox = some i ∧ p.rig.bridge.route = some i ∧
    p.rig.bridge.inboxes[i]? = some x ∧ x.vibration = p.run.plan.vibration ∧ x.hasReader = true
  steps : ∀ e ∈ p.reports, ∃ b i, e = .stepComplete b p.run.plan.vibration i

theorem reports_of_inbox {i : Nat} (h : p.inbox = some i) :
    p.reports = p.rig.bridge.waiting i := by
  unfold reports takeReports
  rw [h]
  rfl

theorem reports_of_get {i : Nat} {x : Inbox} (h : p.inbox = some i)
    (hx : p.rig.bridge.inboxes[i]? = some x) : p.reports = x.waiting :=
  (reports_of_inbox h).trans (Bridge.waiting_of_get hx)

theorem Listens.hearsReports (H : p.Listens) : p.hearsReports = true := by
  obtain ⟨i, x, hinbox, hroute, -⟩ := H.inbox
  unfold Performance.hearsReports Bridge.isClosed
  rw [hinbox, hroute]
  simp

/-- Reports only depend on the mailbox. -/
theorem reports_congr (inbox : q.inbox = p.inbox) (bridge : q.rig.bridge = p.rig.bridge) :
    q.reports = p.reports := by
  cases h : p.inbox with
  | none =>
    unfold reports takeReports
    rw [inbox, h]
  | some i => rw [reports_of_inbox h, reports_of_inbox (inbox.trans h), bridge]

theorem Listens.congr (H : p.Listens) (inbox : q.inbox = p.inbox)
    (bridge : q.rig.bridge = p.rig.bridge) (plan : q.run.plan = p.run.plan) : q.Listens where
  inbox := by
    rw [inbox, bridge, plan]
    exact H.inbox
  steps := by
    rw [reports_congr inbox bridge, plan]
    exact H.steps

/-- A report that finds room is put behind the others. -/
theorem Listens.arrive (H : p.Listens) {x : Report} (room : p.HasRoom x)
    (lone : x ≠ .synced p.run.plan.vibration) : (p.arrive x).Listens ∧
      (p.arrive x).reports = p.reports ++ (x.event? p.run.plan.vibration).toList := by
  obtain ⟨i, y, hinbox, hroute, hy, hv, hreader⟩ := H.inbox
  obtain ⟨z, hroute', hz, hzv, hzreader, hwaiting⟩ := Rig.inbox_deliver (y := x) hroute hy hv
    hreader fun hx => room hx i hinbox hroute y hy hv hreader
  have hreports : (p.arrive x).reports =
      p.reports ++ (x.event? p.run.plan.vibration).toList := by
    rw [reports_of_get hinbox hy, ← hwaiting]
    exact reports_of_get (p := p.arrive x) hinbox hz
  refine ⟨⟨⟨i, z, hinbox, hroute', hz, hzv.trans hv, hzreader.trans hreader⟩, ?_⟩, hreports⟩
  rw [hreports]
  intro e he
  rcases List.mem_append.mp he with he | he
  · exact H.steps e he
  · exact Report.step_of_event lone (Option.mem_toList.mp he)

theorem arrive_step (H : p.Listens) {x : Report} (room : p.HasRoom x)
    (lone : x ≠ .synced p.run.plan.vibration) (a : ActuatorId) :
    (p.arrive x).reports.filterMap (Event.step? a p.run.plan.vibration) =
      p.reports.filterMap (Event.step? a p.run.plan.vibration) ++
        (x.step? a p.run.plan.vibration).toList := by
  rw [(H.arrive room lone).2, List.filterMap_append, ← Report.step_event]
  cases x.event? p.run.plan.vibration with
  | none => rfl
  | some e => cases he : Event.step? a p.run.plan.vibration e <;> simp [he]

variable [Level R]

/-- If there is nothing to do, there is no mail, and nothing is due. -/
theorem idle_of_step (h : p.step? = none) (on : p.isOver = false) :
    p.cancels = [] ∧ p.reports = [] ∧ p.run.queue.popDue p.run.now = none := by
  unfold step? at h
  dsimp only at h
  rw [on, if_neg Bool.false_ne_true] at h
  cases hplay : p.handleMail.run.playDue? with
  | some run =>
    rw [hplay] at h
    cases h
  | none =>
    rw [hplay] at h
    dsimp only at h
    split at h
    · cases h
    · split at h
      · cases h
      · split at h
        · cases h
        · rename_i hmail
          obtain ⟨hcancels, hreports⟩ := mail_iff.mp (Bool.not_eq_true _ ▸ hmail)
          rw [handleMail_of_empty hcancels hreports] at hplay
          exact ⟨hcancels, hreports, Option.map_eq_none_iff.mp hplay⟩

/-- Handling the mail empties the inbox. -/
theorem Listens.handleMail (H : p.Listens) : p.handleMail.Listens ∧ p.handleMail.reports = [] := by
  obtain ⟨i, y, hinbox, hroute, hy, hv, hreader⟩ := H.inbox
  have hplan : (p.reports.foldl Run.hear (p.cancels.foldl Run.cancel p.run)).plan = p.run.plan := by
    rw [foldl_hear, foldl_cancel, ← Run.moves_append]
    exact p.run.plan_moves _
  have hemptied : p.emptied = (p.rig.bridge.read i).2 := by
    unfold emptied
    rw [hinbox]
  have hget : (p.rig.bridge.read i).2.inboxes[i]? = some { y with waiting := [] } := by
    unfold Bridge.read
    dsimp only
    rw [Array.getElem?_modify, if_pos rfl, hy]
    rfl
  rw [handleMail_eq, hemptied]
  have hreports := reports_of_get (p := { p with
      run := (p.reports.foldl Run.hear (p.cancels.foldl Run.cancel p.run)).withBridge
        (p.rig.bridge.read i).2
      cancels := [] }) hinbox hget
  refine ⟨⟨⟨i, _, hinbox, hroute, hget, hv.trans ?_, hreader⟩, ?_⟩, hreports⟩
  · exact congrArg Plan.vibration hplan.symm
  · rw [hreports]
    exact fun _ he => (List.not_mem_nil he).elim

omit [Level R] in
/-- A performance that begins listens. -/
theorem listens_opened (plan : Plan R) (v : Vibration R) (rig : Rig R) :
    (fresh plan v rig).opened.Listens ∧ (fresh plan v rig).opened.reports = [] := by
  have hget : (rig.bridge.attach plan.vibration plan.tuning.capacity).inboxes[
      rig.bridge.inboxes.size]? = some ⟨plan.vibration, max plan.tuning.capacity 1, [], true⟩ :=
    Array.getElem?_push_size ..
  have hinbox : (fresh plan v rig).opened.inbox = some rig.bridge.inboxes.size := rfl
  have hreports : (fresh plan v rig).opened.reports = [] := reports_of_get hinbox hget
  refine ⟨⟨⟨_, _, hinbox, rfl, hget, rfl, rfl⟩, ?_⟩, hreports⟩
  rw [hreports]
  exact fun _ he => (List.not_mem_nil he).elim

end Performance
end Haptics
