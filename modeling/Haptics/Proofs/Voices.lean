import Haptics.Proofs.Moves
import Haptics.Proofs.Timers
import Mathlib.Logic.Relation

/-!
# Voices

One actuator's share of a performance, by itself (`Voice`): its step, the completions on their way
to it, and the cancels it has not obeyed yet. What a voice does at an instant is settled by what is
pending then, as long as no two things are; so a voice that misses nothing is settled by what
happens to it from outside and when (`Voice.Path.unique`).
-/

namespace Haptics

variable {R : Type}

theorem StartTime.isDue_mono {s : StartTime} {t u : Nat} (htu : t ≤ u) (h : s.isDue t = true) :
    s.isDue u = true := by
  cases s with
  | «at» t' => exact decide_eq_true (Nat.le_trans (of_decide_eq_true h) htu)
  | whenComplete => cases h
  | afterPending => rfl

/-! ## What happens to an actuator from outside -/

/-- What a motor may do without being called. -/
inductive Quirk (R : Type)
  /-- It reports one of the completions that it held back. -/
  | report (k : Nat)
  /-- It changes its ways, but not what it is and what it held back. -/
  | alter (f : Motor R → Motor R)

def Motor.stir (m : Motor R) : Quirk R → Option Report × Motor R
  | .report k => (m.held[k]?, { m with held := m.held.eraseIdx k })
  | .alter f => (none, { f { m with held := [] } with held := m.held, profile := m.profile })

/-- What happens to an actuator from outside. -/
inductive Cue (R : Type)
  | cancel (mode : CancelMode)
  | motor (x : Quirk R)

section
variable (a : ActuatorId) (v : Nat)

/-- The step that a report is about, if it is one of an actuator in a vibration. -/
def Report.step? : Report → Option Nat
  | .step b w i => if b = a ∧ w = v then some i else none
  | .synced _ | .session _ | .unheard => none

def Event.step? : Event → Option Nat
  | .stepComplete b w i => if b = a ∧ w = v then some i else none
  | .syncedComplete _ => none

/-- When a completion of an actuator arrives in a vibration, and for which step. -/
def Timer.step? (t : Timer) : Option (Nat × Nat) := (t.report.step? a v).map (t.due, ·)

end

/-- The lane and the task of a step, if it is one of an actuator. -/
def Step.lane? : Step R → Option (Lane × Task R)
  | lane l task => some (l, task)
  | start _ _ | finish => none

/-! ## A voice -/

/-- One actuator's share of a performance. -/
structure Voice (R : Type) where
  stage : Stage R
  /-- The step that is queued, and whether a report released it. -/
  step : Option (Bool × Lane × Task R)
  /-- The steps whose reports were delivered and not heard yet. -/
  inbox : List Nat := []
  /-- The cancels that were sent and not obeyed yet. -/
  cancels : List CancelMode := []

namespace Voice

section
variable (plan : Plan R) (a : ActuatorId) (v : Voice R)

def now : Nat := v.stage.now

/-- The completions on their way. -/
def timers : List (Nat × Nat) := v.stage.rig.timers.filterMap (Timer.step? a plan.vibration)

def isReady (t : Nat) : Bool := v.step.any fun (released, l, _) => released || l.start.isDue t

/-- How many things are to happen at an instant. -/
def pending (t : Nat) : Nat :=
  v.cancels.length + v.inbox.length + ((v.timers plan a).filter (·.1 ≤ t)).length +
    (v.isReady t).toNat

def moveTo (t : Nat) : Voice R :=
  { v with stage := { v.stage with rig := v.stage.rig.moveTo t } }

/-- The next completion is delivered. -/
def fire (i : Nat) : Voice R :=
  { v with
    stage := { v.stage with rig := { v.stage.rig with
      timers := v.stage.rig.timers.eraseP fun t => (t.step? a plan.vibration).isSome } }
    inbox := v.inbox ++ [i] }

/-- A report is heard. -/
def hear (i : Nat) : Voice R :=
  { v with step := v.step.map fun (released, l, task) =>
      if released then (true, l, task)
      else ((l.accept a (some i) v.now).1, (l.accept a (some i) v.now).2, task) }

section
variable [Level R]

/-- The step is played. -/
def play (l : Lane) (task : Task R) : Voice R :=
  { v with
    stage := (l.play plan v.stage task).stage
    step := ((l.play plan v.stage task).next.head?.bind Step.lane?).map (false, ·) }

/-- A cancel is obeyed. -/
def obey : CancelMode → Voice R
  | .graceful =>
    match v.step with
    | none => v
    | some (_, l, task) =>
      { v with
        stage := { v.stage with nextStep := v.stage.nextStep + 1 }
        step := some (false, { id := v.stage.nextStep, start := .at v.now, actuator := l.actuator,
                               deadline := l.deadline }, task.remnant) }
  | .immediate =>
    match v.step with
    | none => v
    | some (_, l, task) => { v with stage := l.cancelNow v.stage task, step := none }

end

/-- Something happens from outside. -/
def cue : Cue R → Voice R
  | .cancel mode => { v with cancels := v.cancels ++ [mode] }
  | .motor x =>
    match v.stage.rig.device? a with
    | none => v
    | some d =>
      { v with
        stage := { v.stage with rig := { v.stage.rig with
          devices := v.stage.rig.devices.insert a { d with motor := (d.motor.stir x).2 } } }
        inbox := v.inbox ++ ((d.motor.stir x).1.bind (Report.step? a plan.vibration)).toList }

end

section
variable [Level R] (plan : Plan R) (a : ActuatorId)

/-- A voice does one of the things that are pending. -/
inductive Own : Voice R → Voice R → Prop
  | play {v released l task} (h : v.step = some (released, l, task))
    (due : (released || l.start.isDue v.now) = true) : Own v (v.play plan l task)
  | fire {v t i ts} (h : v.timers plan a = (t, i) :: ts) (due : t ≤ v.now) : Own v (v.fire plan a i)
  | hear {v i is} (h : v.inbox = i :: is) : Own v ({ v with inbox := is }.hear a i)
  | obey {v mode modes} (h : v.cancels = mode :: modes) :
    Own v ({ v with cancels := modes }.obey mode)

/-- What a voice does and what happens to it, at instants at which nothing earlier was missed. A
strict voice never has two things to do, and nothing happens to it at an instant at which it does
something or something else happens. -/
inductive Path (strict : Prop) : Voice R → List (Nat × Cue R) → Voice R → Prop
  | done {v} : Path strict v [] v
  | own {v w x cs u} (forward : v.now ≤ u)
    (prompt : ∀ t, v.now ≤ t → t < u → v.pending plan a t = 0)
    (apart : strict → v.pending plan a u ≤ 1) (own : Own plan a (v.moveTo u) w)
    (rest : Path strict w cs x) : Path strict v cs x
  | cue {v x c cs u} (forward : v.now ≤ u)
    (prompt : ∀ t, v.now ≤ t → t < u → v.pending plan a t = 0)
    (apart : strict → v.now < u ∧ v.pending plan a u = 0)
    (rest : Path strict ((v.moveTo u).cue plan a c) cs x) : Path strict v ((u, c) :: cs) x

end

/-! ## One thing at a time -/

section
variable [Level R] {plan : Plan R} {a : ActuatorId} {v w x : Voice R}

omit [Level R] in
@[simp] theorem pending_moveTo (u t : Nat) :
    (v.moveTo u).pending plan a t = v.pending plan a t := rfl

omit [Level R] in
theorem now_moveTo {u : Nat} (h : v.now ≤ u) : (v.moveTo u).now = u := Nat.max_eq_right h

omit [Level R] in
@[simp] theorem now_cue (c : Cue R) : (v.cue plan a c).now = v.now := by
  cases c with
  | cancel => rfl
  | motor x =>
    unfold cue
    dsimp only
    split <;> rfl

theorem obey_of_none (h : v.step = none) (mode : CancelMode) : v.obey mode = v := by
  cases mode <;> simp only [obey, h]

theorem now_obey (mode : CancelMode) : (v.obey mode).now = v.now := by
  cases mode with
  | graceful =>
    unfold obey
    dsimp only
    split <;> rfl
  | immediate =>
    unfold obey
    dsimp only
    split
    · rfl
    · rename_i l task _
      show (l.cancelNow v.stage task).now = v.stage.now
      rw [Lane.cancelNow_eq]
      split
      · exact v.stage.stop_now l
      · rfl

theorem Own.now (H : Own plan a v w) : w.now = v.now := by
  cases H with
  | @play _ l task =>
    obtain ⟨ds, hds, -⟩ := (l.play_plays v.stage plan task).deeds
    exact hds.now
  | fire | hear => rfl
  | obey => exact now_obey _

omit [Level R] in
theorem due_pos {t i : Nat} {ts : List (Nat × Nat)} (h : v.timers plan a = (t, i) :: ts)
    (due : t ≤ v.now) : 0 < ((v.timers plan a).filter (·.1 ≤ v.now)).length := by
  rw [h, List.filter_cons_of_pos (by simpa using due)]
  exact Nat.succ_pos _

omit [Level R] in
theorem isReady_of_none (h : v.step = none) (t : Nat) : v.isReady t = false := by
  rw [isReady, h]
  rfl

omit [Level R] in
theorem ready_pos {released : Bool} {l : Lane} {task : Task R}
    (h : v.step = some (released, l, task)) (due : (released || l.start.isDue v.now) = true) :
    0 < (v.isReady v.now).toNat := by
  have hready : v.isReady v.now = true := by
    rw [isReady, h]
    exact due
  rw [hready]
  exact Nat.one_pos

/-- What a voice does was pending. -/
theorem Own.pending_pos (H : Own plan a v w) : 0 < v.pending plan a v.now := by
  unfold pending
  cases H with
  | play h due =>
    have := ready_pos h due
    omega
  | fire h due =>
    have := due_pos h due
    omega
  | hear h =>
    have := congrArg List.length h
    rw [List.length_cons] at this
    omega
  | obey h =>
    have := congrArg List.length h
    rw [List.length_cons] at this
    omega

/-- What a voice does at `u` happens at `u`. -/
theorem Own.now_at {u : Nat} (H : Own plan a (v.moveTo u) w) (h : v.now ≤ u) : w.now = u :=
  H.now.trans (now_moveTo h)

/-- What a voice does at `u` was pending at `u`. -/
theorem Own.pending_pos_at {u : Nat} (H : Own plan a (v.moveTo u) w) (h : v.now ≤ u) :
    0 < v.pending plan a u := by
  have hpos := H.pending_pos
  rwa [pending_moveTo, now_moveTo h] at hpos

/-- What a voice does if it obeys first, then hears, then waits for completions, and plays last. -/
def next? (plan : Plan R) (a : ActuatorId) (v : Voice R) : Option (Voice R) :=
  match v.cancels, v.inbox, (v.timers plan a).filter (·.1 ≤ v.now), v.step with
  | mode :: modes, _, _, _ => some ({ v with cancels := modes }.obey mode)
  | [], i :: is, _, _ => some ({ v with inbox := is }.hear a i)
  | [], [], (_, i) :: _, _ => some (v.fire plan a i)
  | [], [], [], some (_, l, task) => some (v.play plan l task)
  | [], [], [], none => none

theorem Own.eq_next (H : Own plan a v w) (h : v.pending plan a v.now ≤ 1) :
    v.next? plan a = some w := by
  unfold pending at h
  unfold next?
  cases H with
  | play hstep due =>
    have hready := ready_pos hstep due
    have hcancels : v.cancels = [] := List.eq_nil_of_length_eq_zero (by omega)
    have hinbox : v.inbox = [] := List.eq_nil_of_length_eq_zero (by omega)
    have htimers : (v.timers plan a).filter (·.1 ≤ v.now) = [] :=
      List.eq_nil_of_length_eq_zero (by omega)
    rw [hcancels, hinbox, htimers, hstep]
  | @fire t i ts hfire due =>
    have hdue := due_pos hfire due
    have hcancels : v.cancels = [] := List.eq_nil_of_length_eq_zero (by omega)
    have hinbox : v.inbox = [] := List.eq_nil_of_length_eq_zero (by omega)
    have hfirst : (v.timers plan a).filter (·.1 ≤ v.now) = (t, i) :: ts.filter (·.1 ≤ v.now) := by
      rw [hfire, List.filter_cons_of_pos (by simpa using due)]
    rw [hcancels, hinbox, hfirst]
  | hear hhear =>
    rw [hhear, List.length_cons] at h
    have hcancels : v.cancels = [] := List.eq_nil_of_length_eq_zero (by omega)
    rw [hcancels, hhear]
  | obey hobey => rw [hobey]

/-- If only one thing is pending, the voice can only do that. -/
theorem Own.unique (H : Own plan a v w) (K : Own plan a v x) (h : v.pending plan a v.now ≤ 1) :
    w = x :=
  Option.some.inj ((H.eq_next h).symm.trans (K.eq_next h))

/-! ## Paths -/

namespace Path

variable {strict : Prop} {cs ds : List (Nat × Cue R)} {y : Voice R}

theorem now_le (P : Path plan a strict v cs x) : v.now ≤ x.now := by
  induction P with
  | done => exact Nat.le_refl _
  | own forward _ _ own _ ih =>
    exact Nat.le_trans forward (own.now_at forward ▸ ih)
  | cue forward _ _ _ ih =>
    rw [now_cue, now_moveTo forward] at ih
    exact Nat.le_trans forward ih

/-- Nothing happens to a strict voice at the instant at which it did something last. -/
theorem cue_time (P : Path plan a strict v cs x) :
    ∀ c ∈ cs, v.now ≤ c.1 ∧ c.1 ≤ x.now ∧ (strict → v.now < c.1) := by
  induction P with
  | done => exact fun _ hc => (List.not_mem_nil hc).elim
  | own forward _ _ own _ ih =>
    intro c hc
    obtain ⟨hle, hlast, hlt⟩ := ih c hc
    rw [own.now_at forward] at hle hlt
    exact ⟨Nat.le_trans forward hle, hlast, fun h => Nat.lt_of_le_of_lt forward (hlt h)⟩
  | @cue v x c cs u forward _ apart rest ih =>
    intro d hd
    rcases List.mem_cons.mp hd with rfl | hd
    · have hlast := rest.now_le
      rw [now_cue, now_moveTo forward] at hlast
      exact ⟨forward, hlast, fun h => (apart h).1⟩
    · obtain ⟨hle, hlast, hlt⟩ := ih d hd
      rw [now_cue, now_moveTo forward] at hle hlt
      exact ⟨Nat.le_trans forward hle, hlast, fun h => Nat.lt_of_le_of_lt forward (hlt h)⟩

theorem trans (P : Path plan a strict v cs w) (Q : Path plan a strict w ds x) :
    Path plan a strict v (cs ++ ds) x := by
  induction P with
  | done => exact Q
  | own forward prompt apart own _ ih => exact .own forward prompt apart own (ih Q)
  | cue forward prompt apart _ ih => exact .cue forward prompt apart (ih Q)

omit [Level R] in
/-- What is not pending was not pending before. -/
theorem calm_before {t u : Nat} (h : v.pending plan a u = 0) (htu : t ≤ u) :
    v.pending plan a t = 0 := by
  have hready : v.isReady t = true → v.isReady u = true := by
    unfold isReady
    cases v.step with
    | none => exact id
    | some x =>
      simp only [Option.any_some, Bool.or_eq_true]
      exact Or.imp_right (StartTime.isDue_mono htu)
  have hdue : ((v.timers plan a).filter (·.1 ≤ t)).length ≤
      ((v.timers plan a).filter (·.1 ≤ u)).length := by
    rw [← List.countP_eq_length_filter, ← List.countP_eq_length_filter]
    refine List.countP_mono_left fun x _ hx => ?_
    exact decide_eq_true (Nat.le_trans (of_decide_eq_true hx) htu)
  unfold pending at h ⊢
  have hle : (v.isReady t).toNat ≤ (v.isReady u).toNat := by
    cases ht : v.isReady t with
    | false => exact Nat.zero_le _
    | true => exact Nat.le_of_eq (congrArg Bool.toNat (hready ht)).symm
  omega

/-- A voice that misses nothing is settled by what happens to it and when. -/
theorem unique (P : Path plan a True v cs x) (Q : Path plan a False v cs y) {t : Nat}
    (hx : x.now ≤ t) (hy : y.now ≤ t) (calm : x.pending plan a t = 0)
    (calm' : y.pending plan a t = 0) : x = y := by
  induction P with
  | @done v =>
    cases Q with
    | done => rfl
    | @own _ w _ _ u forward _ _ own rest =>
      -- What the other voice does was pending, and so it would be still.
      have hpos := own.pending_pos_at forward
      have hle : u ≤ y.now := own.now_at forward ▸ rest.now_le
      rw [calm_before calm (Nat.le_trans hle hy)] at hpos
      cases hpos
  | @own v w x cs u forward prompt apart own rest ih =>
    have hpos := own.pending_pos_at forward
    have hle : u ≤ x.now := own.now_at forward ▸ rest.now_le
    cases Q with
    | done =>
      rw [calm_before calm' (Nat.le_trans hle hx)] at hpos
      cases hpos
    | @own _ w' _ _ u' forward' prompt' _ own' rest' =>
      have hpos' := own'.pending_pos_at forward'
      obtain rfl : u = u' := by
        rcases Nat.lt_trichotomy u u' with hlt | rfl | hlt
        · rw [prompt' u forward hlt] at hpos
          cases hpos
        · rfl
        · rw [prompt u' forward' hlt] at hpos'
          cases hpos'
      obtain rfl : w = w' := by
        refine own.unique own' ?_
        rw [pending_moveTo, now_moveTo forward]
        exact apart trivial
      exact ih rest' hx calm
    | @cue _ _ c cs' u' forward' prompt' _ rest' =>
      -- The other voice takes its cue first, so it missed what was pending.
      have hlt := (rest.cue_time _ List.mem_cons_self).2.2 trivial
      rw [own.now_at forward] at hlt
      rw [prompt' u forward hlt] at hpos
      cases hpos
  | @cue v x c cs u forward prompt apart rest ih =>
    cases Q with
    | @own _ w' _ _ u' forward' prompt' _ own' rest' =>
      have hpos' := own'.pending_pos_at forward'
      have hle := (rest'.cue_time _ List.mem_cons_self).1
      rw [own'.now_at forward'] at hle
      rw [calm_before (apart trivial).2 hle] at hpos'
      cases hpos'
    | cue _ _ _ rest' => exact ih rest' hx calm

end Path

/-! ## Voices at an instant -/

section
variable {strict : Prop} {cs : List (Nat × Cue R)} {last : Nat}

omit [Level R] in
theorem moveTo_self (v : Voice R) : v.moveTo v.now = v := by
  have hrig : v.stage.rig.moveTo v.now = v.stage.rig := by
    unfold Rig.moveTo
    rw [show max v.stage.rig.now v.now = v.stage.rig.now from Nat.max_self _]
  unfold moveTo
  rw [hrig]

omit [Level R] in
theorem moveTo_moveTo (v : Voice R) {t u : Nat} (h : t ≤ u) :
    (v.moveTo t).moveTo u = v.moveTo u := by
  have hrig : (v.stage.rig.moveTo t).moveTo u = v.stage.rig.moveTo u := by
    unfold Rig.moveTo
    dsimp only
    rw [Nat.max_assoc, Nat.max_eq_right h]
  unfold moveTo
  dsimp only
  rw [hrig]

theorem timers_obey (v : Voice R) (mode : CancelMode) :
    (v.obey mode).timers plan a = v.timers plan a := by
  cases mode with
  | graceful =>
    unfold obey
    dsimp only
    split <;> rfl
  | immediate =>
    unfold obey
    dsimp only
    split
    · rfl
    · rename_i l task _
      have htimers : (l.cancelNow v.stage task).rig.timers = v.stage.rig.timers := by
        rw [Lane.cancelNow_eq]
        split
        · exact Rig.stop_timers l.actuator
        · rfl
      exact congrArg (List.filterMap (Timer.step? a plan.vibration)) htimers

theorem mail_obey (v : Voice R) (mode : CancelMode) :
    (v.obey mode).inbox = v.inbox ∧ (v.obey mode).cancels = v.cancels := by
  cases mode <;> (unfold obey; dsimp only; split <;> exact ⟨rfl, rfl⟩)

/-- If obeying was all that was pending, only the step is pending after it. -/
theorem pending_obey {mode : CancelMode} {modes : List CancelMode} (h : v.cancels = mode :: modes)
    {t : Nat} (hv : v.pending plan a t ≤ 1) :
    ({ v with cancels := modes }.obey mode).pending plan a t ≤ 1 := by
  have htimers : ({ v with cancels := modes }.obey mode).timers plan a = v.timers plan a :=
    timers_obey { v with cancels := modes } mode
  obtain ⟨hinbox, hcancels⟩ := mail_obey { v with cancels := modes } mode
  have hready := Bool.toNat_le (({ v with cancels := modes }.obey mode).isReady t)
  unfold pending at hv ⊢
  rw [h, List.length_cons] at hv
  rw [htimers, hinbox, hcancels]
  show modes.length + v.inbox.length + ((v.timers plan a).filter (·.1 ≤ t)).length + _ ≤ 1
  omega

omit [Level R] in
/-- If a report was all that was pending, only the step is pending after it. -/
theorem pending_hear {i : Nat} {is : List Nat} (h : v.inbox = i :: is) {t : Nat}
    (hv : v.pending plan a t ≤ 1) : ({ v with inbox := is }.hear a i).pending plan a t ≤ 1 := by
  unfold pending at hv ⊢
  rw [h, List.length_cons] at hv
  have hdue : timers plan a ({ v with inbox := is }.hear a i) = v.timers plan a := rfl
  have hready := Bool.toNat_le (({ v with inbox := is }.hear a i).isReady t)
  rw [hdue]
  show v.cancels.length + is.length + _ + _ ≤ 1
  omega

omit [Level R] in
theorem timers_fire {t i j : Nat} {ts : List (Nat × Nat)} (h : v.timers plan a = (t, i) :: ts) :
    (v.fire plan a j).timers plan a = ts := by
  show (v.stage.rig.timers.eraseP _).filterMap (Timer.step? a plan.vibration) = ts
  unfold timers at h
  generalize v.stage.rig.timers = us at h ⊢
  induction us with
  | nil => cases h
  | cons u us ih =>
    cases hu : u.step? a plan.vibration with
    | none =>
      rw [List.filterMap_cons_none hu] at h
      rw [List.eraseP_cons_of_neg (by rw [hu]; exact Bool.false_ne_true),
        List.filterMap_cons_none hu]
      exact ih h
    | some x =>
      rw [List.filterMap_cons_some hu] at h
      rw [List.eraseP_cons_of_pos (by rw [hu]; rfl)]
      exact (List.cons.inj h).2

omit [Level R] in
/-- If a completion was all that was pending, only its report is pending after it. -/
theorem pending_fire {t i u : Nat} {ts : List (Nat × Nat)} (h : v.timers plan a = (t, i) :: ts)
    (due : t ≤ u) (hv : v.pending plan a u ≤ 1) : (v.fire plan a i).pending plan a u ≤ 1 := by
  unfold pending at hv ⊢
  rw [h, List.filter_cons_of_pos (by simpa using due), List.length_cons] at hv
  rw [timers_fire h]
  have hready : (v.fire plan a i).isReady u = v.isReady u := rfl
  rw [hready]
  show v.cancels.length + (v.inbox ++ [i]).length + _ + _ ≤ 1
  rw [List.length_append, List.length_singleton]
  omega

omit [Level R] in
theorem cue_of_none (h : v.stage.rig.device? a = none) (x : Quirk R) :
    v.cue plan a (.motor x) = v := by
  unfold cue
  rw [h]

omit [Level R] in
theorem cue_of_some {d : Device R} (h : v.stage.rig.device? a = some d) (x : Quirk R) :
    v.cue plan a (.motor x) = { v with
      stage := { v.stage with
        rig := v.stage.rig.file a { d with motor := (d.motor.stir x).2 } }
      inbox := v.inbox ++
        ((d.motor.stir x).1.bind (Report.step? a plan.vibration)).toList } := by
  unfold cue
  rw [h]
  rfl

omit [Level R] in
/-- Something from outside is all that is pending, if nothing was. -/
theorem pending_cue {t : Nat} (hv : v.pending plan a t = 0) (c : Cue R) :
    (v.cue plan a c).pending plan a t ≤ 1 := by
  unfold pending at hv
  cases c with
  | cancel mode =>
    show (v.cancels ++ [mode]).length + v.inbox.length + _ + (v.isReady t).toNat ≤ 1
    rw [List.length_append, List.length_singleton]
    change _ + _ + ((v.timers plan a).filter (·.1 ≤ t)).length + _ ≤ 1
    omega
  | motor x =>
    cases hd : v.stage.rig.device? a with
    | none =>
      rw [cue_of_none hd]
      unfold pending
      omega
    | some d =>
      rw [cue_of_some hd]
      have hone : ((d.motor.stir x).1.bind (Report.step? a plan.vibration)).toList.length ≤ 1 :=
        Option.length_toList_le
      show v.cancels.length + (v.inbox ++ _).length + ((v.timers plan a).filter (·.1 ≤ t)).length +
        (v.isReady t).toNat ≤ 1
      rw [List.length_append]
      omega

/-- The voice does something now. If it is strict, nothing else is pending. -/
def Does (plan : Plan R) (a : ActuatorId) (strict : Prop) (v w : Voice R) : Prop :=
  (strict → v.pending plan a v.now ≤ 1) ∧ Own plan a v w

theorem Does.now {strict : Prop} (D : Does plan a strict v w) : w.now = v.now := D.2.now

theorem now_of_does {strict : Prop} (D : Relation.ReflTransGen (Does plan a strict) v w) :
    w.now = v.now := by
  induction D with
  | refl => rfl
  | tail _ D ih => exact D.now.trans ih

/-- A path leads to the voice as it is now, with nothing missed since. What a strict voice did last,
and what happened to it last, was no later than `last`. -/
def Reaches (plan : Plan R) (a : ActuatorId) (strict : Prop) (last : Nat) (v : Voice R)
    (cs : List (Nat × Cue R)) (w : Voice R) : Prop :=
  ∃ x, Path plan a strict v cs x ∧ x.now ≤ w.now ∧ (strict → x.now ≤ last) ∧
    (∀ t, x.now ≤ t → t < w.now → x.pending plan a t = 0) ∧ w = x.moveTo w.now

/-- A voice without a step only takes note of its mail. -/
theorem drain {strict : Prop} (h : v.step = none) (apart : strict → v.pending plan a v.now ≤ 1) :
    Relation.ReflTransGen (Does plan a strict) v { v with inbox := [], cancels := [] } := by
  obtain ⟨stage, step, inbox, cancels⟩ := v
  obtain rfl : _ = none := h
  induction cancels with
  | nil =>
    induction inbox with
    | nil => exact .refl
    | cons i is ih =>
      exact .head ⟨apart, .hear rfl⟩ (ih fun hs => pending_hear rfl (apart hs))
  | cons mode modes ih =>
    have hobey : Voice.obey ⟨stage, none, inbox, modes⟩ mode = ⟨stage, none, inbox, modes⟩ :=
      obey_of_none rfl mode
    have hown : Own plan a ⟨stage, none, inbox, mode :: modes⟩
        (Voice.obey ⟨stage, none, inbox, modes⟩ mode) := .obey rfl
    rw [hobey] at hown
    refine .head ⟨apart, hown⟩ (ih fun hs => ?_)
    have hpending := pending_obey (v := ⟨stage, none, inbox, mode :: modes⟩) rfl (apart hs)
    rwa [hobey] at hpending

namespace Reaches

theorem refl (h : v.now ≤ last) : Reaches plan a strict last v [] v :=
  ⟨v, .done, Nat.le_refl _, fun _ => h, fun _ hle hlt => absurd hlt (Nat.not_lt.mpr hle),
    v.moveTo_self.symm⟩

theorem later (H : Reaches plan a strict last v cs w) {t : Nat} (h : last ≤ t) :
    Reaches plan a strict t v cs w := by
  obtain ⟨x, P, hle, hlast, calm, hw⟩ := H
  exact ⟨x, P, hle, fun hs => Nat.le_trans (hlast hs) h, calm, hw⟩

theorem does (H : Reaches plan a strict last v cs w) (D : Does plan a strict w x) :
    Reaches plan a strict w.now v cs x := by
  obtain ⟨y, P, hle, -, calm, hw⟩ := H
  obtain ⟨apart, own⟩ := D
  have hpending : w.pending plan a w.now = y.pending plan a w.now := by
    rw [hw]
    rfl
  have Q : Path plan a strict y [] x := by
    refine .own hle calm (fun hs => ?_) ?_ .done
    · rw [← hpending]
      exact apart hs
    · rw [← hw]
      exact own
  refine ⟨x, ?_, Nat.le_refl _, fun _ => Nat.le_of_eq own.now,
    fun _ hle hlt => absurd hlt (Nat.not_lt.mpr hle), x.moveTo_self.symm⟩
  have hpath := P.trans Q
  rwa [List.append_nil] at hpath

/-- Several things are done at one instant. -/
theorem doesAll (H : Reaches plan a strict last v cs w)
    (D : Relation.ReflTransGen (Does plan a strict) w x) {t : Nat} (hlast : last ≤ t)
    (hnow : 0 < w.pending plan a w.now → w.now ≤ t) : Reaches plan a strict t v cs x := by
  induction D using Relation.ReflTransGen.head_induction_on generalizing last with
  | refl => exact H.later hlast
  | head D _ ih =>
    have hle := hnow D.2.pending_pos
    refine ih (H.does D) hle fun _ => ?_
    rw [D.now]
    exact hle

theorem cue (H : Reaches plan a strict last v cs w) (c : Cue R)
    (apart : strict → last < w.now ∧ w.pending plan a w.now = 0) :
    Reaches plan a strict w.now v (cs ++ [(w.now, c)]) (w.cue plan a c) := by
  obtain ⟨x, P, hle, hlast, calm, hw⟩ := H
  have hpending : w.pending plan a w.now = x.pending plan a w.now := by
    rw [hw]
    rfl
  have Q : Path plan a strict x [(w.now, c)] (w.cue plan a c) := by
    refine .cue hle calm (fun hs => ?_) ?_
    · rw [← hpending]
      exact ⟨Nat.lt_of_le_of_lt (hlast hs) (apart hs).1, (apart hs).2⟩
    · rw [← hw]
      exact .done
  exact ⟨_, P.trans Q, Nat.le_refl _, fun _ => Nat.le_of_eq (now_cue c),
    fun _ hle hlt => absurd hlt (Nat.not_lt.mpr hle), (moveTo_self _).symm⟩

theorem tick (H : Reaches plan a strict last v cs w) (calm : w.pending plan a w.now = 0) :
    Reaches plan a strict last v cs (w.moveTo (w.now + 1)) := by
  obtain ⟨x, P, hle, hlast, hcalm, hw⟩ := H
  have hnow := now_moveTo (Nat.le_succ w.now)
  have hpending : w.pending plan a w.now = x.pending plan a w.now := by
    rw [hw]
    rfl
  refine ⟨x, P, ?_, hlast, fun t hxt ht => ?_, ?_⟩
  · rw [hnow]
    exact Nat.le_succ_of_le hle
  · rw [hnow] at ht
    rcases Nat.lt_succ_iff_lt_or_eq.mp ht with ht | rfl
    · exact hcalm t hxt ht
    · rw [← hpending]
      exact calm
  · rw [hnow, ← x.moveTo_moveTo (Nat.le_succ w.now), ← hw]

end Reaches

/-- Two voices that took the same cues at the same instants are the same where nothing is
pending. -/
theorem Reaches.unique {last' : Nat} {y : Voice R} (H : Reaches plan a True last v cs x)
    (K : Reaches plan a False last' v cs y) (now : y.now = x.now)
    (calm : x.pending plan a x.now = 0) (calm' : y.pending plan a y.now = 0) : x = y := by
  obtain ⟨x', P, hx, -, -, hxx⟩ := H
  obtain ⟨y', Q, hy, -, -, hyy⟩ := K
  have hpending : ∀ t, x'.pending plan a t = x.pending plan a t := by
    intro t
    rw [hxx]
    rfl
  have hpending' : ∀ t, y'.pending plan a t = y.pending plan a t := by
    intro t
    rw [hyy]
    rfl
  rw [now] at hy hyy calm'
  obtain rfl := P.unique Q hx hy ((hpending _).trans calm) ((hpending' _).trans calm')
  exact hxx.trans hyy.symm

end

end
end Voice
end Haptics
