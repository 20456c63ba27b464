import Haptics.Proofs.Moves
import Haptics.Proofs.Requests
import Mathlib.Data.List.Induction

/-!
# Intake

Whatever happens to a service, a request is taken or refused as a whole (`Service.intake`). The
vibrations that are taken are numbered one after the other, and each of them is cancelled gracefully
by the one after it unless it ended before.
-/

namespace Haptics

variable {R : Type}

/-! ## Incidents -/

/-- Something that happens to a service. -/
inductive Incident (R : Type)
  | request (v : Vibration R) (u : Usage) (caller : Caller)
  /-- The worker does the next thing there is to do. -/
  | work
  | cancel (id : Nat) (mode : CancelMode)
  /-- Time passes, or something else happens to the hardware. -/
  | world (f : Rig R → Rig R)
  | settings (f : Scaling R → Scaling R)
  | telemetry (broken : Bool)

namespace Performance

/-- A performance to which a cancel goes if it plays a certain vibration. -/
def sendTo (p : Performance R) (id : Nat) (mode : CancelMode) : Performance R :=
  if p.run.plan.vibration = id then (p.send mode).2 else p

section
variable (p : Performance R) (id : Nat) (mode : CancelMode)

theorem sendTo_cases : p.sendTo id mode = p ∨
    p.run.plan.vibration = id ∧ p.isOver = false ∧
      p.sendTo id mode = { p with cancels := p.cancels ++ [mode] } := by
  unfold sendTo send
  split
  · rename_i hid
    split
    · rename_i hlistens
      exact .inr ⟨hid, by simpa using hlistens.2, rfl⟩
    · exact .inl rfl
  · exact .inl rfl

@[simp] theorem sendTo_run : (p.sendTo id mode).run = p.run := by
  obtain h | ⟨-, -, h⟩ := p.sendTo_cases id mode <;> rw [h]

@[simp] theorem sendTo_isOver : (p.sendTo id mode).isOver = p.isOver := by
  obtain h | ⟨-, -, h⟩ := p.sendTo_cases id mode <;> rw [h]

@[simp] theorem sendTo_callerPresent : (p.sendTo id mode).callerPresent = p.callerPresent := by
  obtain h | ⟨-, -, h⟩ := p.sendTo_cases id mode <;> rw [h]

/-- A cancel reaches a performance that goes on. -/
theorem sendTo_cancels (hid : p.run.plan.vibration = id) (hpresent : p.callerPresent = true)
    (hgoes : p.isOver = false) : (p.sendTo id mode).cancels = p.cancels ++ [mode] := by
  simp [sendTo, send, hid, hpresent, hgoes]

end

theorem takeReports_callerPresent (p : Performance R) :
    p.takeReports.2.callerPresent = p.callerPresent := by
  unfold takeReports
  split <;> rfl

variable [Level R]

theorem step_callerPresent {p p' : Performance R} (h : p.step? = some p') :
    p'.callerPresent = p.callerPresent := by
  have hmail : p.handleMail.callerPresent = p.callerPresent := takeReports_callerPresent _
  unfold step? at h
  split at h
  · cases h
  · dsimp only at h
    split at h
    · cases h
      exact hmail
    · split at h
      · cases h
        exact hmail
      · split at h
        · cases h
          exact hmail
        · split at h
          · cases h
            exact hmail
          · cases h

theorem step_plan {p p' : Performance R} (h : p.step? = some p') : p'.run.plan = p.run.plan := by
  obtain ⟨ms, hms⟩ := step_moves h
  rw [hms, Run.plan_moves]

end Performance

namespace Service

/-- A service before the first request. -/
def opened (rig : Rig R) (scaling : Scaling R) : Service R := { rig, scaling }

/-- The vibrations that the worker has before it, the one that plays first. -/
def jobs (s : Service R) : List (Performance R) := s.running.toList ++ s.waiting

/-- The cancels that wait for a vibration, while the worker has it before it. -/
def mail? (s : Service R) (id : Nat) : Option (List CancelMode) :=
  (s.jobs.find? (·.run.plan.vibration == id)).map (·.cancels)

/-- The current vibration, unless it is known how it ended. -/
def superseded? (s : Service R) : Option Nat := s.current.filter fun id => (s.status? id).isNone

/-- A vibration has ended: it is known how, or its performance is over. -/
def Ended (s : Service R) (id : Nat) : Prop :=
  (s.status? id).isSome ∨ ∃ p ∈ s.running, p.run.plan.vibration = id ∧ p.isOver = true

variable [PerceptualLevel R]

def incident (s : Service R) : Incident R → Service R
  | .request v u caller => (s.request v u caller).2
  | .work => s.step?.getD s
  | .cancel id mode => s.cancel id mode
  | .world f => { s with rig := f s.rig }
  | .settings f => { s with scaling := f s.scaling }
  | .telemetry broken => { s with telemetryBroken := broken }

def after (s : Service R) (is : List (Incident R)) : Service R := is.foldl incident s

/-- In the course of some incidents a cancel came to a vibration. -/
def Sent (s : Service R) (is : List (Incident R)) (id : Nat) (mode : CancelMode) : Prop :=
  ∃ pre i post ms, is = pre ++ i :: post ∧ (s.after pre).mail? id = some ms ∧
    (s.after (pre ++ [i])).mail? id = some (ms ++ [mode])

theorem incident_request (s : Service R) (v : Vibration R) (u : Usage) (caller : Caller) :
    s.incident (.request v u caller) = (s.request v u caller).2 := rfl

@[simp] theorem after_nil (s : Service R) : s.after [] = s := rfl

@[simp] theorem after_concat (s : Service R) (is : List (Incident R)) (i : Incident R) :
    s.after (is ++ [i]) = (s.after is).incident i := by
  simp [after]

theorem Sent.concat {s : Service R} {is : List (Incident R)} {id : Nat} {mode : CancelMode}
    (h : s.Sent is id mode) (i : Incident R) : s.Sent (is ++ [i]) id mode := by
  obtain ⟨pre, j, post, ms, rfl, hbefore, hafter⟩ := h
  exact ⟨pre, j, post ++ [i], ms, by simp, hbefore, hafter⟩

/-! ## Cancels -/

section
variable (s : Service R) (id : Nat) (mode : CancelMode)

omit [PerceptualLevel R] in
theorem jobs_cancel : (s.cancel id mode).jobs = s.jobs.map (·.sendTo id mode) := by
  unfold jobs cancel
  rw [List.map_append]
  cases s.running <;> rfl

omit [PerceptualLevel R] in
theorem jobs_enqueue (caller : Caller) (v : Vibration R) : (s.enqueue caller v).jobs =
    s.jobs ++ [.fresh ⟨s.nextId, caller, s.tuning⟩ v s.rig] := by
  simp [jobs, enqueue]

omit [PerceptualLevel R] in
theorem supersede_cases :
    (s.superseded? = none ∧ s.supersede id = { s with current := some id }) ∨
    ∃ previous, s.superseded? = some previous ∧
      s.supersede id = { s.cancel previous .graceful with current := some id } := by
  unfold superseded? supersede
  cases hcurrent : s.current with
  | none => exact .inl ⟨rfl, rfl⟩
  | some previous =>
    dsimp only
    split
    · rename_i hended
      exact .inl ⟨by simpa [Option.filter, ← Option.isSome_iff_ne_none] using hended, rfl⟩
    · rename_i hgoes
      exact .inr ⟨previous, by simpa [Option.filter] using hgoes, rfl⟩

omit [PerceptualLevel R] in
theorem supersede_frame : (s.supersede id).accepted = s.accepted ∧
    (s.supersede id).current = some id ∧ (s.supersede id).rig = s.rig ∧
    (s.supersede id).nextId = s.nextId ∧ (s.supersede id).workerAlive = s.workerAlive := by
  obtain ⟨-, h⟩ | ⟨previous, -, h⟩ := s.supersede_cases id <;> rw [h] <;>
    exact ⟨rfl, rfl, rfl, rfl, rfl⟩

end

/-! ## The worker -/

/-- What the worker does next. -/
inductive Worked (s : Service R) : Service R → Prop
  /-- A performance that is over is put on record. -/
  | ended {p : Performance R} (running : s.running = some p) (stopped : p.isOver = true) :
    Worked s { s with
      running := none
      endings := s.endings.insert p.run.plan.vibration p.status }
  /-- The running performance goes on. -/
  | played {p q : Performance R} {rig : Rig R} {telemetry : List Telemetry}
      (running : s.running = some p) (plan : q.run.plan = p.run.plan)
      (present : q.callerPresent = p.callerPresent) (going : p.isOver = false) :
    Worked s { s with rig, running := some q, telemetry }
  /-- The worker dies of a step: it could not tell of a start, or a total did not fit a word. -/
  | killed {p : Performance R} {rig : Rig R} (running : s.running = some p)
      (going : p.isOver = false) :
    Worked s { s with rig, running := none, waiting := [], workerAlive := false }
  /-- The next vibration begins. -/
  | began {p q : Performance R} {ps : List (Performance R)} {rig : Rig R}
      (running : s.running = none) (waiting : s.waiting = p :: ps)
      (plan : q.run.plan = p.run.plan) (present : q.callerPresent = p.callerPresent) :
    Worked s { s with rig, running := some q, waiting := ps }

omit [PerceptualLevel R] in
theorem step_worked [Level R] {s s' : Service R} (h : s.step? = some s') : s.Worked s' := by
  unfold step? at h
  split at h
  · rename_i p hrunning
    split at h
    · rename_i hover
      cases h
      exact .ended hrunning hover
    · rename_i hgoes
      have hgoes : p.isOver = false := Bool.eq_false_iff.mpr hgoes
      dsimp only at h
      split at h
      · cases h
        exact .killed hrunning hgoes
      · obtain ⟨q, hstep, rfl⟩ := Option.map_eq_some_iff.mp h
        have hplan : q.run.plan = p.run.plan := (Performance.step_plan hstep).trans rfl
        have hpresent : q.callerPresent = p.callerPresent :=
          (Performance.step_callerPresent hstep).trans rfl
        unfold afterStep
        dsimp only
        split
        · exact .killed hrunning hgoes
        · exact .played hrunning hplan hpresent hgoes
  · rename_i p ps hrunning hwaiting
    cases h
    exact .began hrunning hwaiting rfl rfl
  · cases h

/-! ## The books -/

/-- The books of a service: the vibrations are numbered as they are accepted, the worker has those
before it that it has not brought to an end, and nobody but a running vibration is over. -/
structure Ledger (s : Service R) : Prop where
  accepted : s.accepted = List.range' 1 s.accepted.length
  current : s.current = s.accepted.getLast?
  next : s.workerAlive = true → s.nextId = s.accepted.length + 1
  past : s.workerAlive = true → ∃ ids,
    s.accepted = ids ++ s.jobs.map (·.run.plan.vibration) ∧ ∀ id ∈ ids, (s.status? id).isSome
  fresh : ∀ p ∈ s.waiting, p.isOver = false
  present : ∀ p ∈ s.jobs, p.callerPresent = true

omit [PerceptualLevel R] in
theorem ledger_opened (rig : Rig R) (scaling : Scaling R) : (opened rig scaling).Ledger where
  accepted := rfl
  current := rfl
  next _ := rfl
  past _ := ⟨[], rfl, fun _ h => (List.not_mem_nil h).elim⟩
  fresh _ h := (List.not_mem_nil h).elim
  present _ h := (List.not_mem_nil h).elim

namespace Ledger

variable {s : Service R}

omit [PerceptualLevel R]

theorem mem_of_current (H : s.Ledger) {id : Nat} (h : s.current = some id) : id ∈ s.accepted :=
  List.mem_of_getLast? (H.current.symm.trans h)

/-- A vibration that is accepted has a number below the next. -/
theorem lt_next (H : s.Ledger) (alive : s.workerAlive = true) {id : Nat} (h : id ∈ s.accepted) :
    id < s.nextId := by
  rw [H.accepted, List.mem_range'_1] at h
  rw [H.next alive]
  omega

/-- A vibration of which it is not known how it ended lies before the worker. -/
theorem exists_job (H : s.Ledger) (alive : s.workerAlive = true) {id : Nat} (h : id ∈ s.accepted)
    (unknown : s.status? id = none) : ∃ p ∈ s.jobs, p.run.plan.vibration = id := by
  obtain ⟨ids, haccepted, hknown⟩ := H.past alive
  rw [haccepted] at h
  rcases List.mem_append.mp h with h | h
  · have hsome := hknown id h
    rw [unknown] at hsome
    cases hsome
  · exact List.mem_map.mp h

theorem of_cancel (H : s.Ledger) (id : Nat) (mode : CancelMode) : (s.cancel id mode).Ledger where
  accepted := H.accepted
  current := H.current
  next := H.next
  past alive := by
    obtain ⟨ids, haccepted, hknown⟩ := H.past alive
    refine ⟨ids, ?_, hknown⟩
    rw [jobs_cancel, List.map_map]
    simp only [Function.comp_def, Performance.sendTo_run]
    exact haccepted
  fresh := by
    refine List.forall_mem_map.mpr fun p hp => ?_
    exact (p.sendTo_isOver id mode).trans (H.fresh p hp)
  present := by
    rw [jobs_cancel]
    refine List.forall_mem_map.mpr fun p hp => ?_
    exact (p.sendTo_callerPresent id mode).trans (H.present p hp)

/-- A ledger does not depend on what it does not speak of. -/
theorem congr (H : s.Ledger) {s' : Service R} (accepted : s'.accepted = s.accepted)
    (current : s'.current = s.current) (next : s'.workerAlive = true → s'.nextId = s.nextId)
    (alive : s'.workerAlive = true → s.workerAlive = true) (jobs : s'.jobs = s.jobs)
    (waiting : s'.waiting = s.waiting) (endings : s'.endings = s.endings) : s'.Ledger where
  accepted := by rw [accepted, ← H.accepted]
  current := by rw [current, accepted, ← H.current]
  next h := by rw [next h, accepted, H.next (alive h)]
  past h := by
    obtain ⟨ids, haccepted, hknown⟩ := H.past (alive h)
    exact ⟨ids, by rw [jobs, accepted, ← haccepted], by simpa only [status?, endings] using hknown⟩
  fresh := by rw [waiting]; exact H.fresh
  present := by rw [jobs]; exact H.present

/-- The books stay right while the first vibration before the worker goes on. -/
theorem of_first (H : s.Ledger) {p q : Performance R} {ps : List (Performance R)}
    (jobs : s.jobs = p :: ps) (plan : q.run.plan = p.run.plan)
    (present : q.callerPresent = p.callerPresent) (fresh : ∀ x ∈ ps, x.isOver = false)
    {rig : Rig R} {telemetry : List Telemetry} :
    { s with rig, running := some q, waiting := ps, telemetry }.Ledger where
  accepted := H.accepted
  current := H.current
  next := H.next
  past alive := by
    obtain ⟨ids, haccepted, hknown⟩ := H.past alive
    refine ⟨ids, haccepted.trans ?_, hknown⟩
    rw [jobs, List.map_cons, ← plan]
    rfl
  fresh := fresh
  present := by
    have hpresent := H.present
    rw [jobs] at hpresent
    obtain ⟨hp, hps⟩ := List.forall_mem_cons.mp hpresent
    exact List.forall_mem_cons.mpr ⟨present.trans hp, hps⟩

theorem of_worked (H : s.Ledger) {s' : Service R} (h : s.Worked s') : s'.Ledger := by
  cases h with
  | @ended p hrunning hover =>
    have hjobs : s.jobs = p :: s.waiting := by simp [jobs, hrunning]
    have hpresent := H.present
    rw [hjobs] at hpresent
    refine ⟨H.accepted, H.current, H.next, fun alive => ?_, H.fresh,
      fun q hq => hpresent q (List.mem_cons_of_mem p hq)⟩
    obtain ⟨ids, haccepted, hknown⟩ := H.past alive
    rw [hjobs, List.map_cons] at haccepted
    refine ⟨ids ++ [p.run.plan.vibration], ?_, fun id hid => ?_⟩
    · rw [List.append_assoc]
      exact haccepted
    · unfold status?
      rw [Table.find?_insert]
      split
      · rfl
      · rename_i hne
        refine hknown id ((List.mem_append.mp hid).resolve_right fun h => hne ?_)
        exact List.mem_singleton.mp h
  | played hrunning hplan hpresent =>
    exact H.of_first (by simp [jobs, hrunning]) hplan hpresent H.fresh
  | killed =>
    exact ⟨H.accepted, H.current, fun alive => absurd alive Bool.false_ne_true,
      fun alive => absurd alive Bool.false_ne_true, fun _ h => (List.not_mem_nil h).elim,
      fun _ h => (List.not_mem_nil h).elim⟩
  | began hrunning hwaiting hplan hpresent =>
    have hfresh := H.fresh
    rw [hwaiting] at hfresh
    exact H.of_first (by simp [jobs, hrunning, hwaiting]) hplan hpresent
      (List.forall_mem_cons.mp hfresh).2

/-- One more vibration is accepted. -/
theorem of_enqueue (H : s.Ledger) (alive : s.workerAlive = true) (caller : Caller)
    (v : Vibration R) : { s.enqueue caller v with current := some s.nextId }.Ledger := by
  have hjobs := s.jobs_enqueue caller v
  refine ⟨?_, ?_, fun _ => ?_, fun _ => ?_, fun p hp => ?_, fun p hp => ?_⟩
  · have hlength : (s.accepted ++ [s.nextId]).length = s.accepted.length + 1 := by simp
    refine Eq.trans ?_ (congrArg (List.range' 1) hlength.symm)
    rw [List.range'_concat, ← H.accepted, Nat.one_mul, Nat.add_comm 1, ← H.next alive]
    rfl
  · exact (List.getLast?_concat ..).symm
  · simp [enqueue, H.next alive]
  · obtain ⟨ids, haccepted, hknown⟩ := H.past alive
    refine ⟨ids, ?_, hknown⟩
    refine Eq.trans ?_ (congrArg (fun ps => ids ++ ps.map (·.run.plan.vibration)) hjobs.symm)
    rw [List.map_append, ← List.append_assoc, ← haccepted]
    rfl
  · rcases List.mem_append.mp hp with hp | hp
    · exact H.fresh p hp
    · rw [List.mem_singleton.mp hp]
      rfl
  · rcases List.mem_append.mp (hjobs ▸ hp) with hp | hp
    · exact H.present p hp
    · rw [List.mem_singleton.mp hp]
      rfl

theorem of_requested [PerceptualLevel R] (H : s.Ledger) {v : Vibration R} {u : Usage}
    {caller : Caller} {r : Except RequestError Nat × Service R} (h : s.Requested v u caller r) :
    r.2.Ledger := by
  cases h with
  | refused => exact H
  | stopped _ dead =>
    have hdead : ∀ {q : Prop}, s.workerAlive = true → q := fun alive =>
      absurd (alive.symm.trans dead) Bool.true_eq_false.mp
    exact H.congr rfl rfl hdead hdead rfl rfl rfl
  | @taken es _ alive =>
    have hnew := H.of_enqueue alive caller (.stereo es)
    obtain ⟨-, h⟩ | ⟨previous, -, h⟩ := (s.enqueue caller (.stereo es)).supersede_cases s.nextId
    · exact h ▸ hnew
    · exact h ▸ hnew.of_cancel previous .graceful

theorem of_incident [PerceptualLevel R] (H : s.Ledger) (i : Incident R) :
    (s.incident i).Ledger := by
  cases i with
  | request v u caller => exact H.of_requested (s.request_requested v u caller)
  | work =>
    unfold incident
    cases hstep : s.step? with
    | none => exact H
    | some s' => exact H.of_worked (step_worked hstep)
  | cancel id mode => exact H.of_cancel id mode
  | world f => exact H.congr rfl rfl (fun _ => rfl) (fun h => h) rfl rfl rfl
  | settings f => exact H.congr rfl rfl (fun _ => rfl) (fun h => h) rfl rfl rfl
  | telemetry broken => exact H.congr rfl rfl (fun _ => rfl) (fun h => h) rfl rfl rfl

end Ledger

theorem ledger_after (rig : Rig R) (scaling : Scaling R) (is : List (Incident R)) :
    ((opened rig scaling).after is).Ledger := by
  induction is using List.reverseRecOn with
  | nil => exact ledger_opened rig scaling
  | append_singleton is i ih =>
    rw [after_concat]
    exact ih.of_incident i

/-! ## Superseded vibrations -/

section
variable {s : Service R} {id : Nat}

omit [PerceptualLevel R] in
theorem Ended.of_worked (h : s.Ended id) {s' : Service R} (hw : s.Worked s') : s'.Ended id := by
  obtain hknown | ⟨q, hq, hid, hover⟩ := h
  · left
    cases hw with
    | ended =>
      unfold status?
      rw [Table.find?_insert]
      split
      · rfl
      · exact hknown
    | _ => exact hknown
  · cases hw with
    | ended hrunning =>
      rw [hrunning] at hq
      cases hq
      left
      unfold status?
      rw [Table.find?_insert, if_pos hid.symm]
      rfl
    | played hrunning _ _ hgoes | killed hrunning hgoes =>
      rw [hrunning] at hq
      cases hq
      cases hgoes.symm.trans hover
    | began hrunning =>
      rw [hrunning] at hq
      cases hq

omit [PerceptualLevel R] in
theorem Ended.of_cancel (h : s.Ended id) (k : Nat) (mode : CancelMode) :
    (s.cancel k mode).Ended id := by
  refine h.imp_right fun ⟨p, hp, hid, hover⟩ => ⟨p.sendTo k mode, ?_, ?_, ?_⟩
  · exact Option.mem_map_of_mem _ hp
  · rw [p.sendTo_run, hid]
  · rw [p.sendTo_isOver, hover]

theorem Ended.of_requested (h : s.Ended id) {v : Vibration R} {u : Usage} {caller : Caller}
    {r : Except RequestError Nat × Service R} (hr : s.Requested v u caller r) : r.2.Ended id := by
  cases hr with
  | refused => exact h
  | stopped => exact h
  | @taken es =>
    have hnew : (s.enqueue caller (.stereo es)).Ended id := h
    obtain ⟨-, h⟩ | ⟨previous, -, h⟩ := (s.enqueue caller (.stereo es)).supersede_cases s.nextId
    · exact h ▸ hnew
    · exact h ▸ hnew.of_cancel previous .graceful

/-- What has ended does not begin again. -/
theorem Ended.of_incident (h : s.Ended id) (i : Incident R) : (s.incident i).Ended id := by
  cases i with
  | request v u caller => exact h.of_requested (s.request_requested v u caller)
  | work =>
    unfold incident
    cases hstep : s.step? with
    | none => exact h
    | some s' => exact h.of_worked (step_worked hstep)
  | cancel k mode => exact h.of_cancel k mode
  | world f => exact h
  | settings f => exact h
  | telemetry broken => exact h

omit [PerceptualLevel R] in
/-- A cancel comes to an accepted vibration unless it has ended. -/
theorem Ledger.mail_cancel (H : s.Ledger) (alive : s.workerAlive = true) (h : id ∈ s.accepted)
    (unknown : s.status? id = none) (mode : CancelMode) (caller : Caller) (v : Vibration R) :
    s.Ended id ∨ ∃ ms, s.mail? id = some ms ∧
      ((s.enqueue caller v).cancel id mode).mail? id = some (ms ++ [mode]) := by
  obtain ⟨p, hp, hpid⟩ := H.exists_job alive h unknown
  have hfound : (s.jobs.find? (·.run.plan.vibration == id)).isSome := by
    rw [List.find?_isSome]
    exact ⟨p, hp, beq_iff_eq.mpr hpid⟩
  obtain ⟨q, hq⟩ := Option.isSome_iff_exists.mp hfound
  have hqid : q.run.plan.vibration = id := by simpa using List.find?_some hq
  have hmem : q ∈ s.jobs := List.mem_of_find?_eq_some hq
  cases hover : q.isOver with
  | true =>
    refine .inl (.inr ⟨q, ?_, hqid, hover⟩)
    refine (List.mem_append.mp hmem).elim (fun h => Option.mem_toList.mp h) fun h => ?_
    cases (H.fresh q h).symm.trans hover
  | false =>
    refine .inr ⟨q.cancels, by rw [mail?, hq, Option.map_some], ?_⟩
    rw [mail?, jobs_cancel, jobs_enqueue, List.map_append, List.find?_append, List.find?_map]
    simp only [Function.comp_def, Performance.sendTo_run]
    rw [hq]
    exact congrArg some (q.sendTo_cancels id mode hqid (H.present q hmem) hover)

/-- What an incident leaves alone, unless a vibration is accepted. -/
theorem incident_cases (s : Service R) (i : Incident R) :
    ((s.incident i).accepted = s.accepted ∧ (s.incident i).current = s.current ∧
      ((s.incident i).workerAlive = true → s.workerAlive = true)) ∨
    ∃ caller v, s.workerAlive = true ∧
      s.incident i = (s.enqueue caller v).supersede s.nextId := by
  cases i with
  | request v u caller =>
    have h := s.request_requested v u caller
    rw [incident_request]
    generalize s.request v u caller = r at *
    cases h with
    | refused => exact .inl ⟨rfl, rfl, fun h => h⟩
    | stopped => exact .inl ⟨rfl, rfl, fun h => h⟩
    | taken _ alive => exact .inr ⟨caller, _, alive, rfl⟩
  | work =>
    left
    unfold incident
    cases hstep : s.step? with
    | none => exact ⟨rfl, rfl, fun h => h⟩
    | some s' =>
      cases step_worked hstep with
      | killed => exact ⟨rfl, rfl, nofun⟩
      | _ => exact ⟨rfl, rfl, fun h => h⟩
  | _ => exact .inl ⟨rfl, rfl, fun h => h⟩

omit [PerceptualLevel R] in
/-- The vibration that is current when another one is accepted has ended, or a graceful cancel comes
to it. -/
theorem Ledger.mail_supersede (H : s.Ledger) (alive : s.workerAlive = true)
    (hcurrent : s.current = some id) (caller : Caller) (v : Vibration R) :
    s.Ended id ∨ ∃ ms, s.mail? id = some ms ∧
      ((s.enqueue caller v).supersede s.nextId).mail? id = some (ms ++ [.graceful]) := by
  have hsame : (s.enqueue caller v).superseded? = s.superseded? := rfl
  obtain ⟨hnone, -⟩ | ⟨previous, hsome, h⟩ := (s.enqueue caller v).supersede_cases s.nextId
  · have hknown := Option.filter_eq_none_iff.mp (hsame.symm.trans hnone) id hcurrent
    exact .inl (.inl (by simpa [← Option.isSome_iff_ne_none] using hknown))
  · rw [hsame] at hsome
    obtain ⟨hprevious, hunknown⟩ := Option.filter_eq_some_iff.mp hsome
    obtain rfl : id = previous := Option.some.inj (hcurrent.symm.trans hprevious)
    rw [h]
    have hunknown : s.status? id = none := by simpa using hunknown
    exact H.mail_cancel alive (H.mem_of_current hcurrent) hunknown .graceful caller v

/-- An accepted vibration that is not the current one any more has ended or was sent a graceful
cancel. -/
theorem superseded_after (rig : Rig R) (scaling : Scaling R) (is : List (Incident R))
    (alive : ((opened rig scaling).after is).workerAlive = true)
    (hid : id ∈ ((opened rig scaling).after is).accepted)
    (hcurrent : ((opened rig scaling).after is).current ≠ some id) :
    ((opened rig scaling).after is).Ended id ∨ (opened rig scaling).Sent is id .graceful := by
  induction is using List.reverseRecOn with
  | nil => exact (List.not_mem_nil hid).elim
  | append_singleton is i ih =>
    have H := ledger_after rig scaling is
    have hlast (ms : List CancelMode)
        (hbefore : ((opened rig scaling).after is).mail? id = some ms)
        (hafter : (((opened rig scaling).after is).incident i).mail? id =
          some (ms ++ [.graceful])) : (opened rig scaling).Sent (is ++ [i]) id .graceful :=
      ⟨is, i, [], ms, rfl, hbefore, by rwa [after_concat]⟩
    rw [after_concat] at alive hid hcurrent ⊢
    have hold (h : ((opened rig scaling).after is).Ended id ∨
        (opened rig scaling).Sent is id .graceful) :=
      h.imp (fun h => h.of_incident i) (fun h => h.concat i)
    generalize (opened rig scaling).after is = s at *
    obtain ⟨haccepted, hsame, halive⟩ | ⟨caller, v, halive, hnext⟩ := s.incident_cases i
    · rw [haccepted] at hid
      rw [hsame] at hcurrent
      exact hold (ih (halive alive) hid hcurrent)
    · by_cases hlatest : s.current = some id
      · obtain hended | ⟨ms, hbefore, hafter⟩ := H.mail_supersede halive hlatest caller v
        · exact hold (.inl hended)
        · exact .inr (hlast ms hbefore (hnext ▸ hafter))
      · refine hold (ih halive ?_ hlatest)
        obtain ⟨haccepted, hlast, -⟩ := (s.enqueue caller v).supersede_frame s.nextId
        rw [hnext, hlast] at hcurrent
        rw [hnext, haccepted] at hid
        refine (List.mem_append.mp hid).resolve_right fun h => hcurrent ?_
        rw [List.mem_singleton.mp h]

omit [PerceptualLevel R] in
/-- The vibration that is accepted is not touched by the cancel of the one before it. -/
theorem Ledger.jobs_supersede (H : s.Ledger) (alive : s.workerAlive = true) (caller : Caller)
    (v : Vibration R) : ((s.enqueue caller v).supersede s.nextId).jobs =
      (s.supersede s.nextId).jobs ++ [.fresh ⟨s.nextId, caller, s.tuning⟩ v s.rig] := by
  obtain ⟨hnone, h⟩ | ⟨previous, hsome, h⟩ := (s.enqueue caller v).supersede_cases s.nextId <;>
    obtain ⟨hnone', h'⟩ | ⟨previous', hsome', h'⟩ := s.supersede_cases s.nextId <;> rw [h, h']
  · exact s.jobs_enqueue caller v
  · cases hnone.symm.trans hsome'
  · cases hsome.symm.trans hnone'
  · obtain rfl : previous = previous' := Option.some.inj (hsome.symm.trans hsome')
    have hlt := H.lt_next alive (H.mem_of_current (Option.filter_eq_some_iff.mp hsome).1)
    have hjobs := jobs_cancel (s.enqueue caller v) previous .graceful
    rw [jobs_enqueue, List.map_append, ← jobs_cancel] at hjobs
    exact hjobs.trans (congrArg _ (congrArg (fun p => [p]) (if_neg (Nat.ne_of_lt hlt).symm)))

end

/-- **Atomic intake.** Whatever happened to a service before, a request is refused as a whole or
taken as a whole. The first actuator in order that is unknown or cannot play its effect decides the
error, and a refused request leaves the service as it was; only where the worker is dead, a number
is used up. Accepted vibrations are numbered one after the other. An accepted request adds one
vibration for the worker, with one playable effect for each actuator in the order in which they were
named first, and every vibration that was accepted before has ended or was sent a graceful
cancel. -/
theorem intake (rig : Rig R) (scaling : Scaling R) (is : List (Incident R)) (v : Vibration R)
    (u : Usage) (caller : Caller) :
    let s := (opened rig scaling).after is
    let r := s.request v u caller
    r.1 = (match s.refusalOf? u v with
      | some e => .error e
      | none => if s.workerAlive then .ok (s.accepted.length + 1) else .error .workerStopped) ∧
    (∀ e, r.1 = .error e →
      r.2 = if e = .workerStopped then { s with nextId := s.nextId + 1 } else s) ∧
    s.accepted = List.range' 1 s.accepted.length ∧
    (∀ id, r.1 = .ok id → ∃ es, s.Prepared u (v.expand s.rig.group.ids) es ∧
      (∀ y ∈ es, ∃ d, s.rig.device? y.1 = some d ∧ y.2.playable d.control.profile = true) ∧
      r.2.jobs = (s.supersede id).jobs ++ [.fresh ⟨id, caller, s.tuning⟩ (.stereo es) s.rig] ∧
      r.2.rig = s.rig ∧ r.2.accepted = s.accepted ++ [id] ∧ r.2.current = some id ∧
      r.2.nextId = id + 1 ∧
      ∀ k ∈ s.accepted,
        r.2.Ended k ∨ (opened rig scaling).Sent (is ++ [.request v u caller]) k .graceful) := by
  intro s r
  have H : s.Ledger := ledger_after rig scaling is
  have hlater (k : Nat) (hk : k ∈ s.accepted) (alive : r.2.workerAlive = true)
      (hmem : k ∈ r.2.accepted) (hcurrent : r.2.current ≠ some k) :
      r.2.Ended k ∨ (opened rig scaling).Sent (is ++ [.request v u caller]) k .graceful := by
    have hafter : (opened rig scaling).after (is ++ [.request v u caller]) = r.2 :=
      after_concat ..
    have h := superseded_after rig scaling (is ++ [.request v u caller]) (by rwa [hafter])
      (by rwa [hafter]) (by rwa [hafter])
    rwa [hafter] at h
  have hrequested := s.request_requested v u caller
  change s.Requested v u caller r at hrequested
  clear_value r
  cases hrequested with
  | @refused e hrefusal =>
    rw [hrefusal]
    refine ⟨rfl, fun e' he => ?_, H.accepted, nofun⟩
    cases he
    rw [if_neg fun he => refusalOf?_ne (he ▸ hrefusal)]
  | stopped hrefusal hdead =>
    rw [hrefusal, hdead]
    refine ⟨rfl, fun e he => ?_, H.accepted, nofun⟩
    cases he
    rfl
  | @taken es hrefusal halive hprepared =>
    rw [hrefusal, halive]
    refine ⟨by rw [← H.next halive]; rfl, nofun, H.accepted, fun id hid => ?_⟩
    cases hid
    obtain ⟨haccepted, hcurrent, hrig, hnext, hworker⟩ :=
      (s.enqueue caller (.stereo es)).supersede_frame s.nextId
    refine ⟨es, hprepared, fun y hy => ?_, H.jobs_supersede halive caller _, hrig, haccepted,
      hcurrent, hnext, fun k hk => ?_⟩
    · obtain ⟨x, -, hx, hfitted⟩ := hprepared.source hy
      rw [← hx]
      exact playable_of_fitted? hfitted
    · refine hlater k hk (hworker.trans halive) ?_ ?_
      · exact haccepted ▸ List.mem_append_left _ hk
      · rw [hcurrent]
        exact fun h => Nat.ne_of_lt (H.lt_next halive hk) (Option.some.inj h).symm

/-- A buzz on actuator 0 that plays, a request for an actuator that there is not, and a cancel of a
vibration that there is not. -/
def busy : List (Incident Rat) :=
  [.request (.mono (.pattern (.oneShot 500))) .alarm ⟨1000, "com.example"⟩, .work, .work,
    .request (.stereo [(0, .pattern (.oneShot 20)), (7, .pattern (.oneShot 20))]) .touch
      ⟨1001, "com.other"⟩, .cancel 5 .immediate, .world (·.moveTo 100)]

/-- The service after that. -/
def busyService : Service Rat := (opened (.bench [0, 1]) { tuning := .standard }).after busy

theorem intake_busy :
    let stray : Vibration Rat := .stereo [(1, .pattern (.oneShot 20)), (7, .pattern (.oneShot 20))]
    let ring : Vibration Rat := .mono (.pattern (.oneShot 300))
    busyService.accepted = [1] ∧
      (busyService.request stray .touch default).1 = .error (.unknownActuator 7) ∧
      (busyService.request stray .touch default).2 = busyService ∧
      (busyService.request ring .ringtone default).1 = .ok 2 ∧
      ∃ es, busyService.Prepared .ringtone
          [(0, .pattern (.oneShot 300)), (1, .pattern (.oneShot 300))] es ∧
        (busyService.request ring .ringtone default).2.jobs = (busyService.supersede 2).jobs ++
          [.fresh ⟨2, default, busyService.tuning⟩ (.stereo es) busyService.rig] ∧
        ((busyService.request ring .ringtone default).2.Ended 1 ∨
          (opened (.bench [0, 1]) { tuning := .standard }).Sent
            (busy ++ [.request ring .ringtone default]) 1 .graceful) := by
  intro stray ring
  have hrefused : (busyService.request stray .touch default).1 = .error (.unknownActuator 7) := by
    decide +kernel
  have htaken : (busyService.request ring .ringtone default).1 = .ok 2 := by decide +kernel
  have haccepted : busyService.accepted = [1] := by decide +kernel
  have hids : busyService.rig.group.ids = [0, 1] := by decide +kernel
  have hstray := (intake (.bench [0, 1]) { tuning := .standard } busy stray .touch default).2.1
    _ hrefused
  rw [if_neg nofun] at hstray
  obtain ⟨es, hprepared, -, hjobs, -, -, -, -, hearlier⟩ :=
    (intake (.bench [0, 1]) { tuning := .standard } busy ring .ringtone default).2.2.2 2 htaken
  have hexpand : ring.expand busyService.rig.group.ids =
      [(0, .pattern (.oneShot 300)), (1, .pattern (.oneShot 300))] := by
    rw [hids]
    rfl
  have hfirst : 1 ∈ busyService.accepted := by
    rw [haccepted]
    exact List.mem_singleton_self 1
  exact ⟨haccepted, hrefused, hstray, htaken, es, hexpand ▸ hprepared, hjobs, hearlier 1 hfirst⟩

end Service
end Haptics
