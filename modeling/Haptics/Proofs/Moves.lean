import Haptics.Conductor.Performance
import Haptics.Level.Rational
import Haptics.Proofs.Opening

/-!
# Runs as sequences of moves

Four things happen to a run, in any order: a step is played, a report arrives, somebody cancels, and
the world around it goes on. Every performance is a sequence of such moves
(`Performance.step_moves`), so what holds after every sequence of moves holds of every performance.
The lemmas here say what one move does to the queue and to the stage.
-/

namespace Haptics

variable {R : Type}

/-- Something that happens in a run or to it. -/
inductive Move (R : Type)
  /-- The step whose time has come is played, if there is one. -/
  | play
  | hear (e : Event)
  | cancel (mode : CancelMode)
  /-- Time passes, and the hardware does what it likes. -/
  | world (f : Rig R → Rig R)

/-! ## What a graceful cancel leaves -/

/-- What a graceful cancel makes of a task: the way down, or only its end. -/
def Task.remnant : Task R → Task R
  | complete true | rampOff _ _ | turnOff => turnOff
  | _ => complete true

/-- What a graceful cancel at an instant leaves of some steps, numbered from `k` on. -/
def Step.remnants (now : Nat) : Nat → List (Step R) → List (Step R)
  | _, [] => []
  | k, start _ _ :: xs => remnants now k xs
  | k, lane l task :: xs =>
    lane { id := k, start := .at now, actuator := l.actuator, deadline := l.deadline }
      task.remnant :: remnants now (k + 1) xs
  | k, finish :: xs => finish :: remnants now k xs

def Step.number? : Step R → Option Nat
  | lane l _ => some l.id
  | start _ _ | finish => none

theorem Task.isCleanup_remnant (task : Task R) : task.remnant.isCleanup = true := by
  unfold remnant
  split <;> rfl

theorem Lane.cancel_eq (l : Lane) (s : Stage R) (task : Task R) :
    l.cancel s task = s.issue (.at s.now) l.actuator l.deadline task.remnant := by
  cases task with
  | complete cancelled => cases cancelled <;> rfl
  | _ => rfl

namespace Step

variable (now k : Nat) (xs : List (Step R))

variable {now k xs} in
/-- What is left of some steps is left of one of them. -/
theorem mem_remnants {y : Step R} (h : y ∈ remnants now k xs) :
    ∃ x ∈ xs, ∃ i, k ≤ i ∧ y ∈ remnants now i [x] := by
  induction xs generalizing k with
  | nil => cases h
  | cons x xs ih =>
    have later : ∀ j, k ≤ j → y ∈ remnants now j xs →
        ∃ z ∈ x :: xs, ∃ i, k ≤ i ∧ y ∈ remnants now i [z] := by
      intro j hj hy
      obtain ⟨z, hz, i, hi, hy⟩ := ih hy
      exact ⟨z, List.mem_cons_of_mem x hz, i, Nat.le_trans hj hi, hy⟩
    cases x with
    | start => exact later k (Nat.le_refl k) h
    | lane l task =>
      rcases List.mem_cons.mp h with rfl | h
      · exact ⟨_, List.mem_cons_self, k, Nat.le_refl k, List.mem_cons_self⟩
      · exact later (k + 1) (Nat.le_succ k) h
    | finish =>
      rcases List.mem_cons.mp h with rfl | h
      · exact ⟨_, List.mem_cons_self, k, Nat.le_refl k, List.mem_cons_self⟩
      · exact later k (Nat.le_refl k) h

theorem parts_remnants :
    (remnants now k xs).map part = (xs.map part).filter (· ≠ .opening) := by
  induction xs generalizing k with
  | nil => rfl
  | cons x xs ih => cases x <;> simp [remnants, part, ih]

theorem actuators_remnants : (remnants now k xs).filterMap Scheduled.actuator? =
    xs.filterMap Scheduled.actuator? := by
  induction xs generalizing k with
  | nil => rfl
  | cons x xs ih => cases x <;> simp [remnants, Scheduled.actuator?] <;> exact ih _

theorem numbers_remnants : (remnants now k xs).filterMap number? =
    List.range' k (xs.filterMap Scheduled.actuator?).length := by
  induction xs generalizing k with
  | nil => rfl
  | cons x xs ih =>
    cases x with
    | lane l task =>
      simp only [remnants, List.filterMap_cons, number?, Scheduled.actuator?, List.length_cons,
        List.range'_succ]
      exact congrArg (k :: ·) (ih (k + 1))
    | _ => exact ih k

end Step

namespace Run

section
variable [Level R]

def move (r : Run R) : Move R → Run R
  | .play => r.playDue?.getD r
  | .hear e => r.hear e
  | .cancel mode => r.cancel mode
  | .world f => r.withRig ((f r.rig).moveTo r.now)

def moves (r : Run R) (ms : List (Move R)) : Run R := ms.foldl move r

@[simp] theorem moves_nil (r : Run R) : r.moves [] = r := rfl

@[simp] theorem moves_cons (r : Run R) (m : Move R) (ms : List (Move R)) :
    r.moves (m :: ms) = (r.move m).moves ms := rfl

theorem moves_append (r : Run R) (ms ns : List (Move R)) :
    r.moves (ms ++ ns) = (r.moves ms).moves ns := List.foldl_append

theorem moves_concat (r : Run R) (ms : List (Move R)) (m : Move R) :
    r.moves (ms ++ [m]) = (r.moves ms).move m := r.moves_append ms [m]

end

/-! ## Reports -/

/-- From one queue to another a report came in: the steps may have changed, but what no report
changes of them is the same, and so is what all reports preserve. -/
structure Heard (now : Nat) (q q' : Queue (Step R)) : Prop where
  map : ∀ {β : Type} (f : Step R → β), (∀ x a step, f (Scheduled.accept x a step now).2 = f x) →
    (q'.items.map f).Perm (q.items.map f)
  kept : q.Kept → q'.Kept
  items : ∀ P : Step R → Prop, (∀ x a step, P x → P (Scheduled.accept x a step now).2) →
    (∀ x ∈ q.items, P x) → ∀ x ∈ q'.items, P x

theorem Heard.parts {now : Nat} {q q' : Queue (Step R)} (H : Heard now q q') :
    q'.parts.Perm q.parts :=
  H.map Step.part fun x a step => Queue.part_accept x a step now

theorem hear_eq (r : Run R) (e : Event) :
    ∃ q, r.hear e = { r with queue := q } ∧ Heard r.now r.queue q := by
  cases e with
  | stepComplete a v step =>
    exact ⟨_, rfl, {
      map := fun f hf => Queue.map_acceptCompletion f (fun x => hf x a (some step)) r.queue
      kept := fun H => H.acceptCompletion a (some step) r.now
      items := fun P hP h => Queue.forall_items_acceptCompletion (fun x => hP x a (some step)) h }⟩
  | syncedComplete v =>
    refine ⟨_, rfl, { map := ?_, kept := fun H => H.acceptSynced r.now, items := ?_ }⟩
    · intro β f hf
      exact Queue.acceptSynced_induction (M := fun q => (q.items.map f).Perm (r.queue.items.map f))
        (fun q a h => (Queue.map_acceptCompletion f (fun x => hf x a none) q).trans h) (.refl _)
    · intro P hP h
      exact Queue.acceptSynced_induction (M := fun q => ∀ x ∈ q.items, P x)
        (fun q a hq => Queue.forall_items_acceptCompletion (fun x => hP x a none) hq) h

/-! ## Cancels -/

section
variable [Level R] (r : Run R)

theorem cancelStep_eq (x : Step R) : r.cancelStep x = { r with
    stage := { r.stage with
      nextStep := r.stage.nextStep + ([x].filterMap Scheduled.actuator?).length }
    queue := r.queue.extend (Step.remnants r.now r.stage.nextStep [x]) } := by
  cases x with
  | lane l task =>
    simp only [cancelStep, Stage.cancel, Lane.cancel_eq, Stage.issue, List.foldl_cons,
      List.foldl_nil, Step.isCleanup, Task.isCleanup_remnant, if_true]
    rfl
  | _ => rfl

/-- Cancelling steps gracefully takes numbers for those of actuators, and leaves their remnants. -/
theorem foldl_cancelStep (xs : List (Step R)) : xs.foldl cancelStep r = { r with
    stage := { r.stage with
      nextStep := r.stage.nextStep + (xs.filterMap Scheduled.actuator?).length }
    queue := r.queue.extend (Step.remnants r.now r.stage.nextStep xs) } := by
  induction xs generalizing r with
  | nil => rfl
  | cons x xs ih =>
    rw [List.foldl_cons, ih, cancelStep_eq]
    have hnow : Run.now { r with
        stage := { r.stage with
          nextStep := r.stage.nextStep + ([x].filterMap Scheduled.actuator?).length }
        queue := r.queue.extend (Step.remnants r.now r.stage.nextStep [x]) } = r.now := rfl
    rw [hnow]
    cases x with
    | lane l task =>
      simp only [List.filterMap_cons, Scheduled.actuator?, List.filterMap_nil, List.length_cons,
        List.length_nil, Nat.add_assoc, Nat.add_comm 1]
      rfl
    | _ => rfl

/-- A graceful cancel leaves what is left of the steps, in their order, and releases none. -/
theorem cancel_graceful_eq (h : r.cancelled ≠ some .immediate) : r.cancel .graceful = { r with
    cancelled := some .graceful
    stage := { r.stage with
      nextStep := r.stage.nextStep + (r.queue.items.filterMap Scheduled.actuator?).length }
    queue := r.queue.drainInOrder.2.extend
      (Step.remnants r.now r.stage.nextStep r.queue.items) } :=
  (if_neg h).trans (foldl_cancelStep
    { r with cancelled := some .graceful, queue := r.queue.drainInOrder.2 } r.queue.items)

/-- A graceful cancel leaves the remnants of the steps in the queue. -/
theorem cancel_graceful (h : r.cancelled ≠ some .immediate) : ∃ xs q,
    r.cancel .graceful = { r with
      cancelled := some .graceful
      stage := { r.stage with
        nextStep := r.stage.nextStep + (xs.filterMap Scheduled.actuator?).length }
      queue := q } ∧
    xs.Perm r.queue.items ∧ q.items.Perm (Step.remnants r.now r.stage.nextStep xs) ∧ q.Kept := by
  refine ⟨r.queue.items, _, r.cancel_graceful_eq h, .refl _, ?_, ?_⟩
  · have hitems := Queue.items_extend r.queue.drainInOrder.2
      (Step.remnants r.now r.stage.nextStep r.queue.items)
    have hnil : r.queue.drainInOrder.2.items = [] := rfl
    rwa [hnil, List.append_nil] at hitems
  · exact Queue.Kept.extend ⟨fun _ he => (List.not_mem_nil he).elim,
      fun _ he => (List.not_mem_nil he).elim⟩ _

/-! ## What every move does -/

omit [Level R] in
/-- A graceful cancel leaves the same parts to do, except that nothing more is opened. -/
theorem parts_graceful {q : Queue (Step R)} {xs : List (Step R)} (items : xs.Perm r.queue.items)
    (left : q.items.Perm (Step.remnants r.now r.stage.nextStep xs)) :
    q.parts.Perm (r.queue.parts.filter (· ≠ .opening)) := by
  have hleft := left.map Step.part
  rw [Step.parts_remnants] at hleft
  exact hleft.trans ((items.map Step.part).filter _)

/-- The step that is due is played. -/
theorem move_play {x : Step R} {q : Queue (Step R)} (h : r.queue.popDue r.now = some (x, q)) :
    r.move .play = { r with
      stage := (r.stage.play r.plan x).stage
      queue := q.extend (r.stage.play r.plan x).next } := by
  rw [move, playDue?, h]
  rfl

theorem move_play_of_none (h : r.queue.popDue r.now = none) : r.move .play = r := by
  rw [move, playDue?, h]
  rfl

/-- The ways in which a move changes a run. -/
inductive Moved (r : Run R) : Move R → Run R → Prop
  | idle (h : r.queue.popDue r.now = none) : Moved r .play r
  | played {x q} (h : r.queue.popDue r.now = some (x, q)) : Moved r .play
      { r with
        stage := (r.stage.play r.plan x).stage
        queue := q.extend (r.stage.play r.plan x).next }
  | heard {e q} (h : Heard r.now r.queue q) : Moved r (.hear e) { r with queue := q }
  | ignored {mode} (h : r.cancelled = some .immediate) : Moved r (.cancel mode) r
  | graceful {xs q} (h : r.cancelled ≠ some .immediate) (items : xs.Perm r.queue.items)
      (left : q.items.Perm (Step.remnants r.now r.stage.nextStep xs)) (kept : q.Kept) :
      Moved r (.cancel .graceful) { r with
        cancelled := some .graceful
        stage := { r.stage with
          nextStep := r.stage.nextStep + (xs.filterMap Scheduled.actuator?).length }
        queue := q }
  | immediate {xs q} (h : r.cancelled ≠ some .immediate) (items : xs.Perm r.queue.items)
      (empty : q.items = []) : Moved r (.cancel .immediate)
        { r with
          cancelled := some .immediate
          stage := r.stage.tearDown r.plan xs
          queue := q }
  | world (f) : Moved r (.world f) (r.withRig ((f r.rig).moveTo r.now))

theorem move_moved (m : Move R) : r.Moved m (r.move m) := by
  cases m with
  | play =>
    cases h : r.queue.popDue r.now with
    | none =>
      rw [r.move_play_of_none h]
      exact .idle h
    | some p =>
      rw [r.move_play h]
      exact .played h
  | hear e =>
    obtain ⟨q, heq, hq⟩ := r.hear_eq e
    rw [move, heq]
    exact .heard hq
  | cancel mode =>
    by_cases h : r.cancelled = some .immediate
    · have heq : r.move (.cancel mode) = r := if_pos h
      rw [heq]
      exact .ignored h
    · cases mode with
      | graceful =>
        obtain ⟨xs, q, heq, hitems, hleft, hkept⟩ := r.cancel_graceful h
        rw [move, heq]
        exact .graceful h hitems hleft hkept
      | immediate =>
        rw [move, cancel, if_neg h]
        exact .immediate h (Queue.items_drainReversed _) rfl
  | world f => exact .world f

theorem Moved.plan {r r' : Run R} {m : Move R} (H : r.Moved m r') : r'.plan = r.plan := by
  cases H <;> rfl

@[simp] theorem isOver_cancel_immediate (hc : r.cancelled ≠ some .immediate) :
    (r.cancel .immediate).isOver = true := by
  rw [cancel, if_neg hc]
  rfl

theorem plan_moves (ms : List (Move R)) : (r.moves ms).plan = r.plan := by
  induction ms generalizing r with
  | nil => rfl
  | cons m ms ih => exact (ih (r.move m)).trans (r.move_moved m).plan

theorem Moved.kept {r r' : Run R} {m : Move R} (H : r.Moved m r') (K : r.queue.Kept) :
    r'.queue.Kept := by
  cases H with
  | idle | ignored | world => exact K
  | played h => exact (K.popDue h).extend _
  | heard h => exact h.kept K
  | graceful _ _ _ kept => exact kept
  | immediate _ _ empty => exact .of_items empty

omit [Level R] in
theorem fresh_kept (plan : Plan R) (v : Vibration R) (rig : Rig R) (asked : Nat) :
    (fresh plan v rig asked).queue.Kept := (Queue.Kept.of_items rfl).push _

theorem kept_moves (K : r.queue.Kept) (ms : List (Move R)) : (r.moves ms).queue.Kept := by
  induction ms generalizing r with
  | nil => exact K
  | cons m ms ih => exact ih (r.move m) ((r.move_moved m).kept K)

/-! ## Runs that are over -/

omit [Level R] in
theorem isOver_iff {r : Run R} : r.isOver = true ↔ r.queue.items = [] := Queue.isEmpty_iff

/-- A run that is over stays over, and nothing more is done in it. -/
theorem Moved.over {r r' : Run R} {m : Move R} (H : r.Moved m r') (h : r.queue.items = []) :
    r'.queue.items = [] ∧ r'.stage.history = r.stage.history ∧
      r'.stage.startResult = r.stage.startResult := by
  cases H with
  | idle | ignored | world => exact ⟨h, rfl, rfl⟩
  | played hdue =>
    rw [Queue.items_of_popDue hdue] at h
    cases h
  | heard hq =>
    have hparts := hq.parts
    rw [Queue.parts_eq_nil.mpr h] at hparts
    exact ⟨Queue.parts_eq_nil.mp (List.perm_nil.mp hparts), rfl, rfl⟩
  | graceful _ items left =>
    obtain rfl := List.perm_nil.mp (h ▸ items)
    exact ⟨List.perm_nil.mp left, rfl, rfl⟩
  | immediate _ items empty =>
    obtain rfl := List.perm_nil.mp (h ▸ items)
    exact ⟨empty, rfl, rfl⟩

theorem over_moves (h : r.queue.items = []) (ms : List (Move R)) :
    (r.moves ms).queue.items = [] ∧ (r.moves ms).stage.history = r.stage.history ∧
      (r.moves ms).stage.startResult = r.stage.startResult := by
  induction ms generalizing r with
  | nil => exact ⟨h, rfl, rfl⟩
  | cons m ms ih =>
    obtain ⟨hitems, hhistory, hstart⟩ := (r.move_moved m).over h
    obtain ⟨jitems, jhistory, jstart⟩ := ih (r.move m) hitems
    exact ⟨jitems, jhistory.trans hhistory, jstart.trans hstart⟩

/-! ## Immediate cancels -/

theorem Moved.still_immediate {r r' : Run R} {m : Move R} (H : r.Moved m r')
    (hc : r.cancelled = some .immediate) : r'.cancelled = some .immediate := by
  cases H with
  | graceful h | immediate h => exact absurd hc h
  | _ => exact hc

theorem still_immediate (hc : r.cancelled = some .immediate) (ms : List (Move R)) :
    (r.moves ms).cancelled = some .immediate := by
  induction ms generalizing r with
  | nil => exact hc
  | cons m ms ih => exact ih (r.move m) ((r.move_moved m).still_immediate hc)

theorem Moved.eq_cancel {r r' : Run R} {m : Move R} (H : r.Moved m r')
    (hc : r.cancelled ≠ some .immediate) (hc' : r'.cancelled = some .immediate) :
    m = .cancel .immediate := by
  cases H with
  | immediate => rfl
  | graceful => cases hc'
  | _ => exact absurd hc' hc

theorem mem_of_cancelled (h : r.cancelled ≠ some .immediate) (ms : List (Move R))
    (hc : (r.moves ms).cancelled = some .immediate) : .cancel .immediate ∈ ms := by
  induction ms generalizing r with
  | nil => exact absurd hc h
  | cons m ms ih =>
    by_cases hm : (r.move m).cancelled = some .immediate
    · exact (r.move_moved m).eq_cancel h hm ▸ List.mem_cons_self
    · exact List.mem_cons_of_mem m (ih (r.move m) hm hc)

end
end Run

/-! ## Performances -/

namespace Performance

variable [Level R]

theorem foldl_cancel (r : Run R) (modes : List CancelMode) :
    modes.foldl Run.cancel r = r.moves (modes.map .cancel) := by
  induction modes generalizing r with
  | nil => rfl
  | cons mode modes ih => exact ih (r.cancel mode)

theorem foldl_hear (r : Run R) (es : List Event) :
    es.foldl Run.hear r = r.moves (es.map .hear) := by
  induction es generalizing r with
  | nil => rfl
  | cons e es ih => exact ih (r.hear e)

theorem onBridge_moves (p : Performance R) (f : Bridge → Bridge) :
    (p.onBridge f).run = p.run.moves [.world fun r => { r with bridge := f r.bridge }] := by
  simp only [Run.moves_cons, Run.moves_nil, Run.move, Rig.moveTo]
  have hnow : max p.run.rig.now p.run.now = p.run.rig.now := Nat.max_self _
  rw [hnow]
  rfl

theorem close_moves (p : Performance R) : ∃ ms, p.close.run = p.run.moves ms := by
  simp only [close, onBridge_moves]
  exact ⟨_, rfl⟩

theorem takeReports_moves (p : Performance R) : ∃ ms, p.takeReports.2.run = p.run.moves ms := by
  unfold takeReports
  split
  · exact ⟨[], rfl⟩
  · exact ⟨_, p.onBridge_moves fun b => (b.read _).2⟩

theorem handleMail_moves (p : Performance R) : ∃ ms, p.handleMail.run = p.run.moves ms := by
  obtain ⟨ms, hms⟩ := takeReports_moves
    { p with run := p.cancels.foldl Run.cancel p.run, cancels := [] }
  refine ⟨p.cancels.map .cancel ++ ms ++ (takeReports
    { p with run := p.cancels.foldl Run.cancel p.run, cancels := [] }).1.map .hear, ?_⟩
  rw [Run.moves_append, Run.moves_append, ← foldl_cancel, ← hms, ← foldl_hear]
  rfl

/-- Every step of a performance is a sequence of moves of its run. -/
theorem step_moves {p p' : Performance R} (h : p.step? = some p') :
    ∃ ms, p'.run = p.run.moves ms := by
  obtain ⟨ms, hms⟩ := p.handleMail_moves
  unfold step? at h
  split at h
  · cases h
  · dsimp only at h
    split at h
    · rename_i run hplay
      cases h
      refine ⟨ms ++ [.play], ?_⟩
      rw [Run.moves_concat, ← hms, Run.move, hplay]
      rfl
    · -- Nothing is due: the run is over, or nothing will wake it any more, or there was only mail.
      split at h
      · cases h
        obtain ⟨ns, hns⟩ := p.handleMail.close_moves
        exact ⟨ms ++ ns, by rw [Run.moves_append, ← hms]; exact hns⟩
      · split at h
        · cases h
          exact ⟨ms ++ [.cancel .immediate], by rw [Run.moves_concat, ← hms]; rfl⟩
        · split at h
          · cases h
            exact ⟨ms, hms⟩
          · cases h

/-- A performance ends as soon as its run is over, and does nothing more in it. -/
theorem step_of_over {p : Performance R} (hp : p.isOver = false) (h : p.run.queue.items = []) :
    ∃ p', p.step? = some p' ∧ p'.isOver = true ∧
      p'.run.stage.history = p.run.stage.history ∧
      p'.run.stage.startResult = p.run.stage.startResult := by
  obtain ⟨ms, hms⟩ := p.handleMail_moves
  have hempty : p.handleMail.run.queue.items = [] := hms ▸ (p.run.over_moves h ms).1
  have hidle : p.handleMail.run.playDue? = none := by
    cases hdue : p.handleMail.run.queue.popDue p.handleMail.run.now with
    | none => rw [Run.playDue?, hdue, Option.map_none]
    | some x =>
      rw [Queue.items_of_popDue hdue] at hempty
      cases hempty
  have hstep : p.step? = some p.handleMail.close := by
    unfold step?
    have hover : p.handleMail.run.isOver = true := Run.isOver_iff.mpr hempty
    simp only [hp, hidle, hover, Bool.false_eq_true, if_false, if_true]
  obtain ⟨ns, hns⟩ := step_moves hstep
  obtain ⟨-, hhistory, hstart⟩ := p.run.over_moves h ns
  refine ⟨_, hstep, rfl, ?_, ?_⟩
  · rw [hns, hhistory]
  · rw [hns, hstart]

/-- What a performance does at one instant is a sequence of moves of its run. -/
theorem settle_moves (n : Nat) (p : Performance R) : ∃ ms, (p.settle n).run = p.run.moves ms := by
  induction n generalizing p with
  | zero => exact ⟨[], rfl⟩
  | succ n ih =>
    unfold settle
    split
    · exact ⟨[], rfl⟩
    · split
      · rename_i p' h
        obtain ⟨ms, hms⟩ := step_moves h
        obtain ⟨ns, hns⟩ := ih p'
        exact ⟨ms ++ ns, by rw [Run.moves_append, ← hms, hns]⟩
      · exact ⟨[], rfl⟩

end Performance

/-! ## A bench -/

/-- Motors that report the end of a hold only when they are told to. -/
def Rig.bench (ids : List ActuatorId) : Rig Rat :=
  Rig.init {
    catalogue := fun id => (.negotiated, {
      profile := { Profile.degraded id with capabilities := .ofList [.onCallback] }
      manual := true })
    group := .fixed ids }

/-- A run on such motors, with the settings of a device that configures nothing. -/
def Run.bench (v : Vibration Rat) (ids : List ActuatorId) : Run Rat :=
  .fresh ⟨1, ⟨1000, "com.example"⟩, .standard⟩ v (.bench ids) 0

end Haptics
