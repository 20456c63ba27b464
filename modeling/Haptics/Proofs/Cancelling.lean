import Haptics.Proofs.Starting

/-!
# Nothing starts after a cancel

A cancel leaves steps that only wind down (`Step.Winding`): they make no drive, they begin at an
instant that is known, and whatever happens to them leaves such steps again. A second cancel leaves
only steps that turn off.
-/

namespace Haptics

variable {R : Type}

/-! ## Steps that only wind down -/

/-- The task is on the way down. On a ramp it is known when the actuator stops by itself. -/
def Task.Winds (d : Deadline) : Task R → Prop
  | complete cancelled => cancelled = true
  | rampOff _ _ => ∀ i, d ≠ .indefinite i
  | turnOff => True
  | hold _ | prebaked _ | composition _ | ramps _ | envelope _ | vendor _ => False

def Step.Winding : Step R → Prop
  | start _ _ => False
  | lane l task => (∃ t, l.start = .at t) ∧ task.Winds l.deadline
  | finish => True

theorem Step.Winding.cleanup {x : Step R} (h : x.Winding) :
    x.isCleanup = true ∧ (x = .finish ∨ ∃ t, Scheduled.start x = .at t) := by
  cases x with
  | start => exact h.elim
  | lane l task =>
    refine ⟨?_, .inr h.1⟩
    have winds := h.2
    cases task with
    | complete | rampOff | turnOff => rfl
    | _ => exact winds.elim
  | finish => exact ⟨rfl, .inl rfl⟩

/-- The step turns off and does nothing else. -/
def Step.TurnsOff : Step R → Prop
  | start _ _ => False
  | lane l task => (∃ t, l.start = .at t) ∧ task = .turnOff
  | finish => True

theorem Step.Winding.remnants (now k : Nat) (xs : List (Step R)) :
    ∀ y ∈ Step.remnants now k xs, y.Winding := by
  intro y hy
  obtain ⟨x, -, i, -, hy⟩ := mem_remnants hy
  cases x with
  | start => cases hy
  | lane l task =>
    obtain rfl := List.mem_singleton.mp hy
    refine ⟨⟨now, rfl⟩, ?_⟩
    unfold Task.remnant
    split <;> trivial
  | finish =>
    obtain rfl := List.mem_singleton.mp hy
    trivial

section
variable [Level R]

/-- Being of some kind is for good: what a report, a play or a graceful cancel makes of such a step
is of that kind. -/
structure Step.Lasting (P : Step R → Prop) : Prop where
  accept : ∀ {x} a step now, P x → P (Scheduled.accept x a step now).2
  play : ∀ {x} (s : Stage R) plan, P x → ∀ y ∈ (s.play plan x).next, P y
  cancel : ∀ {now k xs}, (∀ x ∈ xs, P x) → ∀ y ∈ Step.remnants now k xs, P y

namespace Lane

variable {l : Lane}

/-- What playing a step leaves that only winds down. -/
structure Unwinds (s : Stage R) (p : Played R) : Prop where
  drives : Deed.drives p.stage.history = Deed.drives s.history
  next : ∀ x ∈ p.next, x.Winding

theorem Unwinds.halt (l : Lane) (s : Stage R) : Unwinds s ⟨s.stop l, [], 0⟩ where
  drives := by rw [(Stage.Does.stop l).history, Deed.drives_append, Deed.drives_stop,
    List.append_nil]
  next _ hx := (List.not_mem_nil hx).elim

omit [Level R] in
theorem Unwinds.followed {l : Lane} {s t : Stage R} {begin : Nat} {task : Task R} {n : Int}
    (drives : Deed.drives t.history = Deed.drives s.history) (winds : task.Winds l.deadline) :
    Unwinds s (.followed t l (.at begin) task n) := by
  refine ⟨drives, fun x hx => ?_⟩
  rw [List.mem_singleton.mp hx]
  exact ⟨⟨begin, rfl⟩, winds⟩

omit [Level R] in
theorem drives_setAmplitude (l : Lane) (s : Stage R) (x : R) :
    Deed.drives (s.setAmplitude l x).history = Deed.drives s.history := by
  obtain ⟨ok, H⟩ := Stage.Does.setAmplitude (s := s) l x
  rw [H.history, Deed.drives_append, Deed.drives_setAmplitude, List.append_nil]

omit [Level R] in
theorem turnOff_of_definite {d : Deadline} (h : ∀ i, d ≠ .indefinite i) (now : Nat) :
    ∃ t, d.turnOff now = .at t := by
  cases d with
  | idle => exact ⟨now, rfl⟩
  | «at» t i => exact ⟨t, rfl⟩
  | indefinite i => exact absurd rfl (h i)

theorem playComplete_unwinds (s : Stage R) (plan : Plan R) :
    Unwinds s (l.playComplete plan s true) := by
  unfold playComplete
  simp only [if_true]
  split
  · exact .halt l s
  · split
    · exact .halt l s
    · -- The ramp lasts no longer than `rampDown`, whatever the deadline was.
      exact .followed rfl nofun

theorem playRampOff_unwinds (h : ∀ i, l.deadline ≠ .indefinite i) (s : Stage R) (plan : Plan R)
    (target delta : R) : Unwinds s (l.playRampOff plan s target delta) := by
  unfold playRampOff
  split
  · exact .halt l s
  · dsimp only
    have hdrives := drives_setAmplitude l s target
    split
    · obtain ⟨t, ht⟩ := turnOff_of_definite h (s.now)
      rw [ht]
      exact .followed hdrives trivial
    · exact .followed hdrives h

theorem play_unwinds {task : Task R} (h : (Step.lane l task).Winding) (s : Stage R)
    (plan : Plan R) : Unwinds s (l.play plan s task) := by
  obtain ⟨-, winds⟩ := h
  cases task with
  | complete cancelled =>
    obtain rfl : cancelled = true := winds
    exact playComplete_unwinds s plan
  | rampOff target delta => exact playRampOff_unwinds winds s plan target delta
  | turnOff => exact .halt l s
  | _ => exact winds.elim

end Lane

theorem Step.Winding.drives {x : Step R} (h : x.Winding) (s : Stage R) (plan : Plan R) :
    Deed.drives (s.play plan x).stage.history = Deed.drives s.history := by
  cases x with
  | start => exact h.elim
  | lane l task => exact (Lane.play_unwinds h s plan).drives
  | finish =>
    show Deed.drives (s.tell _).history = _
    rw [Stage.tell, Stage.history_record, Deed.drives_append]
    exact List.append_nil _

theorem Step.Winding.lasting : Step.Lasting (Winding (R := R)) where
  accept {x} a step now h := by
    rcases Queue.accept_cases x a step now with heq | ⟨l, task, i, rfl, -, -, -, heq⟩ <;> rw [heq]
    · exact h
    · refine ⟨h.1, ?_⟩
      have winds := h.2
      cases task with
      | rampOff => exact nofun
      | _ => exact winds
  play {x} s plan h := by
    cases x with
    | start => exact h.elim
    | lane l task => exact (Lane.play_unwinds h s plan).next
    | finish => exact fun _ hy => (List.not_mem_nil hy).elim
  cancel {now k xs} _ := Winding.remnants now k xs

theorem Step.TurnsOff.lasting : Step.Lasting (TurnsOff (R := R)) where
  accept {x} a step now h := by
    rcases Queue.accept_cases x a step now with heq | ⟨l, task, i, rfl, -, -, -, heq⟩ <;> rw [heq]
    · exact h
    · exact h
  play {x} s plan h := by
    cases x with
    | start => exact h.elim
    | lane l task =>
      obtain rfl : task = .turnOff := h.2
      exact fun _ hy => (List.not_mem_nil hy).elim
    | finish => exact fun _ hy => (List.not_mem_nil hy).elim
  cancel {now k xs} h y hy := by
    obtain ⟨x, hx, i, -, hy⟩ := mem_remnants hy
    cases x with
    | start => cases hy
    | lane l task =>
      obtain rfl := List.mem_singleton.mp hy
      obtain rfl : task = .turnOff := (h _ hx).2
      exact ⟨⟨now, rfl⟩, rfl⟩
    | finish =>
      obtain rfl := List.mem_singleton.mp hy
      trivial

/-! ## Runs that wind down -/

namespace Run

variable {v : Vibration R} {asked : Nat} {r r' : Run R} {m : Move R} {P : Step R → Prop}

theorem Moved.lasting (L : Step.Lasting P) (M : r.Moved m r') (h : ∀ x ∈ r.queue.items, P x) :
    ∀ x ∈ r'.queue.items, P x := by
  cases M with
  | idle | ignored | world => exact h
  | @played x q hdue =>
    have hitems := Queue.items_of_popDue hdue
    intro y hy
    rcases List.mem_append.mp ((q.items_extend _).mem_iff.mp hy) with hy | hy
    · exact L.play _ _ (h x (hitems ▸ List.mem_cons_self)) y hy
    · exact h y (hitems ▸ List.mem_cons_of_mem x hy)
  | heard hq => exact hq.items P (fun _ a step => L.accept a step r.now) h
  | graceful _ items left =>
    intro y hy
    exact L.cancel (fun x hx => h x (items.mem_iff.mp hx)) y (left.mem_iff.mp hy)
  | immediate _ _ empty =>
    intro y hy
    rw [empty] at hy
    cases hy

theorem lasting_moves (L : Step.Lasting P) (h : ∀ x ∈ r.queue.items, P x) (ms : List (Move R)) :
    ∀ x ∈ (r.moves ms).queue.items, P x := by
  induction ms generalizing r with
  | nil => exact h
  | cons m ms ih => exact ih ((r.move_moved m).lasting L h)

/-- While only steps are queued that wind down, nothing is driven or started. -/
theorem Moved.winding (M : r.Moved m r') (h : ∀ x ∈ r.queue.items, x.Winding) :
    r'.drives = r.drives ∧ r'.stage.startResult = r.stage.startResult := by
  cases M with
  | idle | heard | ignored | graceful | world => exact ⟨rfl, rfl⟩
  | @played x q hdue =>
    have hx : x.Winding := h x (Queue.items_of_popDue hdue ▸ List.mem_cons_self)
    refine ⟨hx.drives r.stage r.plan, ?_⟩
    cases x with
    | start => exact hx.elim
    | lane l task =>
      obtain ⟨ds, hds, -⟩ := (l.play_plays r.stage r.plan task).deeds
      exact hds.startResult
    | finish => rfl
  | @immediate xs q =>
    exact ⟨r.stage.drives_tearDown r.plan xs, (r.stage.tearDown_frame r.plan xs).1⟩

theorem winding_moves (h : ∀ x ∈ r.queue.items, x.Winding) (ms : List (Move R)) :
    (r.moves ms).drives = r.drives ∧ (r.moves ms).stage.startResult = r.stage.startResult := by
  induction ms generalizing r with
  | nil => exact ⟨rfl, rfl⟩
  | cons m ms ih =>
    have M := r.move_moved m
    obtain ⟨hdrives, hstart⟩ := M.winding h
    obtain ⟨jdrives, jstart⟩ := ih (M.lasting Step.Winding.lasting h)
    exact ⟨jdrives.trans hdrives, jstart.trans hstart⟩

/-! ## What a cancel leaves -/

theorem Moved.wound (M : r.Moved m r')
    (h : r.cancelled ≠ none → ∀ x ∈ r.queue.items, x.Winding) (hc : r'.cancelled ≠ none) :
    ∀ x ∈ r'.queue.items, x.Winding := by
  by_cases hr : r.cancelled = none
  · cases M with
    | graceful _ _ left => exact fun x hx => Step.Winding.remnants _ _ _ x (left.mem_iff.mp hx)
    | immediate _ _ empty => simp [empty]
    | _ => exact absurd hr hc
  · exact M.lasting Step.Winding.lasting (h hr)

/-- Once a run was cancelled, only steps are queued that wind down. -/
theorem wound_moves (h : r.cancelled ≠ none → ∀ x ∈ r.queue.items, x.Winding)
    (ms : List (Move R)) (hc : (r.moves ms).cancelled ≠ none) :
    ∀ x ∈ (r.moves ms).queue.items, x.Winding := by
  induction ms generalizing r with
  | nil => exact h hc
  | cons m ms ih => exact ih ((r.move_moved m).wound h) hc

theorem Moved.emptied (M : r.Moved m r') (h : r.cancelled = some .immediate → r.queue.items = [])
    (hc : r'.cancelled = some .immediate) : r'.queue.items = [] := by
  by_cases hr : r.cancelled = some .immediate
  · exact (M.over (h hr)).1
  · cases M with
    | immediate _ _ empty => exact empty
    | graceful => cases hc
    | _ => exact absurd hc hr

theorem emptied_moves (h : r.cancelled = some .immediate → r.queue.items = [])
    (ms : List (Move R)) (hc : (r.moves ms).cancelled = some .immediate) :
    (r.moves ms).queue.items = [] := by
  induction ms generalizing r with
  | nil => exact h hc
  | cons m ms ih => exact ih ((r.move_moved m).emptied h) hc

theorem cancelled_cancel (r : Run R) (mode : CancelMode) : (r.cancel mode).cancelled ≠ none ∧
    (mode = .immediate → (r.cancel mode).cancelled = some .immediate) := by
  have M : r.Moved (.cancel mode) (r.cancel mode) := r.move_moved (.cancel mode)
  generalize r.cancel mode = c at M
  cases M with
  | ignored hc => simp [hc]
  | graceful | immediate => simp

theorem cancel_drives (r : Run R) (mode : CancelMode) : (r.cancel mode).drives = r.drives ∧
    (r.cancel mode).stage.startResult = r.stage.startResult := by
  have M : r.Moved (.cancel mode) (r.cancel mode) := r.move_moved (.cancel mode)
  generalize r.cancel mode = c at M
  cases M with
  | ignored | graceful => exact ⟨rfl, rfl⟩
  | @immediate xs q =>
    exact ⟨r.stage.drives_tearDown r.plan xs, (r.stage.tearDown_frame r.plan xs).1⟩

theorem closing_cancel :
    (r.cancel .graceful).queue.parts.count .closing = r.queue.parts.count .closing := by
  have M : r.Moved (.cancel .graceful) (r.cancel .graceful) := r.move_moved (.cancel .graceful)
  generalize r.cancel .graceful = c at M
  cases M with
  | ignored => rfl
  | graceful _ items left =>
    rw [(r.parts_graceful items left).count_eq]
    exact List.count_filter rfl

/-- What was cancelled gracefully before is only turned off. -/
theorem cancel_again (again : r.cancelled = some .graceful)
    (winding : ∀ x ∈ r.queue.items, x.Winding) :
    ∀ x ∈ (r.cancel .graceful).queue.items,
      x = .finish ∨ ∃ l, x = .lane l .turnOff ∧ l.start = .at r.now := by
  have M : r.Moved (.cancel .graceful) (r.cancel .graceful) := r.move_moved (.cancel .graceful)
  generalize r.cancel .graceful = c at M
  cases M with
  | ignored hc =>
    rw [again] at hc
    cases hc
  | graceful _ items left =>
    intro x hx
    obtain ⟨y, hy, i, -, hx⟩ := Step.mem_remnants (left.mem_iff.mp hx)
    cases y with
    | start => cases hx
    | lane l task =>
      obtain rfl := List.mem_singleton.mp hx
      have winds : task.Winds l.deadline := (winding _ (items.mem_iff.mp hy)).2
      have hremnant : task.remnant = .turnOff := by
        cases task with
        | complete cancelled =>
          obtain rfl : cancelled = true := winds
          rfl
        | rampOff | turnOff => rfl
        | _ => exact winds.elim
      exact .inr ⟨_, by rw [hremnant], rfl⟩
    | finish => exact .inl (List.mem_singleton.mp hx)

omit [Level R] in
/-- The beginning is told of exactly if the start had a result. -/
theorem Phase.told_on_iff (H : r.Phase v asked) : (∃ t, .on r.plan.caller t ∈ r.stage.telemetry) ↔
    ∃ n, r.stage.startResult = some n ∧ 0 < n := by
  cases H with
  | waiting start history =>
    have htold : r.stage.telemetry = [] := congrArg (·.filterMap Deed.told?) history
    simp [htold, start]
  | playing n ps start told =>
    rw [told, announcement]
    by_cases hn : 0 < n <;> simp [start, hn]
  | closed n start pos told => simp [told, start, pos]

omit [Level R] in
/-- Later, as long as the start has no other result, the closing step is queued exactly if it was
queued before and the end is not told yet. -/
theorem Phase.closing_iff (H : r.Phase v asked) (H' : r'.Phase v asked) (plan : r'.plan = r.plan)
    (start : r'.stage.startResult = r.stage.startResult)
    (grows : r.stage.history <+: r'.stage.history) :
    .closing ∈ r'.queue.parts ↔
      .closing ∈ r.queue.parts ∧ .off r.plan.caller ∉ r'.stage.telemetry := by
  -- Whether the beginning was told is decided by then, and what was told stays told.
  have hon := H'.told_on_iff
  have hclosing := H'.closing
  rw [start, ← H.told_on_iff] at hon
  rw [hon, plan] at hclosing
  have hoff : .off r.plan.caller ∈ r.stage.telemetry → .off r.plan.caller ∈ r'.stage.telemetry :=
    fun h => (grows.filterMap Deed.told?).subset h
  have hmem : ∀ {c : Nat}, c ≤ 1 → (0 < c ↔ c = 1) := by omega
  rw [← List.count_pos_iff, ← List.count_pos_iff, hmem hclosing.1, hmem H.closing.1, hclosing.2,
    H.closing.2]
  exact ⟨fun h => ⟨⟨h.1, fun ho => h.2 (hoff ho)⟩, h.2⟩, fun h => ⟨h.1.1, h.2⟩⟩

omit [Level R] in
/-- The opening step is the only step of a run that was not started, and does not wind down. -/
theorem Phase.empty_of_winding (H : r.Phase v asked) (start : r.stage.startResult = none)
    (winding : ∀ x ∈ r.queue.items, x.Winding) : r.queue.items = [] ∧ r.stage.history = [] := by
  cases H with
  | waiting _ history parts items =>
    refine ⟨List.eq_nil_iff_forall_not_mem.mpr fun x hx => ?_, history⟩
    have hwinding := winding x hx
    rwa [items x hx] at hwinding
  | playing n ps start' | closed n start' =>
    rw [start] at start'
    cases start'

/-- What a cancel makes of a run `r`: the run is `c` at once, and `r'` after any moves. -/
structure WoundDown (mode : CancelMode) (r c r' : Run R) : Prop where
  drives : r'.drives = r.drives
  cleanup : ∀ x ∈ r'.queue.items, x.isCleanup = true
  /-- No step is left that waits for a report. -/
  timed : ∀ x ∈ r'.queue.items, x = .finish ∨ ∃ t, Scheduled.start x = .at t
  closing : mode = .graceful → c.queue.parts.count .closing = r.queue.parts.count .closing
  /-- The closing step stays until the end is told. -/
  closing_iff : .closing ∈ r'.queue.parts ↔
    .closing ∈ r.queue.parts ∧ .off r.plan.caller ∉ r'.stage.telemetry
  again : mode = .graceful → r.cancelled = some .graceful →
    (∀ x ∈ c.queue.items, x = .finish ∨ ∃ l, x = .lane l .turnOff ∧ l.start = .at r.now) ∧
      ∀ x ∈ r'.queue.items, x.TurnsOff
  immediate : mode = .immediate → r'.isOver = true ∧ r'.stage.history = c.stage.history
  unopened : r.stage.startResult = none → r'.isOver = true ∧ r'.stage.history = []
  /-- A performance of a run that is over ends with its next step, and does nothing more. -/
  returns : r'.isOver = true → ∀ p : Performance R, p.run = r' → p.isOver = false →
    ∃ p', p.step? = some p' ∧ p'.isOver = true ∧ p'.run.stage.history = r'.stage.history

/-- After a cancel nothing starts again, in whatever state the cancel finds a run. -/
theorem cancelled_moves (plan : Plan R) (v : Vibration R) (rig : Rig R) (asked : Nat)
    (pre : List (Move R)) (mode : CancelMode) (post : List (Move R)) :
    let r := (fresh plan v rig asked).moves pre
    WoundDown mode r (r.cancel mode) ((r.cancel mode).moves post) := by
  intro r
  have H : r.Phase v asked := phase_moves (fresh_phase plan v rig asked) (fresh_kept ..) pre
  have K : r.queue.Kept := kept_moves _ (fresh_kept ..) pre
  have wound : r.cancelled ≠ none → ∀ x ∈ r.queue.items, x.Winding :=
    wound_moves (fun hc => absurd rfl hc) pre
  have emptied : r.cancelled = some .immediate → r.queue.items = [] := by
    exact emptied_moves (fun hc => by cases hc) pre
  clear_value r
  have M : r.Moved (.cancel mode) (r.cancel mode) := r.move_moved (.cancel mode)
  obtain ⟨hcancelled, himmediate⟩ := r.cancelled_cancel mode
  have hcwinding : ∀ x ∈ (r.cancel mode).queue.items, x.Winding := M.wound wound hcancelled
  obtain ⟨hcdrives, hcstart⟩ := r.cancel_drives mode
  obtain ⟨hdrives, hstart⟩ := winding_moves hcwinding post
  have hwinding := lasting_moves Step.Winding.lasting hcwinding post
  have hcphase : (r.cancel mode).Phase v asked := H.moved K M
  constructor
  case drives => exact hdrives.trans hcdrives
  case cleanup => exact fun x hx => (hwinding x hx).cleanup.1
  case timed => exact fun x hx => (hwinding x hx).cleanup.2
  case closing =>
    rintro rfl
    exact closing_cancel
  case closing_iff =>
    have hphase := phase_moves hcphase (M.kept K) post
    exact H.closing_iff hphase ((plan_moves _ _).trans M.plan) (hstart.trans hcstart)
      (M.history.trans (history_moves (r.cancel mode) post))
  case again =>
    rintro rfl again
    have hagain := cancel_again again (wound (by simp [again]))
    refine ⟨hagain, lasting_moves Step.TurnsOff.lasting (fun x hx => ?_) post⟩
    rcases hagain x hx with rfl | ⟨l, rfl, hl⟩
    · trivial
    · exact ⟨⟨_, hl⟩, rfl⟩
  case immediate =>
    intro hmode
    have hover := over_moves (r.cancel mode) (M.emptied emptied (himmediate hmode)) post
    exact ⟨isOver_iff.mpr hover.1, hover.2.1⟩
  case unopened =>
    intro hnone
    obtain ⟨hempty, hfirst⟩ := hcphase.empty_of_winding (hcstart.trans hnone) hcwinding
    obtain ⟨hitems, hhistory, -⟩ := over_moves (r.cancel mode) hempty post
    exact ⟨isOver_iff.mpr hitems, hhistory.trans hfirst⟩
  case returns =>
    intro hover p hp hopen
    obtain ⟨p', hstep, hended, hhistory, -⟩ :=
      Performance.step_of_over hopen (hp ▸ isOver_iff.mp hover)
    exact ⟨p', hstep, hended, hp ▸ hhistory⟩

end Run
end
end Haptics
