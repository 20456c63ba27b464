import Haptics.Proofs.Budget
import Haptics.Proofs.Reports
import Haptics.Proofs.Succession
import Haptics.Proofs.Voices

/-!
# The timeline of a waveform

A step is played only in its time, unless a report released it before (`Run.ripe_turns`). A hold
schedules its successor from its own start and not from when it was played. So in a pattern of holds
each hold begins as much later than the first as the holds before it last, however late steps are
played, whatever drives answer and whenever they report (`Run.onset_moves`).
-/

namespace Haptics

variable {R : Type}

/-! ## Steps are played in their time -/

/-- A step may be played: its time has come, or it was released by a report. -/
def Step.Ripe (now : Nat) (x : Step R) : Prop :=
  (∃ l task, x = .lane l task ∧ l.reported = true) ∨ (Scheduled.start x).isDue now = true

theorem Step.ripe_remnants {now k : Nat} {xs : List (Step R)} {y : Step R}
    (h : y ∈ remnants now k xs) : y.Ripe now := by
  obtain ⟨x, -, i, -, hy⟩ := mem_remnants h
  cases x with
  | start => cases hy
  | lane =>
    obtain rfl := List.mem_singleton.mp hy
    exact .inr (decide_eq_true (Nat.le_refl now))
  | finish =>
    obtain rfl := List.mem_singleton.mp hy
    exact .inr rfl

theorem Step.Ripe.mono {x : Step R} {t u : Nat} (h : x.Ripe t) (htu : t ≤ u) : x.Ripe u :=
  h.imp_right (StartTime.isDue_mono htu)

namespace Queue

variable {q q' : Queue (Step R)} {now : Nat}

theorem mem_items_of_released {e : Entry (Step R)} (he : e ∈ q.released) : e.item ∈ q.items :=
  List.mem_map_of_mem (List.mem_append_left _ he)

theorem ripe_popDue (K : q.Kept) (ripe : ∀ e ∈ q.released, e.item.Ripe now) {x : Step R}
    (h : q.popDue now = some (x, q')) :
    x.Ripe now ∧ ∀ e ∈ q'.released, e.item.Ripe now := by
  obtain ⟨e, rfl, hpop⟩ := pops_of_popDue h
  cases hpop with
  | released hreleased =>
    rw [hreleased] at ripe
    exact ⟨ripe e List.mem_cons_self, fun f hf => ripe f (List.mem_cons_of_mem e hf)⟩
  | timed hreleased htimed due =>
    have hstart := K.timed e (htimed ▸ List.mem_cons_self)
    exact ⟨.inr (hstart ▸ due), ripe⟩

/-- A step that a report releases has its report. -/
theorem ripe_acceptCompletion (ripe : ∀ e ∈ q.released, e.item.Ripe now) (a : ActuatorId)
    (step : Option Nat) : ∀ e ∈ (q.acceptCompletion a step now).2.released, e.item.Ripe now := by
  unfold acceptCompletion
  split
  · rename_i e es he
    intro f hf
    rcases List.mem_append.mp hf with hf | hf
    · exact ripe f hf
    · obtain ⟨x, -, hx⟩ := offer_found (e := e) (by rw [he])
      rw [List.mem_singleton.mp hf]
      rcases accept_cases x.item a step now with h | ⟨l, task, i, -, -, -, -, h⟩
      · rw [h] at hx
        cases hx
      · rw [h] at hx
        exact .inl ⟨_, task, (Prod.mk.inj hx).2.symm, rfl⟩
  · exact ripe

end Queue

section
variable [Level R]

namespace Stage

variable (s : Stage R) (plan : Plan R)

omit [Level R] in
theorem start_issueFirst (es : List (ActuatorId × Effect R)) :
    ∀ x ∈ (s.issueFirst es).1, x.1.start = .at s.now := fun x hx => by
  rw [s.lane_issueFirst es x hx]

theorem now_turnsEach (firsts : List (Lane × Task R × Effect R)) :
    ∀ t ∈ s.turnsEach plan firsts, t.stage.now = s.now := by
  induction firsts generalizing s with
  | nil => exact fun _ ht => absurd ht List.not_mem_nil
  | cons x firsts ih =>
    obtain ⟨l, task, e⟩ := x
    intro t ht
    unfold turnsEach at ht
    dsimp only at ht
    rcases List.mem_cons.mp ht with rfl | ht
    · rfl
    · split at ht
      · cases ht
      · obtain ⟨ds, hds, -⟩ := (l.play_plays s plan task).deeds
        exact (ih _ t ht).trans hds.now

theorem now_turnsAll (es : List (ActuatorId × Effect R)) :
    ∀ t ∈ s.turnsAll plan es, t.stage.now = s.now := by
  unfold turnsAll
  dsimp only
  rw [prepare_of_length]
  intro t ht
  obtain ⟨asked, C, -⟩ := (s.issueFirst es).2.prepare_asks (requiredSync (es.map (·.2)))
    (es.map (·.1))
  rw [now_turnsEach _ plan _ t ht, C.now, issueFirst_snd]
  rfl

theorem now_play (x : Step R) : (s.play plan x).stage.now = s.now := by
  cases x with
  | start v t =>
    obtain ⟨_, _, _, _, _, H⟩ := s.openAll_starts plan (s.effects v)
    show (s.openVibration plan v).stage.now = s.now
    unfold openVibration
    dsimp only
    split <;> exact H.now
  | lane l task =>
    obtain ⟨ds, hds, -⟩ := (l.play_plays s plan task).deeds
    exact hds.now
  | finish => rfl

end Stage

namespace Run

variable {r : Run R}

/-- Whatever was released may be played. -/
def Ripe (r : Run R) : Prop := ∀ e ∈ r.queue.released, e.item.Ripe r.now

theorem Ripe.move (H : r.Ripe) (K : r.queue.Kept) (m : Move R) : (r.move m).Ripe := by
  cases m with
  | play =>
    cases h : r.queue.popDue r.now with
    | none =>
      rwa [r.move_play_of_none h]
    | some y =>
      obtain ⟨x, q⟩ := y
      have hnow : (r.move .play).now = r.now := by
        rw [r.move_play h]
        exact r.stage.now_play r.plan x
      unfold Ripe
      rw [hnow, r.move_play h, Queue.released_extend]
      exact (Queue.ripe_popDue K H h).2
  | hear e =>
    cases e with
    | stepComplete a v i => exact Queue.ripe_acceptCompletion H a (some i)
    | syncedComplete v =>
      exact Queue.acceptSynced_induction
        (M := fun q : Queue (Step R) => ∀ e ∈ q.released, e.item.Ripe r.now)
        (fun _ a h => Queue.ripe_acceptCompletion h a none) H
  | cancel mode =>
    have M := r.move_moved (.cancel mode)
    generalize r.move (.cancel mode) = r' at M ⊢
    cases M with
    | ignored => exact H
    | graceful _ _ left =>
      exact fun e he => Step.ripe_remnants (left.mem_iff.mp (Queue.mem_items_of_released he))
    | @immediate _ q _ _ empty =>
      intro e he
      have hitem : e.item ∈ q.items := Queue.mem_items_of_released he
      rw [empty] at hitem
      cases hitem
  | world f => exact fun e he => (H e he).mono (Nat.le_max_right ..)

/-- Every step of an actuator is played in its time, or it was released before. -/
theorem Ripe.turns {ms : List (Move R)} (H : r.Ripe) (K : r.queue.Kept) :
    ∀ t ∈ r.turns ms, (Step.lane t.lane t.task).Ripe t.stage.now := by
  induction ms generalizing r with
  | nil => exact fun _ ht => absurd ht List.not_mem_nil
  | cons m ms ih =>
    intro t ht
    rcases List.mem_append.mp ht with ht | ht
    · rcases r.due_cases m with hdue | ⟨-, x, q, hpop, hdue⟩ <;> rw [hdue] at ht
      · cases ht
      · rw [List.flatMap_singleton] at ht
        cases x with
        | start v t' =>
          obtain ⟨e, hfirst⟩ := r.stage.first_of_turn r.plan ht
          have hnow := r.stage.now_turnsAll r.plan _ t ht
          have hstart := r.stage.start_issueFirst _ _ hfirst
          refine .inr ?_
          show t.lane.start.isDue t.stage.now = true
          rw [hstart, hnow]
          exact decide_eq_true (Nat.le_refl _)
        | lane l task =>
          rw [List.mem_singleton.mp ht]
          exact (Queue.ripe_popDue K H hpop).1
        | finish => cases ht
    · exact ih (H.move K m) ((r.move_moved m).kept K) t ht

omit [Level R] in
theorem fresh_ripe (plan : Plan R) (v : Vibration R) (rig : Rig R) (asked : Nat) :
    (fresh plan v rig asked).Ripe := fun _ he => absurd he List.not_mem_nil

end Run
end

/-! ## Waveforms -/

namespace Pattern

/-- A pattern of holds. -/
def OnlyHolds (p : Pattern R) : Prop := ∀ x ∈ p.segments, ∃ h, x = .hold h

/-- How long the segment at an index lasts, zero if that is not known. -/
def lasts (p : Pattern R) (i : Nat) : Nat := (p.segments[i]?.bind Segment.duration?).getD 0

/-- When the segment begins that is played after `k` others, counted from the first: the durations
of those add up. -/
def onset (p : Pattern R) (k : Nat) : Nat := ((List.range k).map fun j => p.lasts (p.unroll j)).sum

variable {p : Pattern R}

@[simp] theorem onset_zero : p.onset 0 = 0 := rfl

theorem onset_succ (k : Nat) : p.onset (k + 1) = p.onset k + p.lasts (p.unroll k) := by
  simp [onset, List.range_succ]

theorem OnlyHolds.task (H : p.OnlyHolds) {i : Nat} (hi : i < p.segments.length) :
    ∃ h, p.segments[i]? = some (.hold h) ∧ Task.ofPosition p i = .hold ⟨p, i⟩ := by
  have hget : p.segments[i]? = some p.segments[i] := List.getElem?_eq_getElem hi
  obtain ⟨h, hh⟩ := H _ (List.getElem_mem hi)
  rw [hh] at hget
  exact ⟨h, hget, Task.ofPosition_eq hget⟩

theorem onlyHolds_waveform [Level R] (timings : List Nat) (amplitudes : List (Amplitude R))
    (loopStart : Option Nat) : (waveform timings amplitudes loopStart).OnlyHolds := by
  intro x hx
  obtain ⟨y, -, rfl⟩ := List.mem_map.mp hx
  exact ⟨_, rfl⟩

/-- Past the end of a pattern there is no hold any more. -/
theorem task_past {k : Nat} (hk : p.segments.length ≤ p.unroll k) :
    Task.ofPosition p (p.unroll k) = .complete false := by
  cases hloop : p.loopStart with
  | some r => exact absurd (unroll_lt hloop k) (Nat.not_lt.mpr hk)
  | none =>
    unfold Task.ofPosition
    dsimp only
    rw [if_pos hk, hloop, Option.getD_none, List.getElem?_eq_none hk]

end Pattern

section
variable [Level R] {plan : Plan R} {p : Pattern R}

namespace Lane

variable (l : Lane) (s : Stage R) (plan : Plan R)

/-- What follows a hold begins as much later as the hold lasts. -/
theorem playHold_start {q : Position R} {x : Hold R} (hq : q.segment? = some (.hold x))
    (h : ¬(l.reported ∧ s.now < l.instant s.now)) :
    ∃ l', (l.playHold plan s q).next = [.lane l' (.ofPosition q.pattern (q.advance 1))] ∧
      l'.start = .at (l.instant s.now + x.ms) := by
  unfold playHold
  dsimp only
  rw [if_neg h, hq]
  dsimp only
  by_cases hms : x.ms = 0
  · rw [if_pos hms, hms]
    exact ⟨_, rfl, rfl⟩
  · rw [if_neg hms]
    split <;> exact ⟨_, rfl, rfl⟩

end Lane

namespace Turn

variable {t : Turn R} {k t₀ : Nat}

/-- From one hold to the next, or to itself if it waits again, the timeline is kept. -/
theorem leaves_hold (holds : p.OnlyHolds) (hk : p.unroll k < p.segments.length)
    (task : t.task = .ofPosition p (p.unroll k)) (start : t.lane.start = .at (t₀ + p.onset k))
    {l' : Lane} {task' : Task R} (leaves : t.Leaves plan l' task') :
    task' = .ofPosition p (p.unroll (k + (t.block?.map (·.2)).getD 0)) ∧
      l'.start = .at (t₀ + p.onset (k + (t.block?.map (·.2)).getD 0)) := by
  obtain ⟨x, hx, hhold⟩ := holds.task hk
  rw [hhold] at task
  have hinstant := Lane.instant_at start t.stage.now
  obtain ⟨l'', hnext, heq⟩ := leaves
  have hstart : l'.start = l''.start := by rcases heq with rfl | rfl <;> rfl
  rw [hstart]
  by_cases hwaits : t.Waits
  · obtain ⟨m, hm, hmstart⟩ : ∃ m, (t.played plan).next = _ ∧ _ := waits_again task hwaits
    rw [hm] at hnext
    cases hnext
    have hblock : t.block? = none := by
      unfold block?
      rw [task]
      exact if_pos hwaits
    rw [hblock]
    exact ⟨hhold.symm, hmstart.trans start⟩
  · obtain ⟨m, hm, hmstart⟩ := t.lane.playHold_start t.stage plan
      (q := ⟨p, p.unroll k⟩) hx hwaits
    rw [played_hold task, hm] at hnext
    cases hnext
    have hblock : t.block? = some (p.unroll k, 1) := by
      unfold block?
      rw [task]
      exact if_neg hwaits
    have hlasts : p.lasts (p.unroll k) = x.ms := by
      rw [Pattern.lasts, hx]
      rfl
    rw [hblock]
    refine ⟨congrArg _ (Pattern.advance_eq k 1), ?_⟩
    rw [hmstart, hinstant, Option.map_some, Option.getD_some, Pattern.onset_succ, hlasts,
      Nat.add_assoc]

variable {ts : List (Turn R)} {P : Lane → Task R → Prop}

/-- On the way down a chain stays there. -/
theorem Linked.cleanup (L : Linked plan P ts) (h : ∀ l task, P l task → task.isCleanup = true) :
    ∀ t ∈ ts, t.task.isCleanup = true := by
  induction L with
  | nil => exact fun _ ht => absurd ht List.not_mem_nil
  | @cons P t ts first rest ih =>
    intro u hu
    rcases List.mem_cons.mp hu with rfl | hu
    · exact h _ _ first
    · refine ih (fun l task hleaves => ?_) u hu
      obtain ⟨l', hnext, -⟩ := hleaves
      obtain ⟨_, _, heq, hcleanup⟩ := t.lane.play_cleanup t.stage plan (h _ _ first) _
        (hnext ▸ List.mem_singleton_self _)
      cases heq
      exact hcleanup

/-- Along a chain each hold begins when those before it are over. -/
theorem Linked.onset (L : Linked plan P ts) (holds : p.OnlyHolds)
    (stands : ∀ l task, P l task →
      task = .ofPosition p (p.unroll k) ∧ l.start = .at (t₀ + p.onset k))
    {before after : List (Turn R)} {q : Position R} (hts : ts = before ++ t :: after)
    (task : t.task = .hold q) :
    q = ⟨p, p.unroll (k + consumed before)⟩ ∧
      t.lane.start = .at (t₀ + p.onset (k + consumed before)) := by
  induction L generalizing k before with
  | nil => exact absurd hts.symm (List.append_ne_nil_of_right_ne_nil _ (List.cons_ne_nil _ _))
  | @cons P u ts first rest ih =>
    obtain ⟨hu, hstart⟩ := stands _ _ first
    by_cases hk : p.unroll k < p.segments.length
    · cases before with
      | nil =>
        cases hts
        obtain ⟨x, -, hhold⟩ := holds.task hk
        rw [hu, hhold] at task
        cases task
        exact ⟨rfl, hstart⟩
      | cons b before =>
        cases hts
        rw [consumed_cons, ← Nat.add_assoc]
        exact ih (fun l task => leaves_hold holds hk hu hstart) rfl
    · -- The effect completes here, so no hold follows.
      have hcomplete := hu.trans (Pattern.task_past (Nat.not_lt.mp hk))
      have hall := (Linked.cons (P := fun l task => task.isCleanup = true)
        (hcomplete ▸ rfl) rest).cleanup fun _ _ h => h
      have ht := hall t (hts ▸ List.mem_append_right _ List.mem_cons_self)
      rw [task] at ht
      cases ht

end Turn

theorem Turn.chain_sublist (plan : Plan R) (i : Option Nat) (ts : List (Turn R)) :
    (chain plan i ts).Sublist ts := by
  induction ts generalizing i with
  | nil => exact .slnil
  | cons t ts ih =>
    unfold chain
    split
    · exact (ih _).cons_cons t
    · exact (ih _).cons t

/-- A first step plays its effect from the beginning, and from a certain instant on. -/
theorem Run.of_mem_firsts {r : Run R} {ms : List (Move R)} {x : Lane × Task R × Effect R}
    (h : x ∈ r.firsts ms) : x.2.1 = .ofEffect x.2.2 ∧ ∃ t₀, x.1.start = .at t₀ := by
  induction ms generalizing r with
  | nil => cases h
  | cons m ms ih =>
    rcases List.mem_append.mp h with h | h
    · obtain ⟨y, -, hy⟩ := List.mem_flatMap.mp h
      cases y with
      | start v t => exact ⟨Stage.task_issueFirst _ x hy, _, r.stage.start_issueFirst _ x hy⟩
      | lane | finish => cases hy
    · exact ih h

/-- If a pattern of holds is first scheduled at the instant `t₀`, the hold that comes after `k`
others begins at `t₀` and the sum of their durations, and is not played before. -/
theorem Run.onset_moves (plan : Plan R) (v : Vibration R) (rig : Rig R) (asked : Nat)
    (ms : List (Move R)) {l : Lane} {task : Task R} (holds : p.OnlyHolds)
    (h : (l, task, .pattern p) ∈ (fresh plan v rig asked).firsts ms) :
    ∃ t₀, l.start = .at t₀ ∧ ∀ before t after q,
      Turn.chain plan (some l.id) ((fresh plan v rig asked).turns ms) = before ++ t :: after →
      t.task = .hold q →
        q = ⟨p, p.unroll (Turn.consumed before)⟩ ∧
        t.lane.start = .at (t₀ + p.onset (Turn.consumed before)) ∧
        (¬t.Waits → t₀ + p.onset (Turn.consumed before) ≤ t.stage.now) := by
  obtain ⟨htask, t₀, hstart⟩ := of_mem_firsts h
  refine ⟨t₀, hstart, fun before t after q hts hold => ?_⟩
  have L := linked_of_first plan v rig asked h
  have hfirst : ∀ l' task', (l' = l ∨ l' = l.heard) ∧ task' = task →
      task' = .ofPosition p (p.unroll 0) ∧ l'.start = .at (t₀ + p.onset 0) := by
    rintro l' task' ⟨rfl | rfl, rfl⟩
    · exact ⟨htask, hstart⟩
    · exact ⟨htask, hstart⟩
  obtain ⟨hq, honset⟩ := L.onset holds hfirst hts hold
  rw [Nat.zero_add] at hq honset
  refine ⟨hq, honset, fun plays => ?_⟩
  have hmem : t ∈ (fresh plan v rig asked).turns ms :=
    (Turn.chain_sublist plan _ _).subset (hts ▸ List.mem_append_right _ List.mem_cons_self)
  have hinstant := Lane.instant_at honset t.stage.now
  rcases (fresh_ripe plan v rig asked).turns (fresh_kept plan v rig asked) t hmem with
    ⟨l', task', heq, reported⟩ | due
  · cases heq
    rw [← hinstant]
    exact Nat.not_lt.mp fun early => plays ⟨reported, early⟩
  · have hdue : t.lane.start.isDue t.stage.now = true := due
    rw [honset] at hdue
    exact of_decide_eq_true hdue

end

namespace Run

/-! ## A waveform that is played early and late -/

/-- A long hold, and then a short one and a pause over and over. -/
def pulse : Pattern Rat :=
  .waveform [1000, 50, 500] [.level 1, .level (1 / 2), .level 0] (some 1)

/-- The motor reports at once and is turned back on, and every hold after that is played late. -/
def hurried : List (Move Rat) :=
  [.play, .world (·.moveTo 400), .hear (.stepComplete 0 1 1), .play, .world (·.moveTo 1010), .play,
    .world (·.moveTo 1100), .play, .world (·.moveTo 1600), .play]

theorem onset_moves_hurried : let r := bench (.mono (.pattern pulse)) [0]
    let l : Lane := { id := 1, start := .at 0, actuator := 0, deadline := .idle }
    pulse.OnlyHolds ∧ (l, .hold ⟨pulse, 0⟩, .pattern pulse) ∈ r.firsts hurried ∧
      ∃ t₀, l.start = .at t₀ ∧ ∀ before t after q,
        Turn.chain r.plan (some l.id) (r.turns hurried) = before ++ t :: after →
        t.task = .hold q →
          q = ⟨pulse, pulse.unroll (Turn.consumed before)⟩ ∧
          t.lane.start = .at (t₀ + pulse.onset (Turn.consumed before)) ∧
          (¬t.Waits → t₀ + pulse.onset (Turn.consumed before) ≤ t.stage.now) :=
  have holds : pulse.OnlyHolds := Pattern.onlyHolds_waveform _ _ _
  have h : (({ id := 1, start := .at 0, actuator := 0, deadline := .idle } : Lane),
      Task.hold ⟨pulse, 0⟩, .pattern pulse) ∈ (bench (.mono (.pattern pulse)) [0]).firsts hurried :=
    List.mem_cons_self
  ⟨holds, h, onset_moves _ _ _ _ _ holds h⟩

example : let r := bench (.mono (.pattern pulse)) [0]
    (Turn.chain r.plan (some 1) (r.turns hurried)).map (fun t => (t.stage.now, t.lane.start)) =
      [(0, .at 0), (400, .at 1000), (1010, .at 1000), (1100, .at 1050), (1600, .at 1550)] := by
  decide +kernel

end Run
end Haptics
