import Haptics.Proofs.Budget
import Haptics.Proofs.TurningBack

/-!
# The way down

What the end of an effect leads to is settled by its turn: whenever the steps that it leaves are
played, and whatever the hardware does, they follow one another as `Turn.Unfolds` says unless a
report or a cancel comes in between. If the amplitude and the time are enough for it, the actuator
goes down by equal amounts at equal distances and is stopped (`Turn.WayDown`). Otherwise nothing is
programmed, and it is stopped at once or when its last drive is over (`Turn.TurnsOff`).
-/

namespace Haptics

variable {R : Type}

section
variable [Level R] {plan : Plan R}

namespace Turn

/-- What a turn on the way down does: it programs an amplitude, or it stops the actuator. -/
inductive Performs (plan : Plan R) (t : Turn R) : Prop
  | programs {target delta : R} {ok : Bool} (task : t.task = .rampOff target delta)
      (does : t.stage.Does t.lane.actuator [.setAmplitude t.lane.actuator target ok]
        (t.played plan).stage)
  | stops (task : t.task = .turnOff)
      (does : t.stage.Does t.lane.actuator [.stop t.lane.actuator] (t.played plan).stage)

/-- The starts and the tasks of the steps that follow a turn, all for its actuator, one after the
other, whenever they are played and whatever the hardware did until then. None of them was reported
by then, but for one that turns off. -/
inductive Unfolds (plan : Plan R) : Turn R → List (StartTime × Task R) → Prop
  | done {t} (next : (t.played plan).next = []) : Unfolds plan t []
  | step {t l task way} (next : (t.played plan).next = [.lane l task])
      (actuator : l.actuator = t.lane.actuator)
      (performs : ∀ u : Turn R, u.task = task →
        (u.lane = l ∨ task = .turnOff ∧ u.lane = l.heard) → u.Performs plan)
      (rest : ∀ u : Turn R, u.task = task →
        (u.lane = l ∨ task = .turnOff ∧ u.lane = l.heard) → Unfolds plan u way) :
      Unfolds plan t ((l.start, task) :: way)

/-- The turn leaves one step for its actuator, which was not reported yet. -/
structure Passes (plan : Plan R) (t : Turn R) (start : StartTime) (deadline : Deadline)
    (task : Task R) (l : Lane) : Prop where
  next : (t.played plan).next = [.lane l task]
  start : l.start = start
  deadline : l.deadline = deadline
  actuator : l.actuator = t.lane.actuator
  unreported : l.reported = false

/-- What is linked to a turn is what it unfolds into, as far as it was played, if no step was
reported but one that turns off. -/
theorem Unfolds.linked {t : Turn R} {way : List (StartTime × Task R)} (U : t.Unfolds plan way)
    {us : List (Turn R)} (H : Linked plan (t.Leaves plan) us)
    (quiet : ∀ u ∈ us, u.lane.reported = true → u.task = .turnOff) :
    us.map (fun u => (u.lane.start, u.task)) <+: way ∧ ∀ u ∈ us, u.Performs plan := by
  induction us generalizing t way with
  | nil => exact ⟨List.nil_prefix, fun _ hu => absurd hu List.not_mem_nil⟩
  | cons u us ih =>
    obtain _ | ⟨⟨l', hnext', hlane⟩, rest⟩ := H
    cases U with
    | done hnext =>
      rw [hnext] at hnext'
      cases hnext'
    | step hnext _ performs unfolds =>
      rw [hnext] at hnext'
      cases hnext'
      have hsame : u.lane = l' ∨ u.task = .turnOff ∧ u.lane = l'.heard :=
        hlane.imp_right fun heard => ⟨quiet u List.mem_cons_self (by rw [heard]; rfl), heard⟩
      obtain ⟨hfirst, hperforms⟩ := ih (unfolds u rfl hsame) rest fun w hw =>
        quiet w (List.mem_cons_of_mem u hw)
      refine ⟨?_, fun w hw => ?_⟩
      · rw [List.map_cons, (Lane.same_of_heard hlane).2.2]
        exact List.cons_prefix_cons.mpr ⟨rfl, hfirst⟩
      · rcases List.mem_cons.mp hw with rfl | hw
        · exact performs w rfl hsame
        · exact hperforms w hw

section
variable {t : Turn R} {s : Stage R} {l : Lane} {start : StartTime} {task : Task R} {n : Int}
  (h : t.played plan = .followed s l start task n)
include h

theorem passes_of_followed (actuator : l.actuator = t.lane.actuator) :
    ∃ l', t.Passes plan start l.deadline task l' :=
  ⟨{ id := s.nextStep, start, actuator := l.actuator, deadline := l.deadline },
    by rw [h]; rfl, rfl, rfl, actuator, rfl⟩

theorem does_of_followed {a : ActuatorId} {ds : List (Deed R)} (does : t.stage.Does a ds s) :
    t.stage.Does a ds (t.played plan).stage := by
  rw [h, ← List.append_nil ds]
  exact does.trans (.issue start l.actuator l.deadline task)

end

variable {t : Turn R} {target delta : R}

theorem played_turnOff (task : t.task = .turnOff) : t.Performs plan ∧ t.Unfolds plan [] := by
  have hplayed : t.played plan = ⟨t.stage.stop t.lane, [], 0⟩ := by
    rw [played, task]
    rfl
  refine ⟨.stops task ?_, .done (by rw [hplayed])⟩
  rw [hplayed]
  exact .stop t.lane

/-- After a step that turns off there is nothing more. -/
theorem Passes.unfolds_turnOff {start : StartTime} {deadline : Deadline} {l : Lane}
    (H : t.Passes plan start deadline .turnOff l) : t.Unfolds plan [(start, .turnOff)] := by
  rw [← H.start]
  exact .step H.next H.actuator (fun u hu _ => (played_turnOff hu).1)
    fun u hu _ => (played_turnOff hu).2

variable (plan) in
theorem played_rampOff (task : t.task = .rampOff target delta)
    (unreported : t.lane.reported = false) : t.played plan =
      if target - delta < Level.faint then
        .followed (t.stage.setAmplitude t.lane target) t.lane (t.lane.deadline.turnOff t.stage.now)
          .turnOff 0
      else
        .followed (t.stage.setAmplitude t.lane target) t.lane
          (.at (t.lane.instant t.stage.now + plan.tuning.rampStep))
          (.rampOff (target - delta) delta) 0 := by
  rw [played, task]
  show t.lane.playRampOff plan t.stage target delta = _
  rw [Lane.playRampOff, unreported, if_neg Bool.false_ne_true]

theorem performs_rampOff (task : t.task = .rampOff target delta)
    (unreported : t.lane.reported = false) : t.Performs plan := by
  obtain ⟨ok, hset⟩ := Stage.Does.setAmplitude (s := t.stage) t.lane target
  have hplayed := played_rampOff plan task unreported
  split at hplayed
  · exact .programs task (does_of_followed hplayed hset)
  · exact .programs task (does_of_followed hplayed hset)

/-- A step that programs an amplitude is played as it was left. -/
theorem Passes.unfolds_rampOff {start : Nat} {deadline : Deadline} {l : Lane}
    {ways : List (StartTime × Task R)}
    (P : t.Passes plan (.at start) deadline (.rampOff target delta) l)
    (rest : ∀ u : Turn R, u.lane.deadline = deadline → (u.played plan =
      if target - delta < Level.faint then
        .followed (u.stage.setAmplitude u.lane target) u.lane (deadline.turnOff u.stage.now)
          .turnOff 0
      else
        .followed (u.stage.setAmplitude u.lane target) u.lane (.at (start + plan.tuning.rampStep))
          (.rampOff (target - delta) delta) 0) → u.Unfolds plan ways) :
    t.Unfolds plan ((.at start, .rampOff target delta) :: ways) := by
  have hlane : ∀ u : Turn R, (u.lane = l ∨ Task.rampOff target delta = .turnOff ∧
      u.lane = l.heard) → u.lane = l := fun u hu => hu.resolve_right nofun
  have hunreported : ∀ u : Turn R, u.lane = l → u.lane.reported = false :=
    fun u hu => hu ▸ P.unreported
  rw [← P.start]
  refine .step P.next P.actuator (fun u hu h => performs_rampOff hu (hunreported u (hlane u h)))
    fun u hu h => ?_
  have hl := hlane u h
  have hplayed := played_rampOff plan hu (hunreported u hl)
  have hdeadline : u.lane.deadline = deadline := hl ▸ P.deadline
  have hinstant : u.lane.instant u.stage.now = start := Lane.instant_at (hl ▸ P.start) _
  rw [hinstant, hdeadline] at hplayed
  exact rest u hdeadline hplayed

/-! ## The end of an effect -/

/-- The amplitude that the actuator has when its turn comes. -/
def amplitude (t : Turn R) : R := t.stage.rig.amplitude t.lane.actuator

/-- How long the actuator may ramp down for: as long as it is configured to, but no longer than its
last drive is expected to last. -/
def rampTime (plan : Plan R) (t : Turn R) : Nat := t.lane.rampDownTime plan.tuning t.stage.now

/-- There are amplitude and time enough to ramp down. -/
structure MayRamp (plan : Plan R) (t : Turn R) : Prop where
  loud : ¬t.amplitude < Level.faint
  step : 0 < plan.tuning.rampStep
  long : plan.tuning.rampStep < t.rampTime plan

/-- By how much each amplitude is below the one before. -/
def drop (plan : Plan R) (t : Turn R) : R :=
  t.amplitude / ((t.rampTime plan / plan.tuning.rampStep : Nat) : R)

/-- Until when the steps on the way down wait for a report: as long as before, or for as long as the
way down takes if the effect was cut short. -/
def waitsUntil (plan : Plan R) (t : Turn R) (cancelled : Bool) : Deadline :=
  if cancelled then .at (t.stage.now + t.rampTime plan) (t.lane.deadline.awaiting?.getD t.lane.id)
  else t.lane.deadline

section
variable {cancelled : Bool} (task : t.task = .complete cancelled)
  (unreported : t.lane.reported = false)
include task unreported

theorem played_complete : t.played plan =
    if t.amplitude < Level.faint ∨ plan.tuning.rampStep = 0 ∨
        t.rampTime plan ≤ plan.tuning.rampStep then
      if cancelled then ⟨t.stage.stop t.lane, [], 0⟩
      else .followed t.stage t.lane (t.lane.deadline.turnOff t.stage.now) .turnOff 0
    else
      .followed t.stage { t.lane with deadline := t.waitsUntil plan cancelled }
        (.at (t.lane.instant t.stage.now))
        (.rampOff (t.amplitude - t.drop plan) (t.drop plan)) 0 := by
  rw [played, task]
  show t.lane.playComplete plan t.stage cancelled = _
  rw [Lane.playComplete, unreported, if_neg Bool.false_ne_true]
  cases cancelled <;> rfl

theorem MayRamp.played (H : t.MayRamp plan) : t.played plan =
    .followed t.stage { t.lane with deadline := t.waitsUntil plan cancelled }
      (.at (t.lane.instant t.stage.now))
      (.rampOff (t.amplitude - t.drop plan) (t.drop plan)) 0 := by
  rw [played_complete task unreported]
  exact if_neg fun h => by
    rcases h with h | h | h
    · exact H.loud h
    · exact Nat.ne_of_gt H.step h
    · exact Nat.not_le.mpr H.long h

theorem played_of_not_mayRamp (h : ¬t.MayRamp plan) : t.played plan =
    if cancelled then ⟨t.stage.stop t.lane, [], 0⟩
    else .followed t.stage t.lane (t.lane.deadline.turnOff t.stage.now) .turnOff 0 := by
  rw [played_complete task unreported]
  refine if_pos ?_
  by_contra hnot
  rw [not_or, not_or] at hnot
  exact h ⟨hnot.1, Nat.pos_of_ne_zero hnot.2.1, Nat.not_le.mp hnot.2.2⟩

end

end Turn

/-- In a run, what follows a step in the queue is what its turn unfolds into. -/
theorem Run.Flying.unfolds {r : Run R} {v : Vibration R} {asked : Nat} {ids : List ActuatorId}
    {l : Lane} {task : Task R} (F : r.Flying v asked ids) {n : Int}
    (started : r.stage.startResult = some n) (h : .lane l task ∈ r.queue.items)
    {ms : List (Move R)} {t : Turn R} {us : List (Turn R)} {way : List (StartTime × Task R)}
    (chain : Turn.chain r.plan (some l.id) (r.turns ms) = t :: us) (U : t.Unfolds r.plan way)
    (quiet : ∀ u ∈ us, u.lane.reported = true → u.task = .turnOff) :
    us.map (fun u => (u.lane.start, u.task)) <+: way ∧ ∀ u ∈ us, u.Performs r.plan := by
  have hlinked := F.linked started h ms
  rw [chain] at hlinked
  obtain _ | ⟨-, rest⟩ := hlinked
  exact U.linked rest quiet

end

/-! ## How far it goes down -/

namespace Turn

/-- `n` amplitudes below `a` and when to program them: `delta` after `delta`, from an instant on. -/
def descent (a delta : Rat) (start step n : Nat) : List (Nat × Rat) :=
  (List.range n).map fun j => (start + j * step, a - (j + 1) * delta)

/-- The steps on the way down. -/
def way (xs : List (Nat × Rat)) (delta : Rat) (off : StartTime) : List (StartTime × Task Rat) :=
  xs.map (fun x => (.at x.1, .rampOff x.2 delta)) ++ [(off, .turnOff)]

theorem descent_succ (a delta : Rat) (start step n : Nat) :
    descent a delta start step (n + 1) =
      (start, a - delta) :: descent (a - delta) delta (start + step) step n := by
  unfold descent
  rw [List.range_succ_eq_map, List.map_cons, List.map_map]
  congr 1
  · simp
  · refine List.map_congr_left fun j _ => Prod.ext ?_ ?_
    · simp only [Function.comp_apply, Nat.succ_mul]
      omega
    · simp only [Function.comp_apply, Nat.succ_eq_add_one]
      push_cast
      ring

section
variable {a delta : Rat} {start step n k d : Nat}

theorem falling_descent (down : 0 < delta) :
    ((descent a delta start step n).map (·.2)).Pairwise (· > ·) := by
  refine List.pairwise_map.mpr (List.pairwise_map.mpr (List.pairwise_lt_range.imp ?_))
  intro i j hij
  have hcast : (i : Rat) < j := Nat.cast_lt.mpr hij
  have hmul := mul_lt_mul_of_pos_right hcast down
  show a - (j + 1) * delta < a - (i + 1) * delta
  linarith

/-- As long as there are no more steps than lead down to zero, none goes below it. -/
theorem amplitude_descent (down : 0 < delta) (all : (k : Rat) * delta = a) (fits : n ≤ k) :
    ∀ x ∈ descent a delta start step n, 0 ≤ x.2 ∧ x.2 < a := by
  intro x hx
  obtain ⟨j, hj, rfl⟩ := List.mem_map.mp hx
  have hle : (j : Rat) + 1 ≤ k := by
    exact_mod_cast Nat.le_trans (List.mem_range.mp hj) fits
  have hbelow := mul_le_mul_of_nonneg_right hle down.le
  have hpos : 0 < ((j : Rat) + 1) * delta := mul_pos (by positivity) down
  rw [all] at hbelow
  exact ⟨sub_nonneg.mpr hbelow, sub_lt_self _ hpos⟩

theorem start_descent (pos : 0 < step) (fits : n ≤ d / step) :
    ∀ x ∈ descent a delta start step n, x.1 < start + d := by
  intro x hx
  obtain ⟨j, hj, rfl⟩ := List.mem_map.mp hx
  have hlt : j < d / step := Nat.lt_of_lt_of_le (List.mem_range.mp hj) fits
  have hmul := Nat.mul_lt_mul_of_pos_right hlt pos
  exact Nat.add_lt_add_left (Nat.lt_of_lt_of_le hmul (Nat.div_mul_le_self d step)) start

end

variable {plan : Plan Rat} {t : Turn Rat}

/-- From one amplitude on it goes down as long as what comes next is not too faint. -/
theorem Passes.unfolds_descent {n start : Nat} {target delta : Rat} {off : StartTime}
    {deadline : Deadline} {l : Lane}
    (P : t.Passes plan (.at start) deadline (.rampOff target delta) l)
    (hoff : ∀ now, deadline.turnOff now = off)
    (loud : ∀ j < n, ¬target - (j + 1) * delta < Level.faint)
    (faint : target - (n + 1) * delta < Level.faint) :
    t.Unfolds plan ((.at start, .rampOff target delta) ::
      way (descent target delta (start + plan.tuning.rampStep) plan.tuning.rampStep n)
        delta off) := by
  induction n generalizing t start target l with
  | zero =>
    have hfaint : target - delta < Level.faint := by simpa using faint
    refine P.unfolds_rampOff fun u _ hplayed => ?_
    rw [if_pos hfaint, hoff] at hplayed
    obtain ⟨l', P'⟩ := passes_of_followed hplayed rfl
    exact P'.unfolds_turnOff
  | succ n ih =>
    have hloud : ¬target - delta < Level.faint := by simpa using loud 0 (Nat.succ_pos n)
    have hshift : ∀ m : Rat, target - delta - m * delta = target - (m + 1) * delta :=
      fun m => by ring
    refine P.unfolds_rampOff fun u hdeadline hplayed => ?_
    rw [if_neg hloud] at hplayed
    obtain ⟨l', P'⟩ := passes_of_followed hplayed rfl
    rw [descent_succ]
    refine ih (hdeadline ▸ P') (fun j hj => ?_) ?_
    · have hnext := loud (j + 1) (Nat.succ_lt_succ hj)
      rw [hshift]
      exact_mod_cast hnext
    · rw [hshift]
      exact_mod_cast faint

/-- An effect that ends by going down: it leads to the amplitudes `xs` and then to one stop. -/
structure WayDown (plan : Plan Rat) (t : Turn Rat) (cancelled : Bool) (xs : List (Nat × Rat))
    (off : StartTime) : Prop where
  /-- The turn itself does nothing to the actuator. -/
  silent : t.stage.Does t.lane.actuator [] (t.played plan).stage
  unfolds : t.Unfolds plan (way xs (t.drop plan) off)
  count : 0 < xs.length ∧ xs.length ≤ t.rampTime plan / plan.tuning.rampStep
  starts : xs.map (·.1) = (List.range xs.length).map
    (t.lane.instant t.stage.now + · * plan.tuning.rampStep)
  falling : (xs.map (·.2)).Pairwise (· > ·)
  amplitudes : ∀ x ∈ xs, 0 ≤ x.2 ∧ x.2 < t.amplitude
  inTime : ∀ x ∈ xs, x.1 < t.lane.instant t.stage.now + t.rampTime plan
  off : off = if cancelled then .at (t.stage.now + t.rampTime plan)
    else t.lane.deadline.turnOff t.stage.now

/-- An effect that ends when the last drive is over: it leads to one stop. -/
structure TurnsOff (plan : Plan Rat) (t : Turn Rat) (off : StartTime) : Prop where
  silent : t.stage.Does t.lane.actuator [] (t.played plan).stage
  unfolds : t.Unfolds plan [(off, .turnOff)]
  idle : t.lane.deadline = .idle → off = .at t.stage.now
  known s i : t.lane.deadline = .at s i → off = .at s
  /-- If it is not known when the drive is over, its report releases the step that stops. -/
  unknown i : t.lane.deadline = .indefinite i → off = .whenComplete ∧
    ∀ l, (t.played plan).next = [.lane l .turnOff] →
      ∀ now, l.accept t.lane.actuator (some i) now = (true, l.heard)

/-- An effect that ends by stopping its actuator at once. -/
structure Stops (plan : Plan Rat) (t : Turn Rat) : Prop where
  stops : t.stage.Does t.lane.actuator [.stop t.lane.actuator] (t.played plan).stage
  nothing : t.Unfolds plan []

theorem MayRamp.drop_pos (H : t.MayRamp plan) : 0 < t.drop plan :=
  div_pos (Lane.Proceeds.pos_of_loud H.loud)
    (Nat.cast_pos.mpr (Nat.div_pos (Nat.le_of_lt H.long) H.step))

/-- All steps that there is time for lead down to zero. -/
theorem MayRamp.mul_drop (H : t.MayRamp plan) :
    ((t.rampTime plan / plan.tuning.rampStep : Nat) : Rat) * t.drop plan = t.amplitude := by
  have hpos := Nat.div_pos (Nat.le_of_lt H.long) H.step
  exact mul_div_cancel₀ _ (Nat.cast_ne_zero.mpr (Nat.ne_of_gt hpos))

/-- When the step that stops is to be played does not depend on when it is issued. -/
theorem MayRamp.turnOff_waitsUntil (H : t.MayRamp plan) (cancelled : Bool) (now : Nat) :
    (t.waitsUntil plan cancelled).turnOff now =
      if cancelled then .at (t.stage.now + t.rampTime plan)
      else t.lane.deadline.turnOff t.stage.now := by
  cases cancelled with
  | true => rfl
  | false =>
    have hlong := H.long
    unfold rampTime Lane.rampDownTime at hlong
    unfold waitsUntil
    cases hdeadline : t.lane.deadline with
    | idle => simp [hdeadline, Deadline.remaining?] at hlong
    | «at» | indefinite => rfl

/-- How often the amplitude can fall before it is too faint. -/
theorem MayRamp.exists_count (H : t.MayRamp plan) : ∃ n,
    n + 1 ≤ t.rampTime plan / plan.tuning.rampStep ∧
      (∀ j < n, ¬t.amplitude - (j + 2) * t.drop plan < Level.faint) ∧
      t.amplitude - (n + 2) * t.drop plan < Level.faint := by
  have hfaint : (0 : Rat) < Level.faint := by decide +kernel
  have hpos := Nat.div_pos (Nat.le_of_lt H.long) H.step
  -- One step more than there is time for would lead below zero.
  obtain ⟨k, hk⟩ := Nat.exists_eq_add_of_lt hpos
  have hlast : t.amplitude - ((k : Rat) + 2) * t.drop plan < Level.faint := by
    have hmul := H.mul_drop
    rw [hk] at hmul
    push_cast at hmul
    have hdrop := H.drop_pos
    refine lt_trans ?_ hfaint
    linarith
  classical
  have hex : ∃ n : Nat, t.amplitude - ((n : Rat) + 2) * t.drop plan < Level.faint := ⟨k, hlast⟩
  exact ⟨Nat.find hex, by have := Nat.find_le (h := hex) hlast; omega,
    fun j hj => Nat.find_min hex hj, Nat.find_spec hex⟩

variable {cancelled : Bool} (task : t.task = .complete cancelled)
  (unreported : t.lane.reported = false)
include task unreported

theorem MayRamp.exists_wayDown (H : t.MayRamp plan) :
    ∃ xs off, t.WayDown plan cancelled xs off := by
  obtain ⟨n, hn, hloud, hlast⟩ := H.exists_count
  have hplayed := H.played task unreported
  obtain ⟨l, P⟩ := passes_of_followed hplayed rfl
  have hshift : ∀ m : Rat, t.amplitude - t.drop plan - (m + 1) * t.drop plan =
      t.amplitude - (m + 2) * t.drop plan := fun m => by ring
  refine ⟨descent t.amplitude (t.drop plan) (t.lane.instant t.stage.now) plan.tuning.rampStep
      (n + 1), _, {
      silent := does_of_followed hplayed .rfl
      unfolds := ?_
      count := by simpa [descent] using hn
      starts := by simp [descent]
      falling := falling_descent H.drop_pos
      amplitudes := amplitude_descent H.drop_pos H.mul_drop hn
      inTime := start_descent H.step hn
      off := rfl }⟩
  rw [descent_succ]
  refine P.unfolds_descent (H.turnOff_waitsUntil cancelled) (fun j hj => ?_) ?_
  · rw [hshift]
    exact hloud j hj
  · rw [hshift]
    exact hlast

theorem turnsOff_of_not_mayRamp (h : ¬t.MayRamp plan) (natural : cancelled = false) :
    ∃ off, t.TurnsOff plan off := by
  subst natural
  have hplayed := played_of_not_mayRamp task unreported h
  rw [if_neg Bool.false_ne_true] at hplayed
  obtain ⟨l, P⟩ := passes_of_followed hplayed rfl
  refine ⟨_, does_of_followed hplayed .rfl, P.unfolds_turnOff, fun hidle => ?_, fun s i hat => ?_,
    fun i hi => ⟨?_, fun l' hnext now => ?_⟩⟩
  · rw [hidle]
    rfl
  · rw [hat]
    rfl
  · rw [hi]
    rfl
  · obtain rfl : l = l' := by
      rw [P.next] at hnext
      exact (Step.lane.inj (List.cons.inj hnext).1).1
    have hawaits : l.deadline.awaiting? = some i := by rw [P.deadline, hi]; rfl
    unfold Lane.accept
    rw [hawaits]
    dsimp only
    rw [if_pos ⟨P.actuator, by simp⟩, P.deadline, hi]
    rfl

theorem stops_of_not_mayRamp (h : ¬t.MayRamp plan) (cut : cancelled = true) : t.Stops plan := by
  subst cut
  have hplayed := played_of_not_mayRamp task unreported h
  rw [if_pos rfl] at hplayed
  refine ⟨?_, .done (by rw [hplayed])⟩
  rw [hplayed]
  exact .stop t.lane

/-- How an effect ends whose last drive was not reported over. -/
theorem ends_of_complete :
    (t.MayRamp plan → ∃ xs off, t.WayDown plan cancelled xs off) ∧
      (¬t.MayRamp plan → cancelled = true → t.Stops plan) ∧
      (¬t.MayRamp plan → cancelled = false → ∃ off, t.TurnsOff plan off) :=
  ⟨MayRamp.exists_wayDown task unreported, stops_of_not_mayRamp task unreported,
    turnsOff_of_not_mayRamp task unreported⟩

end Turn

/-! ## A motor that goes down in four steps -/

namespace Run

/-- A motor that ramps down, at the end of a hold. -/
def landing : Run Rat :=
  (fresh ⟨1, ⟨1000, "com.example"⟩, { Tuning.standard with rawRampDown := 20, rawGrace := 0 }⟩
    (.mono (.pattern (.waveform [30] [.level 1] none)))
    (Rig.init {
      catalogue := fun id => (.negotiated, {
        profile := { Profile.degraded id with
          capabilities := .ofList [.onCallback, .amplitudeControl] }
        manual := true })
      group := .fixed [0] }) 0).moves [.play, .world (·.moveTo 30)]

/-- The turn that ends the hold while the drive may still report. -/
def touchdown (deadline : Deadline) (cancelled : Bool) : Turn Rat :=
  ⟨landing.stage, { id := 2, start := .at 30, actuator := 0, deadline }, .complete cancelled⟩

end Run

namespace Turn

open Run (landing touchdown)

/-- The motor goes down while its drive lasts. Without a drive it is stopped. -/
theorem ends_of_complete_landing :
    .lane (touchdown (.at 50 1) false).lane (.complete false) ∈ landing.queue.items ∧
      (touchdown (.at 50 1) false).lane.reported = false ∧
      (∃ xs off, (touchdown (.at 50 1) false).WayDown landing.plan false xs off) ∧
      (touchdown .idle true).Stops landing.plan ∧
      ∃ off, (touchdown .idle false).TurnsOff landing.plan off :=
  have ramps : (touchdown (.at 50 1) false).MayRamp landing.plan :=
    ⟨by decide +kernel, by decide +kernel, by decide +kernel⟩
  have idle : ∀ cancelled, ¬(touchdown .idle cancelled).MayRamp landing.plan :=
    fun _ H => absurd H.long (by decide +kernel : ¬5 < 0)
  ⟨List.mem_cons_self, rfl, (ends_of_complete rfl rfl).1 ramps,
    (ends_of_complete rfl rfl).2.1 (idle true) rfl,
    (ends_of_complete rfl rfl).2.2 (idle false) rfl⟩

end Turn
end Haptics
