import Haptics.Proofs.OwnSteps
import Haptics.Proofs.Proceeding
import Mathlib.Algebra.Order.BigOperators.Group.List
import Mathlib.Algebra.Order.Floor.Semiring
import Mathlib.Data.Rat.Floor

/-!
# How many steps a run plays

A turn of an actuator leaves one step at most, and that one is nearer to the end of the effect: it
stands further on in the pattern, or lower on the way down. So every step is worth only so many
turns (`Step.worth`), and the only thing that makes a run longer is a report that releases a step
before its time: a hold then waits once more. The steps played in a run, what is still queued and
the releases balance (`Run.stepsPlayed_moves`), whatever the hardware answers and whoever cancels.
-/

namespace Haptics

/-! ## What a step is worth -/

/-- The most turns that an actuator takes for an effect that does not repeat, if it ramps down in
`n` steps: one for each segment, or for a vendor payload, and those after it. -/
def Effect.steps (n : Nat) : Effect Rat → Nat
  | pattern p => p.segments.length + 2 + n
  | vendor _ => 1 + 2 + n

/-- The most turns that a task and those that follow it take. -/
def Task.worth (n : Nat) : Task Rat → Nat
  | hold p | prebaked p | composition p | ramps p | envelope p =>
    max 1 (p.pattern.segments.length - p.index) + 2 + n
  | vendor _ => 1 + 2 + n
  | complete _ => 2 + n
  | rampOff target delta => max 1 ⌈target / delta⌉₊ + 1
  | turnOff => 1

/-- What the opening step is worth does not count the turns of the actuators that it starts. -/
def Step.worth (n : Nat) : Step Rat → Nat
  | start _ _ => 2
  | lane _ task => task.worth n
  | finish => 1

/-- The effect does not repeat. -/
def Effect.Ends {R : Type} : Effect R → Prop
  | pattern p => p.loopStart = none
  | vendor _ => True

/-- No effect repeats. -/
def Vibration.Ends {R : Type} : Vibration R → Prop
  | mono e => e.Ends
  | stereo entries => ∀ x ∈ entries, x.2.Ends

/-- The pattern does not repeat, and a way down goes down. -/
def Task.Ends : Task Rat → Prop
  | hold p | prebaked p | composition p | ramps p | envelope p => p.pattern.loopStart = none
  | vendor _ | complete _ | turnOff => True
  | rampOff _ delta => 0 < delta

def Step.Ends : Step Rat → Prop
  | start v _ => v.Ends
  | lane _ task => task.Ends
  | finish => True

namespace Task

variable {n : Nat} {task : Task Rat} {p : Position Rat}

theorem worth_of_position (h : task.position? = some p) :
    task.worth n = max 1 (p.pattern.segments.length - p.index) + 2 + n := by
  cases task <;> cases h <;> rfl

theorem ends_of_position (h : task.position? = some p) :
    task.Ends ↔ p.pattern.loopStart = none := by
  cases task <;> cases h <;> rfl

theorem worth_rampOff (target delta : Rat) :
    (rampOff target delta).worth n = max 1 ⌈target / delta⌉₊ + 1 := rfl

theorem worth_pos : 0 < task.worth n := by
  cases task <;> simp only [worth] <;> omega

variable {q : Pattern Rat} (once : q.loopStart = none) (i : Nat)
include once

/-- The task for a place is worth a turn for each segment from there on. -/
theorem worth_ofPosition : (ofPosition q i).worth n = (q.segments.length - i) + 2 + n := by
  by_cases hi : i < q.segments.length
  · have hmax : max 1 (q.segments.length - i) = q.segments.length - i :=
      Nat.max_eq_right (Nat.sub_pos_of_lt hi)
    rw [Task.ofPosition_eq (List.getElem?_eq_getElem hi)]
    cases q.segments[i] <;> exact congrArg (· + 2 + n) hmax
  · have hend := Nat.not_lt.mp hi
    unfold ofPosition
    dsimp only
    rw [if_pos hend, once, Option.getD_none, List.getElem?_eq_none hend, Nat.sub_eq_zero_of_le hend]
    exact congrArg (· + n) (Nat.zero_add 2).symm

theorem ends_ofPosition : (ofPosition q i).Ends := by
  unfold ofPosition
  dsimp only
  split
  · trivial
  all_goals exact once

end Task

theorem Task.worth_ofEffect {n : Nat} {e : Effect Rat} (h : e.Ends) :
    (Task.ofEffect e).worth n = e.steps n := by
  cases e with
  | pattern p => exact Task.worth_ofPosition h 0
  | vendor v => rfl

theorem Task.ends_ofEffect {e : Effect Rat} (h : e.Ends) : (Task.ofEffect e).Ends := by
  cases e with
  | pattern p => exact Task.ends_ofPosition h 0
  | vendor v => trivial

/-! ## What a turn costs -/

namespace Lane.Proceeds

variable {l : Lane} {plan : Plan Rat} {s : Stage Rat} {task : Task Rat} {p : Played Rat}

theorem pos_of_loud {x : Rat} (loud : ¬x < Level.faint) : 0 < x := by
  have hfaint : (0 : Rat) < Level.faint := by decide +kernel
  exact lt_of_lt_of_le hfaint (not_lt.mp loud)

/-- The way down in `k` steps is worth no more than `k` turns and the one that turns off. -/
theorem worth_ramp {n k : Nat} (pos : 0 < k) {x : Rat} (hx : 0 < x) :
    (Task.rampOff (x - x / (k : Rat)) (x / (k : Rat))).worth n ≤ k + 1 := by
  have hk : (k : Rat) ≠ 0 := Nat.cast_ne_zero.mpr (Nat.ne_of_gt pos)
  have hsteps : (x - x / (k : Rat)) / (x / (k : Rat)) = ((k - 1 : Nat) : Rat) := by
    rw [sub_div, div_self (div_ne_zero hx.ne' hk), div_div_cancel₀ hx.ne', Nat.cast_sub pos,
      Nat.cast_one]
  rw [Task.worth_rampOff, hsteps, Nat.ceil_natCast]
  omega

/-- Each step on the way down is worth a turn less than the one before. -/
theorem worth_lower {n : Nat} {target delta : Rat} (down : 0 < delta) (high : 0 < target - delta) :
    (Task.rampOff (target - delta) delta).worth n + 1 ≤ (Task.rampOff target delta).worth n := by
  have hratio : target / delta = (target - delta) / delta + 1 := by
    rw [sub_div, div_self down.ne', sub_add_cancel]
  have hpos : 0 < (target - delta) / delta := div_pos high down
  have hceil : ⌈target / delta⌉₊ = ⌈(target - delta) / delta⌉₊ + 1 := by
    rw [hratio, Nat.ceil_add_one hpos.le]
  have hone : 0 < ⌈(target - delta) / delta⌉₊ := Nat.ceil_pos.mpr hpos
  rw [Task.worth_rampOff, Task.worth_rampOff]
  omega

theorem ends (H : l.Proceeds plan s task p) (h : task.Ends) : ∀ x ∈ p.next, x.Ends := by
  cases H with
  | halt => exact fun _ hx => absurd hx List.not_mem_nil
  | wait => exact List.forall_mem_singleton.mpr h
  | advance position =>
    have once := (Task.ends_of_position position).mp h
    exact List.forall_mem_singleton.mpr (Task.ends_ofPosition once _)
  | vendor | turnOff => exact List.forall_mem_singleton.mpr trivial
  | ramp loud pos =>
    have hdelta := div_pos (pos_of_loud loud) (Nat.cast_pos.mpr pos)
    exact List.forall_mem_singleton.mpr hdelta
  | lower => exact List.forall_mem_singleton.mpr h

/-- A turn is paid for with what its step is worth, but for a hold that waits again. -/
theorem worth (H : l.Proceeds plan s task p) (h : task.Ends) {n : Nat}
    (hn : n = plan.tuning.rampDown / plan.tuning.rampStep) :
    (p.next.map (Step.worth n)).sum + 1 ≤ task.worth n ∨
      (l.reported = true ∧ s.now < l.instant s.now) ∧
        (p.next.map (Step.worth n)).sum ≤ task.worth n := by
  cases H with
  | halt => exact .inl task.worth_pos
  | wait early => exact .inr ⟨early, Nat.le_refl _⟩
  | @advance _ q c _ _ _ _ position pos =>
    refine .inl ?_
    have once := (Task.ends_of_position position).mp h
    have hnext : q.advance c = q.index + c := Pattern.advance_of_once once _ _
    have hworth : (Task.ofPosition q.pattern (q.advance c)).worth n + 1 ≤ task.worth n := by
      rw [Task.worth_ofPosition once, Task.worth_of_position position, hnext]
      omega
    exact hworth
  | vendor => exact .inl (Nat.le_of_eq (by show 2 + n + 1 = 1 + 2 + n; omega))
  | turnOff way =>
    refine .inl ?_
    show 1 + 1 ≤ task.worth n
    rcases way with ⟨cancelled, rfl⟩ | ⟨target, delta, rfl⟩
    · exact Nat.le_add_right 2 n
    · exact Nat.succ_le_succ (Nat.le_max_left ..)
  | ramp loud pos fits =>
    have hramp := worth_ramp (n := n) pos (pos_of_loud loud)
    refine .inl (Nat.le_trans (Nat.succ_le_succ hramp) ?_)
    show _ ≤ 2 + n
    omega
  | lower loud => exact .inl (worth_lower h (pos_of_loud loud))

end Lane.Proceeds

/-! ## Effects that do not repeat -/

section
variable {v : Vibration Rat} {plan : Plan Rat} {s : Stage Rat}

theorem Vibration.Ends.effects (h : v.Ends) : ∀ x ∈ s.effects v, x.2.Ends := by
  intro x hx
  have hmem := (List.mem_filter.mp hx).1
  cases v with
  | mono e =>
    obtain ⟨a, -, rfl⟩ := List.mem_map.mp hmem
    exact h
  | stereo entries => exact h x hmem

theorem Vibration.Ends.firsts (h : v.Ends) : ∀ x ∈ (s.issueFirst (s.effects v)).1, x.2.2.Ends := by
  intro x hx
  have hmem := List.mem_map_of_mem (f := fun x => (x.1.actuator, x.2.2)) hx
  rw [s.issueFirst_fst] at hmem
  exact h.effects _ hmem

theorem Step.ends_carried (plan : Plan Rat) : Carried plan Ends fun _ => True where
  accept {x} a step now h := by
    rcases Queue.accept_cases x a step now with heq | ⟨l, task, i, rfl, -, -, -, heq⟩ <;> rw [heq]
    · exact h
    · exact h
  turn {t} h _ := (t.lane.play_proceeds t.stage plan t.task).ends h
  remnants {now k xs} _ y hy := by
    obtain ⟨x, -, i, -, hy⟩ := mem_remnants hy
    cases x with
    | start => cases hy
    | lane l task =>
      obtain rfl := List.mem_singleton.mp hy
      show task.remnant.Ends
      unfold Task.remnant
      split <;> trivial
    | finish =>
      obtain rfl := List.mem_singleton.mp hy
      trivial
  firsts {s v t} h x hx := by
    have hends := Vibration.Ends.firsts h x hx
    have htask := Stage.task_issueFirst _ x hx
    show x.2.1.Ends
    rw [htask]
    exact Task.ends_ofEffect hends
  closing := trivial

/-! ## What the opening step costs -/

/-- Turns that are paid for one by one are paid for together. -/
theorem Turn.worth_flatMap {n : Nat} {ts : List (Turn Rat)}
    (h : ∀ t ∈ ts, ((t.played plan).next.map (Step.worth n)).sum + 1 ≤ t.task.worth n) :
    ((ts.flatMap fun t => (t.played plan).next).map (Step.worth n)).sum + ts.length ≤
      (ts.map (·.task.worth n)).sum := by
  induction ts with
  | nil => exact Nat.le_refl 0
  | cons t ts ih =>
    have hfirst := h t List.mem_cons_self
    have hrest := ih fun u hu => h u (List.mem_cons_of_mem t hu)
    rw [List.flatMap_cons, List.map_append, List.sum_append, List.length_cons, List.map_cons,
      List.sum_cons]
    omega

/-- The opening step costs no more turns than the effects take that it starts. -/
theorem Stage.worth_openVibration (h : v.Ends) {n : Nat}
    (hn : n = plan.tuning.rampDown / plan.tuning.rampStep) :
    ((s.openVibration plan v).next.map (Step.worth n)).sum +
        (s.turnsAll plan (s.effects v)).length ≤
      ((s.issueFirst (s.effects v)).1.map (·.2.2.steps n)).sum + 1 := by
  have hpaid : ∀ t ∈ s.turnsAll plan (s.effects v),
      ((t.played plan).next.map (Step.worth n)).sum + 1 ≤ t.task.worth n := by
    intro t ht
    obtain ⟨e, hfirst⟩ := s.first_of_turn plan ht
    have hends : t.task.Ends := (Step.ends_carried plan).firsts (s := s) (t := 0) h _ hfirst
    refine ((t.lane.play_proceeds t.stage plan t.task).worth hends hn).resolve_right ?_
    rintro ⟨⟨hreported, -⟩, -⟩
    rw [s.unreported_issueFirst _ _ hfirst] at hreported
    cases hreported
  have hturns : ((s.turnsAll plan (s.effects v)).map (·.task.worth n)).sum ≤
      ((s.issueFirst (s.effects v)).1.map (·.2.1.worth n)).sum := by
    have hsub := ((s.turnsAll_firsts plan (s.effects v)).sublist).map fun x => x.2.worth n
    rw [List.map_map, List.map_map] at hsub
    exact hsub.sum_le_sum fun _ _ => Nat.zero_le _
  have hfirsts : (s.issueFirst (s.effects v)).1.map (·.2.1.worth n) =
      (s.issueFirst (s.effects v)).1.map (·.2.2.steps n) := by
    refine List.map_congr_left fun x hx => ?_
    have htask := task_issueFirst _ x hx
    rw [htask]
    exact Task.worth_ofEffect (h.firsts x hx)
  have hleft : ((s.openVibration plan v).next.map (Step.worth n)).sum ≤
      (((s.turnsAll plan (s.effects v)).flatMap fun t => (t.played plan).next).map
        (Step.worth n)).sum + 1 := by
    have hsub := ((s.openAll_next plan (s.effects v)).map (Step.worth n)).sum_le_sum
      fun _ _ => Nat.zero_le _
    rw [next_openVibration, List.map_append, List.sum_append]
    refine Nat.add_le_add hsub ?_
    split
    · exact Nat.le_refl 1
    · exact Nat.zero_le 1
  have hall := Turn.worth_flatMap hpaid
  rw [hfirsts] at hturns
  omega

end

/-! ## What a queue is worth -/

namespace Queue

section
variable {α : Type} [Scheduled α]

@[simp] theorem released_extend (q : Queue α) (xs : List α) :
    (q.extend xs).released = q.released := by
  induction xs generalizing q with
  | nil => rfl
  | cons x xs ih => exact ih (q.push x)

theorem length_released_acceptCompletion (q : Queue α) (a : ActuatorId) (step : Option Nat)
    (now : Nat) : (q.acceptCompletion a step now).2.released.length =
      q.released.length + (q.acceptCompletion a step now).1.toNat := by
  unfold acceptCompletion
  split
  · exact List.length_append
  · rfl

end

/-- The turns that the steps of a queue are worth. A step that was released may wait once more. -/
def worth (n : Nat) (q : Queue (Step Rat)) : Nat :=
  (q.items.map (Step.worth n)).sum + q.released.length

variable {n : Nat} {q q' : Queue (Step Rat)}

theorem worth_of_items (h : q.items = []) : q.worth n = 0 := by
  have hreleased : q.released = [] := (List.append_eq_nil_iff.mp (List.map_eq_nil_iff.mp h)).1
  unfold worth
  rw [h, hreleased]
  rfl

theorem worth_extend (q : Queue (Step Rat)) (xs : List (Step Rat)) :
    (q.extend xs).worth n = (xs.map (Step.worth n)).sum + q.worth n := by
  have hitems := ((q.items_extend xs).map (Step.worth n)).sum_eq
  rw [List.map_append, List.sum_append] at hitems
  unfold worth
  rw [released_extend, hitems, Nat.add_assoc]

/-- A step that is taken out before its time was released. -/
theorem worth_popDue {now : Nat} {x : Step Rat} (K : q.Kept) (h : q.popDue now = some (x, q')) :
    x.worth n + q'.worth n ≤ q.worth n ∧ ((Scheduled.start x).isDue now = false →
      x.worth n + q'.worth n + 1 ≤ q.worth n) := by
  have hitems := items_of_popDue h
  obtain ⟨e, rfl, hpop⟩ := pops_of_popDue h
  unfold worth
  rw [hitems, List.map_cons, List.sum_cons]
  cases hpop with
  | released hreleased =>
    rw [hreleased, List.length_cons]
    dsimp only
    omega
  | timed _ htimed due =>
    have hstart := K.timed e (htimed ▸ List.mem_cons_self)
    dsimp only
    refine ⟨by omega, fun early => ?_⟩
    rw [hstart, early] at due
    cases due

theorem worth_accept (x : Step Rat) (a : ActuatorId) (step : Option Nat) (now : Nat) :
    (Scheduled.accept x a step now).2.worth n = x.worth n := by
  rcases accept_cases x a step now with h | ⟨l, task, i, rfl, -, -, -, h⟩ <;> rw [h]
  rfl

/-- A report is worth a turn for the step that it releases. -/
theorem worth_acceptCompletion (q : Queue (Step Rat)) (a : ActuatorId) (step : Option Nat)
    (now : Nat) : (q.acceptCompletion a step now).2.worth n =
      q.worth n + (q.acceptCompletion a step now).1.toNat := by
  have hmap : ((q.acceptCompletion a step now).2.items.map (Step.worth n)).Perm
      (q.items.map (Step.worth n)) :=
    map_acceptCompletion (Step.worth n) (fun x => worth_accept x a step now) q
  have hitems := hmap.sum_eq
  unfold worth
  rw [length_released_acceptCompletion, hitems, Nat.add_assoc]

theorem worth_acceptSynced (q : Queue (Step Rat)) (now : Nat) :
    (q.acceptSynced now).2.worth n = q.worth n + (q.acceptSynced now).1 := by
  unfold acceptSynced
  -- The invariant of the loop over the actuators: the reports accepted so far are what was added.
  refine List.foldlRecOn (motive := fun (p : Nat × Queue (Step Rat)) =>
    p.2.worth n = q.worth n + p.1) _ _ rfl ?_
  rintro ⟨k, q'⟩ hsofar a -
  have hk : q'.worth n = q.worth n + k := hsofar
  have hone := worth_acceptCompletion (n := n) q' a none now
  show (q'.acceptCompletion a none now).2.worth n =
    q.worth n + if (q'.acceptCompletion a none now).1 then k + 1 else k
  cases hok : (q'.acceptCompletion a none now).1 with
  | true =>
    rw [hok, Bool.toNat_true] at hone
    rw [if_pos rfl]
    omega
  | false =>
    rw [hok, Bool.toNat_false] at hone
    rw [if_neg Bool.false_ne_true]
    omega

end Queue

theorem Task.worth_remnant (n : Nat) (task : Task Rat) : task.remnant.worth n ≤ task.worth n := by
  cases task with
  | complete cancelled =>
    cases cancelled with
    | true => exact Nat.le_trans (Nat.le_succ 1) (Nat.le_add_right 2 n)
    | false => exact Nat.le_refl _
  | rampOff | turnOff => exact Task.worth_pos
  | hold | prebaked | composition | ramps | envelope | vendor =>
    exact Nat.add_le_add_right (Nat.le_add_left 2 _) n

/-- What a graceful cancel leaves is worth no more. -/
theorem Step.worth_remnants (n now k : Nat) (xs : List (Step Rat)) :
    ((remnants now k xs).map (worth n)).sum ≤ (xs.map (worth n)).sum := by
  induction xs generalizing k with
  | nil => exact Nat.le_refl 0
  | cons x xs ih =>
    rw [List.map_cons, List.sum_cons]
    cases x with
    | start => exact Nat.le_trans (ih k) (Nat.le_add_left ..)
    | lane l task => exact Nat.add_le_add (task.worth_remnant n) (ih (k + 1))
    | finish => exact Nat.add_le_add_left (ih k) 1

/-- A step that is due does not begin later. -/
theorem Lane.not_early {l : Lane} {now : Nat} (due : l.start.isDue now = true) :
    ¬now < l.instant now := by
  unfold instant
  cases hstart : l.start with
  | «at» t =>
    rw [hstart] at due
    exact Nat.not_lt.mpr (of_decide_eq_true due)
  | whenComplete | afterPending => exact Nat.lt_irrefl now

/-! ## What moves cost -/

namespace Stage

variable {R : Type} [Level R]

/-- How many steps are played in the playing of a step: the opening step also plays the first steps
of the actuators. -/
def plays (s : Stage R) (plan : Plan R) (x : Step R) : Nat :=
  (s.turns plan x).length + match x with
    | .lane _ _ => 0
    | .start _ _ | .finish => 1

end Stage

namespace Run

section
variable {R : Type} [Level R]

/-- The steps played in the course of some moves. -/
def stepsPlayed : Run R → List (Move R) → Nat
  | _, [] => 0
  | r, m :: ms => ((r.due m).map (r.stage.plays r.plan)).sum + (r.move m).stepsPlayed ms

omit [Level R] in
/-- How many steps a report releases. -/
def releases (r : Run R) : Move R → Nat
  | .hear (.stepComplete a _ i) => (r.queue.acceptCompletion a (some i) r.now).1.toNat
  | .hear (.syncedComplete _) => (r.queue.acceptSynced r.now).1
  | .play | .cancel _ | .world _ => 0

/-- How often a step accepts a report in the course of some moves. The report of a group is offered
to the steps of each actuator, as a report of that actuator would be. -/
def accepted : Run R → List (Move R) → Nat
  | _, [] => 0
  | r, m :: ms => r.releases m + (r.move m).accepted ms

end

/-- The turns that what is queued is worth. -/
def worth (r : Run Rat) : Nat :=
  r.queue.worth (r.plan.tuning.rampDown / r.plan.tuning.rampStep)

/-- The most turns of the effects that are started in the course of some moves. -/
def started (r : Run Rat) (ms : List (Move Rat)) : Nat :=
  ((r.firsts ms).map (·.2.2.steps (r.plan.tuning.rampDown / r.plan.tuning.rampStep))).sum

section
variable {r : Run Rat}

theorem worth_cancel (r : Run Rat) (mode : CancelMode) : (r.cancel mode).worth ≤ r.worth := by
  by_cases h : r.cancelled = some .immediate
  · have hsame : r.cancel mode = r := if_pos h
    rw [hsame]
  · cases mode with
    | immediate =>
      have hempty := isOver_iff.mp (r.isOver_cancel_immediate h)
      unfold worth
      rw [Queue.worth_of_items hempty]
      exact Nat.zero_le _
    | graceful =>
      have hplan : (r.cancel .graceful).plan = r.plan := (r.move_moved (.cancel .graceful)).plan
      unfold worth
      rw [hplan, r.cancel_graceful_eq h, Queue.worth_extend, Queue.worth_of_items rfl, Nat.add_zero]
      exact Nat.le_trans (Step.worth_remnants ..) (Nat.le_add_right ..)

theorem worth_hear (r : Run Rat) (e : Event) :
    (r.hear e).worth = r.worth + r.releases (.hear e) := by
  cases e with
  | stepComplete a v i => exact Queue.worth_acceptCompletion ..
  | syncedComplete v => exact Queue.worth_acceptSynced ..

/-- Playing a step is paid for with what it is worth and with the effects that it starts. -/
theorem worth_play {x : Step Rat} {q : Queue (Step Rat)} (K : r.queue.Kept) (ends : x.Ends)
    (h : r.queue.popDue r.now = some (x, q)) {n : Nat}
    (hn : n = r.plan.tuning.rampDown / r.plan.tuning.rampStep) :
    r.stage.plays r.plan x +
        (q.extend (r.stage.play r.plan x).next).worth n ≤
      r.queue.worth n + ((r.stage.firsts x).map (·.2.2.steps n)).sum := by
  obtain ⟨hpop, hearly⟩ := Queue.worth_popDue (n := n) K h
  rw [Queue.worth_extend]
  unfold Stage.plays
  cases x with
  | start v t =>
    have hopen : ((r.stage.openVibration r.plan v).next.map (Step.worth n)).sum +
        (r.stage.turnsAll r.plan (r.stage.effects v)).length ≤
          ((r.stage.issueFirst (r.stage.effects v)).1.map (·.2.2.steps n)).sum + 1 :=
      Stage.worth_openVibration ends hn
    have hworth : (Step.start v t : Step Rat).worth n = 2 := rfl
    show (r.stage.turnsAll r.plan (r.stage.effects v)).length + 1 +
      ((((r.stage.openVibration r.plan v).next.map (Step.worth n)).sum + q.worth n)) ≤
        r.queue.worth n + ((r.stage.issueFirst (r.stage.effects v)).1.map (·.2.2.steps n)).sum
    omega
  | lane l task =>
    have hworth : (Step.lane l task : Step Rat).worth n = task.worth n := rfl
    show 1 + 0 + (((l.play r.plan r.stage task).next.map (Step.worth n)).sum + q.worth n) ≤
      r.queue.worth n + 0
    rcases (l.play_proceeds r.stage r.plan task).worth ends hn with hpaid | ⟨⟨-, early⟩, hwaits⟩
    · omega
    · -- It would not wait if it had been taken out in its time.
      have hreleased := hearly (Bool.not_eq_true _ ▸ fun due => Lane.not_early due early)
      omega
  | finish =>
    have hworth : (Step.finish : Step Rat).worth n = 1 := rfl
    show 0 + 1 + (0 + q.worth n) ≤ r.queue.worth n + 0
    omega

/-- One move: the steps played are paid for with what was queued, with what is started and with the
reports that are accepted. -/
theorem worth_move (K : r.queue.Kept) (ends : ∀ x ∈ r.queue.items, x.Ends) (m : Move Rat) :
    ((r.due m).map (r.stage.plays r.plan)).sum + (r.move m).worth ≤
      r.worth + (((r.due m).flatMap r.stage.firsts).map
        (·.2.2.steps (r.plan.tuning.rampDown / r.plan.tuning.rampStep))).sum + r.releases m := by
  cases m with
  | play =>
    cases h : r.queue.popDue r.now with
    | none =>
      have hdue : r.due .play = [] := by rw [due, h]; rfl
      rw [hdue, r.move_play_of_none h]
      exact Nat.le_of_eq (Nat.zero_add _)
    | some y =>
      obtain ⟨x, q⟩ := y
      have hx := ends x (Queue.items_of_popDue h ▸ List.mem_cons_self)
      have hdue : r.due .play = [x] := by rw [due, h]; rfl
      have hplay : (r.move .play).worth = (q.extend (r.stage.play r.plan x).next).worth
          (r.plan.tuning.rampDown / r.plan.tuning.rampStep) := by
        rw [r.move_play h]
        rfl
      rw [hdue, hplay, List.flatMap_singleton, List.map_singleton, List.sum_singleton]
      exact worth_play K hx h rfl
  | hear e => exact Nat.le_of_eq ((Nat.zero_add _).trans (r.worth_hear e))
  | cancel mode => exact Nat.le_trans (Nat.le_of_eq (Nat.zero_add _)) (r.worth_cancel mode)
  | world f => exact Nat.le_of_eq (Nat.zero_add _)

/-- The balance of a run: the steps played and what is left to play are paid for with what was
queued, with the effects that are started, and with the reports that are accepted. -/
theorem stepsPlayed_moves (K : r.queue.Kept) (ends : ∀ x ∈ r.queue.items, x.Ends)
    (ms : List (Move Rat)) :
    r.stepsPlayed ms + (r.moves ms).worth ≤ r.worth + r.started ms + r.accepted ms := by
  induction ms generalizing r with
  | nil => exact Nat.le_of_eq (Nat.zero_add _)
  | cons m ms ih =>
    have M := r.move_moved m
    have hmove := worth_move K ends m
    have hrest := ih (M.kept K) ((Step.ends_carried r.plan).move m rfl (fun _ _ => trivial) ends)
    have hstarted : r.started (m :: ms) = (((r.due m).flatMap r.stage.firsts).map
        (·.2.2.steps (r.plan.tuning.rampDown / r.plan.tuning.rampStep))).sum +
          (r.move m).started ms := by
      unfold started
      rw [firsts, List.map_append, List.sum_append, M.plan]
    rw [hstarted, moves_cons]
    unfold stepsPlayed accepted
    omega

end

end Run
end Haptics
