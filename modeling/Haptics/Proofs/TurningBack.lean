import Haptics.Proofs.Following
import Haptics.Proofs.Timeline

/-!
# Turning an actuator back on

An actuator may report that it stopped before the next hold of its effect begins. The step of that
hold is then released (`Queue.own_hear_accepted`) and played at once (`Run.exists_released`): it
turns the actuator on again until the run of holds is over, and waits for its start as it did before
(`Turn.recovers`). However often this happens, it stays the same step with the same start, and once
the hold begins it does not drive an actuator that is on (`Run.recovers_moves`).
-/

namespace Haptics

variable {R : Type}

/-! ## Reports that are accepted -/

theorem Lane.accept_of_accepted {l : Lane} {a : ActuatorId} {step : Option Nat} {now : Nat}
    (h : (l.accept a step now).1 = true) : (l.accept a step now).2 = l.heard := by
  unfold accept at h ⊢
  split at h
  · cases h
  · split at h
    · rename_i hmine
      rw [if_pos hmine]
      rfl
    · cases h

namespace Queue

variable {a : ActuatorId} {q : Queue (Step R)} {l : Lane} {task : Task R} {now : Nat}

theorem mem_items_of_own {released : Bool} (h : (released, l, task) ∈ q.own a) :
    .lane l task ∈ q.items := by
  have hsnd : (l, task) ∈ q.items.filterMap (Step.own? a) := own_map_snd ▸ List.mem_map_of_mem h
  obtain ⟨y, hy, hlane⟩ := List.mem_filterMap.mp hsnd
  rwa [(Step.own_eq_some.mp hlane).1] at hy

/-- A report of the actuator that is accepted releases its step. -/
theorem own_acceptCompletion_accepted (hown : q.own a = [(false, l, task)]) {step : Option Nat}
    (accepted : (l.accept a step now).1 = true) :
    (q.acceptCompletion a step now).2.own a = [(true, l.heard, task)] := by
  rw [own_acceptCompletion_own now step (by rw [hown]; exact Nat.le_refl 1), hown,
    List.map_singleton]
  dsimp only
  rw [if_neg Bool.false_ne_true, accepted, Lane.accept_of_accepted accepted]

/-- A step that was released takes no more reports. -/
theorem own_acceptCompletion_released (hown : q.own a = [(true, l, task)]) (b : ActuatorId)
    (step : Option Nat) : (q.acceptCompletion b step now).2.own a = [(true, l, task)] := by
  have hsome : q.own a = (some (true, l, task)).toList := hown
  rcases own_acceptCompletion_toList hsome b step now with h | ⟨-, _, _, h, -⟩
  · exact h
  · cases h

/-- A report of the whole group reaches every actuator that has a step waiting. -/
theorem mem_actuators_of_own (h : (false, l, task) ∈ q.own a) : a ∈ q.actuators := by
  obtain ⟨e, he, hown⟩ : ∃ e ∈ q.timed, e.own? a = some (l, task) := by
    rcases List.mem_append.mp h with h | h
    · obtain ⟨y, -, hy⟩ := List.mem_map.mp h
      cases hy
    · obtain ⟨y, hmem, hy⟩ := List.mem_map.mp h
      cases hy
      exact List.mem_filterMap.mp hmem
  obtain ⟨hitem, ha⟩ := Step.own_eq_some.mp hown
  refine List.mem_mergeSort.mpr (List.mem_eraseDups.mpr (List.mem_filterMap.mpr ⟨e, he, ?_⟩))
  rw [hitem]
  exact congrArg some ha

/-- A report of the whole group that is accepted releases the step. -/
theorem own_acceptSynced_accepted (hown : q.own a = [(false, l, task)])
    (accepted : (l.accept a none now).1 = true) :
    (q.acceptSynced now).2.own a = [(true, l.heard, task)] := by
  have hmem : a ∈ q.actuators :=
    mem_actuators_of_own (hown ▸ List.mem_singleton_self (false, l, task))
  obtain ⟨bs, cs, hbs⟩ := List.append_of_mem hmem
  unfold acceptSynced
  rw [hbs, List.foldl_append, List.foldl_cons]
  -- The actuators that come before are others, or this one already.
  have hbefore := List.foldlRecOn (l := bs) (b := (0, q))
    (motive := fun (p : Nat × Queue (Step R)) =>
      p.2.own a = [(false, l, task)] ∨ p.2.own a = [(true, l.heard, task)])
    (fun (n, q) b =>
      let (ok, q) := q.acceptCompletion b none now
      (if ok then n + 1 else n, q))
    (.inl hown) fun p hp b _ => by
      rcases hp with hp | hp
      · by_cases hb : b = a
        · exact .inr (hb ▸ own_acceptCompletion_accepted hp accepted)
        · exact .inl ((own_acceptCompletion_aside now none hb).trans hp)
      · exact .inr (own_acceptCompletion_released hp b none)
  refine List.foldlRecOn (motive := fun (p : Nat × Queue (Step R)) =>
    p.2.own a = [(true, l.heard, task)]) _ _ ?_ fun p hp b _ =>
      own_acceptCompletion_released hp b none
  rcases hbefore with hp | hp
  · exact own_acceptCompletion_accepted hp accepted
  · exact own_acceptCompletion_released hp a none

/-- A report that is accepted releases the step that waits for it. -/
theorem own_hear_accepted {r : Run R} (hown : r.queue.own a = [(false, l, task)]) {e : Event}
    (concerns : e.Concerns a) (accepted : (l.accept a e.named? r.now).1 = true) :
    (r.hear e).queue.own a = [(true, l.heard, task)] := by
  cases e with
  | stepComplete b v i =>
    obtain rfl : b = a := concerns
    exact own_acceptCompletion_accepted hown accepted
  | syncedComplete v => exact own_acceptSynced_accepted hown accepted

end Queue

section
variable [Level R]

/-- A step that was released is played after those that were released before it, and meanwhile no
time passes. -/
theorem Run.exists_released {r : Run R} {v : Vibration R} {asked : Nat} {n : Int} {a : ActuatorId}
    {l : Lane} {task : Task R} (H : r.Phase v asked) (K : r.queue.Kept)
    (started : r.stage.startResult = some n) (released : r.queue.own a = [(true, l, task)]) :
    ∃ k, (r.moves (List.replicate k .play)).now = r.now ∧
      ∃ q, (r.moves (List.replicate k .play)).queue.popDue r.now = some (.lane l task, q) := by
  generalize hes : r.queue.released = es
  induction es generalizing r with
  | nil =>
    have hnone : (true, l, task) ∈ r.queue.own a := released ▸ List.mem_singleton_self _
    unfold Queue.own at hnone
    rw [hes] at hnone
    obtain ⟨y, -, hy⟩ := List.mem_map.mp ((List.mem_append.mp hnone).resolve_left (by simp))
    cases hy
  | cons e es ih =>
    have hpop := Queue.popDue_of_released hes r.now
    cases hown : e.item.own? a with
    | some y =>
      obtain ⟨hitem, ha⟩ := Step.own_eq_some.mp hown
      obtain ⟨flag, hfirst, -⟩ := Queue.own_popDue K (hitem ▸ hpop) ha
      rw [released] at hfirst
      cases (List.cons.inj hfirst).1
      exact ⟨0, rfl, _, hitem ▸ hpop⟩
    | none =>
      have moved := r.move_moved .play
      have hplay := r.move_play hpop
      have hnow : (r.move .play).now = r.now := by
        rw [hplay]
        exact r.stage.now_play r.plan e.item
      obtain ⟨-, hqueue, -⟩ := play_other H started hpop hown
      have hes' : (r.move .play).queue.released = es := by rw [hplay, Queue.released_extend]
      obtain ⟨k, hk, q, hq⟩ := ih (H.moved K moved) (moved.kept K)
        (startResult_moves H K started [.play]) (hqueue.trans released) hes'
      rw [hnow] at hk hq
      exact ⟨k + 1, hk, q, hq⟩

/-! ## What a turn does that comes too early -/

/-- After a hold was started its report is awaited for as long as the hold takes, and the grace. -/
theorem Deadline.isPending_afterHold (d : Deadline) {now grace i ms u : Nat}
    (pos : 0 < driveResult ms) (h : u < now + ms + grace) :
    (d.afterDrive now grace i (driveResult ms)).isPending u = true := by
  unfold afterDrive
  split
  · rfl
  · rename_i hdefinite
    have hms : (driveResult ms).toNat = ms := by
      unfold driveResult at hdefinite ⊢
      omega
    rw [hms]
    split
    · rename_i t ht
      obtain ⟨-, rfl⟩ : now + (ms + grace) ≤ lastInstant ∧ now + (ms + grace) = t := by
        simpa [reach?] using ht
      simp only [isPending, decide_eq_true_eq]
      omega
    · rfl

namespace Lane

variable (l : Lane) (plan : Plan R) (s : Stage R) {q : Position R} {until_ : Nat}

/-- Where no motor is on there is nothing to turn back on. -/
theorem turnBackOn_rests (h : q.onDuration plan.tuning.rampDown = 0) :
    l.turnBackOn plan s q until_ = (0, l, s) := if_pos h

/-- Turning an actuator back on is one drive, and its amplitude is programmed again if that was
successful. -/
theorem turnBackOn_asks (until_ : Nat) (h : q.onDuration plan.tuning.rampDown ≠ 0) :
    ∃ n l' s' ok,
      l.turnBackOn plan s q until_ = (n, l', s') ∧
      s'.history = s.history ++
        .drive l.actuator l.id (.hold (q.onDuration plan.tuning.rampDown + until_)) n ::
        (if 0 < n ∧ 0 < s.rig.amplitude l.actuator then
          [.setAmplitude l.actuator (s.rig.amplitude l.actuator) ok]
        else []) ∧
      (0 < n → n = driveResult (q.onDuration plan.tuning.rampDown + until_) ∧
        l'.deadline = l.deadline.afterDrive s.now plan.tuning.grace l.id n) := by
  let x : Drive R := .hold (q.onDuration plan.tuning.rampDown + until_)
  have hback : l.turnBackOn plan s q until_ = ((s.drive plan l x).1, (s.drive plan l x).2.1,
      if 0 < (s.drive plan l x).1 ∧ 0 < s.rig.amplitude l.actuator then
        (s.drive plan l x).2.2.setAmplitude (s.drive plan l x).2.1 (s.rig.amplitude l.actuator)
      else (s.drive plan l x).2.2) := by
    unfold turnBackOn
    dsimp only
    rw [if_neg h]
  have hdeadline : (s.drive plan l x).2.1.deadline =
      l.deadline.afterDrive s.now plan.tuning.grace l.id (s.drive plan l x).1 := rfl
  have hsame : (s.drive plan l x).2.1.actuator = l.actuator := rfl
  have hvalue (pos : 0 < (s.drive plan l x).1) : (s.drive plan l x).1 =
      driveResult (q.onDuration plan.tuning.rampDown + until_) := s.rig.value_hold _ pos
  have hdrive := (Stage.Does.drive (s := s) plan l x).history
  generalize s.drive plan l x = d at hback hdeadline hsame hvalue hdrive
  obtain ⟨n, l', s'⟩ := d
  dsimp only at hback hdeadline hsame hvalue hdrive
  by_cases hagain : 0 < n ∧ 0 < s.rig.amplitude l.actuator
  · obtain ⟨ok, hok⟩ := Stage.Does.setAmplitude (s := s') l' (s.rig.amplitude l.actuator)
    rw [if_pos hagain] at hback
    refine ⟨n, l', _, ok, hback, ?_, fun pos => ⟨hvalue pos, hdeadline⟩⟩
    rw [if_pos hagain, hok.history, hdrive, hsame, List.append_assoc]
    rfl
  · rw [if_neg hagain] at hback
    refine ⟨n, l', s', true, hback, ?_, fun pos => ⟨hvalue pos, hdeadline⟩⟩
    rw [if_neg hagain]
    exact hdrive

end Lane

/-- A turn before the hold at `q` begins, at `start`. -/
structure Turn.Recovers (plan : Plan R) (t : Turn R) (q : Position R) (start : Nat) : Prop where
  /-- If no motor is on there, nothing is done. -/
  rests : q.onDuration plan.tuning.rampDown = 0 → (t.played plan).stage = t.stage
  /-- Else the actuator is driven once, for the run of holds and the time until that begins, and the
  amplitude it had is programmed again. -/
  drives : q.onDuration plan.tuning.rampDown ≠ 0 → ∃ ok,
    (t.played plan).stage.history = t.stage.history ++
      .drive t.lane.actuator t.lane.id
        (.hold (q.onDuration plan.tuning.rampDown + (start - t.stage.now)))
        (t.played plan).result ::
      if 0 < (t.played plan).result ∧ 0 < t.stage.rig.amplitude t.lane.actuator then
        [.setAmplitude t.lane.actuator (t.stage.rig.amplitude t.lane.actuator) ok]
      else []
  /-- The step waits for its start as before. -/
  waits : ∃ l, (t.played plan).next = [.lane l (.hold q)] ∧ l.id = t.lane.id ∧
    l.actuator = t.lane.actuator ∧ l.start = .at start ∧ l.reported = false ∧
    (0 < (t.played plan).result →
      l.deadline.awaiting? = some t.lane.id ∧ l.deadline.covers start = true ∧
      ∀ u < start + q.onDuration plan.tuning.rampDown + plan.tuning.grace,
        l.deadline.isPending u = true)

/-- A hold whose actuator stopped before it begins turns that on again. -/
theorem Turn.recovers (plan : Plan R) {t : Turn R} {q : Position R} {start : Nat}
    (task : t.task = .hold q) (hstart : t.lane.start = .at start)
    (reported : t.lane.reported = true) (early : t.stage.now < start) :
    t.Recovers plan q start := by
  have hinstant : t.lane.instant t.stage.now = start := Lane.instant_at hstart _
  obtain ⟨n, l, s, back⟩ : ∃ n l s,
      t.lane.turnBackOn plan t.stage q (start - t.stage.now) = (n, l, s) := ⟨_, _, _, rfl⟩
  have hdrove := Lane.turnBackOn_eq reported back
  have hplayed : t.played plan = ⟨s, [.lane { l with reported := false } (.hold q)], n⟩ := by
    rw [played_hold task]
    exact t.lane.playHold_early plan t.stage ⟨reported, hinstant ▸ early⟩ (hinstant ▸ back)
  constructor
  case rests =>
    intro hon
    rw [t.lane.turnBackOn_rests plan t.stage hon] at back
    cases back
    rw [hplayed]
  case drives =>
    intro hon
    obtain ⟨_, _, _, ok, hback, hhistory, -⟩ := t.lane.turnBackOn_asks plan t.stage _ hon
    cases back.symm.trans hback
    rw [hplayed]
    exact ⟨ok, hhistory⟩
  case waits =>
    have hlane := hdrove.lane_eq
    refine ⟨{ l with reported := false }, congrArg Played.next hplayed, hdrove.id, hdrove.same,
      by rw [hlane]; exact hstart, rfl, fun pos => ?_⟩
    rw [hplayed] at pos
    have hnow : t.stage.now + (start - t.stage.now) = start := by omega
    obtain ⟨hawaiting, hcovers⟩ := Lane.turnBackOn_covers back pos
    rw [hnow] at hcovers
    refine ⟨hawaiting, hcovers, fun u hu => ?_⟩
    have hon : q.onDuration plan.tuning.rampDown ≠ 0 := fun hon => by
      rw [t.lane.turnBackOn_rests plan t.stage hon] at back
      cases back
      exact absurd pos (Int.lt_irrefl 0)
    obtain ⟨_, _, _, _, hback, -, hpos⟩ := t.lane.turnBackOn_asks plan t.stage _ hon
    cases back.symm.trans hback
    obtain ⟨hn, hdeadline⟩ := hpos pos
    show l.deadline.isPending u = true
    rw [hdeadline, hn]
    rw [hn] at pos
    exact Deadline.isPending_afterHold _ pos (by omega)

/-- An actuator that is expected to be on is not driven for a hold that waits for no report. -/
theorem Lane.Drove.undriven {plan : Plan R} {l l' : Lane} {s s' : Stage R} {task : Task R} {n : Int}
    (H : l.Drove plan s task n l' s') (unreported : l.reported = false)
    (covered : ¬l.Due s.now task) : Deed.drives s'.history = Deed.drives s.history := by
  induction H with
  | rest | shorten => rfl
  | drive x _ due => exact absurd (due.resolve_left (by simp [unreported])) covered
  | stop =>
    rw [(Stage.Does.stop l).history, Deed.drives_append, Deed.drives_stop, List.append_nil]
  | @setAmplitude n l' s' _ x ih =>
    obtain ⟨ok, hok⟩ := Stage.Does.setAmplitude (s := s') l' x
    rw [hok.history, Deed.drives_append, Deed.drives_setAmplitude, List.append_nil, ih]

theorem Turn.undriven_of_covers (plan : Plan R) {t : Turn R} {q : Position R}
    (task : t.task = .hold q) (unreported : t.lane.reported = false)
    (covers : t.lane.deadline.covers (t.lane.instant t.stage.now) = true) :
    Deed.drives (t.played plan).stage.history = Deed.drives t.stage.history := by
  have covered : ¬t.lane.Due t.stage.now t.task := by
    rw [task]
    intro due
    exact absurd (due.symm.trans covers) Bool.false_ne_true
  have hplays := t.played_plays plan
  generalize t.played plan = p at hplays ⊢
  cases hplays with
  | halt =>
    have hstop : t.lane.Drove plan t.stage t.task 0 _ (t.stage.stop t.lane) := .stop
    exact hstop.undriven unreported covered
  | wait _ early =>
    rw [unreported] at early
    cases early.1
  | follow h => exact h.undriven unreported covered

/-! ## Turn after turn -/

omit [Level R] in
/-- A report changes neither whose step a step is nor when it starts. -/
theorem Lane.same_of_heard {l l' : Lane} (h : l' = l ∨ l' = l.heard) :
    l'.id = l.id ∧ l'.actuator = l.actuator ∧ l'.start = l.start := by
  rcases h with rfl | rfl <;> exact ⟨rfl, rfl, rfl⟩

namespace Turn.Linked

variable {plan : Plan R} {P P' : Lane → Task R → Prop} {before after : List (Turn R)} {t u : Turn R}

theorem first_imp {ts : List (Turn R)} (H : Linked plan P ts)
    (h : ∀ l task, P l task → P' l task) : Linked plan P' ts := by
  cases H with
  | nil => exact .nil
  | cons first rest => exact .cons (h _ _ first) rest

/-- Of two turns in a row the second plays what the first left. -/
theorem leaves (H : Linked plan P (before ++ t :: u :: after)) :
    t.Leaves plan u.lane u.task := by
  induction before generalizing P with
  | nil =>
    obtain _ | ⟨-, _ | ⟨first, -⟩⟩ := H
    exact first
  | cons w before ih =>
    obtain _ | ⟨-, rest⟩ := H
    exact ih rest

/-- A hold that waits again and again is always the same step. -/
theorem recurs {q : Position R} {l : Lane}
    (H : Linked plan (fun l' task => (l' = l ∨ l' = l.heard) ∧ task = .hold q)
      (before ++ t :: after)) (waits : ∀ w ∈ before, w.Waits) :
    t.task = .hold q ∧ t.lane.id = l.id ∧ t.lane.actuator = l.actuator ∧
      t.lane.start = l.start := by
  induction before generalizing l with
  | nil =>
    obtain _ | ⟨⟨hlane, htask⟩, -⟩ := H
    exact ⟨htask, Lane.same_of_heard hlane⟩
  | cons w before ih =>
    obtain _ | ⟨⟨hlane, htask⟩, rest⟩ := H
    obtain ⟨hreported, hearly⟩ := waits w List.mem_cons_self
    obtain ⟨start, hstart, hnow⟩ := Lane.at_of_early hearly
    obtain ⟨l', hnext, hid, hactuator, hstart', -⟩ :=
      (recovers plan htask hstart hreported hnow).waits
    have hfirst : ∀ l'' task, w.Leaves plan l'' task →
        (l'' = l' ∨ l'' = l'.heard) ∧ task = .hold q := by
      rintro l'' task ⟨m, hm, heq⟩
      rw [hnext] at hm
      cases hm
      exact ⟨heq, rfl⟩
    obtain ⟨htask', hid', hactuator', ht⟩ :=
      ih (rest.first_imp hfirst) fun x hx => waits x (List.mem_cons_of_mem w hx)
    obtain ⟨hsame, hsame', hsame''⟩ := Lane.same_of_heard hlane
    exact ⟨htask', hid'.trans (hid.trans hsame), hactuator'.trans (hactuator.trans hsame'),
      ht.trans (hstart'.trans (hstart.symm.trans hsame''))⟩

/-- A hold that begins does not drive an actuator that was turned on again for it, unless there was
another report since. -/
theorem undriven {q : Position R} {l : Lane} {start : Nat}
    (H : Linked plan (fun l' task => (l' = l ∨ l' = l.heard) ∧ task = .hold q)
      (before ++ t :: u :: after)) (waits : ∀ w ∈ before ++ [t], w.Waits)
    (hstart : l.start = .at start) (unreported : u.lane.reported = false)
    (pos : 0 < (t.played plan).result) :
    Deed.drives (u.played plan).stage.history = Deed.drives u.stage.history := by
  obtain ⟨htask, -, -, hlane⟩ := H.recurs fun w hw => waits w (List.mem_append_left _ hw)
  have H' : Linked plan (fun l' task => (l' = l ∨ l' = l.heard) ∧ task = .hold q)
      ((before ++ [t]) ++ u :: after) := by
    rwa [List.append_assoc]
  obtain ⟨htask', -, -, hlane'⟩ := H'.recurs waits
  obtain ⟨hreported, hearly⟩ := waits t (List.mem_append_right _ (List.mem_singleton_self t))
  rw [Lane.instant_at (hlane.trans hstart)] at hearly
  obtain ⟨l', hnext, -, -, -, -, hpos⟩ :=
    (recovers plan htask (hlane.trans hstart) hreported hearly).waits
  obtain ⟨-, hcovers, -⟩ := hpos pos
  obtain ⟨m, hm, heq⟩ := H.leaves
  obtain rfl : m = l' := by
    rw [hnext] at hm
    exact (Step.lane.inj (List.cons.inj hm).1).1.symm
  have hsame : u.lane = m := heq.resolve_right fun heq => by
    rw [heq] at unreported
    cases unreported
  refine undriven_of_covers plan htask' unreported ?_
  rwa [Lane.instant_at (hlane'.trans hstart), hsame]

end Turn.Linked

namespace Run

variable {r : Run R} {v : Vibration R} {asked : Nat} {ids : List ActuatorId} {l : Lane}
  {task : Task R}

/-- The chain of a step in the queue is linked. -/
theorem Flying.linked (F : r.Flying v asked ids) {n : Int} (started : r.stage.startResult = some n)
    (h : .lane l task ∈ r.queue.items) (ms : List (Move R)) :
    Turn.Linked r.plan (fun l' task' => (l' = l ∨ l' = l.heard) ∧ task' = task)
      (Turn.chain r.plan (some l.id) (r.turns ms)) := by
  obtain ⟨xs, ys, hitems⟩ := List.append_of_mem h
  have hperm : r.queue.items.Perm (.lane l task :: (xs ++ ys)) := by
    rw [hitems]
    exact List.perm_middle
  have hflight := F.flight.subperm hperm.symm.subperm
  have hid : l.id < r.stage.nextStep :=
    List.mem_range.mp (hflight.numbers.subset (List.mem_cons_self (a := l.id)))
  have E : Step.Expects ids (some l.id) (fun l' task' => (l' = l ∨ l' = l.heard) ∧ task' = task)
      r.stage.nextStep r.queue.items := by
    refine ⟨F.flight, fun j hj => ?_, fun l' task' hl' hid' => ?_, fun l' task' hl' => ?_⟩
    · cases hj
      exact hid
    · rcases List.mem_cons.mp (hperm.mem_iff.mp hl') with heq | hrest
      · cases heq
        exact ⟨.inl rfl, rfl⟩
      · exact absurd (Option.some.inj hid').symm (hflight.number_ne hrest).1
    · obtain ⟨rfl | rfl, rfl⟩ := hl' <;> exact ⟨.inr rfl, rfl⟩
  obtain ⟨i, P, -, hlinked⟩ : Step.Links r.plan ids (some l.id) _ ([] ++ r.turns ms) _ _ :=
    (links_threads ids (some l.id) _).moves rfl F.phase F.kept started (.rfl E)
  have hchain := hlinked [] .nil
  rwa [List.append_nil, List.nil_append] at hchain

theorem Ripe.moves (H : r.Ripe) (K : r.queue.Kept) (ms : List (Move R)) : (r.moves ms).Ripe := by
  induction ms generalizing r with
  | nil => exact H
  | cons m ms ih => exact ih (H.move K m) ((r.move_moved m).kept K)

/-- A step that no report released is not played before it starts. -/
theorem Ripe.start_le (H : r.Ripe) (K : r.queue.Kept) {ms : List (Move R)} {t : Turn R}
    (ht : t ∈ r.turns ms) (unreported : t.lane.reported = false) {start : Nat}
    (hstart : t.lane.start = .at start) : start ≤ t.stage.now := by
  rcases H.turns K t ht with ⟨l, task, heq, hreported⟩ | hdue
  · cases heq
    rw [unreported] at hreported
    cases hreported
  · have hdue : t.lane.start.isDue t.stage.now = true := hdue
    rw [hstart] at hdue
    exact of_decide_eq_true hdue

/-- A hold waits for its start, and then the drive that it waits for is reported. It is released and
played at once. As long as its start has not come it turns its actuator on again, however often that
is reported, and waits as the same step. When it begins, and no report came since its last drive,
which was successful, it makes no other. -/
theorem recovers_moves {plan : Plan R} {v : Vibration R} {rig : Rig R} {asked : Nat}
    {ms : List (Move R)} {e : Event} {l : Lane} {q : Position R} {start : Nat}
    (distinct : (fresh plan v rig asked).Distinct v ms)
    (waiting : (false, l, .hold q) ∈ ((fresh plan v rig asked).moves ms).queue.own l.actuator)
    (hstart : l.start = .at start) (concerns : e.Concerns l.actuator)
    (accepted : (l.accept l.actuator e.named? ((fresh plan v rig asked).moves ms).now).1 = true) :
    let r := ((fresh plan v rig asked).moves ms).move (.hear e)
    r.stage = ((fresh plan v rig asked).moves ms).stage ∧
      r.queue.own l.actuator = [(true, l.heard, .hold q)] ∧
      (∃ k, (r.moves (List.replicate k .play)).now = r.now ∧ ∃ q',
        (r.moves (List.replicate k .play)).queue.popDue r.now =
          some (.lane l.heard (.hold q), q')) ∧
      ∀ ns before t after, Turn.chain plan (some l.id) (r.turns ns) = before ++ t :: after →
        (∀ w ∈ before, w.Waits) →
        t.task = .hold q ∧ t.lane.id = l.id ∧ t.lane.actuator = l.actuator ∧
          t.lane.start = .at start ∧
          (t.lane.reported = true → t.stage.now < start → t.Recovers plan q start) ∧
          (t.lane.reported = false → start ≤ t.stage.now ∧ ∀ w ∈ before.getLast?,
            0 < (w.played plan).result →
            Deed.drives (t.played plan).stage.history = Deed.drives t.stage.history) := by
  have hplan : ((fresh plan v rig asked).moves ms).plan = plan := plan_moves _ ms
  obtain ⟨x, hx⟩ := exists_own distinct l.actuator
  obtain ⟨ids, F⟩ : ∃ ids, ((fresh plan v rig asked).moves ms).Flying v asked ids :=
    (flying_moves (fresh_flying plan v rig asked []) ms).elim (⟨_, ·⟩) fun ⟨_, _, F⟩ => ⟨_, F⟩
  have hripe : ((fresh plan v rig asked).moves ms).Ripe :=
    (fresh_ripe plan v rig asked).moves (fresh_kept plan v rig asked) ms
  generalize (fresh plan v rig asked).moves ms = r at *
  have hown : r.queue.own l.actuator = [(false, l, .hold q)] := by
    rw [hx] at waiting ⊢
    cases x with
    | none => cases waiting
    | some y => rw [List.mem_singleton.mp waiting]; rfl
  obtain ⟨n, started⟩ : ∃ n, r.stage.startResult = some n := by
    refine Option.ne_none_iff_exists'.mp fun hnone => ?_
    rw [F.phase.own_of_waiting hnone] at hown
    cases hown
  have moved := r.move_moved (.hear e)
  have hstage : (r.move (.hear e)).stage = r.stage := by cases e <;> rfl
  have hplan' : (r.move (.hear e)).plan = plan := moved.plan.trans hplan
  have hown' : (r.move (.hear e)).queue.own l.actuator = [(true, l.heard, .hold q)] :=
    Queue.own_hear_accepted hown concerns accepted
  have hripe' := hripe.move F.kept (.hear e)
  have F' := F.moved moved (congrArg Stage.startResult hstage)
  have started' : (r.move (.hear e)).stage.startResult = some n := hstage ▸ started
  have hmem : .lane l.heard (.hold q) ∈ (r.move (.hear e)).queue.items :=
    Queue.mem_items_of_own (hown' ▸ List.mem_singleton_self (true, l.heard, Task.hold q))
  refine ⟨hstage, hown', exists_released F'.phase F'.kept started' hown', ?_⟩
  intro ns before t after hchain waits
  have hlinked := F'.linked started' hmem ns
  have hid : l.heard.id = l.id := rfl
  rw [hplan', hid, hchain] at hlinked
  obtain ⟨htask, hid, hactuator, hlane⟩ := hlinked.recurs waits
  have ht : t.lane.start = .at start := hlane.trans hstart
  have hturn : t ∈ (r.move (.hear e)).turns ns := by
    refine (Turn.chain_sublist plan (some l.id) _).subset ?_
    rw [hchain]
    exact List.mem_append_right _ List.mem_cons_self
  refine ⟨htask, hid, hactuator, ht, Turn.recovers plan htask ht, fun unreported =>
    ⟨hripe'.start_le F'.kept hturn unreported ht, fun w hw pos => ?_⟩⟩
  obtain ⟨before, rfl⟩ := List.getLast?_eq_some_iff.mp hw
  rw [List.append_assoc] at hlinked
  exact hlinked.undriven waits hstart unreported pos

end Run

end

namespace Run

/-- Two holds in a row. -/
def sustained : Vibration Rat :=
  .mono (.pattern (.waveform [100, 100] [.level 1, .level 1] none))

/-- The first hold is half over. -/
def halfway : Run Rat := (bench sustained [0]).moves [.play, .world (·.moveTo 50)]

/-- The lane that waits for the second hold. -/
def second : Lane := { id := 2, start := .at 100, actuator := 0, deadline := .at 1200 1 }

/-- The motor stopped halfway. -/
def stopped : Run Rat := halfway.move (.hear (.stepComplete 0 1 1))

/-- The second hold. -/
def secondHold : Position Rat := ⟨.waveform [100, 100] [.level 1, .level 1] none, 1⟩

/-- The motor is turned on again for the rest, and the second hold does not turn it on once more. -/
theorem recovers_moves_halfway :
    (false, second, .hold secondHold) ∈ halfway.queue.own 0 ∧
      (second.accept 0 (some 1) halfway.now).1 = true ∧
      stopped.queue.own 0 = [(true, second.heard, .hold secondHold)] ∧
      ∃ w t, Turn.chain stopped.plan (some 2)
          (stopped.turns [.play, .world (·.moveTo 100), .play]) = [w, t] ∧
        w.Recovers stopped.plan secondHold 100 ∧
        Deed.drives (t.played stopped.plan).stage.history = Deed.drives t.stage.history :=
  have distinct : (bench sustained [0]).Distinct sustained [.play, .world (·.moveTo 50)] := by
    decide +kernel
  have waiting : (false, second, .hold secondHold) ∈ halfway.queue.own 0 :=
    List.mem_singleton_self _
  have accepted : (second.accept 0 (some 1) halfway.now).1 = true := by decide +kernel
  have ⟨_, released, _, H⟩ := recovers_moves (e := .stepComplete 0 1 1) distinct waiting rfl rfl
    accepted
  let w : Turn Rat := ⟨stopped.stage, second.heard, .hold secondHold⟩
  let t : Turn Rat := ⟨(stopped.moves [.play, .world (·.moveTo 100)]).stage,
    { id := 2, start := .at 100, actuator := 0, deadline := .at 1200 2 }, .hold secondHold⟩
  have hchain : Turn.chain stopped.plan (some 2)
      (stopped.turns [.play, .world (·.moveTo 100), .play]) = [w, t] := rfl
  have early : w.Waits := by decide +kernel
  have ⟨_, _, _, _, hfirst, _⟩ := H _ [] w [t] hchain fun _ hu => absurd hu List.not_mem_nil
  have ⟨_, _, _, _, _, hlast⟩ := H _ [w] t [] hchain fun u hu => List.mem_singleton.mp hu ▸ early
  ⟨waiting, accepted, released, w, t, hchain, hfirst rfl early.2,
    (hlast rfl).2 w rfl (by decide +kernel)⟩

/-- A report that comes after the grace is refused and releases nothing. But the second hold does
not wait any longer for the drive that was made for it, and makes another. -/
theorem refused_drives_again :
    let late := stopped.moves [.play, .world (·.moveTo 1200)]
    let refused := late.move (.hear (.stepComplete 0 1 2))
    let waiting : Lane := { id := 2, start := .at 100, actuator := 0, deadline := .at 1200 2 }
    late.queue.own 0 = [(false, waiting, .hold secondHold)] ∧
      (waiting.accept 0 (some 2) late.now).1 = false ∧
      refused.queue.own 0 = [(false, waiting.heard, .hold secondHold)] ∧
      refused.drives = [(0, 200), (0, 150)] ∧
      (refused.move .play).drives = [(0, 200), (0, 150), (0, 100)] :=
  ⟨rfl, rfl, rfl, by decide +kernel, by decide +kernel⟩

end Run
end Haptics
