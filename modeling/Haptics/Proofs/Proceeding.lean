import Haptics.Proofs.Walk

/-!
# What turns leave

`Lane.Proceeds` tells the tasks apart once more, by what they leave to do: a turn goes on in the
pattern, begins the way down or goes on with it, turns off, or is the last. What holds of the first
steps of a vibration and is carried on from turn to turn, every move leaves true of all steps in the
queue (`Step.Carried.move`).
-/

namespace Haptics

/-! ## Where a turn goes -/

section
variable {R : Type} [Level R]

/-- The place in a pattern where a task plays. -/
def Task.position? : Task R → Option (Position R)
  | hold p | prebaked p | composition p | ramps p | envelope p => some p
  | vendor _ | complete _ | rampOff _ _ | turnOff => none

/-- What a turn leaves to do, and from when on. -/
inductive Lane.Proceeds (l : Lane) (plan : Plan R) (s : Stage R) : Task R → Played R → Prop
  | halt {task} : Proceeds l plan s task ⟨s.stop l, [], 0⟩
  /-- A hold that was reported before it begins waits again. -/
  | wait {p n l' s'} (early : l.reported = true ∧ s.now < l.instant s.now)
      (back : l.Drove plan s (.hold p) n l' s') :
      Proceeds l plan s (.hold p) ⟨s', [.lane { l' with reported := false } (.hold p)], n⟩
  | advance {task p c start n l' s'} (position : task.position? = some p) (pos : 0 < c)
      (drove : l.Drove plan s task n l' s')
      (timed : start = Lane.goOn s.now n ∨ ∃ t, start = .at t) :
      Proceeds l plan s task (.followed s' l' start (.ofPosition p.pattern (p.advance c)) n)
  | vendor {v n l' s'} (drove : l.Drove plan s (.vendor v) n l' s') :
      Proceeds l plan s (.vendor v) (.followed s' l' (Lane.goOn s.now n) (.complete false) n)
  | turnOff {task n l' s'} (way : (∃ cancelled, task = .complete cancelled) ∨
      ∃ target delta, task = .rampOff target delta) (drove : l.Drove plan s task n l' s') :
      Proceeds l plan s task (.followed s' l' (l'.deadline.turnOff s.now) .turnOff n)
  /-- The way down begins: the ramp has `k` steps, and it is loud enough for the first. -/
  | ramp {cancelled k t n l' s'} (loud : ¬s.rig.amplitude l.actuator < Level.faint) (pos : 0 < k)
      (fits : k ≤ plan.tuning.rampDown / plan.tuning.rampStep)
      (drove : l.Drove plan s (.complete cancelled) n l' s') :
      Proceeds l plan s (.complete cancelled) (.followed s' l' (.at t)
        (.rampOff (s.rig.amplitude l.actuator - s.rig.amplitude l.actuator / (k : R))
          (s.rig.amplitude l.actuator / (k : R))) n)
  | lower {target delta t n l' s'} (loud : ¬target - delta < Level.faint)
      (drove : l.Drove plan s (.rampOff target delta) n l' s') :
      Proceeds l plan s (.rampOff target delta)
        (.followed s' l' (.at t) (.rampOff (target - delta) delta) n)

namespace Lane

variable (l : Lane) (s : Stage R) (plan : Plan R)

theorem playHold_proceeds (p : Position R) :
    l.Proceeds plan s (.hold p) (l.playHold plan s p) := by
  unfold playHold
  dsimp only
  split
  · rename_i early
    exact .wait early (l.turnBackOn_drove s plan early.1 p _)
  · split
    · split
      · exact .advance rfl Nat.one_pos .rest (.inr ⟨_, rfl⟩)
      · split
        · split
          · exact .advance rfl Nat.one_pos .stop (.inr ⟨_, rfl⟩)
          · exact .advance rfl Nat.one_pos .rest (.inr ⟨_, rfl⟩)
        · split
          · rename_i hon
            simp only [Bool.and_eq_true, bne_iff_ne, Bool.not_eq_true'] at hon
            have hne : Drive.hold (p.onDuration plan.tuning.rampDown) ≠ (.hold 0 : Drive R) :=
              fun h => hon.2 (Drive.hold.inj h)
            have due : l.Due s.now (.hold p) := hon.1
            exact .advance rfl Nat.one_pos (.setAmplitude (.drive _ hne (.inr due)) _)
              (.inr ⟨_, rfl⟩)
          · exact .advance rfl Nat.one_pos (.setAmplitude .rest _) (.inr ⟨_, rfl⟩)
    · exact .advance rfl Nat.one_pos .rest (.inr ⟨_, rfl⟩)

theorem playPrebaked_proceeds (p : Position R) :
    l.Proceeds plan s (.prebaked p) (l.playPrebaked plan s p) := by
  unfold playPrebaked
  dsimp only
  split
  · exact .advance rfl Nat.one_pos (.drive (.prebaked _) nofun (.inr (by trivial))) (.inl rfl)
  · exact .advance rfl Nat.one_pos .rest (.inr ⟨_, rfl⟩)

theorem playRun_proceeds {task : Task R} {p : Position R} (position : task.position? = some p)
    (due : l.Due s.now task) (count : Nat) {x : Drive R} (h : x ≠ .hold 0) :
    l.Proceeds plan s task (l.playRun plan s p count x) := by
  have hpos : 0 < max count 1 := Nat.lt_of_lt_of_le Nat.one_pos (Nat.le_max_right ..)
  unfold playRun
  dsimp only
  split
  · exact .advance position hpos .rest (.inr ⟨_, rfl⟩)
  · exact .advance position hpos (.drive _ h (.inr due)) (.inl rfl)

omit [Level R] in
theorem rampDownTime_le (now : Nat) : l.rampDownTime plan.tuning now ≤ plan.tuning.rampDown := by
  unfold rampDownTime
  split
  · exact Nat.min_le_right ..
  · exact Nat.le_refl _

theorem playComplete_proceeds (cancelled : Bool) :
    l.Proceeds plan s (.complete cancelled) (l.playComplete plan s cancelled) := by
  unfold playComplete
  split
  · exact .halt
  · dsimp only
    split
    · split
      · exact .halt
      · exact .turnOff (.inl ⟨_, rfl⟩) .rest
    · rename_i h
      have hloud : ¬s.rig.amplitude l.actuator < Level.faint := fun hfaint => h (.inl hfaint)
      have hstep : plan.tuning.rampStep ≠ 0 := fun hzero => h (.inr (.inl hzero))
      have hlong : plan.tuning.rampStep < l.rampDownTime plan.tuning s.now :=
        Nat.not_le.mp fun hle => h (.inr (.inr hle))
      have hpos : 0 < l.rampDownTime plan.tuning s.now / plan.tuning.rampStep :=
        Nat.div_pos (Nat.le_of_lt hlong) (Nat.pos_of_ne_zero hstep)
      have hfits := Nat.div_le_div_right (c := plan.tuning.rampStep) (l.rampDownTime_le plan s.now)
      split
      · rename_i hcancelled
        exact .ramp hloud hpos hfits (.shorten _ (by rw [hcancelled]))
      · exact .ramp hloud hpos hfits .rest

theorem playRampOff_proceeds (target delta : R) :
    l.Proceeds plan s (.rampOff target delta) (l.playRampOff plan s target delta) := by
  unfold playRampOff
  split
  · exact .halt
  · dsimp only
    split
    · exact .turnOff (.inr ⟨_, _, rfl⟩) (.setAmplitude .rest _)
    · rename_i hloud
      exact .lower hloud (.setAmplitude .rest _)

theorem play_proceeds (task : Task R) : l.Proceeds plan s task (l.play plan s task) := by
  cases task with
  | hold p => exact l.playHold_proceeds s plan p
  | prebaked p => exact l.playPrebaked_proceeds s plan p
  | composition p | ramps p | envelope p =>
    exact l.playRun_proceeds s plan rfl (by trivial) _ nofun
  | vendor v => exact .vendor (.drive (.vendor v) nofun (.inr (by trivial)))
  | complete c => exact l.playComplete_proceeds s plan c
  | rampOff target delta => exact l.playRampOff_proceeds s plan target delta
  | turnOff => exact .halt

end Lane
end

/-! ## The turns of the opening step -/

section
variable {R : Type} [Level R]

namespace Stage

variable (s : Stage R) (plan : Plan R)

/-- Driving actuators in order leaves what its turns leave. -/
theorem openEach_next (next : List (Step R)) (longest : Int)
    (firsts : List (Lane × Task R × Effect R)) : (s.openEach plan next longest firsts).next =
      next ++ (s.turnsEach plan firsts).flatMap fun t => (t.played plan).next := by
  induction firsts generalizing s next longest with
  | nil => exact (List.append_nil next).symm
  | cons x firsts ih =>
    obtain ⟨l, task, e⟩ := x
    unfold openEach turnsEach
    dsimp only
    rw [List.flatMap_cons]
    by_cases hfails : (l.play plan s task).result < 0
    · rw [if_pos hfails, if_pos hfails, List.flatMap_nil, List.append_nil]
      rfl
    · rw [if_neg hfails, if_neg hfails, ih, List.append_assoc]
      rfl

theorem turnsEach_firsts (firsts : List (Lane × Task R × Effect R)) :
    ((s.turnsEach plan firsts).map fun t => (t.lane, t.task)) <+:
      firsts.map fun x => (x.1, x.2.1) := by
  induction firsts generalizing s with
  | nil => exact List.prefix_rfl
  | cons x firsts ih =>
    obtain ⟨l, task, e⟩ := x
    unfold turnsEach
    dsimp only
    refine List.cons_prefix_cons.mpr ⟨rfl, ?_⟩
    split
    · exact List.nil_prefix
    · exact ih _

theorem close_next (o : Opened R) (prepared : Bool) :
    (o.close plan prepared).next.Sublist o.next := by
  unfold Opened.close
  split
  · exact List.nil_sublist _
  · exact .refl _

theorem openAll_next (es : List (ActuatorId × Effect R)) : (s.openAll plan es).next.Sublist
    ((s.turnsAll plan es).flatMap fun t => (t.played plan).next) := by
  unfold openAll turnsAll
  split
  · exact List.nil_sublist _
  · refine (close_next plan _ _).trans ?_
    rw [openEach_next]
    exact .refl _

theorem turnsAll_firsts (es : List (ActuatorId × Effect R)) :
    ((s.turnsAll plan es).map fun t => (t.lane, t.task)) <+:
      (s.issueFirst es).1.map fun x => (x.1, x.2.1) := turnsEach_firsts ..

/-- Each turn of a start is that of a first step. -/
theorem first_of_turn {es : List (ActuatorId × Effect R)} {t : Turn R}
    (h : t ∈ s.turnsAll plan es) : ∃ e, (t.lane, t.task, e) ∈ (s.issueFirst es).1 := by
  obtain ⟨u, l, task⟩ := t
  have hmem := (s.turnsAll_firsts plan es).subset (List.mem_map_of_mem h)
  obtain ⟨⟨_, _, e⟩, hx, ⟨⟩⟩ := List.mem_map.mp hmem
  exact ⟨e, hx⟩

/-- What the opening step leaves is left by one of its turns, or closes the vibration. -/
theorem mem_openVibration {v : Vibration R} {x : Step R}
    (h : x ∈ (s.openVibration plan v).next) :
    x = .finish ∨ ∃ t ∈ s.turnsAll plan (s.effects v), x ∈ (t.played plan).next := by
  rw [next_openVibration] at h
  rcases List.mem_append.mp h with h | h
  · exact .inr (List.mem_flatMap.mp ((s.openAll_next plan _).subset h))
  · split at h
    · exact .inl (List.mem_singleton.mp h)
    · cases h

end Stage

/-! ## What turns carry on -/

/-- What holds of a step holds of whatever comes from it, as long as its turns are of some kind. -/
structure Step.Carried (plan : Plan R) (P : Step R → Prop) (Q : Turn R → Prop) : Prop where
  accept : ∀ {x} a step now, P x → P (Scheduled.accept x a step now).2
  turn : ∀ {t}, P (.lane t.lane t.task) → Q t → ∀ y ∈ (t.played plan).next, P y
  remnants : ∀ {now k xs}, (∀ x ∈ xs, P x) → ∀ y ∈ Step.remnants now k xs, P y
  firsts : ∀ {s : Stage R} {v t}, P (.start v t) →
    ∀ x ∈ s.firsts (.start v t), P (.lane x.1 x.2.1)
  closing : P .finish

namespace Step.Carried

variable {plan : Plan R} {P : Step R → Prop} {Q : Turn R → Prop} (C : Carried plan P Q)
include C

theorem play {x : Step R} {s : Stage R} (hx : P x) (turns : ∀ t ∈ s.turns plan x, Q t) :
    ∀ y ∈ (s.play plan x).next, P y := by
  cases x with
  | start v t =>
    intro y hy
    rcases s.mem_openVibration plan hy with rfl | ⟨u, hu, hy⟩
    · exact C.closing
    · obtain ⟨e, hfirst⟩ := s.first_of_turn plan hu
      exact C.turn (C.firsts (s := s) hx _ hfirst) (turns u hu) y hy
  | lane l task => exact C.turn (t := ⟨s, l, task⟩) hx (turns _ List.mem_cons_self)
  | finish => exact fun _ hy => absurd hy List.not_mem_nil

theorem move {r : Run R} (m : Move R) (hplan : r.plan = plan)
    (turns : ∀ t ∈ (r.due m).flatMap (r.stage.turns r.plan), Q t)
    (h : ∀ x ∈ r.queue.items, P x) : ∀ x ∈ (r.move m).queue.items, P x := by
  subst hplan
  have M := r.move_moved m
  generalize r.move m = r' at M ⊢
  cases M with
  | idle | ignored | world => exact h
  | @played x q hdue =>
    have hitems := Queue.items_of_popDue hdue
    have hx := h x (hitems ▸ List.mem_cons_self)
    intro y hy
    rcases List.mem_append.mp ((q.items_extend _).mem_iff.mp hy) with hy | hy
    · refine C.play hx (fun t ht => turns t (List.mem_flatMap.mpr ⟨x, ?_, ht⟩)) y hy
      rw [Run.due, hdue]
      exact List.mem_cons_self
    · exact h y (hitems ▸ List.mem_cons_of_mem x hy)
  | heard hq => exact hq.items P (fun _ a step => C.accept a step r.now) h
  | graceful _ items left =>
    intro y hy
    exact C.remnants (fun x hx => h x (items.mem_iff.mp hx)) y (left.mem_iff.mp hy)
  | immediate _ _ empty =>
    intro y hy
    rw [empty] at hy
    cases hy

end Step.Carried
end

end Haptics
