import Haptics.Conductor.Opening
import Haptics.Proofs.Deeds
import Haptics.Proofs.Hardware
import Haptics.Proofs.Queue

/-!
# What one step of an actuator does

`Stage.Does` collects what holds of every operation on an actuator: the deeds that the record
gains, and that nothing else changes. `Lane.play_plays` is the only place where the tasks are told
apart: playing one either stops the actuator for good, or makes at most one drive and leaves exactly
one step, for the same actuator, which waits for the report of that drive if it was successful.
-/

namespace Haptics

variable {R : Type}

/-! ## Deeds on one actuator -/

/-- From one stage to another some deeds were done on an actuator, and nothing else happened. -/
structure Stage.Does (a : ActuatorId) (ds : List (Deed R)) (s s' : Stage R) : Prop where
  history : s'.history = s.history ++ ds
  own : ∀ d ∈ ds, d.actuator? = some a
  now : s'.now = s.now
  group : s'.rig.group = s.rig.group
  others : ∀ b ≠ a, s'.rig.device? b = s.rig.device? b
  startResult : s'.startResult = s.startResult

namespace Stage.Does

variable {a : ActuatorId} {ds es : List (Deed R)} {s t u : Stage R}

theorem rfl : Does a [] s s :=
  ⟨(List.append_nil _).symm, fun _ h => (List.not_mem_nil h).elim, .refl _, .refl _,
    fun _ _ => .refl _, .refl _⟩

theorem trans (H : Does a ds s t) (K : Does a es t u) : Does a (ds ++ es) s u where
  history := by rw [K.history, H.history, List.append_assoc]
  own d hd := (List.mem_append.mp hd).elim (H.own d) (K.own d)
  now := K.now.trans H.now
  group := K.group.trans H.group
  others b hb := (K.others b hb).trans (H.others b hb)
  startResult := K.startResult.trans H.startResult

theorem issue (start : StartTime) (b : ActuatorId) (d : Deadline) (task : Task R) :
    Does a [] s (s.issue start b d task).2 :=
  ⟨(List.append_nil _).symm, fun _ h => (List.not_mem_nil h).elim, .refl _, .refl _,
    fun _ _ => .refl _, .refl _⟩

theorem setAmplitude (l : Lane) (x : R) :
    ∃ ok, Does l.actuator [.setAmplitude l.actuator x ok] s (s.setAmplitude l x) := by
  refine ⟨(s.rig.setAmplitude l.actuator x).1, ?_, by simp [Deed.actuator?], ?_, ?_, ?_, .refl _⟩
  · simp [Stage.setAmplitude]; rfl
  · exact Rig.setAmplitude_now ..
  · exact Rig.setAmplitude_group ..
  · exact fun b hb => Rig.device?_setAmplitude_of_ne _ _ _ hb

section
variable [Level R]

theorem stop (l : Lane) : Does l.actuator [.stop l.actuator] s (s.stop l) := by
  refine ⟨?_, by simp [Deed.actuator?], ?_, ?_, ?_, .refl _⟩
  · simp [Stage.stop]; rfl
  · exact Rig.stop_now ..
  · exact Rig.stop_group ..
  · exact fun b hb => Rig.device?_stop_of_ne _ _ hb

theorem drive (plan : Plan R) (l : Lane) (x : Drive R) :
    Does l.actuator [.drive l.actuator l.id x (s.drive plan l x).1] s (s.drive plan l x).2.2 := by
  refine ⟨?_, by simp [Deed.actuator?], ?_, ?_, ?_, .refl _⟩
  · simp [Stage.drive]; rfl
  · exact Rig.drive_now ..
  · exact Rig.drive_group ..
  · exact fun b hb => Rig.device?_drive_of_ne _ _ _ _ _ hb

end

theorem telemetry (H : Does a ds s t) : t.telemetry = s.telemetry := by
  have hnil : ds.filterMap Deed.told? = [] := by
    refine List.filterMap_eq_nil_iff.mpr fun d hd => ?_
    have hown := H.own d hd
    cases d with
    | tell t => simp [Deed.actuator?] at hown
    | _ => rfl
  rw [telemetry_of_history H.history, hnil, List.append_nil]

theorem eq_of_mem_drives (H : Does a ds s t) {b : ActuatorId} {n : Int}
    (hm : (b, n) ∈ Deed.drives ds) : b = a := by
  obtain ⟨d, hd, hn⟩ := List.mem_filterMap.mp hm
  have := H.own d hd
  cases d with
  | drive c i x m =>
    simp only [Deed.answer?, Option.some.injEq, Prod.mk.injEq] at hn
    simp only [Deed.actuator?, Option.some.injEq] at this
    exact hn.1.symm.trans this
  | _ => simp [Deed.answer?] at hn

theorem isActive_of_ne (H : Does a ds s t) {b : ActuatorId} (hb : b ≠ a) :
    t.rig.isActive b = s.rig.isActive b := Rig.isActive_congr (H.others b hb)

end Stage.Does

/-! ## Drives and deadlines -/

theorem Deadline.afterDrive_of_le (d : Deadline) (now grace i : Nat) {n : Int} (h : n ≤ 0) :
    d.afterDrive now grace i n = d := by
  unfold afterDrive
  rw [if_neg (by unfold Haptics.indefinite; omega), if_neg (Int.not_lt.mpr h)]

theorem Deadline.isPending_afterDrive (d : Deadline) (now grace i : Nat) {n : Int} (h : 0 < n) :
    (d.afterDrive now grace i n).isPending now = true := by
  unfold afterDrive
  split
  · rfl
  · split
    · rename_i t ht
      obtain ⟨-, rfl⟩ : now + (n.toNat + grace) ≤ lastInstant ∧ now + (n.toNat + grace) = t := by
        simpa [reach?] using ht
      simp only [isPending, decide_eq_true_eq]
      omega
    · rfl

/-- A hold does not drive an actuator that is expected to be on when it begins. -/
def Lane.Due (l : Lane) (now : Nat) : Task R → Prop
  | .hold _ => l.deadline.covers (l.instant now) = false
  | _ => True

/-- A part of a play of a lane: what was done to its actuator, and the answer, the lane and the
stage that this left. -/
inductive Lane.Drove [Level R] (l : Lane) (plan : Plan R) (s : Stage R) (task : Task R) :
    Int → Lane → Stage R → Prop
  | rest : Drove l plan s task 0 l s
  /-- Only an actuator that is turned back on may be driven although it is expected to be on. -/
  | drive (x : Drive R) (h : x ≠ .hold 0) (due : l.reported = true ∨ l.Due s.now task) :
    Drove l plan s task (s.drive plan l x).1 (s.drive plan l x).2.1 (s.drive plan l x).2.2
  | stop : Drove l plan s task 0 { l with deadline := .idle } (s.stop l)
  /-- An effect that was cut short waits for the report no longer than it ramps down. -/
  | shorten (t : Nat) (h : task = .complete true) :
    Drove l plan s task 0 { l with deadline := .at t (l.deadline.awaiting?.getD l.id) } s
  | setAmplitude {n l' s'} (h : Drove l plan s task n l' s') (x : R) :
    Drove l plan s task n l' (s'.setAmplitude l' x)

/-- A play as a whole. -/
inductive Lane.Plays [Level R] (l : Lane) (plan : Plan R) (s : Stage R) (task : Task R) :
    Played R → Prop
  /-- The effect is over, and its actuator was stopped. -/
  | halt : Plays l plan s task ⟨s.stop l, [], 0⟩
  /-- The actuator stopped before a hold begins: it is turned back on, and the step waits again. -/
  | wait {p n l' s'} (hold : task = .hold p) (early : l.reported = true ∧ s.now < l.instant s.now)
      (back : l.turnBackOn plan s p (l.instant s.now - s.now) = (n, l', s')) :
      Plays l plan s task ⟨s', [.lane { l' with reported := false } task], n⟩
  /-- A step under a new number follows. -/
  | follow {n l' s'} (h : l.Drove plan s task n l' s') (start : StartTime) (next : Task R) :
      Plays l plan s task (.followed s' l' start next n)

namespace Lane

section
variable [Level R] {l l' : Lane} {plan : Plan R} {s s' : Stage R} {task : Task R} {n : Int}

namespace Drove

/-- Only the deadline of the lane changes. -/
theorem lane_eq (H : l.Drove plan s task n l' s') : l' = { l with deadline := l'.deadline } := by
  induction H with
  | setAmplitude _ _ ih => exact ih
  | _ => rfl

theorem same (H : l.Drove plan s task n l' s') : l'.actuator = l.actuator := by rw [H.lane_eq]

theorem id (H : l.Drove plan s task n l' s') : l'.id = l.id := by rw [H.lane_eq]

theorem nextStep (H : l.Drove plan s task n l' s') : s'.nextStep = s.nextStep := by
  induction H with
  | setAmplitude _ _ ih => exact ih
  | _ => rfl

/-- At most one drive is made. -/
theorem deeds (H : l.Drove plan s task n l' s') : ∃ ds, s.Does l.actuator ds s' ∧
    (Deed.drives ds = [] ∧ n = 0 ∨ Deed.drives ds = [(l.actuator, n)]) := by
  induction H with
  | rest | shorten => exact ⟨_, .rfl, .inl ⟨rfl, rfl⟩⟩
  | drive x => exact ⟨_, .drive plan l x, .inr rfl⟩
  | stop => exact ⟨_, .stop l, .inl ⟨rfl, rfl⟩⟩
  | setAmplitude h x ih =>
    obtain ⟨ds, hds, hn⟩ := ih
    obtain ⟨ok, hok⟩ := Stage.Does.setAmplitude _ x
    rw [h.same] at hok
    exact ⟨_, hds.trans hok, by simpa using hn⟩

/-- The lane waits for the report of a successful drive. -/
theorem pending (H : l.Drove plan s task n l' s') (pos : 0 < n) :
    l'.deadline.isPending s.now = true := by
  induction H with
  | rest | stop | shorten => exact absurd pos (Int.lt_irrefl 0)
  | drive x => exact Deadline.isPending_afterDrive _ _ _ _ pos
  | setAmplitude _ _ ih => exact ih pos

/-- Only a successful drive turns an actuator on. -/
theorem active (H : l.Drove plan s task n l' s') {a : ActuatorId}
    (on : s'.rig.isActive a = true) : s.rig.isActive a = true ∨ a = l.actuator ∧ 0 < n := by
  induction H with
  | rest | shorten => exact .inl on
  | drive x hx =>
    by_cases ha : a = l.actuator
    · by_cases hn : 0 < (s.drive plan l x).1
      · exact .inr ⟨ha, hn⟩
      · have hactive := s.rig.isActive_drive l.actuator plan.vibration l.id hx (Int.not_lt.mp hn) a
        exact .inl (hactive ▸ on)
    · exact .inl ((Stage.Does.drive plan l x).isActive_of_ne ha ▸ on)
  | stop =>
    have hstop := s.rig.isActive_stop l.actuator a
    exact .inl (Bool.and_eq_true_iff.mp (hstop ▸ on)).1
  | @setAmplitude n l' s' h x ih =>
    have hactive := s'.rig.isActive_setAmplitude l'.actuator x a
    exact ih (hactive ▸ on)

end Drove

/-! ## The tasks -/

variable (l s) (plan : Plan R)

theorem turnBackOn_drove (reported : l.reported = true) (p : Position R) (until_ : Nat) :
    l.Drove plan s (.hold p) (l.turnBackOn plan s p until_).1 (l.turnBackOn plan s p until_).2.1
      (l.turnBackOn plan s p until_).2.2 := by
  unfold turnBackOn
  dsimp only
  split
  · exact .rest
  · rename_i hon
    have hne : Drive.hold (p.onDuration plan.tuning.rampDown + until_) ≠ (.hold 0 : Drive R) :=
      fun h => hon (Nat.eq_zero_of_add_eq_zero_right (Drive.hold.inj h))
    dsimp only
    split
    · exact .setAmplitude (.drive _ hne (.inl reported)) _
    · exact .drive _ hne (.inl reported)

theorem playHold_plays (p : Position R) : l.Plays plan s (.hold p) (l.playHold plan s p) := by
  unfold playHold
  dsimp only
  split
  · rename_i early
    exact .wait rfl early rfl
  · split
    · split
      · exact .follow .rest ..
      · split
        · split
          · exact .follow .stop ..
          · exact .follow .rest ..
        · split
          · rename_i hon
            simp only [Bool.and_eq_true, bne_iff_ne, Bool.not_eq_true'] at hon
            have hne : Drive.hold (p.onDuration plan.tuning.rampDown) ≠ (.hold 0 : Drive R) :=
              fun h => hon.2 (Drive.hold.inj h)
            have due : l.Due s.now (.hold p) := hon.1
            exact .follow (.setAmplitude (.drive _ hne (.inr due)) _) ..
          · exact .follow (.setAmplitude .rest _) ..
    · exact .follow .rest ..

theorem playPrebaked_plays (p : Position R) :
    l.Plays plan s (.prebaked p) (l.playPrebaked plan s p) := by
  unfold playPrebaked
  dsimp only
  split
  · exact .follow (.drive (.prebaked _) nofun (.inr (by trivial))) ..
  · exact .follow .rest ..

theorem playRun_plays {task : Task R} (due : l.Due s.now task) (p : Position R) (count : Nat)
    {x : Drive R} (h : x ≠ .hold 0) : l.Plays plan s task (l.playRun plan s p count x) := by
  unfold playRun
  dsimp only
  split
  · exact .follow .rest ..
  · exact .follow (.drive _ h (.inr due)) ..

theorem playComplete_plays (cancelled : Bool) :
    l.Plays plan s (.complete cancelled) (l.playComplete plan s cancelled) := by
  unfold playComplete
  split
  · exact .halt
  · dsimp only
    split
    · split
      · exact .halt
      · exact .follow .rest ..
    · split
      · exact .follow (.shorten _ (by rename_i h; rw [h])) ..
      · exact .follow .rest ..

theorem playRampOff_plays (target delta : R) :
    l.Plays plan s (.rampOff target delta) (l.playRampOff plan s target delta) := by
  unfold playRampOff
  split
  · exact .halt
  · dsimp only
    split <;> exact .follow (.setAmplitude .rest _) ..

theorem play_plays (task : Task R) : l.Plays plan s task (l.play plan s task) := by
  cases task with
  | hold p => exact l.playHold_plays s plan p
  | prebaked p => exact l.playPrebaked_plays s plan p
  | composition p | ramps p | envelope p => exact l.playRun_plays s plan (by trivial) p _ nofun
  | vendor v => exact .follow (.drive (.vendor v) nofun (.inr (by trivial))) ..
  | complete c => exact l.playComplete_plays s plan c
  | rampOff target delta => exact l.playRampOff_plays s plan target delta
  | turnOff => exact .halt

end

/-! ## What follows a play -/

section
variable [Level R] {l : Lane} {plan : Plan R} {s : Stage R} {task : Task R} {p : Played R}

theorem turnBackOn_eq (reported : l.reported = true) {q : Position R} {until_ : Nat} {n : Int}
    {l' : Lane} {s' : Stage R} (h : l.turnBackOn plan s q until_ = (n, l', s')) :
    l.Drove plan s (.hold q) n l' s' := by
  have H := l.turnBackOn_drove s plan reported q until_
  rwa [h] at H

theorem Plays.deeds (H : l.Plays plan s task p) : ∃ ds, s.Does l.actuator ds p.stage ∧
    (Deed.drives ds = [] ∧ p.result = 0 ∨ Deed.drives ds = [(l.actuator, p.result)]) := by
  cases H with
  | halt => exact ⟨_, .stop l, .inl ⟨rfl, rfl⟩⟩
  | wait _ early back => exact (turnBackOn_eq early.1 back).deeds
  | @follow n l' s' h start next =>
    obtain ⟨ds, hds, hn⟩ := h.deeds
    have K := hds.trans (.issue start l'.actuator l'.deadline next)
    rw [List.append_nil] at K
    exact ⟨ds, K, hn⟩

/-- Unless its effect is over, an actuator has exactly one step again. -/
theorem Plays.parts (H : l.Plays plan s task p) :
    p = ⟨s.stop l, [], 0⟩ ∨ p.next.map Step.part = [.lane l.actuator] := by
  cases H with
  | halt => exact .inl rfl
  | wait _ early back =>
    exact .inr (congrArg (fun a => [Part.lane a]) (turnBackOn_eq early.1 back).same)
  | follow h => exact .inr (congrArg (fun a => [Part.lane a]) h.same)

theorem Plays.actuators (H : l.Plays plan s task p) : p = ⟨s.stop l, [], 0⟩ ∨
    p.next.filterMap Scheduled.actuator? = [l.actuator] := by
  cases H with
  | halt => exact .inl rfl
  | wait _ early back => exact .inr (congrArg (fun a => [a]) (turnBackOn_eq early.1 back).same)
  | follow h => exact .inr (congrArg (fun a => [a]) h.same)

theorem Plays.lanes (H : l.Plays plan s task p) : ∀ x ∈ p.next, x.part = .lane l.actuator := by
  intro x hx
  have hx := List.mem_map_of_mem (f := Step.part) hx
  rcases H.parts with rfl | h
  · cases hx
  · rw [h] at hx
    exact List.mem_singleton.mp hx

/-- A step waits for the report of a successful drive. -/
theorem Plays.pending (H : l.Plays plan s task p) (h : 0 < p.result) : ∃ l' task',
    .lane l' task' ∈ p.next ∧ l'.actuator = l.actuator ∧ l'.deadline.isPending s.now = true := by
  cases H with
  | halt => exact absurd h (Int.lt_irrefl 0)
  | wait _ early back =>
    have hd := turnBackOn_eq early.1 back
    exact ⟨_, _, List.mem_singleton_self _, hd.same, hd.pending h⟩
  | follow hd => exact ⟨_, _, List.mem_singleton_self _, hd.same, hd.pending h⟩

theorem Plays.active (H : l.Plays plan s task p) {a : ActuatorId}
    (on : p.stage.rig.isActive a = true) :
    s.rig.isActive a = true ∨ a = l.actuator ∧ 0 < p.result := by
  cases H with
  | halt =>
    have hstop := s.rig.isActive_stop l.actuator a
    exact .inl (Bool.and_eq_true_iff.mp (hstop ▸ on)).1
  | wait _ early back => exact (turnBackOn_eq early.1 back).active on
  | follow h => exact h.active on

end
end Lane
end Haptics
