import Haptics.Conductor.Opening

/-!
# Lanes that look alike

What a step does depends on little: on its lane, on the clock, and on what the device of its
actuator shows. If two lanes on two stages show the same and requests keep it so
(`Lane.Likeness`), the same task does the same in both (`Lane.Likeness.play`).
-/

namespace Haptics

variable {R : Type} [Level R]

/-- A deadline without the number of the step it belongs to. -/
def Deadline.blank : Deadline → Deadline
  | idle => idle
  | .at t _ => .at t 0
  | indefinite _ => indefinite 0

namespace Deadline

variable {d d' : Deadline} (h : d'.blank = d.blank)
include h

theorem isPending_of_blank (now : Nat) : d'.isPending now = d.isPending now := by
  have hblank : ∀ d : Deadline, d.isPending now = d.blank.isPending now := by
    intro d
    cases d <;> rfl
  rw [hblank, h, ← hblank]

theorem covers_of_blank (t : Nat) : d'.covers t = d.covers t := by
  have hblank : ∀ d : Deadline, d.covers t = d.blank.covers t := by
    intro d
    cases d <;> rfl
  rw [hblank, h, ← hblank]

theorem remaining_of_blank (now grace : Nat) : d'.remaining? now grace = d.remaining? now grace := by
  have hblank : ∀ d : Deadline, d.remaining? now grace = d.blank.remaining? now grace := by
    intro d
    cases d <;> rfl
  rw [hblank, h, ← hblank]

theorem turnOff_of_blank (now : Nat) : d'.turnOff now = d.turnOff now := by
  have hblank : ∀ d : Deadline, d.turnOff now = d.blank.turnOff now := by
    intro d
    cases d <;> rfl
  rw [hblank, h, ← hblank]

omit h in
theorem turnOff_ne_afterPending (d : Deadline) (now : Nat) : d.turnOff now ≠ .afterPending := by
  cases d <;> exact StartTime.noConfusion

end Deadline

namespace Lane

theorem goOn_ne_afterPending (now : Nat) (result : Int) : goOn now result ≠ .afterPending := by
  unfold goOn StartTime.after
  split
  · split
    · exact StartTime.noConfusion
    · split <;> exact StartTime.noConfusion
  · exact StartTime.noConfusion

/-- Lanes on stages that `M` relates look alike, and the requests of the one and of the other keep
them related. -/
structure Likeness (plan : Plan R) (M : Lane → Stage R → Lane → Stage R → Prop) : Prop where
  now {l s l' s'} : M l s l' s' → s'.now = s.now
  start {l s l' s'} : M l s l' s' → l'.start = l.start
  reported {l s l' s'} : M l s l' s' → l'.reported = l.reported
  deadline {l s l' s'} : M l s l' s' → l'.deadline.blank = l.deadline.blank
  amplitude {l s l' s'} : M l s l' s' → s'.rig.amplitude l'.actuator = s.rig.amplitude l.actuator
  isActive {l s l' s'} : M l s l' s' → s'.rig.isActive l'.actuator = s.rig.isActive l.actuator
  limit {l s l' s'} : M l s l' s' → ∀ f, l'.limit s' f = l.limit s f
  drive {l s l' s'} (x : Drive R) : M l s l' s' →
    (s'.drive plan l' x).1 = (s.drive plan l x).1 ∧
      M (s.drive plan l x).2.1 (s.drive plan l x).2.2 (s'.drive plan l' x).2.1
        (s'.drive plan l' x).2.2
  stop {l s l' s'} : M l s l' s' → M l (s.stop l) l' (s'.stop l')
  setAmplitude {l s l' s'} (x : R) : M l s l' s' →
    M l (s.setAmplitude l x) l' (s'.setAmplitude l' x)
  issue {l s l' s' start} (lane : start ≠ .afterPending) : M l s l' s' →
    M { id := s.nextStep, start, actuator := l.actuator, deadline := l.deadline }
      { s with nextStep := s.nextStep + 1 }
      { id := s'.nextStep, start, actuator := l'.actuator, deadline := l'.deadline }
      { s' with nextStep := s'.nextStep + 1 }
  idle {l s l' s'} : M l s l' s' → M { l with deadline := .idle } s { l' with deadline := .idle } s'
  unreported {l s l' s'} : M l s l' s' →
    M { l with reported := false } s { l' with reported := false } s'
  ramp {l s l' s'} (t : Nat) : M l s l' s' →
    M { l with deadline := .at t (l.deadline.awaiting?.getD l.id) } s
      { l' with deadline := .at t (l'.deadline.awaiting?.getD l'.id) } s'

/-- Two plays have the same answer and leave related stages, both without a step or both with a step
for the same task in related lanes. -/
inductive Likely (M : Lane → Stage R → Lane → Stage R → Prop) : Played R → Played R → Prop
  | halt {l s l' s' result} : M l s l' s' → Likely M ⟨s, [], result⟩ ⟨s', [], result⟩
  | follow {l s l' s' result} (task) : M l s l' s' →
    Likely M ⟨s, [.lane l task], result⟩ ⟨s', [.lane l' task], result⟩

namespace Likeness

variable {plan : Plan R} {M : Lane → Stage R → Lane → Stage R → Prop} (K : Likeness plan M)
  {l l' : Lane} {s s' : Stage R}
include K

theorem instant (H : M l s l' s') (now : Nat) : l'.instant now = l.instant now := by
  unfold Lane.instant
  rw [K.start H]

theorem followed (H : M l s l' s') {start : StartTime} (lane : start ≠ .afterPending)
    (task : Task R) (result : Int) :
    Likely M (.followed s l start task result) (.followed s' l' start task result) :=
  .follow task (K.issue lane H)

theorem followedAt (H : M l s l' s') (t : Nat) (task : Task R) (result : Int) :
    Likely M (.followed s l (.at t) task result) (.followed s' l' (.at t) task result) :=
  K.followed H StartTime.noConfusion task result

theorem wentOn (H : M l s l' s') (now : Nat) (task : Task R) (result : Int) :
    Likely M (.followed s l (goOn now result) task result)
      (.followed s' l' (goOn now result) task result) :=
  K.followed H (goOn_ne_afterPending now result) task result

theorem turnedOff (H : M l s l' s') (d : Deadline) (now : Nat) :
    Likely M (.followed s l (d.turnOff now) .turnOff 0)
      (.followed s' l' (d.turnOff now) .turnOff 0) :=
  K.followed H (d.turnOff_ne_afterPending now) .turnOff 0

theorem turnBackOn (H : M l s l' s') (p : Position R) (t : Nat) :
    (l'.turnBackOn plan s' p t).1 = (l.turnBackOn plan s p t).1 ∧
      M (l.turnBackOn plan s p t).2.1 (l.turnBackOn plan s p t).2.2
        (l'.turnBackOn plan s' p t).2.1 (l'.turnBackOn plan s' p t).2.2 := by
  unfold Lane.turnBackOn
  dsimp only
  split
  · exact ⟨rfl, H⟩
  · obtain ⟨hresult, hdrive⟩ :=
      K.drive (.hold (p.onDuration plan.tuning.rampDown + t)) H
    rw [K.amplitude H, hresult]
    refine ⟨rfl, ?_⟩
    split
    · exact K.setAmplitude _ hdrive
    · exact hdrive

/-- Drives an actuator that is not expected to be on then. -/
theorem driveUnless (H : M l s l' s') (c : Prop) [Decidable c] (x : Drive R) :
    (if c then s'.drive plan l' x else (0, l', s')).1 =
        (if c then s.drive plan l x else (0, l, s)).1 ∧
      M (if c then s.drive plan l x else (0, l, s)).2.1
        (if c then s.drive plan l x else (0, l, s)).2.2
        (if c then s'.drive plan l' x else (0, l', s')).2.1
        (if c then s'.drive plan l' x else (0, l', s')).2.2 := by
  split
  · exact K.drive x H
  · exact ⟨rfl, H⟩

theorem playHold (H : M l s l' s') (p : Position R) :
    Likely M (l.playHold plan s p) (l'.playHold plan s' p) := by
  unfold Lane.playHold
  dsimp only
  rw [K.now H, K.instant H, K.reported H]
  split
  · obtain ⟨hresult, hback⟩ := K.turnBackOn H p (l.instant s.now - s.now)
    rw [hresult]
    exact .follow _ (K.unreported hback)
  · split
    · rename_i h _
      split
      · exact K.followedAt H _ _ _
      · split
        · rw [Deadline.isPending_of_blank (K.deadline H), K.isActive H]
          split
          · exact K.followedAt (K.stop (K.idle H)) _ _ _
          · exact K.followedAt H _ _ _
        · rw [Deadline.covers_of_blank (K.deadline H)]
          obtain ⟨hresult, hdrive⟩ := K.driveUnless H
            ((!l.deadline.covers (l.instant s.now) &&
              p.onDuration plan.tuning.rampDown != 0) = true)
            (.hold (p.onDuration plan.tuning.rampDown))
          rw [hresult]
          exact K.followedAt (K.setAmplitude _ hdrive) _ _ _
    · exact K.followedAt H _ _ _

theorem playPrebaked (H : M l s l' s') (p : Position R) :
    Likely M (l.playPrebaked plan s p) (l'.playPrebaked plan s' p) := by
  unfold Lane.playPrebaked
  dsimp only
  rw [K.now H]
  split
  · obtain ⟨hresult, hdrive⟩ := K.drive _ H
    rw [hresult]
    exact K.wentOn hdrive _ _ _
  · rw [K.instant H]
    exact K.followedAt H _ _ _

theorem playRun (H : M l s l' s') (p : Position R) (count : Nat) (x : Drive R) :
    Likely M (l.playRun plan s p count x) (l'.playRun plan s' p count x) := by
  unfold Lane.playRun
  dsimp only
  rw [K.now H]
  split
  · rw [K.instant H]
    exact K.followedAt H _ _ _
  · obtain ⟨hresult, hdrive⟩ := K.drive x H
    rw [hresult]
    exact K.wentOn hdrive _ _ _

theorem playComplete (H : M l s l' s') (cancelled : Bool) :
    Likely M (l.playComplete plan s cancelled) (l'.playComplete plan s' cancelled) := by
  have hramp : ∀ now, l'.rampDownTime plan.tuning now = l.rampDownTime plan.tuning now := by
    intro now
    unfold rampDownTime
    rw [Deadline.remaining_of_blank (K.deadline H)]
  unfold Lane.playComplete
  by_cases hreported : l.reported = true
  · rw [if_pos hreported, if_pos ((K.reported H).trans hreported)]
    exact .halt (K.stop H)
  · have hreported' : ¬l'.reported = true := by rwa [K.reported H]
    rw [if_neg hreported, if_neg hreported']
    dsimp only
    rw [K.now H, K.amplitude H, hramp, Deadline.turnOff_of_blank (K.deadline H)]
    split
    · split
      · exact .halt (K.stop H)
      · exact K.turnedOff H _ _
    · split
      · have hdown := K.ramp (s.now + l.rampDownTime plan.tuning s.now) H
        rw [K.instant hdown]
        exact K.followedAt hdown _ _ _
      · rw [K.instant H]
        exact K.followedAt H _ _ _

theorem playRampOff (H : M l s l' s') (target delta : R) :
    Likely M (l.playRampOff plan s target delta) (l'.playRampOff plan s' target delta) := by
  unfold Lane.playRampOff
  rw [K.reported H]
  split
  · exact .halt (K.stop H)
  · dsimp only
    have hset := K.setAmplitude target H
    rw [K.now H, K.instant H, Deadline.turnOff_of_blank (K.deadline H)]
    split
    · exact K.turnedOff hset _ _
    · exact K.followedAt hset _ _ _

theorem play (H : M l s l' s') (task : Task R) :
    Likely M (l.play plan s task) (l'.play plan s' task) := by
  cases task with
  | hold p => exact K.playHold H p
  | prebaked p => exact K.playPrebaked H p
  | composition p =>
    show Likely M (l.playComposition plan s p) (l'.playComposition plan s' p)
    unfold playComposition
    rw [K.limit H]
    exact K.playRun H _ _ _
  | ramps p =>
    show Likely M (l.playRamps plan s p) (l'.playRamps plan s' p)
    unfold playRamps
    rw [K.limit H]
    exact K.playRun H _ _ _
  | envelope p =>
    show Likely M (l.playEnvelope plan s p) (l'.playEnvelope plan s' p)
    unfold playEnvelope
    rw [K.limit H]
    exact K.playRun H _ _ _
  | vendor v =>
    show Likely M (l.playVendor plan s v) (l'.playVendor plan s' v)
    unfold playVendor
    dsimp only
    obtain ⟨hresult, hdrive⟩ := K.drive (.vendor v) H
    rw [K.now H, hresult]
    exact K.wentOn hdrive _ _ _
  | complete cancelled => exact K.playComplete H cancelled
  | rampOff target delta => exact K.playRampOff H target delta
  | turnOff => exact .halt (K.stop H)

end Likeness
end Lane
end Haptics
