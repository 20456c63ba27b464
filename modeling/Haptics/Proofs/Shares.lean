import Haptics.Proofs.Hardware
import Haptics.Proofs.Deeds
import Haptics.Proofs.Likeness
import Haptics.Proofs.Lists
import Haptics.Proofs.Timers
import Haptics.Proofs.Voices
import Mathlib.Logic.Relator

/-!
# One actuator's share of a stage

What concerns one actuator on a stage is its device, the completions on their way to it, and what
was asked of it. Two stages share this up to the numbers of the steps (`Stage.Shares`) if there is a
relation between the numbers of the one and of the other under which all of it is the same. Playing
the actuator's step keeps two stages so, with one more pair of numbers (`Stage.shares_likeness`),
and playing a step of another actuator on one of them does, too (`Stage.Shares.play_aside`).
-/

namespace Haptics

variable {R α : Type}

/-- The actuator that a call is about, if it is about one. -/
def Call.actuator? : Call R → Option ActuatorId
  | on a _ | off a | setAmplitude a _ | setExternalControl a _ | perform a _ _ | compose a _
  | composeRamps a _ | composeEnvelope a _ | performVendor a | alwaysOn a _ _ => some a
  | prepare _ | trigger | cancelSync | startSession _ | endSession _ | clearSessions => none

/-! ## Operations on a device -/

/-- A signal of an actuator that is not a completion. -/
def Signal.Shown (a : ActuatorId) : Signal R → Prop
  | .call c => c.actuator? = some a
  | .payload _ _ | .flip _ => True
  | .arm _ _ => False

namespace Device

/-- A device that knows under which number it is registered. -/
structure Filed (a : ActuatorId) (d : Device R) : Prop where
  control : d.control.id = a
  motor : d.motor.id = a

/-- The same with other completions held back. -/
def holding (d : Device R) (hs : List Report) : Device R :=
  { d with motor := { d.motor with held := hs } }

/-- What the hardware reports at the end of a drive for a step. -/
def report (d : Device R) (v i : Nat) : Report :=
  if d.control.attached then .step d.id v i else .unheard

/-- What an operation does to a device, whatever its motor held back and whoever hears of its
end. -/
structure Outcome (R α : Type) where
  value : α
  control : Control R
  handed : Nat
  /-- Whether the completion is held back. -/
  isHeld : Bool := false
  /-- After which time the completion arrives by itself. -/
  delay? : Option Nat := none
  before : List (Signal R) := []
  after : List (Signal R) := []

def Outcome.reaction (o : Outcome R α) (d : Device R) (r : Report) : Reaction R α where
  value := o.value
  device := { d with
    control := o.control
    motor := { d.motor with
      handed := o.handed
      held := bif o.isHeld then d.motor.held ++ [r] else d.motor.held } }
  signals := o.before ++ o.delay?.toList.map (.arm · r) ++ o.after

structure Outcome.Fits (o : Outcome R α) (a : ActuatorId) : Prop where
  control : o.control.id = a
  before : ∀ x ∈ o.before, x.Shown a
  after : ∀ x ∈ o.after, x.Shown a

/-- An operation for a step does not look at what the motor holds back, and looks at the number of
the step only to report it. -/
def Uniform (v : Nat) (f : Nat → Device R → Reaction R α) : Prop :=
  ∀ a d, Filed a d → ∃ o : Outcome R α, o.Fits a ∧
    ∀ hs i, f i (d.holding hs) = o.reaction (d.holding hs) (d.report v i)

variable {a : ActuatorId} {d : Device R}

theorem Filed.driveSignals (H : d.Filed a) (x : Drive R) :
    ∀ y ∈ d.motor.driveSignals x, y.Shown a := by
  have hid := H.motor
  cases x <;> simp [Motor.driveSignals, Signal.Shown, Drive.call, Call.actuator?, hid]

theorem shown_attempt (fault : Option HardwareError) {c : Call R} (h : c.actuator? = some a) :
    ∀ y ∈ (Motor.attempt fault c).2, y.Shown a := by
  unfold Motor.attempt
  split
  · exact fun _ hy => (List.not_mem_nil hy).elim
  · intro y hy
    rw [List.mem_singleton.mp hy]
    exact h

/-- The device stays as it is. -/
theorem Filed.still (H : d.Filed a) (v : Nat) (value : α) {xs : List (Signal R)}
    (h : ∀ y ∈ xs, y.Shown a) :
    ∃ o : Outcome R α, o.Fits a ∧ ∀ (hs : List Report) (i : Nat),
      (⟨value, d.holding hs, xs⟩ : Reaction R α) = o.reaction (d.holding hs) (d.report v i) :=
  ⟨{ value, control := d.control, handed := d.motor.handed, after := xs },
    ⟨H.control, fun _ hy => (List.not_mem_nil hy).elim, h⟩, fun _ _ => rfl⟩

/-- A motor holds a completion back or lets it arrive, whoever it is for. -/
theorem exists_armed (d : Device R) (reports optional : Bool) (ms : Option Nat) :
    ∃ (handed : Nat) (isHeld : Bool) (delay? : Option Nat), ∀ (hs : List Report) (r : Report),
      (if reports then
        if optional && !d.control.attached then ((d.holding hs).motor, [])
        else (d.holding hs).motor.schedule ms r
      else ((d.holding hs).motor, if d.control.attached then [.arm (ms.getD 0) r] else [])) =
        ({ d.motor with handed, held := bif isHeld then hs ++ [r] else hs },
          (delay?.toList.map (.arm · r) : List (Signal R))) := by
  cases reports with
  | false =>
    cases d.control.attached with
    | false => exact ⟨_, false, none, fun _ _ => rfl⟩
    | true => exact ⟨_, false, some (ms.getD 0), fun _ _ => rfl⟩
  | true =>
    cases optional && !d.control.attached with
    | true => exact ⟨_, false, none, fun _ _ => rfl⟩
    | false =>
      have hmanual : ∀ hs, (d.holding hs).motor.manual = d.motor.manual := fun _ => rfl
      unfold Motor.schedule
      simp only [hmanual]
      cases ms with
      | none => exact ⟨d.motor.handed + 1, true, none, fun _ _ => rfl⟩
      | some ms =>
        cases d.motor.manual with
        | true => exact ⟨d.motor.handed + 1, true, none, fun _ _ => rfl⟩
        | false => exact ⟨d.motor.handed + 1, false, some (ms + d.motor.latency), fun _ _ => rfl⟩

/-! ### What does not depend on the completions held back -/

section
variable (d : Device R) (hs : List Report) (x : Drive R)

theorem promised_holding : (d.holding hs).promised? x = d.promised? x := by cases x <;> rfl

theorem reportsItself_holding : (d.holding hs).reportsItself x = d.reportsItself x := by
  cases x <;> rfl

theorem duration_holding : (d.holding hs).motor.duration? x = d.motor.duration? x := by
  cases x <;> rfl

theorem driveSignals_holding :
    (d.holding hs).motor.driveSignals x = d.motor.driveSignals x := by
  cases x <;> rfl

end

section
variable [Level R]

theorem shown_enter (x : Activity) : ∀ y ∈ (d.enter x).2, y.Shown a := by
  intro y hy
  obtain ⟨f, -, rfl⟩ := List.mem_map.mp hy
  trivial

/-- The device vibrates. -/
theorem Filed.started (H : d.Filed a) (value : α) (x : Drive R) (v handed : Nat) (isHeld : Bool)
    (delay? : Option Nat) : ∃ o : Outcome R α, o.Fits a ∧ ∀ (hs : List Report) (i : Nat),
      (⟨value, (enter { d with motor := { d.motor with
          handed, held := bif isHeld then hs ++ [d.report v i] else hs } } .vibrating).1,
        d.motor.driveSignals x ++ delay?.toList.map (.arm · (d.report v i)) ++
          (d.enter .vibrating).2⟩ : Reaction R α) = o.reaction (d.holding hs) (d.report v i) :=
  ⟨{ value, control := (d.enter .vibrating).1.control, handed, isHeld, delay?,
      before := d.motor.driveSignals x, after := (d.enter .vibrating).2 },
    ⟨H.control, H.driveSignals x, shown_enter _⟩, fun _ _ => rfl⟩

theorem driveDirect_uniform (v : Nat) (x : Drive R) :
    Uniform v fun i (d : Device R) => d.driveDirect v i x := by
  intro a d H
  have hstill := fun value : Int => H.still v value (H.driveSignals x)
  have hrefused := H.still v (0 : Int) fun _ hy => (List.not_mem_nil hy).elim
  have hstarted : ∀ ms, ∃ o : Outcome R Int, o.Fits a ∧ ∀ (hs : List Report) (i : Nat),
      (⟨driveResult ms, ((d.holding hs).enter .vibrating).1, d.motor.driveSignals x ++
        (if d.control.attached then [.arm ms (.step d.id v i)] else []) ++
          ((d.holding hs).enter .vibrating).2⟩ : Reaction R Int) =
        o.reaction (d.holding hs) (d.report v i) := by
    intro ms
    have harmed := H.started (driveResult ms) x v d.motor.handed false
    unfold report at harmed ⊢
    cases hattached : d.control.attached with
    | true =>
      rw [hattached] at harmed
      exact harmed (some ms)
    | false =>
      rw [hattached] at harmed
      exact harmed none
  have hneeds : ∀ hs, (x.needs.any fun c => !(d.holding hs).control.profile.can c) =
      x.needs.any fun c => !d.control.profile.can c := fun _ => rfl
  have hfailure : ∀ hs, (d.holding hs).motor.failure = d.motor.failure := fun _ => rfl
  unfold driveDirect
  simp only [hneeds, hfailure, duration_holding, driveSignals_holding]
  split
  · exact hrefused
  · exact hrefused
  · split
    · exact hrefused
    · split
      · exact hstill _
      · exact hstill _
      · exact hstill _
      · exact hstill _
      · exact hstarted _

theorem driveNegotiated_uniform (v : Nat) (x : Drive R) :
    Uniform v fun i (d : Device R) => d.driveNegotiated v i x := by
  intro a d H
  have hstill := fun value : Int => H.still v value (H.driveSignals x)
  have hrefused := H.still v (0 : Int) fun _ hy => (List.not_mem_nil hy).elim
  have hreport : ∀ i, (if d.control.attached then .step d.id v i else .unheard) = d.report v i :=
    fun _ => rfl
  have hneeds : ∀ hs, (x.needs.any fun c => !(d.holding hs).control.profile.can c) =
      x.needs.any fun c => !d.control.profile.can c := fun _ => rfl
  have hfailure : ∀ hs, (d.holding hs).motor.failure = d.motor.failure := fun _ => rfl
  have hattached : ∀ hs, (d.holding hs).control.attached = d.control.attached := fun _ => rfl
  have hid : ∀ hs, (d.holding hs).id = d.id := fun _ => rfl
  unfold driveNegotiated
  simp only [hneeds, hfailure, hattached, hid, duration_holding, driveSignals_holding,
    promised_holding, reportsItself_holding]
  simp only [hreport]
  split
  · exact hrefused
  · split
    · exact hstill _
    · exact hstill _
    · rename_i x _ _ _ _ _ _
      have harmed := fun optional =>
        d.exists_armed (d.reportsItself x) optional (d.motor.duration? x)
      cases x with
      | hold | prebaked =>
        obtain ⟨handed, isHeld, delay?, harmed⟩ := harmed true
        simp only [harmed]
        exact H.started _ _ v handed isHeld delay?
      | composition | ramps | envelope | vendor =>
        obtain ⟨handed, isHeld, delay?, harmed⟩ := harmed false
        simp only [harmed]
        exact H.started _ _ v handed isHeld delay?

theorem drive_uniform (v : Nat) (x : Drive R) :
    Uniform v fun i (d : Device R) => d.drive v i x := by
  intro a d H
  have hinterface : ∀ hs, (d.holding hs).interface = d.interface := fun _ => rfl
  unfold drive
  simp only [hinterface]
  split
  · exact driveNegotiated_uniform v x a d H
  · exact driveDirect_uniform v x a d H

theorem stop_uniform (v : Nat) : Uniform v fun _ (d : Device R) =>
    let (d, signals) := d.stop
    (⟨(), d, signals⟩ : Reaction R Unit) := by
  intro a d H
  have hcalls := shown_attempt (R := R) d.motor.faults.off
    (c := .off d.id) (congrArg some H.control)
  let o : Outcome R Unit := {
    value := ()
    control := (d.enter .idle).1.control
    handed := d.motor.handed
    after := (Motor.attempt d.motor.faults.off (.off d.id)).2 ++ (d.enter .idle).2 }
  have hshown : ∀ y ∈ o.after, y.Shown a := fun y hy =>
    (List.mem_append.mp hy).elim (hcalls y) (shown_enter _ y)
  exact ⟨o, ⟨H.control, fun _ hy => (List.not_mem_nil hy).elim, hshown⟩, fun _ _ => rfl⟩

omit [Level R] in
theorem setAmplitude_uniform (v : Nat) (x : R) :
    Uniform v fun _ (d : Device R) => d.setAmplitude x := by
  intro a d H
  have hrefused := H.still v false fun _ hy => (List.not_mem_nil hy).elim
  have hcan : ∀ hs, (d.holding hs).control.profile.can .amplitudeControl =
      d.control.profile.can .amplitudeControl := fun _ => rfl
  have hfaults : ∀ hs, (d.holding hs).motor.faults = d.motor.faults := fun _ => rfl
  have hid : ∀ hs, (d.holding hs).id = d.id := fun _ => rfl
  have hcalls : ∀ y ∈ (Motor.attempt d.motor.faults.amplitude (.setAmplitude d.id x)).2,
      y.Shown a := shown_attempt _ (congrArg some H.control)
  unfold setAmplitude
  simp only [hcan, hfaults, hid]
  split
  · generalize Motor.attempt (R := R) d.motor.faults.amplitude (.setAmplitude d.id x) = attempt
      at hcalls ⊢
    obtain ⟨ok, calls⟩ := attempt
    cases ok with
    | true =>
      have hrecord : (d.control.recordAmplitude x).id = a := by
        unfold Control.recordAmplitude
        split <;> exact H.control
      let o : Outcome R Bool := {
        value := true
        control := d.control.recordAmplitude x
        handed := d.motor.handed
        after := calls }
      exact ⟨o, ⟨hrecord, fun _ hy => (List.not_mem_nil hy).elim, hcalls⟩, fun _ _ => rfl⟩
    | false => exact H.still v false hcalls
  · exact hrefused

end
end Device

/-! ## Reports and devices up to the numbers of the steps -/

/-- If a report belongs to the vibration `v`, it is about a step of the actuator `b`. -/
def Report.From (v : Nat) (b : ActuatorId) : Report → Prop
  | .step c w _ => w = v → c = b
  | .synced w => w ≠ v
  | .session _ | .unheard => True

theorem Device.Filed.report_from {d : Device R} {b : ActuatorId} (H : d.Filed b) (v i : Nat) :
    (d.report v i).From v b := by
  unfold Device.report
  split
  · exact fun _ => H.control
  · trivial

section
variable (a : ActuatorId) (v : Nat) (ρ : Nat → Nat → Prop)

/-- Neither report is about a step of the actuator, or both are and the steps correspond. -/
def Report.Alike (x y : Report) : Prop := Option.Rel ρ (x.step? a v) (y.step? a v)

/-- The devices differ in nothing but the numbers in what their motors hold back. -/
def Device.Alike (d d' : Device R) : Prop :=
  ∃ hs, List.Forall₂ (Report.Alike a v ρ) d.motor.held hs ∧ d' = d.holding hs

def Timer.Alike (t u : Timer) : Prop := u.due = t.due ∧ t.report.Alike a v ρ u.report

/-- Whether a completion of the actuator arrives. -/
def Timer.isOwn (t : Timer) : Bool := (t.step? a v).isSome

end

section
variable {a b : ActuatorId} {v : Nat} {ρ σ : Nat → Nat → Prop}

theorem Report.From.step_of_ne {x : Report} (H : x.From v b) (h : b ≠ a) : x.step? a v = none := by
  cases x with
  | step c w i => exact if_neg fun hc => h ((H hc.2).symm.trans hc.1)
  | _ => rfl

theorem Timer.isOwn_eq (t : Timer) : t.isOwn a v = (t.report.step? a v).isSome :=
  Option.isSome_map ..

theorem Timer.Alike.isOwn {t u : Timer} (H : t.Alike a v ρ u) : u.isOwn a v = t.isOwn a v := by
  rw [Timer.isOwn_eq, Timer.isOwn_eq]
  exact H.2.isSome_eq

theorem Report.Alike.mono {x y : Report} (H : x.Alike a v ρ y) (h : ∀ i j, ρ i j → σ i j) :
    x.Alike a v σ y := H.imp h

theorem Device.Alike.mono {d d' : Device R} (H : d.Alike a v ρ d') (h : ∀ i j, ρ i j → σ i j) :
    d.Alike a v σ d' := by
  obtain ⟨hs, hheld, rfl⟩ := H
  exact ⟨hs, hheld.imp fun _ _ H => H.mono h, rfl⟩

theorem Timer.Alike.mono {t u : Timer} (H : t.Alike a v ρ u) (h : ∀ i j, ρ i j → σ i j) :
    t.Alike a v σ u := ⟨H.1, H.2.mono h⟩

/-- The completion of a drive for a step is like that of a drive for the step that corresponds. -/
theorem Device.Filed.report_alike {d : Device R} (H : d.Filed a) {i j : Nat} (h : ρ i j) :
    (d.report v i).Alike a v ρ (d.report v j) := by
  unfold Device.report Report.Alike
  split
  · have hstep : ∀ k, Report.step? a v (.step d.id v k) = some k := fun k => if_pos ⟨H.control, rfl⟩
    rw [hstep, hstep]
    exact .some h
  · exact .none

namespace Device.Outcome

variable (o : Device.Outcome R α) {d : Device R}

theorem Fits.filed {o : Device.Outcome R α} (F : o.Fits b) (H : d.Filed b) (x : Report) :
    (o.reaction d x).device.Filed b := ⟨F.control, H.motor⟩

theorem held_reaction (h : ∀ y ∈ d.motor.held, y.From v b) {x : Report} (hx : x.From v b) :
    ∀ y ∈ (o.reaction d x).device.motor.held, y.From v b := by
  intro y hy
  unfold reaction at hy
  cases hheld : o.isHeld with
  | false =>
    rw [hheld] at hy
    exact h y hy
  | true =>
    rw [hheld] at hy
    rcases List.mem_append.mp hy with hy | hy
    · exact h y hy
    · exact List.mem_singleton.mp hy ▸ hx

theorem alike_reaction {hs : List Report}
    (h : List.Forall₂ (Report.Alike a v ρ) d.motor.held hs) {x y : Report}
    (hxy : x.Alike a v ρ y) :
    (o.reaction d x).device.Alike a v ρ (o.reaction (d.holding hs) y).device := by
  unfold reaction
  cases o.isHeld with
  | false => exact ⟨hs, h, rfl⟩
  | true => exact ⟨hs ++ [y], List.rel_append h (.cons hxy .nil), rfl⟩

end Device.Outcome

theorem Rig.forall₂_arm {t u : Timer} (h : t.Alike a v ρ u) {xs ys : List Timer}
    (H : List.Forall₂ (Timer.Alike a v ρ) xs ys) :
    List.Forall₂ (Timer.Alike a v ρ) (arm t xs) (arm u ys) := by
  induction H with
  | nil => exact .cons h .nil
  | cons hxy hrest ih =>
    unfold arm
    rw [h.1, hxy.1]
    split
    · exact .cons h (.cons hxy hrest)
    · exact .cons hxy ih

end

/-! ## Rigs -/

/-- The devices of a rig are registered under their own numbers, the completions are in order, and
none for the vibration comes from the group or from a motor of another actuator. -/
structure Rig.Orderly (v : Nat) (r : Rig R) : Prop where
  filed {b : ActuatorId} {d : Device R} : r.device? b = some d → d.Filed b
  held {b : ActuatorId} {d : Device R} : r.device? b = some d → ∀ x ∈ d.motor.held, x.From v b
  timers : ∀ t ∈ r.timers, t.report ≠ .synced v
  timely : r.Timely

/-- The calls to an actuator. -/
def Rig.calls (r : Rig R) (a : ActuatorId) : List (Nat × Call R) :=
  r.log.toList.filter (·.2.actuator? = some a)

/-- What concerns an actuator is the same on two rigs up to the numbers of the steps. -/
structure Rig.Shares (a : ActuatorId) (v : Nat) (ρ : Nat → Nat → Prop) (r r' : Rig R) : Prop where
  orderly : r.Orderly v
  timely : r'.Timely
  now : r'.now = r.now
  device : Option.Rel (Device.Alike a v ρ) (r.device? a) (r'.device? a)
  timers : List.Forall₂ (Timer.Alike a v ρ) (r.timers.filter (·.isOwn a v))
    (r'.timers.filter (·.isOwn a v))
  calls : r'.calls a = r.calls a

namespace Rig

variable {a b : ActuatorId} {v : Nat} {ρ σ : Nat → Nat → Prop} {r r' : Rig R}

/-! ### Signals -/

theorem calls_note (c : Call R) : (r.note (.call c)).calls a =
    r.calls a ++ if c.actuator? = some a then [(r.now, c)] else [] := by
  unfold calls note
  rw [Array.toList_push, List.filter_append, List.filter_singleton]
  simp

theorem Orderly.note (H : r.Orderly v) {x : Signal R} (h : ∀ t, x ≠ .arm t (.synced v)) :
    (r.note x).Orderly v where
  filed hd := H.filed (by rwa [device?, note_devices] at hd)
  held hd := H.held (by rwa [device?, note_devices] at hd)
  timers := by
    cases x with
    | arm delay report =>
      intro t ht
      rcases mem_arm.mp ht with rfl | ht
      · exact fun hreport => h delay (congrArg _ hreport)
      · exact H.timers t ht
    | _ => exact H.timers
  timely := H.timely.note x

namespace Shares

theorem mono (H : r.Shares a v ρ r') (h : ∀ i j, ρ i j → σ i j) : r.Shares a v σ r' where
  orderly := H.orderly
  timely := H.timely
  now := H.now
  device := H.device.imp fun _ _ H => H.mono h
  timers := H.timers.imp fun _ _ H => H.mono h
  calls := H.calls

/-- Both rigs show the same. -/
theorem shown (H : r.Shares a v ρ r') {x : Signal R} (h : x.Shown b) :
    (r.note x).Shares a v ρ (r'.note x) where
  orderly := H.orderly.note (by rintro t rfl; exact h)
  timely := H.timely.note x
  now := by rw [note_now, note_now, H.now]
  device := by
    unfold device?
    rw [note_devices, note_devices]
    exact H.device
  timers := by
    cases x with
    | arm => exact h.elim
    | _ => exact H.timers
  calls := by
    cases x with
    | call c => rw [calls_note, calls_note, H.calls, H.now]
    | _ => exact H.calls

theorem shownAll (H : r.Shares a v ρ r') {xs : List (Signal R)} (h : ∀ x ∈ xs, x.Shown b) :
    (r.noteAll xs).Shares a v ρ (r'.noteAll xs) := by
  induction xs generalizing r r' with
  | nil => exact H
  | cons x xs ih =>
    exact ih (H.shown (h x List.mem_cons_self)) fun y hy => h y (List.mem_cons_of_mem x hy)

theorem arm (H : r.Shares a v ρ r') (delay : Nat) {x y : Report} (h : x.Alike a v ρ y)
    (hx : x.From v b) : (r.note (.arm delay x)).Shares a v ρ (r'.note (.arm delay y)) where
  orderly := H.orderly.note (by rintro t ⟨⟩; exact hx rfl)
  timely := H.timely.note _
  now := H.now
  device := H.device
  timers := by
    have halike : Timer.Alike a v ρ ⟨r.now + delay, x⟩ ⟨r'.now + delay, y⟩ :=
      ⟨congrArg (· + delay) H.now, h⟩
    show List.Forall₂ _ ((Rig.arm _ r.timers).filter _) ((Rig.arm _ r'.timers).filter _)
    rw [filter_arm _ _ H.orderly.timely, filter_arm _ _ H.timely, halike.isOwn]
    split
    · exact forall₂_arm halike H.timers
    · exact H.timers
  calls := H.calls

end Shares

/-! ### Operations -/

theorem noteAll_append (xs ys : List (Signal R)) :
    r.noteAll (xs ++ ys) = (r.noteAll xs).noteAll ys := List.foldl_append

theorem Orderly.file (H : r.Orderly v) {d : Device R} (filed : d.Filed b)
    (held : ∀ x ∈ d.motor.held, x.From v b) : (r.file b d).Orderly v where
  filed hd := by
    rw [device?_file] at hd
    split at hd
    · rename_i hc
      cases hd
      exact hc ▸ filed
    · exact H.filed hd
  held hd := by
    rw [device?_file] at hd
    split at hd
    · rename_i hc
      cases hd
      exact hc ▸ held
    · exact H.held hd
  timers := H.timers
  timely := H.timely

namespace Shares

theorem file (H : r.Shares a v ρ r') {d d' : Device R} (alike : d.Alike a v ρ d')
    (filed : d.Filed a) (held : ∀ x ∈ d.motor.held, x.From v a) :
    (r.file a d).Shares a v ρ (r'.file a d') where
  orderly := H.orderly.file filed held
  timely := H.timely
  now := H.now
  device := by
    rw [device?_file, device?_file, if_pos rfl, if_pos rfl]
    exact .some alike
  timers := H.timers
  calls := H.calls

/-- What does not depend on the completions held back is the same of both devices. -/
theorem map_device (H : r.Shares a v ρ r') (f : Device R → α) (h : ∀ d hs, f (d.holding hs) = f d) :
    (r'.device? a).map f = (r.device? a).map f := by
  have hdevice := H.device
  generalize r.device? a = d at hdevice ⊢
  generalize r'.device? a = d' at hdevice ⊢
  cases hdevice with
  | some alike =>
    obtain ⟨hs, -, rfl⟩ := alike
    exact congrArg some (h _ hs)
  | none => rfl

/-- An operation on the actuator for steps that correspond has the same answer. -/
theorem onDevice (H : r.Shares a v ρ r') {f : Nat → Device R → Reaction R α}
    (U : Device.Uniform v f) (other : α) {i j : Nat} (h : ρ i j) :
    (r'.onDevice a other (f j)).1 = (r.onDevice a other (f i)).1 ∧
      (r.onDevice a other (f i)).2.Shares a v ρ (r'.onDevice a other (f j)).2 := by
  have hdevice := H.device
  unfold Rig.onDevice
  cases hd : r.device? a with
  | none =>
    rw [hd] at hdevice
    generalize r'.device? a = device at hdevice ⊢
    cases hdevice
    exact ⟨rfl, H⟩
  | some d =>
    rw [hd] at hdevice
    generalize r'.device? a = device at hdevice ⊢
    cases hdevice with
    | some alike =>
      obtain ⟨hs, hheld, rfl⟩ := alike
      have hfiled := H.orderly.filed hd
      have hfrom := hfiled.report_from v i
      have halike := hfiled.report_alike (v := v) h
      obtain ⟨o, F, ho⟩ := U _ _ hfiled
      have hleft : f i d = o.reaction d (d.report v i) := ho d.motor.held i
      dsimp only
      rw [hleft, ho hs j]
      refine ⟨rfl, ?_⟩
      have hdone := H.file (o.alike_reaction hheld halike) (F.filed hfiled _)
        (o.held_reaction (H.orderly.held hd) hfrom)
      unfold Device.Outcome.reaction
      dsimp only
      rw [noteAll_append, noteAll_append, noteAll_append, noteAll_append]
      refine Shares.shownAll ?_ F.after
      cases o.delay? with
      | none => exact hdone.shownAll F.before
      | some delay => exact (hdone.shownAll F.before).arm delay halike hfrom

/-! ### Operations on other actuators -/

theorem note_aside (H : r.Shares a v ρ r') (hb : b ≠ a) {x : Signal R}
    (h : x.Shown b ∨ ∃ delay y, x = .arm delay y ∧ y.From v b) : (r.note x).Shares a v ρ r' where
  orderly := by
    refine H.orderly.note ?_
    rintro t rfl
    rcases h with h | ⟨delay, y, hy, hfrom⟩
    · exact h
    · cases hy
      exact hfrom rfl
  timely := H.timely
  now := by rw [note_now, H.now]
  device := by
    unfold device?
    rw [note_devices]
    exact H.device
  timers := by
    cases x with
    | arm delay y =>
      rcases h with h | ⟨_, _, hy, hfrom⟩
      · exact h.elim
      · cases hy
        have hown : Timer.isOwn a v ⟨r.now + delay, y⟩ = false := by
          rw [Timer.isOwn_eq, hfrom.step_of_ne hb]
          rfl
        show List.Forall₂ _ ((Rig.arm _ r.timers).filter _) _
        rw [filter_arm _ _ H.orderly.timely, hown, if_neg Bool.false_ne_true]
        exact H.timers
    | _ => exact H.timers
  calls := by
    cases x with
    | call c =>
      have hc : c.actuator? = some b := h.resolve_right (by rintro ⟨_, _, ⟨⟩, -⟩)
      rw [calls_note, hc, if_neg fun h => hb (Option.some.inj h), List.append_nil]
      exact H.calls
    | _ => exact H.calls

theorem noteAll_aside (H : r.Shares a v ρ r') (hb : b ≠ a) {xs : List (Signal R)}
    (h : ∀ x ∈ xs, x.Shown b ∨ ∃ delay y, x = .arm delay y ∧ y.From v b) :
    (r.noteAll xs).Shares a v ρ r' := by
  induction xs generalizing r with
  | nil => exact H
  | cons x xs ih =>
    exact ih (H.note_aside hb (h x List.mem_cons_self))
      fun y hy => h y (List.mem_cons_of_mem x hy)

theorem file_aside (H : r.Shares a v ρ r') (hb : b ≠ a) {d : Device R} (filed : d.Filed b)
    (held : ∀ x ∈ d.motor.held, x.From v b) : (r.file b d).Shares a v ρ r' where
  orderly := H.orderly.file filed held
  timely := H.timely
  now := H.now
  device := by
    rw [device?_file, if_neg (Ne.symm hb)]
    exact H.device
  timers := H.timers
  calls := H.calls

/-- An operation on another actuator changes nothing. -/
theorem onDevice_aside (H : r.Shares a v ρ r') (hb : b ≠ a) {f : Nat → Device R → Reaction R α}
    (U : Device.Uniform v f) (other : α) (i : Nat) :
    (r.onDevice b other (f i)).2.Shares a v ρ r' := by
  unfold Rig.onDevice
  split
  · exact H
  · rename_i d hd
    have hfiled := H.orderly.filed hd
    have hfrom := hfiled.report_from v i
    obtain ⟨o, F, ho⟩ := U _ _ hfiled
    have hleft : f i d = o.reaction d (d.report v i) := ho d.motor.held i
    dsimp only
    rw [hleft]
    refine (H.file_aside hb (F.filed hfiled _)
      (o.held_reaction (H.orderly.held hd) hfrom)).noteAll_aside hb fun x hx => ?_
    unfold Device.Outcome.reaction at hx
    rw [List.mem_append, List.mem_append] at hx
    rcases hx with (hx | hx) | hx
    · exact .inl (F.before x hx)
    · obtain ⟨delay, -, rfl⟩ := List.mem_map.mp hx
      exact .inr ⟨delay, _, rfl, hfrom⟩
    · exact .inl (F.after x hx)

/-- A call to the group changes nothing. -/
theorem noteCalls_aside (H : r.Shares a v ρ r') {cs : List (Call R)}
    (h : ∀ c ∈ cs, c.actuator? = none) : (r.noteCalls cs).Shares a v ρ r' := by
  unfold noteCalls
  induction cs generalizing r with
  | nil => exact H
  | cons c cs ih =>
    refine ih (r := r.note (.call c))
      ⟨H.orderly.note nofun, H.timely, H.now, H.device, H.timers, ?_⟩
      fun c hc => h c (List.mem_cons_of_mem _ hc)
    rw [calls_note, h c List.mem_cons_self, if_neg nofun, List.append_nil]
    exact H.calls

theorem group_aside (H : r.Shares a v ρ r') (g : Group) : Shares a v ρ { r with group := g } r' :=
  ⟨⟨H.orderly.filed, H.orderly.held, H.orderly.timers, H.orderly.timely⟩, H.timely, H.now, H.device,
    H.timers, H.calls⟩

end Shares
end Rig

/-! ## Stages -/

/-- Two requests to an actuator are the same up to the number of the step. -/
inductive Deed.Renamed (ρ : Nat → Nat → Prop) : Deed R → Deed R → Prop
  | drive {i j : Nat} (h : ρ i j) (a x n) : Renamed ρ (.drive a i x n) (.drive a j x n)
  | stop (a) : Renamed ρ (.stop a) (.stop a)
  | setAmplitude (a x ok) : Renamed ρ (.setAmplitude a x ok) (.setAmplitude a x ok)

/-- What was asked of an actuator, and when. -/
def Stage.share (s : Stage R) (a : ActuatorId) : List (Nat × Deed R) :=
  s.deeds.toList.filter (·.2.actuator? = some a)

/-- Requests at the same instants that are the same up to the numbers of the steps. -/
def Deed.SameShare (ρ : Nat → Nat → Prop) (ds es : List (Nat × Deed R)) : Prop :=
  List.Forall₂ (fun d e => e.1 = d.1 ∧ d.2.Renamed ρ e.2) ds es

theorem Deed.Renamed.mono {ρ σ : Nat → Nat → Prop} {d e : Deed R} (H : d.Renamed ρ e)
    (h : ∀ i j, ρ i j → σ i j) : d.Renamed σ e := by
  cases H with
  | drive hij => exact .drive (h _ _ hij) ..
  | stop => exact .stop _
  | setAmplitude => exact .setAmplitude ..

/-- What concerns an actuator is the same on two stages up to the numbers of the steps, and the
numbers that are in use correspond one to one. -/
structure Stage.Shares (a : ActuatorId) (v : Nat) (ρ : Nat → Nat → Prop) (s s' : Stage R) :
    Prop where
  rig : s.rig.Shares a v ρ s'.rig
  share : Deed.SameShare ρ (s.share a) (s'.share a)
  below : ∀ i j, ρ i j → i < s.nextStep ∧ j < s'.nextStep
  unique : Relator.BiUnique ρ

/-- Two lanes of an actuator are the same up to the numbers of the steps. -/
structure Lane.Alike (a : ActuatorId) (ρ : Nat → Nat → Prop) (l l' : Lane) : Prop where
  id : ρ l.id l'.id
  actuator : l.actuator = a
  actuator' : l'.actuator = a
  start : l'.start = l.start
  lane : l.start ≠ .afterPending
  reported : l'.reported = l.reported
  blank : l'.deadline.blank = l.deadline.blank
  awaiting : Option.Rel ρ l.deadline.awaiting? l'.deadline.awaiting?

theorem Deadline.afterDrive_alike {ρ : Nat → Nat → Prop} {d d' : Deadline}
    (blank : d'.blank = d.blank) (awaiting : Option.Rel ρ d.awaiting? d'.awaiting?)
    {i j : Nat} (h : ρ i j) (now grace : Nat) (result : Int) :
    (d'.afterDrive now grace j result).blank = (d.afterDrive now grace i result).blank ∧
      Option.Rel ρ (d.afterDrive now grace i result).awaiting?
        (d'.afterDrive now grace j result).awaiting? := by
  unfold afterDrive
  split
  · exact ⟨rfl, .some h⟩
  · split
    · split
      · exact ⟨rfl, .some h⟩
      · exact ⟨rfl, .some h⟩
    · exact ⟨blank, awaiting⟩

namespace Stage

variable {a : ActuatorId} {v : Nat} {ρ σ : Nat → Nat → Prop} {s s' : Stage R}

theorem share_record (s : Stage R) (d : Deed R) : (s.record d).share a =
    s.share a ++ if d.actuator? = some a then [(s.now, d)] else [] := by
  unfold share record
  rw [Array.toList_push, List.filter_append, List.filter_singleton]
  simp

namespace Shares

theorem now (H : s.Shares a v ρ s') : s'.now = s.now := H.rig.now

theorem mono (H : s.Shares a v ρ s') (h : ∀ i j, ρ i j → σ i j)
    (below : ∀ i j, σ i j → i < s.nextStep ∧ j < s'.nextStep) (unique : Relator.BiUnique σ) :
    s.Shares a v σ s' where
  rig := H.rig.mono h
  share := H.share.imp fun _ _ H => ⟨H.1, H.2.mono h⟩
  below := below
  unique := unique

/-- Numbers that are not in use yet may correspond. -/
theorem correspond (H : s.Shares a v ρ s') {i j n m : Nat} (hi : s.nextStep ≤ i)
    (hin : i < s.nextStep + n) (hj : s'.nextStep ≤ j) (hjm : j < s'.nextStep + m) :
    Stage.Shares a v (fun k l => ρ k l ∨ k = i ∧ l = j)
      { s with nextStep := s.nextStep + n } { s' with nextStep := s'.nextStep + m } := by
  have hbelow : ∀ k l, ρ k l → k < s.nextStep ∧ l < s'.nextStep := H.below
  have hmore : Stage.Shares a v ρ
      { s with nextStep := s.nextStep + n } { s' with nextStep := s'.nextStep + m } := by
    refine ⟨H.rig, H.share, fun k l h => ?_, H.unique⟩
    have := hbelow k l h
    exact ⟨by dsimp only; omega, by dsimp only; omega⟩
  refine hmore.mono (fun _ _ => .inl) (fun k l h => ?_) ⟨?_, ?_⟩
  · dsimp only
    rcases h with h | h
    · have := hbelow k l h
      omega
    · omega
  · rintro k l b (hk | hk) (hl | hl)
    · exact H.unique.1 hk hl
    · have := hbelow k b hk
      omega
    · have := hbelow l b hl
      omega
    · omega
  · rintro k l b (hk | hk) (hl | hl)
    · exact H.unique.2 hk hl
    · have := hbelow k l hk
      omega
    · have := hbelow k b hl
      omega
    · omega

/-- The next numbers on both stages may correspond. -/
theorem issue (H : s.Shares a v ρ s') : Stage.Shares a v
    (fun i j => ρ i j ∨ i = s.nextStep ∧ j = s'.nextStep)
    { s with nextStep := s.nextStep + 1 } { s' with nextStep := s'.nextStep + 1 } :=
  H.correspond (Nat.le_refl _) (Nat.lt_succ_self _) (Nat.le_refl _) (Nat.lt_succ_self _)

theorem record (H : s.Shares a v ρ s') {d e : Deed R} (hd : d.actuator? = some a)
    (h : d.Renamed ρ e) : (s.record d).Shares a v ρ (s'.record e) where
  rig := H.rig
  share := by
    have he : e.actuator? = some a := by
      cases h <;> exact hd
    rw [share_record, share_record, if_pos hd, if_pos he]
    exact List.rel_append H.share (.cons ⟨H.now, h⟩ .nil)
  below := H.below
  unique := H.unique

/-- What is asked of others is not recorded for the actuator. -/
theorem record_aside (H : s.Shares a v ρ s') {d : Deed R} (h : d.actuator? ≠ some a) :
    (s.record d).Shares a v ρ s' where
  rig := H.rig
  share := by
    rw [share_record, if_neg h, List.append_nil]
    exact H.share
  below := H.below
  unique := H.unique

theorem withRig (H : s.Shares a v ρ s') {r r' : Rig R} (h : r.Shares a v ρ r') :
    Stage.Shares a v ρ { s with rig := r } { s' with rig := r' } :=
  ⟨h, H.share, H.below, H.unique⟩

section
variable [Level R] {l l' : Lane}

theorem drive (H : s.Shares a v ρ s') {plan : Plan R} (L : l.Alike a ρ l')
    (hv : plan.vibration = v) (x : Drive R) :
    (s'.drive plan l' x).1 = (s.drive plan l x).1 ∧
      (s.drive plan l x).2.2.Shares a v ρ (s'.drive plan l' x).2.2 ∧
      (s.drive plan l x).2.1.Alike a ρ (s'.drive plan l' x).2.1 := by
  subst hv
  obtain ⟨hresult, hrig⟩ := H.rig.onDevice (Device.drive_uniform plan.vibration x) (0 : Int) L.id
  have hdeadline := Deadline.afterDrive_alike L.blank L.awaiting L.id s.now plan.tuning.grace
  unfold Stage.drive Rig.drive
  rw [L.actuator, L.actuator', H.now]
  generalize s.rig.onDevice a 0 (·.drive plan.vibration l.id x) = left at hresult hrig ⊢
  generalize s'.rig.onDevice a 0 (·.drive plan.vibration l'.id x) = right at hresult hrig ⊢
  obtain ⟨result, r⟩ := left
  obtain ⟨_, r'⟩ := right
  obtain rfl : _ = result := hresult
  exact ⟨rfl, (H.withRig hrig).record rfl (.drive L.id ..), L.id, rfl, rfl, L.start, L.lane,
    L.reported, (hdeadline _).1, (hdeadline _).2⟩

theorem stop (H : s.Shares a v ρ s') (L : l.Alike a ρ l') :
    (s.stop l).Shares a v ρ (s'.stop l') := by
  obtain ⟨-, hrig⟩ := H.rig.onDevice (Device.stop_uniform v) () L.id
  unfold Stage.stop Rig.stop
  rw [L.actuator, L.actuator']
  exact (H.withRig hrig).record rfl (.stop a)

omit [Level R] in
theorem setAmplitude (H : s.Shares a v ρ s') (L : l.Alike a ρ l') (x : R) :
    (s.setAmplitude l x).Shares a v ρ (s'.setAmplitude l' x) := by
  obtain ⟨hok, hrig⟩ := H.rig.onDevice (Device.setAmplitude_uniform v x) false L.id
  unfold Stage.setAmplitude Rig.setAmplitude
  rw [L.actuator, L.actuator']
  generalize s.rig.onDevice a false (·.setAmplitude x) = left at hok hrig ⊢
  generalize s'.rig.onDevice a false (·.setAmplitude x) = right at hok hrig ⊢
  obtain ⟨ok, r⟩ := left
  obtain ⟨_, r'⟩ := right
  obtain rfl : _ = ok := hok
  exact (H.withRig hrig).record rfl (.setAmplitude ..)

end

end Shares

/-! ### Playing the actuator's step -/

/-- The lanes of an actuator and the stages are the same up to the numbers of the steps, among which
there may be more than there were. -/
def Companions (a : ActuatorId) (v : Nat) (ρ : Nat → Nat → Prop) (l : Lane) (s : Stage R)
    (l' : Lane) (s' : Stage R) : Prop :=
  ∃ σ, (∀ i j, ρ i j → σ i j) ∧ s.Shares a v σ s' ∧ l.Alike a σ l'

theorem shares_likeness [Level R] (plan : Plan R) (a : ActuatorId) (ρ : Nat → Nat → Prop) :
    Lane.Likeness plan (Companions a plan.vibration ρ) where
  now := fun ⟨_, _, H, _⟩ => H.now
  start := fun ⟨_, _, _, L⟩ => L.start
  reported := fun ⟨_, _, _, L⟩ => L.reported
  deadline := fun ⟨_, _, _, L⟩ => L.blank
  amplitude := by
    rintro l s l' s' ⟨σ, -, H, L⟩
    rw [L.actuator, L.actuator']
    exact congrArg (·.getD 0) (H.rig.map_device (·.control.amplitude) fun _ _ => rfl)
  isActive := by
    rintro l s l' s' ⟨σ, -, H, L⟩
    rw [L.actuator, L.actuator']
    exact congrArg (·.getD false) (H.rig.map_device (·.control.activity.isActive) fun _ _ => rfl)
  limit := by
    rintro l s l' s' ⟨σ, -, H, L⟩ f
    unfold Lane.limit
    rw [L.actuator, L.actuator']
    exact congrArg (·.getD 0) (H.rig.map_device (f ·.control.profile) fun _ _ => rfl)
  drive := by
    rintro l s l' s' x ⟨σ, hσ, H, L⟩
    obtain ⟨hresult, hstage, hlane⟩ := H.drive L rfl x
    exact ⟨hresult, σ, hσ, hstage, hlane⟩
  stop := by
    rintro l s l' s' ⟨σ, hσ, H, L⟩
    exact ⟨σ, hσ, H.stop L, L⟩
  setAmplitude := by
    rintro l s l' s' x ⟨σ, hσ, H, L⟩
    exact ⟨σ, hσ, H.setAmplitude L x, L⟩
  issue := by
    rintro l s l' s' start lane ⟨σ, hσ, H, L⟩
    exact ⟨_, fun i j h => .inl (hσ i j h), H.issue,
      ⟨.inr ⟨rfl, rfl⟩, L.actuator, L.actuator', rfl, lane, rfl, L.blank,
        L.awaiting.imp fun _ _ => .inl⟩⟩
  idle := by
    rintro l s l' s' ⟨σ, hσ, H, L⟩
    exact ⟨σ, hσ, H, { L with blank := rfl, awaiting := .none }⟩
  unreported := by
    rintro l s l' s' ⟨σ, hσ, H, L⟩
    exact ⟨σ, hσ, H, { L with reported := rfl }⟩
  ramp := by
    rintro l s l' s' t ⟨σ, hσ, H, L⟩
    refine ⟨σ, hσ, H, { L with blank := rfl, awaiting := .some ?_ }⟩
    have hawaiting := L.awaiting
    generalize l.deadline.awaiting? = o at hawaiting ⊢
    generalize l'.deadline.awaiting? = o' at hawaiting ⊢
    cases hawaiting with
    | some h => exact h
    | none => exact L.id

end Stage
end Haptics
