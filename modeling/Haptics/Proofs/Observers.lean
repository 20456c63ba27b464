import Haptics.Level.Rational
import Haptics.Proofs.Interfaces
import Mathlib.Data.List.Chain

/-!
# What observers hear

From its registration until it is removed, an observer hears whether the actuator is active and then
of every change, whatever is asked of the device and whatever its motor does. At the same time the
amplitude that is reported is the one that was programmed last
(`Device.observers_and_amplitude`).
-/

namespace Haptics

variable {R : Type}

/-! ## Episodes -/

/-- Something that happens to a device: it is asked for something, or its motor changes by
itself. -/
inductive Episode (R : Type)
  | order (o : Order R)
  | stir (f : Motor R → Motor R)

/-- What an observer hears. -/
def Signal.heard? (o : String) : Signal R → Option Bool
  | flip f => if f.observer = o then some f.active else none
  | call _ | payload _ _ | arm _ _ => none

namespace Episode

/-- Whether an episode registers an observer or removes it, if it does either. -/
def registers? (o : String) : Episode R → Option Bool
  | order (.observe p) => if p = o then some true else none
  | order (.unobserve p) => if p = o then some false else none
  | order .init | order .query | order (.drive ..) | order .stop | order (.setAmplitude _)
  | order (.setExternalControl _) | order (.setAlwaysOn ..) | stir _ => none

/-- An episode registers an observer, removes one, or has nothing to do with them. -/
theorem registers?_cases (e : Episode R) : (∃ p, e = .order (.observe p)) ∨
    (∃ p, e = .order (.unobserve p)) ∨ ∀ o, e.registers? o = none := by
  cases e with
  | stir f => exact .inr (.inr fun _ => rfl)
  | order x =>
    cases x with
    | observe p => exact .inl ⟨p, rfl⟩
    | unobserve p => exact .inr (.inl ⟨p, rfl⟩)
    | _ => exact .inr (.inr fun _ => rfl)

/-- Whether an observer was registered and not removed since. -/
def registered (o : String) (es : List (Episode R)) : Bool :=
  es.foldl (fun known e => (e.registers? o).getD known) false

@[simp] theorem registered_nil (o : String) : registered o ([] : List (Episode R)) = false := rfl

@[simp] theorem registered_concat (o : String) (es : List (Episode R)) (e : Episode R) :
    registered o (es ++ [e]) = (e.registers? o).getD (registered o es) := by
  simp [registered]

end Episode

namespace Device

def isActive (d : Device R) : Bool := d.control.activity.isActive

/-- A drive started something: its answer is positive, or it is a hold, perhaps for no time, that
the hardware accepted. -/
def starts (d : Device R) (x : Drive R) (answer : Int) : Bool :=
  0 < answer || d.motor.failure.isNone && match x with
    | .hold _ => true
    | .prebaked _ | .composition _ | .ramps _ | .envelope _ | .vendor _ => false

variable [Level R]

def react (d : Device R) : Episode R → Reaction R Answer
  | .order o => o.react d
  | .stir f => ⟨.done, { d with motor := f d.motor }, []⟩

def after (d : Device R) (es : List (Episode R)) : Device R :=
  es.foldl (fun d e => (d.react e).device) d

/-- What an observer hears in the course of some episodes. -/
def told (o : String) : Device R → List (Episode R) → List Bool
  | _, [] => []
  | d, e :: es =>
    (d.react e).signals.filterMap (Signal.heard? o) ++ told o (d.react e).device es

/-- The amplitude after an episode, if the episode decides that: a successful drive forgets what was
programmed before. -/
def programs? (d : Device R) : Episode R → Option R
  | .order (.drive v i x) => if d.starts x (d.drive v i x).value then some Level.unset else none
  | .order (.setAmplitude x) => if (d.setAmplitude x).value then some x else none
  | .order .init | .order .query | .order .stop | .order (.setExternalControl _)
  | .order (.setAlwaysOn ..) | .order (.observe _) | .order (.unobserve _) | .stir _ => none

/-- The amplitude that was programmed last since the last successful drive, if one was. -/
def programmed : Device R → R → List (Episode R) → R
  | _, x, [] => x
  | d, x, e :: es => programmed (d.react e).device ((d.programs? e).getD x) es

@[simp] theorem after_nil (d : Device R) : d.after [] = d := rfl

@[simp] theorem after_cons (d : Device R) (e : Episode R) (es : List (Episode R)) :
    d.after (e :: es) = (d.react e).device.after es := rfl

theorem after_append (d : Device R) (es fs : List (Episode R)) :
    d.after (es ++ fs) = (d.after es).after fs := List.foldl_append

end Device

/-! ## What one episode shows -/

/-- Nobody hears anything. -/
def Signal.Silent (ss : List (Signal R)) : Prop := ∀ x ∈ ss, ∀ o, x.heard? o = none

namespace Signal

theorem Silent.nil : Silent ([] : List (Signal R)) := fun _ hx => (List.not_mem_nil hx).elim

theorem Silent.append {ss ts : List (Signal R)} (hs : Silent ss) (ht : Silent ts) :
    Silent (ss ++ ts) :=
  fun x hx => (List.mem_append.mp hx).elim (hs x) (ht x)

theorem Silent.heard {ss : List (Signal R)} (h : Silent ss) (o : String) :
    ss.filterMap (heard? o) = [] :=
  List.filterMap_eq_nil_iff.mpr fun x hx => h x hx o

theorem silent_attempt (fault : Option HardwareError) (c : Call R) :
    Silent (Motor.attempt fault c).2 := by
  cases fault with
  | some e => exact .nil
  | none => simp [Motor.attempt, Silent, heard?]

theorem silent_driveSignals (m : Motor R) (x : Drive R) : Silent (m.driveSignals x) := by
  cases x <;> simp [Motor.driveSignals, Silent, heard?]

theorem silent_schedule (m : Motor R) (ms : Option Nat) (r : Report) :
    Silent (m.schedule ms r).2 := by
  unfold Motor.schedule
  dsimp only
  split <;> simp [Silent, heard?]

theorem silent_arm (ms : Nat) (r : Report) : Silent [Signal.arm (R := R) ms r] := by
  simp [Silent, heard?]

/-- An observer that is told once of a flip hears it once. -/
theorem heard_flips (o : String) (a : ActuatorId) (active : Bool) {observers : List String}
    (h : observers.Nodup) :
    ((observers.map fun p => (⟨p, a, active⟩ : Flip)).map (flip (R := R))).filterMap (heard? o) =
      if o ∈ observers then [active] else [] := by
  simp only [List.map_map, List.filterMap_map]
  induction observers with
  | nil => rfl
  | cons p ps ih =>
    obtain ⟨hp, hps⟩ := List.nodup_cons.mp h
    have hrest := ih hps
    by_cases hpo : p = o
    · subst hpo
      rw [if_neg hp] at hrest
      simp [heard?, hrest]
    · simp [heard?, hpo, Ne.symm hpo, hrest]

end Signal

namespace Device

/-- Two devices have the same observers and do the same. -/
structure Akin (d d' : Device R) : Prop where
  observers : d'.control.observers = d.control.observers
  activity : d'.control.activity = d.control.activity

theorem Akin.refl (d : Device R) : d.Akin d := ⟨rfl, rfl⟩

variable [Level R]

/-- What a drive does to a device: nothing, or it starts something. -/
inductive Drives (d : Device R) (x : Drive R) : Reaction R Int → Prop
  | refused {n ss} (silent : Signal.Silent ss) (idle : d.starts x n = false) : Drives d x ⟨n, d, ss⟩
  | started {n ss} (motor : Motor R) (silent : Signal.Silent ss) (on : d.starts x n = true) :
    Drives d x ⟨n, ({ d with motor }.enter .vibrating).1,
      ss ++ ({ d with motor }.enter .vibrating).2⟩

section
variable (d : Device R) (v i : Nat) (x : Drive R)

omit [Level R] in
theorem starts_hold {ms : Nat} (h : d.motor.failure = none) (n : Int) :
    d.starts (.hold ms) n = true := by
  simp [starts, h]

omit [Level R] in
theorem starts_of_pos {n : Int} (h : 0 < n) : d.starts x n = true := by
  simp [starts, h]

omit [Level R] in
theorem starts_failed {e : HardwareError} (h : d.motor.failure = some e) :
    d.starts x e.driveResult = false := by
  simp [starts, h, Int.not_lt.mpr e.driveResult_le]

theorem driveNegotiated_drives : d.Drives x (d.driveNegotiated v i x) := by
  unfold driveNegotiated
  dsimp only
  have hseen := Signal.silent_driveSignals d.motor x
  have hschedule (unheard : Bool) (ms : Option Nat) (r : Report) : Signal.Silent
      (if unheard && !d.control.attached then (d.motor, []) else d.motor.schedule ms r).2 := by
    split
    · exact .nil
    · exact Signal.silent_schedule d.motor ms r
  split
  · rename_i hneeds
    refine .refused .nil ?_
    cases x with
    | hold => simp [Drive.needs, promised?] at hneeds
    | _ => simp [starts]
  · rename_i hneeds
    simp only [Bool.or_eq_true, not_or, beq_iff_eq] at hneeds
    split
    · rename_i e _ hfailure
      exact .refused hseen (d.starts_failed _ hfailure)
    · exact .refused hseen (by simp [starts])
    · rename_i x _ _ _ hfailure hms
      refine .started _ (hseen.append ?_) ?_
      · split
        · exact hschedule _ _ _
        · split
          · exact Signal.silent_arm _ _
          · exact .nil
      · cases x with
        | hold ms => exact d.starts_hold hfailure _
        | prebaked p =>
          exact d.starts_of_pos _ (driveResult_pos fun h => hms p rfl (congrArg some h))
        | composition | ramps | envelope =>
          exact d.starts_of_pos _ (driveResult_pos fun h => hneeds.2 (congrArg some h))
        | vendor => exact d.starts_of_pos _ (by decide : 0 < indefinite)

theorem driveDirect_drives : d.Drives x (d.driveDirect v i x) := by
  have hseen := Signal.silent_driveSignals d.motor x
  unfold driveDirect
  refine iteInduction (motive := d.Drives x) (fun hneeds => ?_) fun hneeds => ?_
  · refine .refused .nil ?_
    cases x with
    | hold => simp [Drive.needs] at hneeds
    | _ => simp [starts]
  · split
    · rename_i hfailure
      exact .refused hseen (d.starts_failed _ hfailure)
    · exact .refused hseen (by simp [starts])
    · exact .refused hseen (by simp [starts])
    · exact .refused hseen (by simp [starts])
    · rename_i x _ _ _ hfailure hprebaked hcomposition hramps
      refine .started d.motor (hseen.append ?_) ?_
      · split
        · exact Signal.silent_arm _ _
        · exact .nil
      · cases x with
        | hold ms => exact d.starts_hold hfailure _
        | prebaked p => exact d.starts_of_pos _ (driveResult_pos fun h => hprebaked p rfl h)
        | composition ps => exact d.starts_of_pos _ (driveResult_pos fun h => hcomposition ps rfl h)
        | ramps rs => exact d.starts_of_pos _ (driveResult_pos fun h => hramps rs rfl h)
        | envelope | vendor => exact absurd rfl hneeds

theorem drive_drives : d.Drives x (d.drive v i x) := by
  unfold drive
  split
  · exact d.driveNegotiated_drives v i x
  · exact d.driveDirect_drives v i x

end

/-- Entering an activity tells every observer of a change. -/
theorem enter_heard (d : Device R) (a : Activity) (h : d.control.observers.Nodup) (o : String) :
    (d.enter a).2.filterMap (Signal.heard? o) =
      if o ∈ d.control.observers ∧ (d.enter a).1.isActive ≠ d.isActive then
        [(d.enter a).1.isActive] else [] := by
  have hnow : (d.enter a).1.isActive = a.isActive := rfl
  have hsignals : (d.enter a).2 = (if d.isActive = a.isActive then [] else
      d.control.observers.map fun p => (⟨p, d.id, a.isActive⟩ : Flip)).map .flip := rfl
  rw [hnow, hsignals]
  by_cases hsame : d.isActive = a.isActive
  · rw [if_pos hsame, if_neg fun h => h.2 hsame.symm]
    rfl
  · rw [if_neg hsame, Signal.heard_flips o d.id a.isActive h]
    simp [Ne.symm hsame]

/-- What an episode does to a device if it neither registers an observer nor removes one. -/
inductive Reacts (d : Device R) (e : Episode R) : Device R → List (Signal R) → Prop
  /-- The device goes on with what it does; an amplitude may be programmed meanwhile. -/
  | still {d' ss} (akin : d.Akin d') (silent : Signal.Silent ss)
      (amplitude : d'.control.amplitude = if d.control.activity = .vibrating then
        (d.programs? e).getD d.control.amplitude else d.control.amplitude) : Reacts d e d' ss
  /-- An activity is entered. It is vibrating exactly after a drive that started something. -/
  | enters {d' before after} (a : Activity) (akin : d.Akin d') (silent : Signal.Silent before)
      (silent' : Signal.Silent after)
      (programs : a = .vibrating → d.programs? e = some Level.unset) :
      Reacts d e (d'.enter a).1 (before ++ (d'.enter a).2 ++ after)

namespace Reacts

variable {d : Device R} {e : Episode R}

/-- Nothing of what is known about the device changes. -/
theorem observers {d' : Device R} {ss : List (Signal R)} (h : d.Reacts e d' ss) :
    d'.control.observers = d.control.observers := by
  cases h with
  | still hakin => exact hakin.observers
  | enters a hakin => exact hakin.observers

theorem idle {d' : Device R} {ss : List (Signal R)} (control : d'.control = d.control)
    (silent : Signal.Silent ss) (programs : d.programs? e = none) : d.Reacts e d' ss := by
  refine .still ⟨?_, ?_⟩ silent ?_
  · rw [control]
  · rw [control]
  · rw [control, programs, Option.getD_none, ite_self]

theorem stop : d.Reacts (.order .stop) d.stop.1 d.stop.2 := by
  have h := enters (d := d) (e := .order .stop) .idle (.refl d)
    (Signal.silent_attempt d.motor.faults.off (.off d.id)) .nil nofun
  rwa [List.append_nil] at h

theorem setExternalControl (enabled : Bool) : d.Reacts (.order (.setExternalControl enabled))
    (d.setExternalControl enabled).device (d.setExternalControl enabled).signals := by
  unfold Device.setExternalControl
  split
  · have h := enters (d := d) (e := .order (.setExternalControl enabled))
      (if enabled then .externallyControlled else .idle) (.refl d)
      (Signal.silent_attempt d.motor.faults.external (.setExternalControl d.id enabled)) .nil
      (by cases enabled <;> exact nofun)
    rwa [List.append_nil] at h
  · exact idle rfl .nil rfl

theorem setAlwaysOn (slot : Int) (effect : Option Prebaked) :
    d.Reacts (.order (.setAlwaysOn slot effect)) (d.setAlwaysOn slot effect).device
      (d.setAlwaysOn slot effect).signals := by
  unfold Device.setAlwaysOn
  split
  · exact idle rfl (Signal.silent_attempt d.motor.faults.alwaysOn _) rfl
  · exact idle rfl .nil rfl

theorem setAmplitude (x : R) : d.Reacts (.order (.setAmplitude x)) (d.setAmplitude x).device
    (d.setAmplitude x).signals := by
  have hprograms : d.programs? (.order (.setAmplitude x)) =
      if (d.setAmplitude x).value then some x else none := rfl
  unfold Device.setAmplitude at hprograms ⊢
  split
  · rename_i hcan
    rw [if_pos hcan] at hprograms
    have hsilent := Signal.silent_attempt d.motor.faults.amplitude (.setAmplitude d.id x)
    generalize Motor.attempt d.motor.faults.amplitude (.setAmplitude d.id x) = attempt at *
    obtain ⟨ok, calls⟩ := attempt
    cases ok with
    | false => exact idle rfl hsilent hprograms
    | true =>
      refine still ?_ hsilent ?_
      all_goals
        simp only [if_true, Control.recordAmplitude]
        split
      · exact ⟨rfl, rfl⟩
      · exact .refl d
      · rw [hprograms]
        rfl
      · rfl
  · rename_i hcan
    rw [if_neg hcan] at hprograms
    exact idle rfl .nil hprograms

omit [Level R] in
theorem load_control : d.Akin d.load.2 ∧ d.load.2.control.amplitude = d.control.amplitude := by
  unfold Device.load
  split <;> exact ⟨⟨rfl, rfl⟩, rfl⟩

theorem query : d.Reacts (.order .query) d.query.2 [] := by
  unfold Device.query
  split
  · exact idle rfl .nil rfl
  · refine still load_control.1 .nil ?_
    rw [load_control.2]
    exact (ite_self _).symm

/-- Resetting the hardware leaves the device idle. -/
theorem init : d.Reacts (.order .init) d.init.1 d.init.2 := by
  have hload := load_control (d := { d with control := { d.control with attached := true } })
  have hakin : d.Akin (Device.load { d with control := { d.control with attached := true } }).2 :=
    ⟨hload.1.observers, hload.1.activity⟩
  unfold Device.init
  dsimp only
  generalize (Device.load { d with control := { d.control with attached := true } }).2 = d' at *
  unfold Device.setExternalControl
  split
  · -- External control ends first, so the stop has nobody to tell.
    exact enters .idle hakin (Signal.silent_attempt d'.motor.faults.external _)
      ((Signal.silent_attempt d'.motor.faults.off _).append .nil) nofun
  · have h := enters (e := .order .init) .idle hakin
      (Signal.silent_attempt d'.motor.faults.off (.off d'.id)) .nil nofun
    rwa [List.append_nil] at h

theorem drive (v i : Nat) (x : Drive R) : d.Reacts (.order (.drive v i x))
    (d.drive v i x).device (d.drive v i x).signals := by
  have hprograms : d.programs? (.order (.drive v i x)) =
      if d.starts x (d.drive v i x).value then some Level.unset else none := rfl
  have hdrives := d.drive_drives v i x
  generalize d.drive v i x = r at *
  cases hdrives with
  | refused silent hoff =>
    rw [hoff] at hprograms
    exact idle rfl silent hprograms
  | started motor silent hon =>
    rw [hon] at hprograms
    have hakin : d.Akin { d with motor } := ⟨rfl, rfl⟩
    have h := enters .vibrating hakin silent .nil fun _ => hprograms
    rwa [List.append_nil] at h

theorem stir (f : Motor R → Motor R) : d.Reacts (.stir f) { d with motor := f d.motor } [] :=
  idle rfl .nil rfl

/-- Observers hear exactly of a change. -/
theorem heard {d' : Device R} {ss : List (Signal R)} (h : d.Reacts e d' ss)
    (hnodup : d.control.observers.Nodup) (o : String) :
    ss.filterMap (Signal.heard? o) =
      if o ∈ d.control.observers ∧ d'.isActive ≠ d.isActive then [d'.isActive] else [] := by
  cases h with
  | still hakin hsilent =>
    rw [hsilent.heard, isActive, isActive, hakin.activity]
    simp
  | @enters d' _ _ a hakin hsilent hsilent' =>
    have hwas : d'.isActive = d.isActive := congrArg Activity.isActive hakin.activity
    rw [List.filterMap_append, List.filterMap_append, hsilent.heard, hsilent'.heard,
      List.nil_append, List.append_nil]
    rw [← hakin.observers] at hnodup ⊢
    rw [← hwas]
    exact enter_heard d' a hnodup o

end Reacts

/-! ## One step -/

section
variable (d : Device R) (e : Episode R) (o : String)

/-- What an observer hears of one episode. -/
def hears : List Bool := (d.react e).signals.filterMap (Signal.heard? o)

theorem told_cons (es : List (Episode R)) :
    d.told o (e :: es) = d.hears e o ++ (d.react e).device.told o es := rfl

theorem react_reacts (h : ∀ o, e.registers? o = none) :
    d.Reacts e (d.react e).device (d.react e).signals := by
  cases e with
  | stir f => exact .stir f
  | order x =>
    cases x with
    | init => exact .init
    | query => exact .query
    | drive v i x => exact .drive v i x
    | stop => exact .stop
    | setAmplitude x => exact .setAmplitude x
    | setExternalControl enabled => exact .setExternalControl enabled
    | setAlwaysOn slot effect => exact .setAlwaysOn slot effect
    | observe p => simpa [Episode.registers?] using h p
    | unobserve p => simpa [Episode.registers?] using h p

theorem react_observe (p : String) (h : p ∈ d.control.observers) :
    (d.react (.order (.observe p))).device = d ∧ (d.react (.order (.observe p))).signals = [] := by
  simp [react, Order.react, observe, Control.observe, Reaction.map, h]

theorem react_observe_of_notMem {p : String} (h : p ∉ d.control.observers) :
    (d.react (.order (.observe p))).device =
        { d with control := { d.control with observers := d.control.observers ++ [p] } } ∧
      (d.react (.order (.observe p))).signals = [.flip ⟨p, d.id, d.isActive⟩] := by
  simp [react, Order.react, observe, Control.observe, Reaction.map, h, isActive, id]

theorem react_unobserve (p : String) :
    d.react (.order (.unobserve p)) = ⟨.told (d.control.observers.contains p),
      { d with control :=
        { d.control with observers := d.control.observers.filter (· != p) } }, []⟩ := rfl

/-- Who is registered afterwards. -/
theorem mem_observers_react : o ∈ (d.react e).device.control.observers ↔
    (e.registers? o).getD (decide (o ∈ d.control.observers)) = true := by
  obtain ⟨p, rfl⟩ | ⟨p, rfl⟩ | hplain := e.registers?_cases
  · by_cases hp : p ∈ d.control.observers
    · rw [(d.react_observe p hp).1, Episode.registers?]
      split
      · rename_i hpo
        subst hpo
        exact iff_of_true hp rfl
      · exact (decide_eq_true_iff).symm
    · rw [(d.react_observe_of_notMem hp).1, Episode.registers?]
      by_cases hpo : p = o <;> simp [hpo, Ne.symm]
  · rw [react_unobserve, Episode.registers?]
    by_cases hpo : p = o <;> simp [hpo, Ne.symm]
  · rw [(d.react_reacts e hplain).observers, hplain o]
    exact (decide_eq_true_iff).symm

theorem nodup_react (h : d.control.observers.Nodup) :
    (d.react e).device.control.observers.Nodup := by
  obtain ⟨p, rfl⟩ | ⟨p, rfl⟩ | hplain := e.registers?_cases
  · by_cases hp : p ∈ d.control.observers
    · rwa [(d.react_observe p hp).1]
    · rw [(d.react_observe_of_notMem hp).1]
      refine List.nodup_append.mpr ⟨h, by simp, fun x hx y hy hxy => hp ?_⟩
      rw [← List.mem_singleton.mp hy, ← hxy]
      exact hx
  · exact h.filter _
  · rwa [(d.react_reacts e hplain).observers]

/-- A new observer hears at once whether the device is active. -/
theorem hears_observe (h : o ∉ d.control.observers) :
    d.hears (.order (.observe o)) o = [d.isActive] := by
  rw [hears, (d.react_observe_of_notMem h).2]
  simp [Signal.heard?]

/-- A known observer hears of a change, and nobody else hears anything. -/
theorem hears_eq (hnodup : d.control.observers.Nodup)
    (h : e.registers? o = some true → o ∈ d.control.observers) :
    d.hears e o = if o ∈ d.control.observers ∧ (d.react e).device.isActive ≠ d.isActive then
      [(d.react e).device.isActive] else [] := by
  obtain ⟨p, rfl⟩ | ⟨p, rfl⟩ | hplain := e.registers?_cases
  · by_cases hp : p ∈ d.control.observers
    · simp [hears, d.react_observe p hp]
    · have hpo : p ≠ o := fun hpo => hp (hpo ▸ h (by simp [Episode.registers?, hpo]))
      simp [hears, d.react_observe_of_notMem hp, Signal.heard?, hpo, isActive]
  · simp [hears, react_unobserve, isActive]
  · exact (d.react_reacts e hplain).heard hnodup o

end

/-! ## What an observer is told -/

section
variable {d : Device R} {o : String}

/-- An observer that is not registered hears nothing. -/
theorem told_unknown (es : List (Episode R)) (hnodup : d.control.observers.Nodup)
    (ho : o ∉ d.control.observers) (hes : ∀ e ∈ es, e.registers? o ≠ some true) :
    d.told o es = [] := by
  induction es generalizing d with
  | nil => rfl
  | cons e es ih =>
    obtain ⟨he, hes⟩ := List.forall_mem_cons.mp hes
    have hnext : o ∉ (d.react e).device.control.observers := by
      rw [mem_observers_react]
      cases hreg : e.registers? o with
      | none => simpa using ho
      | some known => simpa [hreg] using he
    rw [told_cons, hears_eq d e o hnodup fun h => absurd h he,
      ih (d.nodup_react e hnodup) hnext hes]
    simp [ho]

/-- A registered observer that is not removed hears exactly of the changes: what it is told
continues the present state to an alternating list that ends with the state reached. -/
theorem told_known (es : List (Episode R)) (hnodup : d.control.observers.Nodup)
    (ho : o ∈ d.control.observers) (hes : ∀ e ∈ es, e.registers? o ≠ some false) :
    (d.isActive :: d.told o es).IsChain (· ≠ ·) ∧
      (d.isActive :: d.told o es).getLast? = some (d.after es).isActive := by
  induction es generalizing d with
  | nil => exact ⟨List.isChain_singleton _, rfl⟩
  | cons e es ih =>
    obtain ⟨he, hes⟩ := List.forall_mem_cons.mp hes
    have hnext : o ∈ (d.react e).device.control.observers := by
      rw [mem_observers_react]
      cases hreg : e.registers? o with
      | none => simpa using ho
      | some known => simpa [hreg] using he
    obtain ⟨hchain, hlast⟩ := ih (d.nodup_react e hnodup) hnext hes
    rw [told_cons, hears_eq d e o hnodup fun _ => ho, after_cons]
    by_cases hsame : (d.react e).device.isActive = d.isActive
    · rw [if_neg fun h => h.2 hsame, List.nil_append, ← hsame]
      exact ⟨hchain, hlast⟩
    · rw [if_pos ⟨ho, hsame⟩, List.singleton_append, List.isChain_cons_cons,
        List.getLast?_cons_cons]
      exact ⟨⟨Ne.symm hsame, hchain⟩, hlast⟩

end

/-! ## The amplitude -/

/-- The amplitude that is reported, where `x` was programmed last. -/
structure Reports (d : Device R) (x : R) : Prop where
  idle : d.control.activity = .idle → d.control.amplitude = 0
  external : d.control.activity = .externallyControlled → d.control.amplitude = Level.unset
  vibrating : d.control.activity = .vibrating → d.control.amplitude = x

section
variable {d : Device R} {x : R}

theorem Reports.of_control {d' : Device R} (h : d.Reports x)
    (activity : d'.control.activity = d.control.activity)
    (amplitude : d'.control.amplitude = d.control.amplitude) : d'.Reports x := by
  constructor <;> rw [activity, amplitude]
  exacts [h.idle, h.external, h.vibrating]

theorem Reports.react (h : d.Reports x) (e : Episode R) :
    (d.react e).device.Reports ((d.programs? e).getD x) := by
  obtain ⟨p, rfl⟩ | ⟨p, rfl⟩ | hplain := e.registers?_cases
  · by_cases hp : p ∈ d.control.observers
    · rwa [(d.react_observe p hp).1]
    · rw [(d.react_observe_of_notMem hp).1]
      exact h.of_control rfl rfl
  · exact h.of_control rfl rfl
  · have hreacts := d.react_reacts e hplain
    generalize (d.react e).device = d' at *
    generalize (d.react e).signals = ss at *
    cases hreacts with
    | still hakin _ hamplitude =>
      have hactivity := hakin.activity
      refine ⟨fun hidle => ?_, fun hexternal => ?_, fun hvibrating => ?_⟩
      all_goals rw [hamplitude]
      · rw [hactivity] at hidle
        rw [if_neg (by simp [hidle]), h.idle hidle]
      · rw [hactivity] at hexternal
        rw [if_neg (by simp [hexternal]), h.external hexternal]
      · rw [hactivity] at hvibrating
        rw [if_pos hvibrating, h.vibrating hvibrating]
    | enters a _ _ _ hprograms =>
      refine ⟨fun hidle => ?_, fun hexternal => ?_, fun hvibrating => ?_⟩
      · have ha : a = .idle := hidle
        subst ha
        rfl
      · have ha : a = .externallyControlled := hexternal
        subst ha
        rfl
      · have ha : a = .vibrating := hvibrating
        rw [hprograms ha]
        subst ha
        rfl

theorem Reports.after (h : d.Reports x) (es : List (Episode R)) :
    (d.after es).Reports (d.programmed x es) := by
  induction es generalizing d x with
  | nil => exact h
  | cons e es ih => exact ih (h.react e)

end

/-! ## From the beginning -/

section
variable (interface : Interface) (motor : Motor R) (a : ActuatorId) (es : List (Episode R))

theorem reports_fresh : (Device.fresh interface motor a).Reports Level.unset :=
  ⟨fun _ => rfl, nofun, nofun⟩

theorem nodup_after {d : Device R} (h : d.control.observers.Nodup) :
    (d.after es).control.observers.Nodup := by
  induction es generalizing d with
  | nil => exact h
  | cons e es ih => exact ih (d.nodup_react e h)

theorem nodup_fresh : ((Device.fresh interface motor a).after es).control.observers.Nodup :=
  nodup_after es List.nodup_nil

theorem mem_observers_after (o : String) :
    o ∈ ((Device.fresh interface motor a).after es).control.observers ↔
      Episode.registered o es = true := by
  induction es using List.reverseRecOn with
  | nil => simp [Device.fresh, Control.fresh]
  | append_singleton es e ih =>
    rw [after_append, after_cons, after_nil, mem_observers_react, Episode.registered_concat]
    congr! 2
    rw [← Bool.coe_iff_coe, decide_eq_true_iff, ih]

end

/-- **Consistent observers.** Whatever was asked of a device and whatever its motor did: an observer
that is not registered hears nothing, and a registered one hears nothing of being registered again
or removed. One that registers hears whether the device is active and then, until it is removed,
alternating values of which the last one is the state of the device. The amplitude is zero while the
device is idle, none while something else controls it, and the one programmed last since the last
successful drive while it vibrates. -/
theorem observers_and_amplitude (interface : Interface) (motor : Motor R) (a : ActuatorId)
    (es : List (Episode R)) :
    let d := (Device.fresh interface motor a).after es
    (∀ o fs, Episode.registered o es = false → (∀ e ∈ fs, e.registers? o ≠ some true) →
      d.told o fs = []) ∧
    (∀ o, Episode.registered o es = true →
      d.told o [.order (.observe o), .order (.unobserve o)] = []) ∧
    (∀ o fs, Episode.registered o es = false → (∀ e ∈ fs, e.registers? o ≠ some false) →
      (d.told o (.order (.observe o) :: fs)).head? = some d.isActive ∧
      (d.told o (.order (.observe o) :: fs)).IsChain (· ≠ ·) ∧
      (d.told o (.order (.observe o) :: fs)).getLast? =
        some (d.after (.order (.observe o) :: fs)).isActive) ∧
    (d.control.activity = .idle → d.control.amplitude = 0) ∧
    (d.control.activity = .externallyControlled → d.control.amplitude = Level.unset) ∧
    (d.control.activity = .vibrating →
      d.control.amplitude = (Device.fresh interface motor a).programmed Level.unset es) := by
  intro d
  have hnodup : d.control.observers.Nodup := nodup_fresh interface motor a es
  have hunknown (o) (h : Episode.registered o es = false) : o ∉ d.control.observers := by
    rw [mem_observers_after, h]
    exact Bool.false_ne_true
  have hreports := (reports_fresh interface motor a).after es
  refine ⟨fun o fs h hfs => told_unknown fs hnodup (hunknown o h) hfs, fun o h => ?_,
    fun o fs h hfs => ?_, hreports.idle, hreports.external, hreports.vibrating⟩
  · have hknown : o ∈ d.control.observers := (mem_observers_after interface motor a es o).mpr h
    obtain ⟨hsame, hsilent⟩ := d.react_observe o hknown
    simp [told, hsame, hsilent, react_unobserve]
  · have hnew := hunknown o h
    have hknown : o ∈ (d.react (.order (.observe o))).device.control.observers := by
      simp [mem_observers_react, Episode.registers?]
    have hactive : (d.react (.order (.observe o))).device.isActive = d.isActive := by
      rw [(d.react_observe_of_notMem hnew).1]
      rfl
    obtain ⟨hchain, hlast⟩ := told_known fs (d.nodup_react _ hnodup) hknown hfs
    rw [told_cons, d.hears_observe o hnew, List.singleton_append, ← hactive]
    exact ⟨rfl, hchain, hlast⟩

/-- A motor with a programmable amplitude that can be controlled externally. -/
def bell : Motor Rat where
  profile :=
    { Profile.degraded 0 with capabilities := .ofList [.amplitudeControl, .externalControl] }

/-- A device that is turned on with an observer watching. -/
def rung : List (Episode Rat) :=
  [.order .init, .order (.observe "screen"), .order (.drive 1 1 (.hold 500)),
    .order (.setAmplitude (1 / 2))]

/-- Somebody else takes the device over and lets it go. -/
def handedOver : List (Episode Rat) :=
  [.order (.observe "log"), .order (.setExternalControl true), .order .stop]

theorem observers_and_amplitude_bell :
    let d := (Device.fresh .negotiated bell 0).after rung
    Episode.registered "log" rung = false ∧ Episode.registered "screen" rung = true ∧
      (∀ e ∈ handedOver, e.registers? "log" ≠ some false) ∧
      (∀ e ∈ handedOver, e.registers? "panel" ≠ some true) ∧
      d.control.activity = .vibrating ∧
      (Device.fresh .negotiated bell 0).told "screen" rung = [false, true] ∧
      d.told "log" (.order (.observe "log") :: handedOver) = [true, false] ∧
      d.told "screen" [.order (.observe "screen"), .order (.unobserve "screen")] = [] ∧
      d.told "panel" handedOver = [] ∧
      (d.told "log" (.order (.observe "log") :: handedOver)).getLast? =
        some (d.after (.order (.observe "log") :: handedOver)).isActive ∧
      d.control.amplitude = 1 / 2 :=
  have hnew : Episode.registered "log" rung = false := by decide +kernel
  have hnone : Episode.registered "panel" rung = false := by decide +kernel
  have hknown : Episode.registered "screen" rung = true := by decide +kernel
  have hstays : ∀ e ∈ handedOver, e.registers? "log" ≠ some false := by decide +kernel
  have hnever : ∀ e ∈ handedOver, e.registers? "panel" ≠ some true := by decide +kernel
  have hon : ((Device.fresh .negotiated bell 0).after rung).control.activity = .vibrating := by
    decide +kernel
  have h := observers_and_amplitude .negotiated bell 0 rung
  ⟨hnew, hknown, hstays, hnever, hon, by decide +kernel, by decide +kernel, h.2.1 "screen" hknown,
    h.1 "panel" handedOver hnone hnever, (h.2.2.1 "log" handedOver hnew hstays).2.2,
    (h.2.2.2.2.2 hon).trans (by decide +kernel)⟩

end Device
end Haptics
