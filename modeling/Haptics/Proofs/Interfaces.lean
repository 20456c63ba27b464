import Haptics.Level.Rational
import Haptics.Proofs.Hardware
import Haptics.Proofs.Timers
import Mathlib.Algebra.GroupWithZero.Nat

/-!
# Two interfaces, one contract

A motor that reports completions on time does the same on a direct interface as on a negotiated one:
whatever is asked of its device, however time passes and whatever fails, the answers, the control
state, the calls, the observers and the completions that arrive are the same
(`Rig.trace_interface`). The two differ only in who keeps the time of a drive. That shows in how
many completions the motor was asked for, and in completions that nobody hears.
-/

namespace Haptics

variable {R : Type}

/-! ## Operations -/

/-- What can be asked of one device. -/
inductive Order (R : Type)
  | init
  | query
  | drive (vibration step : Nat) (x : Drive R)
  | stop
  | setAmplitude (x : R)
  | setExternalControl (enabled : Bool)
  | setAlwaysOn (slot : Int) (effect : Option Prebaked)
  | observe (observer : String)
  | unobserve (observer : String)

/-- What happens to a device or around it. -/
inductive Operation (R : Type)
  | order (o : Order R)
  | advance (ms : Nat)
  | failDrives (failure : Option HardwareError)
  | failInfo (times : Nat)
  | attach (vibration capacity : Nat)
  | detach (vibration : Nat)
  | read (inbox : Nat)

/-- What an operation gives back. -/
inductive Answer
  | done
  | told (ok : Bool)
  | drove (result : Int)
  /-- The completions that arrived, with the instant of each. -/
  | arrived (ts : List Timer)
  | read (es : List Event)
deriving DecidableEq, Repr

/-- What is visible of a device, of its surroundings and of what it did to them. -/
structure Sight (R : Type) where
  now : Nat
  control : Option (Control R)
  bridge : Bridge
  log : Array (Nat × Call R)
  payloads : Array (ActuatorId × Drive R)
  flips : Array Flip

def Reaction.map {α β : Type} (f : α → β) (r : Reaction R α) : Reaction R β :=
  ⟨f r.value, r.device, r.signals⟩

/-- Something that both interfaces know how to play on a motor, for a duration that a word holds. -/
def Drive.Regular (m : Motor R) : Drive R → Prop
  | hold ms => 0 < ms
  | prebaked _ => True
  | composition ps => 0 < m.profile.compositionMs ps ∧ m.profile.compositionMs ps < wordCount
  | ramps rs => 0 < (rs.map (·.ms)).sum ∧ (rs.map (·.ms)).sum < wordCount
  | envelope _ | vendor _ => False

instance (m : Motor R) (x : Drive R) : Decidable (x.Regular m) :=
  match x with
  | .hold ms => inferInstanceAs (Decidable (0 < ms))
  | .prebaked _ => inferInstanceAs (Decidable True)
  | .composition ps =>
    inferInstanceAs
      (Decidable (0 < m.profile.compositionMs ps ∧ m.profile.compositionMs ps < wordCount))
  | .ramps rs =>
    inferInstanceAs (Decidable (0 < (rs.map (·.ms)).sum ∧ (rs.map (·.ms)).sum < wordCount))
  | .envelope _ | .vendor _ => inferInstanceAs (Decidable False)

def Operation.Regular (m : Motor R) : Operation R → Prop
  | order (.drive _ _ x) => x.Regular m
  | _ => True

instance (m : Motor R) (o : Operation R) : Decidable (o.Regular m) :=
  match o with
  | .order (.drive _ _ x) => inferInstanceAs (Decidable (x.Regular m))
  | .order .init | .order .query | .order .stop | .order (.setAmplitude _)
  | .order (.setExternalControl _) | .order (.setAlwaysOn _ _) | .order (.observe _)
  | .order (.unobserve _) | .advance _ | .failDrives _ | .failInfo _ | .attach _ _ | .detach _
  | .read _ => inferInstanceAs (Decidable True)

/-- Whether somebody hears of a completion. -/
def Timer.isHeard (t : Timer) : Bool := t.report != .unheard

section
variable [Level R]

def Order.react (d : Device R) : Order R → Reaction R Answer
  | init => ⟨.done, d.init.1, d.init.2⟩
  | query => ⟨.told d.query.1, d.query.2, []⟩
  | drive v i x => (d.drive v i x).map Answer.drove
  | stop => ⟨.done, d.stop.1, d.stop.2⟩
  | setAmplitude x => (d.setAmplitude x).map Answer.told
  | setExternalControl enabled => (d.setExternalControl enabled).map Answer.told
  | setAlwaysOn slot effect => (d.setAlwaysOn slot effect).map Answer.told
  | observe observer => (d.observe observer).map Answer.told
  | unobserve observer => (d.unobserve observer).map Answer.told

namespace Rig

omit [Level R] in
/-- The completions that arrive by `t` and that somebody hears. -/
def arrivals (r : Rig R) (t : Nat) : List Timer :=
  (r.timers.takeWhile (·.due ≤ t)).filter Timer.isHeard

omit [Level R] in
def sight (r : Rig R) (a : ActuatorId) : Sight R :=
  ⟨r.now, (r.device? a).map (·.control), r.bridge, r.log, r.payloads, r.flips⟩

def operate (a : ActuatorId) (r : Rig R) : Operation R → Answer × Rig R
  | .order o => r.onDevice a .done (o.react ·)
  | .advance ms => (.arrived (r.arrivals (r.now + ms)), r.advanceTo (r.now + ms))
  | .failDrives failure => (.done, r.onMotor a ({ · with failure }))
  | .failInfo times => (.done, r.onMotor a ({ · with infoFailures := times }))
  | .attach v capacity => (.done, { r with bridge := r.bridge.attach v capacity })
  | .detach v => (.done, { r with bridge := r.bridge.detach v })
  | .read i => (.read (r.bridge.read i).1, { r with bridge := (r.bridge.read i).2 })

/-- What every operation of a sequence gives back, and what is visible after it. -/
def trace (a : ActuatorId) : Rig R → List (Operation R) → List (Answer × Sight R)
  | _, [] => []
  | r, o :: os =>
    let (answer, r) := r.operate a o
    (answer, r.sight a) :: r.trace a os

end Rig
end

/-! ## Twins -/

/-- Whether somebody hears of a signal. -/
def Signal.isHeard : Signal R → Bool
  | .arm _ .unheard => false
  | _ => true

/-- The same device on a negotiated interface, whose motor was asked for some completions. -/
def Device.negotiated (d : Device R) (handed : Nat) : Device R :=
  { d with interface := .negotiated, motor := { d.motor with handed } }

/-- A direct device and its twin on a negotiated interface, both with a punctual motor like `m`.
The profile is the motor's own, or it allows nothing. -/
structure Device.Twins (m : Motor R) (d d' : Device R) : Prop where
  direct : d.interface = .direct
  twin : ∃ handed, d' = d.negotiated handed
  motor : d.motor.profile = m.profile
  latency : d.motor.latency = 0
  manual : d.motor.manual = false
  profile : d.control.profile = m.profile ∨ ∀ c, d.control.profile.can c = false

/-- Twins answer alike, are twins afterwards, and somebody hears of the same signals. -/
structure Reaction.Twins {α : Type} (m : Motor R) (x x' : Reaction R α) : Prop where
  value : x'.value = x.value
  device : x.device.Twins m x'.device
  signals : x'.signals.filter Signal.isHeard = x.signals.filter Signal.isHeard

theorem Reaction.Twins.map {α β : Type} {m : Motor R} {x x' : Reaction R α} (f : α → β)
    (H : Twins m x x') : Twins m (x.map f) (x'.map f) :=
  ⟨congrArg f H.value, H.device, H.signals⟩

namespace Device.Twins

variable {m : Motor R} {d d' : Device R}

theorem fresh [Level R] (hlatency : m.latency = 0) (hmanual : m.manual = false) (a : ActuatorId) :
    (Device.fresh .direct m a).Twins m (Device.fresh .negotiated m a) where
  direct := rfl
  twin := ⟨m.handed, rfl⟩
  motor := rfl
  latency := hlatency
  manual := hmanual
  profile := .inr fun _ => rfl

/-- What changes the control state of both and keeps the profile keeps twins. -/
theorem withControl (H : d.Twins m d') (c : Control R) (hc : c.profile = d.control.profile) :
    { d with control := c }.Twins m { d' with control := c } := by
  obtain ⟨handed, rfl⟩ := H.twin
  exact ⟨H.direct, ⟨handed, rfl⟩, H.motor, H.latency, H.manual, hc ▸ H.profile⟩

theorem control_eq (H : d.Twins m d') : d'.control = d.control := by
  obtain ⟨handed, rfl⟩ := H.twin
  rfl

theorem failDrives (H : d.Twins m d') (failure : Option HardwareError) :
    { d with motor := { d.motor with failure } }.Twins m
      { d' with motor := { d'.motor with failure } } := by
  obtain ⟨handed, rfl⟩ := H.twin
  exact ⟨H.direct, ⟨handed, rfl⟩, H.motor, H.latency, H.manual, H.profile⟩

theorem failInfo (H : d.Twins m d') (infoFailures : Nat) :
    { d with motor := { d.motor with infoFailures } }.Twins m
      { d' with motor := { d'.motor with infoFailures } } := by
  obtain ⟨handed, rfl⟩ := H.twin
  exact ⟨H.direct, ⟨handed, rfl⟩, H.motor, H.latency, H.manual, H.profile⟩

/-! ### Orders other than drives -/

theorem load (H : d.Twins m d') : d'.load.1 = d.load.1 ∧ d.load.2.Twins m d'.load.2 := by
  obtain ⟨handed, rfl⟩ := H.twin
  by_cases h : d.motor.infoFailures = 0
  · have hd : d.load = (true, { d with
        motor := { d.motor with infoAttempts := d.motor.infoAttempts + 1 }
        control := { d.control with profile := d.motor.profile, loaded := true } }) := by
      simp [Device.load, Motor.describe, h]
    have hd' : (d.negotiated handed).load = (true, d.load.2.negotiated handed) := by
      simp [Device.load, Device.negotiated, Motor.describe, h]
    rw [hd', hd]
    exact ⟨rfl, H.direct, ⟨handed, rfl⟩, H.motor, H.latency, H.manual, .inl H.motor⟩
  · have hd : d.load = (false, { d with
        motor := { d.motor with
          infoAttempts := d.motor.infoAttempts + 1
          infoFailures := d.motor.infoFailures - 1 } }) := by
      simp [Device.load, Motor.describe, h]
    have hd' : (d.negotiated handed).load = (false, d.load.2.negotiated handed) := by
      simp [Device.load, Device.negotiated, Motor.describe, h]
    rw [hd', hd]
    exact ⟨rfl, H.direct, ⟨handed, rfl⟩, H.motor, H.latency, H.manual, H.profile⟩

theorem query (H : d.Twins m d') : d'.query.1 = d.query.1 ∧ d.query.2.Twins m d'.query.2 := by
  unfold Device.query
  rw [H.control_eq]
  split
  · exact ⟨rfl, H⟩
  · exact H.load

section
variable [Level R]

theorem enter (H : d.Twins m d') (a : Activity) :
    (d.enter a).1.Twins m (d'.enter a).1 ∧ (d'.enter a).2 = (d.enter a).2 := by
  unfold Device.enter
  rw [H.control_eq]
  exact ⟨H.withControl (d.control.setActivity a).1 rfl, rfl⟩

theorem stop (H : d.Twins m d') : d.stop.1.Twins m d'.stop.1 ∧ d'.stop.2 = d.stop.2 := by
  obtain ⟨hdevice, hflips⟩ := H.enter .idle
  refine ⟨hdevice, ?_⟩
  obtain ⟨handed, rfl⟩ := H.twin
  exact congrArg (_ ++ ·) hflips

theorem setExternalControl (H : d.Twins m d') (enabled : Bool) :
    Reaction.Twins m (d.setExternalControl enabled) (d'.setExternalControl enabled) := by
  obtain ⟨hdevice, hflips⟩ := H.enter (if enabled then .externallyControlled else .idle)
  have hcontrol := H.control_eq
  unfold Device.setExternalControl
  rw [hcontrol]
  split
  · refine ⟨rfl, hdevice, ?_⟩
    obtain ⟨handed, rfl⟩ := H.twin
    exact congrArg (fun flips => List.filter _ (_ ++ flips)) hflips
  · exact ⟨rfl, H, rfl⟩

theorem init (H : d.Twins m d') : d.init.1.Twins m d'.init.1 ∧
    d'.init.2.filter Signal.isHeard = d.init.2.filter Signal.isHeard := by
  have hattached := H.withControl { d.control with attached := true } rfl
  have hload := hattached.load.2
  have hexternal := hload.setExternalControl false
  obtain ⟨hdevice, hsignals⟩ := hexternal.device.stop
  unfold Device.init
  rw [H.control_eq]
  refine ⟨hdevice, ?_⟩
  rw [List.filter_append, List.filter_append, hexternal.signals, hsignals]

end

theorem setAmplitude (H : d.Twins m d') (x : R) :
    Reaction.Twins m (d.setAmplitude x) (d'.setAmplitude x) := by
  have hrecord : (d.control.recordAmplitude x).profile = d.control.profile := by
    unfold Control.recordAmplitude
    split <;> rfl
  have hamplitude := H.withControl (d.control.recordAmplitude x) hrecord
  unfold Device.setAmplitude
  rw [H.control_eq]
  split
  · obtain ⟨handed, rfl⟩ := H.twin
    dsimp only [Device.negotiated]
    cases hfault : d.motor.faults.amplitude with
    | none => exact ⟨rfl, hamplitude, rfl⟩
    | some e => exact ⟨rfl, H, rfl⟩
  · exact ⟨rfl, H, rfl⟩

theorem setAlwaysOn (H : d.Twins m d') (slot : Int) (effect : Option Prebaked) :
    Reaction.Twins m (d.setAlwaysOn slot effect) (d'.setAlwaysOn slot effect) := by
  unfold Device.setAlwaysOn
  rw [H.control_eq]
  split
  · obtain ⟨handed, rfl⟩ := H.twin
    exact ⟨rfl, H, rfl⟩
  · exact ⟨rfl, H, rfl⟩

theorem observe (H : d.Twins m d') (observer : String) :
    Reaction.Twins m (d.observe observer) (d'.observe observer) := by
  have hprofile : (d.control.observe observer).2.1.profile = d.control.profile := by
    unfold Control.observe
    split <;> rfl
  have hdevice := H.withControl _ hprofile
  unfold Device.observe
  rw [H.control_eq]
  exact ⟨rfl, hdevice, rfl⟩

theorem unobserve (H : d.Twins m d') (observer : String) :
    Reaction.Twins m (d.unobserve observer) (d'.unobserve observer) := by
  have hdevice := H.withControl (d.control.unobserve observer).2 rfl
  unfold Device.unobserve
  rw [H.control_eq]
  exact ⟨rfl, hdevice, rfl⟩

/-! ### Drives -/

theorem refused (H : d.Twins m d') (value : Int) (signals : List (Signal R)) :
    Reaction.Twins m ⟨value, d, signals⟩ ⟨value, d', signals⟩ := ⟨rfl, H, rfl⟩

variable [Level R]

/-- Twins that started something, with its completion on the way. -/
theorem started (H : d.Twins m d') (handed : Nat) (value : Int) (seen : List (Signal R))
    {armed armed' : List (Signal R)} (harmed : armed'.filter Signal.isHeard = armed)
    (hheard : armed.filter Signal.isHeard = armed) :
    Reaction.Twins m ⟨value, (d.enter .vibrating).1, seen ++ armed ++ (d.enter .vibrating).2⟩
      ⟨value, ((d.negotiated handed).enter .vibrating).1,
        seen ++ armed' ++ ((d.negotiated handed).enter .vibrating).2⟩ := by
  have H' : d.Twins m (d.negotiated handed) :=
    ⟨H.direct, ⟨handed, rfl⟩, H.motor, H.latency, H.manual, H.profile⟩
  obtain ⟨hdevice, hflips⟩ := H'.enter .vibrating
  refine ⟨rfl, hdevice, ?_⟩
  simp only [hflips, List.filter_append, harmed, hheard]

end Device.Twins

/-- How long a motor takes for something that both interfaces know how to play. -/
theorem Drive.Regular.duration {m : Motor R} {x : Drive R} (hx : x.Regular m) :
    ∃ ms, m.duration? x = some ms ∧ (ms = 0 → ∃ p, x = .prebaked p) := by
  cases x with
  | hold ms => exact ⟨ms, rfl, fun h => absurd h (Nat.ne_of_gt hx)⟩
  | prebaked p => exact ⟨m.profile.effectMs p.effect, rfl, fun _ => ⟨p, rfl⟩⟩
  | composition ps => exact ⟨_, rfl, fun h => absurd h (Nat.ne_of_gt hx.1)⟩
  | ramps rs => exact ⟨_, rfl, fun h => absurd h (Nat.ne_of_gt hx.1)⟩
  | envelope | vendor => exact hx.elim

namespace Device

variable [Level R] {m : Motor R} {d d' : Device R} {x : Drive R} {ms : Nat} (v i : Nat)

/-! ### The outcomes of a drive -/

theorem driveDirect_unable (hneeds : x.needs.any (!d.control.profile.can ·) = true) :
    d.driveDirect v i x = ⟨0, d, []⟩ := by
  unfold driveDirect
  simp only [hneeds, Bool.or_true, if_true]

theorem driveNegotiated_unable (hneeds : x.needs.any (!d.control.profile.can ·) = true) :
    d.driveNegotiated v i x = ⟨0, d, []⟩ := by
  unfold driveNegotiated
  simp only [hneeds, Bool.true_or, if_true]

theorem driveDirect_failed {e : HardwareError} (hx : x.Regular m)
    (hneeds : x.needs.any (!d.control.profile.can ·) = false)
    (hfails : d.motor.failure = some e) :
    d.driveDirect v i x = ⟨e.driveResult, d, d.motor.driveSignals x⟩ := by
  cases x with
  | envelope | vendor => exact hx.elim
  | hold | prebaked | composition | ramps =>
    unfold driveDirect
    simp only [hneeds, hfails, Bool.or_self, Bool.false_eq_true, if_false]

theorem driveNegotiated_failed {e : HardwareError}
    (hneeds : x.needs.any (!d.control.profile.can ·) = false) (hpromised : d.promised? x ≠ some 0)
    (hfails : d.motor.failure = some e) :
    d.driveNegotiated v i x = ⟨e.driveResult, d, d.motor.driveSignals x⟩ := by
  have hpromises : (d.promised? x == some 0) = false := beq_eq_false_iff_ne.mpr hpromised
  unfold driveNegotiated
  simp only [hneeds, hpromises, hfails, Bool.or_self, Bool.false_eq_true, if_false]

/-- A direct motor does not have a prebaked effect. -/
theorem driveDirect_unknown {p : Prebaked} (hms : d.motor.duration? (.prebaked p) = some 0)
    (hworks : d.motor.failure = none) :
    d.driveDirect v i (.prebaked p) = ⟨0, d, d.motor.driveSignals (.prebaked p)⟩ := by
  unfold driveDirect
  simp only [Drive.needs, Option.any_none, hworks, hms, Option.getD_some, Bool.or_self,
    Bool.false_eq_true, if_false]

/-- A negotiated motor does not have a prebaked effect. -/
theorem driveNegotiated_unknown {p : Prebaked} (hms : d.motor.duration? (.prebaked p) = some 0)
    (hworks : d.motor.failure = none) :
    d.driveNegotiated v i (.prebaked p) = ⟨0, d, d.motor.driveSignals (.prebaked p)⟩ := by
  have hpromises : (d.promised? (.prebaked p) == some 0) = false := rfl
  unfold driveNegotiated
  simp only [hpromises, Drive.needs, Option.any_none, hworks, hms, Bool.or_self,
    Bool.false_eq_true, if_false]

/-- What a direct device does for a drive that starts. -/
theorem driveDirect_started (hx : x.Regular m) (hms : d.motor.duration? x = some ms)
    (hpos : ms ≠ 0) (hneeds : x.needs.any (!d.control.profile.can ·) = false)
    (hworks : d.motor.failure = none) :
    d.driveDirect v i x = ⟨driveResult ms, (d.enter .vibrating).1, d.motor.driveSignals x ++
      (if d.control.attached then [.arm ms (.step d.id v i)] else []) ++
        (d.enter .vibrating).2⟩ := by
  cases x with
  | envelope | vendor => exact hx.elim
  | hold | prebaked | composition | ramps =>
    obtain ⟨n, rfl⟩ := Nat.exists_eq_succ_of_ne_zero hpos
    unfold driveDirect
    simp only [hneeds, Bool.false_or, Bool.false_eq_true, if_false, hworks, hms, Option.getD_some]

/-- What a negotiated device does for a drive that starts. Somebody hears of the completion exactly
if the device is attached. -/
theorem driveNegotiated_started (hlatency : d.motor.latency = 0) (hmanual : d.motor.manual = false)
    (hms : d.motor.duration? x = some ms) (hpos : ms ≠ 0)
    (hneeds : x.needs.any (!d.control.profile.can ·) = false)
    (hpromised : ∀ n, d.promised? x = some n → n = ms) (hworks : d.motor.failure = none) :
    ∃ handed armed, armed.filter Signal.isHeard =
        (if d.control.attached then [.arm ms (.step d.id v i)] else []) ∧
      d.driveNegotiated v i x = ⟨driveResult ms,
        ({ d with motor := { d.motor with handed } }.enter .vibrating).1,
        d.motor.driveSignals x ++ armed ++
          ({ d with motor := { d.motor with handed } }.enter .vibrating).2⟩ := by
  have hschedule : ∀ report, d.motor.schedule (some ms) report =
      ({ d.motor with handed := d.motor.handed + 1 }, [.arm ms report]) := by
    intro report
    unfold Motor.schedule
    dsimp only
    rw [hmanual, hlatency]
    rfl
  have hpromises : (d.promised? x == some 0) = false := by
    cases h : d.promised? x with
    | none => rfl
    | some n => simpa [hpromised n h] using hpos
  -- Whoever keeps the time, one completion is on its way, and it has an addressee if attached.
  have harmed : ∀ reports attached optional : Bool, ∃ handed armed,
      armed.filter Signal.isHeard = (if attached then [.arm ms (.step d.id v i)] else []) ∧
      (if reports then
        if optional && !attached then (d.motor, [])
        else d.motor.schedule (some ms) (if attached then .step d.id v i else .unheard)
      else (d.motor, if attached then [.arm ((some ms).getD 0)
        (if attached then .step d.id v i else .unheard)] else [])) =
        ({ d.motor with handed }, armed) := by
    intro reports attached optional
    simp only [hschedule]
    cases reports <;> cases optional <;> cases attached <;> exact ⟨_, _, rfl, rfl⟩
  replace harmed := harmed (d.reportsItself x) d.control.attached
  unfold driveNegotiated
  simp only [hneeds, hpromises, Bool.or_self, Bool.false_eq_true, if_false, hworks, hms]
  cases x with
  | vendor => cases hms
  | hold n =>
    obtain ⟨handed, armed, hheard, hpair⟩ := harmed true
    exact ⟨handed, armed, hheard, by simp only [hpair, hworks]; rfl⟩
  | prebaked p =>
    obtain ⟨handed, armed, hheard, hpair⟩ := harmed true
    obtain ⟨n, rfl⟩ := Nat.exists_eq_succ_of_ne_zero hpos
    exact ⟨handed, armed, hheard, by simp only [hpair, hworks]; rfl⟩
  | composition | ramps | envelope =>
    obtain ⟨handed, armed, hheard, hpair⟩ := harmed false
    obtain rfl := hpromised _ rfl
    exact ⟨handed, armed, hheard, by simp only [hpair, hworks]; rfl⟩

omit [Level R] in
/-- The software works out the duration that the motor takes. -/
theorem Twins.promised (H : d.Twins m d') (hms : m.duration? x = some ms)
    (hneeds : x.needs.any (!d.control.profile.can ·) = false) {n : Nat}
    (hn : d.promised? x = some n) : n = ms := by
  cases x with
  | hold | prebaked | vendor => cases hn
  | ramps | envelope => exact Option.some.inj (hn.symm.trans hms)
  | composition ps =>
    have hknown : d.control.profile = m.profile := by
      refine H.profile.resolve_right fun hnone => ?_
      have : d.control.profile.can .composeEffects = true := by simpa [Drive.needs] using hneeds
      rw [hnone] at this
      cases this
    have hn' : some (m.profile.compositionMs ps) = some n := hknown ▸ hn
    exact Option.some.inj (hn'.symm.trans hms)

theorem Twins.drive (H : d.Twins m d') (hx : x.Regular m) :
    Reaction.Twins m (d.drive v i x) (d'.drive v i x) := by
  obtain ⟨ms, hms, hzero⟩ := hx.duration
  have hmotor : d.motor.duration? x = some ms := by
    rw [← hms]
    cases x <;> simp only [Motor.duration?, H.motor]
  have hdirect : d.drive v i x = d.driveDirect v i x := by
    unfold Device.drive
    rw [H.direct]
  obtain ⟨handed, rfl⟩ := H.twin
  change Reaction.Twins m _ ((d.negotiated handed).driveNegotiated v i x)
  rw [hdirect]
  cases hneeds : x.needs.any (!d.control.profile.can ·) with
  | true =>
    rw [driveDirect_unable v i hneeds,
      driveNegotiated_unable (d := d.negotiated handed) v i hneeds]
    exact H.refused 0 []
  | false =>
    have hpromised : ∀ n, d.promised? x = some n → n = ms := fun n => H.promised hms hneeds
    cases hworks : d.motor.failure with
    | some e =>
      have hnonzero : d.promised? x ≠ some 0 := by
        intro h
        obtain ⟨p, rfl⟩ := hzero (hpromised 0 h).symm
        cases h
      rw [driveDirect_failed v i hx hneeds hworks,
        driveNegotiated_failed (d := d.negotiated handed) v i hneeds hnonzero hworks]
      exact H.refused _ _
    | none =>
      by_cases hpos : ms = 0
      · obtain ⟨p, rfl⟩ := hzero hpos
        subst hpos
        rw [driveDirect_unknown v i hmotor hworks,
          driveNegotiated_unknown (d := d.negotiated handed) v i hmotor hworks]
        exact H.refused _ _
      · obtain ⟨handed', armed, hheard, hstarted⟩ :=
          driveNegotiated_started (d := d.negotiated handed) v i H.latency H.manual hmotor hpos
            hneeds hpromised hworks
        rw [driveDirect_started v i hx hmotor hpos hneeds hworks, hstarted]
        refine H.started handed' _ _ hheard ?_
        cases d.control.attached <;> rfl

end Device

/-- Whatever is asked of twins, they react alike. -/
theorem Device.Twins.react [Level R] {m : Motor R} {d d' : Device R} (H : d.Twins m d')
    (o : Order R) (ho : (Operation.order o).Regular m) :
    Reaction.Twins m (o.react d) (o.react d') := by
  cases o with
  | init => exact ⟨rfl, H.init.1, H.init.2⟩
  | query => exact ⟨congrArg Answer.told H.query.1, H.query.2, rfl⟩
  | drive v i x => exact (H.drive v i ho).map Answer.drove
  | stop => exact ⟨rfl, H.stop.1, congrArg _ H.stop.2⟩
  | setAmplitude x => exact (H.setAmplitude x).map Answer.told
  | setExternalControl enabled => exact (H.setExternalControl enabled).map Answer.told
  | setAlwaysOn slot effect => exact (H.setAlwaysOn slot effect).map Answer.told
  | observe observer => exact (H.observe observer).map Answer.told
  | unobserve observer => exact (H.unobserve observer).map Answer.told

/-! ## What is heard on a rig -/

/-- A rig without its devices and without the completions that nobody hears. -/
def Rig.heard (r : Rig R) : Rig R :=
  { r with devices := {}, timers := r.timers.filter Timer.isHeard }

namespace Rig

section
variable {r : Rig R}

theorem heard_note (h : r.Timely) (x : Signal R) :
    (r.note x).heard = if x.isHeard then r.heard.note x else r.heard := by
  cases x with
  | call | payload | flip => rfl
  | arm delay report =>
    have harm := filter_arm Timer.isHeard ⟨r.now + delay, report⟩ h
    cases report with
    | step | synced | session | unheard =>
      exact congrArg (fun timers => { r.heard with timers }) harm

/-- What is heard of some signals is what they are without those that nobody hears. -/
theorem heard_noteAll (h : r.Timely) (xs : List (Signal R)) :
    (r.noteAll xs).heard = r.heard.noteAll (xs.filter Signal.isHeard) := by
  induction xs generalizing r with
  | nil => rfl
  | cons x xs ih =>
    have hnote := heard_note h x
    calc (r.noteAll (x :: xs)).heard = ((r.note x).noteAll xs).heard := rfl
      _ = (r.note x).heard.noteAll (xs.filter Signal.isHeard) := ih (h.note x)
      _ = r.heard.noteAll ((x :: xs).filter Signal.isHeard) := by
        rw [hnote]
        cases hx : x.isHeard <;> simp [hx, noteAll]

end

/-! ### The passing of time -/

section
variable {r : Rig R}

theorem heard_deliver (x : Report) : (r.deliver x).heard = r.heard.deliver x := by
  cases x <;> rfl

theorem heard_deliverAll (ts : List Timer) :
    (r.deliverAll ts).heard = r.heard.deliverAll (ts.filter Timer.isHeard) := by
  induction ts generalizing r with
  | nil => rfl
  | cons x ts ih =>
    have hx : (r.deliverAll (x :: ts)).heard =
        (r.heard.deliver x.report).deliverAll (ts.filter Timer.isHeard) := by
      rw [← heard_deliver]
      exact ih
    rw [hx]
    obtain ⟨due, report⟩ := x
    cases report <;> rfl

end

section
variable {r : Rig R} (h : r.Timely) (t : Nat)

include h

theorem timely_heard : r.heard.Timely := h.filter _

theorem arrivals_eq : r.arrivals t = r.heard.timers.takeWhile (·.due ≤ t) := by
  rw [(split_due t (timely_heard h)).1]
  unfold arrivals heard
  rw [(split_due t h).1, List.filter_filter, List.filter_filter]
  exact List.filter_congr fun x _ => Bool.and_comm ..

theorem heard_advanceTo : (r.advanceTo t).heard = r.heard.advanceTo t := by
  have hrest : (r.withTimers (r.timers.dropWhile (·.due ≤ t))).heard =
      r.heard.withTimers (r.heard.timers.dropWhile (·.due ≤ t)) := by
    rw [(split_due t h).2, (split_due t (timely_heard h)).2]
    unfold withTimers heard
    simp only [List.filter_filter, Bool.and_comm]
  calc (r.advanceTo t).heard
    _ = ((r.withTimers (r.timers.dropWhile (·.due ≤ t))).deliverAll
          (r.timers.takeWhile (·.due ≤ t))).heard.moveTo t := by
      rw [advanceTo_eq]
      rfl
    _ = ((r.heard.withTimers (r.heard.timers.dropWhile (·.due ≤ t))).deliverAll
          (r.arrivals t)).moveTo t := by
      rw [heard_deliverAll, hrest]
      rfl
    _ = r.heard.advanceTo t := by
      rw [arrivals_eq h, advanceTo_eq]

end

/-! ## Twins on two rigs -/

/-- Two rigs that differ in a device, direct on one and its twin on the other, and in what nobody
hears. -/
structure Mirrors (m : Motor R) (a : ActuatorId) (r r' : Rig R) : Prop where
  heard : r'.heard = r.heard
  timely : r.Timely
  timely' : r'.Timely
  twins : ∃ d d', r.device? a = some d ∧ r'.device? a = some d' ∧ d.Twins m d'

namespace Mirrors

variable {m : Motor R} {a : ActuatorId} {r r' : Rig R}

theorem now_eq (H : Mirrors m a r r') : r'.now = r.now := (congrArg Rig.now H.heard :)

theorem bridge_eq (H : Mirrors m a r r') : r'.bridge = r.bridge := (congrArg Rig.bridge H.heard :)

theorem sight_eq (H : Mirrors m a r r') : r'.sight a = r.sight a := by
  obtain ⟨d, d', hd, hd', htwins⟩ := H.twins
  have hlog : r'.log = r.log := (congrArg Rig.log H.heard :)
  have hpayloads : r'.payloads = r.payloads := (congrArg Rig.payloads H.heard :)
  have hflips : r'.flips = r.flips := (congrArg Rig.flips H.heard :)
  unfold sight
  rw [hd, hd', Option.map_some, Option.map_some, htwins.control_eq, H.now_eq, H.bridge_eq, hlog,
    hpayloads, hflips]

/-- An operation on the devices that gives twins and shows what is heard alike. -/
theorem onDevice {α : Type} (H : Mirrors m a r r') (other : α) (f : Device R → Reaction R α)
    (hf : ∀ d d', d.Twins m d' → Reaction.Twins m (f d) (f d')) :
    (r'.onDevice a other f).1 = (r.onDevice a other f).1 ∧
      Mirrors m a (r.onDevice a other f).2 (r'.onDevice a other f).2 := by
  obtain ⟨d, d', hd, hd', htwins⟩ := H.twins
  have hreact := hf d d' htwins
  have hdevice := device?_onDevice r a other f a
  have hdevice' := device?_onDevice r' a other f a
  rw [if_pos rfl, hd, Option.map_some] at hdevice
  rw [if_pos rfl, hd', Option.map_some] at hdevice'
  have hval : r.onDevice a other f =
      ((f d).value, (r.file a (f d).device).noteAll (f d).signals) := by
    unfold Rig.onDevice
    rw [hd]
    rfl
  have hval' : r'.onDevice a other f =
      ((f d').value, (r'.file a (f d').device).noteAll (f d').signals) := by
    unfold Rig.onDevice
    rw [hd']
    rfl
  refine ⟨by rw [hval, hval', hreact.value], ?_, ?_, ?_, _, _, hdevice, hdevice', hreact.device⟩
  · have ht : (r.file a (f d).device).Timely := H.timely
    have ht' : (r'.file a (f d').device).Timely := H.timely'
    rw [hval, hval']
    calc ((r'.file a (f d').device).noteAll (f d').signals).heard
      _ = r'.heard.noteAll ((f d').signals.filter Signal.isHeard) := heard_noteAll ht' _
      _ = r.heard.noteAll ((f d).signals.filter Signal.isHeard) := by rw [H.heard, hreact.signals]
      _ = ((r.file a (f d).device).noteAll (f d).signals).heard := (heard_noteAll ht _).symm
  · rw [hval]
    exact Timely.noteAll (r := r.file a (f d).device) H.timely _
  · rw [hval']
    exact Timely.noteAll (r := r'.file a (f d').device) H.timely' _

theorem onMotor (H : Mirrors m a r r') (f : Motor R → Motor R)
    (hf : ∀ d d' : Device R, d.Twins m d' →
      { d with motor := f d.motor }.Twins m { d' with motor := f d'.motor }) :
    Mirrors m a (r.onMotor a f) (r'.onMotor a f) := by
  obtain ⟨d, d', hd, hd', htwins⟩ := H.twins
  refine ⟨H.heard, H.timely, H.timely', { d with motor := f d.motor },
    { d' with motor := f d'.motor }, ?_, ?_, hf d d' htwins⟩
  · unfold device? at hd ⊢
    simp only [Rig.onMotor, Table.find?_modify, hd, if_true, Option.map_some]
  · unfold device? at hd' ⊢
    simp only [Rig.onMotor, Table.find?_modify, hd', if_true, Option.map_some]

theorem onBridge (H : Mirrors m a r r') (f : Bridge → Bridge) :
    Mirrors m a { r with bridge := f r.bridge } { r' with bridge := f r'.bridge } :=
  ⟨congrArg (fun r => { r with bridge := f r.bridge }) H.heard, H.timely, H.timely', H.twins⟩

theorem advanceTo (H : Mirrors m a r r') (t : Nat) :
    r'.arrivals t = r.arrivals t ∧ Mirrors m a (r.advanceTo t) (r'.advanceTo t) := by
  have hdevice : ∀ r : Rig R, (r.advanceTo t).device? a = r.device? a := by
    intro r
    rw [advanceTo_eq]
    exact congrArg (Table.find? · a) (deliverAll_devices _)
  refine ⟨?_, ?_, H.timely.advanceTo t, H.timely'.advanceTo t, ?_⟩
  · rw [arrivals_eq H.timely, arrivals_eq H.timely', H.heard]
  · rw [heard_advanceTo H.timely, heard_advanceTo H.timely', H.heard]
  · rw [hdevice, hdevice]
    exact H.twins

variable [Level R]

/-- One operation. -/
theorem operate (H : Mirrors m a r r') (o : Operation R) (ho : o.Regular m) :
    (r'.operate a o).1 = (r.operate a o).1 ∧ Mirrors m a (r.operate a o).2 (r'.operate a o).2 := by
  cases o with
  | order o => exact H.onDevice .done _ fun d d' htwins => htwins.react o ho
  | advance ms =>
    have hstep : r'.operate a (.advance ms) =
        (.arrived (r'.arrivals (r.now + ms)), r'.advanceTo (r.now + ms)) := by
      rw [← H.now_eq]
      rfl
    obtain ⟨harrivals, hmirrors⟩ := H.advanceTo (r.now + ms)
    rw [hstep]
    exact ⟨congrArg Answer.arrived harrivals, hmirrors⟩
  | failDrives failure =>
    exact ⟨rfl, H.onMotor ({ · with failure }) fun d d' htwins => htwins.failDrives failure⟩
  | failInfo times =>
    exact ⟨rfl, H.onMotor ({ · with infoFailures := times }) fun d d' htwins =>
      htwins.failInfo times⟩
  | attach v capacity => exact ⟨rfl, H.onBridge (·.attach v capacity)⟩
  | detach v => exact ⟨rfl, H.onBridge (·.detach v)⟩
  | read i =>
    have hread : (r'.bridge.read i).1 = (r.bridge.read i).1 := by rw [H.bridge_eq]
    exact ⟨congrArg Answer.read hread, H.onBridge fun b => (b.read i).2⟩

theorem trace_eq (H : Mirrors m a r r') (os : List (Operation R)) (hos : ∀ o ∈ os, o.Regular m) :
    r'.trace a os = r.trace a os := by
  induction os generalizing r r' with
  | nil => rfl
  | cons o os ih =>
    obtain ⟨hanswer, hmirrors⟩ := H.operate o (hos o List.mem_cons_self)
    have hlater := ih hmirrors fun o' ho' => hos o' (List.mem_cons_of_mem o ho')
    unfold Rig.trace
    dsimp only
    rw [hanswer, hmirrors.sight_eq, hlater]

end Mirrors

/-- **One contract.** A motor that reports on time cannot be told apart on its two interfaces:
every operation of a sequence gives back the same, and the same is visible after it. -/
theorem trace_interface [Level R] (r : Rig R) (m : Motor R) (a : ActuatorId)
    (os : List (Operation R)) (hr : r.Timely) (hlatency : m.latency = 0)
    (hmanual : m.manual = false) (hos : ∀ o ∈ os, o.Regular m) :
    (r.file a (.fresh .negotiated m a)).trace a os =
      (r.file a (.fresh .direct m a)).trace a os := by
  have hfile : ∀ d : Device R, (r.file a d).device? a = some d := by
    intro d
    simp only [device?, file, Table.find?_insert, if_true]
  have hmirrors : Mirrors m a (r.file a (.fresh .direct m a)) (r.file a (.fresh .negotiated m a)) :=
    ⟨rfl, hr, hr, _, _, hfile _, hfile _, .fresh hlatency hmanual a⟩
  exact hmirrors.trace_eq os hos

/-- A motor with one primitive. -/
def clicker : Motor Rat where
  profile := { Profile.degraded 0 with
    capabilities := .ofList [.composeEffects], primitives := .ofList [(⟨1⟩, 12)] }

/-- A composition before the device is connected, one after, and one that the hardware refuses. -/
def clicks : List (Operation Rat) :=
  let click : Drive Rat := .composition [⟨⟨1⟩, 1, 0⟩, ⟨⟨1⟩, 1, 30⟩]
  [.order .query, .order (.drive 7 1 click), .order .init, .attach 7 4, .order (.drive 7 2 click),
    .advance 60, .read 0, .failDrives (some .dead), .order (.drive 7 3 click)]

/-- A rig without devices. -/
def empty : Rig Rat where
  catalogue _ := (.direct, clicker)
  group := .fixed []

theorem trace_interface_clicks :
    empty.Timely ∧ clicker.latency = 0 ∧ clicker.manual = false ∧
      (∀ o ∈ clicks, o.Regular clicker) ∧
      ((empty.file 0 (.fresh .direct clicker 0)).trace 0 clicks).map (·.1) =
        [.told true, .drove 54, .done, .done, .drove 54, .arrived [⟨54, .step 0 7 2⟩],
          .read [.stepComplete 0 7 2], .done, .drove (-1)] ∧
      (empty.file 0 (.fresh .negotiated clicker 0)).trace 0 clicks =
        (empty.file 0 (.fresh .direct clicker 0)).trace 0 clicks :=
  have timely : empty.Timely := .nil
  have regular : ∀ o ∈ clicks, o.Regular clicker := by decide +kernel
  ⟨timely, rfl, rfl, regular, by decide +kernel,
    trace_interface empty clicker 0 clicks timely rfl rfl regular⟩

end Rig
end Haptics
