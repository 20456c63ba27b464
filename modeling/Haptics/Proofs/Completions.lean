import Haptics.Proofs.Observers
import Haptics.Proofs.Shares
import Mathlib.Data.List.Perm.Basic

/-!
# Every drive has one completion

A device that knows where its completions go is asked to play something. Its answer is positive
exactly if the hardware took the call and started something. Then the device vibrates, and one
completion for just this step is on its way or held back, whichever interface the device has and
whoever keeps the time. Otherwise nothing is different from before. A completion that was armed is
delivered at most once, and no stop takes it back (`Rig.drive_contract`).
-/

namespace Haptics

variable {R : Type}

/-! ## Devices whose completions go somewhere -/

/-- The completion that a signal arms. -/
def Signal.armed? : Signal R → Option Report
  | .arm _ x => some x
  | .call _ | .payload _ _ | .flip _ => none

/-- Whether an interface knows a kind of drive at all. -/
def Interface.knows : Interface → Drive R → Bool
  | .direct, .envelope _ | .direct, .vendor _ => false
  | _, _ => true

namespace Device

/-- A device under its number, with the profile of its motor or with none. -/
structure Known [Level R] (k : Interface) (a : ActuatorId) (p : Profile R) (d : Device R) :
    Prop where
  interface : d.interface = k
  id : d.control.id = a
  motor : d.motor.profile = p
  profile : d.control.profile = p ∨ d.control.profile = .degraded a

/-- What a drive needs is missing: an ability, or an interface that knows it. -/
def Lacks (d : Device R) (x : Drive R) : Prop :=
  (∃ c ∈ x.needs, d.control.profile.can c = false) ∨ d.interface.knows x = false

/-- The motor was asked to report once more: after a delay, or when it is told to. -/
def asked (d : Device R) (handed : Nat) (delay? : Option Nat) (y : Report) : Device R :=
  { d with motor := { d.motor with
      handed, held := if delay?.isSome then d.motor.held else d.motor.held ++ [y] } }

variable [Level R]

/-- What becomes of a drive. -/
inductive Goes (d : Device R) (v i : Nat) (x : Drive R) : Reaction R Int → Prop
  /-- The hardware is not asked for what it cannot do. -/
  | unable (lacks : d.Lacks x) : Goes d v i x ⟨0, d, []⟩
  /-- The hardware is not asked for what takes no time. -/
  | spared (void : d.motor.duration? x = some 0) (other : ∀ ms, x ≠ .hold ms) :
    Goes d v i x ⟨0, d, []⟩
  | failed {e} (able : ¬d.Lacks x) (fails : d.motor.failure = some e) :
    Goes d v i x ⟨e.driveResult, d, d.motor.driveSignals x⟩
  /-- The hardware had nothing to start. -/
  | void (able : ¬d.Lacks x) (void : d.motor.duration? x = some 0) (other : ∀ ms, x ≠ .hold ms) :
    Goes d v i x ⟨0, d, d.motor.driveSignals x⟩
  | started {n} (handed : Nat) (delay? : Option Nat) (able : ¬d.Lacks x)
      (works : d.motor.failure = none) (lasts : d.motor.duration? x ≠ some 0 ∨ x = .hold 0)
      (positive : 0 < n ∨ x = .hold 0) :
    Goes d v i x ⟨n, ((d.asked handed delay? (d.report v i)).enter .vibrating).1,
      d.motor.driveSignals x ++ delay?.toList.map (.arm · (d.report v i)) ++
        (d.enter .vibrating).2⟩

variable {d : Device R} {k : Interface} {a : ActuatorId} {p : Profile R} {x : Drive R}

omit [Level R] in
theorem lacks_iff : d.Lacks x ↔
    x.needs.any (!d.control.profile.can ·) = true ∨ d.interface.knows x = false := by
  unfold Lacks
  cases x.needs <;> simp

instance (d : Device R) (x : Drive R) : Decidable (d.Lacks x) := decidable_of_iff _ lacks_iff.symm

/-- The software works out the duration that the motor takes. -/
theorem Known.duration_eq (K : d.Known k a p) (able : ¬d.Lacks x) {ms : Nat}
    (h : d.promised? x = some ms) : d.motor.duration? x = some ms := by
  cases x with
  | hold | prebaked | vendor => cases h
  | ramps | envelope => exact h
  | composition ps =>
    have hloaded : d.control.profile = d.motor.profile := by
      refine (K.profile.resolve_right fun hdegraded => able (.inl ?_)).trans K.motor.symm
      exact ⟨.composeEffects, rfl, by rw [hdegraded]; rfl⟩
    rw [← h, promised?, hloaded]
    rfl

omit [Level R] in
/-- Whoever keeps the time of a drive, the motor is asked to report it or a timer is set. -/
theorem exists_asked (d : Device R) (reports : Bool) (ms : Option Nat) (y : Report) :
    ∃ handed delay?,
      (if reports then d.motor.schedule ms y else (d.motor, [.arm (ms.getD 0) y])) =
        ((d.asked handed delay? y).motor, (delay?.toList.map (.arm · y) : List (Signal R))) := by
  cases reports with
  | false => exact ⟨d.motor.handed, some (ms.getD 0), rfl⟩
  | true =>
    unfold Motor.schedule
    cases ms with
    | none => exact ⟨d.motor.handed + 1, none, rfl⟩
    | some ms =>
      cases hmanual : d.motor.manual with
      | true => exact ⟨d.motor.handed + 1, none, by simp [asked, hmanual]⟩
      | false => exact ⟨d.motor.handed + 1, some (ms + d.motor.latency), by simp [asked, hmanual]⟩

section
variable (v i : Nat)

theorem driveNegotiated_goes (K : d.Known .negotiated a p) (attached : d.control.attached = true) :
    d.Goes v i x (d.driveNegotiated v i x) := by
  have hreport : (if d.control.attached then .step d.id v i else .unheard) = d.report v i := rfl
  unfold driveNegotiated
  simp only [hreport]
  simp only [attached, Bool.not_true, Bool.and_false, Bool.false_eq_true, if_false, if_true]
  split
  · rename_i hspared
    by_cases hlacks : d.Lacks x
    · exact .unable hlacks
    · have hneeds : x.needs.any (!d.control.profile.can ·) = false :=
        Bool.eq_false_iff.mpr fun h => hlacks (lacks_iff.mpr (.inl h))
      rw [hneeds, Bool.false_or, beq_iff_eq] at hspared
      exact .spared (K.duration_eq hlacks hspared) (by rintro ms rfl; cases hspared)
  · rename_i hspared
    simp only [Bool.or_eq_true, not_or, beq_iff_eq] at hspared
    have hable : ¬d.Lacks x := by
      have hknows : Interface.negotiated.knows x = true := by cases x <;> rfl
      rw [lacks_iff, K.interface, hknows]
      exact fun h => h.elim hspared.1 Bool.noConfusion
    split
    · rename_i e _ hfailure
      exact .failed hable hfailure
    · rename_i p _ hms
      exact .void hable hms fun _ h => by cases h
    · rename_i x _ _ _ hfailure hms
      obtain ⟨handed, delay?, hasked⟩ :=
        d.exists_asked (d.reportsItself x) (d.motor.duration? x) (d.report v i)
      simp only [hasked]
      cases x with
      | hold ms =>
        refine .started handed delay? hable hfailure ?_ ?_
        all_goals by_cases hzero : ms = 0
        · exact .inr (by rw [hzero])
        · exact .inl (by simpa [Motor.duration?] using hzero)
        · exact .inr (by rw [hzero])
        · exact .inl (driveResult_pos hzero)
      | prebaked b =>
        exact .started handed delay? hable hfailure (.inl (hms b rfl))
          (.inl (driveResult_pos fun h => hms b rfl (congrArg some h)))
      | composition | ramps | envelope =>
        have hlasts : ∀ n, d.promised? _ = some n → d.motor.duration? _ ≠ some 0 ∧
            0 < driveResult n := fun n hn =>
          ⟨fun h => hspared.2 (hn.trans ((K.duration_eq hable hn).symm.trans h)),
            driveResult_pos fun h => hspared.2 (h ▸ hn)⟩
        obtain ⟨hlasts, hpos⟩ := hlasts _ rfl
        exact .started handed delay? hable hfailure (.inl hlasts) (.inl hpos)
      | vendor =>
        exact .started handed delay? hable hfailure (.inl fun h => by cases h)
          (.inl (by decide : 0 < indefinite))

theorem driveDirect_goes (K : d.Known .direct a p) (attached : d.control.attached = true) :
    d.Goes v i x (d.driveDirect v i x) := by
  have hreport : .step d.id v i = d.report v i := by rw [report, if_pos attached]
  unfold driveDirect
  simp only [hreport, attached, if_true]
  refine iteInduction (motive := d.Goes v i x) (fun hlacks => ?_) fun hlacks => ?_
  · refine .unable (lacks_iff.mpr ?_)
    rw [K.interface]
    cases x with
    | envelope | vendor => exact .inr rfl
    | _ => exact .inl hlacks
  · have hable : ¬d.Lacks x := by
      rw [lacks_iff, K.interface]
      cases x with
      | envelope | vendor => exact absurd rfl hlacks
      | _ => exact fun h => h.elim hlacks nofun
    -- What an interface of this kind knows takes a time that the motor knows.
    have hknown : ∃ ms, d.motor.duration? x = some ms := by
      cases x with
      | vendor => exact absurd rfl hlacks
      | _ => exact ⟨_, rfl⟩
    obtain ⟨ms, hms⟩ := hknown
    rw [hms, Option.getD_some]
    split
    · rename_i e _ _ hfailure
      exact .failed hable hfailure
    · exact .void hable hms nofun
    · exact .void hable hms nofun
    · exact .void hable hms nofun
    · rename_i x ms _ _ _ hfailure hprebaked hcomposition hramps
      have hstarted (hpos : ms ≠ 0 ∨ x = .hold 0) : d.Goes v i x ⟨driveResult ms,
          (d.enter .vibrating).1, d.motor.driveSignals x ++ [.arm ms (d.report v i)] ++
            (d.enter .vibrating).2⟩ :=
        .started d.motor.handed (some ms) hable hfailure
          (hpos.imp_left fun h hzero => h (Option.some.inj (hms.symm.trans hzero)))
          (hpos.imp_left driveResult_pos)
      refine hstarted ?_
      cases x with
      | hold n =>
        obtain rfl : n = ms := Option.some.inj hms
        exact (em (n = 0)).symm.imp_right fun h => by rw [h]
      | prebaked b => exact .inl fun h => hprebaked b rfl h
      | composition ps => exact .inl fun h => hcomposition ps rfl h
      | ramps rs => exact .inl fun h => hramps rs rfl h
      | envelope | vendor => exact absurd rfl hlacks

theorem drive_goes (K : d.Known k a p) (attached : d.control.attached = true) :
    d.Goes v i x (d.drive v i x) := by
  unfold drive
  rw [K.interface]
  cases k with
  | negotiated => exact driveNegotiated_goes v i K attached
  | direct => exact driveDirect_goes v i K attached

end

/-! ## Who is owed a completion -/

omit [Level R] in
theorem armed_driveSignals (m : Motor R) (x : Drive R) :
    (m.driveSignals x).filterMap Signal.armed? = [] := by
  cases x <;> rfl

omit [Level R] in
theorem armed_flips (fs : List Flip) : (fs.map (.flip (R := R))).filterMap Signal.armed? = [] := by
  refine List.filterMap_eq_nil_iff.mpr fun y hy => ?_
  obtain ⟨f, -, rfl⟩ := List.mem_map.mp hy
  rfl

theorem armed_enter (d : Device R) (x : Activity) : (d.enter x).2.filterMap Signal.armed? = [] :=
  armed_flips _

omit [Level R] in
theorem starts_of_ne_hold (h : ∀ ms, x ≠ .hold ms) : d.starts x 0 = false := by
  cases x with
  | hold ms => exact absurd rfl (h ms)
  | _ => simp [starts]

omit [Level R] in
theorem Lacks.ne_hold (h : d.Lacks x) (ms : Nat) : x ≠ .hold ms := by
  rintro rfl
  cases hinterface : d.interface <;> simp [Lacks, Drive.needs, Interface.knows, hinterface] at h

/-- A drive that starts something asks for one more completion, and any other for none. -/
theorem Goes.owes {v i : Nat} {y : Reaction R Int} (G : d.Goes v i x y) :
    (y.signals.filterMap Signal.armed? ++ y.device.motor.held).Perm
      ((if d.starts x y.value then [d.report v i] else []) ++ d.motor.held) := by
  cases G with
  | unable lacks => rw [starts_of_ne_hold lacks.ne_hold]; exact .refl _
  | spared _ other => rw [starts_of_ne_hold other]; exact .refl _
  | failed _ fails =>
    rw [starts_failed _ _ fails, armed_driveSignals]
    exact .refl _
  | void _ _ other =>
    rw [starts_of_ne_hold other, armed_driveSignals]
    exact .refl _
  | started handed delay? _ works _ positive =>
    have hstarts : d.starts x _ = true := positive.elim (starts_of_pos d x) fun h => by
      rw [h]
      exact starts_hold d works _
    rw [hstarts, List.filterMap_append, List.filterMap_append, armed_driveSignals, armed_enter]
    cases delay? with
    | some ms => exact .refl _
    | none =>
      show (d.motor.held ++ [d.report v i]).Perm ([d.report v i] ++ d.motor.held)
      exact List.perm_append_comm

/-! ## Operations that arm nothing -/

/-- An operation arms no completion and takes none back. -/
structure ArmsNone (d d' : Device R) (ss : List (Signal R)) : Prop where
  held : d'.motor.held = d.motor.held
  armed : ss.filterMap Signal.armed? = []
  attached : d.control.attached = true → d'.control.attached = true
  known : ∀ {k a p}, d.Known k a p → d'.Known k a p

namespace ArmsNone

variable {d' d'' : Device R} {ss ts : List (Signal R)}

theorem refl (d : Device R) : d.ArmsNone d [] := ⟨rfl, rfl, fun h => h, fun K => K⟩

theorem trans (h : d.ArmsNone d' ss) (h' : d'.ArmsNone d'' ts) : d.ArmsNone d'' (ss ++ ts) where
  held := h'.held.trans h.held
  armed := by rw [List.filterMap_append, h.armed, h'.armed, List.append_nil]
  attached hd := h'.attached (h.attached hd)
  known K := h'.known (h.known K)

/-- What an operation notes about the device is not where its completions go. -/
theorem withControl {c : Control R} (armed : ss.filterMap Signal.armed? = [])
    (id : c.id = d.control.id) (attached : d.control.attached = true → c.attached = true)
    (profile : c.profile = d.control.profile) : d.ArmsNone { d with control := c } ss where
  held := rfl
  armed
  attached
  known K := ⟨K.interface, id.trans K.id, K.motor, profile ▸ K.profile⟩

theorem attempt (d : Device R) (fault : Option HardwareError) (c : Call R) :
    d.ArmsNone d (Motor.attempt fault c).2 :=
  withControl (by cases fault <;> rfl) rfl (fun h => h) rfl

theorem enter (d : Device R) (x : Activity) : d.ArmsNone (d.enter x).1 (d.enter x).2 :=
  withControl (armed_enter d x) rfl (fun h => h) rfl

theorem stop (d : Device R) : d.ArmsNone d.stop.1 d.stop.2 := (attempt ..).trans (enter ..)

theorem setExternalControl (d : Device R) (enabled : Bool) :
    d.ArmsNone (d.setExternalControl enabled).device (d.setExternalControl enabled).signals := by
  unfold Device.setExternalControl
  split
  · exact (attempt ..).trans (enter ..)
  · exact refl d

theorem load (d : Device R) : d.ArmsNone d.load.2 [] := by
  unfold Device.load Motor.describe
  dsimp only
  by_cases h : d.motor.infoFailures = 0
  · rw [if_pos h]
    exact ⟨rfl, rfl, fun h => h, fun K => ⟨K.interface, K.id, K.motor, .inl K.motor⟩⟩
  · rw [if_neg h]
    exact ⟨rfl, rfl, fun h => h, fun K => ⟨K.interface, K.id, K.motor, K.profile⟩⟩

theorem query (d : Device R) : d.ArmsNone d.query.2 [] := by
  unfold Device.query
  split
  · exact refl d
  · exact load d

/-- Whatever happens to a device in its initialization, its completions go somewhere afterwards. -/
theorem init (d : Device R) : d.ArmsNone d.init.1 d.init.2 ∧ d.init.1.control.attached = true := by
  let connected : Device R := { d with control := { d.control with attached := true } }
  let external := connected.load.2.setExternalControl false
  have hconnected : d.ArmsNone connected [] := withControl rfl rfl (fun _ => rfl) rfl
  have hrest : connected.ArmsNone external.device.stop.1 ([] ++ external.signals ++
      external.device.stop.2) :=
    ((load connected).trans (setExternalControl connected.load.2 false)).trans
      (stop external.device)
  exact ⟨hconnected.trans hrest, hrest.attached rfl⟩

theorem setAmplitude (d : Device R) (x : R) :
    d.ArmsNone (d.setAmplitude x).device (d.setAmplitude x).signals := by
  unfold Device.setAmplitude
  split
  · have hattempt := attempt d d.motor.faults.amplitude (.setAmplitude d.id x)
    have hrecord : (d.control.recordAmplitude x).id = d.control.id ∧
        (d.control.recordAmplitude x).attached = d.control.attached ∧
        (d.control.recordAmplitude x).profile = d.control.profile := by
      unfold Control.recordAmplitude
      split <;> exact ⟨rfl, rfl, rfl⟩
    dsimp only
    split
    · exact withControl hattempt.armed hrecord.1 hrecord.2.1.trans hrecord.2.2
    · exact hattempt
  · exact refl d

theorem setAlwaysOn (d : Device R) (slot : Int) (effect : Option Prebaked) :
    d.ArmsNone (d.setAlwaysOn slot effect).device (d.setAlwaysOn slot effect).signals := by
  unfold Device.setAlwaysOn
  split
  · exact attempt ..
  · exact refl d

theorem observe (d : Device R) (observer : String) :
    d.ArmsNone (d.observe observer).device (d.observe observer).signals := by
  have hcontrol : (d.control.observe observer).2.1.id = d.control.id ∧
      (d.control.observe observer).2.1.attached = d.control.attached ∧
      (d.control.observe observer).2.1.profile = d.control.profile := by
    unfold Control.observe
    split <;> exact ⟨rfl, rfl, rfl⟩
  exact withControl (armed_flips _) hcontrol.1 hcontrol.2.1.trans hcontrol.2.2

/-- Only drives arm completions. -/
theorem react (d : Device R) {o : Order R} (h : ∀ v i x, o ≠ .drive v i x) :
    d.ArmsNone (o.react d).device (o.react d).signals := by
  cases o with
  | init => exact (init d).1
  | query => exact query d
  | drive v i x => exact absurd rfl (h v i x)
  | stop => exact stop d
  | setAmplitude x => exact setAmplitude d x
  | setExternalControl enabled => exact setExternalControl d enabled
  | setAlwaysOn slot effect => exact setAlwaysOn d slot effect
  | observe observer => exact observe d observer
  | unobserve observer => exact withControl rfl rfl (fun h => h) rfl

end ArmsNone

/-- A drive leaves the device what it is. -/
theorem Goes.stays {v i : Nat} {y : Reaction R Int} (G : d.Goes v i x y) :
    (d.control.attached = true → y.device.control.attached = true) ∧
      ∀ {k a p}, d.Known k a p → y.device.Known k a p := by
  cases G with
  | unable | spared | failed | void => exact ⟨fun h => h, fun K => K⟩
  | started => exact ⟨fun h => h, fun K => ⟨K.interface, K.id, K.motor, K.profile⟩⟩

end Device

/-! ## The account of completions -/

/-- What a bridge does with a completion that arrives. -/
def Bridge.hear (b : Bridge) : Report → Bridge
  | .step a v i => b.post v (.stepComplete a v i)
  | .synced v => b.post v (.syncedComplete v)
  | .session id => b.endSession id
  | .unheard => b

/-- Something that happens to a device or around it. -/
inductive Occurrence (R : Type)
  | operate (o : Operation R)
  /-- The motor does something without being called. -/
  | stir (x : Quirk R)
  /-- The motor reports everything that it held back. -/
  | release

/-- What an occurrence does to the bridge besides delivering completions. -/
def Occurrence.rewire (b : Bridge) : Occurrence R → Bridge
  | .operate (.attach v capacity) => b.attach v capacity
  | .operate (.detach v) => b.detach v
  | .operate (.read i) => (b.read i).2
  | _ => b

namespace Rig

section
variable (a : ActuatorId) (r : Rig R)

/-- The completions that have not arrived yet: they are on their way, or the motor holds them
back. -/
def owed : List Report :=
  r.timers.map (·.report) ++ ((r.device? a).map (·.motor.held)).getD []

/-- The completions that arrive in an occurrence. -/
def delivers : Occurrence R → List Report
  | .operate (.advance ms) => (r.timers.takeWhile (·.due ≤ r.now + ms)).map (·.report)
  | .operate _ => []
  | .stir x => ((r.device? a).bind fun d => (d.motor.stir x).1).toList
  | .release => ((r.device? a).map (·.motor.held)).getD []

variable [Level R]

/-- The completion that an occurrence arms: that of a drive that starts something. -/
def arms : Occurrence R → List Report
  | .operate (.order (.drive v i x)) =>
    if (r.device? a).any (·.starts x (r.drive a v i x).1) then [.step a v i] else []
  | _ => []

def occur : Occurrence R → Rig R
  | .operate o => (r.operate a o).2
  | .stir x =>
    match r.device? a with
    | some d => (d.motor.stir x).1.toList.foldl deliver
        (r.file a { d with motor := (d.motor.stir x).2 })
    | none => r
  | .release => (r.releaseMotor a).2

def course (os : List (Occurrence R)) : Rig R := os.foldl (fun r o => r.occur a o) r

/-- All completions that arrive in the course of some occurrences. -/
def delivered : Rig R → List (Occurrence R) → List Report
  | _, [] => []
  | r, o :: os => r.delivers a o ++ delivered (r.occur a o) os

/-- All completions that are armed in the course of some occurrences. -/
def armed : Rig R → List (Occurrence R) → List Report
  | _, [] => []
  | r, o :: os => r.arms a o ++ armed (r.occur a o) os

end

/-- A device is registered whose completions go somewhere. -/
def Serves [Level R] (r : Rig R) (k : Interface) (a : ActuatorId) (p : Profile R) : Prop :=
  ∃ d, r.device? a = some d ∧ d.Known k a p ∧ d.control.attached = true

/-! ### What is owed -/

section
variable {r : Rig R} {a : ActuatorId} {d : Device R}

theorem owed_eq (hd : r.device? a = some d) :
    r.owed a = r.timers.map (·.report) ++ d.motor.held := by
  rw [owed, hd]
  rfl

theorem onDevice_eq {α : Type} (hd : r.device? a = some d) (other : α)
    (f : Device R → Reaction R α) : r.onDevice a other f =
      ((f d).value, (r.file a (f d).device).noteAll (f d).signals) := by
  unfold onDevice
  rw [hd]
  rfl

theorem device?_file_noteAll (r : Rig R) (a : ActuatorId) (d : Device R) (ss : List (Signal R)) :
    ((r.file a d).noteAll ss).device? a = some d := by
  simp [device?, file, Table.find?_insert]

theorem perm_arm (t : Timer) (ts : List Timer) : (arm t ts).Perm (t :: ts) := by
  induction ts with
  | nil => exact .refl _
  | cons x xs ih =>
    unfold arm
    split
    · exact .refl _
    · exact (ih.cons x).trans (.swap t x xs)

theorem perm_noteAll (r : Rig R) (ss : List (Signal R)) :
    ((r.noteAll ss).timers.map (·.report)).Perm
      (ss.filterMap Signal.armed? ++ r.timers.map (·.report)) := by
  induction ss generalizing r with
  | nil => exact .refl _
  | cons s ss ih =>
    refine (ih (r.note s)).trans ?_
    cases s with
    | arm delay y =>
      have harm := (perm_arm ⟨r.now + delay, y⟩ r.timers).map (·.report)
      exact (harm.append_left _).trans List.perm_middle
    | _ => exact .refl _

/-- What is owed after an operation on a device is what its signals arm, and the rest. -/
theorem perm_owed (hd : r.device? a = some d) {d' : Device R} {ss : List (Signal R)}
    {new : List Report} (h : (ss.filterMap Signal.armed? ++ d'.motor.held).Perm
      (new ++ d.motor.held)) :
    (((r.file a d').noteAll ss).owed a).Perm (new ++ r.owed a) := by
  rw [owed_eq (device?_file_noteAll ..), owed_eq hd]
  calc ((r.file a d').noteAll ss).timers.map (·.report) ++ d'.motor.held
    List.Perm _ (ss.filterMap Signal.armed? ++ r.timers.map (·.report) ++ d'.motor.held) :=
      (perm_noteAll _ ss).append_right _
    _ = ss.filterMap Signal.armed? ++ (r.timers.map (·.report) ++ d'.motor.held) :=
      List.append_assoc ..
    List.Perm _ (r.timers.map (·.report) ++ (ss.filterMap Signal.armed? ++ d'.motor.held)) :=
      List.perm_append_comm_assoc ..
    List.Perm _ (r.timers.map (·.report) ++ (new ++ d.motor.held)) := h.append_left _
    List.Perm _ (new ++ (r.timers.map (·.report) ++ d.motor.held)) :=
      List.perm_append_comm_assoc ..

/-! ### What arrives -/

theorem deliver_bridge (r : Rig R) (y : Report) : (r.deliver y).bridge = r.bridge.hear y := by
  cases y <;> rfl

theorem foldl_deliver (r : Rig R) (ys : List Report) :
    (ys.foldl deliver r).bridge = ys.foldl Bridge.hear r.bridge ∧
      (ys.foldl deliver r).timers = r.timers ∧ (ys.foldl deliver r).devices = r.devices := by
  induction ys generalizing r with
  | nil => exact ⟨rfl, rfl, rfl⟩
  | cons y ys ih =>
    obtain ⟨hbridge, htimers, hdevices⟩ := ih (r.deliver y)
    refine ⟨?_, htimers.trans (deliver_timers r y), hdevices.trans (deliver_devices r y)⟩
    rw [List.foldl_cons, hbridge, deliver_bridge, List.foldl_cons]

/-- As time passes, the bridge hears what is due, in the order in which it arrives. -/
theorem advanceTo_bridge (r : Rig R) (t : Nat) : (r.advanceTo t).bridge =
    ((r.timers.takeWhile (·.due ≤ t)).map (·.report)).foldl Bridge.hear r.bridge := by
  have h := (foldl_deliver (r.withTimers (r.timers.dropWhile (·.due ≤ t)))
    ((r.timers.takeWhile (·.due ≤ t)).map (·.report))).1
  rw [List.foldl_map] at h
  rw [advanceTo_eq]
  exact h

theorem releaseMotor_bridge (hd : r.device? a = some d) :
    (r.releaseMotor a).2.bridge = d.motor.held.foldl Bridge.hear r.bridge := by
  unfold releaseMotor
  rw [hd]
  exact (foldl_deliver _ _).1

end

/-! ### One occurrence -/

section
variable [Level R] {r : Rig R} {k : Interface} {a : ActuatorId} {p : Profile R}

/-- The books are kept in an occurrence: what arrives in it and what is owed after it are together
what is armed in it and what was owed before. And the bridge hears just what arrives. -/
structure Accounts (r : Rig R) (k : Interface) (a : ActuatorId) (p : Profile R)
    (o : Occurrence R) : Prop where
  serves : (r.occur a o).Serves k a p
  ledger : (r.delivers a o ++ (r.occur a o).owed a).Perm (r.arms a o ++ r.owed a)
  heard : (r.occur a o).bridge = (r.delivers a o).foldl Bridge.hear (o.rewire r.bridge)

theorem accounts_order (S : r.Serves k a p) (o : Order R) :
    r.Accounts k a p (.operate (.order o)) := by
  obtain ⟨d, hd, K, attached⟩ := S
  have hoccur : r.occur a (.operate (.order o)) =
      (r.file a (o.react d).device).noteAll (o.react d).signals := by
    show (r.onDevice a .done (o.react ·)).2 = _
    rw [onDevice_eq hd]
  have hnone : r.delivers a (.operate (.order o)) = [] := rfl
  have hstays : ((o.react d).device.control.attached = true) ∧ (o.react d).device.Known k a p ∧
      ((o.react d).signals.filterMap Signal.armed? ++ (o.react d).device.motor.held).Perm
        (r.arms a (.operate (.order o)) ++ d.motor.held) := by
    by_cases hdrive : ∃ v i x, o = .drive v i x
    · obtain ⟨v, i, x, rfl⟩ := hdrive
      have G := d.drive_goes (x := x) v i K attached
      have hreport : d.report v i = .step a v i := by
        rw [Device.report, if_pos attached, Device.id, K.id]
      have harms : r.arms a (.operate (.order (.drive v i x))) =
          if d.starts x (d.drive v i x).value then [d.report v i] else [] := by
        rw [arms, hd, drive, onDevice_eq hd, hreport]
        rfl
      rw [harms]
      exact ⟨G.stays.1 attached, G.stays.2 K, G.owes⟩
    · have hother : ∀ v i x, o ≠ .drive v i x := fun v i x h => hdrive ⟨v, i, x, h⟩
      have A := Device.ArmsNone.react d hother
      have harms : r.arms a (.operate (.order o)) = [] := by
        cases o with
        | drive v i x => exact absurd rfl (hother v i x)
        | _ => rfl
      rw [harms, A.armed, A.held]
      exact ⟨A.attached attached, A.known K, .refl _⟩
  constructor
  · rw [hoccur]
    exact ⟨_, device?_file_noteAll .., hstays.2.1, hstays.1⟩
  · rw [hoccur, hnone, List.nil_append]
    exact perm_owed hd hstays.2.2
  · rw [hoccur, hnone]
    exact noteAll_bridge ..

/-- The books are kept where nothing is armed and what arrives is no longer held back. -/
theorem Accounts.of_held {o : Occurrence R} {d : Device R} (d' : Device R)
    (hd : r.device? a = some d) (K : d'.Known k a p) (attached : d'.control.attached = true)
    (harms : r.arms a o = []) (hdevice : (r.occur a o).device? a = some d')
    (htimers : (r.occur a o).timers = r.timers)
    (hheld : (r.delivers a o ++ d'.motor.held).Perm d.motor.held)
    (hheard : (r.occur a o).bridge = (r.delivers a o).foldl Bridge.hear (o.rewire r.bridge)) :
    r.Accounts k a p o where
  serves := ⟨d', hdevice, K, attached⟩
  ledger := by
    rw [owed_eq hdevice, owed_eq hd, htimers, harms]
    exact (List.perm_append_comm_assoc ..).trans (hheld.append_left _)
  heard := hheard

theorem accounts_motor (S : r.Serves k a p) {f : Motor R → Motor R}
    (hf : ∀ m, (f m).held = m.held ∧ (f m).profile = m.profile) {o : Operation R}
    (ho : r.operate a o = (.done, r.onMotor a f)) (harms : r.arms a (.operate o) = [])
    (hdelivers : r.delivers a (.operate o) = [])
    (hrewire : (Occurrence.operate o).rewire r.bridge = r.bridge) :
    r.Accounts k a p (.operate o) := by
  obtain ⟨d, hd, K, attached⟩ := S
  have hoccur : r.occur a (.operate o) = r.onMotor a f := congrArg Prod.snd ho
  refine .of_held { d with motor := f d.motor } hd
    ⟨K.interface, K.id, (hf d.motor).2.trans K.motor, K.profile⟩ attached harms ?_ ?_ ?_ ?_
  · rw [hoccur]
    unfold device? at hd ⊢
    simp only [onMotor, Table.find?_modify, hd, if_true, Option.map_some]
  · rw [hoccur]
    rfl
  · rw [hdelivers, (hf d.motor).1]
    exact .refl _
  · rw [hoccur, hdelivers, hrewire]
    rfl

/-- The books are kept where the motor reports some of what it held back. -/
theorem Accounts.of_reports {o : Occurrence R} {d : Device R} (hd : r.device? a = some d)
    (K : d.Known k a p) (attached : d.control.attached = true) {m : Motor R}
    (profile : m.profile = d.motor.profile) {ys : List Report}
    (held : (ys ++ m.held).Perm d.motor.held) (harms : r.arms a o = [])
    (hdelivers : r.delivers a o = ys)
    (hoccur : r.occur a o = ys.foldl deliver (r.file a { d with motor := m }))
    (hrewire : o.rewire r.bridge = r.bridge) : r.Accounts k a p o := by
  obtain ⟨hbridge, htimers, hdevices⟩ := foldl_deliver (r.file a { d with motor := m }) ys
  refine .of_held { d with motor := m } hd ⟨K.interface, K.id, profile.trans K.motor, K.profile⟩
    attached harms ?_ ?_ (hdelivers ▸ held) ?_
  · rw [hoccur, device?, hdevices]
    exact (device?_file ..).trans (if_pos rfl)
  · rw [hoccur, htimers]
    rfl
  · rw [hoccur, hdelivers, hbridge, hrewire]
    rfl

theorem accounts_stir (S : r.Serves k a p) (x : Quirk R) : r.Accounts k a p (.stir x) := by
  obtain ⟨d, hd, K, attached⟩ := S
  have hoccur : r.occur a (.stir x) = (d.motor.stir x).1.toList.foldl deliver
      (r.file a { d with motor := (d.motor.stir x).2 }) := by
    unfold occur
    rw [hd]
  have hdelivers : r.delivers a (.stir x) = (d.motor.stir x).1.toList := by
    rw [delivers, hd]
    rfl
  refine .of_reports hd K attached ?_ ?_ rfl hdelivers hoccur rfl
  · cases x <;> rfl
  · cases x with
    | report n =>
      show (d.motor.held[n]?.toList ++ d.motor.held.eraseIdx n).Perm d.motor.held
      by_cases hn : n < d.motor.held.length
      · rw [List.getElem?_eq_getElem hn]
        exact List.getElem_cons_eraseIdx_perm hn
      · have hn := Nat.le_of_not_lt hn
        rw [List.getElem?_eq_none hn, List.eraseIdx_of_length_le hn]
        exact .refl _
    | alter f => exact .refl _

theorem accounts_release (S : r.Serves k a p) : r.Accounts k a p .release := by
  obtain ⟨d, hd, K, attached⟩ := S
  have hoccur : r.occur a .release = d.motor.held.foldl deliver
      (r.file a { d with motor := d.motor.release.2 }) := by
    unfold occur releaseMotor
    rw [hd]
    rfl
  have hdelivers : r.delivers a .release = d.motor.held := by
    rw [delivers, hd]
    rfl
  have hheld : (d.motor.held ++ d.motor.release.2.held).Perm d.motor.held := by
    rw [Motor.release, List.append_nil]
  have hprofile : d.motor.release.2.profile = d.motor.profile := rfl
  exact .of_reports hd K attached hprofile hheld rfl hdelivers hoccur rfl

theorem accounts_advance (S : r.Serves k a p) (ms : Nat) :
    r.Accounts k a p (.operate (.advance ms)) := by
  obtain ⟨d, hd, K, attached⟩ := S
  have hoccur : r.occur a (.operate (.advance ms)) = r.advanceTo (r.now + ms) := rfl
  have hdevice : (r.advanceTo (r.now + ms)).device? a = some d := by
    rw [← hd, advanceTo_eq]
    exact congrArg (Table.find? · a) (deliverAll_devices _)
  have htimers : (r.advanceTo (r.now + ms)).timers =
      r.timers.dropWhile (·.due ≤ r.now + ms) := by
    rw [advanceTo_eq]
    exact deliverAll_timers _
  have hdelivers : r.delivers a (.operate (.advance ms)) =
      (r.timers.takeWhile (·.due ≤ r.now + ms)).map (·.report) := rfl
  constructor
  · exact ⟨d, hdevice, K, attached⟩
  · rw [hoccur, owed_eq hdevice, owed_eq hd, htimers, hdelivers, ← List.append_assoc,
      ← List.map_append, List.takeWhile_append_dropWhile]
    exact .refl _
  · rw [hoccur, hdelivers]
    exact advanceTo_bridge ..

theorem accounts (S : r.Serves k a p) (o : Occurrence R) : r.Accounts k a p o := by
  cases o with
  | stir x => exact accounts_stir S x
  | release => exact accounts_release S
  | operate o =>
    cases o with
    | order o => exact accounts_order S o
    | advance ms => exact accounts_advance S ms
    | failDrives failure =>
      exact accounts_motor (f := ({ · with failure })) S (fun _ => ⟨rfl, rfl⟩) rfl rfl rfl rfl
    | failInfo times =>
      exact accounts_motor (f := ({ · with infoFailures := times })) S (fun _ => ⟨rfl, rfl⟩) rfl rfl
        rfl rfl
    | attach | detach | read =>
      obtain ⟨d, hd, K, attached⟩ := S
      exact .of_held d hd K attached rfl hd rfl (.refl _) rfl

/-! ### Many occurrences -/

theorem serves_course (S : r.Serves k a p) (os : List (Occurrence R)) :
    (r.course a os).Serves k a p := by
  induction os generalizing r with
  | nil => exact S
  | cons o os ih => exact ih (accounts S o).serves

/-- What arrived and what is still owed are together what was armed and what was owed. -/
theorem perm_course (S : r.Serves k a p) (os : List (Occurrence R)) :
    (r.delivered a os ++ (r.course a os).owed a).Perm (r.armed a os ++ r.owed a) := by
  induction os generalizing r with
  | nil => exact .refl _
  | cons o os ih =>
    have hstep := (accounts S o).ledger
    have hrest := ih (accounts S o).serves
    calc r.delivered a (o :: os) ++ (r.course a (o :: os)).owed a
      _ = r.delivers a o ++ ((r.occur a o).delivered a os ++ ((r.occur a o).course a os).owed a) :=
        List.append_assoc ..
      List.Perm _ (r.delivers a o ++ ((r.occur a o).armed a os ++ (r.occur a o).owed a)) :=
        hrest.append_left _
      List.Perm _ ((r.occur a o).armed a os ++ (r.delivers a o ++ (r.occur a o).owed a)) :=
        List.perm_append_comm_assoc ..
      List.Perm _ ((r.occur a o).armed a os ++ (r.arms a o ++ r.owed a)) := hstep.append_left _
      List.Perm _ (r.arms a o ++ ((r.occur a o).armed a os ++ r.owed a)) :=
        List.perm_append_comm_assoc ..
      _ = r.armed a (o :: os) ++ r.owed a := (List.append_assoc ..).symm

end

/-! ## What an actuator keeps to -/

section
variable [Level R]

/-- How it is after a drive that was answered with `n`. -/
structure Driven (r : Rig R) (a : ActuatorId) (d : Device R) (v i : Nat) (x : Drive R) (n : Int)
    (r' : Rig R) : Prop where
  /-- The answer is positive if the hardware took the call and started something. -/
  positive_iff : 0 < n ↔ r'.log = r.log.push (r.now, x.call d.motor.id) ∧
    d.motor.failure = none ∧ d.motor.duration? x ≠ some 0
  started : 0 < n → (r'.owed a).Perm (.step a v i :: r.owed a) ∧ ∃ d', r'.device? a = some d' ∧
    d'.control.activity = .vibrating ∧ d'.control.amplitude = Level.unset
  refused : n ≤ 0 → r'.device? = r.device? ∧ r'.timers = r.timers ∧ r'.flips = r.flips
  unable : d.Lacks x → n = 0 ∧ r'.log = r.log ∧ r'.payloads = r.payloads
  bridge : r'.bridge = r.bridge

/-- How it is after a stop: the actuator is idle, and whatever was to arrive still arrives. -/
structure Stopped (r : Rig R) (a : ActuatorId) (d : Device R) (r' : Rig R) : Prop where
  idle : ∃ d', r'.device? a = some d' ∧ d'.control.activity = .idle ∧ d'.control.amplitude = 0 ∧
    d'.motor = d.motor
  timers : r'.timers = r.timers
  bridge : r'.bridge = r.bridge
  advances : ∀ t, (r'.advanceTo t).bridge = (r.advanceTo t).bridge
  releases : (r'.releaseMotor a).2.bridge = (r.releaseMotor a).2.bridge

variable {r : Rig R} {k : Interface} {a : ActuatorId} {p : Profile R} {d : Device R}

omit [Level R] in
theorem device?_refile (hd : r.device? a = some d) (ss : List (Signal R)) :
    ((r.file a d).noteAll ss).device? = r.device? := by
  funext b
  have hsame : ((r.file a d).noteAll ss).device? b = (r.file a d).device? b := by
    simp only [device?, noteAll_devices]
  rw [hsame, device?_file]
  split
  · rename_i hb
    rw [hb, hd]
  · rfl

omit [Level R] in
/-- The record of the call of a drive. -/
theorem noteAll_driveSignals (r : Rig R) (m : Motor R) (x : Drive R) :
    (r.noteAll (m.driveSignals x)).log = r.log.push (r.now, x.call m.id) ∧
      (r.noteAll (m.driveSignals x)).timers = r.timers ∧
      (r.noteAll (m.driveSignals x)).flips = r.flips := by
  cases x <;> exact ⟨rfl, rfl, rfl⟩

omit [Level R] in
theorem noteAll_log {ss : List (Signal R)} (h : ∀ s ∈ ss, ∀ c, s ≠ .call c) :
    (r.noteAll ss).log = r.log := by
  induction ss generalizing r with
  | nil => rfl
  | cons s ss ih =>
    refine (ih (r := r.note s) fun y hy => h y (List.mem_cons_of_mem s hy)).trans ?_
    cases s with
    | call c => exact absurd rfl (h _ List.mem_cons_self c)
    | _ => rfl

/-- The hardware is not asked at all. -/
theorem Driven.of_silent (hd : r.device? a = some d) (v i : Nat) (x : Drive R) :
    r.Driven a d v i x 0 ((r.file a d).noteAll []) where
  positive_iff := by
    refine iff_of_false (by omega) fun ⟨hlog, _⟩ => ?_
    have hsize := congrArg Array.size hlog
    rw [Array.size_push] at hsize
    exact absurd hsize (Nat.ne_of_lt (Nat.lt_succ_self _))
  started h := absurd h (by omega)
  refused _ := ⟨device?_refile hd [], rfl, rfl⟩
  unable _ := ⟨rfl, rfl, rfl⟩
  bridge := rfl

/-- The hardware is asked and starts nothing. -/
theorem Driven.of_idle (hd : r.device? a = some d) (v i : Nat) {x : Drive R} {n : Int}
    (able : ¬d.Lacks x) (hn : n ≤ 0)
    (idle : d.motor.failure ≠ none ∨ d.motor.duration? x = some 0) :
    r.Driven a d v i x n ((r.file a d).noteAll (d.motor.driveSignals x)) where
  positive_iff := iff_of_false (by omega) fun ⟨_, works, lasts⟩ =>
    idle.elim (fun fails => fails works) lasts
  started h := absurd h (by omega)
  refused _ := ⟨device?_refile hd _, (noteAll_driveSignals (r.file a d) d.motor x).2⟩
  unable lacks := absurd lacks able
  bridge := noteAll_bridge ..

theorem drive_driven (hd : r.device? a = some d) (K : d.Known k a p)
    (attached : d.control.attached = true) (v i : Nat) {x : Drive R} (hx : x ≠ .hold 0) :
    r.Driven a d v i x (r.drive a v i x).1 (r.drive a v i x).2 := by
  have G := d.drive_goes (x := x) v i K attached
  have howes := G.owes
  rw [drive, onDevice_eq hd]
  dsimp only
  generalize d.drive v i x = y at G howes ⊢
  cases G with
  | unable | spared => exact .of_silent hd v i x
  | @failed e able fails =>
    exact .of_idle hd v i able e.driveResult_le (.inl (fails ▸ Option.some_ne_none e))
  | void able void => exact .of_idle hd v i able (Int.le_refl 0) (.inr void)
  | @started n handed delay? able works lasts positive =>
    have hpos : 0 < n := positive.resolve_right hx
    have hreport : d.report v i = .step a v i := by
      rw [Device.report, if_pos attached, Device.id, K.id]
    rw [Device.starts_of_pos d x hpos, if_pos rfl] at howes
    constructor
    · refine iff_of_true hpos ⟨?_, works, lasts.resolve_right hx⟩
      rw [List.append_assoc, noteAll_append]
      refine (noteAll_log fun s hs c => ?_).trans (noteAll_driveSignals (r.file a _) d.motor x).1
      rcases List.mem_append.mp hs with hs | hs
      all_goals
        obtain ⟨_, -, rfl⟩ := List.mem_map.mp hs
        rintro ⟨⟩
    · refine fun _ => ⟨?_, _, device?_file_noteAll .., rfl, rfl⟩
      rw [← hreport]
      exact perm_owed hd howes
    · exact fun h => absurd hpos (Int.not_lt.mpr h)
    · exact fun lacks => absurd lacks able
    · exact noteAll_bridge ..

theorem stop_stopped (hd : r.device? a = some d) : r.Stopped a d (r.stop a) := by
  have hdevice : (r.stop a).device? a = some d.stop.1 := by
    rw [stop, onDevice_eq hd]
    exact device?_file_noteAll ..
  have hbridge : (r.stop a).bridge = r.bridge := by
    rw [stop, onDevice_eq hd]
    exact noteAll_bridge ..
  refine ⟨⟨d.stop.1, hdevice, rfl, rfl, rfl⟩, stop_timers a, hbridge, fun t => ?_, ?_⟩
  · rw [advanceTo_bridge, advanceTo_bridge, stop_timers, hbridge]
  · rw [releaseMotor_bridge hdevice, releaseMotor_bridge hd, hbridge]
    rfl

theorem serves_registerDevice (r₀ : Rig R) (a : ActuatorId) :
    (r₀.registerDevice a).Serves (r₀.motor a).1 a (r₀.motor a).2.profile := by
  have hinit := Device.ArmsNone.init (Device.fresh (r₀.motor a).1 (r₀.motor a).2 a)
  exact ⟨_, device?_file_noteAll .., hinit.1.known ⟨rfl, rfl, rfl, .inr rfl⟩, hinit.2⟩

/-- An actuator that was registered keeps to this, whatever else happened: how a drive is answered
tells whether the device vibrates and owes one more completion, and a stop makes it idle and takes
no completion back. The bridge hears every completion that is owed at most once, as it was armed. -/
theorem drive_contract (r₀ : Rig R) (a : ActuatorId) (os : List (Occurrence R)) :
    let r := (r₀.registerDevice a).course a os
    ∃ d, r.device? a = some d ∧ d.Known (r₀.motor a).1 a (r₀.motor a).2.profile ∧
      (∀ v i x, x ≠ .hold 0 →
        r.Driven a d v i x (r.drive a v i x).1 (r.drive a v i x).2) ∧
      r.Stopped a d (r.stop a) ∧
      (∀ o, (r.occur a o).bridge = (r.delivers a o).foldl Bridge.hear (o.rewire r.bridge)) ∧
      ∀ os', (r.delivered a os' ++ (r.course a os').owed a).Perm (r.armed a os' ++ r.owed a) := by
  intro r
  have S : r.Serves (r₀.motor a).1 a (r₀.motor a).2.profile :=
    serves_course (serves_registerDevice r₀ a) os
  have ⟨d, hd, K, attached⟩ := S
  exact ⟨d, hd, K, fun v i x hx => drive_driven hd K attached v i hx, stop_stopped hd,
    fun o => (accounts S o).heard, perm_course S⟩

/-- A second click while the first one lasts: the motor owes two completions. -/
theorem drive_contract_clicks :
    let r := (empty.registerDevice 0).course 0 [.operate (.order (.drive 1 0 (.hold 20)))]
    (Drive.hold 30 : Drive Rat) ≠ .hold 0 ∧ (r.drive 0 1 1 (.hold 30)).1 = 30 ∧
      r.owed 0 = [.step 0 1 0] ∧
      ((r.drive 0 1 1 (.hold 30)).2.owed 0).Perm [.step 0 1 1, .step 0 1 0] := by
  have hother : (Drive.hold 30 : Drive Rat) ≠ .hold 0 := by simp
  obtain ⟨d, -, -, hdriven, -⟩ :=
    drive_contract empty 0 [.operate (.order (.drive 1 0 (.hold 20)))]
  have hanswer : (((empty.registerDevice 0).course 0
      [.operate (.order (.drive 1 0 (.hold 20)))]).drive 0 1 1 (.hold 30)).1 = 30 := by rfl
  have howed : ((empty.registerDevice 0).course 0
      [.operate (.order (.drive 1 0 (.hold 20)))]).owed 0 = [.step 0 1 0] := by rfl
  have hstarted := (hdriven 1 1 (.hold 30) hother).started (by rw [hanswer]; decide)
  rw [howed] at hstarted
  exact ⟨hother, hanswer, howed, hstarted.1⟩

end

end Rig
end Haptics
