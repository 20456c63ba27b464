import Haptics.Proofs.Gaps
import Haptics.Proofs.Observers
import Haptics.Proofs.OnTime
import Haptics.Proofs.Timeline

/-!
# One drive for a run of holds

A pattern of holds that does not repeat is cut by its silent holds into runs of holds with the motor
on. The first hold of a run drives the actuator for the whole run, and each hold of it programs its
amplitude. The first silent hold after a run stops the actuator. `Pattern.calls` lists what is asked
of the actuator at each hold; `Run.calls_moves` says that this is what is done, whenever the holds
are played.
-/

namespace Haptics

variable {R : Type}

/-! ## Drives that turn a device on -/

theorem Device.isActive_drive_of_pos [Level R] (d : Device R) (v i : Nat) {x : Drive R}
    (h : 0 < (d.drive v i x).value) :
    (d.drive v i x).device.control.activity.isActive = true := by
  have hdrives := d.drive_drives v i x
  generalize d.drive v i x = r at h hdrives
  cases hdrives with
  | refused _ idle =>
    rw [d.starts_of_pos x h] at idle
    cases idle
  | started => rfl

/-- A drive that is successful leaves its actuator on. -/
theorem Rig.isActive_drive_of_pos [Level R] (r : Rig R) (a : ActuatorId) (v i : Nat) {x : Drive R}
    (h : 0 < (r.drive a v i x).1) : (r.drive a v i x).2.isActive a = true := by
  simp only [isActive, drive, device?_onDevice, if_true]
  unfold drive onDevice at h
  cases hd : r.device? a with
  | none =>
    rw [hd] at h
    exact absurd h (Int.lt_irrefl 0)
  | some d =>
    rw [hd] at h
    exact d.isActive_drive_of_pos v i h

theorem Amplitude.value_beq_zero [Level R] (one : ((1 : R) == 0) = false) (x : Amplitude R) :
    (x.value == 0) = x.isZero := by
  cases x with
  | deviceDefault => exact one
  | level => rfl

/-! ## What a pattern asks of its actuator -/

namespace Pattern

variable [Level R] (p : Pattern R)

/-- Whether the hold before an index sounds. -/
def afterSound : Nat → Bool
  | 0 => false
  | k + 1 => p.segments[k]?.any (·.sounds)

/-- The run of holds with the motor on from an index on. -/
def runFrom (k : Nat) : List (Segment R) := (p.segments.drop k).takeWhile (·.sounds)

/-- How long an actuator is driven for a run. A run that ends the pattern leaves room to ramp
down. -/
def runTime (rampDown k : Nat) : Nat :=
  let total := saturate 0 (Segment.spans (p.runFrom k))
  if (p.segments.drop k).all (·.sounds) then saturate total rampDown else total

/-- What is done to the actuator `a` at the hold with an index, by a step under the number `i`. A
drive is answered with what was asked for; an amplitude may be accepted or not. -/
def calls (rampDown : Nat) (a : ActuatorId) (i : Nat) (ok : Bool) (k : Nat) : List (Deed R) :=
  match p.segments[k]? with
  | some (.hold h) =>
    if h.amplitude.isZero then
      if p.afterSound k then [.stop a] else []
    else
      (if p.afterSound k then []
        else [.drive a i (.hold (p.runTime rampDown k)) (driveResult (p.runTime rampDown k))]) ++
      [.setAmplitude a h.amplitude.value ok]
  | _ => []

/-- The time for which an actuator is driven is what the look-ahead finds. -/
theorem onDuration_of_once {p : Pattern R} (once : p.loopStart = none) (rampDown k : Nat) :
    (⟨p, k⟩ : Position R).onDuration rampDown = p.runTime rampDown k := by
  have hahead : (⟨p, k⟩ : Position R).ahead = p.segments.drop k := by
    unfold Position.ahead
    dsimp only
    rw [once]
    exact List.append_nil _
  rw [Position.onDuration_eq, Position.onward, hahead]
  unfold Position.prolong runTime runFrom
  dsimp only
  rw [once]

variable {p}

/-- A run begins with a hold that sounds. -/
theorem spans_runFrom {k : Nat} {x : Segment R} (hx : p.segments[k]? = some x)
    (sounds : x.sounds = true) :
    Segment.spans (p.runFrom k) = x.span + Segment.spans (p.runFrom (k + 1)) := by
  obtain ⟨hk, rfl⟩ := List.getElem?_eq_some_iff.mp hx
  unfold runFrom
  rw [List.drop_eq_getElem_cons hk, List.takeWhile_cons_of_pos sounds, Segment.spans_cons]

theorem afterSound_succ {k : Nat} {h : Hold R} (hh : p.segments[k]? = some (.hold h)) :
    p.afterSound (k + 1) = !h.amplitude.isZero := by
  show p.segments[k]?.any (·.sounds) = _
  rw [hh]
  rfl

theorem calls_silent {k : Nat} {h : Hold R} (hh : p.segments[k]? = some (.hold h))
    (silent : h.amplitude.isZero = true) (rampDown : Nat) (a : ActuatorId) (i : Nat) (ok : Bool) :
    p.calls rampDown a i ok k = if p.afterSound k then [.stop a] else [] := by
  unfold calls
  rw [hh]
  exact if_pos silent

theorem calls_sounding {k : Nat} {h : Hold R} (hh : p.segments[k]? = some (.hold h))
    (sounds : h.amplitude.isZero = false) (rampDown : Nat) (a : ActuatorId) (i : Nat) (ok : Bool) :
    p.calls rampDown a i ok k = (if p.afterSound k then []
        else [.drive a i (.hold (p.runTime rampDown k)) (driveResult (p.runTime rampDown k))]) ++
      [.setAmplitude a h.amplitude.value ok] := by
  unfold calls
  rw [hh]
  exact if_neg (Bool.eq_false_iff.mp sounds)

/-- An actuator is driven for no less than its run lasts, if a word can say how long that is. -/
theorem le_runTime (rampDown k : Nat) :
    min (Segment.spans (p.runFrom k)) forever ≤ p.runTime rampDown k := by
  unfold runTime saturate
  dsimp only
  split <;> omega

/-- An actuator that is driven for a run is on for at least as long as the run lasts. -/
theorem le_driveResult (rampDown k : Nat)
    (definite : driveResult (p.runTime rampDown k) ≠ indefinite) :
    (Segment.spans (p.runFrom k) : Int) ≤ driveResult (p.runTime rampDown k) := by
  have hle := p.le_runTime rampDown k
  unfold forever wordCount at hle
  unfold driveResult indefinite at definite ⊢
  omega

theorem runTime_ne_zero {rampDown k : Nat} (h : 0 < Segment.spans (p.runFrom k)) :
    p.runTime rampDown k ≠ 0 := by
  have hle := p.le_runTime rampDown k
  unfold forever wordCount at hle
  omega

end Pattern

/-! ## Holds with the motor on -/

section
variable [Level R]

/-! ## One turn -/

/-- Where the hold at index `k` finds its actuator: within a run on, and expected to be so until the
run is over; else off. -/
structure Pattern.Meets (p : Pattern R) (k : Nat) (l : Lane) (s : Stage R) : Prop where
  unreported : l.reported = false
  within : p.afterSound k = true → s.rig.isActive l.actuator = true ∧
    ∀ start u, l.start = .at start → u < start + Segment.spans (p.runFrom k) →
      l.deadline.covers u = true
  outside : p.afterSound k = false → s.rig.isActive l.actuator = false ∧ l.deadline = .idle

/-- The actuator of a turn does what it is asked to. -/
def Turn.Obeyed (plan : Plan R) (t : Turn R) : Prop := ∀ ms,
  (t.stage.rig.drive t.lane.actuator plan.vibration t.lane.id (.hold ms)).1 = driveResult ms

theorem Turn.Obeyed.drive {plan : Plan R} {t : Turn R} (O : t.Obeyed plan) {ms : Nat}
    (h : ms ≠ 0) : ∃ l s, t.stage.drive plan t.lane (.hold ms) = (driveResult ms, l, s) ∧
      l.actuator = t.lane.actuator ∧
      l.deadline = t.lane.deadline.afterDrive t.stage.now plan.tuning.grace t.lane.id
        (driveResult ms) ∧
      s.rig.isActive t.lane.actuator = true ∧
      s.history = t.stage.history ++
        [.drive t.lane.actuator t.lane.id (.hold ms) (driveResult ms)] := by
  have hfst : (t.stage.drive plan t.lane (.hold ms)).1 = driveResult ms := O ms
  have hactive := t.stage.rig.isActive_drive_of_pos t.lane.actuator plan.vibration t.lane.id
    ((O ms).symm ▸ driveResult_pos h)
  have hhistory := (Stage.Does.drive (s := t.stage) plan t.lane (.hold ms)).history
  rw [hfst] at hhistory
  refine ⟨_, _, Prod.ext hfst rfl, rfl, ?_, hactive, hhistory⟩
  rw [← hfst]
  rfl

/-- A turn plays the hold at index `k` of a pattern that does not repeat, not before its start. -/
structure Turn.PlaysHold (t : Turn R) (p : Pattern R) (k : Nat) (h : Hold R) (start : Nat) :
    Prop where
  once : p.loopStart = none
  task : t.task = .hold ⟨p, k⟩
  segment : p.segments[k]? = some (.hold h)
  pos : 0 < h.ms
  starts : t.lane.start = .at start
  due : start ≤ t.stage.now
  unreported : t.lane.reported = false

/-- A turn asks of its actuator what the pattern asks for, and the next hold finds the actuator as
it should be. -/
structure Turn.Keeps (plan : Plan R) (t : Turn R) (p : Pattern R) (k : Nat) : Prop where
  calls : ∃ ok, (t.played plan).stage.history = t.stage.history ++
    p.calls plan.tuning.rampDown t.lane.actuator t.lane.id ok k
  next : ∃ l start, t.left? plan = some (false, l, .ofPosition p (k + 1)) ∧
    l.start = .at start ∧ l.actuator = t.lane.actuator ∧
    p.Meets (k + 1) l (t.played plan).stage

namespace Turn.PlaysHold

variable {plan : Plan R} {t : Turn R} {p : Pattern R} {k : Nat} {h : Hold R} {start : Nat}
  (P : t.PlaysHold p k h start)
include P

omit [Level R] in
theorem plays : ¬(t.lane.reported ∧ t.stage.now < t.lane.instant t.stage.now) := by
  rw [P.unreported]
  exact fun h => Bool.false_ne_true h.1

omit [Level R] in
theorem instant : t.lane.instant t.stage.now = start := Lane.instant_at P.starts _

omit [Level R] in
theorem advance : (⟨p, k⟩ : Position R).advance 1 = k + 1 := Pattern.advance_of_once P.once k 1

/-- A silent hold after a run stops the actuator. -/
theorem keeps_stop (zero : (h.amplitude.value == 0) = true) (silent : h.amplitude.isZero = true)
    (within : p.afterSound k = true) (meets : p.Meets k t.lane t.stage) : t.Keeps plan p k := by
  have hafter : p.afterSound (k + 1) = false :=
    (Pattern.afterSound_succ P.segment).trans (congrArg not silent)
  have hon := (meets.within within).1
  have hplayed := (played_hold P.task).trans (t.lane.playHold_silent_on plan t.stage P.plays
    P.segment P.pos zero (by rw [hon, Bool.or_true]))
  rw [P.advance] at hplayed
  constructor
  · refine ⟨true, ?_⟩
    rw [hplayed, Pattern.calls_silent P.segment silent, within]
    exact (Stage.Does.stop t.lane).history
  · unfold left?
    rw [hplayed]
    refine ⟨_, _, rfl, rfl, rfl, rfl, fun h => absurd (hafter.symm.trans h) Bool.false_ne_true,
      fun _ => ⟨?_, rfl⟩⟩
    exact t.stage.rig.isActive_stop_self t.lane.actuator

/-- A silent hold that follows no run asks for nothing. -/
theorem keeps_rest (zero : (h.amplitude.value == 0) = true) (silent : h.amplitude.isZero = true)
    (outside : p.afterSound k = false) (meets : p.Meets k t.lane t.stage) : t.Keeps plan p k := by
  have hafter : p.afterSound (k + 1) = false :=
    (Pattern.afterSound_succ P.segment).trans (congrArg not silent)
  obtain ⟨hoff, hidle⟩ := meets.outside outside
  have hplayed := (played_hold P.task).trans (t.lane.playHold_silent_off plan t.stage P.plays
    P.segment P.pos zero (by rw [hoff, hidle]; rfl))
  rw [P.advance] at hplayed
  constructor
  · refine ⟨true, ?_⟩
    rw [hplayed, Pattern.calls_silent P.segment silent, outside]
    exact (List.append_nil _).symm
  · unfold left?
    rw [hplayed]
    exact ⟨_, _, rfl, rfl, rfl, rfl, fun h => absurd (hafter.symm.trans h) Bool.false_ne_true,
      fun _ => ⟨hoff, hidle⟩⟩

theorem spans (sounds : h.amplitude.isZero = false) :
    Segment.spans (p.runFrom k) = h.ms + Segment.spans (p.runFrom (k + 1)) := by
  refine Pattern.spans_runFrom P.segment ?_
  show (!h.amplitude.isZero) = true
  rw [sounds]
  rfl

/-- Within a run a hold sets its amplitude. The drive for the run still covers what is left. -/
theorem keeps_amplitude (zero : (h.amplitude.value == 0) = false)
    (sounds : h.amplitude.isZero = false) (within : p.afterSound k = true)
    (meets : p.Meets k t.lane t.stage) : t.Keeps plan p k := by
  have hafter : p.afterSound (k + 1) = true :=
    (Pattern.afterSound_succ P.segment).trans (congrArg not sounds)
  obtain ⟨hon, hcovers⟩ := meets.within within
  have hcovered : t.lane.deadline.covers (t.lane.instant t.stage.now) = true := by
    rw [P.instant]
    exact hcovers start start P.starts (by rw [P.spans sounds]; have := P.pos; omega)
  have hplayed := (played_hold P.task).trans (t.lane.playHold_covered plan t.stage P.plays P.segment
    P.pos zero hcovered)
  rw [P.advance, P.instant] at hplayed
  obtain ⟨ok, hok⟩ := Stage.Does.setAmplitude (s := t.stage) t.lane h.amplitude.value
  constructor
  · refine ⟨ok, ?_⟩
    rw [hplayed, Pattern.calls_sounding P.segment sounds, within]
    exact hok.history
  · unfold left?
    rw [hplayed]
    refine ⟨_, _, rfl, rfl, rfl, rfl, fun _ => ⟨?_, fun start' u hstart hu => ?_⟩,
      fun h => absurd (h.symm.trans hafter) Bool.false_ne_true⟩
    · exact (t.stage.rig.isActive_setAmplitude _ _ _).trans hon
    · cases hstart
      exact hcovers start u P.starts (by rw [P.spans sounds]; omega)

/-- The first hold of a run drives the actuator for the whole run. -/
theorem keeps_drive (zero : (h.amplitude.value == 0) = false) (sounds : h.amplitude.isZero = false)
    (outside : p.afterSound k = false) (meets : p.Meets k t.lane t.stage)
    (obeyed : t.Obeyed plan) : t.Keeps plan p k := by
  have hafter : p.afterSound (k + 1) = true :=
    (Pattern.afterSound_succ P.segment).trans (congrArg not sounds)
  have huncovered : t.lane.deadline.covers (t.lane.instant t.stage.now) = false := by
    rw [(meets.outside outside).2]
    rfl
  have hon := p.onDuration_of_once P.once plan.tuning.rampDown k
  have hne : p.runTime plan.tuning.rampDown k ≠ 0 :=
    Pattern.runTime_ne_zero (by rw [P.spans sounds]; have := P.pos; omega)
  obtain ⟨l', s', hdrive, hsame, hdeadline, hactive, hhistory⟩ := obeyed.drive hne
  have hq : (⟨p, k⟩ : Position R).segment? = some (.hold h) := P.segment
  have hplayed := (played_hold P.task).trans (t.lane.playHold_uncovered plan t.stage P.plays hq
    P.pos zero huncovered (hon.symm ▸ hdrive))
  rw [P.advance, P.instant] at hplayed
  obtain ⟨ok, hok⟩ := Stage.Does.setAmplitude (s := s') l' h.amplitude.value
  constructor
  · refine ⟨ok, ?_⟩
    rw [hplayed, Pattern.calls_sounding P.segment sounds, outside, if_neg Bool.false_ne_true]
    show (s'.setAmplitude l' h.amplitude.value).history = _
    rw [hok.history, hhistory, hsame, List.append_assoc]
  · unfold left?
    rw [hplayed]
    refine ⟨_, _, rfl, rfl, hsame, rfl, fun _ => ⟨?_, fun start' u hstart hu => ?_⟩,
      fun h => absurd (h.symm.trans hafter) Bool.false_ne_true⟩
    · show (s'.rig.setAmplitude l'.actuator h.amplitude.value).2.isActive l'.actuator = true
      rw [Rig.isActive_setAmplitude, hsame]
      exact hactive
    · cases hstart
      show l'.deadline.covers u = true
      rw [hdeadline]
      refine Deadline.covers_afterDrive _ (driveResult_pos hne) fun hdefinite => ?_
      have hle := Pattern.le_driveResult _ _ hdefinite
      rw [P.spans sounds] at hle
      have := P.due
      omega

theorem keeps (one : ((1 : R) == 0) = false) (meets : p.Meets k t.lane t.stage)
    (obeyed : t.Obeyed plan) : t.Keeps plan p k := by
  have hzero := h.amplitude.value_beq_zero one
  cases hsilent : h.amplitude.isZero with
  | true =>
    cases hwithin : p.afterSound k with
    | true => exact P.keeps_stop (hzero.trans hsilent) hsilent hwithin meets
    | false => exact P.keeps_rest (hzero.trans hsilent) hsilent hwithin meets
  | false =>
    cases hwithin : p.afterSound k with
    | true => exact P.keeps_amplitude (hzero.trans hsilent) hsilent hwithin meets
    | false => exact P.keeps_drive (hzero.trans hsilent) hsilent hwithin meets obeyed

end Turn.PlaysHold

/-! ## Turn after turn -/

/-- A move that neither reports to an actuator nor turns it on or off, nor cancels the run. -/
def Move.LeavesAlone (a : ActuatorId) (s : Stage R) : Move R → Prop
  | .play => True
  | .hear e => ¬e.Concerns a
  | .cancel _ => False
  | .world f => (f s.rig).isActive a = s.rig.isActive a

/-- A step that waits to play the hold at index `k` on an actuator. -/
structure Run.Awaits (a : ActuatorId) (p : Pattern R) (k : Nat) (s : Stage R)
    (x : Bool × Lane × Task R) : Prop where
  unreleased : x.1 = false
  actuator : x.2.1.actuator = a
  starts : ∃ start, x.2.1.start = .at start
  task : x.2.2 = .ofPosition p k
  meets : p.Meets k x.2.1 s

/-- The turns of an actuator so far play the holds of a pattern in order, each not before its start,
and ask of the actuator what the pattern asks for. -/
structure Run.KeepsTo (plan : Plan R) (a : ActuatorId) (p : Pattern R) (ts : List (Turn R))
    (s : Stage R) (x : Option (Bool × Lane × Task R)) : Prop where
  played : ∀ k t, ts[k]? = some t → k < p.segments.length →
    t.task = .hold ⟨p, k⟩ ∧ (∃ start, t.lane.start = .at start ∧ start ≤ t.stage.now) ∧
      ∃ ok, (t.played plan).stage.history = t.stage.history ++
        p.calls plan.tuning.rampDown a t.lane.id ok k
  next : ∀ y ∈ x, ts.length < p.segments.length → Run.Awaits a p ts.length s y

namespace Run

variable {plan : Plan R} {a : ActuatorId} {p : Pattern R} {ts : List (Turn R)} {s s' : Stage R}
  {x : Option (Bool × Lane × Task R)}

/-- Before the first turn a first step may be waiting for an actuator that is off. -/
theorem KeepsTo.nil (off : s.rig.isActive a = false)
    (first : ∀ y ∈ x, y.1 = false ∧ y.2.1.actuator = a ∧ (∃ start, y.2.1.start = .at start) ∧
      y.2.2 = .ofPosition p 0 ∧ y.2.1.reported = false ∧ y.2.1.deadline = .idle) :
    KeepsTo plan a p [] s x where
  played k t ht := by
    rw [List.getElem?_nil] at ht
    cases ht
  next y hy _ := by
    obtain ⟨hunreleased, rfl, hstarts, htask, hunreported, hidle⟩ := first y hy
    exact ⟨hunreleased, rfl, hstarts, htask, hunreported,
      fun h => absurd h Bool.false_ne_true, fun _ => ⟨off, hidle⟩⟩

/-- Only whether the actuator is on matters. -/
theorem KeepsTo.congr (H : KeepsTo plan a p ts s x)
    (h : s'.rig.isActive a = s.rig.isActive a) : KeepsTo plan a p ts s' x where
  played := H.played
  next y hy hlen := by
    obtain ⟨hunreleased, rfl, hstarts, htask, M⟩ := H.next y hy hlen
    refine ⟨hunreleased, rfl, hstarts, htask, M.unreported, fun hwithin => ?_, fun houtside => ?_⟩
    · rw [h]
      exact M.within hwithin
    · rw [h]
      exact M.outside houtside

theorem KeepsTo.turn {t : Turn R} {released : Bool} (one : ((1 : R) == 0) = false)
    (holds : p.OnlyHolds) (once : p.loopStart = none) (lasting : ∀ x ∈ p.segments, 0 < x.span)
    (obeyed : t.Obeyed plan) (H : KeepsTo plan a p ts t.stage (some (released, t.lane, t.task)))
    (due : (released || t.lane.start.isDue t.stage.now) = true) :
    KeepsTo plan a p (ts ++ [t]) (t.played plan).stage (t.left? plan) := by
  have hkeeps (hlen : ts.length < p.segments.length) : ∃ h start, t.lane.actuator = a ∧
      t.PlaysHold p ts.length h start ∧ t.Keeps plan p ts.length := by
    obtain ⟨hunreleased, hactuator, ⟨start, hstart⟩, htask, M⟩ := H.next _ rfl hlen
    obtain ⟨h, hh, hposition⟩ := holds.task hlen
    have hreleased : released = false := hunreleased
    rw [hreleased, hstart] at due
    have P : t.PlaysHold p ts.length h start := {
      once := once
      task := htask.trans hposition
      segment := hh
      pos := lasting _ (List.mem_of_getElem? hh)
      starts := hstart
      due := of_decide_eq_true due
      unreported := M.unreported }
    exact ⟨h, start, hactuator, P, P.keeps one M obeyed⟩
  constructor
  · intro k u hu hk
    rcases Nat.lt_or_ge k ts.length with hlt | hge
    · rw [List.getElem?_append_left hlt] at hu
      exact H.played k u hu hk
    · rw [List.getElem?_append_right hge] at hu
      obtain ⟨hlt, hget⟩ := List.getElem?_eq_some_iff.mp hu
      rw [List.length_singleton] at hlt
      rw [List.getElem_singleton] at hget
      obtain rfl : k = ts.length := by omega
      obtain rfl := hget
      obtain ⟨h, start, rfl, P, K⟩ := hkeeps hk
      exact ⟨P.task, ⟨start, P.starts, P.due⟩, K.calls⟩
  · intro y hy hlen
    rw [List.length_append, List.length_singleton] at hlen ⊢
    obtain ⟨h, start, hactuator, -, K⟩ := hkeeps (Nat.lt_of_succ_lt hlen)
    obtain ⟨l, start', hleft, hstart, hsame, M⟩ := K.next
    rw [hleft] at hy
    cases hy
    exact ⟨rfl, hsame.trans hactuator, ⟨start', hstart⟩, rfl, M⟩

/-- As long as nothing else is done to the actuator, its turns keep to the pattern. -/
theorem follows_calls (plan : Plan R) (a : ActuatorId) (one : ((1 : R) == 0) = false)
    (holds : p.OnlyHolds) (once : p.loopStart = none) (lasting : ∀ x ∈ p.segments, 0 < x.span) :
    Follows plan a (fun s m => m.LeavesAlone a s) fun ts s x =>
      (ts = [] → s.rig.isActive a = false) ∧
        ((∀ t ∈ ts, t.Obeyed plan) → KeepsTo plan a p ts s x) where
  aside H A := ⟨fun hts => A.isActive.trans (H.1 hts), fun O => (H.2 O).congr A.isActive⟩
  turn H _ due := by
    refine ⟨fun hts => absurd hts (List.append_ne_nil_of_right_ne_nil _ (List.cons_ne_nil _ _)),
      fun O => ?_⟩
    exact (H.2 fun t ht => O t (List.mem_append_left _ ht)).turn one holds once lasting
      (O _ (List.mem_append_right _ (List.mem_singleton_self _))) due
  heard ok _ _ concerns := absurd concerns ok
  remnant _ ok := ok.elim
  cleared H S := by
    refine ⟨fun hts => Bool.eq_false_iff.mpr fun on => ?_,
      fun O => ⟨(H.2 O).played, fun _ hy => absurd hy (Option.not_mem_none _)⟩⟩
    exact Bool.eq_false_iff.mp (H.1 hts) (S.active on)
  world ok H := ⟨fun hts => ok.trans (H.1 hts), fun O => (H.2 O).congr ok⟩

/-- A pattern of holds that does not repeat is played on an actuator that is off, that does what it
is asked to, and that nobody else turns on or off. As long as there is no report for it and no
cancel, the turns of the actuator play the holds in order, none before its start. At each of them
the actuator is asked for exactly what the pattern asks for: the first hold of a run drives it for
the whole run, each hold of a run sets its amplitude, and the first silent hold after a run stops
it. Nothing is asked of it between two turns. -/
theorem calls_moves {v : Vibration R} {rig : Rig R} {asked : Nat} {ms : List (Move R)}
    (one : ((1 : R) == 0) = false) (holds : p.OnlyHolds) (once : p.loopStart = none)
    (lasting : ∀ x ∈ p.segments, 0 < x.span)
    (plays : ∀ ids, ∀ x ∈ v.expand ids, x.1 = a → x.2 = .pattern p)
    (distinct : (fresh plan v rig asked).Distinct v ms) (off : rig.isActive a = false)
    (alone : (fresh plan v rig asked).Allows (fun s m => m.LeavesAlone a s) ms)
    (obeyed : ∀ t ∈ Turn.of a ((fresh plan v rig asked).turns ms), t.Obeyed plan) :
    let ts := Turn.of a ((fresh plan v rig asked).turns ms)
    (∀ k t, ts[k]? = some t → k < p.segments.length →
      t.task = .hold ⟨p, k⟩ ∧ (∃ start, t.lane.start = .at start ∧ start ≤ t.stage.now) ∧
        ∃ ok, (t.played plan).stage.history = t.stage.history ++
          p.calls plan.tuning.rampDown a t.lane.id ok k) ∧
      ts.IsChain fun t u => t.Quiet plan a u.stage := by
  have F := follows_calls plan a one holds once lasting
  obtain ⟨x, H⟩ := F.moves distinct
    ⟨fun _ => off, fun _ => .nil off fun _ hy => absurd hy (Option.not_mem_none _)⟩
    (fun s l e H he ha hstart hidle hreported => by
      have heffect : e = .pattern p := plays _ _ (List.mem_filter.mp he).1 rfl
      refine ⟨H.1, fun _ => .nil (H.1 rfl) ?_⟩
      rintro y ⟨⟩
      exact ⟨rfl, ha, ⟨_, hstart⟩, congrArg Task.ofEffect heffect, hreported, hidle⟩)
    alone
  exact ⟨(H.holds.2 obeyed).played, quiet_moves distinct a⟩

end Run
end

namespace Run

/-- Two holds with the motor on, a gap, and a last hold. -/
def syncopated : Pattern Rat :=
  .waveform [100, 100, 50, 100] [.level 1, .level 1, .level 0, .level 1] none

/-- The motor is driven for the first two holds together. The last one leaves room to ramp down. -/
example : (List.range 4).map (syncopated.calls 5 0 1 true) =
    [[.drive 0 1 (.hold 200) 200, .setAmplitude 0 1 true], [.setAmplitude 0 1 true], [.stop 0],
      [.drive 0 1 (.hold 105) 105, .setAmplitude 0 1 true]] := rfl

/-- Every hold but the first is played late. -/
def dragged : List (Move Rat) :=
  [.play, .world (·.moveTo 130), .play, .world (·.moveTo 210), .play, .world (·.moveTo 300), .play]

theorem calls_moves_dragged : let r := bench (.mono (.pattern syncopated)) [0]
    let ts := Turn.of 0 (r.turns dragged)
    ts.length = 4 ∧
      (∀ k t, ts[k]? = some t → k < syncopated.segments.length →
        t.task = .hold ⟨syncopated, k⟩ ∧
          (∃ start, t.lane.start = .at start ∧ start ≤ t.stage.now) ∧
          ∃ ok, (t.played r.plan).stage.history = t.stage.history ++
            syncopated.calls r.plan.tuning.rampDown 0 t.lane.id ok k) ∧
      ts.IsChain fun t u => t.Quiet r.plan 0 u.stage :=
  have distinct : (bench (.mono (.pattern syncopated)) [0]).Distinct (.mono (.pattern syncopated))
      dragged := by decide +kernel
  have plays : ∀ ids, ∀ x ∈ (Vibration.mono (.pattern syncopated)).expand ids, x.1 = 0 →
      x.2 = .pattern syncopated := by
    intro ids x hx _
    obtain ⟨a, -, rfl⟩ := List.mem_map.mp hx
    rfl
  have alone : (bench (.mono (.pattern syncopated)) [0]).Allows (fun s m => m.LeavesAlone 0 s)
      dragged :=
    ⟨trivial, rfl, trivial, rfl, trivial, rfl, trivial, trivial⟩
  have obeyed : ∀ t ∈ Turn.of 0 ((bench (.mono (.pattern syncopated)) [0]).turns dragged),
      t.Obeyed (bench (.mono (.pattern syncopated)) [0]).plan :=
    List.forall_mem_cons.mpr ⟨fun _ => rfl, List.forall_mem_cons.mpr ⟨fun _ => rfl,
      List.forall_mem_cons.mpr ⟨fun _ => rfl, List.forall_mem_cons.mpr ⟨fun _ => rfl,
        fun _ ht => absurd ht List.not_mem_nil⟩⟩⟩⟩
  ⟨by decide +kernel, calls_moves (by decide +kernel) (Pattern.onlyHolds_waveform _ _ _) rfl
    (by decide +kernel) plays distinct rfl alone obeyed⟩

end Run
end Haptics
