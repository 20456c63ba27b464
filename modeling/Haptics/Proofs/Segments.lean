import Haptics.Conductor.Turn
import Haptics.Proofs.Batches

/-!
# What a segment asks for

A turn plays what lies at one place of its pattern. Primitives, ramps and envelope segments are
handed over as many at once as the actuator takes (`Turn.handsOver`). Any other segment is played
alone (`Turn.playsAlone`); `Turn.asks` lists what that asks of the actuator.
-/

namespace Haptics

variable {R : Type}

/-- The task that plays a segment. -/
def Segment.task (x : Segment R) (q : Position R) : Task R :=
  match x with
  | hold _ | basic _ => .hold q
  | prebaked _ => .prebaked q
  | primitive _ => .composition q
  | ramp _ => .ramps q
  | envelope _ => .envelope q

theorem Task.ofPosition_eq {p : Pattern R} {i : Nat} {x : Segment R}
    (hx : p.segments[i]? = some x) : Task.ofPosition p i = x.task ⟨p, i⟩ := by
  obtain ⟨hlt, -⟩ := List.getElem?_eq_some_iff.mp hx
  unfold Task.ofPosition
  dsimp only
  rw [if_neg (Nat.not_le.mpr hlt), hx]
  cases x <;> rfl

theorem Batch.task_eq {b : Batch} {x : Segment R} (hb : x.batch? = some b) (q : Position R) :
    x.task q = b.task q := by
  cases x <;> cases hb <;> rfl

theorem ControlPoint.length_ofSweeps_le (es : List (Sweep R)) :
    (ControlPoint.ofSweeps es).length ≤ es.length + 1 := by
  cases es with
  | nil => exact Nat.zero_le _
  | cons e es => simp [ofSweeps]

/-- A hold that is reported before it begins waits again. -/
def Turn.Waits (t : Turn R) : Prop :=
  t.lane.reported ∧ t.stage.now < t.lane.instant t.stage.now

instance (t : Turn R) : Decidable t.Waits := inferInstanceAs (Decidable (_ ∧ _))

variable [Level R]

/-! ## How long a motor is to be on -/

theorem saturate_pos {total : Nat} (h : 0 < total) (ms : Nat) : 0 < saturate total ms := by
  unfold saturate forever wordCount
  omega

theorem onRun_pos {total : Nat} (h : 0 < total) (xs : List (Segment R)) :
    0 < (onRun xs total).1 := by
  induction xs generalizing total with
  | nil => exact h
  | cons x xs ih =>
    cases x with
    | hold y =>
      unfold onRun
      split
      · exact h
      · exact ih (saturate_pos h y.ms)
    | prebaked | primitive | ramp | envelope | basic => exact h

/-- A hold that sounds and takes time is a reason to turn the motor on. -/
theorem Position.onDuration_ne_zero {q : Position R} {x : Hold R}
    (hq : q.segment? = some (.hold x)) (sounds : (x.amplitude.value == 0) = false) (pos : 0 < x.ms)
    (rampDown : Nat) : q.onDuration rampDown ≠ 0 := by
  have hzero : x.amplitude.isZero = false := by
    cases hx : x.amplitude with
    | deviceDefault => rfl
    | level y => rwa [hx] at sounds
  obtain ⟨hlt, hget⟩ := List.getElem?_eq_some_iff.mp hq
  have hfirst : 0 < saturate 0 x.ms := by
    unfold saturate forever wordCount
    omega
  have hrun : 0 < (onRun (q.pattern.segments.drop q.index) 0).1 := by
    rw [List.drop_eq_getElem_cons hlt, hget, onRun, if_neg (by simp [hzero])]
    exact onRun_pos hfirst _
  unfold onDuration
  dsimp only
  generalize onRun (q.pattern.segments.drop q.index) 0 = found at hrun ⊢
  obtain ⟨total, whole⟩ := found
  cases whole with
  | false => exact Nat.ne_of_gt hrun
  | true =>
    cases q.pattern.loopStart with
    | none => exact Nat.ne_of_gt (saturate_pos hrun rampDown)
    | some r =>
      have hrest := onRun_pos hrun ((q.pattern.segments.drop r).take (q.index - r))
      dsimp only
      generalize onRun ((q.pattern.segments.drop r).take (q.index - r)) total = found at hrest ⊢
      obtain ⟨total', whole'⟩ := found
      split
      · cases whole' with
        | false => exact Nat.ne_of_gt hrest
        | true => exact Nat.ne_of_gt (Nat.lt_of_lt_of_le hrest (Nat.le_max_left ..))
      · exact Nat.ne_of_gt (onRun_pos hrun _)

/-! ## Holds -/

namespace Lane

variable (l : Lane) (plan : Plan R) (s : Stage R) {q : Position R} {h : Hold R}

/-- A hold whose actuator stopped before it begins is not played yet. -/
theorem playHold_early (early : l.reported ∧ s.now < l.instant s.now) {n : Int} {l' : Lane}
    {s' : Stage R} (back : l.turnBackOn plan s q (l.instant s.now - s.now) = (n, l', s')) :
    l.playHold plan s q = ⟨s', [.lane { l' with reported := false } (.hold q)], n⟩ := by
  unfold playHold
  dsimp only
  rw [if_pos early, back]

/-- A segment that is no hold is passed over. -/
theorem playHold_none (plays : ¬(l.reported ∧ s.now < l.instant s.now)) {x : Segment R}
    (hq : q.segment? = some x) (none : ∀ h, x ≠ .hold h) :
    l.playHold plan s q = .followed s l (.at (l.instant s.now))
      (.ofPosition q.pattern (q.advance 1)) 0 := by
  unfold playHold
  dsimp only
  rw [if_neg plays, hq]
  cases x with
  | hold h => exact absurd rfl (none h)
  | prebaked | primitive | ramp | envelope | basic => rfl

/-- So is a hold that takes no time. -/
theorem playHold_instant (plays : ¬(l.reported ∧ s.now < l.instant s.now))
    (hq : q.segment? = some (.hold h)) (zero : h.ms = 0) :
    l.playHold plan s q = .followed s l (.at (l.instant s.now))
      (.ofPosition q.pattern (q.advance 1)) 0 := by
  unfold playHold
  dsimp only
  rw [if_neg plays, hq]
  exact if_pos zero

/-- A hold with the motor off stops an actuator that may be on. -/
theorem playHold_silent_on (plays : ¬(l.reported ∧ s.now < l.instant s.now))
    (hq : q.segment? = some (.hold h)) (pos : 0 < h.ms) (silent : (h.amplitude.value == 0) = true)
    (on : (l.deadline.isPending s.now || s.rig.isActive l.actuator) = true) :
    l.playHold plan s q = .followed (s.stop l) { l with deadline := .idle }
      (.at (l.instant s.now + h.ms)) (.ofPosition q.pattern (q.advance 1)) 0 := by
  unfold playHold
  dsimp only
  rw [if_neg plays, hq]
  dsimp only
  rw [if_neg (Nat.ne_of_gt pos), if_pos silent, if_pos on]

/-- A hold with the motor off leaves an actuator alone that is off. -/
theorem playHold_silent_off (plays : ¬(l.reported ∧ s.now < l.instant s.now))
    (hq : q.segment? = some (.hold h)) (pos : 0 < h.ms) (silent : (h.amplitude.value == 0) = true)
    (off : (l.deadline.isPending s.now || s.rig.isActive l.actuator) = false) :
    l.playHold plan s q = .followed s l (.at (l.instant s.now + h.ms))
      (.ofPosition q.pattern (q.advance 1)) 0 := by
  unfold playHold
  dsimp only
  rw [if_neg plays, hq]
  dsimp only
  rw [if_neg (Nat.ne_of_gt pos), if_pos silent, if_neg (Bool.eq_false_iff.mp off)]

/-- A hold does not drive an actuator that is expected to be on. -/
theorem playHold_covered (plays : ¬(l.reported ∧ s.now < l.instant s.now))
    (hq : q.segment? = some (.hold h)) (pos : 0 < h.ms)
    (sounds : (h.amplitude.value == 0) = false)
    (covers : l.deadline.covers (l.instant s.now) = true) :
    l.playHold plan s q = .followed (s.setAmplitude l h.amplitude.value) l
      (.at (l.instant s.now + h.ms)) (.ofPosition q.pattern (q.advance 1)) 0 := by
  unfold playHold
  dsimp only
  rw [if_neg plays, hq]
  dsimp only
  rw [if_neg (Nat.ne_of_gt pos), if_neg (Bool.eq_false_iff.mp sounds), covers]
  rfl

/-- A hold drives an actuator that is not expected to be on. -/
theorem playHold_uncovered (plays : ¬(l.reported ∧ s.now < l.instant s.now))
    (hq : q.segment? = some (.hold h)) (pos : 0 < h.ms)
    (sounds : (h.amplitude.value == 0) = false)
    (uncovered : l.deadline.covers (l.instant s.now) = false) {n : Int} {l' : Lane} {s' : Stage R}
    (drive : s.drive plan l (.hold (q.onDuration plan.tuning.rampDown)) = (n, l', s')) :
    l.playHold plan s q = .followed (s'.setAmplitude l' h.amplitude.value) l'
      (.at (l.instant s.now + h.ms)) (.ofPosition q.pattern (q.advance 1)) n := by
  unfold playHold
  dsimp only
  rw [if_neg plays, hq]
  dsimp only
  have on := Position.onDuration_ne_zero hq sounds pos plan.tuning.rampDown
  have hdrives : (!l.deadline.covers (l.instant s.now) &&
      q.onDuration plan.tuning.rampDown != 0) = true := by simp [uncovered, on]
  rw [if_neg (Nat.ne_of_gt pos), if_neg (Bool.eq_false_iff.mp sounds), if_pos hdrives, drive]

end Lane

/-! ## Turns -/

namespace Turn

variable (plan : Plan R)

/-- A turn hands `c` segments of one kind from index `i` on to the hardware: as many as follow each
other there and fit into one call, in order, and nothing else. -/
structure HandsOver (t : Turn R) (p : Pattern R) (i c : Nat) (b : Batch) : Prop where
  kind : ∀ x ∈ (p.segments.drop i).take c, x.batch? = some b
  fits : b.limit t.lane t.stage ≠ 0 → c ≤ b.limit t.lane t.stage
  maximal : c = b.limit t.lane t.stage ∨ ∀ x, p.segments[i + c]? = some x → x.batch? ≠ some b
  call : (t.played plan).stage.history = t.stage.history ++ [.drive t.lane.actuator t.lane.id
    (b.drive ((p.segments.drop i).take c)) (t.played plan).result]
  /-- An envelope has a control point more than segments. -/
  points : ∀ xs, b.drive ((p.segments.drop i).take c) = .envelope xs →
    2 ≤ t.lane.limit t.stage (·.envelopeMax) →
      xs.length ≤ t.lane.limit t.stage (·.envelopeMax)

/-- What is asked of the actuator of a turn to play a segment alone. An amplitude is answered with
`ok`. A segment that takes no time, or that no motor plays, asks for nothing. -/
def asks (t : Turn R) (q : Position R) (ok : Bool) : Segment R → List (Deed R)
  | .hold h =>
    if h.ms = 0 then []
    else if h.amplitude.value == 0 then
      if t.lane.deadline.isPending t.stage.now || t.stage.rig.isActive t.lane.actuator then
        [.stop t.lane.actuator]
      else []
    else
      (if t.lane.deadline.covers (t.lane.instant t.stage.now) then []
        else [.drive t.lane.actuator t.lane.id (.hold (q.onDuration plan.tuning.rampDown))
          (t.played plan).result]) ++
      [.setAmplitude t.lane.actuator h.amplitude.value ok]
  | .prebaked b => [.drive t.lane.actuator t.lane.id (.prebaked b) (t.played plan).result]
  | .primitive _ | .ramp _ | .envelope _ | .basic _ => []

/-- A turn asks for what the segment at its place asks for and for nothing else, and leaves the step
for the next place. -/
structure PlaysAlone (t : Turn R) (q : Position R) (x : Segment R) : Prop where
  calls : ∃ ok, (t.played plan).stage.history = t.stage.history ++ t.asks plan q ok x
  next : ∃ l', (t.played plan).next = [.lane l' (.ofPosition q.pattern (q.advance 1))]

theorem played_plays (t : Turn R) : t.lane.Plays plan t.stage t.task (t.played plan) :=
  t.lane.play_plays t.stage plan t.task

variable {plan} {t : Turn R} {q : Position R}

theorem played_hold (ht : t.task = .hold q) :
    t.played plan = t.lane.playHold plan t.stage q := by
  rw [played, ht]
  rfl

/-- A hold that waits again begins when it was to begin. -/
theorem waits_again (ht : t.task = .hold q) (waits : t.Waits) :
    ∃ l', (t.played plan).next = [.lane l' (.hold q)] ∧ l'.start = t.lane.start := by
  obtain ⟨n, l, s, back⟩ : ∃ n l s, t.lane.turnBackOn plan t.stage q
      (t.lane.instant t.stage.now - t.stage.now) = (n, l, s) := ⟨_, _, _, rfl⟩
  rw [played_hold ht, t.lane.playHold_early plan t.stage waits back]
  have hstart : l.start = t.lane.start := by rw [(Lane.turnBackOn_eq waits.1 back).lane_eq]
  exact ⟨_, rfl, hstart⟩

/-- A run that is not empty is handed over in one call, and what follows comes behind it. -/
theorem handsOver {b : Batch} (ht : t.task = b.task q)
    (hpos : 0 < (b.run t.lane t.stage q).length) :
    t.HandsOver plan q.pattern q.index (b.run t.lane t.stage q).length b ∧
      ∃ l', (t.played plan).next = [.lane l'
        (.ofPosition q.pattern (q.advance (b.run t.lane t.stage q).length))] := by
  have hrun := b.run_eq t.lane t.stage q
  have hplayed : t.played plan = .followed
      (t.stage.drive plan t.lane (b.drive (b.run t.lane t.stage q))).2.2
      (t.stage.drive plan t.lane (b.drive (b.run t.lane t.stage q))).2.1
      (Lane.goOn t.stage.now (t.stage.drive plan t.lane (b.drive (b.run t.lane t.stage q))).1)
      (.ofPosition q.pattern (q.advance (b.run t.lane t.stage q).length))
      (t.stage.drive plan t.lane (b.drive (b.run t.lane t.stage q))).1 := by
    show t.lane.play plan t.stage t.task = _
    rw [ht, b.play_task t.lane t.stage q plan]
    unfold Lane.playRun
    dsimp only
    rw [if_neg (Nat.ne_of_gt hpos), Nat.max_eq_left hpos]
  constructor
  · constructor
    case kind =>
      rw [← hrun]
      exact b.batch_of_mem_run t.lane t.stage q
    case fits => exact b.length_run_le t.lane t.stage q
    case maximal =>
      by_cases hlimit : (b.run t.lane t.stage q).length = b.limit t.lane t.stage
      · exact .inl hlimit
      · exact .inr fun x hx => b.run_maximal t.lane t.stage q hlimit hx
    case call =>
      rw [hplayed, ← hrun]
      exact (Stage.Does.drive plan t.lane (b.drive (b.run t.lane t.stage q))).history
    case points =>
      intro xs hxs hlimit
      rw [← hrun] at hxs
      cases b with
      | primitives | ramps => cases hxs
      | envelope =>
        cases hxs
        have hfits := Batch.envelope.length_run_le t.lane t.stage q
        have hpayload := List.length_filterMap_le Segment.envelope?
          (Batch.envelope.run t.lane t.stage q)
        have hpoints := ControlPoint.length_ofSweeps_le
          ((Batch.envelope.run t.lane t.stage q).filterMap Segment.envelope?)
        simp only [Batch.limit, Lane.envelopeLimit] at hfits
        rw [if_neg (by omega)] at hfits
        omega
  · rw [hplayed]
    exact ⟨_, rfl⟩

/-- A turn that leaves the step for the next place plays its segment alone if it asks for what that
asks for. -/
theorem PlaysAlone.of_followed (ok : Bool) {x : Segment R} {s : Stage R} {l : Lane}
    {start : StartTime} {n : Int}
    (hplayed : t.played plan = .followed s l start (.ofPosition q.pattern (q.advance 1)) n)
    (h : s.history = t.stage.history ++ t.asks plan q ok x) : t.PlaysAlone plan q x where
  calls := ⟨ok, by rw [hplayed]; exact h⟩
  next := by
    rw [hplayed]
    exact ⟨_, rfl⟩

/-- A hold with the motor off stops an actuator that may be on. -/
theorem playsAlone_off {h : Hold R} (ht : t.task = .hold q) (hq : q.segment? = some (.hold h))
    (plays : ¬t.Waits) (pos : 0 < h.ms) (off : (h.amplitude.value == 0) = true) :
    t.PlaysAlone plan q (.hold h) := by
  have hplayed : t.played plan = t.lane.playHold plan t.stage q := played_hold ht
  have hasks : t.asks plan q true (.hold h) =
      if t.lane.deadline.isPending t.stage.now || t.stage.rig.isActive t.lane.actuator then
        [.stop t.lane.actuator]
      else [] := by
    rw [asks, if_neg (Nat.ne_of_gt pos), if_pos off]
  cases hon : t.lane.deadline.isPending t.stage.now || t.stage.rig.isActive t.lane.actuator with
  | true =>
    refine .of_followed true
      (hplayed.trans (t.lane.playHold_silent_on plan t.stage plays hq pos off hon)) ?_
    rw [hasks, if_pos hon]
    exact (Stage.Does.stop t.lane).history
  | false =>
    refine .of_followed true
      (hplayed.trans (t.lane.playHold_silent_off plan t.stage plays hq pos off hon)) ?_
    rw [hasks, if_neg (Bool.eq_false_iff.mp hon), List.append_nil]

/-- A hold with the motor on drives an actuator that is not expected to be on, and programs its
amplitude. -/
theorem playsAlone_on {h : Hold R} (ht : t.task = .hold q) (hq : q.segment? = some (.hold h))
    (plays : ¬t.Waits) (pos : 0 < h.ms) (on : (h.amplitude.value == 0) = false) :
    t.PlaysAlone plan q (.hold h) := by
  have hplayed : t.played plan = t.lane.playHold plan t.stage q := played_hold ht
  have hasks : ∀ ok, t.asks plan q ok (.hold h) = _ := fun ok => by
    rw [asks, if_neg (Nat.ne_of_gt pos), if_neg (Bool.eq_false_iff.mp on)]
  cases hcovers : t.lane.deadline.covers (t.lane.instant t.stage.now) with
  | true =>
    obtain ⟨ok, hok⟩ := Stage.Does.setAmplitude (s := t.stage) t.lane h.amplitude.value
    refine .of_followed ok
      (hplayed.trans (t.lane.playHold_covered plan t.stage plays hq pos on hcovers)) ?_
    rw [hasks, if_pos hcovers, List.nil_append]
    exact hok.history
  | false =>
    have hfollowed := hplayed.trans
      (t.lane.playHold_uncovered plan t.stage plays hq pos on hcovers rfl)
    obtain ⟨ok, hok⟩ := Stage.Does.setAmplitude
      (s := (t.stage.drive plan t.lane (.hold (q.onDuration plan.tuning.rampDown))).2.2)
      t.lane h.amplitude.value
    refine .of_followed ok hfollowed ?_
    rw [hasks, if_neg (Bool.eq_false_iff.mp hcovers), hfollowed, ← List.append_assoc]
    exact hok.history.trans (congrArg (· ++ _) (Stage.Does.drive plan t.lane _).history)

/-- A hold is played alone, unless its turn waits again. -/
theorem playsAlone_hold {h : Hold R} (ht : t.task = .hold q) (hq : q.segment? = some (.hold h))
    (plays : ¬t.Waits) : t.PlaysAlone plan q (.hold h) := by
  rcases Nat.eq_zero_or_pos h.ms with zero | pos
  · refine .of_followed true
      ((played_hold ht).trans (t.lane.playHold_instant plan t.stage plays hq zero)) ?_
    rw [asks, if_pos zero, List.append_nil]
  · cases hvalue : h.amplitude.value == 0 with
    | true => exact playsAlone_off ht hq plays pos hvalue
    | false => exact playsAlone_on ht hq plays pos hvalue

/-- An actuator is driven for a hold that its deadline does not cover. -/
theorem drives_of_uncovered (plan : Plan R) {h : Hold R} (ht : t.task = .hold q)
    (hq : q.segment? = some (.hold h)) (sounds : (h.amplitude.value == 0) = false) (pos : 0 < h.ms)
    (plays : ¬t.Waits) (uncovered : t.lane.deadline.covers (t.lane.instant t.stage.now) = false) :
    Deed.drives (t.played plan).stage.history =
      Deed.drives t.stage.history ++ [(t.lane.actuator, (t.played plan).result)] := by
  have alone : t.PlaysAlone plan q (.hold h) := playsAlone_hold ht hq plays
  obtain ⟨ok, hok⟩ := alone.calls
  rw [hok, asks, if_neg (Nat.ne_of_gt pos), if_neg (Bool.eq_false_iff.mp sounds),
    if_neg (Bool.eq_false_iff.mp uncovered), Deed.drives_append]
  rfl

/-- A segment that is not handed over in runs is played alone. -/
theorem playsAlone {x : Segment R} (ht : t.task = x.task q) (hq : q.segment? = some x)
    (hb : x.batch? = none) (plays : (∃ q, t.task = .hold q) → ¬t.Waits) :
    t.PlaysAlone plan q x := by
  cases x with
  | hold h => exact playsAlone_hold ht hq (plays ⟨q, ht⟩)
  | basic x =>
    refine .of_followed true
      ((played_hold ht).trans (t.lane.playHold_none plan t.stage (plays ⟨q, ht⟩) hq nofun)) ?_
    exact (List.append_nil _).symm
  | prebaked b =>
    have hplayed : t.played plan = .followed (t.stage.drive plan t.lane (.prebaked b)).2.2
        (t.stage.drive plan t.lane (.prebaked b)).2.1
        (Lane.goOn t.stage.now (t.stage.drive plan t.lane (.prebaked b)).1)
        (.ofPosition q.pattern (q.advance 1)) (t.stage.drive plan t.lane (.prebaked b)).1 := by
      show t.lane.play plan t.stage t.task = _
      rw [ht]
      show t.lane.playPrebaked plan t.stage q = _
      unfold Lane.playPrebaked
      rw [hq]
    refine .of_followed true hplayed ?_
    rw [asks, hplayed]
    exact (Stage.Does.drive plan t.lane (.prebaked b)).history
  | primitive | ramp | envelope => cases hb

end Turn
end Haptics
