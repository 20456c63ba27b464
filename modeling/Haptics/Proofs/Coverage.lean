import Haptics.Proofs.Reports
import Haptics.Proofs.Succession

/-!
# Holds that are taken up without a drive

A hold drives its actuator only if the deadline of its lane does not cover its start. That deadline
is the end of the latest successful drive of the actuator, with the grace for its report on top
(`Lane.Measured`). So where a hold is taken up without a drive, that drive covers its start only
together with the grace: if the hold begins in the grace, the actuator is expected to be off
(`Run.covered_moves`).
-/

namespace Haptics

variable {R : Type}

/-! ## The latest drive of an actuator -/

section
variable [Level R] {plan : Plan R} {a : ActuatorId} {ts : List (Turn R)} {t : Turn R}

namespace Turn

/-- When a turn drove an actuator with success, and the answer. -/
def success? (plan : Plan R) (a : ActuatorId) (t : Turn R) : Option (Nat × Int) :=
  if t.lane.actuator = a ∧ 0 < (t.played plan).result then
    some (t.stage.now, (t.played plan).result)
  else none

/-- When an actuator was last driven with success in the course of some turns, and the answer. -/
def lastDrive? (plan : Plan R) (a : ActuatorId) (ts : List (Turn R)) : Option (Nat × Int) :=
  (ts.filterMap (success? plan a)).getLast?

/-- A turn drives with success exactly if the record says so. -/
theorem success_eq_some {T : Nat} {n : Int} : t.success? plan a = some (T, n) ↔
    T = t.stage.now ∧ 0 < n ∧ Deed.drives (t.played plan).stage.history =
      Deed.drives t.stage.history ++ [(a, n)] := by
  obtain ⟨ds, hds, hn⟩ := (t.played_plays plan).deeds
  have hdrives : Deed.drives (t.played plan).stage.history =
      Deed.drives t.stage.history ++ Deed.drives ds := by
    rw [← Deed.drives_append, ← hds.history]
  unfold success?
  rw [hdrives, List.append_cancel_left_eq]
  rcases hn with ⟨hnone, hzero⟩ | hone
  · rw [hnone, hzero]
    simp
  · rw [hone]
    constructor
    · intro h
      split at h
      · rename_i hpos
        cases h
        exact ⟨rfl, hpos.2, by rw [hpos.1]⟩
      · cases h
    · rintro ⟨rfl, hpos, heq⟩
      cases heq
      exact if_pos ⟨rfl, hpos⟩

theorem lastDrive_concat : lastDrive? plan a (ts ++ [t]) =
    if t.lane.actuator = a ∧ 0 < (t.played plan).result then
      some (t.stage.now, (t.played plan).result)
    else lastDrive? plan a ts := by
  have hsuccess : t.success? plan a = if t.lane.actuator = a ∧ 0 < (t.played plan).result then
      some (t.stage.now, (t.played plan).result) else none := rfl
  unfold lastDrive?
  rw [List.filterMap_append]
  split at hsuccess <;> rename_i hpos
  · rw [if_pos hpos, List.filterMap_cons_some hsuccess, List.filterMap_nil, List.getLast?_concat]
  · rw [if_neg hpos, List.filterMap_cons_none hsuccess, List.filterMap_nil, List.append_nil]

end Turn

/-! ## Deadlines are measured from it -/

theorem Deadline.afterDrive_of_pos (d : Deadline) (now grace i : Nat) {n : Int} (h : 0 < n) :
    d.afterDrive now grace i n = idle.afterDrive now grace i n := by
  unfold afterDrive
  rw [if_pos h, if_pos h]

namespace Lane

/-- Unless the lane waits for nothing, its deadline is what the latest successful drive of its
actuator made it. -/
def Measured (plan : Plan R) (last : Option (Nat × Int)) (l : Lane) : Prop :=
  l.deadline = .idle ∨ ∃ T n i, last = some (T, n) ∧ 0 < n ∧
    l.deadline = Deadline.idle.afterDrive T plan.tuning.grace i n

variable {l l' : Lane} {s s' : Stage R} {task : Task R} {n : Int} {last : Option (Nat × Int)}

theorem Drove.measured (H : l.Drove plan s task n l' s') (M : l.Measured plan last)
    (uncut : task ≠ .complete true) :
    l'.Measured plan (if 0 < n then some (s.now, n) else last) := by
  induction H with
  | rest => exact M
  | drive x =>
    by_cases hn : 0 < (s.drive plan l x).1
    · rw [if_pos hn]
      exact .inr ⟨_, _, l.id, rfl, hn, Deadline.afterDrive_of_pos _ _ _ _ hn⟩
    · have hsame : (s.drive plan l x).2.1.deadline = l.deadline :=
        Deadline.afterDrive_of_le _ _ _ _ (Int.not_lt.mp hn)
      rw [if_neg hn]
      unfold Measured
      rwa [hsame]
  | stop => exact .inl rfl
  | shorten _ h => exact absurd h uncut
  | setAmplitude _ _ ih => exact ih

/-- What a turn leaves in a pattern is measured again. -/
theorem measured_next (M : t.task.isCleanup = false → t.lane.Measured plan last) {task' : Task R}
    (h : .lane l' task' ∈ (t.played plan).next) (running : task'.isCleanup = false) :
    l'.actuator = t.lane.actuator ∧ l'.Measured plan
      (if 0 < (t.played plan).result then some (t.stage.now, (t.played plan).result) else last) := by
  have hrunning : t.task.isCleanup = false := by
    cases hcleanup : t.task.isCleanup with
    | false => rfl
    | true =>
      obtain ⟨_, _, heq, htask⟩ := t.lane.play_cleanup t.stage plan hcleanup _ h
      cases heq
      rw [running] at htask
      cases htask
  have uncut : t.task ≠ .complete true := by
    intro heq
    rw [heq] at hrunning
    cases hrunning
  have M := M hrunning
  have H := t.played_plays plan
  generalize t.played plan = played at H h ⊢
  cases H with
  | halt => cases h
  | wait hold early back =>
    cases List.mem_singleton.mp h
    have hd := turnBackOn_eq early.1 back
    exact ⟨hd.same, hd.measured M nofun⟩
  | follow hd =>
    cases List.mem_singleton.mp h
    exact ⟨hd.same, hd.measured M uncut⟩

end Lane

/-- The lanes of some steps and those of all turns so far are measured. -/
structure Turn.Measures (plan : Plan R) (ids : List ActuatorId) (ts : List (Turn R)) (n : Nat)
    (xs : List (Step R)) : Prop where
  flight : Step.Flight ids n xs
  lanes : ∀ l task, .lane l task ∈ xs → task.isCleanup = false →
    l.Measured plan (lastDrive? plan l.actuator ts)
  turns : ∀ before u after, ts = before ++ u :: after → u.task.isCleanup = false →
    u.lane.Measured plan (lastDrive? plan u.lane.actuator before)

namespace Turn.Measures

variable {ids : List ActuatorId} {n : Nat} {xs ys : List (Step R)}

theorem sub (H : Measures plan ids ts n xs) (h : ys.Subperm xs) : Measures plan ids ts n ys where
  flight := H.flight.subperm h
  lanes l task hl := H.lanes l task (h.subset hl)
  turns := H.turns

theorem turn (H : Measures plan ids ts t.stage.nextStep (.lane t.lane t.task :: xs))
    (distinct : ids.Nodup) :
    Measures plan ids (ts ++ [t]) (t.played plan).stage.nextStep ((t.played plan).next ++ xs) where
  flight := (t.played_plays plan).flight H.flight
  lanes l task hl running := by
    rcases List.mem_append.mp hl with hl | hl
    · obtain ⟨hsame, M⟩ := Lane.measured_next (H.lanes _ _ List.mem_cons_self) hl running
      rw [lastDrive_concat, hsame]
      simp only [true_and]
      exact M
    · -- The step of another actuator is not touched.
      have hne : t.lane.actuator ≠ l.actuator := fun heq =>
        H.flight.alone distinct (List.mem_filterMap.mpr ⟨_, hl, congrArg some heq.symm⟩)
      rw [lastDrive_concat, if_neg fun h => hne h.1]
      exact H.lanes l task (List.mem_cons_of_mem _ hl) running
  turns before u after hts running := by
    rcases List.eq_nil_or_concat after with rfl | ⟨after, u', rfl⟩
    · obtain ⟨rfl, heq⟩ := List.append_inj' hts rfl
      cases heq
      exact H.lanes _ _ List.mem_cons_self running
    · rw [List.concat_eq_append, ← List.cons_append, ← List.append_assoc] at hts
      exact H.turns before u after (List.append_inj' hts rfl).1 running

/-- What the lanes are measured by stays so through turns, reports and cancels. -/
theorem threads (plan : Plan R) (distinct : ids.Nodup) :
    Run.Threads plan (Measures plan ids) where
  sub := sub
  closing H := {
    flight := H.flight.closing
    lanes := fun l task hl => H.lanes l task ((List.mem_cons.mp hl).resolve_left nofun)
    turns := H.turns }
  turn H := H.turn distinct
  heard {ts n now q q'} H h := {
    flight := H.flight.heard h
    lanes := fun l task hl running => by
      refine h.items (fun x => ∀ l task, x = .lane l task → task.isCleanup = false →
          l.Measured plan (lastDrive? plan l.actuator ts)) (fun x a step hx => ?_)
        (fun x hx l task heq => H.lanes l task (heq ▸ hx)) _ hl l task rfl running
      rcases Queue.accept_cases x a step now with h | ⟨l, task, j, rfl, -, -, -, h⟩ <;> rw [h]
      · exact hx
      · rintro l' task' ⟨⟩ -
        exact .inl rfl
    turns := H.turns }
  remnants now H := {
    flight := H.flight.remnants now
    lanes := fun l task hl running => by
      obtain ⟨x, -, k, -, hy⟩ := Step.mem_remnants hl
      cases x with
      | start => cases hy
      | lane l task =>
        cases List.mem_singleton.mp hy
        rw [Task.isCleanup_remnant] at running
        cases running
      | finish => cases List.mem_singleton.mp hy
    turns := H.turns }

end Turn.Measures

/-! ## Runs -/

/-- A turn takes up a hold that sounds and takes time, and does not drive the actuator for it. -/
structure Turn.TakesUp (plan : Plan R) (t : Turn R) : Prop where
  hold : ∃ q x, t.task = .hold q ∧ q.segment? = some (.hold x) ∧
    (x.amplitude.value == 0) = false ∧ 0 < x.ms
  plays : ¬t.Waits
  undriven : Deed.drives (t.played plan).stage.history = Deed.drives t.stage.history

/-- A hold is taken up without a drive only if its start is covered. -/
theorem Turn.TakesUp.covers (U : t.TakesUp plan) :
    t.lane.deadline.covers (t.lane.instant t.stage.now) = true := by
  obtain ⟨⟨q, x, htask, hq, sounds, pos⟩, plays, undriven⟩ := U
  cases hcovers : t.lane.deadline.covers (t.lane.instant t.stage.now) with
  | true => rfl
  | false =>
    have hdrives := drives_of_uncovered plan htask hq sounds pos plays hcovers
    rw [undriven] at hdrives
    exact absurd hdrives.symm (by simp)

/-- The instant lies behind the end of a drive at `T` with the answer `n`, but the report may still
come. -/
def InGrace (plan : Plan R) (T : Nat) (n : Int) (t : Nat) : Prop :=
  n ≠ indefinite ∧ T + n.toNat ≤ t ∧ ∀ u ∈ reach? T (n.toNat + plan.tuning.grace), t < u

theorem Deadline.covers_afterDrive_iff {T grace i t : Nat} {n : Int} (pos : 0 < n) :
    (idle.afterDrive T grace i n).covers t = true ↔
      n = Haptics.indefinite ∨ ∀ u ∈ reach? T (n.toNat + grace), t < u := by
  unfold afterDrive
  by_cases hn : n = Haptics.indefinite
  · rw [if_pos hn]
    simp [covers, hn]
  · rw [if_neg hn, if_pos pos]
    cases reach? T (n.toNat + grace) with
    | none => simp [covers]
    | some u => simp [covers, hn]

/-- A hold is taken up without a drive only after a successful drive of its actuator. The latest of
them keeps the actuator on until the hold begins exactly if the hold does not begin in the grace for
its report. -/
theorem Run.covered_moves (plan : Plan R) (v : Vibration R) (rig : Rig R) (asked : Nat)
    (ms : List (Move R)) (distinct : (fresh plan v rig asked).Distinct v ms)
    {before after : List (Turn R)} {t : Turn R}
    (hts : (fresh plan v rig asked).turns ms = before ++ t :: after) (up : t.TakesUp plan) :
    ∃ T n, Turn.lastDrive? plan t.lane.actuator before = some (T, n) ∧ 0 < n ∧
      ((n = indefinite ∨ t.lane.instant t.stage.now < T + n.toNat) ↔
        ¬InGrace plan T n (t.lane.instant t.stage.now)) := by
  have hcovers := up.covers
  have hrunning : t.task.isCleanup = false := by
    obtain ⟨⟨q, x, htask, -⟩, -, -⟩ := up
    rw [htask]
    rfl
  have M : t.lane.Measured plan (Turn.lastDrive? plan t.lane.actuator before) := by
    rcases turns_cases (fresh_phase plan v rig asked) (fresh_kept plan v rig asked) rfl ms with
      ⟨hnone, -⟩ | ⟨ns, s, hns, rfl, -, T⟩
    · rw [hnone] at hts
      exact absurd hts.symm (List.append_ne_nil_of_right_ne_nil _ (List.cons_ne_nil _ _))
    · obtain ⟨n, xs, H⟩ := T (Turn.Measures.threads plan (distinct ns hns)) {
        flight := Stage.flight_issueFirst _ (actuators_effects _ v)
        lanes := fun l task hl _ => by
          obtain ⟨x, hx, heq⟩ := List.mem_map.mp hl
          cases heq
          exact .inl (congrArg Lane.deadline (Stage.lane_issueFirst _ _ x hx))
        turns := fun before u after hts => by cases before <;> cases hts }
      exact H.turns before t after hts hrunning
  rcases M with hidle | ⟨T, n, i, hlast, pos, hdeadline⟩
  · rw [hidle] at hcovers
    cases hcovers
  · refine ⟨T, n, hlast, pos, ?_⟩
    rw [hdeadline, Deadline.covers_afterDrive_iff pos] at hcovers
    unfold InGrace
    constructor
    · rintro (hn | hlt) ⟨hne, hle, -⟩
      · exact hne hn
      · omega
    · intro hgrace
      by_cases hn : n = indefinite
      · exact .inl hn
      · refine .inr (Nat.not_le.mp fun hle => hgrace ⟨hn, hle, ?_⟩)
        exact hcovers.resolve_left hn

end

namespace Run

/-! ## A hold that begins in the grace -/

/-- Two holds in a row. -/
def steady : Vibration Rat := .mono (.pattern (.waveform [5000, 3000] [.level 1, .level 1] none))

/-- The second hold goes on with the drive of the first. -/
theorem covered_moves_steady : let r := bench steady [0]
    let ms := [.play, .world (·.moveTo 5000), .play]
    r.Distinct steady ms ∧ ∃ before t after, r.turns ms = before ++ t :: after ∧
      t.TakesUp r.plan ∧ ∃ T n, Turn.lastDrive? r.plan t.lane.actuator before = some (T, n) ∧
        0 < n ∧ ((n = indefinite ∨ t.lane.instant t.stage.now < T + n.toNat) ↔
          ¬InGrace r.plan T n (t.lane.instant t.stage.now)) :=
  have distinct : (bench steady [0]).Distinct steady [.play, .world (·.moveTo 5000), .play] := by
    decide +kernel
  have hts : (bench steady [0]).turns [.play, .world (·.moveTo 5000), .play] = [_] ++ _ :: [] := rfl
  have up : Turn.TakesUp (bench steady [0]).plan
      ⟨((bench steady [0]).moves [.play, .world (·.moveTo 5000)]).stage,
        { id := 2, start := .at 5000, actuator := 0, deadline := .at 9000 1 },
        .hold ⟨.waveform [5000, 3000] [.level 1, .level 1] none, 1⟩⟩ := {
    hold := ⟨_, ⟨.level 1, 0, 3000⟩, rfl, rfl, by decide +kernel, by decide⟩
    plays := by decide +kernel
    undriven := by decide +kernel }
  ⟨distinct, _, _, _, hts, up, covered_moves _ _ _ _ _ distinct hts up⟩

/-- A click, and then a hold. -/
def clickAndHold : Vibration Rat :=
  .mono (.pattern (.ofSegments [.prebaked ⟨⟨0⟩, .medium, false⟩, .hold ⟨.level 1, 0, 100⟩] none))

/-- A run on a motor that clicks for 20 ms and reports the end of everything when it is told to. -/
def clicking : Run Rat :=
  .fresh ⟨1, ⟨1000, "com.example"⟩, .standard⟩ clickAndHold (Rig.init {
    catalogue := fun id => (.negotiated, {
      profile := { Profile.degraded id with
        capabilities := .ofList [.onCallback, .performCallback]
        effects := some ⟨[(⟨0⟩, 20)]⟩ }
      manual := true })
    group := .fixed [0] }) 0

/-- The click reports half a second late. -/
def lateReport : List (Move Rat) :=
  [.play, .world (·.moveTo 20), .play, .world (·.moveTo 120), .play, .world (·.moveTo 520),
    .hear (.stepComplete 0 1 1), .play]

/-- The hold behind a click begins when the click is over. It is not driven, and the motor is never
turned on for it. -/
theorem undriven_in_grace : (clicking.moves lateReport).cancelled = none ∧
    (∃ before t after, clicking.turns lateReport = before ++ t :: after ∧
      t.TakesUp clicking.plan ∧
      Turn.lastDrive? clicking.plan t.lane.actuator before = some (0, 20) ∧
      t.lane.instant t.stage.now = 0 + 20) ∧
    Deed.drives (clicking.moves lateReport).stage.history = [(0, 20)] :=
  have hts : clicking.turns lateReport = [_] ++ _ :: _ := rfl
  have up : Turn.TakesUp clicking.plan
      ⟨(clicking.moves [.play, .world (·.moveTo 20)]).stage,
        { id := 2, start := .at 20, actuator := 0, deadline := .at 1020 1 },
        .hold ⟨.ofSegments [.prebaked ⟨⟨0⟩, .medium, false⟩, .hold ⟨.level 1, 0, 100⟩] none, 1⟩⟩ := {
    hold := ⟨_, ⟨.level 1, 0, 100⟩, rfl, rfl, by decide +kernel, by decide⟩
    plays := by decide +kernel
    undriven := by decide +kernel }
  ⟨by decide +kernel, ⟨_, _, _, hts, up, by decide +kernel, by decide +kernel⟩, by decide +kernel⟩

end Run
end Haptics
