import Haptics.Proofs.Completions
import Haptics.Proofs.OnTime
import Haptics.Proofs.TurningBack

/-!
# Totals that do not fit

A drive of several parts takes as long as all of them, and an actuator that is turned back on is on
for its run of holds and the time until they begin. Neither sum stops at the largest word. The
program dies exactly of those that do not fit, and all others are exact (`totals_overflow`).
-/

namespace Haptics

variable {R : Type}

theorem driveResult_of_lt {ms : Nat} (h : (ms : Int) < indefinite) : driveResult ms = ms :=
  Int.min_eq_left (Int.le_of_lt h)

theorem driveResult_of_le {ms : Nat} (h : indefinite ≤ (ms : Int)) : driveResult ms = indefinite :=
  Int.min_eq_right h

section
variable [Level R]

/-! ## Drives of several parts -/

namespace Device

variable {d : Device R} {k : Interface} {a : ActuatorId} {p : Profile R} {x : Drive R} {total : Nat}

omit [Level R] in
/-- A motor that works adds up what the software expects. -/
theorem overflows_of_promised (works : d.motor.failure = none)
    (h : d.promised? x = some total) (same : d.motor.duration? x = some total) :
    d.motor.overflows x = decide (wordCount ≤ total) := by
  unfold Motor.overflows
  rw [works, same]
  cases x with
  | composition | ramps | envelope => rfl
  | hold | prebaked | vendor => cases h

/-- The program dies of a total that does not fit: before the call on a negotiated interface, behind
it on a direct one. -/
theorem overflow_of_promised (K : d.Known k a p) (able : ¬d.Lacks x)
    (works : d.motor.failure = none) (h : d.promised? x = some total) :
    d.overflow? x = if wordCount ≤ total then
      some (match k with
        | .negotiated => []
        | .direct => d.motor.driveSignals x)
    else none := by
  have hoverflows := overflows_of_promised works h (K.duration_eq able h)
  rw [lacks_iff, not_or, Bool.not_eq_true, Bool.not_eq_false, K.interface] at able
  obtain ⟨hneeds, hknows⟩ := able
  unfold overflow?
  rw [K.interface]
  cases k with
  | negotiated =>
    simp only [overflowNegotiated?, hneeds, h, hoverflows, Bool.false_eq_true, if_false,
      decide_eq_true_eq]
    by_cases hlong : wordCount ≤ total
    · rw [if_pos hlong, if_pos hlong]
    · rw [if_neg hlong, if_neg hlong, if_neg fun h => hlong h.2]
  | direct =>
    simp only [overflowDirect?, hneeds, hoverflows, Bool.or_false, decide_eq_true_eq]
    cases x with
    | composition | ramps => rfl
    | envelope => cases hknows
    | hold | prebaked | vendor => cases h

/-- Working hardware that can play several parts takes a drive for their total. -/
theorem value_of_promised (K : d.Known k a p) (v i : Nat) (able : ¬d.Lacks x)
    (works : d.motor.failure = none) (h : d.promised? x = some total) :
    (d.drive v i x).value = driveResult total := by
  have hduration := K.duration_eq able h
  rw [lacks_iff, not_or, Bool.not_eq_true, Bool.not_eq_false] at able
  obtain ⟨hneeds, hknows⟩ := able
  unfold drive
  cases hinterface : d.interface with
  | negotiated =>
    unfold driveNegotiated
    simp only [hneeds, h, hduration, works, Bool.false_or, beq_iff_eq, Option.some.injEq]
    split
    · rename_i hzero
      rw [hzero]
      rfl
    · cases x with
      | composition | ramps | envelope => rfl
      | hold | prebaked | vendor => cases h
  | direct =>
    unfold driveDirect
    rw [hinterface] at hknows
    simp only [hneeds, hduration, works, Bool.or_false, Option.getD_some]
    cases x with
    | composition | ramps => cases total <;> rfl
    | envelope => cases hknows
    | hold | prebaked | vendor => cases h

end Device

/-! ## Turning an actuator back on -/

namespace Turn

variable {plan : Plan R} {t : Turn R}

/-- What the program dies of is the first drive of a turn whose total does not fit. -/
theorem overflow_eq {ds : List (Deed R)}
    (h : (t.played plan).stage.history = t.stage.history ++ ds) :
    t.overflow? plan = ds.findSome? (·.overflow? t.stage) := by
  have hnew : (((t.played plan).stage.deeds.extract t.stage.deeds.size).toList.map (·.2)) = ds := by
    have hlength : t.stage.deeds.size = t.stage.history.length := by simp [Stage.history]
    rw [Array.toList_extract, List.extract_eq_take_drop, List.take_of_length_le (by simp),
      List.map_drop, hlength]
    exact (congrArg (List.drop _) h).trans List.drop_left
  rw [← hnew, List.findSome?_map]
  rfl

/-- A hold whose actuator stopped before it begins turns that back on for a time that is exact. The
program dies of it if that does not fit a word. -/
theorem turnsBackOn (plan : Plan R) {q : Position R} (task : t.task = .hold q) (early : t.Waits)
    (on : q.onDuration plan.tuning.rampDown ≠ 0) :
    let ms := q.onDuration plan.tuning.rampDown + (t.lane.instant t.stage.now - t.stage.now)
    (∃ n ds, (t.played plan).stage.history =
      t.stage.history ++ .drive t.lane.actuator t.lane.id (.hold ms) n :: ds) ∧
    t.overflow? plan = if wordCount ≤ ms then some t.stage else none := by
  intro ms
  obtain ⟨start, hstart, hnow⟩ := Lane.at_of_early early.2
  obtain ⟨ok, hhistory⟩ := (recovers plan task hstart early.1 hnow).drives on
  rw [← Lane.instant_at hstart t.stage.now] at hhistory
  refine ⟨⟨_, _, hhistory⟩, ?_⟩
  rw [overflow_eq hhistory, List.findSome?_cons]
  by_cases hlong : wordCount ≤ ms
  · simp only [Deed.overflow?, Rig.overflow?, ms, if_pos hlong, Option.map_some]
  · simp only [Deed.overflow?, Rig.overflow?, ms, if_neg hlong, Option.map_none]
    split <;> rfl

end Turn

/-! ## Both sums -/

/-- A drive of several parts on working hardware that can play them kills the program if and only if
their total does not fit a word. Otherwise the answer is the total, or `indefinite` if that is as
long or longer. Turning an actuator back on asks for the exact sum of its run of holds and the time
until they begin, and kills the program if and only if that does not fit. -/
theorem totals_overflow :
    (∀ (k : Interface) (a : ActuatorId) (p : Profile R) (d : Device R), d.Known k a p →
      ∀ (v i : Nat) (x : Drive R) (total : Nat), d.promised? x = some total → ¬d.Lacks x →
        d.motor.failure = none →
        (d.drive? v i x = none ↔ wordCount ≤ total) ∧
        ∀ y, d.drive? v i x = some y →
          ((total : Int) < indefinite → y.value = total) ∧
          (indefinite ≤ (total : Int) → y.value = indefinite)) ∧
    ∀ (plan : Plan R) (t : Turn R) (q : Position R), t.task = .hold q → t.Waits →
      q.onDuration plan.tuning.rampDown ≠ 0 →
      let ms := q.onDuration plan.tuning.rampDown + (t.lane.instant t.stage.now - t.stage.now)
      (∃ n ds, (t.played plan).stage.history =
        t.stage.history ++ .drive t.lane.actuator t.lane.id (.hold ms) n :: ds) ∧
      ((t.overflow? plan).isSome = true ↔ wordCount ≤ ms) := by
  constructor
  · intro k a p d K v i x total h able works
    have hoverflow := Device.overflow_of_promised K able works h
    have hvalue := Device.value_of_promised K v i able works h
    unfold Device.drive?
    rw [hoverflow]
    constructor
    · split <;> simp [*]
    · intro y hy
      split at hy
      · cases hy
      · cases hy
        exact ⟨fun hlt => hvalue.trans (driveResult_of_lt hlt),
          fun hle => hvalue.trans (driveResult_of_le hle)⟩
  · intro plan t q task early on
    obtain ⟨hasks, hoverflow⟩ := t.turnsBackOn plan task early on
    refine ⟨hasks, ?_⟩
    rw [hoverflow]
    split <;> simp [*]

end

namespace Device

/-- A motor that plays ramps. -/
def sweller : Motor Rat where
  profile := { Profile.degraded 0 with capabilities := .ofList [.composeRamps] }

/-- Such a motor ready to play, on either interface. -/
def swellerOn (k : Interface) : Device Rat := (Device.fresh k sweller 0).init.1

/-- Up for half a second, and down again. -/
def swell : Drive Rat := .ramps [⟨0, 1, 0, 0, 500⟩, ⟨1, 0, 0, 0, 500⟩]

/-- Up and down, for 20 milliseconds more than there are words. -/
def longSwell : Drive Rat :=
  .ramps [⟨0, 1, 0, 0, 9223372036854775808⟩, ⟨1, 0, 0, 0, 9223372036854775828⟩]

/-- A second's swell is answered with its total, and a motor that stopped halfway through its first
hold is turned back on for the 150 milliseconds that are left of both. -/
theorem totals_overflow_swell :
    (swellerOn .direct).promised? swell = some 1000 ∧ ¬(swellerOn .direct).Lacks swell ∧
      (swellerOn .direct).motor.failure = none ∧
      (∀ y, (swellerOn .direct).drive? 1 1 swell = some y → y.value = 1000) ∧
      ∃ n ds, ((⟨Run.stopped.stage, Run.second.heard, .hold Run.secondHold⟩ : Turn Rat).played
          Run.stopped.plan).stage.history =
        Run.stopped.stage.history ++ .drive 0 2 (.hold 150) n :: ds :=
  have known : (swellerOn .direct).Known .direct 0 sweller.profile :=
    (ArmsNone.init _).1.known ⟨rfl, rfl, rfl, .inr rfl⟩
  have total : (swellerOn .direct).promised? swell = some 1000 := by decide +kernel
  have able : ¬(swellerOn .direct).Lacks swell := by decide +kernel
  let t : Turn Rat := ⟨Run.stopped.stage, Run.second.heard, .hold Run.secondHold⟩
  have early : t.Waits := by decide +kernel
  have on : Run.secondHold.onDuration Run.stopped.plan.tuning.rampDown ≠ 0 := by decide +kernel
  have hvalue := (totals_overflow.1 _ _ _ _ known 1 1 swell _ total able rfl).2
  ⟨total, able, rfl, fun y hy => (hvalue y hy).1 (by decide),
    (totals_overflow.2 Run.stopped.plan t Run.secondHold rfl early on).1⟩

/-- A drive that lasts almost for ever kills the program, although an indefinite one would be the
answer to its total. -/
theorem longSwell_kills :
    (swellerOn .negotiated).promised? longSwell = some (wordCount + 20) ∧
      driveResult (wordCount + 20) = indefinite ∧
      ¬(swellerOn .negotiated).Lacks longSwell ∧ (swellerOn .negotiated).motor.failure = none ∧
      ((swellerOn .negotiated).drive? 1 1 longSwell).isNone = true ∧
      ¬(swellerOn .direct).Lacks longSwell ∧ (swellerOn .direct).motor.failure = none ∧
      ((swellerOn .direct).drive? 1 1 longSwell).isNone = true := by
  decide +kernel

end Device
end Haptics
