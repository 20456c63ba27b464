import Haptics.Proofs.Following

/-!
# Gaps are silent

A hold with the motor off stops its actuator and leaves a step that waits for no report. So until
the actuator's next turn nothing that is reported can turn it on or release that step
(`Run.gap_moves`): there is no drive to be reported any more that the step would know of.
-/

namespace Haptics

variable {R : Type}

/-- A deadline that has passed stays behind. -/
theorem Deadline.not_pending_mono {d : Deadline} {t u : Nat} (h : d.isPending t = false)
    (htu : t ≤ u) : d.isPending u = false := by
  cases d with
  | idle => rfl
  | «at» t' =>
    simp only [isPending, decide_eq_false_iff_not] at h ⊢
    omega
  | indefinite => cases h

/-- A report releases no lane whose deadline has passed. -/
theorem Lane.accept_of_not_pending {l : Lane} {now : Nat} (h : l.deadline.isPending now = false)
    (a : ActuatorId) (step : Option Nat) : (l.accept a step now).1 = false ∧
      (l.accept a step now).2.deadline.isPending now = false ∧
      (l.accept a step now).2.start = l.start := by
  unfold accept
  split
  · exact ⟨rfl, h, rfl⟩
  · split
    · exact ⟨h, rfl, rfl⟩
    · exact ⟨rfl, h, rfl⟩

theorem Deed.actuator_of_answer {d : Deed R} {a : ActuatorId} {n : Int}
    (h : d.answer? = some (a, n)) : d.actuator? = some a := by
  cases d with
  | drive b i x m =>
    cases h
    rfl
  | _ => cases h

section
variable [Level R]

/-- Whoever else acts on the hardware does not turn an actuator on. -/
def Move.LeavesOff (a : ActuatorId) (s : Stage R) (m : Move R) : Prop :=
  ∀ f, m = .world f → (f s.rig).isActive a = true → s.rig.isActive a = true

namespace Turn

/-- A turn plays a hold that takes time, with the motor off. -/
structure Pauses (t : Turn R) (q : Position R) (h : Hold R) : Prop where
  task : t.task = .hold q
  segment : q.segment? = some (.hold h)
  silent : (h.amplitude.value == 0) = true
  pos : 0 < h.ms
  plays : ¬t.Waits

variable {plan : Plan R} {a : ActuatorId} {t : Turn R} {q : Position R} {h : Hold R}

/-- The motor is stopped unless it is off and no report is awaited. What follows begins when the
hold is over. -/
theorem Pauses.played (P : t.Pauses q h) (plan : Plan R) :
    (t.played plan).stage.now = t.stage.now ∧
      (t.played plan).stage.rig.isActive t.lane.actuator = false ∧
      ∃ l', t.left? plan = some (false, l', .ofPosition q.pattern (q.advance 1)) ∧
        l'.start = .at (t.lane.instant t.stage.now + h.ms) ∧
        l'.deadline.isPending t.stage.now = false := by
  unfold left?
  rw [played_hold P.task]
  by_cases hon : (t.lane.deadline.isPending t.stage.now ||
      t.stage.rig.isActive t.lane.actuator) = true
  · rw [t.lane.playHold_silent_on plan t.stage P.plays P.segment P.pos P.silent hon]
    have off := t.stage.rig.isActive_stop_self t.lane.actuator
    exact ⟨t.stage.stop_now t.lane, off, _, rfl, rfl, rfl⟩
  · rw [Bool.not_eq_true] at hon
    rw [t.lane.playHold_silent_off plan t.stage P.plays P.segment P.pos P.silent hon]
    rw [Bool.or_eq_false_iff] at hon
    exact ⟨rfl, hon.2, _, rfl, rfl, hon.1⟩

/-- Where a run is after a turn that pauses and before the next turn of its actuator. `cancels` says
whether the step that follows may have been cancelled. -/
structure Gap (plan : Plan R) (cancels : Prop) (t : Turn R) (q : Position R) (h : Hold R)
    (s : Stage R) (x : Option (Bool × Lane × Task R)) : Prop where
  off : s.rig.isActive t.lane.actuator = false
  undriven : ∃ ds, s.history = (t.played plan).stage.history ++ ds ∧
    ∀ d ∈ ds, ∀ n, d.answer? ≠ some (t.lane.actuator, n)
  unreleased : ∀ y ∈ x, y.1 = false
  /-- No report is awaited. -/
  expired : ∀ y ∈ x, y.2.1.deadline.isPending s.now = false
  next : ∀ y ∈ x, cancels ∨ y.2.1.start = .at (t.lane.instant t.stage.now + h.ms) ∧
    y.2.2 = .ofPosition q.pattern (q.advance 1)

theorem Pauses.gap (P : t.Pauses q h) (plan : Plan R) (cancels : Prop) :
    t.Gap plan cancels q h (t.played plan).stage (t.left? plan) := by
  obtain ⟨hnow, off, l', hleft, hstart, hexpired⟩ := P.played plan
  rw [hleft]
  refine ⟨off, ⟨[], (List.append_nil _).symm, nofun⟩, ?_, ?_, ?_⟩ <;> rintro y ⟨⟩
  · rfl
  · rwa [hnow]
  · exact .inr ⟨hstart, rfl⟩

theorem Gap.undriven_append {cancels : Prop} {s s' : Stage R}
    {x : Option (Bool × Lane × Task R)} (G : t.Gap plan cancels q h s x) {ds : List (Deed R)}
    (hds : s'.history = s.history ++ ds)
    (quiet : ∀ d ∈ ds, ∀ n, d.answer? ≠ some (t.lane.actuator, n)) :
    ∃ ds, s'.history = (t.played plan).stage.history ++ ds ∧
      ∀ d ∈ ds, ∀ n, d.answer? ≠ some (t.lane.actuator, n) := by
  obtain ⟨es, hes, hquiet⟩ := G.undriven
  refine ⟨es ++ ds, by rw [hds, hes, List.append_assoc], fun d hd => ?_⟩
  exact (List.mem_append.mp hd).elim (hquiet d) (quiet d)

end Turn

/-- After the last turn of an actuator, if that pauses, its gap lasts. -/
def Run.InGap (plan : Plan R) (a : ActuatorId) (cancels : Prop) (ts : List (Turn R)) (s : Stage R)
    (x : Option (Bool × Lane × Task R)) : Prop :=
  ∀ t q h, ts.getLast? = some t → t.Pauses q h →
    t.lane.actuator = a ∧ t.Gap plan cancels q h s x

/-- Before the first turn there is no gap. -/
theorem Run.InGap.nil {plan : Plan R} {a : ActuatorId} {cancels : Prop} {s : Stage R}
    {x : Option (Bool × Lane × Task R)} : InGap plan a cancels [] s x :=
  fun _ _ _ ht => by cases ht

/-- Nothing ends a gap but the next turn. -/
theorem Run.follows_gap (plan : Plan R) (a : ActuatorId) (cancels : Prop) :
    Run.Follows plan a (fun s m => m.LeavesOff a s ∧ (m = .cancel .graceful → cancels))
      (InGap plan a cancels) where
  aside {ts s s' x} H A t q h ht P := by
    obtain ⟨ha, G⟩ := H t q h ht P
    obtain ⟨ds, hds, hown⟩ := A.history
    refine ⟨ha, ?_, G.undriven_append hds fun d hd n hn => ?_, G.unreleased, ?_, G.next⟩
    · rw [ha, A.isActive, ← ha]
      exact G.off
    · exact hown d hd (ha ▸ Deed.actuator_of_answer hn)
    · rw [A.now]
      exact G.expired
  turn {ts t released} _ ha _ t' q h ht P := by
    rw [List.getLast?_concat] at ht
    cases ht
    exact ⟨ha, P.gap plan cancels⟩
  heard {ts s e l task} _ H _ _ t q h ht P := by
    obtain ⟨ha, G⟩ := H t q h ht P
    obtain ⟨hok, hexpired, hstart⟩ :=
      Lane.accept_of_not_pending (G.expired _ rfl) a e.named?
    refine ⟨ha, G.off, G.undriven, ?_, ?_, ?_⟩ <;> rintro y ⟨⟩
    · exact hok
    · exact hexpired
    · rw [hstart]
      exact G.next _ rfl
  remnant {ts s released l task} i ok H _ t q h ht P := by
    obtain ⟨ha, G⟩ := H t q h ht P
    refine ⟨ha, G.off, G.undriven, ?_, ?_, ?_⟩ <;> rintro y ⟨⟩
    · rfl
    · exact G.expired (released, l, task) rfl
    · exact .inl (ok.2 rfl)
  cleared {ts s s' x} H S t q h ht P := by
    obtain ⟨ha, G⟩ := H t q h ht P
    obtain ⟨ds, hds, hnone⟩ := S.history
    refine ⟨ha, ?_, G.undriven_append hds fun d hd n hn => ?_,
      fun _ hy => ?_, fun _ hy => ?_, fun _ hy => ?_⟩
    · exact Bool.eq_false_iff.mpr fun on => Bool.eq_false_iff.mp G.off (ha ▸ S.active (ha ▸ on))
    · rw [hnone d hd] at hn
      cases hn
    all_goals cases hy
  world {ts s f x} ok H t q h ht P := by
    obtain ⟨ha, G⟩ := H t q h ht P
    refine ⟨ha, ?_, G.undriven, G.unreleased, fun y hy => ?_, G.next⟩
    · exact Bool.eq_false_iff.mpr fun on =>
        Bool.eq_false_iff.mp G.off (ha ▸ ok.1 f rfl (ha ▸ on))
    · exact Deadline.not_pending_mono (G.expired y hy) (Nat.le_max_right ..)

/-- What all of some moves are may be asked of them as well. -/
theorem Run.Allows.and {allowed : Stage R → Move R → Prop} {p : Move R → Prop} {r : Run R}
    {ms : List (Move R)} (h : r.Allows allowed ms) (hp : ∀ m ∈ ms, p m) :
    r.Allows (fun s m => allowed s m ∧ p m) ms := by
  induction ms generalizing r with
  | nil => exact h
  | cons m ms ih =>
    exact ⟨⟨h.1, hp m List.mem_cons_self⟩, ih h.2 fun n hn => hp n (List.mem_cons_of_mem m hn)⟩

/-- From a hold with the motor off until the next turn of its actuator, the actuator is off, it is
not driven, and its next step is not released: that waits for the end of the hold, unless a graceful
cancel puts another one in its place. -/
theorem Run.gap_moves {plan : Plan R} {v : Vibration R} {rig : Rig R} {asked : Nat}
    {a : ActuatorId} {ms : List (Move R)} {t : Turn R} {q : Position R} {h : Hold R}
    (distinct : (fresh plan v rig asked).Distinct v ms)
    (undriven : (fresh plan v rig asked).Allows (fun s m => m.LeavesOff a s) ms)
    (last : (Turn.of a ((fresh plan v rig asked).turns ms)).getLast? = some t)
    (pauses : t.Pauses q h) :
    let r := (fresh plan v rig asked).moves ms
    r.rig.isActive a = false ∧
      (∃ ds, r.stage.history = (t.played plan).stage.history ++ ds ∧
        ∀ d ∈ ds, ∀ n, d.answer? ≠ some (a, n)) ∧
      (∀ x ∈ r.queue.own a, x.1 = false) ∧
      ∀ l task q', r.queue.popDue r.now = some (.lane l task, q') → l.actuator = a →
        l.start.isDue r.now = true ∧ (.cancel .graceful ∈ ms ∨
          l.start = .at (t.lane.instant t.stage.now + h.ms) ∧
          task = .ofPosition q.pattern (q.advance 1)) := by
  have F := follows_gap plan a (.cancel .graceful ∈ ms)
  obtain ⟨x, H⟩ := F.moves distinct .nil (fun _ _ _ _ _ _ _ _ _ => .nil)
    (undriven.and fun m hm heq => heq ▸ hm)
  obtain ⟨rfl, G⟩ := H.holds t q h last pauses
  have hown : ∀ y ∈ ((fresh plan v rig asked).moves ms).queue.own t.lane.actuator, y ∈ x := by
    rw [H.own]
    exact fun y => Option.mem_toList.mp
  refine ⟨G.off, G.undriven, fun y hy => G.unreleased y (hown y hy), ?_⟩
  intro l task q' hpop hl
  obtain ⟨released, hmem, hdue⟩ :=
    Queue.own_popDue (kept_moves _ (fresh_kept plan v rig asked) ms) hpop hl
  have hx := hown (released, l, task) (hmem ▸ List.mem_cons_self)
  have hreleased : released = false := G.unreleased _ hx
  rw [hreleased, Bool.false_or] at hdue
  exact ⟨hdue, G.next _ hx⟩

end

namespace Run

/-- A hold, a gap and a hold. -/
def parted : Vibration Rat :=
  .mono (.pattern (.waveform [100, 50, 100] [.level 1, .level 0, .level 1] none))

/-- The first hold is reported when it is over, before the gap begins, and again within the gap. -/
def reportedInGap : List (Move Rat) :=
  [.play, .world (·.moveTo 100), .hear (.stepComplete 0 1 1), .play, .world (·.moveTo 120),
    .hear (.stepComplete 0 1 1), .play]

theorem gap_moves_parted : let r := bench parted [0]
    r.Distinct parted reportedInGap ∧
      r.Allows (fun s m => m.LeavesOff 0 s) reportedInGap ∧
      ∃ t q h, (Turn.of 0 (r.turns reportedInGap)).getLast? = some t ∧ t.Pauses q h ∧
        let r' := r.moves reportedInGap
        r'.rig.isActive 0 = false ∧
          (∃ ds, r'.stage.history = (t.played r.plan).stage.history ++ ds ∧
            ∀ d ∈ ds, ∀ n, d.answer? ≠ some (0, n)) ∧
          (∀ x ∈ r'.queue.own 0, x.1 = false) ∧
          ∀ l task q', r'.queue.popDue r'.now = some (.lane l task, q') → l.actuator = 0 →
            l.start.isDue r'.now = true ∧ (.cancel .graceful ∈ reportedInGap ∨
              l.start = .at (t.lane.instant t.stage.now + h.ms) ∧
              task = .ofPosition q.pattern (q.advance 1)) :=
  have distinct : (bench parted [0]).Distinct parted reportedInGap := by decide +kernel
  have undriven : (bench parted [0]).Allows (fun s m => m.LeavesOff 0 s) reportedInGap := by
    refine ⟨nofun, ?_, nofun, nofun, ?_, nofun, nofun, trivial⟩ <;> rintro f ⟨⟩ <;> exact id
  have pauses : Turn.Pauses
      ⟨((bench parted [0]).moves (reportedInGap.take 3)).stage,
        { id := 2, start := .at 100, actuator := 0, deadline := .idle, reported := true },
        .hold ⟨.waveform [100, 50, 100] [.level 1, .level 0, .level 1] none, 1⟩⟩
      ⟨.waveform [100, 50, 100] [.level 1, .level 0, .level 1] none, 1⟩ ⟨.level 0, 0, 50⟩ := {
    task := rfl
    segment := rfl
    silent := by decide +kernel
    pos := by decide
    plays := by decide +kernel }
  have last : (Turn.of 0 ((bench parted [0]).turns reportedInGap)).getLast? = some _ := rfl
  ⟨distinct, undriven, _, _, _, last, pauses, gap_moves distinct undriven last pauses⟩

end Run
end Haptics
