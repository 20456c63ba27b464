import Haptics.Proofs.Opening

/-!
# Effects that take no time

A pattern whose segments take no time never makes a successful drive: holds are passed over, and
hardware refuses sweeps that end at once. Steps of such patterns are `Step.Mute`; playing them
leaves only such steps. `Stage.mute_openVibration` is what the opening step makes of it: if it
starts nothing although it knows how long every effect takes, nothing is started later either.
-/

namespace Haptics

variable {R : Type}

/-! ## Patterns -/

namespace Pattern

/-- Every segment is known to take no time. -/
def Instant (p : Pattern R) : Prop := ∀ s ∈ p.segments, s.duration? = some 0

theorem foldlM_duration_eq_zero {ss : List (Segment R)} {t : Nat}
    (h : ss.foldlM (fun total s => s.duration?.map (saturate total)) t = some 0) :
    t = 0 ∧ ∀ s ∈ ss, s.duration? = some 0 := by
  induction ss generalizing t with
  | nil => exact ⟨by simpa using h, nofun⟩
  | cons s ss ih =>
    simp only [List.foldlM_cons, Option.bind_eq_bind, Option.bind_eq_some_iff,
      Option.map_eq_some_iff] at h
    obtain ⟨_, ⟨ms, hms, rfl⟩, h⟩ := h
    obtain ⟨hzero, hss⟩ := ih h
    obtain ⟨rfl, rfl⟩ : t = 0 ∧ ms = 0 := by
      simp only [saturate, forever, wordCount] at hzero
      omega
    refine ⟨rfl, fun x hx => ?_⟩
    rcases List.mem_cons.mp hx with rfl | hx
    · exact hms
    · exact hss x hx

theorem instant_of_duration {p : Pattern R} (h : p.duration? = some 0) : p.Instant := by
  unfold duration? at h
  split at h
  · cases h
  · exact (foldlM_duration_eq_zero h).2

end Pattern

theorem Effect.duration_of_expected {e : Effect R} (h : ¬0 < e.expected)
    (known : e.duration? ≠ none) : e.duration? = some 0 := by
  cases hd : e.duration? with
  | none => exact absurd hd known
  | some ms =>
    simp only [expected, hd, driveResult, indefinite] at h
    exact congrArg some (by omega)

/-- What a run of segments picks comes from segments of the pattern. -/
theorem Position.mem_run {α : Type} {p : Position R} {limit : Nat} {pick : Segment R → Option α}
    {x : α} (h : x ∈ p.run limit pick) : ∃ s ∈ p.pattern.segments, pick s = some x := by
  have htake : ∀ ss : List (Segment R), x ∈ run.takeSome pick ss → ∃ s ∈ ss, pick s = some x := by
    intro ss
    induction ss with
    | nil => exact nofun
    | cons s ss ih =>
      intro hx
      unfold run.takeSome at hx
      split at hx
      · rename_i y hy
        rcases List.mem_cons.mp hx with rfl | hx
        · exact ⟨s, List.mem_cons_self, hy⟩
        · obtain ⟨t, ht, hpick⟩ := ih hx
          exact ⟨t, List.mem_cons_of_mem s ht, hpick⟩
      · cases hx
  have hx : x ∈ run.takeSome pick (p.pattern.segments.drop p.index) := by
    unfold run at h
    split at h
    · exact h
    · exact List.mem_of_mem_take h
  obtain ⟨s, hs, hpick⟩ := htake _ hx
  exact ⟨s, List.mem_of_mem_drop hs, hpick⟩

/-! ## Drives -/

/-- Sweeps that end at once. -/
inductive Drive.Instant : Drive R → Prop
  | ramps {rs : List (Sweep R)} (h : ∀ r ∈ rs, r.ms = 0) : Instant (.ramps rs)
  | envelope {ps : List (ControlPoint R)} (h : ∀ p ∈ ps, p.ms = 0) : Instant (.envelope ps)

theorem Drive.Instant.promised {x : Drive R} (h : x.Instant) (d : Device R) :
    d.promised? x = some 0 := by
  cases h with
  | ramps h =>
    exact congrArg some (totalMs_eq_zero (by simpa using h))
  | envelope h =>
    exact congrArg some (totalMs_eq_zero (by simpa using h))

theorem ControlPoint.ms_ofSweeps {es : List (Sweep R)} (h : ∀ e ∈ es, e.ms = 0) :
    ∀ p ∈ ControlPoint.ofSweeps es, p.ms = 0 := by
  intro p hp
  cases es with
  | nil => cases hp
  | cons e es =>
    rcases List.mem_cons.mp hp with rfl | hp
    · rfl
    · obtain ⟨t, ht, rfl⟩ := List.mem_map.mp hp
      exact h t ht

/-- Hardware does not start a sweep that ends at once. -/
theorem Drive.Instant.result_le [Level R] {x : Drive R} (h : x.Instant) (d : Device R)
    (v i : Nat) : (d.drive v i x).value ≤ 0 := by
  unfold Device.drive
  split
  · simp [Device.driveNegotiated, h.promised d]
  · cases h with
    | envelope h => simp [Device.driveDirect]
    | ramps h =>
      rename_i rs
      have hms : (d.motor.duration? (.ramps rs)).getD 0 = 0 := totalMs_eq_zero (by simpa using h)
      unfold Device.driveDirect
      simp only [hms]
      split
      · exact Int.le_refl 0
      · cases d.motor.failure with
        | none => exact Int.le_refl 0
        | some e => exact e.driveResult_le

/-! ## Steps -/

/-- The task drives nothing, or plays a pattern that takes no time. -/
def Task.Mute : Task R → Prop
  | hold p | prebaked p | composition p | ramps p | envelope p => p.pattern.Instant
  | vendor _ => False
  | complete _ | rampOff _ _ | turnOff => True

/-- The step never made a successful drive, and will not make one. -/
def Step.Mute : Step R → Prop
  | start _ _ => False
  | lane l task => l.deadline = .idle ∧ l.reported = false ∧ task.Mute
  | finish => True

theorem Task.mute_ofPosition {p : Pattern R} (h : p.Instant) (i : Nat) :
    (Task.ofPosition p i).Mute := by
  unfold ofPosition
  dsimp only
  split <;> trivial

theorem Task.mute_ofEffect {e : Effect R} (h : e.duration? = some 0) : (Task.ofEffect e).Mute := by
  cases e with
  | pattern p => exact mute_ofPosition (Pattern.instant_of_duration h) 0
  | vendor => cases h

theorem Step.Mute.accept {x : Step R} (h : x.Mute) (a : ActuatorId) (step : Option Nat)
    (now : Nat) : (Scheduled.accept x a step now).2.Mute := by
  rcases Queue.accept_cases x a step now with heq | ⟨l, task, i, rfl, hi, -⟩
  · rwa [heq]
  · rw [h.1] at hi
    cases hi

section
variable [Level R]

namespace Lane

variable {l : Lane} {s : Stage R} {plan : Plan R}

/-- What playing a step leaves if it made no successful drive and never will. -/
structure Hushed (p : Played R) : Prop where
  result : p.result ≤ 0
  next : ∀ x ∈ p.next, x.Mute

omit [Level R] in
theorem Hushed.done {s : Stage R} : Hushed ⟨s, [], 0⟩ :=
  ⟨Int.le_refl 0, fun _ hx => (List.not_mem_nil hx).elim⟩

omit [Level R] in
theorem Hushed.followed {l : Lane} {s : Stage R} {start : StartTime} {task : Task R} {n : Int}
    (idle : l.deadline = .idle) (mute : task.Mute) (h : n ≤ 0) :
    Hushed (.followed s l start task n) := by
  refine ⟨h, fun x hx => ?_⟩
  rw [List.mem_singleton.mp hx]
  exact ⟨idle, rfl, mute⟩

theorem drive_of_instant {x : Drive R} (h : x.Instant) (l : Lane) (s : Stage R) (plan : Plan R) :
    (s.drive plan l x).1 ≤ 0 ∧ (s.drive plan l x).2.1 = l := by
  have hresult : (s.drive plan l x).1 ≤ 0 := by
    show (s.rig.drive l.actuator plan.vibration l.id x).1 ≤ 0
    unfold Rig.drive Rig.onDevice
    split
    · exact Int.le_refl 0
    · exact h.result_le _ _ _
  refine ⟨hresult, ?_⟩
  have hlane : (s.drive plan l x).2.1 = { l with
    deadline := l.deadline.afterDrive s.now plan.tuning.grace l.id (s.drive plan l x).1 } := rfl
  rw [hlane, Deadline.afterDrive_of_le _ _ _ _ hresult]

theorem playRun_hushed (idle : l.deadline = .idle) {p : Position R} (mute : p.pattern.Instant)
    {count : Nat} {x : Drive R} (h : count ≠ 0 → x.Instant) :
    Hushed (l.playRun plan s p count x) := by
  unfold playRun
  dsimp only
  have hnext := Task.mute_ofPosition mute
  split
  · exact .followed idle (hnext _) (Int.le_refl 0)
  · rename_i hcount
    obtain ⟨hresult, hlane⟩ := drive_of_instant (h hcount) l s plan
    exact .followed (by rw [hlane, idle]) (hnext _) hresult

theorem playHold_hushed (idle : l.deadline = .idle) (unreported : l.reported = false)
    {p : Position R} (mute : p.pattern.Instant) : Hushed (l.playHold plan s p) := by
  unfold playHold
  have hnext := Task.mute_ofPosition mute
  simp only [unreported, Bool.false_eq_true, false_and, if_false]
  split
  · rename_i h hseg
    have hms : h.ms = 0 := Option.some.inj (mute _ (List.mem_of_getElem? hseg))
    rw [if_pos hms]
    exact .followed idle (hnext _) (Int.le_refl 0)
  · exact .followed idle (hnext _) (Int.le_refl 0)

theorem playPrebaked_hushed (idle : l.deadline = .idle) {p : Position R}
    (mute : p.pattern.Instant) : Hushed (l.playPrebaked plan s p) := by
  unfold playPrebaked
  dsimp only
  split
  · rename_i b hseg
    cases mute _ (List.mem_of_getElem? hseg)
  · exact .followed idle (Task.mute_ofPosition mute _) (Int.le_refl 0)

theorem playComplete_hushed (idle : l.deadline = .idle) (unreported : l.reported = false)
    (cancelled : Bool) : Hushed (l.playComplete plan s cancelled) := by
  unfold playComplete
  have htime : l.rampDownTime plan.tuning s.now = 0 := by
    simp [rampDownTime, Deadline.remaining?, idle]
  simp only [unreported, Bool.false_eq_true, if_false, htime, Nat.zero_le, or_true, if_true]
  split
  · exact .done
  · exact .followed idle trivial (Int.le_refl 0)

theorem playRampOff_hushed (idle : l.deadline = .idle) (target delta : R) :
    Hushed (l.playRampOff plan s target delta) := by
  unfold playRampOff
  split
  · exact .done
  · dsimp only
    split <;> exact .followed idle trivial (Int.le_refl 0)

theorem play_hushed {task : Task R} (h : (Step.lane l task).Mute) (s : Stage R) (plan : Plan R) :
    Hushed (l.play plan s task) := by
  obtain ⟨idle, unreported, mute⟩ := h
  cases task with
  | hold p => exact playHold_hushed idle unreported mute
  | prebaked p => exact playPrebaked_hushed idle mute
  | composition p =>
    -- Nobody knows how long a primitive takes, so there is none in the pattern.
    refine playRun_hushed idle mute fun hcount => ?_
    obtain ⟨x, hx⟩ := List.exists_mem_of_length_pos (Nat.pos_of_ne_zero hcount)
    obtain ⟨s, hs, hpick⟩ := Position.mem_run hx
    have := mute s hs
    cases s <;> simp [Segment.duration?] at this hpick
  | ramps p =>
    refine playRun_hushed idle mute fun _ => .ramps fun x hx => ?_
    obtain ⟨s, hs, hpick⟩ := Position.mem_run hx
    have := mute s hs
    cases s <;> simp_all [Segment.duration?]
  | envelope p =>
    refine playRun_hushed idle mute fun _ => .envelope (ControlPoint.ms_ofSweeps fun x hx => ?_)
    obtain ⟨s, hs, hpick⟩ := Position.mem_run hx
    have := mute s hs
    cases s <;> simp_all [Segment.duration?]
  | vendor v => exact mute.elim
  | complete c => exact playComplete_hushed idle unreported c
  | rampOff target delta => exact playRampOff_hushed idle target delta
  | turnOff => exact .done

end Lane

/-! ## The opening step -/

namespace Stage

variable (s : Stage R) (plan : Plan R)

omit [Level R] in
theorem mute_issueFirst {es : List (ActuatorId × Effect R)}
    (h : ∀ x ∈ es, x.2.duration? = some 0) :
    ∀ x ∈ (s.issueFirst es).1, (Step.lane x.1 x.2.1).Mute := by
  induction es generalizing s with
  | nil => exact fun _ hx => (List.not_mem_nil hx).elim
  | cons e es ih =>
    intro x hx
    rcases List.mem_cons.mp hx with rfl | hx
    · exact ⟨rfl, rfl, Task.mute_ofEffect (h e List.mem_cons_self)⟩
    · exact ih _ (fun y hy => h y (List.mem_cons_of_mem e hy)) x hx

theorem mute_openEach {firsts : List (Lane × Task R × Effect R)}
    (h : ∀ x ∈ firsts, (Step.lane x.1 x.2.1).Mute) (next : List (Step R))
    (hnext : ∀ x ∈ next, x.Mute) (longest : Int) :
    ∀ x ∈ (s.openEach plan next longest firsts).next, x.Mute := by
  induction firsts generalizing s next longest with
  | nil => exact hnext
  | cons y ys ih =>
    obtain ⟨l, task, e⟩ := y
    have H := Lane.play_hushed (h _ List.mem_cons_self) s plan
    have happend : ∀ x ∈ next ++ (l.play plan s task).next, x.Mute := fun x hx =>
      (List.mem_append.mp hx).elim (hnext x) (H.next x)
    unfold openEach
    dsimp only
    split
    · exact happend
    · exact ih _ (fun x hx => h x (List.mem_cons_of_mem _ hx)) _ happend _

theorem mute_openAll {es : List (ActuatorId × Effect R)} (h : ∀ x ∈ es, x.2.duration? = some 0) :
    ∀ x ∈ (s.openAll plan es).next, x.Mute := by
  have hnil : ∀ x ∈ ([] : List (Step R)), x.Mute := fun _ hx => (List.not_mem_nil hx).elim
  unfold openAll
  split
  · exact hnil
  · have hfirsts := s.mute_issueFirst h
    generalize s.issueFirst es = issued at hfirsts ⊢
    dsimp only
    generalize (if 1 < es.length then _ else _ : Bool × Stage R) = prepared
    have heach : ∀ x ∈ (prepared.2.openEach plan [] 0 issued.1).next, x.Mute :=
      mute_openEach prepared.2 plan hfirsts [] hnil 0
    unfold Opened.close
    split
    · exact hnil
    · exact heach

/-- If the opening step starts nothing although no drive failed and it is known how long every
effect takes, then no step that it leaves ever makes a successful drive. -/
theorem mute_openVibration (v : Vibration R) (known : ∀ x ∈ s.effects v, x.2.duration? ≠ none)
    (h : (s.openVibration plan v).result = 0) :
    ∀ x ∈ (s.openVibration plan v).next, x.Mute := by
  obtain ⟨_, _, _, _, _, H⟩ := s.openAll_starts plan (s.effects v)
  have hresult : (s.openAll plan (s.effects v)).result = 0 := by
    rw [← result_openVibration, h]
  -- An effect that was expected to take time would have started something.
  have hzero : ∀ x ∈ s.effects v, x.2.duration? = some 0 := fun x hx => by
    refine Effect.duration_of_expected (fun hpos => ?_) (known x hx)
    have hall : ∀ y ∈ Deed.drives _, 0 ≤ y.2 := fun y hy => Int.not_lt.mp fun hneg => by
      have := H.failed.mpr ⟨y, hy, hneg⟩
      omega
    have := H.started.mpr ⟨hall, .inr ⟨x, hx, hpos⟩⟩
    omega
  rw [next_openVibration, h]
  simpa using s.mute_openAll plan hzero

end Stage
end
end Haptics
