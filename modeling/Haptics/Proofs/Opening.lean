import Haptics.Proofs.Teardown

/-!
# What the opening step does

The deeds of a start come in four parts: it may ask for a common start, it drives the actuators in
order, it stops those that started if one of them failed, and it settles what was prepared. All of
this is collected in `Stage.Starts`, which `Stage.openAll_starts` proves of every start.
-/

namespace Haptics

variable {R : Type}

/-! ## Calls to the group -/

/-- From one stage to another some deeds were done that touched no device. -/
structure Stage.Calls (ds : List (Deed R)) (s s' : Stage R) : Prop where
  history : s'.history = s.history ++ ds
  now : s'.now = s.now
  devices : s'.rig.devices = s.rig.devices
  startResult : s'.startResult = s.startResult

namespace Stage.Calls

variable {ds es : List (Deed R)} {s t u : Stage R}

theorem rfl : Calls [] s s := ⟨(List.append_nil _).symm, .refl _, .refl _, .refl _⟩

theorem trans (H : Calls ds s t) (K : Calls es t u) : Calls (ds ++ es) s u where
  history := by rw [K.history, H.history, List.append_assoc]
  now := K.now.trans H.now
  devices := K.devices.trans H.devices
  startResult := K.startResult.trans H.startResult

theorem isActive (H : Calls ds s t) (a : ActuatorId) : t.rig.isActive a = s.rig.isActive a :=
  Rig.isActive_congr (by rw [Rig.device?, H.devices, Rig.device?])

variable (s)

theorem tell (t : Telemetry) : Calls [.tell t] s (s.tell t) :=
  ⟨s.history_record _, .refl _, .refl _, .refl _⟩

theorem trigger (plan : Plan R) :
    Calls [.trigger (s.trigger plan).1] s (s.trigger plan).2 where
  history := by simp [Stage.trigger]; rfl
  now := Rig.onGroup_now s.rig (·.trigger plan.vibration)
  devices := Rig.onGroup_devices s.rig (·.trigger plan.vibration)
  startResult := .refl _

theorem cancelSync : ∃ ok, Calls [.cancelSync ok] s s.cancelSync := by
  refine ⟨s.rig.cancelSync.1, { history := ?_, now := ?_, devices := ?_, startResult := .refl _ }⟩
  · simp [Stage.cancelSync]; rfl
  · exact Rig.onGroup_now s.rig (·.cancelSync)
  · exact Rig.onGroup_devices s.rig (·.cancelSync)

end Stage.Calls

/-- How a start asks for being prepared: not at all, or once if the group allows it. -/
inductive Deed.Asks (g : Group) (required : Flags GroupCapability) (ids : List ActuatorId) :
    Bool → List (Deed R) → Prop
  | not : Asks g required ids false []
  | once (h : g.allows required ids = true) (ok : Bool) : Asks g required ids ok [.prepare ids ok]

theorem Stage.prepare_asks (s : Stage R) (required : Flags GroupCapability)
    (ids : List ActuatorId) : ∃ ds, Calls ds s (s.prepare required ids).2 ∧
      (s.prepare required ids).2.rig.group = s.rig.group ∧
      Deed.Asks s.rig.group required ids (s.prepare required ids).1 ds := by
  unfold prepare
  split
  · rename_i h
    refine ⟨_, ⟨?_, Rig.prepare_now .., Rig.prepare_devices .., rfl⟩, Rig.prepare_group ..,
      .once h _⟩
    simp; rfl
  · exact ⟨[], .rfl, rfl, .not⟩

/-- How a start settles what was prepared: it triggers it if that is due, and gives it up if it was
not triggered. -/
inductive Deed.Settles (due : Prop) : Bool → List (Deed R) → Prop
  | unprepared : Settles due false []
  | triggered (h : due) : Settles due true [.trigger true]
  | missed (h : due) (ok : Bool) : Settles due true [.trigger false, .cancelSync ok]
  | idle (h : ¬due) (ok : Bool) : Settles due true [.cancelSync ok]

namespace Deed

variable {g : Group} {required : Flags GroupCapability} {ids : List ActuatorId} {due : Prop}
  {prepared : Bool} {asked settled ds : List (Deed R)}

theorem Asks.drives (A : Asks g required ids prepared asked) : drives asked = [] := by
  cases A <;> rfl

theorem Settles.drives (S : Settles due prepared settled) : drives settled = [] := by
  cases S <;> rfl

theorem drives_of_stops (h : ∀ d ∈ ds, ∃ a, d = .stop a) : drives ds = [] := by
  refine List.filterMap_eq_nil_iff.mpr fun d hd => ?_
  obtain ⟨a, rfl⟩ := h d hd
  rfl

theorem drives_of_tells (h : ∀ d ∈ ds, ∃ t, d = .tell t) : drives ds = [] := by
  refine List.filterMap_eq_nil_iff.mpr fun d hd => ?_
  obtain ⟨t, rfl⟩ := h d hd
  rfl

end Deed

/-! ## Driving the actuators -/

/-- What driving actuators in order leaves: the deeds are theirs, no drive follows one that failed,
and a step waits for the report of every drive that was successful. -/
structure Stage.Drives (s : Stage R) (next : List (Step R)) (longest : Int)
    (firsts : List (Lane × Task R × Effect R)) (o : Opened R) (ds : List (Deed R))
    (more : List (Step R)) : Prop where
  history : o.stage.history = s.history ++ ds
  now : o.stage.now = s.now
  startResult : o.stage.startResult = s.startResult
  next : o.next = next ++ more
  own : ∀ d ∈ ds, ∃ x ∈ firsts, d.actuator? = some x.1.actuator
  order : ((Deed.drives ds).map (·.1)).Sublist (firsts.map (·.1.actuator))
  last : (Deed.drives ds).Pairwise fun x _ => 0 ≤ x.2
  lanes : ∀ x ∈ more, ∃ a, x.part = .lane a
  actuators : (more.filterMap Scheduled.actuator?).Sublist (firsts.map (·.1.actuator))
  active : ∀ a, o.stage.rig.isActive a = true →
    s.rig.isActive a = true ∨ ∃ n, 0 < n ∧ (a, n) ∈ Deed.drives ds
  pending : ∀ a n, (a, n) ∈ Deed.drives ds → 0 < n →
    ∃ l task, .lane l task ∈ more ∧ l.actuator = a ∧ l.deadline.isPending s.now = true
  failed : o.longest = none ↔ ∃ x ∈ Deed.drives ds, x.2 < 0
  longest : ∀ m, o.longest = some m → longest ≤ m ∧
    (0 < m ↔ 0 < longest ∨ (∃ x ∈ Deed.drives ds, 0 < x.2) ∨ ∃ x ∈ firsts, 0 < x.2.2.expected)

/-- If there was no drive the result is zero, else it is the answer to the only one. -/
theorem Deed.eq_of_mem_answers {ds : List (Deed R)} {a b : ActuatorId} {m n : Int}
    (one : drives ds = [] ∧ n = 0 ∨ drives ds = [(a, n)]) (h : (b, m) ∈ drives ds) :
    b = a ∧ m = n := by
  rcases one with ⟨hds, -⟩ | hds <;> rw [hds] at h
  · cases h
  · cases List.mem_singleton.mp h
    exact ⟨rfl, rfl⟩

theorem Deed.pos_iff_of_answers {ds : List (Deed R)} {a : ActuatorId} {n : Int}
    (one : drives ds = [] ∧ n = 0 ∨ drives ds = [(a, n)]) : 0 < n ↔ ∃ x ∈ drives ds, 0 < x.2 := by
  rcases one with ⟨hds, h0⟩ | hds
  · simp [hds, h0]
  · simp [hds]

private theorem pos_max (a b c : Int) : 0 < max a (max b c) ↔ 0 < a ∨ 0 < b ∨ 0 < c := by omega

namespace Stage.Drives

variable {s : Stage R} {next : List (Step R)} {longest : Int}

theorem nil : s.Drives next longest [] ⟨s, next, some longest⟩ [] [] where
  history := (List.append_nil _).symm
  now := rfl
  startResult := rfl
  next := (List.append_nil _).symm
  own := by simp
  order := by simp
  last := by simp
  lanes := by simp
  actuators := by simp
  active _ on := .inl on
  pending := by simp
  failed := by simp
  longest := by simp

variable [Level R] {plan : Plan R} {more : List (Step R)} {l : Lane} {task : Task R} {e : Effect R}
  {firsts : List (Lane × Task R × Effect R)} {o : Opened R} {p : Played R}

/-- An actuator failed, and the rest was not tried. -/
theorem halt (H : l.Plays plan s task p) (h : p.result < 0) : ∃ ds,
    s.Drives next longest ((l, task, e) :: firsts) ⟨p.stage, next ++ p.next, none⟩ ds p.next := by
  obtain ⟨ds, hds, hn⟩ := H.deeds
  replace hn : Deed.drives ds = [(l.actuator, p.result)] := hn.resolve_left fun hn => by omega
  exact ⟨ds, {
    history := hds.history
    now := hds.now
    startResult := hds.startResult
    next := rfl
    own := fun d hd => ⟨_, List.mem_cons_self, hds.own d hd⟩
    order := by simp [hn]
    last := by simp [hn]
    lanes := fun x hx => ⟨_, H.lanes x hx⟩
    actuators := by rcases H.actuators with rfl | h <;> simp [*]
    active := fun a on => (H.active on).imp_right fun h => by omega
    pending := by
      intro a n hm hpos
      rw [hn] at hm
      cases List.mem_singleton.mp hm
      omega
    failed := by simp [hn, h]
    longest := by simp }⟩

section
variable {ds rest : List (Deed R)}
  (one : Deed.drives ds = [] ∧ p.result = 0 ∨ Deed.drives ds = [(l.actuator, p.result)])
  (K : p.stage.Drives (next ++ p.next) (max longest (max p.result e.expected)) firsts o rest more)
include one K

omit [Level R] in
theorem last_cons (h : ¬p.result < 0) :
    (Deed.drives (ds ++ rest)).Pairwise fun x _ => 0 ≤ x.2 := by
  rw [Deed.drives_append, List.pairwise_append]
  refine ⟨?_, K.last, fun x hx y hy => ?_⟩
  · rcases one with ⟨hn, -⟩ | hn <;> simp [hn]
  · rw [(Deed.eq_of_mem_answers one hx).2]
    omega

theorem active_cons (H : l.Plays plan s task p) {a : ActuatorId}
    (on : o.stage.rig.isActive a = true) :
    s.rig.isActive a = true ∨ ∃ n, 0 < n ∧ (a, n) ∈ Deed.drives (ds ++ rest) := by
  rw [Deed.drives_append]
  rcases K.active a on with on | ⟨n, hpos, hm⟩
  · refine (H.active on).imp_right fun ⟨ha, hpos⟩ => ?_
    have hone := one.resolve_left fun hn => by omega
    exact ⟨_, hpos, List.mem_append_left _ (by simp [hone, ha])⟩
  · exact .inr ⟨n, hpos, List.mem_append_right _ hm⟩

theorem pending_cons (H : l.Plays plan s task p) (same : p.stage.now = s.now) {a : ActuatorId}
    {n : Int} (hm : (a, n) ∈ Deed.drives (ds ++ rest)) (hpos : 0 < n) :
    ∃ l' task', .lane l' task' ∈ p.next ++ more ∧ l'.actuator = a ∧
      l'.deadline.isPending s.now = true := by
  rw [Deed.drives_append] at hm
  rcases List.mem_append.mp hm with hm | hm
  · obtain ⟨rfl, rfl⟩ := Deed.eq_of_mem_answers one hm
    obtain ⟨l', task', hmem, hl'⟩ := H.pending hpos
    exact ⟨l', task', List.mem_append_left _ hmem, hl'⟩
  · obtain ⟨l', task', hmem, hl'⟩ := K.pending a n hm hpos
    exact ⟨l', task', List.mem_append_right _ hmem, same ▸ hl'⟩

omit [Level R] in
theorem failed_cons (h : ¬p.result < 0) :
    o.longest = none ↔ ∃ x ∈ Deed.drives (ds ++ rest), x.2 < 0 := by
  rw [K.failed, Deed.drives_append]
  constructor
  · rintro ⟨x, hx, hneg⟩
    exact ⟨x, List.mem_append_right _ hx, hneg⟩
  · rintro ⟨x, hx, hneg⟩
    refine ⟨x, (List.mem_append.mp hx).resolve_left fun hx => h ?_, hneg⟩
    rwa [← (Deed.eq_of_mem_answers one hx).2]

omit [Level R] in
theorem longest_cons {m : Int} (hm : o.longest = some m) : longest ≤ m ∧
    (0 < m ↔ 0 < longest ∨ (∃ x ∈ Deed.drives (ds ++ rest), 0 < x.2) ∨
      ∃ x ∈ (l, task, e) :: firsts, 0 < x.2.2.expected) := by
  obtain ⟨hle, hiff⟩ := K.longest m hm
  refine ⟨by omega, hiff.trans ?_⟩
  rw [Deed.drives_append]
  simp only [List.mem_append, List.mem_cons, or_and_right, exists_or, exists_eq_left,
    ← Deed.pos_iff_of_answers one, pos_max, or_assoc, or_left_comm]

end

/-- An actuator did not fail, and the others follow. -/
theorem cons {rest : List (Deed R)} (H : l.Plays plan s task p) (h : ¬p.result < 0)
    (K : p.stage.Drives (next ++ p.next) (max longest (max p.result e.expected)) firsts o rest
      more) :
    ∃ ds, s.Drives next longest ((l, task, e) :: firsts) o ds (p.next ++ more) := by
  obtain ⟨ds, hds, one⟩ := H.deeds
  refine ⟨ds ++ rest, {
    history := by rw [K.history, hds.history, List.append_assoc]
    now := K.now.trans hds.now
    startResult := K.startResult.trans hds.startResult
    next := by rw [K.next, List.append_assoc]
    own := ?own
    order := ?order
    last := last_cons one K h
    lanes := ?lanes
    actuators := ?actuators
    active := fun _ on => active_cons one K H on
    pending := fun _ _ hm hpos => pending_cons one K H hds.now hm hpos
    failed := failed_cons one K h
    longest := fun _ hm => longest_cons one K hm }⟩
  case own =>
    intro d hd
    rcases List.mem_append.mp hd with hd | hd
    · exact ⟨_, List.mem_cons_self, hds.own d hd⟩
    · obtain ⟨x, hx, hx'⟩ := K.own d hd
      exact ⟨x, List.mem_cons_of_mem _ hx, hx'⟩
  case order =>
    rcases one with ⟨hn, -⟩ | hn
    · simpa [hn] using K.order.cons _
    · simpa [hn] using K.order
  case lanes =>
    intro x hx
    rcases List.mem_append.mp hx with hx | hx
    · exact ⟨_, H.lanes x hx⟩
    · exact K.lanes x hx
  case actuators =>
    rw [List.filterMap_append]
    rcases H.actuators with rfl | h
    · exact K.actuators.cons _
    · rw [h]
      exact K.actuators.cons_cons _

end Stage.Drives

/-- Driving actuators in order stops at the first that fails. -/
theorem Stage.openEach_drives [Level R] (s : Stage R) (plan : Plan R) (next : List (Step R))
    (longest : Int) (firsts : List (Lane × Task R × Effect R)) : ∃ ds more,
      s.Drives next longest firsts (s.openEach plan next longest firsts) ds more := by
  induction firsts generalizing s next longest with
  | nil => exact ⟨_, _, .nil⟩
  | cons x xs ih =>
    obtain ⟨l, task, e⟩ := x
    have H := l.play_plays s plan task
    unfold openEach
    dsimp only
    split
    · rename_i h
      obtain ⟨ds, hds⟩ : ∃ ds, s.Drives next longest ((l, task, e) :: xs) _ ds _ :=
        Drives.halt H h
      exact ⟨ds, _, hds⟩
    · rename_i h
      obtain ⟨rest, more, K⟩ := ih (l.play plan s task).stage (next ++ (l.play plan s task).next)
        (max longest (max (l.play plan s task).result e.expected))
      obtain ⟨ds, hds⟩ := Drives.cons H h K
      exact ⟨ds, _, hds⟩

/-! ## A start as a whole -/

theorem Stage.issueFirst_snd (s : Stage R) (es : List (ActuatorId × Effect R)) :
    (s.issueFirst es).2 = { s with nextStep := s.nextStep + es.length } := by
  induction es generalizing s with
  | nil => rfl
  | cons x es ih =>
    simp only [issueFirst, ih, List.length_cons]
    rw [Nat.add_assoc, Nat.add_comm 1]

theorem Stage.unreported_issueFirst (s : Stage R) (es : List (ActuatorId × Effect R)) :
    ∀ x ∈ (s.issueFirst es).1, x.1.reported = false := by
  induction es generalizing s with
  | nil => exact fun _ hx => (List.not_mem_nil hx).elim
  | cons e es ih =>
    intro x hx
    rcases List.mem_cons.mp hx with rfl | hx
    · rfl
    · exact ih _ x hx

theorem Stage.issueFirst_fst (s : Stage R) (es : List (ActuatorId × Effect R)) :
    (s.issueFirst es).1.map (fun x => (x.1.actuator, x.2.2)) = es := by
  induction es generalizing s with
  | nil => rfl
  | cons x es ih => simp only [issueFirst, List.map_cons, ih]

/-- The record of a start, in its four parts: `asked`, `driven`, `undone` and `settled`. -/
structure Stage.Starts (s : Stage R) (es : List (ActuatorId × Effect R)) (p : Played R)
    (prepared : Bool) (asked driven undone settled : List (Deed R)) : Prop where
  history : p.stage.history = s.history ++ (asked ++ driven ++ undone ++ settled)
  now : p.stage.now = s.now
  startResult : p.stage.startResult = s.startResult
  asks : Deed.Asks s.rig.group (requiredSync (es.map (·.2))) (es.map (·.1)) prepared asked
  own : ∀ d ∈ driven, ∃ x ∈ es, d.actuator? = some x.1
  order : ((Deed.drives driven).map (·.1)).Sublist (es.map (·.1))
  last : (Deed.drives driven).Pairwise fun x _ => 0 ≤ x.2
  /-- What is undone is undone in reverse order. -/
  reverse : ∃ as : List ActuatorId, undone = (as.map .stop).reverse ∧ as.Sublist (es.map (·.1))
  unwinds : p.result < 0 → p.next = [] ∧
    ∀ a n, (a, n) ∈ Deed.drives driven → 0 < n → .stop a ∈ undone
  active : ∀ a, p.stage.rig.isActive a = true →
    s.rig.isActive a = true ∨ ∃ n, 0 < n ∧ (a, n) ∈ Deed.drives driven
  settles : Deed.Settles (0 < p.result) prepared settled
  lanes : ∀ x ∈ p.next, ∃ a, x.part = .lane a
  failed : p.result < 0 ↔ ∃ x ∈ Deed.drives driven, x.2 < 0
  started : 0 < p.result ↔ (∀ x ∈ Deed.drives driven, 0 ≤ x.2) ∧
    ((∃ x ∈ Deed.drives driven, 0 < x.2) ∨ ∃ x ∈ es, 0 < x.2.expected)
  held : ∀ a n, (a, n) ∈ Deed.drives driven → 0 < n → .lane a ∈ p.next.map Step.part ∨
    Deed.leftOn a (driven ++ undone) = false ∧ p.stage.rig.isActive a = false

theorem Stage.Starts.stops {s : Stage R} {es : List (ActuatorId × Effect R)} {p : Played R}
    {prepared : Bool} {asked driven undone settled : List (Deed R)}
    (H : s.Starts es p prepared asked driven undone settled) : ∀ d ∈ undone, ∃ a, d = .stop a := by
  obtain ⟨as, rfl, -⟩ := H.reverse
  intro d hd
  obtain ⟨a, -, rfl⟩ := List.mem_map.mp (List.mem_reverse.mp hd)
  exact ⟨a, rfl⟩

section
variable [Level R]

theorem Opened.close_settles (o : Opened R) (plan : Plan R) (prepared : Bool) {m : Int}
    (h : o.longest = some m) : ∃ t settled, Stage.Calls settled o.stage t ∧
      o.close plan prepared = ⟨t, o.next, m⟩ ∧ Deed.Settles (0 < m) prepared settled := by
  unfold close
  rw [h]
  dsimp only
  cases prepared with
  | false => exact ⟨_, _, .rfl, by simp, .unprepared⟩
  | true =>
    by_cases hm : 0 < m
    · have htrigger := Stage.Calls.trigger o.stage plan
      cases htr : (o.stage.trigger plan).1 with
      | true =>
        rw [htr] at htrigger
        exact ⟨_, _, htrigger, by simp [hm, htr], .triggered hm⟩
      | false =>
        rw [htr] at htrigger
        obtain ⟨ok, hcancel⟩ := Stage.Calls.cancelSync (o.stage.trigger plan).2
        exact ⟨_, _, htrigger.trans hcancel, by simp [hm, htr], .missed hm ok⟩
    · obtain ⟨ok, hcancel⟩ := Stage.Calls.cancelSync o.stage
      exact ⟨_, _, hcancel, by simp [hm], .idle hm ok⟩

theorem Opened.close_failed (o : Opened R) (plan : Plan R) (prepared : Bool)
    (h : o.longest = none) : ∃ t settled,
      Stage.Calls settled (o.stage.tearDown plan o.next.reverse) t ∧
      o.close plan prepared = ⟨t, [], -1⟩ ∧ Deed.Settles (0 < (-1 : Int)) prepared settled := by
  unfold close
  rw [h]
  cases prepared with
  | false => exact ⟨_, _, .rfl, rfl, .unprepared⟩
  | true =>
    obtain ⟨ok, hcancel⟩ := Stage.Calls.cancelSync (o.stage.tearDown plan o.next.reverse)
    exact ⟨_, _, hcancel, rfl, .idle (by decide) ok⟩

omit [Level R] in
/-- Tearing down steps of actuators stops some of these actuators, in the order of the steps. -/
theorem Step.undoing_stops {steps : List (Step R)} (h : ∀ x ∈ steps, ∃ a, x.part = .lane a)
    (caller : Caller) (now : Nat) : ∃ as : List ActuatorId,
      steps.filterMap (undoing? caller now) = as.map .stop ∧
        as.Sublist (steps.filterMap Scheduled.actuator?) := by
  induction steps with
  | nil => exact ⟨[], rfl, .slnil⟩
  | cons x xs ih =>
    obtain ⟨as, has, hsub⟩ := ih fun y hy => h y (List.mem_cons_of_mem x hy)
    obtain ⟨a, ha⟩ := h x List.mem_cons_self
    cases x with
    | lane l task =>
      simp only [List.filterMap_cons, undoing?, Scheduled.actuator?]
      split
      · exact ⟨as, has, hsub.cons _⟩
      · rename_i d hd
        split at hd <;> cases hd
        exact ⟨l.actuator :: as, congrArg _ has, hsub.cons_cons _⟩
    | _ => cases ha

omit [Level R] in
theorem Stage.Starts.nothing (s : Stage R) : s.Starts [] ⟨s, [], 0⟩ false [] [] [] [] where
  history := by simp
  now := rfl
  startResult := rfl
  asks := .not
  own := by simp
  order := by simp
  last := by simp
  reverse := ⟨[], rfl, .slnil⟩
  unwinds := by simp
  active _ on := .inl on
  settles := .unprepared
  lanes := by simp
  failed := by simp
  started := by simp
  held := by simp

omit [Level R] in
/-- The group refuses to prepare fewer than two actuators, so it makes no difference to ask. -/
theorem Stage.prepare_of_length (s : Stage R) (required : Flags GroupCapability)
    (es : List (ActuatorId × Effect R)) : (if 1 < es.length then s.prepare required (es.map (·.1))
      else (false, s)) = s.prepare required (es.map (·.1)) := by
  split
  · rfl
  · rename_i h
    have hallows : s.rig.group.allows required (es.map (·.1)) = false := by
      simp [Group.allows, Nat.not_le.mpr (Nat.lt_succ_of_le (Nat.not_lt.mp h))]
    simp [prepare, hallows]

/-! ### What the parts of a start say together -/

namespace Stage.Drives

variable {s t : Stage R} {firsts : List (Lane × Task R × Effect R)}
  {es : List (ActuatorId × Effect R)} {o : Opened R} {asked driven : List (Deed R)}
  {more : List (Step R)} {prepared : Bool}

omit [Level R] in
theorem actuators_eq (hfirsts : firsts.map (fun x => (x.1.actuator, x.2.2)) = es) :
    firsts.map (·.1.actuator) = es.map (·.1) := by simp [← hfirsts]

omit [Level R] in
theorem own_effects (D : t.Drives [] 0 firsts o driven more)
    (hfirsts : firsts.map (fun x => (x.1.actuator, x.2.2)) = es) :
    ∀ d ∈ driven, ∃ x ∈ es, d.actuator? = some x.1 := by
  intro d hd
  obtain ⟨x, hx, hown⟩ := D.own d hd
  exact ⟨(x.1.actuator, x.2.2), hfirsts ▸ List.mem_map_of_mem hx, hown⟩

omit [Level R] in
theorem expected_iff (hfirsts : firsts.map (fun x => (x.1.actuator, x.2.2)) = es) :
    (∃ x ∈ firsts, 0 < x.2.2.expected) ↔ ∃ x ∈ es, 0 < x.2.expected := by
  rw [← hfirsts]
  constructor
  · rintro ⟨x, hx, h⟩
    exact ⟨_, List.mem_map_of_mem hx, h⟩
  · rintro ⟨y, hy, h⟩
    obtain ⟨x, hx, rfl⟩ := List.mem_map.mp hy
    exact ⟨x, hx, h⟩

omit [Level R] in
/-- A step waits for the report of every successful drive, so a teardown stops the actuator. -/
theorem stops (D : t.Drives [] 0 firsts o driven more) {a : ActuatorId} {n : Int}
    (hm : (a, n) ∈ Deed.drives driven) (pos : 0 < n) :
    ∃ x ∈ more, Step.stops o.stage.now a x = true := by
  obtain ⟨l, task, hmem, ha, hp⟩ := D.pending a n hm pos
  exact ⟨_, hmem, by simp [Step.stops, ha, D.now, hp]⟩

/-- A start that failed is undone. -/
theorem close_failed (D : t.Drives [] 0 firsts o driven more) (plan : Plan R)
    (hfirsts : firsts.map (fun x => (x.1.actuator, x.2.2)) = es) (C : Calls asked s t)
    (A : Deed.Asks s.rig.group (requiredSync (es.map (·.2))) (es.map (·.1)) prepared asked)
    (h : o.longest = none) : ∃ undone settled,
      s.Starts es (o.close plan prepared) prepared asked driven undone settled := by
  have hnext : o.next = more := D.next
  have hids := actuators_eq hfirsts
  obtain ⟨u, settled, K, heq, hsettled⟩ := o.close_failed plan prepared h
  obtain ⟨as, has, hsub⟩ := Step.undoing_stops D.lanes plan.caller o.stage.now
  rw [heq]
  refine ⟨o.next.reverse.filterMap (Step.undoing? plan.caller o.stage.now), settled, {
    history := by
      rw [K.history, Stage.history_tearDown, D.history, C.history]
      simp only [List.append_assoc]
    now := by rw [K.now, tearDown_now, D.now, C.now]
    startResult := by rw [K.startResult, (o.stage.tearDown_frame plan _).1, D.startResult,
      C.startResult]
    asks := A
    own := D.own_effects hfirsts
    order := hids ▸ D.order
    last := D.last
    reverse := ⟨as, by rw [List.filterMap_reverse, hnext, has], hids ▸ hsub.trans D.actuators⟩
    unwinds := fun _ => ⟨rfl, ?unwinds⟩
    active := ?active
    settles := hsettled
    lanes := by simp
    failed := ⟨fun _ => D.failed.mp h, fun _ => Int.negSucc_lt_zero 0⟩
    started := ?started
    held := ?held }⟩
  case unwinds =>
    intro a n hm hpos
    obtain ⟨x, hx, hstop⟩ := D.stops hm hpos
    refine List.mem_filterMap.mpr ⟨x, List.mem_reverse.mpr (hnext ▸ hx), ?_⟩
    cases x with
    | lane l task =>
      simp only [Step.stops, Bool.and_eq_true, decide_eq_true_eq] at hstop
      rw [Step.undoing?, if_pos hstop.2, hstop.1]
    | _ => cases hstop
  case active =>
    intro a on
    rw [K.isActive, isActive_tearDown, Bool.and_eq_true] at on
    exact C.isActive a ▸ D.active a on.1
  case started =>
    obtain ⟨x, hx, hneg⟩ := D.failed.mp h
    refine ⟨fun h => absurd h ?_, fun h => absurd hneg (Int.not_lt.mpr (h.1 x hx))⟩
    exact Int.not_lt.mpr (Int.le_of_lt (Int.negSucc_lt_zero 0))
  case held =>
    intro a n hm hpos
    have hstop : o.next.reverse.any (Step.stops o.stage.now a) = true := by
      rw [List.any_reverse, hnext]
      exact List.any_eq_true.mpr (D.stops hm hpos)
    exact .inr ⟨by rw [Deed.leftOn_undoing, hstop, Bool.not_true, Bool.and_false],
      by rw [K.isActive, isActive_tearDown, hstop, Bool.not_true, Bool.and_false]⟩

/-- A start that did not fail is settled, and nothing is undone. -/
theorem close_settled (D : t.Drives [] 0 firsts o driven more) (plan : Plan R)
    (hfirsts : firsts.map (fun x => (x.1.actuator, x.2.2)) = es) (C : Calls asked s t)
    (A : Deed.Asks s.rig.group (requiredSync (es.map (·.2))) (es.map (·.1)) prepared asked)
    {m : Int} (h : o.longest = some m) : ∃ undone settled,
      s.Starts es (o.close plan prepared) prepared asked driven undone settled := by
  have hnext : o.next = more := D.next
  obtain ⟨u, settled, K, heq, hsettled⟩ := o.close_settles plan prepared h
  obtain ⟨hm, hiff⟩ := D.longest m h
  have hall : ∀ x ∈ Deed.drives driven, 0 ≤ x.2 := fun x hx => by
    refine Int.not_lt.mp fun hneg => ?_
    rw [D.failed.mpr ⟨x, hx, hneg⟩] at h
    cases h
  rw [heq]
  refine ⟨[], settled, {
    history := by
      rw [K.history, D.history, C.history]
      simp only [List.append_assoc, List.append_nil]
    now := by rw [K.now, D.now, C.now]
    startResult := by rw [K.startResult, D.startResult, C.startResult]
    asks := A
    own := D.own_effects hfirsts
    order := actuators_eq hfirsts ▸ D.order
    last := D.last
    reverse := ⟨[], rfl, List.nil_sublist _⟩
    unwinds := fun h => absurd h (Int.not_lt.mpr hm)
    active := fun a on => C.isActive a ▸ D.active a (K.isActive a ▸ on)
    settles := hsettled
    lanes := hnext ▸ D.lanes
    failed := ?failed
    started := ?started
    held := ?held }⟩
  case failed =>
    constructor
    · exact fun h => absurd h (Int.not_lt.mpr hm)
    · rintro ⟨x, hx, hneg⟩
      exact absurd hneg (Int.not_lt.mpr (hall x hx))
  case started =>
    rw [hiff, expected_iff hfirsts]
    exact ⟨fun h => ⟨hall, h.resolve_left (Int.lt_irrefl 0)⟩, fun h => .inr h.2⟩
  case held =>
    intro a n hmem hpos
    obtain ⟨l, task, hmem, ha, -⟩ := D.pending a n hmem hpos
    exact .inl (List.mem_map.mpr ⟨.lane l task, hnext ▸ hmem, congrArg Part.lane ha⟩)

theorem close (D : t.Drives [] 0 firsts o driven more) (plan : Plan R)
    (hfirsts : firsts.map (fun x => (x.1.actuator, x.2.2)) = es) (C : Calls asked s t)
    (A : Deed.Asks s.rig.group (requiredSync (es.map (·.2))) (es.map (·.1)) prepared asked) :
    ∃ undone settled, s.Starts es (o.close plan prepared) prepared asked driven undone settled := by
  cases h : o.longest with
  | none => exact D.close_failed plan hfirsts C A h
  | some m => exact D.close_settled plan hfirsts C A h

end Stage.Drives

theorem Stage.openAll_starts (s : Stage R) (plan : Plan R) (es : List (ActuatorId × Effect R)) :
    ∃ prepared asked driven undone settled,
      s.Starts es (s.openAll plan es) prepared asked driven undone settled := by
  unfold openAll
  split
  · rename_i h
    rw [List.isEmpty_iff.mp h]
    exact ⟨_, _, _, _, _, .nothing s⟩
  · have hfirsts := s.issueFirst_fst es
    have hissue := s.issueFirst_snd es
    generalize s.issueFirst es = issued at hfirsts hissue ⊢
    obtain ⟨firsts, s₁⟩ := issued
    dsimp only at hfirsts hissue ⊢
    rw [prepare_of_length]
    obtain ⟨asked, C, -, A⟩ := s₁.prepare_asks (requiredSync (es.map (·.2))) (es.map (·.1))
    obtain ⟨driven, more, D⟩ := openEach_drives
      (s₁.prepare (requiredSync (es.map (·.2))) (es.map (·.1))).2 plan [] 0 firsts
    subst hissue
    exact ⟨_, asked, driven, D.close plan hfirsts ⟨C.history, C.now, C.devices, C.startResult⟩ A⟩

omit [Level R] in
theorem Stage.Starts.drives {s : Stage R} {es : List (ActuatorId × Effect R)} {p : Played R}
    {prepared : Bool} {asked driven undone settled : List (Deed R)}
    (H : s.Starts es p prepared asked driven undone settled) :
    Deed.drives p.stage.history = Deed.drives s.history ++ Deed.drives driven := by
  rw [H.history]
  simp only [Deed.drives_append, H.asks.drives, Deed.drives_of_stops H.stops, H.settles.drives,
    List.nil_append, List.append_nil]

/-! ## The opening step -/

namespace Stage

variable (s : Stage R) (plan : Plan R) (v : Vibration R)

@[simp] theorem result_openVibration :
    (s.openVibration plan v).result = (s.openAll plan (s.effects v)).result := by
  unfold openVibration
  dsimp only
  split <;> rfl

theorem history_openVibration : (s.openVibration plan v).stage.history =
    (s.openAll plan (s.effects v)).stage.history ++
      if 0 < (s.openVibration plan v).result then
        [.tell (.on plan.caller (announced (s.openVibration plan v).result))]
      else [] := by
  rw [result_openVibration]
  unfold openVibration
  dsimp only
  split
  · exact history_record _ _
  · exact (List.append_nil _).symm

/-- After the start, the opening step does nothing but telling. -/
theorem history_openVibration_tells : ∃ told, (s.openVibration plan v).stage.history =
    (s.openAll plan (s.effects v)).stage.history ++ told ∧ ∀ d ∈ told, ∃ t, d = .tell t := by
  refine ⟨_, s.history_openVibration plan v, fun d hd => ?_⟩
  split at hd
  · exact ⟨_, List.mem_singleton.mp hd⟩
  · cases hd

theorem drives_openVibration : Deed.drives (s.openVibration plan v).stage.history =
    Deed.drives (s.openAll plan (s.effects v)).stage.history := by
  obtain ⟨told, hhistory, htells⟩ := s.history_openVibration_tells plan v
  rw [hhistory, Deed.drives_append, Deed.drives_of_tells htells, List.append_nil]

theorem next_openVibration : (s.openVibration plan v).next =
    (s.openAll plan (s.effects v)).next ++
      if 0 < (s.openVibration plan v).result then [.finish] else [] := by
  rw [result_openVibration]
  unfold openVibration
  dsimp only
  split
  · rfl
  · exact (List.append_nil _).symm

theorem startResult_openVibration :
    (s.openVibration plan v).stage.startResult = some (s.openVibration plan v).result := by
  rw [result_openVibration]
  unfold openVibration
  dsimp only
  split <;> rfl

theorem rig_openVibration :
    (s.openVibration plan v).stage.rig = (s.openAll plan (s.effects v)).stage.rig := by
  unfold openVibration
  dsimp only
  split <;> rfl

end Stage
end
end Haptics
