import Haptics.Proofs.Lists
import Haptics.Proofs.Starting
import Mathlib.Data.List.Infix

/-!
# Single flight

At any time an actuator has at most one step in the queue, all steps have different numbers, and
the next number is larger than all of them (`Step.Flight`). A step is taken out before it is played,
and a play leaves at most one step, either for the same actuator under the same number or under the
next one.
-/

namespace Haptics

variable {R : Type}

/-! ## Vibrations for distinct actuators -/

namespace Vibration

/-- The actuators that a vibration is for, given those that are available. -/
def actuators (v : Vibration R) (available : List ActuatorId) : List ActuatorId :=
  (v.expand available).map (·.1)

theorem map_setEntry (id : ActuatorId) (e : Effect R) (xs : List (ActuatorId × Effect R)) :
    (setEntry id e xs).map (·.1) =
      if id ∈ xs.map (·.1) then xs.map (·.1) else xs.map (·.1) ++ [id] := by
  induction xs with
  | nil => rfl
  | cons x xs ih =>
    unfold setEntry
    by_cases hx : x.1 = id
    · simp [hx]
    · rw [if_neg hx, List.map_cons, ih]
      by_cases hid : id ∈ xs.map (·.1) <;> simp_all [Ne.symm hx]

/-- A stereo vibration that is put together entry by entry is for distinct actuators. -/
theorem distinct_withActuator (entries : List (ActuatorId × Effect R))
    (available : List ActuatorId) :
    ((entries.foldl (fun v x => v.withActuator x.1 x.2) (stereo [])).actuators
      available).Nodup := by
  have hfold : ∀ xs : List (ActuatorId × Effect R), (xs.map (·.1)).Nodup →
      ((entries.foldl (fun v x => v.withActuator x.1 x.2) (stereo xs)).actuators
        available).Nodup := by
    induction entries with
    | nil => exact fun xs h => h
    | cons y ys ih =>
      intro xs h
      refine ih (setEntry y.1 y.2 xs) ?_
      rw [map_setEntry]
      split
      · exact h
      · rename_i hy
        refine List.nodup_append.mpr ⟨h, by simp, ?_⟩
        rintro a ha b hb rfl
        exact hy (List.mem_singleton.mp hb ▸ ha)
  exact hfold [] List.nodup_nil

end Vibration

/-! ## Steps in flight -/

namespace Step

theorem actuator_accept (x : Step R) (a : ActuatorId) (step : Option Nat) (now : Nat) :
    Scheduled.actuator? (Scheduled.accept x a step now).2 = Scheduled.actuator? x := by
  rcases Queue.accept_cases x a step now with h | ⟨l, task, i, rfl, -, -, -, h⟩ <;> rw [h]
  rfl

theorem number_accept (x : Step R) (a : ActuatorId) (step : Option Nat) (now : Nat) :
    (Scheduled.accept x a step now).2.number? = x.number? := by
  rcases Queue.accept_cases x a step now with h | ⟨l, task, i, rfl, -, -, -, h⟩ <;> rw [h]
  rfl

theorem length_eq (xs : List (Step R)) : xs.length = (xs.filterMap Scheduled.actuator?).length +
    ((xs.map part).count .opening + (xs.map part).count .closing) := by
  induction xs with
  | nil => rfl
  | cons x xs ih => cases x <;> simp [part, Scheduled.actuator?, ih] <;> omega

/-- No two of some steps are of one actuator or have one number, their actuators are among `ids`,
and their numbers are below `k`. -/
structure Flight (ids : List ActuatorId) (k : Nat) (xs : List (Step R)) : Prop where
  actuators : (xs.filterMap Scheduled.actuator?).Subperm ids
  numbers : (xs.filterMap number?).Subperm (List.range k)

end Step

namespace Step.Flight

variable {ids : List ActuatorId} {k : Nat} {xs ys : List (Step R)} {l l' : Lane}
  {task task' : Task R}

theorem subperm (F : Flight ids k xs) (h : ys.Subperm xs) : Flight ids k ys where
  actuators := (h.filterMap _).trans F.actuators
  numbers := (h.filterMap _).trans F.numbers

theorem tail {x : Step R} (F : Flight ids k (x :: xs)) : Flight ids k xs :=
  F.subperm (List.sublist_cons_self x xs).subperm

theorem closing (F : Flight ids k xs) : Flight ids k (.finish :: xs) := ⟨F.actuators, F.numbers⟩

theorem again (F : Flight ids k (.lane l task :: xs)) (same : l'.actuator = l.actuator)
    (id : l'.id = l.id) : Flight ids k (.lane l' task' :: xs) := by
  obtain ⟨actuators, numbers⟩ := F
  simp only [List.filterMap_cons, Scheduled.actuator?, number?] at actuators numbers
  rw [← same] at actuators
  rw [← id] at numbers
  exact ⟨actuators, numbers⟩

/-- A step may be replaced by one for the same actuator under the next number. -/
theorem next (F : Flight ids k (.lane l task :: xs)) (same : l'.actuator = l.actuator)
    (id : l'.id = k) : Flight ids (k + 1) (.lane l' task' :: xs) := by
  constructor
  · have hactuators := F.actuators
    simp only [List.filterMap_cons, Scheduled.actuator?] at hactuators ⊢
    rwa [same]
  · simp only [List.filterMap_cons, number?, id, List.range_succ]
    exact ((List.subperm_cons k).mpr F.tail.numbers).trans
      (List.perm_append_singleton k (List.range k)).symm.subperm

theorem heard {now : Nat} {q q' : Queue (Step R)} (F : Flight ids k q.items)
    (h : Run.Heard now q q') : Flight ids k q'.items := by
  have hactuators := (h.map Scheduled.actuator? fun x a i => actuator_accept x a i now).filterMap id
  have hnumbers := (h.map number? fun x a i => number_accept x a i now).filterMap id
  rw [List.filterMap_map, List.filterMap_map] at hactuators hnumbers
  exact ⟨hactuators.subperm.trans F.actuators, hnumbers.subperm.trans F.numbers⟩

theorem remnants (F : Flight ids k xs) (now : Nat) :
    Flight ids (k + (xs.filterMap Scheduled.actuator?).length) (Step.remnants now k xs) := by
  constructor
  · rw [actuators_remnants]
    exact F.actuators
  · rw [numbers_remnants, List.range_eq_range', ← List.range'_append_1, Nat.zero_add]
    exact (List.sublist_append_right _ _).subperm

end Step.Flight

/-! ## Playing a step -/

section
variable [Level R]

theorem Lane.Plays.flight {l : Lane} {plan : Plan R} {s : Stage R} {task : Task R} {p : Played R}
    (H : l.Plays plan s task p) {ids : List ActuatorId} {xs : List (Step R)}
    (F : Step.Flight ids s.nextStep (.lane l task :: xs)) :
    Step.Flight ids p.stage.nextStep (p.next ++ xs) := by
  cases H with
  | halt => exact F.tail
  | wait _ early back =>
    have hd := turnBackOn_eq early.1 back
    rw [← hd.nextStep] at F
    exact F.again hd.same hd.id
  | follow hd =>
    rw [← hd.nextStep] at F
    exact F.next hd.same rfl

/-! ## The opening step -/

namespace Deed

omit [Level R] in
theorem answer_eq_none {d : Deed R} (h : d.actuator? = none) : d.answer? = none := by
  cases d with
  | drive => cases h
  | _ => rfl

omit [Level R] in
theorem Asks.actuator {g : Group} {required : Flags GroupCapability} {ids : List ActuatorId}
    {prepared : Bool} {asked : List (Deed R)} (A : Asks g required ids prepared asked) :
    ∀ d ∈ asked, d.actuator? = none := by
  cases A <;> simp [actuator?]

omit [Level R] in
theorem Settles.actuator {due : Prop} {prepared : Bool} {settled : List (Deed R)}
    (S : Settles due prepared settled) : ∀ d ∈ settled, d.actuator? = none := by
  cases S <;> simp [actuator?]

end Deed

namespace Stage

variable (s : Stage R) (plan : Plan R)

omit [Level R] in
@[simp] theorem nextStep_prepare (required : Flags GroupCapability) (ids : List ActuatorId) :
    (s.prepare required ids).2.nextStep = s.nextStep := by
  unfold prepare
  split <;> rfl

@[simp] theorem nextStep_tearDown (xs : List (Step R)) :
    (s.tearDown plan xs).nextStep = s.nextStep := by
  induction xs generalizing s with
  | nil => rfl
  | cons x xs ih =>
    refine (ih (s.cancelNow plan x)).trans ?_
    cases x with
    | lane l task =>
      simp only [cancelNow, Lane.cancelNow_eq]
      split <;> rfl
    | _ => rfl

theorem nextStep_close (o : Opened R) (prepared : Bool) :
    (o.close plan prepared).stage.nextStep = o.stage.nextStep := by
  unfold Opened.close
  cases o.longest with
  | none =>
    cases prepared
    · exact o.stage.nextStep_tearDown plan _
    · exact o.stage.nextStep_tearDown plan _
  | some m =>
    dsimp only
    split <;> split <;> rfl

/-- What is said of the steps in flight on a stage and stays true in an opening step. -/
structure Keeps (M : List (Step R) → Stage R → Prop) : Prop where
  sub : ∀ {xs ys s}, M xs s → ys.Subperm xs → M ys s
  closing : ∀ {xs s}, M xs s → M (.finish :: xs) s
  /-- Deeds that are no drives may be done on other actuators. -/
  aside : ∀ {xs ds} {s t : Stage R}, M xs s → t.nextStep = s.nextStep →
    t.history = s.history ++ ds → (∀ d ∈ ds, d.answer? = none) →
    (∀ d ∈ ds, ∀ a, d.actuator? = some a → a ∉ xs.filterMap Scheduled.actuator?) → M xs t
  play : ∀ {l task xs s p}, M (.lane l task :: xs) s → l.Plays plan s task p →
    M (p.next ++ xs) p.stage

namespace Keeps

variable {s plan} {M : List (Step R) → Stage R → Prop} (K : Keeps plan M)
include K

theorem calls {xs : List (Step R)} {t : Stage R} {ds : List (Deed R)} (h : M xs s)
    (nextStep : t.nextStep = s.nextStep) (history : t.history = s.history ++ ds)
    (own : ∀ d ∈ ds, d.actuator? = none) : M xs t := by
  refine K.aside h nextStep history (fun d hd => Deed.answer_eq_none (own d hd)) ?_
  intro d hd a ha
  rw [own d hd] at ha
  cases ha

theorem openEach {firsts : List (Lane × Task R × Effect R)} (next : List (Step R)) (longest : Int)
    (h : M (next ++ firsts.map fun x => .lane x.1 x.2.1) s) :
    M (s.openEach plan next longest firsts).next (s.openEach plan next longest firsts).stage := by
  induction firsts generalizing s next longest with
  | nil =>
    rw [List.map_nil, List.append_nil] at h
    exact h
  | cons x firsts ih =>
    obtain ⟨l, task, e⟩ := x
    have hplay := K.play (K.sub h List.perm_middle.symm.subperm) (l.play_plays s plan task)
    have hnext : M ((next ++ (l.play plan s task).next) ++ firsts.map fun x => .lane x.1 x.2.1)
        (l.play plan s task).stage := by
      refine K.sub hplay (List.Perm.subperm ?_)
      rw [List.append_assoc]
      exact List.perm_append_comm_assoc ..
    unfold Stage.openEach
    dsimp only
    split
    · exact K.sub hnext (List.sublist_append_left _ _).subperm
    · exact ih _ _ hnext

theorem close {o : Opened R} (h : M o.next o.stage) (prepared : Bool) :
    M (o.close plan prepared).next (o.close plan prepared).stage := by
  have hnextStep := nextStep_close plan o prepared
  cases hl : o.longest with
  | none =>
    obtain ⟨t, settled, C, heq, S⟩ := o.close_failed plan prepared hl
    have hhistory := C.history
    rw [heq] at hnextStep ⊢
    rw [history_tearDown, List.append_assoc] at hhistory
    refine K.aside (K.sub h List.nil_subperm) hnextStep hhistory ?_
      (fun _ _ _ _ => List.not_mem_nil)
    intro d hd
    rcases List.mem_append.mp hd with hd | hd
    · obtain ⟨x, -, hx⟩ := List.mem_filterMap.mp hd
      exact Step.answer_of_undoing hx
    · exact Deed.answer_eq_none (S.actuator d hd)
  | some m =>
    obtain ⟨t, settled, C, heq, S⟩ := o.close_settles plan prepared hl
    rw [heq] at hnextStep ⊢
    exact K.calls h hnextStep C.history S.actuator

theorem openAll {es : List (ActuatorId × Effect R)}
    (h : M ((s.issueFirst es).1.map fun x => .lane x.1 x.2.1) (s.issueFirst es).2) :
    M (s.openAll plan es).next (s.openAll plan es).stage := by
  unfold Stage.openAll
  split
  · rename_i hes
    rw [List.isEmpty_iff.mp hes] at h
    exact h
  · generalize s.issueFirst es = issued at h ⊢
    obtain ⟨firsts, t⟩ := issued
    dsimp only at h ⊢
    rw [prepare_of_length]
    obtain ⟨asked, C, -, A⟩ := t.prepare_asks (requiredSync (es.map (·.2))) (es.map (·.1))
    have hprepared := K.calls h (t.nextStep_prepare _ _) C.history A.actuator
    exact K.close (K.openEach [] 0 hprepared) _

theorem openVibration {v : Vibration R}
    (h : M ((s.issueFirst (s.effects v)).1.map fun x => .lane x.1 x.2.1)
      (s.issueFirst (s.effects v)).2) :
    M (s.openVibration plan v).next (s.openVibration plan v).stage := by
  have hall := K.openAll h
  have hset : M (s.openAll plan (s.effects v)).next { (s.openAll plan (s.effects v)).stage with
      startResult := some (s.openAll plan (s.effects v)).result } :=
    K.calls hall rfl (List.append_nil _).symm (fun _ hd => (List.not_mem_nil hd).elim)
  unfold Stage.openVibration
  dsimp only
  split
  · refine K.calls (K.sub (K.closing hset) ?_) rfl (history_record _ _) ?_
    · exact (List.perm_append_singleton _ _).subperm
    · intro d hd
      rw [List.mem_singleton.mp hd]
      rfl
  · exact hset

end Keeps

theorem flight_keeps (ids : List ActuatorId) :
    Keeps plan fun xs (s : Stage R) => Step.Flight ids s.nextStep xs where
  sub F h := F.subperm h
  closing F := F.closing
  aside F nextStep _ _ _ := nextStep ▸ F
  play F H := H.flight F

omit [Level R] in
theorem flight_issueFirst {ids : List ActuatorId} {es : List (ActuatorId × Effect R)}
    (h : (es.map (·.1)).Subperm ids) : Step.Flight ids (s.issueFirst es).2.nextStep
      ((s.issueFirst es).1.map fun x => .lane x.1 x.2.1) := by
  have hactuators : ((s.issueFirst es).1.map fun x => Step.lane x.1 x.2.1).filterMap
      Scheduled.actuator? = es.map (·.1) := by
    have hfst := congrArg (List.map (·.1)) (s.issueFirst_fst es)
    rw [List.map_map] at hfst
    rw [← hfst, List.filterMap_map]
    exact congrFun List.filterMap_eq_map _
  have hnumbers : ((s.issueFirst es).1.map fun x => Step.lane x.1 x.2.1).filterMap Step.number? =
      List.range' s.nextStep es.length := by
    clear h hactuators
    induction es generalizing s with
    | nil => rfl
    | cons e es ih => exact congrArg (s.nextStep :: ·) (ih { s with nextStep := s.nextStep + 1 })
  constructor
  · rwa [hactuators]
  · rw [hnumbers, issueFirst_snd, List.range_eq_range', ← List.range'_append_1, Nat.zero_add]
    exact (List.sublist_append_right _ _).subperm

end Stage

/-! ## Runs -/

namespace Run

variable {v : Vibration R} {asked : Nat} {ids : List ActuatorId} {r r' : Run R} {m : Move R}

/-- A run whose steps are in flight. -/
structure Flying (v : Vibration R) (asked : Nat) (ids : List ActuatorId) (r : Run R) : Prop where
  phase : r.Phase v asked
  kept : r.queue.Kept
  flight : Step.Flight ids r.stage.nextStep r.queue.items

omit [Level R] in
theorem fresh_flying (plan : Plan R) (v : Vibration R) (rig : Rig R) (asked : Nat)
    (ids : List ActuatorId) : (fresh plan v rig asked).Flying v asked ids where
  phase := fresh_phase plan v rig asked
  kept := fresh_kept plan v rig asked
  flight := ⟨List.nil_subperm, List.nil_subperm⟩

omit [Level R] in
theorem actuators_effects (r : Run R) (v : Vibration R) :
    ((r.stage.effects v).map (·.1)).Subperm (v.actuators r.rig.group.ids) :=
  (List.filter_sublist.map _).subperm

/-- The opening step puts steps of the actuators into flight that the vibration is for then. -/
theorem Opens.flight (O : r.Opens v r') :
    Step.Flight (v.actuators r.rig.group.ids) r'.stage.nextStep r'.queue.items := by
  have K := Stage.flight_keeps r.plan (v.actuators r.rig.group.ids)
  rw [O.stage]
  exact K.sub (K.openVibration (r.stage.flight_issueFirst (r.actuators_effects v))) O.items.subperm

theorem Phase.startResult_ne (H : r.Phase v asked) {w : Vibration R} {t : Nat}
    {q : Queue (Step R)} (h : r.queue.popDue r.now = some (.start w t, q)) :
    (r.stage.play r.plan (.start w t)).stage.startResult ≠ r.stage.startResult := by
  obtain ⟨start, -⟩ := H.of_opening (Queue.parts_of_popDue h ▸ List.mem_cons_self)
  rw [start, Stage.play, Stage.startResult_openVibration]
  exact Option.some_ne_none _

/-- Steps stay in flight, unless the run is started just now. -/
theorem Flying.moved (F : r.Flying v asked ids) (M : r.Moved m r')
    (same : r'.stage.startResult = r.stage.startResult) : r'.Flying v asked ids := by
  refine ⟨F.phase.moved F.kept M, M.kept F.kept, ?_⟩
  cases M with
  | idle | ignored | world => exact F.flight
  | @played x q h =>
    have hflight : Step.Flight ids r.stage.nextStep (x :: q.items) :=
      Queue.items_of_popDue h ▸ F.flight
    refine Step.Flight.subperm ?_ (q.items_extend _).subperm
    cases x with
    | start w t => exact absurd same (F.phase.startResult_ne h)
    | lane l task => exact (l.play_plays r.stage r.plan task).flight hflight
    | finish => exact hflight.tail
  | heard h => exact F.flight.heard h
  | graceful _ items left =>
    exact ((F.flight.subperm items.subperm).remnants r.now).subperm left.subperm
  | immediate _ _ empty =>
    rw [empty]
    exact ⟨List.nil_subperm, List.nil_subperm⟩

theorem Opens.flying (O : r.Opens v r') (F : r.Flying v asked ids) (M : r.Moved m r') :
    r'.Flying v asked (v.actuators r.rig.group.ids) :=
  ⟨F.phase.moved F.kept M, M.kept F.kept, O.flight⟩

/-- If steps are not in flight any more for the actuators they were for before, the run was started
in between. -/
theorem flying_moves (F : r.Flying v asked ids) (ms : List (Move R)) :
    (r.moves ms).Flying v asked ids ∨ ∃ ns, ns <+: ms ∧
      (r.moves ms).Flying v asked (v.actuators (r.moves ns).rig.group.ids) := by
  induction ms generalizing r ids with
  | nil => exact .inl F
  | cons m ms ih =>
    have M := r.move_moved m
    rcases M.opens F.phase with same | ⟨-, -, O⟩
    · refine (ih (F.moved M same)).imp_right fun ⟨ns, hns, h⟩ => ?_
      exact ⟨m :: ns, List.cons_prefix_cons.mpr ⟨rfl, hns⟩, h⟩
    · rcases ih (O.flying F M) with h | ⟨ns, hns, h⟩
      · exact .inr ⟨[], List.nil_prefix, h⟩
      · exact .inr ⟨m :: ns, List.cons_prefix_cons.mpr ⟨rfl, hns⟩, h⟩

/-- At most one step of each of the actuators `ids` is queued, under a number of its own, and at
most one closing step. -/
structure SingleFlight (ids : List ActuatorId) (r : Run R) : Prop where
  lanes : ∀ a, r.queue.parts.count (.lane a) ≤ 1
  known : ∀ a, .lane a ∈ r.queue.parts → a ∈ ids
  closing : r.queue.parts.count .closing ≤ 1
  numbers : (r.queue.items.filterMap Step.number?).Nodup
  below : ∀ i ∈ r.queue.items.filterMap Step.number?, i < r.stage.nextStep
  length : r.queue.length ≤ ids.length + 1

omit [Level R] in
theorem count_lane (a : ActuatorId) (xs : List (Step R)) :
    (xs.map Step.part).count (.lane a) = (xs.filterMap Scheduled.actuator?).count a := by
  induction xs with
  | nil => rfl
  | cons x xs ih =>
    cases x <;> simp [Step.part, Scheduled.actuator?, List.count_cons, ih]

omit [Level R] in
theorem Phase.count_le (H : r.Phase v asked) :
    r.queue.parts.count .opening + r.queue.parts.count .closing ≤ 1 := by
  by_cases h : .opening ∈ r.queue.parts
  · obtain ⟨-, -, parts, -⟩ := H.of_opening h
    rw [parts]
    decide
  · rw [List.count_eq_zero.mpr h, Nat.zero_add]
    exact H.closing.1

omit [Level R] in
theorem Flying.single (F : r.Flying v asked ids) (distinct : ids.Nodup) : SingleFlight ids r := by
  have hcount : ∀ a, r.queue.parts.count (.lane a) =
      (r.queue.items.filterMap Scheduled.actuator?).count a := fun a => count_lane a _
  have hactuators := F.flight.actuators
  have hnumbers := F.flight.numbers
  constructor
  case lanes =>
    intro a
    rw [hcount]
    exact Nat.le_trans (hactuators.count_le a) (List.nodup_iff_count.mp distinct a)
  case known =>
    intro a ha
    rw [← List.count_pos_iff, hcount, List.count_pos_iff] at ha
    exact hactuators.subset ha
  case closing => exact F.phase.closing.1
  case numbers =>
    obtain ⟨ns, hperm, hsub⟩ := hnumbers
    exact hperm.nodup_iff.mp (List.nodup_range.sublist hsub)
  case below => exact fun i hi => List.mem_range.mp (hnumbers.subset hi)
  case length =>
    have hlength : r.queue.length = r.queue.items.length := by
      rw [Queue.items, List.length_map, List.length_append, Queue.length, Nat.add_comm]
    rw [hlength, Step.length_eq]
    exact Nat.add_le_add hactuators.length_le F.phase.count_le

/-- At any instant of some moves the vibration is for distinct actuators. -/
def Distinct (v : Vibration R) (r : Run R) (ms : List (Move R)) : Prop :=
  ∀ ns, ns <+: ms → (v.actuators (r.moves ns).rig.group.ids).Nodup

instance {ms : List (Move R)} : Decidable (r.Distinct v ms) :=
  decidable_of_iff (∀ ns ∈ ms.inits, (v.actuators (r.moves ns).rig.group.ids).Nodup)
    (forall_congr' fun ns => imp_congr_left (List.mem_inits ns ms))

theorem Distinct.tail {ms : List (Move R)} (H : r.Distinct v (m :: ms)) :
    (r.move m).Distinct v ms :=
  fun ns hns => H (m :: ns) (List.cons_prefix_cons.mpr ⟨rfl, hns⟩)

/-- If the actuators that a vibration is for are distinct, each has at most one step in the queue at
any time. They are those of an earlier instant, for the registry may change later. -/
theorem single_moves (plan : Plan R) (v : Vibration R) (rig : Rig R) (asked : Nat)
    (ms : List (Move R)) (distinct : (fresh plan v rig asked).Distinct v ms) :
    ∃ ns, ns <+: ms ∧ SingleFlight
      (v.actuators ((fresh plan v rig asked).moves ns).rig.group.ids)
      ((fresh plan v rig asked).moves ms) := by
  have F := fresh_flying plan v rig asked (v.actuators rig.group.ids)
  rcases flying_moves F ms with h | ⟨ns, hns, h⟩
  · exact ⟨[], List.nil_prefix, h.single (distinct [] List.nil_prefix)⟩
  · exact ⟨ns, hns, h.single (distinct ns hns)⟩

end Run
end

namespace Run

/-- Two motors play different effects. -/
def duet : Vibration Rat :=
  [(0, .pattern (.oneShot 30)), (1, .pattern (.oneShot 50))].foldl
    (fun v x => v.withActuator x.1 x.2) (.stereo [])

theorem single_moves_duet : let r := bench duet [0, 1]
    let ms := [.play, .world (·.moveTo 30), .play]
    r.Distinct duet ms ∧ ∃ ns, ns <+: ms ∧
      SingleFlight (duet.actuators (r.moves ns).rig.group.ids) (r.moves ms) :=
  have distinct : (bench duet [0, 1]).Distinct duet [.play, .world (·.moveTo 30), .play] :=
    fun _ _ => Vibration.distinct_withActuator _ _
  ⟨distinct, single_moves _ _ _ _ _ distinct⟩

end Run
end Haptics
