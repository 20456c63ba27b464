import Haptics.Proofs.Walk

/-!
# One turn after the other

Each turn of a chain plays what the turn before it left, save that the report which it waits for may
have come in between (`Turn.Linked`). This holds of the steps that go back to any first step, in
every run (`Run.linked_of_first`): a chain that is cut short by a cancel simply ends. So what one
turn does to the times and deadlines of its lane can be followed along a whole chain.
-/

namespace Haptics

variable {R : Type}

/-- A lane after the report that it waited for. -/
def Lane.heard (l : Lane) : Lane := { l with deadline := .idle, reported := true }

section
variable [Level R] {plan : Plan R}

/-- What a turn leaves to do, as it may be when its own turn comes. -/
def Turn.Leaves (plan : Plan R) (t : Turn R) (l : Lane) (task : Task R) : Prop :=
  ∃ l', (t.played plan).next = [.lane l' task] ∧ (l = l' ∨ l = l'.heard)

/-- The first of some turns plays a step as `P` says, and each of the others what the one before it
left. -/
inductive Turn.Linked (plan : Plan R) : (Lane → Task R → Prop) → List (Turn R) → Prop
  | nil {P} : Linked plan P []
  | cons {P t ts} (first : P t.lane t.task) (rest : Linked plan (t.Leaves plan) ts) :
      Linked plan P (t :: ts)

/-- The steps are in flight, and one under the number `i` is as `P` says, also after a report. -/
structure Step.Expects (ids : List ActuatorId) (i : Option Nat) (P : Lane → Task R → Prop) (n : Nat)
    (xs : List (Step R)) : Prop where
  flight : Flight ids n xs
  known : ∀ j ∈ i, j < n
  stands : ∀ l task, .lane l task ∈ xs → i = some l.id → P l task
  heard : ∀ l task, P l task → P l.heard task

/-- Some turns go on along a chain, and what is expected next is among the steps `xs`. -/
def Step.Links (plan : Plan R) (ids : List ActuatorId) (i : Option Nat) (P : Lane → Task R → Prop)
    (ts : List (Turn R)) (n : Nat) (xs : List (Step R)) : Prop :=
  ∃ i' P', Expects ids i' P' n xs ∧ ∀ us, Turn.Linked plan P' (Turn.chain plan i' us) →
    Turn.Linked plan P (Turn.chain plan i (ts ++ us))

namespace Step

variable {ids : List ActuatorId} {i : Option Nat} {P : Lane → Task R → Prop} {n : Nat}
  {xs ys : List (Step R)} {ts us : List (Turn R)}

omit [Level R] in
/-- Another step has another number, below the next one. -/
theorem Flight.number_ne {l l' : Lane} {task task' : Task R}
    (F : Flight ids n (.lane l task :: xs)) (h : .lane l' task' ∈ xs) :
    l'.id ≠ l.id ∧ l'.id < n := by
  have hmem : l'.id ∈ xs.filterMap number? := List.mem_filterMap.mpr ⟨_, h, rfl⟩
  obtain ⟨ks, hperm, hsub⟩ := F.numbers
  have hnodup : (l.id :: xs.filterMap number?).Nodup :=
    hperm.nodup_iff.mp (List.nodup_range.sublist hsub)
  refine ⟨?_, List.mem_range.mp (F.numbers.subset (List.mem_cons_of_mem _ hmem))⟩
  rintro heq
  exact (List.nodup_cons.mp hnodup).1 (heq ▸ hmem)

namespace Expects

omit [Level R] in
theorem sub (E : Expects ids i P n xs) (h : ys.Subperm xs) : Expects ids i P n ys where
  flight := E.flight.subperm h
  known := E.known
  stands l task hl := E.stands l task (h.subset hl)
  heard := E.heard

omit [Level R] in
theorem hear {now : Nat} {q q' : Queue (Step R)} (E : Expects ids i P n q.items)
    (h : Run.Heard now q q') : Expects ids i P n q'.items where
  flight := E.flight.heard h
  known := E.known
  stands l task hl hi := by
    refine h.items (fun x => ∀ l task, x = .lane l task → i = some l.id → P l task)
      (fun x a step hx => ?_) (fun x hx l task heq => E.stands l task (heq ▸ hx)) _ hl l task rfl hi
    rcases Queue.accept_cases x a step now with h | ⟨l, task, j, rfl, -, -, -, h⟩ <;> rw [h]
    · exact hx
    · rintro l' task' ⟨⟩ hi
      exact E.heard l task (hx l task rfl hi)
  heard := E.heard

omit [Level R] in
/-- What a cancel leaves has numbers that are new, so nothing of it goes on along the chain. -/
theorem remnants (E : Expects ids i P n xs) (now : Nat) :
    Expects ids i P (n + (xs.filterMap Scheduled.actuator?).length)
      (Step.remnants now n xs) where
  flight := E.flight.remnants now
  known j hj := Nat.lt_of_lt_of_le (E.known j hj) (Nat.le_add_right ..)
  stands l task hl hi := by
    obtain ⟨x, -, k, hk, hy⟩ := mem_remnants hl
    have hlt := E.known l.id hi
    cases x with
    | start => cases hy
    | lane =>
      cases List.mem_singleton.mp hy
      exact absurd hlt (Nat.not_lt.mpr hk)
    | finish => cases List.mem_singleton.mp hy
  heard := E.heard

omit [Level R] in
theorem number_lt {l : Lane} {task : Task R} (E : Expects ids i P n (.lane l task :: xs)) :
    l.id < n :=
  List.mem_range.mp (E.flight.numbers.subset (List.mem_cons_self (a := l.id)))

theorem flight_played {t : Turn R}
    (E : Expects ids i P t.stage.nextStep (.lane t.lane t.task :: xs)) :
    Flight ids (t.played plan).stage.nextStep ((t.played plan).next ++ xs) :=
  (t.played_plays plan).flight E.flight

/-- A turn that is next in the chain moves it on. -/
theorem turn_own {t : Turn R} (E : Expects ids i P t.stage.nextStep (.lane t.lane t.task :: xs))
    (hi : i = some t.lane.id) :
    Links plan ids i P [t] (t.played plan).stage.nextStep ((t.played plan).next ++ xs) := by
  refine ⟨t.successor? plan, t.Leaves plan,
    ⟨E.flight_played, Turn.successor?_lt E.number_lt, ?_, ?_⟩, fun us hus => ?_⟩
  · intro l task hl hli
    rcases List.mem_append.mp hl with hl | hl
    · exact ⟨l, Turn.next_of_mem hl, .inl rfl⟩
    · -- No other step has the number that the turn leaves.
      obtain ⟨hne, hlt⟩ := E.flight.number_ne hl
      exact absurd (Turn.waits_of_successor? hli hlt).1 hne
  · rintro l task ⟨l', hnext, heq⟩
    refine ⟨l', hnext, .inr ?_⟩
    rcases heq with rfl | rfl <;> rfl
  · rw [List.singleton_append, Turn.chain_own hi]
    exact .cons (E.stands _ _ List.mem_cons_self hi) hus

/-- A turn that is not in the chain leaves it as it is. -/
theorem turn_aside {t : Turn R} (E : Expects ids i P t.stage.nextStep (.lane t.lane t.task :: xs))
    (hi : i ≠ some t.lane.id) :
    Links plan ids i P [t] (t.played plan).stage.nextStep ((t.played plan).next ++ xs) := by
  refine ⟨i, P, ⟨E.flight_played, fun j hj => Nat.lt_of_lt_of_le (E.known j hj) (t.nextStep_le plan),
    ?_, E.heard⟩, fun us hus => ?_⟩
  · intro l task hl hli
    rcases List.mem_append.mp hl with hl | hl
    · exact absurd hli (Turn.ne_of_next hi E.known hl)
    · exact E.stands l task (List.mem_cons_of_mem _ hl) hli
  · rwa [List.singleton_append, Turn.chain_aside hi]

theorem turn {t : Turn R} (E : Expects ids i P t.stage.nextStep (.lane t.lane t.task :: xs)) :
    Links plan ids i P [t] (t.played plan).stage.nextStep ((t.played plan).next ++ xs) := by
  by_cases hi : i = some t.lane.id
  · exact E.turn_own hi
  · exact E.turn_aside hi

end Expects

namespace Links

theorem rfl (E : Expects ids i P n xs) : Links plan ids i P [] n xs :=
  ⟨i, P, E, fun _ h => h⟩

theorem sub (H : Links plan ids i P ts n xs) (h : ys.Subperm xs) : Links plan ids i P ts n ys := by
  obtain ⟨i', P', E, hlinked⟩ := H
  exact ⟨i', P', E.sub h, hlinked⟩

theorem trans (H : Links plan ids i P ts n xs) {m : Nat}
    (K : ∀ i' P', Expects ids i' P' n xs → Links plan ids i' P' us m ys) :
    Links plan ids i P (ts ++ us) m ys := by
  obtain ⟨i', P', E, hlinked⟩ := H
  obtain ⟨i'', P'', E', hlinked'⟩ := K i' P' E
  refine ⟨i'', P'', E', fun vs hvs => ?_⟩
  rw [List.append_assoc]
  exact hlinked _ (hlinked' vs hvs)

end Links
end Step

/-! ## Runs -/

omit [Level R] in
/-- A first step is to be played at once and waits for no report. -/
theorem Stage.lane_issueFirst (s : Stage R) (es : List (ActuatorId × Effect R)) :
    ∀ x ∈ (s.issueFirst es).1,
      x.1 = { id := x.1.id, start := .at s.now, actuator := x.1.actuator, deadline := .idle } := by
  induction es generalizing s with
  | nil => exact fun _ hx => absurd hx List.not_mem_nil
  | cons e es ih =>
    intro x hx
    rcases List.mem_cons.mp hx with rfl | hx
    · rfl
    · exact ih { s with nextStep := s.nextStep + 1 } x hx

omit [Level R] in
/-- Each of the first steps begins a chain. -/
theorem Stage.expects_first {s : Stage R} {ids : List ActuatorId}
    {es : List (ActuatorId × Effect R)} (hids : (es.map (·.1)).Subperm ids) {l : Lane}
    {task : Task R} {e : Effect R} (h : (l, task, e) ∈ (s.issueFirst es).1) :
    Step.Expects ids (some l.id) (fun l' task' => (l' = l ∨ l' = l.heard) ∧ task' = task)
      (s.issueFirst es).2.nextStep ((s.issueFirst es).1.map fun x => .lane x.1 x.2.1) := by
  have hnumbers := s.numbers_issueFirst es
  have hdistinct : ((s.issueFirst es).1.map (·.1.id)).Nodup := hnumbers ▸ List.nodup_range'
  constructor
  case flight => exact s.flight_issueFirst hids
  case known =>
    rintro j ⟨⟩
    have hmem : l.id ∈ List.range' s.nextStep es.length :=
      hnumbers ▸ List.mem_map_of_mem (f := fun x => x.1.id) h
    rw [issueFirst_snd]
    exact (List.mem_range'_1.mp hmem).2
  case stands =>
    intro l' task' hl' hid
    obtain ⟨x, hx, heq⟩ := List.mem_map.mp hl'
    cases heq
    cases List.inj_on_of_nodup_map hdistinct hx h (Option.some.inj hid).symm
    exact ⟨.inl rfl, rfl⟩
  case heard =>
    rintro l' task' ⟨rfl | rfl, rfl⟩
    · exact ⟨.inr rfl, rfl⟩
    · exact ⟨.inr rfl, rfl⟩

namespace Run

variable {r r' : Run R} {m : Move R} {v : Vibration R} {asked : Nat}

/-! ### What stays true from turn to turn -/

/-- What is said of the turns so far, of the next number and of the steps in flight, and stays true
through turns, reports and cancels. -/
structure Threads (plan : Plan R) (M : List (Turn R) → Nat → List (Step R) → Prop) : Prop
    extends Stage.Threads plan M where
  heard : ∀ {ts n now} {q q' : Queue (Step R)}, M ts n q.items → Heard now q q' → M ts n q'.items
  remnants : ∀ {ts n xs} now, M ts n xs →
    M ts (n + (xs.filterMap Scheduled.actuator?).length) (Step.remnants now n xs)

namespace Threads

variable {M : List (Turn R) → Nat → List (Step R) → Prop} {ts : List (Turn R)} {n : Int}
  (T : Threads plan M)
include T

theorem moved (moved : r.Moved m r') (hplan : r.plan = plan) (H : r.Phase v asked)
    (started : r.stage.startResult = some n) (h : M ts r.stage.nextStep r.queue.items) :
    M (ts ++ (r.due m).flatMap (r.stage.turns plan)) r'.stage.nextStep r'.queue.items := by
  have hrest : ∀ {k xs}, M ts k xs → M (ts ++ []) k xs := fun h => (List.append_nil ts).symm ▸ h
  cases moved with
  | idle hdue =>
    unfold due
    rw [hdue]
    exact hrest h
  | @played x q hdue =>
    unfold due
    rw [hdue]
    rw [Queue.items_of_popDue hdue] at h
    cases x with
    | start w t =>
      obtain ⟨hnone, -⟩ := H.of_opening (Queue.parts_of_popDue hdue ▸ List.mem_cons_self)
      rw [started] at hnone
      cases hnone
    | lane l task =>
      subst hplan
      exact T.sub (T.turn (t := ⟨r.stage, l, task⟩) h) (q.items_extend _).subperm
    | finish =>
      refine hrest (T.sub h ((q.items_extend _).subperm.trans ?_))
      exact (List.sublist_cons_self _ _).subperm
  | heard hq => exact hrest (T.heard h hq)
  | ignored | world => exact hrest h
  | graceful _ items left =>
    exact hrest (T.sub (T.remnants r.now (T.sub h items.subperm)) left.subperm)
  | immediate _ _ empty =>
    rw [empty, Stage.nextStep_tearDown]
    exact hrest (T.sub h List.nil_subperm)

/-- What stays true from turn to turn is true of all turns of a run that has been started. -/
theorem moves {ms : List (Move R)} (hplan : r.plan = plan) (H : r.Phase v asked) (K : r.queue.Kept)
    (started : r.stage.startResult = some n) (h : M ts r.stage.nextStep r.queue.items) :
    M (ts ++ r.turns ms) (r.moves ms).stage.nextStep (r.moves ms).queue.items := by
  induction ms generalizing r ts with
  | nil => exact (List.append_nil ts).symm ▸ h
  | cons m ms ih =>
    have M' := r.move_moved m
    unfold turns
    rw [← List.append_assoc]
    refine ih (M'.plan.trans hplan) (H.moved K M') (M'.kept K)
      (startResult_moves H K started [m]) ?_
    rw [hplan]
    exact T.moved M' hplan H started h

end Threads

/-- A move that plays no step starts no run. -/
theorem Moved.startResult_of_idle (M : r.Moved m r') (h : r.due m = []) :
    r'.stage.startResult = r.stage.startResult := by
  cases M with
  | played hdue =>
    unfold due at h
    rw [hdue] at h
    cases h
  | immediate => exact (r.stage.tearDown_frame r.plan _).1
  | _ => rfl

/-- If there are turns, they begin with those of an opening step. So what is true of the first steps
and stays true from turn to turn is true of all turns. -/
theorem turns_cases (H : r.Phase v asked) (K : r.queue.Kept) (waiting : r.stage.startResult = none)
    (ms : List (Move R)) : (r.turns ms = [] ∧ r.firsts ms = []) ∨
      ∃ ns s, ns <+: ms ∧ s = (r.moves ns).stage ∧
        r.firsts ms = (s.issueFirst (s.effects v)).1 ∧
        ∀ {M}, Threads r.plan M →
          M [] (s.issueFirst (s.effects v)).2.nextStep
            ((s.issueFirst (s.effects v)).1.map fun x => .lane x.1 x.2.1) →
          ∃ n xs, M (r.turns ms) n xs := by
  induction ms generalizing r with
  | nil => exact .inl ⟨rfl, rfl⟩
  | cons m ms ih =>
    have moved := r.move_moved m
    have hturns : r.turns (m :: ms) =
      (r.due m).flatMap (r.stage.turns r.plan) ++ (r.move m).turns ms := rfl
    have hfirsts : r.firsts (m :: ms) =
      (r.due m).flatMap r.stage.firsts ++ (r.move m).firsts ms := rfl
    rw [hturns, hfirsts]
    rcases r.due_cases m with hdue | ⟨rfl, x, q, hpop, hdue⟩
    · rw [hdue]
      rcases ih (H.moved K moved) (moved.kept K)
        ((moved.startResult_of_idle hdue).trans waiting) with hnone | ⟨ns, s, hns, hs, hrest, T⟩
      · exact .inl hnone
      · rw [moved.plan] at T
        exact .inr ⟨m :: ns, s, List.cons_prefix_cons.mpr ⟨rfl, hns⟩, hs, hrest, T⟩
    · cases H.opening_of_waiting waiting x (Queue.items_of_popDue hpop ▸ List.mem_cons_self)
      rcases moved.opens H with hsame | ⟨-, -, O⟩
      · exact absurd hsame (by
          rw [r.move_play hpop]
          exact H.startResult_ne hpop)
      · have hstart : (r.move .play).stage.startResult =
            some (r.stage.openVibration r.plan v).result := by
          rw [O.stage, Stage.startResult_openVibration]
        have hnone : (r.move .play).firsts ms = [] :=
          firsts_of_started (H.moved K moved) (moved.kept K) hstart
        rw [hdue, hnone, List.append_nil, List.flatMap_singleton, List.flatMap_singleton]
        refine .inr ⟨[], r.stage, List.nil_prefix, rfl, rfl, fun T h => ?_⟩
        have hopened := T.sub (T.openVibration h) O.items.subperm
        rw [← O.stage, List.nil_append] at hopened
        exact ⟨_, _, T.moves moved.plan (H.moved K moved) (moved.kept K) hstart hopened⟩

/-! ### Chains -/

theorem links_threads (ids : List ActuatorId) (i : Option Nat) (P : Lane → Task R → Prop) :
    Threads plan (Step.Links plan ids i P) where
  sub := .sub
  closing := fun ⟨i', P', E, hlinked⟩ => ⟨i', P', {
    flight := E.flight.closing
    known := E.known
    stands := fun l task hl => E.stands l task ((List.mem_cons.mp hl).resolve_left nofun)
    heard := E.heard }, hlinked⟩
  turn H := H.trans fun _ _ E => E.turn
  heard := fun ⟨i', P', E, hlinked⟩ h => ⟨i', P', E.hear h, hlinked⟩
  remnants now := fun ⟨i', P', E, hlinked⟩ => ⟨i', P', E.remnants now, hlinked⟩

/-- The chain of a first step that is issued in the course of some moves is linked. -/
theorem linked_of_first (plan : Plan R) (v : Vibration R) (rig : Rig R) (asked : Nat)
    {ms : List (Move R)} {l : Lane} {task : Task R} {e : Effect R}
    (h : (l, task, e) ∈ (fresh plan v rig asked).firsts ms) :
    Turn.Linked plan (fun l' task' => (l' = l ∨ l' = l.heard) ∧ task' = task)
      (Turn.chain plan (some l.id) ((fresh plan v rig asked).turns ms)) := by
  rcases turns_cases (fresh_phase plan v rig asked) (fresh_kept plan v rig asked) rfl ms with
    ⟨-, hnone⟩ | ⟨ns, s, -, rfl, hfirsts, T⟩
  · rw [hnone] at h
    cases h
  · rw [hfirsts] at h
    obtain ⟨n, xs, i, P, -, hlinked⟩ := T (links_threads _ _ _)
      (.rfl (Stage.expects_first (actuators_effects _ v) h))
    have hchain := hlinked [] .nil
    rwa [List.append_nil] at hchain

end Run
end

end Haptics
