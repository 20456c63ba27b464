import Haptics.Proofs.Flight
import Haptics.Proofs.Segments
import Haptics.Proofs.Unrolling
import Mathlib.Algebra.GroupWithZero.Nat
import Mathlib.Data.List.Nodup

/-!
# Walking through a pattern

Each step of an actuator leaves at most one step behind, so the steps that go back to one first step
form a chain. The chain of an effect consumes the segments of its pattern in blocks: each once, in
order, and over and over from the loop start if the pattern repeats (`Pattern.Walked`). A block is
a run of segments that is handed over in one call, or one segment that is played alone
(`Turn.Block`). All this is so whatever the hardware answers and reports, as long as nobody cancels
(`Run.walked_moves`).
-/

namespace Haptics

variable {R : Type}

/-! ## Turns -/

namespace Turn

/-- Where the segments begin that a turn consumes, and how many they are. -/
def block? (t : Turn R) : Option (Nat × Nat) :=
  match t.task with
  | .hold p => if t.Waits then none else some (p.index, 1)
  | .prebaked p => some (p.index, 1)
  | .composition p => some (p.index, (Batch.primitives.run t.lane t.stage p).length)
  | .ramps p => some (p.index, (Batch.ramps.run t.lane t.stage p).length)
  | .envelope p => some (p.index, (Batch.envelope.run t.lane t.stage p).length)
  | .vendor _ | .complete _ | .rampOff _ _ | .turnOff => none

/-- How many segments some turns consume. -/
def consumed (ts : List (Turn R)) : Nat := ((ts.filterMap block?).map (·.2)).sum

variable [Level R] (plan : Plan R)

/-- The number of the step that a turn leaves behind. -/
def successor? (t : Turn R) : Option Nat := (t.played plan).next.head?.bind Step.number?

/-- The turns of a step and of those that go back to it. -/
def chain : Option Nat → List (Turn R) → List (Turn R)
  | _, [] => []
  | i, t :: ts =>
    if i = some t.lane.id then t :: chain (t.successor? plan) ts else chain i ts

/-- A turn consumes a block of `c` segments from index `i` on. -/
structure Block (t : Turn R) (p : Pattern R) (i c : Nat) : Prop where
  task : t.task = .ofPosition p i
  pos : 0 < c
  inside : i + c ≤ p.segments.length
  batch : ∀ x b, p.segments[i]? = some x → x.batch? = some b → t.HandsOver plan p i c b
  single : ∀ x, p.segments[i]? = some x → x.batch? = none → c = 1 ∧ t.PlaysAlone plan ⟨p, i⟩ x

end Turn

namespace Stage

/-- The first steps that playing a step issues, with their effects. -/
def firsts (s : Stage R) : Step R → List (Lane × Task R × Effect R)
  | .start v _ => (s.issueFirst (s.effects v)).1
  | .lane _ _ | .finish => []

end Stage

namespace Run

variable [Level R]

omit [Level R] in
/-- The step that a move plays. -/
def due (r : Run R) : Move R → List (Step R)
  | .play => (r.queue.popDue r.now).toList.map (·.1)
  | .hear _ | .cancel _ | .world _ => []

/-- The turns of actuators in the course of some moves. -/
def turns : Run R → List (Move R) → List (Turn R)
  | _, [] => []
  | r, m :: ms => (r.due m).flatMap (r.stage.turns r.plan) ++ (r.move m).turns ms

/-- The first steps that are issued in the course of some moves, with their effects. -/
def firsts : Run R → List (Move R) → List (Lane × Task R × Effect R)
  | _, [] => []
  | r, m :: ms => (r.due m).flatMap r.stage.firsts ++ (r.move m).firsts ms

end Run

/-- The turns of a chain walk through a pattern. -/
structure Pattern.Walked [Level R] (plan : Plan R) (p : Pattern R) (ts : List (Turn R)) : Prop where
  /-- The blocks, one after the other, are the first segments of the unrolled pattern. -/
  inOrder : (ts.filterMap Turn.block?).flatMap (fun b => List.range' b.1 b.2) =
    (List.range (Turn.consumed ts)).map p.unroll
  blocks : ∀ t ∈ ts, ∀ i c, t.block? = some (i, c) → t.Block plan p i c
  /-- The effect completes only if the pattern does not repeat, and behind its last segment. -/
  completes : ∀ before t after cancelled, ts = before ++ t :: after →
    t.task = .complete cancelled →
    p.loopStart = none ∧ Turn.consumed before = p.segments.length

/-! ## One turn -/

/-- Where the chain of an effect is: behind so many segments, or behind its completion. -/
def Task.Stands (p : Pattern R) (task : Task R) : Option Nat → Prop
  | some k => task = .ofPosition p (p.unroll k) ∧
    (p.loopStart = none → k ≤ p.segments.length)
  | none => task.isCleanup = true

section
variable [Level R] {plan : Plan R} {p : Pattern R}

/-- The turns of a chain from a place on. -/
inductive Course (plan : Plan R) (p : Pattern R) : Option Nat → List (Turn R) → Prop
  | nil {place} : Course plan p place []
  | wait {k t ts} (none : t.block? = none) (hold : ∃ q, t.task = .hold q)
      (rest : Course plan p (some k) ts) : Course plan p (some k) (t :: ts)
  | block {k c t ts} (taken : t.block? = some (p.unroll k, c))
      (block : t.Block plan p (p.unroll k) c) (rest : Course plan p (some (k + c)) ts) :
      Course plan p (some k) (t :: ts)
  | complete {t ts} (once : p.loopStart = none) (task : t.task = .complete false)
      (rest : Course plan p none ts) : Course plan p (some p.segments.length) (t :: ts)
  | cleanup {t ts} (task : t.task.isCleanup = true) (rest : Course plan p none ts) :
      Course plan p none (t :: ts)

namespace Lane

variable (l : Lane) (s : Stage R) (plan : Plan R)

/-- On the way down there are only steps on the way down. -/
theorem play_cleanup {task : Task R} (h : task.isCleanup = true) :
    ∀ x ∈ (l.play plan s task).next, ∃ l' task', x = .lane l' task' ∧ task'.isCleanup = true := by
  have hsingle : ∀ (t : Stage R) (l' : Lane) (start : StartTime) (task' : Task R) (n : Int),
      task'.isCleanup = true → ∀ x ∈ (Played.followed t l' start task' n).next,
        ∃ l' task', x = .lane l' task' ∧ task'.isCleanup = true := by
    intro t l' start task' n htask x hx
    exact ⟨_, task', List.mem_singleton.mp hx, htask⟩
  cases task with
  | complete cancelled =>
    show ∀ x ∈ (l.playComplete plan s cancelled).next, _
    unfold playComplete
    split
    · exact fun _ hx => absurd hx List.not_mem_nil
    · dsimp only
      split
      · split
        · exact fun _ hx => absurd hx List.not_mem_nil
        · exact hsingle _ _ _ _ _ rfl
      · exact hsingle _ _ _ _ _ rfl
  | rampOff target delta =>
    show ∀ x ∈ (l.playRampOff plan s target delta).next, _
    unfold playRampOff
    split
    · exact fun _ hx => absurd hx List.not_mem_nil
    · dsimp only
      split
      · exact hsingle _ _ _ _ _ rfl
      · exact hsingle _ _ _ _ _ rfl
  | turnOff => exact fun _ hx => absurd hx List.not_mem_nil
  | hold | prebaked | composition | ramps | envelope | vendor => cases h

end Lane

namespace Turn

variable {t : Turn R}

/-- A turn takes a chain from one place to another and leaves only steps from there. -/
structure Goes (plan : Plan R) (p : Pattern R) (t : Turn R) (place place' : Option Nat) : Prop where
  next : ∀ x ∈ (t.played plan).next, ∃ l' task', x = .lane l' task' ∧ task'.Stands p place'
  course : ∀ ts, Course plan p place' ts → Course plan p place (t :: ts)
  waits : (∃ q, t.task = .hold q) → t.Waits → place' = place

variable {k : Nat}

theorem goes_block {c : Nat} (taken : t.block? = some (p.unroll k, c))
    (block : t.Block plan p (p.unroll k) c)
    (next : ∃ l', (t.played plan).next =
      [.lane l' (.ofPosition p (Position.advance ⟨p, p.unroll k⟩ c))])
    (waits : (∃ q, t.task = .hold q) → ¬t.Waits) : Goes plan p t (some k) (some (k + c)) where
  next := by
    intro x hx
    obtain ⟨l', hnext⟩ := next
    rw [hnext] at hx
    refine ⟨l', _, List.mem_singleton.mp hx,
      congrArg _ (Pattern.advance_eq k c), ?_⟩
    intro once
    have hinside := block.inside
    rwa [Pattern.unroll_of_once once] at hinside
  course ts := .block taken block
  waits hold hwaits := absurd hwaits (waits hold)

theorem goes_batch {x : Segment R} {b : Batch} (htask : t.task = .ofPosition p (p.unroll k))
    (hx : p.segments[p.unroll k]? = some x) (hb : x.batch? = some b) :
    ∃ place, Goes plan p t (some k) place := by
  obtain ⟨hlt, -⟩ := List.getElem?_eq_some_iff.mp hx
  have hbatch : t.task = b.task ⟨p, p.unroll k⟩ := by
    rw [htask, Task.ofPosition_eq hx, Batch.task_eq hb]
  have hpos := b.length_run_pos t.lane t.stage ⟨p, p.unroll k⟩ hx hb
  obtain ⟨hands, next⟩ := handsOver hbatch hpos
  refine ⟨_, goes_block ?_ ?_ next ?_⟩
  · unfold block?
    rw [hbatch]
    cases b <;> rfl
  · refine ⟨htask, hpos, b.run_inside t.lane t.stage ⟨p, p.unroll k⟩ (Nat.le_of_lt hlt), ?_, ?_⟩
    · intro y b' hy hb'
      rw [Option.some.inj (hy.symm.trans hx), hb] at hb'
      exact Option.some.inj hb' ▸ hands
    · intro y hy hnone
      rw [Option.some.inj (hy.symm.trans hx), hb] at hnone
      cases hnone
  · rintro ⟨q, hq⟩
    rw [hbatch] at hq
    cases b <;> cases hq

/-- A segment that is not handed over in runs is a block of its own. -/
theorem goes_single {x : Segment R} (htask : t.task = .ofPosition p (p.unroll k))
    (hx : p.segments[p.unroll k]? = some x) (hb : x.batch? = none)
    (plays : (∃ q, t.task = .hold q) → ¬t.Waits) : ∃ place, Goes plan p t (some k) place := by
  obtain ⟨hlt, -⟩ := List.getElem?_eq_some_iff.mp hx
  have hkind : t.task = x.task ⟨p, p.unroll k⟩ := htask.trans (Task.ofPosition_eq hx)
  have alone : t.PlaysAlone plan ⟨p, p.unroll k⟩ x := playsAlone hkind hx hb plays
  refine ⟨_, goes_block ?_ ⟨htask, Nat.one_pos, hlt, ?_, ?_⟩ alone.next plays⟩
  · unfold block?
    rw [hkind]
    cases x with
    | hold | basic => exact if_neg (plays ⟨_, hkind⟩)
    | prebaked => rfl
    | primitive | ramp | envelope => cases hb
  · intro y b hy hb'
    rw [Option.some.inj (hy.symm.trans hx), hb] at hb'
    cases hb'
  · intro y hy _
    exact Option.some.inj (hy.symm.trans hx) ▸ ⟨rfl, alone⟩

/-- A hold that waits again stays where it is. -/
theorem goes_waiting (H : t.task.Stands p (some k)) {q : Position R} (hold : t.task = .hold q)
    (hwaits : t.Waits) : Goes plan p t (some k) (some k) where
  next := by
    intro y hy
    obtain ⟨l', hnext, -⟩ : ∃ l', (t.played plan).next = [.lane l' (.hold q)] ∧ _ :=
      waits_again hold hwaits
    rw [hnext] at hy
    exact ⟨l', _, List.mem_singleton.mp hy, hold ▸ H⟩
  course ts := by
    refine .wait ?_ ⟨_, hold⟩
    unfold block?
    rw [hold]
    exact if_pos hwaits
  waits _ _ := rfl

/-- Behind the last segment of a pattern that does not repeat, the effect completes. -/
theorem goes_complete (H : t.task.Stands p (some k)) (hend : p.segments.length ≤ p.unroll k) :
    Goes plan p t (some k) none := by
  obtain ⟨htask, hfits⟩ := H
  have once : p.loopStart = none := by
    cases hloop : p.loopStart with
    | none => rfl
    | some r => exact absurd (Pattern.unroll_lt hloop k) (Nat.not_lt.mpr hend)
  have hk : k = p.segments.length := by
    have := hfits once
    rw [Pattern.unroll_of_once once] at hend
    omega
  have hcomplete : t.task = .complete false := by
    rw [htask]
    unfold Task.ofPosition
    dsimp only
    rw [if_pos hend, once, Option.getD_none, List.getElem?_eq_none hend]
  constructor
  case next =>
    intro x hx
    exact t.lane.play_cleanup t.stage plan (hcomplete ▸ rfl) x hx
  case course =>
    intro ts hts
    rw [hk]
    exact .complete once hcomplete hts
  case waits =>
    rintro ⟨q, hq⟩
    rw [hcomplete] at hq
    cases hq

theorem goes {place : Option Nat} (H : t.task.Stands p place) :
    ∃ place', Goes plan p t place place' := by
  cases place with
  | none =>
    refine ⟨none, fun x hx => t.lane.play_cleanup t.stage plan H x hx, fun ts => .cleanup H, ?_⟩
    rintro ⟨q, hq⟩
    rw [hq] at H
    cases H
  | some k =>
    by_cases hlt : p.unroll k < p.segments.length
    · obtain ⟨x, hx⟩ : ∃ x, p.segments[p.unroll k]? = some x :=
        ⟨_, List.getElem?_eq_getElem hlt⟩
      cases hb : x.batch? with
      | some b => exact goes_batch H.1 hx hb
      | none =>
        by_cases hwaits : (∃ q, t.task = .hold q) ∧ t.Waits
        · obtain ⟨⟨q, hold⟩, hwaits⟩ := hwaits
          exact ⟨_, goes_waiting H hold hwaits⟩
        · exact goes_single H.1 hx hb fun hold h => hwaits ⟨hold, h⟩
    · exact ⟨none, goes_complete H (Nat.not_lt.mp hlt)⟩

/-- A turn leaves no step, the same step to wait again, or one under the next number. -/
theorem leaves (plan : Plan R) (t : Turn R) :
    (t.played plan).next = [] ∧ (t.played plan).stage.nextStep = t.stage.nextStep ∨
    (∃ l', (t.played plan).next = [.lane l' t.task] ∧ l'.id = t.lane.id ∧
      (t.played plan).stage.nextStep = t.stage.nextStep ∧ (∃ q, t.task = .hold q) ∧ t.Waits) ∨
    ∃ l' task', (t.played plan).next = [.lane l' task'] ∧ l'.id = t.stage.nextStep ∧
      (t.played plan).stage.nextStep = t.stage.nextStep + 1 := by
  have H := t.played_plays plan
  generalize t.played plan = played at H ⊢
  cases H with
  | halt => exact .inl ⟨rfl, rfl⟩
  | wait hold early back =>
    have hd := Lane.turnBackOn_eq early.1 back
    exact .inr (.inl ⟨_, rfl, hd.id, hd.nextStep, ⟨_, hold⟩, early⟩)
  | follow hd start next =>
    exact .inr (.inr ⟨_, next, rfl, hd.nextStep, congrArg (· + 1) hd.nextStep⟩)

section
variable {t : Turn R} {i : Option Nat} {j : Nat} {l : Lane} {task : Task R}

theorem nextStep_le (plan : Plan R) (t : Turn R) :
    t.stage.nextStep ≤ (t.played plan).stage.nextStep := by
  rcases t.leaves plan with ⟨-, hn⟩ | ⟨-, -, -, hn, -⟩ | ⟨-, -, -, -, hn⟩ <;> omega

/-- A turn leaves at most one step. -/
theorem next_cases (plan : Plan R) (t : Turn R) :
    (t.played plan).next = [] ∨ ∃ l task, (t.played plan).next = [.lane l task] := by
  rcases t.leaves plan with ⟨hnext, -⟩ | ⟨l', hnext, -⟩ | ⟨l', task', hnext, -⟩
  · exact .inl hnext
  · exact .inr ⟨l', t.task, hnext⟩
  · exact .inr ⟨l', task', hnext⟩

theorem next_of_mem {x : Step R} (h : x ∈ (t.played plan).next) : (t.played plan).next = [x] := by
  rcases t.next_cases plan with hnext | ⟨l, task, hnext⟩ <;> rw [hnext] at h ⊢
  · cases h
  · rw [List.mem_singleton.mp h]

/-- What a turn leaves has the number of its own step or the next one. -/
theorem number_next (h : .lane l task ∈ (t.played plan).next) :
    l.id = t.lane.id ∨ l.id = t.stage.nextStep ∧
      (t.played plan).stage.nextStep = t.stage.nextStep + 1 := by
  rcases t.leaves plan with ⟨hnext, -⟩ | ⟨l', hnext, hl', -⟩ | ⟨l', task', hnext, hl', hn⟩ <;>
    rw [hnext] at h
  · cases h
  · cases List.mem_singleton.mp h
    exact .inl hl'
  · cases List.mem_singleton.mp h
    exact .inr ⟨hl', hn⟩

theorem below_next (hid : t.lane.id < t.stage.nextStep)
    (h : .lane l task ∈ (t.played plan).next) : l.id < (t.played plan).stage.nextStep := by
  rcases number_next h with heq | ⟨heq, hn⟩
  · exact heq ▸ Nat.lt_of_lt_of_le hid (t.nextStep_le plan)
  · omega

/-- Nothing that a turn leaves belongs to a chain that goes on elsewhere. -/
theorem ne_of_next (hi : i ≠ some t.lane.id) (known : ∀ j ∈ i, j < t.stage.nextStep)
    (h : .lane l task ∈ (t.played plan).next) : i ≠ some l.id := by
  rintro rfl
  rcases number_next h with heq | ⟨heq, -⟩
  · exact hi (congrArg some heq)
  · exact absurd (known _ rfl) (Nat.not_lt.mpr heq.ge)

theorem exists_of_successor? (h : t.successor? plan = some j) :
    ∃ l task, .lane l task ∈ (t.played plan).next ∧ l.id = j := by
  rcases t.next_cases plan with hnext | ⟨l, task, hnext⟩ <;> rw [successor?, hnext] at h
  · cases h
  · exact ⟨l, task, hnext ▸ List.mem_singleton_self _, Option.some.inj h⟩

theorem successor?_lt (hid : t.lane.id < t.stage.nextStep) :
    ∀ j ∈ t.successor? plan, j < (t.played plan).stage.nextStep := by
  intro j hj
  obtain ⟨l, task, hl, rfl⟩ := exists_of_successor? hj
  exact below_next hid hl

/-- The number that a turn leaves is an old one only if a hold waits again, and then its own. -/
theorem waits_of_successor? (h : t.successor? plan = some j) (hj : j < t.stage.nextStep) :
    j = t.lane.id ∧ (∃ q, t.task = .hold q) ∧ t.Waits := by
  rcases t.leaves plan with ⟨hnext, -⟩ | ⟨l', hnext, hl', -, hold, hwaits⟩ |
      ⟨l', task', hnext, hl', -⟩ <;> rw [successor?, hnext] at h
  · cases h
  · cases h
    exact ⟨hl', hold, hwaits⟩
  · cases h
    exact absurd hl' hj.ne

variable {ts : List (Turn R)}

theorem chain_own (hi : i = some t.lane.id) :
    chain plan i (t :: ts) = t :: chain plan (t.successor? plan) ts :=
  if_pos hi

theorem chain_aside (hi : i ≠ some t.lane.id) : chain plan i (t :: ts) = chain plan i ts :=
  if_neg hi

end

end Turn

/-! ## The turns of a start -/

namespace Stage

/-- What is said of the turns so far, of the next number and of the steps in flight, and stays true
from turn to turn. -/
structure Threads (plan : Plan R) (M : List (Turn R) → Nat → List (Step R) → Prop) : Prop where
  sub : ∀ {ts n xs ys}, M ts n xs → ys.Subperm xs → M ts n ys
  closing : ∀ {ts n xs}, M ts n xs → M ts n (.finish :: xs)
  turn : ∀ {ts t xs}, M ts t.stage.nextStep (.lane t.lane t.task :: xs) →
    M (ts ++ [t]) (t.played plan).stage.nextStep ((t.played plan).next ++ xs)

namespace Threads

variable {M : List (Turn R) → Nat → List (Step R) → Prop} {s : Stage R} {ts : List (Turn R)}
  (T : Threads plan M)
include T

/-- Opening actuators one after the other is a sequence of turns. -/
theorem openEach {firsts : List (Lane × Task R × Effect R)} (next : List (Step R)) (longest : Int)
    (h : M ts s.nextStep (next ++ firsts.map fun x => .lane x.1 x.2.1)) :
    M (ts ++ s.turnsEach plan firsts) (s.openEach plan next longest firsts).stage.nextStep
      (s.openEach plan next longest firsts).next := by
  induction firsts generalizing s ts next longest with
  | nil =>
    rw [List.map_nil, List.append_nil] at h
    exact (List.append_nil ts).symm ▸ h
  | cons x firsts ih =>
    obtain ⟨l, task, e⟩ := x
    have hturn := T.turn (t := ⟨s, l, task⟩) (T.sub h List.perm_middle.symm.subperm)
    have hnext : M (ts ++ [⟨s, l, task⟩]) (l.play plan s task).stage.nextStep
        ((next ++ (l.play plan s task).next) ++ firsts.map fun x => .lane x.1 x.2.1) := by
      refine T.sub hturn (List.Perm.subperm ?_)
      rw [List.append_assoc]
      exact List.perm_append_comm_assoc ..
    unfold Stage.openEach turnsEach
    dsimp only
    by_cases hfails : (l.play plan s task).result < 0
    · rw [if_pos hfails, if_pos hfails]
      exact T.sub hnext (List.sublist_append_left _ _).subperm
    · rw [if_neg hfails, if_neg hfails, List.append_cons]
      exact ih _ _ hnext

theorem close {o : Opened R} (h : M ts o.stage.nextStep o.next) (prepared : Bool) :
    M ts (o.close plan prepared).stage.nextStep (o.close plan prepared).next := by
  rw [nextStep_close]
  refine T.sub h ?_
  cases hlongest : o.longest with
  | none =>
    obtain ⟨t, settled, -, heq, -⟩ := o.close_failed plan prepared hlongest
    rw [heq]
    exact List.nil_subperm
  | some m =>
    obtain ⟨t, settled, -, heq, -⟩ := o.close_settles plan prepared hlongest
    rw [heq]

theorem openAll {es : List (ActuatorId × Effect R)}
    (h : M ts (s.issueFirst es).2.nextStep ((s.issueFirst es).1.map fun x => .lane x.1 x.2.1)) :
    M (ts ++ s.turnsAll plan es) (s.openAll plan es).stage.nextStep (s.openAll plan es).next := by
  unfold Stage.openAll turnsAll
  by_cases hes : es.isEmpty = true
  · rw [List.isEmpty_iff.mp hes] at h ⊢
    exact (List.append_nil ts).symm ▸ h
  · rw [if_neg hes]
    dsimp only
    rw [prepare_of_length]
    refine T.close (T.openEach [] 0 ?_) _
    rwa [nextStep_prepare]

theorem openVibration {v : Vibration R}
    (h : M ts (s.issueFirst (s.effects v)).2.nextStep
      ((s.issueFirst (s.effects v)).1.map fun x => .lane x.1 x.2.1)) :
    M (ts ++ s.turnsAll plan (s.effects v)) (s.openVibration plan v).stage.nextStep
      (s.openVibration plan v).next := by
  have hstage : (s.openVibration plan v).stage.nextStep =
      (s.openAll plan (s.effects v)).stage.nextStep := by
    unfold Stage.openVibration
    dsimp only
    split <;> rfl
  rw [hstage, next_openVibration]
  split
  · exact T.sub (T.closing (T.openAll h)) (List.perm_append_singleton _ _).subperm
  · rw [List.append_nil]
    exact T.openAll h

end Threads
end Stage

/-! ## Following a chain -/

/-- The next step of a chain has number `i`, if there is one, and every step under that number is
one from where the chain is. The numbers of the steps there are lie below `n`. -/
structure Step.Traced (p : Pattern R) (i place : Option Nat) (n : Nat) (xs : List (Step R)) :
    Prop where
  below : ∀ l task, .lane l task ∈ xs → l.id < n
  known : ∀ j ∈ i, j < n
  stands : ∀ l task, .lane l task ∈ xs → i = some l.id → task.Stands p place

namespace Step.Traced

variable {i place : Option Nat} {n : Nat} {xs ys : List (Step R)}

omit [Level R] in
theorem sub (H : Traced p i place n xs) (h : ∀ l task, .lane l task ∈ ys → .lane l task ∈ xs) :
    Traced p i place n ys where
  below l task hl := H.below l task (h l task hl)
  known := H.known
  stands l task hl := H.stands l task (h l task hl)

end Step.Traced

/-- In the course of some turns a chain gets from one place to another, where it is known from the
steps `xs` and the next number. -/
def Step.Leads (plan : Plan R) (p : Pattern R) (i place : Option Nat) (ts : List (Turn R)) (n : Nat)
    (xs : List (Step R)) : Prop :=
  ∃ i' place', Traced p i' place' n xs ∧ ∀ us, Course plan p place' (Turn.chain plan i' us) →
    Course plan p place (Turn.chain plan i (ts ++ us))

namespace Step.Leads

variable {i place : Option Nat} {n : Nat} {xs ys : List (Step R)} {ts us : List (Turn R)}

theorem rfl (H : Traced p i place n xs) : Leads plan p i place [] n xs :=
  ⟨i, place, H, fun _ h => h⟩

theorem sub (H : Leads plan p i place ts n xs)
    (h : ∀ l task, .lane l task ∈ ys → .lane l task ∈ xs) : Leads plan p i place ts n ys := by
  obtain ⟨i', place', T, hcourse⟩ := H
  exact ⟨i', place', T.sub h, hcourse⟩

theorem trans (H : Leads plan p i place ts n xs) {m : Nat}
    (K : ∀ i' place', Traced p i' place' n xs → Leads plan p i' place' us m ys) :
    Leads plan p i place (ts ++ us) m ys := by
  obtain ⟨i', place', T, hcourse⟩ := H
  obtain ⟨i'', place'', T', hcourse'⟩ := K i' place' T
  refine ⟨i'', place'', T', fun vs hvs => ?_⟩
  rw [List.append_assoc]
  exact hcourse _ (hcourse' vs hvs)

end Step.Leads

namespace Step.Traced

variable {i place : Option Nat} {n : Nat} {xs ys : List (Step R)}

theorem below_played {t : Turn R} (H : Traced p i place t.stage.nextStep xs)
    (ht : .lane t.lane t.task ∈ xs) (hys : ∀ y ∈ ys, y ∈ xs ∨ y ∈ (t.played plan).next) :
    ∀ l task, .lane l task ∈ ys → l.id < (t.played plan).stage.nextStep := by
  intro l task hl
  rcases hys _ hl with hl | hl
  · exact Nat.lt_of_lt_of_le (H.below l task hl) (t.nextStep_le plan)
  · exact Turn.below_next (H.below _ _ ht) hl

/-- A turn that is next in the chain moves it on. -/
theorem turn_own {t : Turn R} (H : Traced p i place t.stage.nextStep xs)
    (ht : .lane t.lane t.task ∈ xs) (hys : ∀ y ∈ ys, y ∈ xs ∨ y ∈ (t.played plan).next)
    (hi : i = some t.lane.id) : Leads plan p i place [t] (t.played plan).stage.nextStep ys := by
  obtain ⟨place', G⟩ : ∃ place', t.Goes plan p place place' := Turn.goes (H.stands _ _ ht hi)
  refine ⟨t.successor? plan, place',
    ⟨H.below_played ht hys, Turn.successor?_lt (H.below _ _ ht), ?_⟩, fun ts hts => ?_⟩
  · intro l task hl hli
    rcases hys _ hl with hl | hl
    · -- A step that was there before has the number only if the turn left it again.
      obtain ⟨hown, hold, hwaits⟩ := Turn.waits_of_successor? hli (H.below l task hl)
      rw [G.waits hold hwaits]
      exact H.stands l task hl (hi.trans (congrArg some hown.symm))
    · obtain ⟨l', task', heq, hstands⟩ := G.next _ hl
      cases heq
      exact hstands
  · rw [List.singleton_append, Turn.chain_own hi]
    exact G.course _ hts

/-- A turn that is not in the chain leaves it as it is. -/
theorem turn_aside {t : Turn R} (H : Traced p i place t.stage.nextStep xs)
    (ht : .lane t.lane t.task ∈ xs) (hys : ∀ y ∈ ys, y ∈ xs ∨ y ∈ (t.played plan).next)
    (hi : i ≠ some t.lane.id) : Leads plan p i place [t] (t.played plan).stage.nextStep ys := by
  refine ⟨i, place, ⟨H.below_played ht hys,
    fun j hj => Nat.lt_of_lt_of_le (H.known j hj) (t.nextStep_le plan), ?_⟩, fun ts hts => ?_⟩
  · intro l task hl hli
    rcases hys _ hl with hl | hl
    · exact H.stands l task hl hli
    · exact absurd hli (Turn.ne_of_next hi H.known hl)
  · rwa [List.singleton_append, Turn.chain_aside hi]

/-- What is in flight after a turn was there before or is left by it. -/
theorem turn {t : Turn R} (H : Traced p i place t.stage.nextStep xs)
    (ht : .lane t.lane t.task ∈ xs) (hys : ∀ y ∈ ys, y ∈ xs ∨ y ∈ (t.played plan).next) :
    Leads plan p i place [t] (t.played plan).stage.nextStep ys := by
  by_cases hi : i = some t.lane.id
  · exact H.turn_own ht hys hi
  · exact H.turn_aside ht hys hi

end Step.Traced

namespace Stage

variable {s : Stage R} {i place : Option Nat} {xs : List (Step R)}

omit [Level R] in
theorem numbers_issueFirst (s : Stage R) (es : List (ActuatorId × Effect R)) :
    (s.issueFirst es).1.map (·.1.id) = List.range' s.nextStep es.length := by
  induction es generalizing s with
  | nil => rfl
  | cons e es ih => exact congrArg (s.nextStep :: ·) (ih { s with nextStep := s.nextStep + 1 })

omit [Level R] in
theorem task_issueFirst (es : List (ActuatorId × Effect R)) :
    ∀ x ∈ (s.issueFirst es).1, x.2.1 = .ofEffect x.2.2 := by
  induction es generalizing s with
  | nil => exact fun _ hx => absurd hx List.not_mem_nil
  | cons e es ih =>
    intro x hx
    rcases List.mem_cons.mp hx with rfl | hx
    · rfl
    · exact ih x hx

omit [Level R] in
/-- Each of the first steps of patterns begins a chain. -/
theorem traced_first {es : List (ActuatorId × Effect R)} {l : Lane} {task : Task R}
    (h : (l, task, .pattern p) ∈ (s.issueFirst es).1) :
    Step.Traced p (some l.id) (some 0) (s.issueFirst es).2.nextStep
      ((s.issueFirst es).1.map fun x => .lane x.1 x.2.1) := by
  have hnumbers := s.numbers_issueFirst es
  have hbelow : ∀ x ∈ (s.issueFirst es).1, x.1.id < (s.issueFirst es).2.nextStep := by
    intro x hx
    have hmem : x.1.id ∈ List.range' s.nextStep es.length :=
      hnumbers ▸ List.mem_map_of_mem (f := fun x => x.1.id) hx
    rw [issueFirst_snd]
    exact (List.mem_range'_1.mp hmem).2
  have hdistinct : ((s.issueFirst es).1.map (·.1.id)).Nodup := hnumbers ▸ List.nodup_range'
  constructor
  case below =>
    intro l' task' hl'
    obtain ⟨x, hx, heq⟩ := List.mem_map.mp hl'
    cases heq
    exact hbelow x hx
  case known =>
    rintro j ⟨⟩
    exact hbelow _ h
  case stands =>
    intro l' task' hl' hid
    obtain ⟨x, hx, heq⟩ := List.mem_map.mp hl'
    cases heq
    cases List.inj_on_of_nodup_map hdistinct hx h (Option.some.inj hid).symm
    exact ⟨task_issueFirst es _ h, fun _ => Nat.zero_le _⟩

theorem leads_threads (p : Pattern R) (i place : Option Nat) :
    Threads plan (Step.Leads plan p i place) where
  sub H h := H.sub fun _ _ hl => h.subset hl
  closing H := H.sub fun _ _ hl => (List.mem_cons.mp hl).resolve_left nofun
  turn H := H.trans fun _ _ T => T.turn List.mem_cons_self fun _ hy =>
    (List.mem_append.mp hy).symm.imp_left (List.mem_cons_of_mem _)

theorem leads_openVibration {v : Vibration R} (t : Nat)
    (H : Step.Traced p i place (s.issueFirst (s.effects v)).2.nextStep
      ((s.issueFirst (s.effects v)).1.map fun x => .lane x.1 x.2.1)) :
    Step.Leads plan p i place (s.turns plan (.start v t)) (s.openVibration plan v).stage.nextStep
      (s.openVibration plan v).next := (leads_threads p i place).openVibration (.rfl H)

end Stage

namespace Run

variable {r : Run R} {i place : Option Nat} {v : Vibration R} {asked : Nat}

omit [Level R] in
theorem due_cases (r : Run R) (m : Move R) :
    r.due m = [] ∨ m = .play ∧ ∃ x q, r.queue.popDue r.now = some (x, q) ∧ r.due m = [x] := by
  cases m with
  | hear | cancel | world => exact .inl rfl
  | play =>
    cases h : r.queue.popDue r.now with
    | none => exact .inl (by rw [due, h]; rfl)
    | some y => exact .inr ⟨rfl, y.1, y.2, rfl, by rw [due, h]; rfl⟩

theorem Moved.leads {m : Move R} {r' : Run R} (M : r.Moved m r') (H : r.Phase v asked) {n : Int}
    (started : r.stage.startResult = some n) (uncancelled : r'.cancelled = none)
    (T : Step.Traced p i place r.stage.nextStep r.queue.items) :
    Step.Leads r.plan p i place ((r.due m).flatMap (r.stage.turns r.plan)) r'.stage.nextStep
      r'.queue.items := by
  cases M with
  | idle hdue =>
    unfold due
    rw [hdue]
    exact .rfl T
  | @played x q hdue =>
    unfold due
    rw [hdue]
    simp only [Option.toList_some, List.map_cons, List.map_nil, List.flatMap_cons,
      List.flatMap_nil, List.append_nil]
    have hitems := Queue.items_of_popDue hdue
    cases x with
    | start w t =>
      obtain ⟨hnone, -⟩ := H.of_opening (Queue.parts_of_popDue hdue ▸ List.mem_cons_self)
      rw [started] at hnone
      cases hnone
    | lane l task =>
      refine T.turn (t := ⟨r.stage, l, task⟩) (hitems ▸ List.mem_cons_self) fun y hy => ?_
      rw [hitems]
      rcases List.mem_append.mp ((q.items_extend _).mem_iff.mp hy) with hy | hy
      · exact .inr hy
      · exact .inl (List.mem_cons_of_mem _ hy)
    | finish =>
      refine (Step.Leads.rfl T).sub fun l task hl => ?_
      rw [hitems]
      refine List.mem_cons_of_mem _ ?_
      exact (List.mem_append.mp ((q.items_extend _).mem_iff.mp hl)).resolve_left List.not_mem_nil
  | @heard e q h =>
    have hkept := h.items
      (fun x => ∀ l task, x = .lane l task →
        l.id < r.stage.nextStep ∧ (i = some l.id → task.Stands p place))
      (fun x a step hx => by
        rcases Queue.accept_cases x a step r.now with h | ⟨l, task, j, rfl, -, -, -, h⟩ <;> rw [h]
        · exact hx
        · rintro l' task' ⟨⟩
          exact hx l task rfl)
      (fun x hx l task heq => ⟨T.below l task (heq ▸ hx), T.stands l task (heq ▸ hx)⟩)
    exact .rfl ⟨fun l task hl => (hkept _ hl l task rfl).1, T.known,
      fun l task hl => (hkept _ hl l task rfl).2⟩
  | ignored h =>
    rw [h] at uncancelled
    cases uncancelled
  | graceful | immediate => cases uncancelled
  | world f => exact .rfl T

/-- Once a chain has begun, the turns of a run lead along it. -/
theorem course_moves {ms : List (Move R)} (H : r.Phase v asked) (K : r.queue.Kept) {n : Int}
    (started : r.stage.startResult = some n) (uncancelled : (r.moves ms).cancelled = none)
    (T : Step.Traced p i place r.stage.nextStep r.queue.items) :
    Course r.plan p place (Turn.chain r.plan i (r.turns ms)) := by
  induction ms generalizing r i place n with
  | nil => exact .nil
  | cons m ms ih =>
    have M := r.move_moved m
    obtain ⟨i', place', T', hcourse⟩ :=
      M.leads H started (uncancelled_of_moves (r := r.move m) uncancelled) T
    have hrest := ih (H.moved K M) (M.kept K) (startResult_moves H K started [m]) uncancelled T'
    rw [M.plan] at hrest
    exact hcourse _ hrest

theorem firsts_of_started {ms : List (Move R)} (H : r.Phase v asked) (K : r.queue.Kept) {n : Int}
    (started : r.stage.startResult = some n) : r.firsts ms = [] := by
  induction ms generalizing r n with
  | nil => rfl
  | cons m ms ih =>
    have M := r.move_moved m
    have hrest := ih (H.moved K M) (M.kept K) (startResult_moves H K started [m])
    unfold firsts
    rw [hrest, List.append_nil]
    rcases r.due_cases m with hdue | ⟨-, x, q, hpop, hdue⟩ <;> rw [hdue]
    · rfl
    · cases x with
      | lane | finish => rfl
      | start w t =>
        obtain ⟨hnone, -⟩ := H.of_opening (Queue.parts_of_popDue hpop ▸ List.mem_cons_self)
        rw [started] at hnone
        cases hnone

omit [Level R] in
/-- Only the opening step is played in a run that has not been started. -/
theorem Phase.opening_of_waiting (H : r.Phase v asked) (h : r.stage.startResult = none) :
    ∀ x ∈ r.queue.items, x = .start v asked := by
  cases H with
  | waiting _ _ _ items => exact items
  | playing n _ start | closed n start =>
    rw [start] at h
    cases h

/-- The chain of a first step that is issued in the course of some moves. -/
theorem course_of_first {ms : List (Move R)} (H : r.Phase v asked) (K : r.queue.Kept)
    (uncancelled : (r.moves ms).cancelled = none) {l : Lane} {task : Task R}
    (h : (l, task, .pattern p) ∈ r.firsts ms) :
    Course r.plan p (some 0) (Turn.chain r.plan (some l.id) (r.turns ms)) := by
  induction ms generalizing r with
  | nil => cases h
  | cons m ms ih =>
    have M := r.move_moved m
    have hwaiting : r.stage.startResult = none := by
      cases hstart : r.stage.startResult with
      | none => rfl
      | some n =>
        rw [firsts_of_started H K hstart] at h
        cases h
    unfold firsts at h
    unfold turns
    rcases r.due_cases m with hdue | ⟨rfl, x, q, hpop, hdue⟩
    · rw [hdue] at h ⊢
      have hrest := ih (H.moved K M) (M.kept K) uncancelled h
      rwa [M.plan] at hrest
    · cases H.opening_of_waiting hwaiting x (Queue.items_of_popDue hpop ▸ List.mem_cons_self)
      rcases M.opens H with hsame | ⟨-, -, O⟩
      · exact absurd hsame (by
          rw [r.move_play hpop]
          exact H.startResult_ne hpop)
      · have hstart : (r.move .play).stage.startResult =
            some (r.stage.openVibration r.plan v).result := by
          rw [O.stage, Stage.startResult_openVibration]
        rw [hdue, firsts_of_started (H.moved K M) (M.kept K) hstart, List.append_nil,
          List.flatMap_singleton] at h
        rw [hdue, List.flatMap_singleton]
        obtain ⟨i', place', T, hcourse⟩ :=
          Step.Leads.sub (Stage.leads_openVibration asked (Stage.traced_first h))
            fun _ _ hl => O.items.mem_iff.mp hl
        rw [← O.stage] at T
        have hrest := course_moves (H.moved K M) (M.kept K) hstart uncancelled T
        rw [M.plan] at hrest
        exact hcourse _ hrest

end Run

/-! ## The course of a chain -/

omit [Level R] in
theorem Turn.block_of_cleanup {t : Turn R} (h : t.task.isCleanup = true) : t.block? = none := by
  unfold block?
  cases ht : t.task with
  | complete | rampOff | turnOff | vendor => rfl
  | hold | prebaked | composition | ramps | envelope =>
    rw [ht] at h
    cases h

omit [Level R] in
@[simp] theorem Turn.consumed_cons (t : Turn R) (ts : List (Turn R)) :
    consumed (t :: ts) = (t.block?.map (·.2)).getD 0 + consumed ts := by
  unfold consumed
  cases ht : t.block? with
  | none => rw [List.filterMap_cons_none ht, Option.map_none, Option.getD_none, Nat.zero_add]
  | some b =>
    rw [List.filterMap_cons_some ht, List.map_cons, List.sum_cons, Option.map_some,
      Option.getD_some]

namespace Course

variable {place : Option Nat} {ts : List (Turn R)}

/-- Behind the completion nothing is consumed. -/
theorem block_none (H : Course plan p none ts) : ts.filterMap Turn.block? = [] := by
  generalize hplace : none = place at H
  induction H with
  | nil => rfl
  | wait | block | complete => cases hplace
  | cleanup task _ ih =>
    rw [List.filterMap_cons_none (Turn.block_of_cleanup task)]
    exact ih hplace

theorem consumed_eq_zero (H : Course plan p none ts) : Turn.consumed ts = 0 := by
  rw [Turn.consumed, H.block_none]
  rfl

theorem inOrder (H : Course plan p place ts) : ∀ k ∈ place,
    (ts.filterMap Turn.block?).flatMap (fun b => List.range' b.1 b.2) =
      (List.range' k (Turn.consumed ts)).map p.unroll := by
  induction H with
  | nil => exact fun _ _ => rfl
  | wait hnone _ _ ih =>
    intro k hk
    rw [List.filterMap_cons_none hnone, Turn.consumed_cons, hnone, ih k hk, Option.map_none,
      Option.getD_none, Nat.zero_add]
  | @block k c t ts taken block _ ih =>
    rintro _ ⟨⟩
    have hblock : List.range' (p.unroll k) c = (List.range' k c).map p.unroll := by
      refine List.ext_getElem (by simp) fun j hj _ => ?_
      have hinside := block.inside
      rw [List.length_range'] at hj
      rw [List.getElem_map, List.getElem_range', List.getElem_range', Nat.one_mul,
        Pattern.unroll_add (by omega)]
    rw [List.filterMap_cons_some taken, List.flatMap_cons, Turn.consumed_cons, taken, ih _ rfl,
      Option.map_some, Option.getD_some, hblock, ← List.map_append, List.range'_append_1]
  | @complete t ts _ task rest _ =>
    intro k _
    have ht : t.block? = none := Turn.block_of_cleanup (by rw [task]; rfl)
    rw [List.filterMap_cons_none ht, Turn.consumed_cons, ht, rest.block_none,
      rest.consumed_eq_zero]
    rfl
  | cleanup => exact fun _ hk => nomatch hk

theorem blocks (H : Course plan p place ts) {t : Turn R} (ht : t ∈ ts) {i c : Nat}
    (h : t.block? = some (i, c)) : t.Block plan p i c := by
  induction H with
  | nil => cases ht
  | wait hnone _ _ ih =>
    rcases List.mem_cons.mp ht with rfl | ht
    · rw [hnone] at h
      cases h
    · exact ih ht
  | block taken block _ ih =>
    rcases List.mem_cons.mp ht with rfl | ht
    · rw [taken] at h
      cases h
      exact block
    · exact ih ht
  | complete _ task _ ih =>
    rcases List.mem_cons.mp ht with rfl | ht
    · rw [Turn.block_of_cleanup (by rw [task]; rfl)] at h
      cases h
    · exact ih ht
  | cleanup task _ ih =>
    rcases List.mem_cons.mp ht with rfl | ht
    · rw [Turn.block_of_cleanup task] at h
      cases h
    · exact ih ht

/-- In front of a completion lies what is left of a pattern that does not repeat. -/
theorem completes (H : Course plan p place ts) {before after : List (Turn R)} {t : Turn R}
    {cancelled : Bool} (hts : ts = before ++ t :: after) (task : t.task = .complete cancelled) :
    ∀ k ∈ place, p.loopStart = none ∧ k + Turn.consumed before = p.segments.length := by
  induction H generalizing before with
  | nil => exact absurd hts.symm (List.append_ne_nil_of_right_ne_nil _ (List.cons_ne_nil _ _))
  | @wait k t' ts hnone hold _ ih =>
    rintro _ ⟨⟩
    cases before with
    | nil =>
      cases hts
      obtain ⟨q, hq⟩ := hold
      rw [task] at hq
      cases hq
    | cons b before =>
      cases hts
      rw [Turn.consumed_cons, hnone, Option.map_none, Option.getD_none, Nat.zero_add]
      exact ih rfl _ rfl
  | @block k c t' ts taken _ _ ih =>
    rintro _ ⟨⟩
    cases before with
    | nil =>
      cases hts
      rw [Turn.block_of_cleanup (by rw [task]; rfl)] at taken
      cases taken
    | cons b before =>
      cases hts
      rw [Turn.consumed_cons, taken, Option.map_some, Option.getD_some, ← Nat.add_assoc]
      exact ih rfl _ rfl
  | @complete t' ts once task' rest _ =>
    rintro _ ⟨⟩
    refine ⟨once, ?_⟩
    cases before with
    | nil => rfl
    | cons b before =>
      cases hts
      have ht : t'.block? = none := Turn.block_of_cleanup (by rw [task']; rfl)
      have hnone : (before ++ t :: after).filterMap Turn.block? = [] := rest.block_none
      rw [List.filterMap_append] at hnone
      rw [Turn.consumed_cons, ht, Turn.consumed, (List.append_eq_nil_iff.mp hnone).1]
      rfl
  | cleanup => exact fun _ hk => nomatch hk

end Course

/-- In a run that nobody cancels, the turns that go back to the first step of an effect walk through
its pattern, whatever the hardware answers and reports. -/
theorem Run.walked_moves (plan : Plan R) (v : Vibration R) (rig : Rig R) (asked : Nat)
    (ms : List (Move R)) (uncancelled : ((fresh plan v rig asked).moves ms).cancelled = none)
    {l : Lane} {task : Task R} {p : Pattern R}
    (h : (l, task, .pattern p) ∈ (fresh plan v rig asked).firsts ms) :
    p.Walked plan (Turn.chain plan (some l.id) ((fresh plan v rig asked).turns ms)) := by
  have H : Course plan p (some 0) _ := course_of_first (fresh_phase plan v rig asked)
    (fresh_kept plan v rig asked) uncancelled h
  constructor
  case inOrder =>
    rw [List.range_eq_range']
    exact H.inOrder 0 rfl
  case blocks => exact fun t ht i c => H.blocks ht
  case completes =>
    intro before t after cancelled hts task
    obtain ⟨once, hlength⟩ := H.completes hts task 0 rfl
    exact ⟨once, (Nat.zero_add _).symm.trans hlength⟩

end

namespace Run

/-- A hold, and then two ramps over and over. -/
def sway : Pattern Rat :=
  .ofSegments [.hold ⟨.level 1, 0, 30⟩, .ramp ⟨0, 1, 0, 0, 40⟩, .ramp ⟨1, 0, 0, 0, 40⟩] (some 1)

theorem walked_moves_sway : let r := bench (.mono (.pattern sway)) [0]
    let ms := [.play, .world (·.moveTo 30), .play, .play]
    let l : Lane := { id := 1, start := .at 0, actuator := 0, deadline := .idle }
    (r.moves ms).cancelled = none ∧ (l, .hold ⟨sway, 0⟩, .pattern sway) ∈ r.firsts ms ∧
      sway.Walked r.plan (Turn.chain r.plan (some l.id) (r.turns ms)) :=
  have uncancelled : ((bench (.mono (.pattern sway)) [0]).moves
      [.play, .world (·.moveTo 30), .play, .play]).cancelled = none := by decide +kernel
  have h : (({ id := 1, start := .at 0, actuator := 0, deadline := .idle } : Lane),
      Task.hold ⟨sway, 0⟩, .pattern sway) ∈ (bench (.mono (.pattern sway)) [0]).firsts
        [.play, .world (·.moveTo 30), .play, .play] := List.mem_cons_self
  ⟨uncancelled, h, walked_moves _ _ _ _ _ uncancelled h⟩

example : let r := bench (.mono (.pattern sway)) [0]
    (Turn.chain r.plan (some 1) (r.turns
      [.play, .world (·.moveTo 30), .play, .play])).map Turn.block? =
        [some (0, 1), some (1, 2), some (1, 2)] := by
  decide +kernel

end Run
end Haptics
