import Haptics.Proofs.OwnSteps
import Haptics.Proofs.Succession
import Mathlib.Data.List.Chain

/-!
# Following one actuator

What happens to an actuator in a run is decided by its own turns, by the reports and cancels that
reach its step, and by the hardware. `Run.Follows` collects what has to be shown of each of these
for a statement about the actuator's turns, the stage and its step in flight to stay true. Other
actuators leave it alone (`Stage.Aside`), also while a vibration is opened, so such a statement then
holds in every run (`Run.Follows.moves`).
-/

namespace Haptics

variable {R : Type}

/-! ## What others do -/

/-- From one stage to another nothing was done to an actuator. -/
structure Stage.Aside (a : ActuatorId) (s s' : Stage R) : Prop where
  history : ∃ ds, s'.history = s.history ++ ds ∧ ∀ d ∈ ds, d.actuator? ≠ some a
  device : s'.rig.device? a = s.rig.device? a
  now : s'.now = s.now

/-- From one stage to another nothing was turned on. -/
structure Stage.Subsides (a : ActuatorId) (s s' : Stage R) : Prop where
  history : ∃ ds, s'.history = s.history ++ ds ∧ ∀ d ∈ ds, d.answer? = none
  active : s'.rig.isActive a = true → s.rig.isActive a = true
  now : s'.now = s.now

namespace Stage

variable {a b : ActuatorId} {s t : Stage R} {ds : List (Deed R)}

namespace Aside

theorem isActive (H : Aside a s t) : t.rig.isActive a = s.rig.isActive a :=
  Rig.isActive_congr H.device

theorem of_does (H : Does b ds s t) (h : b ≠ a) : Aside a s t where
  history := ⟨ds, H.history, fun d hd heq => h (Option.some.inj ((H.own d hd).symm.trans heq))⟩
  device := H.others a h.symm
  now := H.now

theorem of_calls (H : Calls ds s t) (own : ∀ d ∈ ds, d.actuator? = none) : Aside a s t where
  history := ⟨ds, H.history, fun d hd heq => by rw [own d hd] at heq; cases heq⟩
  device := by rw [Rig.device?, H.devices, Rig.device?]
  now := H.now

end Aside

namespace Subsides

variable [Level R]

theorem tearDown (s : Stage R) (plan : Plan R) (xs : List (Step R)) :
    Subsides a s (s.tearDown plan xs) where
  history := ⟨_, s.history_tearDown plan xs, fun d hd => by
    obtain ⟨x, -, hx⟩ := List.mem_filterMap.mp hd
    exact Step.answer_of_undoing hx⟩
  active on := by
    rw [isActive_tearDown] at on
    exact (Bool.and_eq_true_iff.mp on).1
  now := s.tearDown_now plan xs

end Subsides
end Stage

/-! ## Reports and turns of one actuator -/

/-- A report may be for an actuator. -/
def Event.Concerns (a : ActuatorId) : Event → Prop
  | .stepComplete b _ _ => b = a
  | .syncedComplete _ => True

/-- The step that a report is for, if it names one. -/
def Event.named? : Event → Option Nat
  | .stepComplete _ _ i => some i
  | .syncedComplete _ => none

namespace Step

variable {a : ActuatorId} {l : Lane} {task : Task R} {xs ys : List (Step R)}

/-- The steps of an actuator among some that were not released. -/
def waiting (a : ActuatorId) (xs : List (Step R)) : List (Bool × Lane × Task R) :=
  (xs.filterMap (own? a)).map (false, ·)

theorem waiting_append : waiting a (xs ++ ys) = waiting a xs ++ waiting a ys := by
  rw [waiting, List.filterMap_append, List.map_append]
  rfl

theorem waiting_own (h : l.actuator = a) :
    waiting a (.lane l task :: xs) = (false, l, task) :: waiting a xs := by
  rw [waiting, List.filterMap_cons_some (own_lane h task)]
  rfl

theorem waiting_other (h : l.actuator ≠ a) : waiting a (.lane l task :: xs) = waiting a xs := by
  rw [waiting, List.filterMap_cons_none (own_lane_of_ne h task)]
  rfl

/-- The step of an actuator among first steps of different ones. -/
theorem waiting_firsts {firsts : List (Lane × Task R × Effect R)}
    (distinct : (firsts.map (·.1.actuator)).Nodup) : ∃ x : Option (Bool × Lane × Task R),
      waiting a (firsts.map fun y => .lane y.1 y.2.1) = x.toList ∧
      ∀ z ∈ x, ∃ y ∈ firsts, y.1.actuator = a ∧ z = (false, y.1, y.2.1) := by
  induction firsts with
  | nil => exact ⟨none, rfl, fun z hz => absurd hz (Option.not_mem_none z)⟩
  | cons y firsts ih =>
    obtain ⟨hy, hrest⟩ := List.nodup_cons.mp distinct
    obtain ⟨x, hx, hfirst⟩ := ih hrest
    rw [List.map_cons]
    by_cases ha : y.1.actuator = a
    · have hnone : x = none := by
        refine Option.eq_none_iff_forall_not_mem.mpr fun z hz => hy ?_
        obtain ⟨y', hmem, ha', -⟩ := hfirst z hz
        exact List.mem_map.mpr ⟨y', hmem, ha'.trans ha.symm⟩
      rw [hnone] at hx
      refine ⟨some (false, y.1, y.2.1), (waiting_own ha).trans (by rw [hx]; rfl), ?_⟩
      rintro z ⟨⟩
      exact ⟨y, List.mem_cons_self, ha, rfl⟩
    · refine ⟨x, (waiting_other ha).trans hx, fun z hz => ?_⟩
      obtain ⟨y', hmem, hy'⟩ := hfirst z hz
      exact ⟨y', List.mem_cons_of_mem _ hmem, hy'⟩

end Step

namespace Queue

variable {a : ActuatorId} {q q' : Queue (Step R)} {x : Option (Bool × Lane × Task R)}

theorem actuator_of_own {y : Bool × Lane × Task R} (h : y ∈ q.own a) : y.2.1.actuator = a := by
  have hsnd : y.2 ∈ q.items.filterMap (Step.own? a) :=
    own_map_snd ▸ List.mem_map_of_mem h
  obtain ⟨z, -, hz⟩ := List.mem_filterMap.mp hsnd
  exact (Step.own_eq_some.mp hz).2

/-- What comes into a queue without a step of the actuator. -/
theorem own_extend_toList (h : q.own a = []) {xs : List (Step R)}
    (hxs : Step.waiting a xs = x.toList) : (q.extend xs).own a = x.toList := by
  have hone : (xs.filterMap (Step.own? a)).length ≤ 1 := by
    have hlength := congrArg List.length hxs
    rw [Step.waiting, List.length_map] at hlength
    rw [hlength]
    exact Option.length_toList_le
  rw [own_extend h hone]
  exact hxs

/-- A report that concerns an actuator changes only the step of it that waits. -/
theorem own_acceptCompletion_toList (hown : q.own a = x.toList) (b : ActuatorId)
    (step : Option Nat) (now : Nat) : (q.acceptCompletion b step now).2.own a = x.toList ∨
      b = a ∧ ∃ l task, x = some (false, l, task) ∧ l.actuator = a ∧
        (q.acceptCompletion b step now).2.own a =
          [((l.accept a step now).1, (l.accept a step now).2, task)] := by
  by_cases hb : b = a
  · subst hb
    have hone : (q.own b).length ≤ 1 := by
      rw [hown]
      exact Option.length_toList_le
    have hreport := own_acceptCompletion_own now step hone
    rw [hown] at hreport
    match x, hreport with
    | none, hreport => exact .inl hreport
    | some (true, l, task), hreport => exact .inl hreport
    | some (false, l, task), hreport =>
      have hmem : (false, l, task) ∈ q.own b := by
        rw [hown]
        exact List.mem_singleton_self _
      have hl : l.actuator = b := actuator_of_own hmem
      exact .inr ⟨rfl, l, task, rfl, hl, hreport⟩
  · rw [own_acceptCompletion_aside now step hb]
    exact .inl hown

end Queue

namespace Turn

variable {a : ActuatorId} {t : Turn R} {ts us : List (Turn R)}

/-- The turns of an actuator. -/
def of (a : ActuatorId) (ts : List (Turn R)) : List (Turn R) :=
  ts.filter fun t => decide (t.lane.actuator = a)

theorem of_append : of a (ts ++ us) = of a ts ++ of a us := List.filter_append ..

theorem of_own (h : t.lane.actuator = a) : of a [t] = [t] := by simp [of, h]

theorem of_other (h : t.lane.actuator ≠ a) : of a [t] = [] := by simp [of, h]

variable [Level R]

/-- The step that a turn leaves, which waits for its time. -/
def left? (plan : Plan R) (t : Turn R) : Option (Bool × Lane × Task R) :=
  match (t.played plan).next with
  | .lane l task :: _ => some (false, l, task)
  | _ => none

/-- A turn leaves no step of another actuator. -/
theorem next_other (plan : Plan R) (h : t.lane.actuator ≠ a) :
    (t.played plan).next.filterMap (Step.own? a) = [] := by
  refine List.filterMap_eq_nil_iff.mpr fun x hx => ?_
  have hpart := (t.played_plays plan).lanes x hx
  cases x with
  | lane l task =>
    exact Step.own_lane_of_ne (fun ha => h ((Part.lane.inj hpart).symm.trans ha)) task
  | start | finish => rfl

theorem waiting_next (plan : Plan R) (t : Turn R) :
    Step.waiting t.lane.actuator (t.played plan).next = (t.left? plan).toList := by
  have hlanes : ∀ x ∈ (t.played plan).next, x.part = .lane t.lane.actuator :=
    (t.played_plays plan).lanes
  unfold left?
  rcases t.next_cases plan with hnext | ⟨l, task, hnext⟩ <;> rw [hnext] at hlanes ⊢
  · rfl
  · have hpart := hlanes _ (List.mem_singleton_self _)
    rw [Step.waiting_own (Part.lane.inj hpart)]
    rfl

end Turn

section
variable [Level R]

/-! ## What stays true of an actuator -/

/-- What is said of the turns of an actuator so far, of the stage and of its step in flight, with
whether that was released, and stays true whatever others do, and whatever the actuator does in its
turns. Of the other moves only some may be allowed. -/
structure Run.Follows (plan : Plan R) (a : ActuatorId) (allowed : Stage R → Move R → Prop)
    (M : List (Turn R) → Stage R → Option (Bool × Lane × Task R) → Prop) : Prop where
  aside : ∀ {ts s s' x}, M ts s x → s.Aside a s' → M ts s' x
  turn : ∀ {ts t released}, M ts t.stage (some (released, t.lane, t.task)) → t.lane.actuator = a →
    (released || t.lane.start.isDue t.stage.now) = true →
    M (ts ++ [t]) (t.played plan).stage (t.left? plan)
  heard : ∀ {ts s e l task}, allowed s (.hear e) → M ts s (some (false, l, task)) →
    l.actuator = a → e.Concerns a →
    M ts s (some ((l.accept a e.named? s.now).1, (l.accept a e.named? s.now).2, task))
  remnant : ∀ {ts s released l task} i, allowed s (.cancel .graceful) →
    M ts s (some (released, l, task)) → l.actuator = a → M ts s (some (false,
      { id := i, start := .at s.now, actuator := l.actuator, deadline := l.deadline },
      task.remnant))
  /-- The step is given up. -/
  cleared : ∀ {ts s s' x}, M ts s x → s.Subsides a s' → M ts s' none
  world : ∀ {ts s f x}, allowed s (.world f) → M ts s x →
    M ts { s with rig := (f s.rig).moveTo s.now } x

/-- Each of some moves is allowed where it is made. -/
def Run.Allows (allowed : Stage R → Move R → Prop) : Run R → List (Move R) → Prop
  | _, [] => True
  | r, m :: ms => allowed r.stage m ∧ Allows allowed (r.move m) ms

omit [Level R] in
/-- In a run that was not started there is no step but the opening one. -/
theorem Run.Phase.own_of_waiting {r : Run R} {v : Vibration R} {asked : Nat} (H : r.Phase v asked)
    (h : r.stage.startResult = none) (a : ActuatorId) : r.queue.own a = [] := by
  have hnone : r.queue.items.filterMap (Step.own? a) = [] := by
    refine List.filterMap_eq_nil_iff.mpr fun x hx => ?_
    rw [H.opening_of_waiting h x hx]
    rfl
  rw [← Queue.own_map_snd] at hnone
  exact List.map_eq_nil_iff.mp hnone

/-- A step that is played and is not of an actuator leaves that alone. -/
theorem Run.play_other {r : Run R} {v : Vibration R} {asked : Nat} {n : Int} {a : ActuatorId}
    {x : Step R} {q : Queue (Step R)} (phase : r.Phase v asked)
    (started : r.stage.startResult = some n) (hpop : r.queue.popDue r.now = some (x, q))
    (other : x.own? a = none) : r.stage.Aside a (r.move .play).stage ∧
      (r.move .play).queue.own a = r.queue.own a ∧
      Turn.of a (r.stage.turns r.plan x) = [] := by
  have hown := Queue.own_popDue_aside hpop other
  rw [r.move_play hpop]
  cases x with
  | start w t =>
    obtain ⟨hnone, -⟩ := phase.of_opening (Queue.parts_of_popDue hpop ▸ List.mem_cons_self)
    rw [started] at hnone
    cases hnone
  | lane l task =>
    let t : Turn R := ⟨r.stage, l, task⟩
    have ha : t.lane.actuator ≠ a := fun ha => by
      rw [Step.own_lane ha] at other
      cases other
    obtain ⟨ds, hds, -⟩ := (l.play_plays r.stage r.plan task).deeds
    exact ⟨.of_does hds ha, (Queue.own_extend_aside (t.next_other r.plan ha)).trans hown,
      Turn.of_other ha⟩
  | finish =>
    refine ⟨.of_calls (.tell _ _) fun d hd => ?_, hown, rfl⟩
    rw [List.mem_singleton.mp hd]
    rfl

namespace Run.Follows

variable {plan : Plan R} {a : ActuatorId} {allowed : Stage R → Move R → Prop}
  {M : List (Turn R) → Stage R → Option (Bool × Lane × Task R) → Prop} {ts : List (Turn R)}
  {s s' : Stage R} {x : Option (Bool × Lane × Task R)} (F : Run.Follows plan a allowed M)
include F

/-! ### While a vibration is opened -/

/-- One of some steps is played. If it is of another actuator, it leaves this one alone. -/
theorem step {l : Lane} {task : Task R} {xs ys : List (Step R)} (due : l.start = .at s.now)
    (own : Step.waiting a (xs ++ .lane l task :: ys) = x.toList) (h : M ts s x) :
    ∃ x', M (ts ++ Turn.of a [⟨s, l, task⟩]) (l.play plan s task).stage x' ∧
      Step.waiting a (xs ++ (l.play plan s task).next ++ ys) = x'.toList := by
  let t : Turn R := ⟨s, l, task⟩
  rw [Step.waiting_append] at own
  rw [Step.waiting_append, Step.waiting_append]
  by_cases ha : l.actuator = a
  · rw [Step.waiting_own ha] at own
    obtain ⟨hxs, rfl, hys⟩ : Step.waiting a xs = [] ∧ x = some (false, l, task) ∧
        Step.waiting a ys = [] := by
      cases x with
      | none => exact absurd own (List.append_ne_nil_of_right_ne_nil _ (List.cons_ne_nil _ _))
      | some y =>
        rcases List.append_eq_singleton_iff.mp own with ⟨hxs, hcons⟩ | ⟨-, hcons⟩
        · injection hcons with hy hys
          exact ⟨hxs, congrArg some hy.symm, hys⟩
        · cases hcons
    refine ⟨t.left? plan, ?_, ?_⟩
    · rw [Turn.of_own (t := t) ha]
      exact F.turn (t := t) h ha (by rw [due]; exact decide_eq_true (Nat.le_refl _))
    · subst ha
      rw [hxs, hys, List.append_nil]
      exact t.waiting_next plan
  · obtain ⟨ds, hds, -⟩ := (l.play_plays s plan task).deeds
    have hnext : Step.waiting a (l.play plan s task).next = [] :=
      congrArg (List.map _) (t.next_other plan ha)
    refine ⟨x, ?_, ?_⟩
    · rw [Turn.of_other (t := t) ha, List.append_nil]
      exact F.aside h (.of_does hds ha)
    · rw [Step.waiting_other ha] at own
      rwa [hnext, List.append_nil]

/-- The first steps are played in order. -/
theorem openEach {firsts : List (Lane × Task R × Effect R)} (next : List (Step R)) (longest : Int)
    (due : ∀ y ∈ firsts, y.1.start = .at s.now)
    (own : Step.waiting a (next ++ firsts.map fun y => .lane y.1 y.2.1) = x.toList)
    (h : M ts s x) : ∃ x', M (ts ++ Turn.of a (s.turnsEach plan firsts))
        (s.openEach plan next longest firsts).stage x' ∧
      ((s.openEach plan next longest firsts).longest ≠ none →
        Step.waiting a (s.openEach plan next longest firsts).next = x'.toList) := by
  induction firsts generalizing s next longest ts x with
  | nil =>
    refine ⟨x, ?_, fun _ => ?_⟩
    · show M (ts ++ []) s x
      rwa [List.append_nil]
    · rwa [List.map_nil, List.append_nil] at own
  | cons y firsts ih =>
    obtain ⟨l, task, e⟩ := y
    obtain ⟨x', h', own'⟩ := F.step (due _ List.mem_cons_self) own h
    have hof (us : List (Turn R)) :
        Turn.of a (⟨s, l, task⟩ :: us) = Turn.of a [⟨s, l, task⟩] ++ Turn.of a us :=
      List.filter_append [_] us
    unfold Stage.openEach Stage.turnsEach
    dsimp only
    rw [hof, ← List.append_assoc]
    split
    · refine ⟨x', ?_, fun hnone => absurd rfl hnone⟩
      show M (ts ++ Turn.of a [⟨s, l, task⟩] ++ []) _ x'
      rwa [List.append_nil]
    · obtain ⟨ds, hds, -⟩ := (l.play_plays s plan task).deeds
      refine ih _ _ (fun y hy => ?_) own' h'
      rw [due y (List.mem_cons_of_mem _ hy)]
      exact congrArg StartTime.at hds.now.symm

/-- Ending a start calls for no actuator, or it undoes the start. -/
theorem close {o : Opened R} (own : o.longest ≠ none → Step.waiting a o.next = x.toList)
    (h : M ts o.stage x) (prepared : Bool) : ∃ x', M ts (o.close plan prepared).stage x' ∧
      Step.waiting a (o.close plan prepared).next = x'.toList := by
  cases hl : o.longest with
  | none =>
    obtain ⟨t, settled, C, heq, S⟩ := o.close_failed plan prepared hl
    rw [heq]
    exact ⟨none, F.aside (F.cleared h (.tearDown o.stage plan _)) (.of_calls C S.actuator), rfl⟩
  | some m =>
    obtain ⟨t, settled, C, heq, S⟩ := o.close_settles plan prepared hl
    rw [heq]
    exact ⟨x, F.aside h (.of_calls C S.actuator), own (by rw [hl]; nofun)⟩

theorem openAll {es : List (ActuatorId × Effect R)}
    (own : Step.waiting a ((s.issueFirst es).1.map fun y => .lane y.1 y.2.1) = x.toList)
    (h : M ts (s.issueFirst es).2 x) : ∃ x',
      M (ts ++ Turn.of a (s.turnsAll plan es)) (s.openAll plan es).stage x' ∧
      Step.waiting a (s.openAll plan es).next = x'.toList := by
  have hdue : ∀ y ∈ (s.issueFirst es).1, y.1.start = .at s.now := fun y hy => by
    rw [s.lane_issueFirst es y hy]
  have hnow : (s.issueFirst es).2.now = s.now := by
    rw [Stage.issueFirst_snd]
    rfl
  unfold Stage.openAll
  split
  · rename_i hes
    obtain rfl := List.isEmpty_iff.mp hes
    refine ⟨x, ?_, own⟩
    show M (ts ++ []) s x
    rw [List.append_nil]
    exact h
  · unfold Stage.turnsAll
    generalize s.issueFirst es = issued at own h hdue hnow ⊢
    obtain ⟨firsts, t⟩ := issued
    dsimp only at own h hdue hnow ⊢
    rw [Stage.prepare_of_length]
    obtain ⟨asked, C, -, A⟩ := t.prepare_asks (requiredSync (es.map (·.2))) (es.map (·.1))
    have hprepared := F.aside h (.of_calls C A.actuator)
    have hdue' : ∀ y ∈ firsts, y.1.start =
        .at (t.prepare (requiredSync (es.map (·.2))) (es.map (·.1))).2.now := fun y hy => by
      rw [hdue y hy, C.now, hnow]
    obtain ⟨x', h', own'⟩ := F.openEach [] 0 hdue' own hprepared
    exact F.close own' h' _

theorem openVibration {v : Vibration R}
    (own : Step.waiting a ((s.issueFirst (s.effects v)).1.map fun y => .lane y.1 y.2.1) =
      x.toList)
    (h : M ts (s.issueFirst (s.effects v)).2 x) : ∃ x',
      M (ts ++ Turn.of a (s.turnsAll plan (s.effects v))) (s.openVibration plan v).stage x' ∧
      Step.waiting a (s.openVibration plan v).next = x'.toList := by
  obtain ⟨x', h', own'⟩ := F.openAll own h
  have hset : M (ts ++ Turn.of a (s.turnsAll plan (s.effects v)))
      { (s.openAll plan (s.effects v)).stage with
        startResult := some (s.openAll plan (s.effects v)).result } x' :=
    F.aside h' ⟨⟨[], (List.append_nil _).symm, nofun⟩, rfl, rfl⟩
  unfold Stage.openVibration
  dsimp only
  split
  · refine ⟨x', F.aside hset (.of_calls (.tell _ _) ?_), ?_⟩
    · intro d hd
      rw [List.mem_singleton.mp hd]
      rfl
    · have hfinish : Step.waiting (R := R) a [.finish] = [] := rfl
      rwa [Step.waiting_append, hfinish, List.append_nil]
  · exact ⟨x', hset, own'⟩

/-! ### In a run -/

variable {r : Run R} {v : Vibration R} {asked : Nat} {m : Move R}

omit F in
/-- Where a run is: what is followed holds of the stage and of the actuator's step in the queue. -/
structure At (M : List (Turn R) → Stage R → Option (Bool × Lane × Task R) → Prop) (a : ActuatorId)
    (ts : List (Turn R)) (r : Run R) (x : Option (Bool × Lane × Task R)) : Prop where
  own : r.queue.own a = x.toList
  holds : M ts r.stage x

theorem hear (H : At M a ts r x) (e : Event) (ok : allowed r.stage (.hear e)) :
    ∃ x', At M a ts (r.hear e) x' := by
  have haccept (q : Queue (Step R)) (b : ActuatorId) (hb : b = a → e.Concerns a)
      (hq : ∃ y, q.own a = Option.toList y ∧ M ts r.stage y) :
      ∃ y, (q.acceptCompletion b e.named? r.now).2.own a = Option.toList y ∧ M ts r.stage y := by
    obtain ⟨y, hown, hy⟩ := hq
    rcases Queue.own_acceptCompletion_toList hown b e.named? r.now with
      hsame | ⟨hba, l, task, rfl, hl, hheard⟩
    · exact ⟨y, hsame, hy⟩
    · exact ⟨some _, hheard, F.heard ok hy hl (hb hba)⟩
  cases e with
  | stepComplete b w i =>
    obtain ⟨y, hown, hy⟩ := haccept r.queue b id ⟨x, H.own, H.holds⟩
    exact ⟨y, hown, hy⟩
  | syncedComplete w =>
    obtain ⟨y, hown, hy⟩ : ∃ y, (r.queue.acceptSynced r.now).2.own a = Option.toList y ∧
        M ts r.stage y :=
      Queue.acceptSynced_induction (M := fun q => ∃ y, q.own a = Option.toList y ∧ M ts r.stage y)
        (fun q b => haccept q b fun _ => trivial) ⟨x, H.own, H.holds⟩
    exact ⟨y, hown, hy⟩

theorem graceful (H : At M a ts r x) (hc : r.cancelled ≠ some .immediate)
    (ok : allowed r.stage (.cancel .graceful)) : ∃ x', At M a ts (r.cancel .graceful) x' := by
  have hone : (r.queue.own a).length ≤ 1 := by
    rw [H.own]
    exact Option.length_toList_le
  obtain ⟨i, -, -, hown⟩ := r.own_graceful hc hone
  have hstage := congrArg Run.stage (r.cancel_graceful_eq hc)
  have hnext : M ts (r.cancel .graceful).stage x := by
    rw [hstage]
    exact F.aside H.holds ⟨⟨[], (List.append_nil _).symm, nofun⟩, rfl, rfl⟩
  rw [H.own] at hown
  cases x with
  | none => exact ⟨none, hown, hnext⟩
  | some y =>
    obtain ⟨released, l, task⟩ := y
    have hmem : (released, l, task) ∈ r.queue.own a := by
      rw [H.own]
      exact List.mem_singleton_self _
    have hleft := F.remnant i ok H.holds (Queue.actuator_of_own hmem)
    refine ⟨some _, hown, ?_⟩
    rw [hstage]
    exact F.aside hleft ⟨⟨[], (List.append_nil _).symm, nofun⟩, rfl, rfl⟩

/-- Reports, cancels and whatever the hardware does. -/
theorem other (H : At M a ts r x) (hplay : m ≠ .play) (ok : allowed r.stage m) :
    ∃ x', At M a ts (r.move m) x' := by
  cases m with
  | play => exact absurd rfl hplay
  | hear e => exact F.hear H e ok
  | cancel mode =>
    by_cases hc : r.cancelled = some .immediate
    · have hsame : r.move (.cancel mode) = r := if_pos hc
      rw [hsame]
      exact ⟨x, H⟩
    · cases mode with
      | graceful => exact F.graceful H hc ok
      | immediate =>
        have hcancel : r.move (.cancel .immediate) = { r with
            cancelled := some .immediate
            queue := r.queue.drainReversed.2
            stage := r.stage.tearDown r.plan r.queue.drainReversed.1 } := if_neg hc
        rw [hcancel]
        exact ⟨none, Queue.own_of_items rfl, F.cleared H.holds (.tearDown ..)⟩
  | world f => exact ⟨x, H.own, F.world ok H.holds⟩

/-- A step is played in a run that was started. -/
theorem play (H : At M a ts r x) (hplan : r.plan = plan) (phase : r.Phase v asked)
    (K : r.queue.Kept) {n : Int} (started : r.stage.startResult = some n) :
    ∃ x', At M a (ts ++ Turn.of a ((r.due .play).flatMap (r.stage.turns plan)))
      (r.move .play) x' := by
  subst hplan
  cases hpop : r.queue.popDue r.now with
  | none =>
    have hdue : r.due .play = [] := by rw [due, hpop]; rfl
    rw [r.move_play_of_none hpop, hdue]
    exact ⟨x, (List.append_nil ts).symm ▸ H⟩
  | some y =>
    obtain ⟨y, q⟩ := y
    have hdue : r.due .play = [y] := by rw [due, hpop]; rfl
    rw [hdue, List.flatMap_singleton]
    cases hy : y.own? a with
    | none =>
      obtain ⟨hstage, hqueue, hturns⟩ := play_other phase started hpop hy
      rw [hturns, List.append_nil]
      exact ⟨x, hqueue.trans H.own, F.aside H.holds hstage⟩
    | some z =>
      obtain ⟨l, task⟩ := z
      obtain ⟨rfl, ha⟩ := Step.own_eq_some.mp hy
      let t : Turn R := ⟨r.stage, l, task⟩
      obtain ⟨released, hown, hdue⟩ := Queue.own_popDue K hpop ha
      rw [H.own] at hown
      cases x with
      | none => cases hown
      | some y =>
        obtain ⟨rfl, hq⟩ := List.cons.inj hown
        have hnext : Step.waiting a (t.played r.plan).next = (t.left? r.plan).toList :=
          ha ▸ t.waiting_next r.plan
        show ∃ x', At M a (ts ++ Turn.of a [t]) _ x'
        rw [r.move_play hpop, Turn.of_own (t := t) ha]
        exact ⟨_, Queue.own_extend_toList hq.symm hnext, F.turn (t := t) H.holds ha hdue⟩

/-- What is followed in a run that was started stays true. -/
theorem later (H : At M a ts r x) (hplan : r.plan = plan) (phase : r.Phase v asked)
    (K : r.queue.Kept) {n : Int} (started : r.stage.startResult = some n) {ms : List (Move R)}
    (ok : Allows allowed r ms) : ∃ x', At M a (ts ++ Turn.of a (r.turns ms)) (r.moves ms) x' := by
  induction ms generalizing r ts x with
  | nil => exact ⟨x, (List.append_nil ts).symm ▸ H⟩
  | cons m ms ih =>
    have moved := r.move_moved m
    obtain ⟨x', H'⟩ : ∃ x', At M a (ts ++ Turn.of a ((r.due m).flatMap (r.stage.turns plan)))
        (r.move m) x' := by
      by_cases hm : m = .play
      · subst hm
        exact F.play H hplan phase K started
      · obtain ⟨x', H'⟩ := F.other H hm ok.1
        have hdue : r.due m = [] := by
          cases m with
          | play => exact absurd rfl hm
          | hear | cancel | world => rfl
        rw [hdue]
        exact ⟨x', (List.append_nil ts).symm ▸ H'⟩
    have hturns : r.turns (m :: ms) =
        (r.due m).flatMap (r.stage.turns plan) ++ (r.move m).turns ms := by
      rw [← hplan]
      rfl
    rw [hturns, Turn.of_append, ← List.append_assoc]
    exact ih H' (moved.plan.trans hplan) (phase.moved K moved) (moved.kept K)
      (startResult_moves phase K started [m]) ok.2

/-- The first step of an actuator, if the vibration is for it. -/
theorem first {es : List (ActuatorId × Effect R)} (distinct : (es.map (·.1)).Nodup)
    (h : M ts s none)
    (first : ∀ l e, (a, e) ∈ es → l.actuator = a → l.start = .at s.now → l.deadline = .idle →
      l.reported = false → M ts (s.issueFirst es).2 none →
        M ts (s.issueFirst es).2 (some (false, l, .ofEffect e))) :
    ∃ x, Step.waiting a ((s.issueFirst es).1.map fun y => .lane y.1 y.2.1) = x.toList ∧
      M ts (s.issueFirst es).2 x := by
  have hfst := s.issueFirst_fst es
  have hactuators : (s.issueFirst es).1.map (·.1.actuator) = es.map (·.1) := by
    have hmap := congrArg (List.map (·.1)) hfst
    rwa [List.map_map] at hmap
  obtain ⟨x, hx, hfirst⟩ := Step.waiting_firsts (a := a) (hactuators ▸ distinct)
  have hissued : M ts (s.issueFirst es).2 none := by
    rw [Stage.issueFirst_snd]
    exact F.aside h ⟨⟨[], (List.append_nil _).symm, nofun⟩, rfl, rfl⟩
  refine ⟨x, hx, ?_⟩
  cases x with
  | none => exact hissued
  | some z =>
    obtain ⟨y, hy, ha, rfl⟩ := hfirst z rfl
    have hlane := s.lane_issueFirst es y hy
    have hmem : (a, y.2.2) ∈ es := by
      have hmem := List.mem_map_of_mem (f := fun x => (x.1.actuator, x.2.2)) hy
      rwa [hfst, ha] at hmem
    rw [s.task_issueFirst es y hy]
    exact first y.1 y.2.2 hmem ha (by rw [hlane]) (by rw [hlane]) (by rw [hlane]) hissued

/-- A vibration is opened. -/
theorem opening (H : At M a [] r none) (hplan : r.plan = plan) (phase : r.Phase v asked)
    {q : Queue (Step R)} (hpop : r.queue.popDue r.now = some (.start v asked, q))
    (distinct : (v.actuators r.rig.group.ids).Nodup)
    (first : ∀ s l e, M [] s none → (a, e) ∈ s.effects v → l.actuator = a → l.start = .at s.now →
      l.deadline = .idle → l.reported = false → M [] s (some (false, l, .ofEffect e))) :
    ∃ x, At M a (Turn.of a (r.stage.turns plan (.start v asked))) (r.move .play) x := by
  subst hplan
  have hempty : q.items = [] := by
    have hparts := Queue.parts_of_popDue hpop
    obtain ⟨-, -, hopening, -⟩ := phase.of_opening (hparts ▸ List.mem_cons_self)
    rw [hparts] at hopening
    exact Queue.parts_eq_nil.mp (List.cons.inj hopening).2
  have hdistinct : ((r.stage.effects v).map (·.1)).Nodup := by
    obtain ⟨ids, hperm, hsub⟩ := r.actuators_effects v
    exact hperm.nodup_iff.mp (distinct.sublist hsub)
  have heffects : (r.stage.issueFirst (r.stage.effects v)).2.effects v = r.stage.effects v := by
    rw [Stage.issueFirst_snd]
    rfl
  have hnow : (r.stage.issueFirst (r.stage.effects v)).2.now = r.stage.now := by
    rw [Stage.issueFirst_snd]
    rfl
  obtain ⟨x, hx, hissued⟩ := F.first hdistinct H.holds fun l e he ha hstart hidle hreported h =>
    first _ l e h (by rwa [heffects]) ha (by rwa [hnow]) hidle hreported
  obtain ⟨x', hopened, hx'⟩ := F.openVibration hx hissued
  rw [r.move_play hpop]
  exact ⟨x', Queue.own_extend_toList (Queue.own_of_items hempty) hx', hopened⟩

/-- What is followed in a run that was not started, from before the opening step on. -/
theorem waiting {ms : List (Move R)} (H : At M a [] r none) (hplan : r.plan = plan)
    (phase : r.Phase v asked) (K : r.queue.Kept) (unstarted : r.stage.startResult = none)
    (distinct : r.Distinct v ms)
    (first : ∀ s l e, M [] s none → (a, e) ∈ s.effects v → l.actuator = a → l.start = .at s.now →
      l.deadline = .idle → l.reported = false → M [] s (some (false, l, .ofEffect e)))
    (ok : Allows allowed r ms) : ∃ x, At M a (Turn.of a (r.turns ms)) (r.moves ms) x := by
  induction ms generalizing r with
  | nil => exact ⟨none, H⟩
  | cons m ms ih =>
    have moved := r.move_moved m
    have hphase := phase.moved K moved
    have hturns : r.turns (m :: ms) =
        (r.due m).flatMap (r.stage.turns plan) ++ (r.move m).turns ms := by
      rw [← hplan]
      rfl
    rw [hturns, Turn.of_append]
    rcases r.due_cases m with hdue | ⟨rfl, y, q, hpop, hdue⟩
    · have hunstarted := (moved.startResult_of_idle hdue).trans unstarted
      have H' : At M a [] (r.move m) none := by
        by_cases hm : m = .play
        · subst hm
          have hnone : r.queue.popDue r.now = none := by
            unfold due at hdue
            cases hpop : r.queue.popDue r.now with
            | none => rfl
            | some y =>
              rw [hpop] at hdue
              cases hdue
          rwa [r.move_play_of_none hnone]
        · obtain ⟨x, hown, hx⟩ := F.other H hm ok.1
          cases x with
          | none => exact ⟨hown, hx⟩
          | some y =>
            rw [hphase.own_of_waiting hunstarted] at hown
            cases hown
      rw [hdue]
      exact ih H' (moved.plan.trans hplan) hphase (moved.kept K) hunstarted distinct.tail ok.2
    · cases phase.opening_of_waiting unstarted y (Queue.items_of_popDue hpop ▸ List.mem_cons_self)
      obtain ⟨x, H'⟩ := F.opening H hplan phase hpop (distinct [] List.nil_prefix) first
      have hstarted : (r.move .play).stage.startResult =
          some (r.stage.openVibration r.plan v).result := by
        rw [r.move_play hpop]
        exact r.stage.startResult_openVibration r.plan v
      rw [hdue, List.flatMap_singleton]
      exact F.later H' (moved.plan.trans hplan) hphase (moved.kept K) hstarted ok.2

/-- What is true of an actuator of a run that does nothing yet and of its first step stays true. -/
theorem moves {rig : Rig R} {ms : List (Move R)}
    (distinct : (fresh plan v rig asked).Distinct v ms)
    (h : M [] (fresh plan v rig asked).stage none)
    (first : ∀ s l e, M [] s none → (a, e) ∈ s.effects v → l.actuator = a → l.start = .at s.now →
      l.deadline = .idle → l.reported = false → M [] s (some (false, l, .ofEffect e)))
    (ok : Allows allowed (fresh plan v rig asked) ms) : ∃ x, At M a
      (Turn.of a ((fresh plan v rig asked).turns ms)) ((fresh plan v rig asked).moves ms) x :=
  F.waiting ⟨(fresh_phase plan v rig asked).own_of_waiting rfl a, h⟩ rfl
    (fresh_phase plan v rig asked) (fresh_kept plan v rig asked) rfl distinct first ok

end Run.Follows

theorem Run.Allows.of_forall {allowed : Stage R → Move R → Prop} (h : ∀ s m, allowed s m)
    (r : Run R) (ms : List (Move R)) : r.Allows allowed ms := by
  induction ms generalizing r with
  | nil => trivial
  | cons m ms ih => exact ⟨h r.stage m, ih (r.move m)⟩

/-- An actuator of a vibration for distinct ones has at most one step in the queue. -/
theorem Run.exists_own {plan : Plan R} {v : Vibration R} {rig : Rig R} {asked : Nat}
    {ms : List (Move R)} (distinct : (fresh plan v rig asked).Distinct v ms) (a : ActuatorId) :
    ∃ x, ((fresh plan v rig asked).moves ms).queue.own a = Option.toList x := by
  have F : Follows plan a (fun _ _ => True) (fun _ _ _ => True) := by
    constructor <;> intros <;> trivial
  obtain ⟨x, H⟩ := F.moves distinct trivial (fun _ _ _ _ _ _ _ _ _ => trivial)
    (.of_forall (fun _ _ => trivial) _ ms)
  exact ⟨x, H.own⟩

/-! ## Between two turns -/

/-- Since a turn nothing was asked of an actuator. -/
def Turn.Quiet (plan : Plan R) (a : ActuatorId) (t : Turn R) (s : Stage R) : Prop :=
  ∃ ds, s.history = (t.played plan).stage.history ++ ds ∧ ∀ d ∈ ds, d.actuator? ≠ some a

theorem Run.follows_quiet (plan : Plan R) (a : ActuatorId) :
    Follows plan a (fun _ _ => True) fun ts s x =>
      ts.IsChain (fun t u => t.Quiet plan a u.stage) ∧
        ∀ y ∈ x, ∀ t ∈ ts.getLast?, t.Quiet plan a s where
  aside H A := by
    refine ⟨H.1, fun y hy t ht => ?_⟩
    obtain ⟨ds, hds, hown⟩ := H.2 y hy t ht
    obtain ⟨es, hes, hown'⟩ := A.history
    refine ⟨ds ++ es, by rw [hes, hds, List.append_assoc], fun d hd => ?_⟩
    exact (List.mem_append.mp hd).elim (hown d) (hown' d)
  turn {ts t _} H _ _ := by
    constructor
    · refine List.isChain_append.mpr ⟨H.1, .singleton t, fun u hu w hw => ?_⟩
      obtain rfl : t = w := Option.some.inj hw
      exact H.2 _ rfl u hu
    · intro y _ u hu
      rw [List.getLast?_concat] at hu
      obtain rfl : t = u := Option.some.inj hu
      exact ⟨[], (List.append_nil _).symm, nofun⟩
  heard _ H _ _ := ⟨H.1, fun _ _ => H.2 _ rfl⟩
  remnant _ _ H _ := ⟨H.1, fun _ _ => H.2 _ rfl⟩
  cleared H _ := ⟨H.1, fun y hy => absurd hy (Option.not_mem_none y)⟩
  world _ H := H

/-- Between two turns of an actuator nothing is asked of it. -/
theorem Run.quiet_moves {plan : Plan R} {v : Vibration R} {rig : Rig R} {asked : Nat}
    {ms : List (Move R)} (distinct : (fresh plan v rig asked).Distinct v ms) (a : ActuatorId) :
    (Turn.of a ((fresh plan v rig asked).turns ms)).IsChain fun t u => t.Quiet plan a u.stage := by
  have F := follows_quiet plan a
  obtain ⟨x, H⟩ := F.moves distinct ⟨.nil, fun y hy => absurd hy (Option.not_mem_none y)⟩
    (fun s l e H _ _ _ _ _ => ⟨H.1, fun _ _ t ht => absurd ht (Option.not_mem_none t)⟩)
    (.of_forall (fun _ _ => trivial) _ ms)
  exact H.holds.1

end

end Haptics
