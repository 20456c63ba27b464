import Haptics.Proofs.Likeness
import Haptics.Proofs.Moves

/-!
# Stray reports

A report that no step waits for leaves no trace: a performance that hears stray reports, at whatever
instants, does the same at the same instants as the one that is spared them
(`Performance.same_of_alongside`). The conductor wakes up for a stray report, but only to find that
there is nothing to do.
-/

namespace Haptics

variable {R : Type}

/-! ## The hardware does not look at the bridge -/

namespace Rig

def withBridge (r : Rig R) (b : Bridge) : Rig R := { r with bridge := b }

theorem note_withBridge (r : Rig R) (b : Bridge) (x : Signal R) :
    (r.withBridge b).note x = (r.note x).withBridge b := by cases x <;> rfl

theorem noteAll_withBridge (r : Rig R) (b : Bridge) (xs : List (Signal R)) :
    (r.withBridge b).noteAll xs = (r.noteAll xs).withBridge b := by
  induction xs generalizing r with
  | nil => rfl
  | cons x xs ih =>
    show ((r.withBridge b).note x).noteAll xs = ((r.note x).noteAll xs).withBridge b
    rw [note_withBridge, ih]

theorem onDevice_withBridge {α : Type} (r : Rig R) (b : Bridge) (a : ActuatorId) (other : α)
    (f : Device R → Reaction R α) : (r.withBridge b).onDevice a other f =
      ((r.onDevice a other f).1, (r.onDevice a other f).2.withBridge b) := by
  have hdevice : (r.withBridge b).device? a = r.device? a := rfl
  unfold onDevice
  rw [hdevice]
  cases r.device? a with
  | none => rfl
  | some d => exact congrArg _ (noteAll_withBridge { r with devices := _ } b _)

theorem prepare_withBridge (r : Rig R) (b : Bridge) (required : Flags GroupCapability)
    (ids : List ActuatorId) : (r.withBridge b).prepare required ids =
      ((r.prepare required ids).1, (r.prepare required ids).2.withBridge b) :=
  congrArg _ (r.noteAll_withBridge b _)

theorem onGroup_withBridge {α : Type} (r : Rig R) (b : Bridge)
    (f : Group → α × Group × List (Call R)) : (r.withBridge b).onGroup f =
      ((r.onGroup f).1, (r.onGroup f).2.withBridge b) :=
  congrArg _ (noteAll_withBridge { r with group := _ } b _)

end Rig

def Stage.withBridge (s : Stage R) (b : Bridge) : Stage R := { s with rig := s.rig.withBridge b }

/-- What a play leaves, on a stage with another bridge. -/
def Played.withBridge (p : Played R) (b : Bridge) : Played R :=
  { p with stage := p.stage.withBridge b }

def Run.withBridge (r : Run R) (b : Bridge) : Run R := { r with stage := r.stage.withBridge b }

section
variable [Level R]

namespace Stage

variable (s : Stage R) (b : Bridge) (plan : Plan R)

theorem drive_withBridge (l : Lane) (x : Drive R) : (s.withBridge b).drive plan l x =
    ((s.drive plan l x).1, (s.drive plan l x).2.1, (s.drive plan l x).2.2.withBridge b) := by
  have hdrive := s.rig.onDevice_withBridge b l.actuator 0 (·.drive plan.vibration l.id x)
  have hrig : (s.withBridge b).rig = s.rig.withBridge b := rfl
  unfold Stage.drive Rig.drive
  rw [hrig, hdrive]
  rfl

theorem stop_withBridge (l : Lane) : (s.withBridge b).stop l = (s.stop l).withBridge b := by
  have hstop : (s.rig.withBridge b).stop l.actuator = (s.rig.stop l.actuator).withBridge b :=
    congrArg Prod.snd (s.rig.onDevice_withBridge b l.actuator () _)
  have hrig : (s.withBridge b).rig = s.rig.withBridge b := rfl
  unfold Stage.stop
  rw [hrig, hstop]
  rfl

omit [Level R] in
theorem setAmplitude_withBridge (l : Lane) (x : R) :
    (s.withBridge b).setAmplitude l x = (s.setAmplitude l x).withBridge b := by
  have hset := s.rig.onDevice_withBridge b l.actuator false (·.setAmplitude x)
  have hrig : (s.withBridge b).rig = s.rig.withBridge b := rfl
  unfold Stage.setAmplitude Rig.setAmplitude
  rw [hrig, hset]
  rfl

theorem bridge_likeness :
    Lane.Likeness plan fun l (s : Stage R) l' s' => l' = l ∧ s' = s.withBridge b where
  now := by rintro _ s l _ ⟨rfl, rfl⟩; rfl
  start := by rintro _ s l _ ⟨rfl, rfl⟩; rfl
  reported := by rintro _ s l _ ⟨rfl, rfl⟩; rfl
  deadline := by rintro _ s l _ ⟨rfl, rfl⟩; rfl
  amplitude := by rintro _ s l _ ⟨rfl, rfl⟩; rfl
  isActive := by rintro _ s l _ ⟨rfl, rfl⟩; rfl
  limit := by rintro _ s l _ ⟨rfl, rfl⟩ f; rfl
  drive := by
    rintro _ s l _ x ⟨rfl, rfl⟩
    rw [drive_withBridge]
    exact ⟨rfl, rfl, rfl⟩
  stop := by
    rintro _ s l _ ⟨rfl, rfl⟩
    exact ⟨rfl, s.stop_withBridge b l⟩
  setAmplitude := by
    rintro _ s l _ x ⟨rfl, rfl⟩
    exact ⟨rfl, s.setAmplitude_withBridge b l x⟩
  issue := by rintro _ s l _ start - ⟨rfl, rfl⟩; exact ⟨rfl, rfl⟩
  idle := by rintro _ s l _ ⟨rfl, rfl⟩; exact ⟨rfl, rfl⟩
  unreported := by rintro _ s l _ ⟨rfl, rfl⟩; exact ⟨rfl, rfl⟩
  ramp := by rintro _ s l _ t ⟨rfl, rfl⟩; exact ⟨rfl, rfl⟩

end Stage

namespace Stage

variable (s : Stage R) (b : Bridge) (plan : Plan R)

theorem playLane_withBridge (l : Lane) (task : Task R) :
    l.play plan (s.withBridge b) task = (l.play plan s task).withBridge b := by
  have H := (bridge_likeness b plan).play ⟨rfl, rfl⟩ (l := l) (s := s) task
  generalize l.play plan s task = p at H ⊢
  generalize l.play plan (s.withBridge b) task = p' at H ⊢
  cases H with
  | halt h => rw [h.2]; rfl
  | follow task h => rw [h.1, h.2]; rfl

omit [Level R] in
theorem issueFirst_withBridge (es : List (ActuatorId × Effect R)) :
    (s.withBridge b).issueFirst es = ((s.issueFirst es).1, (s.issueFirst es).2.withBridge b) := by
  induction es generalizing s with
  | nil => rfl
  | cons e es ih =>
    have hrest := ih { s with nextStep := s.nextStep + 1 }
    have hfst := congrArg Prod.fst hrest
    have hsnd := congrArg Prod.snd hrest
    exact Prod.ext (congrArg (_ :: ·) hfst) hsnd

theorem openEach_withBridge (next : List (Step R)) (longest : Int)
    (es : List (Lane × Task R × Effect R)) : (s.withBridge b).openEach plan next longest es =
      { s.openEach plan next longest es with
        stage := (s.openEach plan next longest es).stage.withBridge b } := by
  induction es generalizing s next longest with
  | nil => rfl
  | cons e es ih =>
    obtain ⟨l, task, e⟩ := e
    unfold openEach
    rw [playLane_withBridge]
    dsimp only [Played.withBridge]
    split
    · rfl
    · exact ih _ _ _

theorem tearDown_withBridge (xs : List (Step R)) :
    (s.withBridge b).tearDown plan xs = (s.tearDown plan xs).withBridge b := by
  induction xs generalizing s with
  | nil => rfl
  | cons x xs ih =>
    have hstep : (s.withBridge b).cancelNow plan x = (s.cancelNow plan x).withBridge b := by
      cases x with
      | start | finish => rfl
      | lane l task =>
        have hnow : (s.withBridge b).now = s.now := rfl
        show l.cancelNow (s.withBridge b) task = (l.cancelNow s task).withBridge b
        rw [Lane.cancelNow_eq, Lane.cancelNow_eq, hnow]
        split
        · exact s.stop_withBridge b l
        · rfl
    show ((s.withBridge b).cancelNow plan x).tearDown plan xs = _
    rw [hstep]
    exact ih (s.cancelNow plan x)

omit [Level R] in
theorem prepare_withBridge (required : Flags GroupCapability) (ids : List ActuatorId) :
    (s.withBridge b).prepare required ids =
      ((s.prepare required ids).1, (s.prepare required ids).2.withBridge b) := by
  have hprepare := s.rig.prepare_withBridge b required ids
  have hrig : (s.withBridge b).rig = s.rig.withBridge b := rfl
  have hgroup : (s.rig.withBridge b).group = s.rig.group := rfl
  unfold Stage.prepare
  rw [hrig, hprepare, hgroup]
  split <;> rfl

omit [Level R] in
theorem trigger_withBridge : (s.withBridge b).trigger plan =
    ((s.trigger plan).1, (s.trigger plan).2.withBridge b) := by
  have htrigger := s.rig.onGroup_withBridge b (·.trigger plan.vibration)
  have hrig : (s.withBridge b).rig = s.rig.withBridge b := rfl
  unfold Stage.trigger Rig.trigger
  rw [hrig, htrigger]
  rfl

omit [Level R] in
theorem cancelSync_withBridge : (s.withBridge b).cancelSync = s.cancelSync.withBridge b := by
  have hcancel := s.rig.onGroup_withBridge b (·.cancelSync)
  have hrig : (s.withBridge b).rig = s.rig.withBridge b := rfl
  unfold Stage.cancelSync Rig.cancelSync
  rw [hrig, hcancel]
  rfl

theorem close_withBridge (o : Opened R) (prepared : Bool) :
    Opened.close { o with stage := o.stage.withBridge b } plan prepared =
      (o.close plan prepared).withBridge b := by
  unfold Opened.close
  cases hlongest : o.longest with
  | none =>
    dsimp only
    rw [tearDown_withBridge]
    split
    · rw [cancelSync_withBridge]
      rfl
    · rfl
  | some m =>
    dsimp only
    rw [trigger_withBridge]
    by_cases hdue : prepared = true ∧ 0 < m
    · simp only [if_pos hdue]
      split
      · rw [cancelSync_withBridge]
        rfl
      · rfl
    · simp only [if_neg hdue]
      split
      · rw [cancelSync_withBridge]
        rfl
      · rfl

theorem openAll_withBridge (es : List (ActuatorId × Effect R)) :
    (s.withBridge b).openAll plan es = (s.openAll plan es).withBridge b := by
  unfold openAll
  split
  · rfl
  · rw [issueFirst_withBridge]
    dsimp only
    rw [prepare_of_length, prepare_of_length, prepare_withBridge]
    dsimp only
    rw [openEach_withBridge]
    exact close_withBridge b plan _ _

theorem openVibration_withBridge (v : Vibration R) :
    (s.withBridge b).openVibration plan v = (s.openVibration plan v).withBridge b := by
  have heffects : (s.withBridge b).effects v = s.effects v := rfl
  unfold openVibration
  rw [heffects, openAll_withBridge]
  dsimp only [Played.withBridge]
  split <;> rfl

theorem play_withBridge (x : Step R) :
    (s.withBridge b).play plan x = (s.play plan x).withBridge b := by
  cases x with
  | start v t => exact s.openVibration_withBridge b plan v
  | lane l task => exact s.playLane_withBridge b plan l task
  | finish => rfl

end Stage

namespace Run

variable (r : Run R) (b : Bridge)

theorem playDue_withBridge : (r.withBridge b).playDue? = r.playDue?.map (·.withBridge b) := by
  have hpop : (r.withBridge b).queue.popDue (r.withBridge b).now = r.queue.popDue r.now := rfl
  unfold playDue?
  rw [hpop]
  cases r.queue.popDue r.now with
  | none => rfl
  | some x =>
    have hplay := r.stage.play_withBridge b r.plan x.1
    exact congrArg (fun p : Played R => some { r with
      stage := p.stage, queue := x.2.extend p.next }) hplay

theorem cancel_withBridge (mode : CancelMode) :
    (r.withBridge b).cancel mode = (r.cancel mode).withBridge b := by
  have hcancelled : (r.withBridge b).cancelled = r.cancelled := rfl
  unfold cancel
  rw [hcancelled]
  split
  · rfl
  · cases mode with
    | graceful =>
      dsimp only
      rw [foldl_cancelStep, foldl_cancelStep]
      rfl
    | immediate =>
      have htear := r.stage.tearDown_withBridge b r.plan r.queue.drainReversed.1
      exact congrArg (fun s => { r with
        cancelled := some .immediate, queue := r.queue.drainReversed.2, stage := s }) htear

theorem foldl_cancel_withBridge (modes : List CancelMode) :
    modes.foldl cancel (r.withBridge b) = (modes.foldl cancel r).withBridge b := by
  induction modes generalizing r with
  | nil => rfl
  | cons mode modes ih =>
    rw [List.foldl_cons, List.foldl_cons, cancel_withBridge]
    exact ih (r.cancel mode)

omit [Level R] in
theorem foldl_hear_withBridge (es : List Event) :
    es.foldl hear (r.withBridge b) = (es.foldl hear r).withBridge b := by
  induction es generalizing r with
  | nil => rfl
  | cons e es ih =>
    have hhear : (r.withBridge b).hear e = (r.hear e).withBridge b := by cases e <;> rfl
    rw [List.foldl_cons, List.foldl_cons, hhear]
    exact ih (r.hear e)

end Run

end

/-! ## Stale reports -/

/-- The drive whose report a step waits for: the actuator and the number of the step. -/
def Step.awaits? : Step R → Option (ActuatorId × Nat)
  | lane l _ => l.deadline.awaiting?.map (l.actuator, ·)
  | start _ _ | finish => none

namespace Run

/-- No step in the queue waits for a report. -/
def Stale (r : Run R) : Event → Prop
  | .stepComplete a _ i => ∀ x ∈ r.queue.items, x.awaits? ≠ some (a, i)
  | .syncedComplete _ => ∀ x ∈ r.queue.items, x.awaits? = none

instance (r : Run R) (e : Event) : Decidable (r.Stale e) :=
  match e with
  | .stepComplete a _ i => inferInstanceAs (Decidable (∀ x ∈ r.queue.items, _ ≠ some (a, i)))
  | .syncedComplete _ => inferInstanceAs (Decidable (∀ x ∈ r.queue.items, _ = none))

/-- The reports `fs` are the reports `es` and, in between, some that are stale by the time at which
they are handled. -/
inductive Padded : Run R → List Event → List Event → Prop
  | nil {r} : Padded r [] []
  | heard {r es fs} (e) (rest : Padded (r.hear e) es fs) : Padded r (e :: es) (e :: fs)
  | stale {r es fs e} (stale : r.Stale e) (rest : Padded r es fs) : Padded r es (e :: fs)

variable {r : Run R} {e : Event} {es fs : List Event}

theorem hear_of_stale (h : r.Stale e) : r.hear e = r := by
  cases e with
  | stepComplete a v i =>
    have hqueue : (r.queue.acceptCompletion a (some i) r.now).2 = r.queue := by
      refine Queue.acceptCompletion_of_refused fun x hx => ?_
      rcases Queue.accept_cases x a (some i) r.now with hacc | ⟨l, task, j, rfl, hj, rfl, hi, -⟩
      · exact hacc
      · obtain rfl : i = j := by simpa using hi
        exact absurd (by rw [Step.awaits?, hj]; rfl) (h _ hx)
    exact congrArg (fun q => { r with queue := q }) hqueue
  | syncedComplete v =>
    have hqueue : (r.queue.acceptSynced r.now).2 = r.queue := by
      refine Queue.acceptSynced_induction (M := (· = r.queue)) ?_ rfl
      rintro _ a rfl
      refine Queue.acceptCompletion_of_refused fun x hx => ?_
      rcases Queue.accept_cases x a none r.now with hacc | ⟨l, task, j, rfl, hj, -⟩
      · exact hacc
      · have hnone := h _ hx
        rw [Step.awaits?, hj] at hnone
        cases hnone
    exact congrArg (fun q => { r with queue := q }) hqueue

theorem Padded.foldl_hear (H : r.Padded es fs) : fs.foldl hear r = es.foldl hear r := by
  induction H with
  | nil => rfl
  | heard _ _ ih => exact ih
  | stale stale _ ih => rw [List.foldl_cons, hear_of_stale stale, ih]

end Run

/-! ## Bridges that differ in what waits in one inbox -/

/-- An inbox without what waits in it. -/
def Inbox.cleared (x : Inbox) : Inbox := { x with waiting := [] }

@[simp] theorem Inbox.cleared_cleared (x : Inbox) : x.cleared.cleared = x.cleared := rfl

@[simp] theorem Inbox.cleared_post (x : Inbox) (v : Nat) (e : Event) :
    (x.post v e).cleared = x.cleared := by
  unfold post
  split <;> rfl

namespace Bridge

/-- Two bridges are the same except for what waits, and the inbox `i` of the one holds some of what
waits in that of the other. -/
structure Below (i : Option Nat) (b c : Bridge) : Prop where
  route : c.route = b.route
  size : c.inboxes.size = b.inboxes.size
  cleared : ∀ j : Nat, c.inboxes[j]?.map Inbox.cleared = b.inboxes[j]?.map Inbox.cleared
  waiting : ∀ j ∈ i, (b.waiting j).Sublist (c.waiting j)

/-- A report for a vibration does not find the inbox `i` full. -/
def HasRoom (b : Bridge) (i : Option Nat) (v : Nat) : Prop :=
  ∀ j ∈ i, b.route = some j → ∀ x ∈ b.inboxes[j]?,
    x.vibration = v → x.hasReader = true → x.waiting.length < x.capacity

instance (b : Bridge) (i : Option Nat) (v : Nat) : Decidable (b.HasRoom i v) :=
  inferInstanceAs (Decidable (∀ j ∈ i, b.route = some j → ∀ x ∈ b.inboxes[j]?, _))

variable {i : Option Nat} {b c : Bridge}

theorem waiting_of_get {j : Nat} {x : Inbox} (h : b.inboxes[j]? = some x) :
    b.waiting j = x.waiting := by
  rw [waiting, h]
  rfl

theorem waiting_modify (b : Bridge) (j k : Nat) (f : Inbox → Inbox) :
    Bridge.waiting { b with inboxes := b.inboxes.modify j f } k =
      if j = k then (b.inboxes[k]?.map (f · |>.waiting)).getD [] else b.waiting k := by
  unfold waiting
  dsimp only
  rw [Array.getElem?_modify]
  split
  · rw [Option.map_map]
    rfl
  · rfl

theorem modify_eq_self {xs : Array Inbox} {j : Nat} {f : Inbox → Inbox}
    (h : ∀ x ∈ xs[j]?, f x = x) : xs.modify j f = xs := by
  refine Array.ext_getElem? fun k => ?_
  rw [Array.getElem?_modify]
  split
  · rename_i hjk
    subst hjk
    cases hx : xs[j]? with
    | none => rfl
    | some x => exact congrArg some (h x hx)
  · rfl

/-- Reading an empty inbox changes nothing. -/
theorem read_of_empty {j : Nat} (h : b.waiting j = []) : b.read j = ([], b) := by
  have hinboxes : b.inboxes.modify j ({ · with waiting := [] }) = b.inboxes := by
    refine modify_eq_self fun x hx => ?_
    rw [waiting_of_get hx] at h
    rw [← h]
  rw [read, h, hinboxes]

theorem post_of_route {j : Nat} (h : b.route = some j) (v : Nat) (e : Event) :
    b.post v e = { b with inboxes := b.inboxes.modify j (·.post v e) } := by
  unfold post
  split
  · rename_i hnone
    rw [h] at hnone
    cases hnone
  · rename_i k hk
    rw [h] at hk
    cases hk
    rfl

theorem post_of_none (h : b.route = none) (v : Nat) (e : Event) : b.post v e = b := by
  unfold post
  split
  · rfl
  · rename_i k hk
    rw [h] at hk
    cases hk

namespace Below

theorem refl (i : Option Nat) (b : Bridge) : Below i b b :=
  ⟨rfl, rfl, fun _ => rfl, fun _ _ => .refl _⟩

theorem attached (H : Below i b c) : c.attached? = b.attached? := by
  have hvibration : ∀ d : Bridge, d.attached? =
      (d.route.bind fun j => d.inboxes[j]?.map Inbox.cleared).map (·.vibration) := by
    intro d
    unfold attached?
    cases d.route with
    | none => rfl
    | some j =>
      show (d.inboxes[j]?).map (·.vibration) = (d.inboxes[j]?.map Inbox.cleared).map (·.vibration)
      rw [Option.map_map]
      rfl
  rw [hvibration, hvibration, H.route]
  exact congrArg _ (congrArg _ (funext H.cleared))

/-- Neither bridge has the inbox `k`, or both have it, the same except for what waits. -/
theorem inboxes_cases (H : Below i b c) (k : Nat) :
    b.inboxes[k]? = none ∧ c.inboxes[k]? = none ∨
      ∃ x y, b.inboxes[k]? = some x ∧ c.inboxes[k]? = some y ∧ x.cleared = y.cleared := by
  have hk := H.cleared k
  cases hb : b.inboxes[k]? with
  | none =>
    rw [hb] at hk
    exact .inl ⟨rfl, Option.map_eq_none_iff.mp hk⟩
  | some x =>
    rw [hb] at hk
    obtain ⟨y, hy, hxy⟩ := Option.map_eq_some_iff.mp hk
    exact .inr ⟨x, y, rfl, hy, hxy.symm⟩

/-- Inboxes that are the same except for what waits stay so. -/
theorem modify {f g : Inbox → Inbox} (H : Below i b c) (j : Nat)
    (cleared : ∀ x, (f x).cleared = (f x.cleared).cleared ∧ (g x).cleared = (f x.cleared).cleared)
    (waiting : j ∈ i → ∀ x ∈ b.inboxes[j]?, ∀ y ∈ c.inboxes[j]?, x.cleared = y.cleared →
      x.waiting.Sublist y.waiting → (f x).waiting.Sublist (g y).waiting) :
    Below i { b with inboxes := b.inboxes.modify j f }
      { c with inboxes := c.inboxes.modify j g } where
  route := H.route
  size := by
    rw [Array.size_modify, Array.size_modify]
    exact H.size
  cleared k := by
    dsimp only
    rw [Array.getElem?_modify, Array.getElem?_modify]
    split
    · rcases H.inboxes_cases k with ⟨hb, hc⟩ | ⟨x, y, hb, hc, hxy⟩ <;> rw [hb, hc]
      · rfl
      · exact congrArg some (by rw [(cleared y).2, (cleared x).1, hxy])
    · exact H.cleared k
  waiting k hk := by
    rw [waiting_modify, waiting_modify]
    split
    · rename_i hjk
      subst hjk
      rcases H.inboxes_cases j with ⟨hb, hc⟩ | ⟨x, y, hb, hc, hxy⟩
      · rw [hb, hc]
        exact .refl _
      · have hsub := H.waiting j hk
        rw [waiting_of_get hb, waiting_of_get hc] at hsub
        rw [hb, hc]
        exact waiting hk x hb y hc hxy hsub
    · exact H.waiting k hk

/-- Both bridges may take a report that finds room in the fuller one. -/
theorem post (H : Below i b c) {v : Nat} (e : Event) (room : c.HasRoom i v) :
    Below i (b.post v e) (c.post v e) := by
  cases hroute : b.route with
  | none =>
    rw [post_of_none hroute, post_of_none (H.route.trans hroute)]
    exact H
  | some j =>
    rw [post_of_route hroute, post_of_route (H.route.trans hroute)]
    refine H.modify j (fun x => ⟨by simp, by simp⟩) fun hj x hx y hy hxy hsub => ?_
    have hroom := room j hj (H.route.trans hroute) y hy
    injection hxy with hvibration hcapacity _ hreader
    unfold Inbox.post
    by_cases hv : y.vibration = v ∧ y.hasReader = true
    · have hlength := hroom hv.1 hv.2
      have hle := hsub.length_le
      rw [if_pos ⟨hvibration.trans hv.1, hreader.trans hv.2, by omega⟩,
        if_pos ⟨hv.1, hv.2, hlength⟩]
      exact hsub.append (.refl _)
    · rw [if_neg fun h => hv ⟨hvibration ▸ h.1, hreader ▸ h.2.1⟩, if_neg fun h => hv ⟨h.1, h.2.1⟩]
      exact hsub

/-- Another report may come to the fuller bridge. -/
theorem post_right (H : Below i b c) (v : Nat) (e : Event) : Below i b (c.post v e) := by
  have hid : ∀ j, b = { b with inboxes := b.inboxes.modify j id } := by
    intro j
    rw [modify_eq_self (f := id) fun _ _ => rfl]
  cases hroute : c.route with
  | none =>
    rw [post_of_none hroute]
    exact H
  | some j =>
    rw [post_of_route hroute, hid j]
    refine H.modify j (fun x => ⟨by simp, by simp⟩) fun hj x hx y hy hxy hsub => ?_
    unfold Inbox.post
    split
    · exact hsub.trans (List.sublist_append_left _ _)
    · exact hsub

theorem read (H : Below i b c) (j : Nat) : Below i (b.read j).2 (c.read j).2 :=
  H.modify j (fun _ => ⟨rfl, rfl⟩) fun _ _ _ _ _ _ _ => .refl _

theorem abandon (H : Below i b c) (j : Nat) : Below i (b.abandon j) (c.abandon j) :=
  H.modify j (fun _ => ⟨rfl, rfl⟩) fun _ _ _ _ _ _ _ => .refl _

theorem detach (H : Below i b c) (v : Nat) : Below i (b.detach v) (c.detach v) := by
  unfold Bridge.detach
  rw [H.attached]
  split
  · exact ⟨rfl, H.size, H.cleared, H.waiting⟩
  · exact H

theorem attach (H : Below i b c) (v capacity : Nat) :
    Below i (b.attach v capacity) (c.attach v capacity) where
  route := congrArg some H.size
  size := by
    unfold Bridge.attach
    rw [Array.size_push, Array.size_push, H.size]
  cleared j := by
    unfold Bridge.attach
    rw [Array.getElem?_push, Array.getElem?_push, H.size]
    split
    · rfl
    · exact H.cleared j
  waiting j hj := by
    unfold Bridge.attach Bridge.waiting
    rw [Array.getElem?_push, Array.getElem?_push, H.size]
    split
    · exact .refl _
    · exact H.waiting j hj

end Below

end Bridge

/-! ## Performances -/

/-- Something that happens to a performance. -/
inductive Act (R : Type)
  /-- The conductor does the next thing there is to do. -/
  | conduct
  /-- A completion comes to the bridge. -/
  | arrive (e : Event)
  | send (mode : CancelMode)
  /-- Nobody can send cancels any more. -/
  | leave
  /-- Time passes, and the hardware does what it likes. -/
  | world (f : Rig R → Rig R)
  /-- Completions are directed to another inbox. -/
  | attach (vibration capacity : Nat)
  | detach (vibration : Nat)

def Event.vibration : Event → Nat
  | stepComplete _ v _ | syncedComplete v => v

namespace Performance

/-- The reports that wait for the conductor. -/
def reports (p : Performance R) : List Event := p.takeReports.1

section
variable [Level R]

def act (p : Performance R) : Act R → Performance R
  | .conduct => p.step?.getD p
  | .arrive e => p.onBridge (·.post e.vibration e)
  | .send mode => (p.send mode).2
  | .leave => { p with callerPresent := false }
  | .world f =>
    p.withRig (((f (p.rig.withBridge {})).withBridge p.rig.bridge).moveTo p.rig.now)
  | .attach vibration capacity => p.onBridge (·.attach vibration capacity)
  | .detach vibration => p.onBridge (·.detach vibration)

def acts (p : Performance R) (as : List (Act R)) : Performance R := as.foldl act p

/-- Something happens to two performances alike. No report finds the inbox of the other one full,
and what its conductor hears is what the conductor of the one hears and reports that are stale by
then. -/
def Harmless (p q : Performance R) : Act R → Prop
  | .conduct => (q.cancels.foldl Run.cancel q.run).Padded p.reports q.reports
  | .arrive e => q.rig.bridge.HasRoom q.inbox e.vibration
  | .send _ | .leave | .world _ | .attach _ _ | .detach _ => True

/-- What happens to the performance `q` is what happens to the performance `p` and, in between,
stray reports for which the conductor of `q` may wake up. -/
inductive Alongside : Performance R → Performance R → List (Act R) → List (Act R) → Prop
  | done {p q} : Alongside p q [] []
  | both {p q as bs} (a) (harmless : Harmless p q a) (rest : Alongside (p.act a) (q.act a) as bs) :
    Alongside p q (a :: as) (a :: bs)
  | stray {p q as bs} (e) (room : q.rig.bridge.HasRoom q.inbox e.vibration)
    (rest : Alongside p (q.act (.arrive e)) as bs) : Alongside p q as (.arrive e :: bs)
  | wake {p q as bs} (idle : p.step? = none) (harmless : Harmless p q .conduct)
    (rest : Alongside p (q.act .conduct) as bs) : Alongside p q as (.conduct :: bs)

end

/-- The bridge once the conductor has taken its reports. -/
def emptied (p : Performance R) : Bridge :=
  match p.inbox with
  | none => p.rig.bridge
  | some i => (p.rig.bridge.read i).2

theorem takeReports_eq (p : Performance R) :
    p.takeReports = (p.reports, { p with run := p.run.withBridge p.emptied }) := by
  obtain ⟨run, inbox, cancels, callerPresent, isOver⟩ := p
  cases inbox <;> rfl

/-- It is harmless to hear nothing but stale reports where the other conductor hears nothing. -/
theorem harmless_conduct [Level R] {p q : Performance R} (none : p.reports = [])
    (stale : ∀ e ∈ q.reports, (q.cancels.foldl Run.cancel q.run).Stale e) :
    Harmless p q .conduct := by
  have hpadded : ∀ fs : List Event, (∀ e ∈ fs, (q.cancels.foldl Run.cancel q.run).Stale e) →
      (q.cancels.foldl Run.cancel q.run).Padded [] fs := by
    intro fs hfs
    induction fs with
    | nil => exact .nil
    | cons e fs ih =>
      exact .stale (hfs e List.mem_cons_self) (ih fun f hf => hfs f (List.mem_cons_of_mem e hf))
  show (q.cancels.foldl Run.cancel q.run).Padded p.reports q.reports
  rw [none]
  exact hpadded _ stale

/-- Two performances are the same except for what waits in their inboxes, where the one holds some
of what the other holds. -/
structure Below (p q : Performance R) : Prop where
  run : q.run = p.run.withBridge q.rig.bridge
  inbox : q.inbox = p.inbox
  cancels : q.cancels = p.cancels
  callerPresent : q.callerPresent = p.callerPresent
  isOver : q.isOver = p.isOver
  bridge : p.rig.bridge.Below p.inbox q.rig.bridge

theorem Below.refl (p : Performance R) : p.Below p := ⟨rfl, rfl, rfl, rfl, rfl, .refl _ _⟩

variable [Level R]

theorem handleMail_eq (p : Performance R) : p.handleMail = { p with
    run := (p.reports.foldl Run.hear (p.cancels.foldl Run.cancel p.run)).withBridge p.emptied
    cancels := [] } := by
  have hbridge : (p.cancels.foldl Run.cancel p.run).rig.bridge = p.rig.bridge :=
    congrArg (·.rig.bridge) (p.run.foldl_cancel_withBridge p.rig.bridge p.cancels)
  obtain ⟨run, inbox, cancels, callerPresent, isOver⟩ := p
  unfold handleMail
  dsimp only
  rw [takeReports_eq]
  dsimp only
  rw [Run.foldl_hear_withBridge]
  have hemptied : ∀ r : Run R, r.rig.bridge = run.rig.bridge →
      reports { run := r, inbox, callerPresent, isOver } =
        reports { run, inbox, cancels, callerPresent, isOver } ∧
      emptied { run := r, inbox, callerPresent, isOver } =
        emptied { run, inbox, cancels, callerPresent, isOver } := by
    intro r hr
    cases inbox with
    | none => exact ⟨rfl, hr⟩
    | some i => exact ⟨congrArg (·.waiting i) hr, congrArg (fun b => (b.read i).2) hr⟩
  obtain ⟨hreports, hempty⟩ := hemptied _ hbridge
  rw [hreports, hempty]

/-- Where no mail waits, handling it changes nothing. -/
theorem handleMail_of_empty {p : Performance R} (cancels : p.cancels = [])
    (reports : p.reports = []) : p.handleMail = p := by
  rw [handleMail_eq, reports, cancels]
  obtain ⟨run, inbox, _, callerPresent, isOver⟩ := p
  obtain rfl : _ = [] := cancels
  cases inbox with
  | none => rfl
  | some i =>
    have hread := Bridge.read_of_empty (b := run.rig.bridge) reports
    exact congrArg (fun x => (⟨run.withBridge x.2, some i, [], callerPresent, isOver⟩ :
      Performance R)) hread

omit [Level R] in
theorem mail_iff {p : Performance R} : (!p.cancels.isEmpty ||
    p.inbox.any fun i => !(p.rig.bridge.waiting i).isEmpty) = false ↔
      p.cancels = [] ∧ p.reports = [] := by
  obtain ⟨run, inbox, cancels, callerPresent, isOver⟩ := p
  cases inbox with
  | none => simp [reports, takeReports]
  | some i => simp [reports, takeReports, Bridge.read]

/-- What the conductor does next, if the performance is not over. -/
theorem act_conduct {p : Performance R} (h : p.isOver = false) : p.act .conduct =
    match p.handleMail.run.playDue? with
    | some run => { p.handleMail with run }
    | none =>
      if p.handleMail.run.isOver then p.handleMail.close
      else if p.handleMail.run.queue.nextWake = none ∧ !p.handleMail.callerPresent ∧
          !p.handleMail.hearsReports then
        { p.handleMail with run := p.handleMail.run.cancel .immediate }
      else p.handleMail := by
  unfold act step?
  dsimp only
  rw [h, if_neg Bool.false_ne_true]
  cases p.handleMail.run.playDue? with
  | some run => rfl
  | none =>
    dsimp only
    split
    · rfl
    · split
      · rfl
      · split
        · rfl
        · rename_i hmail
          obtain ⟨hcancels, hreports⟩ := mail_iff.mp (Bool.not_eq_true _ ▸ hmail)
          exact (handleMail_of_empty hcancels hreports).symm

namespace Below

variable {p q : Performance R}

theorem handleMail (H : p.Below q) (padded : Harmless p q .conduct) :
    p.handleMail.Below q.handleMail := by
  have hcancels : q.cancels.foldl Run.cancel q.run =
      (p.cancels.foldl Run.cancel p.run).withBridge q.rig.bridge := by
    rw [H.run, H.cancels]
    exact p.run.foldl_cancel_withBridge q.rig.bridge p.cancels
  have hhear : q.reports.foldl Run.hear (q.cancels.foldl Run.cancel q.run) =
      (p.reports.foldl Run.hear (p.cancels.foldl Run.cancel p.run)).withBridge q.rig.bridge := by
    rw [Run.Padded.foldl_hear padded, hcancels]
    exact Run.foldl_hear_withBridge _ _ _
  have hemptied : p.emptied.Below p.inbox q.emptied := by
    unfold emptied
    rw [H.inbox]
    split
    · exact H.bridge
    · exact H.bridge.read _
  rw [handleMail_eq p, handleMail_eq q]
  exact {
    run := congrArg (·.withBridge q.emptied) hhear
    inbox := H.inbox
    cancels := rfl
    callerPresent := H.callerPresent
    isOver := H.isOver
    bridge := hemptied }

omit [Level R] in
theorem onBridge (H : p.Below q) {f : Bridge → Bridge}
    (h : (f p.rig.bridge).Below p.inbox (f q.rig.bridge)) : (p.onBridge f).Below (q.onBridge f) where
  run := congrArg (·.withBridge (f q.rig.bridge)) H.run
  inbox := H.inbox
  cancels := H.cancels
  callerPresent := H.callerPresent
  isOver := H.isOver
  bridge := h

omit [Level R] in
theorem close (H : p.Below q) : p.close.Below q.close := by
  have hplan : q.run.plan = p.run.plan := by
    rw [H.run]
    rfl
  have hbridge := H.bridge.detach p.run.plan.vibration
  unfold Performance.close
  rw [hplan, H.inbox]
  split
  · rename_i i _
    have hclosed := H.onBridge (f := fun b => (b.detach p.run.plan.vibration).abandon i)
      (hbridge.abandon i)
    exact ⟨hclosed.run, hclosed.inbox, rfl, hclosed.callerPresent, rfl, hclosed.bridge⟩
  · have hclosed := H.onBridge (f := (·.detach p.run.plan.vibration)) hbridge
    exact ⟨hclosed.run, hclosed.inbox, rfl, hclosed.callerPresent, rfl, hclosed.bridge⟩

omit [Level R] in
theorem withRun (H : p.Below q) {r : Run R} (h : r.rig.bridge = p.rig.bridge) :
    Below { p with run := r } { q with run := r.withBridge q.rig.bridge } where
  run := rfl
  inbox := H.inbox
  cancels := H.cancels
  callerPresent := H.callerPresent
  isOver := H.isOver
  bridge := by
    show r.rig.bridge.Below p.inbox q.rig.bridge
    rw [h]
    exact H.bridge

omit [Level R] in
theorem hearsReports (H : p.Below q) : q.hearsReports = p.hearsReports := by
  unfold Performance.hearsReports Bridge.isClosed
  rw [H.inbox, H.bridge.route]

theorem conduct (H : p.Below q) (padded : Harmless p q .conduct) :
    (p.act .conduct).Below (q.act .conduct) := by
  by_cases hover : p.isOver = true
  · have hp : p.act .conduct = p := by
      unfold act step?
      rw [if_pos hover]
      rfl
    have hq : q.act .conduct = q := by
      unfold act step?
      rw [if_pos (H.isOver.trans hover)]
      rfl
    rw [hp, hq]
    exact H
  · rw [Bool.not_eq_true] at hover
    rw [act_conduct hover, act_conduct (H.isOver.trans hover)]
    have hmail := H.handleMail padded
    generalize p.handleMail = p at hmail ⊢
    generalize q.handleMail = q at hmail ⊢
    have hself : ∀ r, p.run.playDue? = some r → r.rig.bridge = p.rig.bridge := by
      intro r hr
      have hplay : p.run.playDue? = p.run.playDue?.map (·.withBridge p.rig.bridge) :=
        p.run.playDue_withBridge p.rig.bridge
      rw [hr] at hplay
      exact congrArg (·.rig.bridge) (Option.some.inj hplay)
    have hplay := p.run.playDue_withBridge q.rig.bridge
    rw [← hmail.run] at hplay
    rw [hplay]
    cases hdue : p.run.playDue? with
    | some r => exact hmail.withRun (hself r hdue)
    | none =>
      have hqueue : q.run.queue = p.run.queue := by
        rw [hmail.run]
        rfl
      have hisOver : q.run.isOver = p.run.isOver := congrArg Queue.isEmpty hqueue
      dsimp only [Option.map_none]
      rw [hisOver, hqueue, hmail.callerPresent, hmail.hearsReports]
      split
      · exact hmail.close
      · split
        · have hcancel := p.run.cancel_withBridge q.rig.bridge .immediate
          rw [← hmail.run] at hcancel
          have himmediate := hmail.withRun (r := p.run.cancel .immediate)
            (congrArg (·.rig.bridge) (p.run.cancel_withBridge p.rig.bridge .immediate))
          rw [hmail.callerPresent] at himmediate
          rw [hcancel]
          exact himmediate
        · exact hmail

theorem act (H : p.Below q) (a : Act R) (harmless : Harmless p q a) :
    (p.act a).Below (q.act a) := by
  cases a with
  | conduct => exact H.conduct harmless
  | arrive e =>
    refine H.onBridge (f := (·.post e.vibration e)) (H.bridge.post e ?_)
    rw [← H.inbox]
    exact harmless
  | send mode =>
    show (p.send mode).2.Below (q.send mode).2
    unfold send
    have hlistens : (q.callerPresent ∧ !q.isOver) ↔ (p.callerPresent ∧ !p.isOver) := by
      rw [H.callerPresent, H.isOver]
    by_cases h : p.callerPresent ∧ !p.isOver
    · rw [if_pos h, if_pos (hlistens.mpr h)]
      exact ⟨H.run, H.inbox, congrArg (· ++ [mode]) H.cancels, H.callerPresent, H.isOver, H.bridge⟩
    · rw [if_neg h, if_neg (mt hlistens.mp h)]
      exact H
  | leave => exact ⟨H.run, H.inbox, H.cancels, rfl, H.isOver, H.bridge⟩
  | world f =>
    have hrig : q.rig.withBridge {} = p.rig.withBridge {} := by
      rw [rig, H.run]
      rfl
    have hnow : q.rig.now = p.rig.now := by
      rw [rig, H.run]
      rfl
    refine ⟨?_, H.inbox, H.cancels, H.callerPresent, H.isOver, H.bridge⟩
    unfold Performance.act withRig
    dsimp only
    rw [hrig, hnow, H.run]
    rfl
  | attach v capacity => exact H.onBridge (f := (·.attach v capacity)) (H.bridge.attach v capacity)
  | detach v => exact H.onBridge (f := (·.detach v)) (H.bridge.detach v)

end Below

theorem Alongside.below_acts {p q : Performance R} {as bs : List (Act R)} (A : Alongside p q as bs)
    (H : p.Below q) : (p.acts as).Below (q.acts bs) := by
  induction A with
  | done => exact H
  | both a harmless _ ih => exact ih (H.act a harmless)
  | @stray p q as bs e room _ ih =>
    refine ih ⟨?_, H.inbox, H.cancels, H.callerPresent, H.isOver, H.bridge.post_right _ _⟩
    exact congrArg (·.withBridge (q.rig.bridge.post e.vibration e)) H.run
  | @wake p q as bs idle harmless _ ih =>
    have hconduct := H.conduct harmless
    have hidle : p.act .conduct = p := by
      unfold Performance.act
      dsimp only
      rw [idle]
      rfl
    rw [hidle] at hconduct
    exact ih hconduct

/-- Stray reports leave no trace: with and without them, a performance asks the same of the hardware
at the same instants, tells the same about itself, and ends in the same way. -/
theorem same_of_alongside (p : Performance R) {as bs : List (Act R)} (A : Alongside p p as bs) :
    (p.acts bs).run.stage.deeds = (p.acts as).run.stage.deeds ∧
      (p.acts bs).rig.log = (p.acts as).rig.log ∧
      (p.acts bs).run.stage.telemetry = (p.acts as).run.stage.telemetry ∧
      (p.acts bs).isOver = (p.acts as).isOver ∧ (p.acts bs).status = (p.acts as).status := by
  have H := A.below_acts (.refl p)
  obtain ⟨hrun, -, -, -, hover, -⟩ := H
  unfold rig status
  rw [hrun]
  exact ⟨rfl, rfl, rfl, hover, rfl⟩

end Performance

namespace Performance

/-- One hold on a motor that reports only when it is told to. -/
def held : Performance Rat :=
  (fresh ⟨1, ⟨1000, "com.example"⟩, .standard⟩ (.mono (.pattern (.oneShot 30))) (.bench [0])).opened

def plain : List (Act Rat) :=
  [.conduct, .world (·.moveTo 30), .conduct, .world (·.moveTo 1030), .conduct, .conduct]

/-- There are reports for steps that do not exist, one for another vibration, and one of the group
when no step waits any more. -/
def haunted : List (Act Rat) :=
  [.arrive (.stepComplete 0 1 7), .conduct, .arrive (.stepComplete 0 2 1),
    .arrive (.stepComplete 0 1 9), .conduct, .world (·.moveTo 30), .conduct,
    .world (·.moveTo 1030), .conduct, .arrive (.syncedComplete 1), .conduct]

theorem same_of_alongside_held : held.Alongside held plain haunted ∧
    (held.acts haunted).run.stage.deeds = (held.acts plain).run.stage.deeds ∧
    (held.acts haunted).rig.log = (held.acts plain).rig.log ∧
    (held.acts haunted).run.stage.telemetry = (held.acts plain).run.stage.telemetry ∧
    (held.acts haunted).isOver = (held.acts plain).isOver ∧
    (held.acts haunted).status = (held.acts plain).status :=
  have A : held.Alongside held plain haunted :=
    .stray _ (by decide +kernel) <|
    .both .conduct (harmless_conduct (by decide +kernel) (by decide +kernel)) <|
    .stray _ (by decide +kernel) <| .stray _ (by decide +kernel) <|
    .wake (Option.isNone_iff_eq_none.mp (by decide +kernel))
      (harmless_conduct (by decide +kernel) (by decide +kernel)) <|
    .both (.world _) trivial <|
    .both .conduct (harmless_conduct (by decide +kernel) (by decide +kernel)) <|
    .both (.world _) trivial <|
    .both .conduct (harmless_conduct (by decide +kernel) (by decide +kernel)) <|
    .stray _ (by decide +kernel) <|
    .both .conduct (harmless_conduct (by decide +kernel) (by decide +kernel)) .done
  ⟨A, same_of_alongside held A⟩

end Performance
end Haptics
