import Haptics.Proofs.OwnSteps

/-!
# The voice of an actuator in a run

A voice goes along with a run (`Run.Voices`) if they share the actuator's part of the stage, and the
voice's step is the actuator's step in the queue. Whatever happens in the run, the voice does the
same if it concerns the actuator, and nothing otherwise.
-/

namespace Haptics

variable {R : Type}

/-- Steps of an actuator that are the same up to their numbers. -/
def Voice.SameStep (a : ActuatorId) (ρ : Nat → Nat → Prop) (x y : Bool × Lane × Task R) : Prop :=
  y.1 = x.1 ∧ Lane.SameTask a ρ x.2 y.2

/-- A run that was opened, and the share of an actuator in it. -/
structure Run.Voices (plan : Plan R) (a : ActuatorId) (ρ : Nat → Nat → Prop) (r : Run R)
    (w : Voice R) : Prop where
  same : r.plan = plan
  stage : r.stage.Shares a plan.vibration ρ w.stage
  queue : r.queue.Underway
  step : List.Forall₂ (Voice.SameStep a ρ) (r.queue.own a) w.step.toList
  silenced : r.cancelled = some .immediate → r.queue.items = []

/-- Corresponding reports do the same to corresponding lanes. -/
theorem Lane.Alike.accept {a : ActuatorId} {ρ : Nat → Nat → Prop} {l l' : Lane}
    (L : l.Alike a ρ l') (unique : Relator.BiUnique ρ) {i j : Nat} (h : ρ i j) (now : Nat) :
    (l'.accept a (some j) now).1 = (l.accept a (some i) now).1 ∧
      (l.accept a (some i) now).2.Alike a ρ (l'.accept a (some j) now).2 := by
  have hawaiting := L.awaiting
  unfold Lane.accept
  generalize l.deadline.awaiting? = k? at hawaiting ⊢
  generalize l'.deadline.awaiting? = k'? at hawaiting ⊢
  cases hawaiting with
  | none => exact ⟨rfl, L⟩
  | @some k k' hk =>
    have hiff : (l'.actuator = a ∧ (some j).all (· == k') = true) ↔
        (l.actuator = a ∧ (some i).all (· == k) = true) := by
      simp only [L.actuator, L.actuator', true_and, Option.all_some, beq_iff_eq]
      constructor
      · rintro rfl
        exact unique.1 h hk
      · rintro rfl
        exact unique.2 h hk
    dsimp only
    by_cases hmeant : l.actuator = a ∧ (some i).all (· == k) = true
    · rw [if_pos hmeant, if_pos (hiff.mpr hmeant), Deadline.isPending_of_blank L.blank]
      exact ⟨rfl, { L with reported := rfl, blank := rfl, awaiting := .none }⟩
    · rw [if_neg hmeant, if_neg (mt hiff.mp hmeant)]
      exact ⟨rfl, L⟩

/-- What a run is after a step was taken out and played. -/
def Run.played [Level R] (r : Run R) (x : Step R) (q : Queue (Step R)) : Run R :=
  { r with
    stage := (r.stage.play r.plan x).stage
    queue := q.extend (r.stage.play r.plan x).next }

namespace Run.Voices

variable [Level R] {plan : Plan R} {a b : ActuatorId} {ρ : Nat → Nat → Prop} {r : Run R}
  {w : Voice R}

omit [Level R] in
theorem now (H : r.Voices plan a ρ w) : w.now = r.now := H.stage.now

omit [Level R] in
theorem own_length (H : r.Voices plan a ρ w) : (r.queue.own a).length ≤ 1 := by
  rw [H.step.length_eq]
  cases w.step <;> simp

omit [Level R] in
/-- The actuator has a step in the queue exactly if the voice has one. -/
theorem step_cases (H : r.Voices plan a ρ w) : (r.queue.own a = [] ∧ w.step = none) ∨
    ∃ released l l' task, r.queue.own a = [(released, l, task)] ∧
      w.step = some (released, l', task) ∧ l.Alike a ρ l' := by
  have hstep := H.step
  cases hw : w.step with
  | none =>
    rw [hw] at hstep
    exact .inl ⟨List.forall₂_nil_right_iff.mp hstep, rfl⟩
  | some y =>
    rw [hw] at hstep
    obtain ⟨released, l', task⟩ := y
    obtain ⟨⟨released, l, task⟩, xs, ⟨rfl, L, rfl⟩, hrest, hown⟩ :=
      List.forall₂_cons_right_iff.mp hstep
    rw [List.forall₂_nil_right_iff.mp hrest] at hown
    exact .inr ⟨_, l, l', _, hown, rfl, L⟩

/-! ## Reports -/

/-- A report about another actuator does not concern the voice. -/
theorem hear_aside (H : r.Voices plan a ρ w) (h : b ≠ a) (v i : Nat) :
    (r.hear (.stepComplete b v i)).Voices plan a ρ w where
  same := H.same
  stage := H.stage
  queue := H.queue.acceptCompletion b (some i) r.now
  step := by
    show List.Forall₂ _ ((r.queue.acceptCompletion b (some i) r.now).2.own a) _
    rw [Queue.own_acceptCompletion_aside _ _ h]
    exact H.step
  silenced hc := ((r.move_moved (.hear (.stepComplete b v i))).over (H.silenced hc)).1

theorem hear (H : r.Voices plan a ρ w) {i j : Nat} (h : ρ i j) (v : Nat) :
    (r.hear (.stepComplete a v i)).Voices plan a ρ (w.hear a j) where
  same := H.same
  stage := H.stage
  queue := H.queue.acceptCompletion a (some i) r.now
  step := by
    show List.Forall₂ _ ((r.queue.acceptCompletion a (some i) r.now).2.own a)
      (w.hear a j).step.toList
    rw [Queue.own_acceptCompletion_own _ _ H.own_length]
    unfold Voice.hear
    rw [H.now]
    rcases H.step_cases with ⟨hown, hw⟩ | ⟨released, l, l', task, hown, hw, L⟩
    · rw [hown, hw]
      exact .nil
    · rw [hown, hw]
      obtain ⟨hok, hlane⟩ := L.accept H.stage.unique h r.now
      cases released with
      | true => exact .cons ⟨rfl, L, rfl⟩ .nil
      | false => exact .cons ⟨hok, hlane, rfl⟩ .nil
  silenced hc := ((r.move_moved (.hear (.stepComplete a v i))).over (H.silenced hc)).1

/-! ## Cancels -/

section
variable (H : r.Voices plan a ρ w)
include H

theorem cancel_graceful (hc : r.cancelled ≠ some .immediate) : ∃ σ, (∀ i j, ρ i j → σ i j) ∧
    (r.cancel .graceful).Voices plan a σ (w.obey .graceful) := by
  obtain ⟨k, hk, hlt, hown⟩ := r.own_graceful hc H.own_length
  rw [r.cancel_graceful_eq hc] at hlt hown ⊢
  have hparts : ∀ x ∈ Step.remnants r.now r.stage.nextStep r.queue.items, x.part ≠ .opening := by
    intro x hx
    have hpart := List.mem_map_of_mem (f := Step.part) hx
    rw [Step.parts_remnants] at hpart
    exact of_decide_eq_true (List.mem_filter.mp hpart).2
  have hempty : r.queue.drainInOrder.2.items = [] := rfl
  have hqueue := (Queue.Underway.of_items hempty).extend hparts
  have hsilenced {xs : List (Step R)} (h : some CancelMode.graceful = some .immediate) :
      (r.queue.drainInOrder.2.extend xs).items = [] := by cases h
  rcases H.step_cases with ⟨hnone, hw⟩ | ⟨released, l, l', task, hsome, hw, L⟩
  · rw [hnone] at hown
    rw [Voice.obey_of_none hw]
    refine ⟨ρ, fun _ _ => id, H.same, H.stage.skip _, hqueue, ?_, hsilenced⟩
    rw [hw]
    exact hown ▸ .nil
  · rw [hsome] at hown hlt
    have hobey : w.obey .graceful = { w with
        stage := { w.stage with nextStep := w.stage.nextStep + 1 }
        step := some (false, { id := w.stage.nextStep, start := .at w.now, actuator := l'.actuator,
                               deadline := l'.deadline }, task.remnant) } := by
      simp only [Voice.obey, hw]
    rw [hobey]
    refine ⟨_, fun i j h => .inl h, H.same,
      H.stage.correspond hk (hlt (List.cons_ne_nil _ _)) (Nat.le_refl _) (Nat.lt_succ_self _),
      hqueue, ?_, hsilenced⟩
    refine hown ▸ .cons ⟨rfl, ?_, rfl⟩ .nil
    exact ⟨.inr ⟨rfl, rfl⟩, L.actuator, L.actuator', congrArg StartTime.at H.now,
      StartTime.noConfusion, rfl, L.blank, L.awaiting.imp fun _ _ => .inl⟩

theorem cancel_immediate (hc : r.cancelled ≠ some .immediate) :
    (r.cancel .immediate).Voices plan a ρ (w.obey .immediate) := by
  have hcancel : r.cancel .immediate = { r with
      cancelled := some .immediate
      queue := r.queue.drainReversed.2
      stage := r.stage.tearDown r.plan r.queue.drainReversed.1 } := if_neg hc
  have hempty : r.queue.drainReversed.2.items = [] := rfl
  have hown := (Queue.items_drainReversed r.queue).filterMap (Step.own? a)
  rw [← Queue.own_map_snd] at hown
  rw [hcancel, H.same]
  rcases H.step_cases with ⟨hnone, hw⟩ | ⟨released, l, l', task, hsome, hw, L⟩
  · rw [hnone] at hown
    have hnext : List.Forall₂ (Lane.SameTask a ρ)
        (r.queue.drainReversed.1.filterMap (Step.own? a))
        (none : Option (Lane × Task R)).toList := by
      rw [List.perm_nil.mp hown]
      exact .nil
    have hstage := H.stage.tearDown plan hnext
    rw [Voice.obey_of_none hw]
    refine ⟨rfl, hstage, .of_items hempty, ?_, fun _ => hempty⟩
    rw [hw]
    exact (Queue.own_of_items hempty) ▸ .nil
  · have hobey : w.obey .immediate =
        { w with stage := l'.cancelNow w.stage task, step := none } := by
      simp only [Voice.obey, hw]
    rw [hsome] at hown
    have hnext : List.Forall₂ (Lane.SameTask a ρ)
        (r.queue.drainReversed.1.filterMap (Step.own? a)) (some (l', task)).toList := by
      rw [List.perm_singleton.mp hown]
      exact .cons ⟨L, rfl⟩ .nil
    have hstage := H.stage.tearDown plan hnext
    rw [hobey]
    refine ⟨rfl, hstage, .of_items hempty, ?_, fun _ => hempty⟩
    exact (Queue.own_of_items hempty) ▸ .nil

/-- The voice obeys cancels. -/
theorem obey (mode : CancelMode) : ∃ σ, (∀ i j, ρ i j → σ i j) ∧
    (r.cancel mode).Voices plan a σ (w.obey mode) := by
  by_cases hc : r.cancelled = some .immediate
  · -- Nothing is left to cancel.
    have hw : w.step = none := by
      rcases H.step_cases with ⟨-, hw⟩ | ⟨_, _, _, _, hown, -⟩
      · exact hw
      · rw [Queue.own_of_items (H.silenced hc)] at hown
        cases hown
    have hcancel : r.cancel mode = r := if_pos hc
    rw [Voice.obey_of_none hw, hcancel]
    exact ⟨ρ, fun _ _ => id, H⟩
  · cases mode with
    | graceful => exact H.cancel_graceful hc
    | immediate => exact ⟨ρ, fun _ _ => id, H.cancel_immediate hc⟩

end

/-! ## Steps -/

section
variable (H : r.Voices plan a ρ w) {q : Queue (Step R)}
include H

theorem play_own {l : Lane} {task : Task R} (h : r.queue.popDue r.now = some (.lane l task, q))
    (ha : l.actuator = a) : ∃ σ, (∀ i j, ρ i j → σ i j) ∧ ∃ w', w.Own plan a w' ∧
      w'.inbox = w.inbox ∧ w'.cancels = w.cancels ∧
      (r.played (.lane l task) q).Voices plan a σ w' := by
  obtain ⟨released, hown, hdue⟩ := Queue.own_popDue H.queue.kept h ha
  rcases H.step_cases with ⟨hnone, -⟩ | ⟨_, _, l', _, hsome, hw, L⟩
  · rw [hnone] at hown
    cases hown
  · rw [hsome] at hown
    injection hown with hstep hrest
    cases hstep
    obtain ⟨-, σ, hσ, hstage, hnext⟩ := H.stage.play_own L task
    have hone : ((l.play plan r.stage task).next.filterMap (Step.own? a)).length ≤ 1 := by
      rw [hnext.length_eq]
      exact Option.length_toList_le
    have hlanes := (l.play_plays r.stage plan task).lanes
    have hplan : r.stage.play r.plan (.lane l task) = l.play plan r.stage task := by
      rw [H.same]
      rfl
    refine ⟨σ, hσ, _, .play hw (by rw [L.start, H.now]; exact hdue), rfl, rfl, ?_⟩
    unfold Run.played
    rw [hplan]
    refine ⟨H.same, hstage, (H.queue.popDue h).extend fun x hx => ?_, ?_, fun hc => ?_⟩
    · rw [hlanes x hx]
      exact Part.noConfusion
    · show List.Forall₂ _ ((q.extend (l.play plan r.stage task).next).own a) _
      rw [Queue.own_extend hrest.symm hone]
      unfold Voice.play
      rw [Option.toList_map, List.forall₂_map_left_iff, List.forall₂_map_right_iff]
      exact hnext.imp fun _ _ hsame => ⟨rfl, hsame⟩
    · have hitems := Queue.items_of_popDue h
      rw [H.silenced hc] at hitems
      cases hitems

/-- Playing a step of something else does not concern the voice. -/
theorem play_aside {x : Step R} (h : r.queue.popDue r.now = some (x, q)) (hx : x.own? a = none) :
    (r.played x q).Voices plan a ρ w := by
  have hown := Queue.own_popDue_aside h hx
  have hitems := Queue.items_of_popDue h
  have hpart := H.queue.opened x (hitems ▸ List.mem_cons_self)
  have hplay : (r.stage.play r.plan x).stage.Shares a plan.vibration ρ w.stage ∧
      (r.stage.play r.plan x).next.filterMap (Step.own? a) = [] ∧
      ∀ y ∈ (r.stage.play r.plan x).next, y.part ≠ .opening := by
    rw [H.same]
    cases x with
    | start => exact absurd rfl hpart
    | lane l task =>
      have hne : l.actuator ≠ a := fun ha => by
        rw [Step.own_lane ha] at hx
        cases hx
      obtain ⟨hstage, hnext⟩ := H.stage.play_aside hne task
      refine ⟨hstage, hnext, fun y hy => ?_⟩
      rw [(l.play_plays r.stage plan task).lanes y hy]
      exact Part.noConfusion
    | finish => exact ⟨H.stage.tell _, rfl, fun _ hy => (List.not_mem_nil hy).elim⟩
  obtain ⟨hstage, hnext, hparts⟩ := hplay
  refine ⟨H.same, hstage, (H.queue.popDue h).extend hparts, ?_, fun hc => ?_⟩
  · show List.Forall₂ _ ((q.extend (r.stage.play r.plan x).next).own a) _
    rw [Queue.own_extend_aside hnext, hown]
    exact H.step
  · rw [H.silenced hc] at hitems
    cases hitems

/-- The voice plays if the step is its own. -/
theorem play {x : Step R} (h : r.queue.popDue r.now = some (x, q)) :
    ∃ σ, (∀ i j, ρ i j → σ i j) ∧ ∃ w', (w' = w ∨ w.Own plan a w') ∧
      w'.inbox = w.inbox ∧ w'.cancels = w.cancels ∧ (r.played x q).Voices plan a σ w' := by
  cases hx : x.own? a with
  | none => exact ⟨ρ, fun _ _ => id, w, .inl rfl, rfl, rfl, H.play_aside h hx⟩
  | some y =>
    obtain ⟨rfl, ha⟩ := Step.own_eq_some.mp hx
    obtain ⟨σ, hσ, w', hown, hinbox, hcancels, hvoices⟩ := H.play_own h ha
    exact ⟨σ, hσ, w', .inr hown, hinbox, hcancels, hvoices⟩

omit [Level R] in
/-- If nothing in the run is due, nothing of the voice is. -/
theorem not_ready (h : r.queue.popDue r.now = none) : w.isReady r.now = false := by
  unfold Voice.isReady
  rcases H.step_cases with ⟨-, hw⟩ | ⟨released, l, l', task, hsome, hw, L⟩
  · exact Voice.isReady_of_none hw _
  · have hdue := H.queue.not_due h (hsome ▸ List.mem_singleton_self _) L.lane
    rw [hw, Option.any_some]
    dsimp only
    rw [L.start]
    exact hdue

end

/-! ## The hardware and the mail -/

section
omit [Level R]

theorem withRig (H : r.Voices plan a ρ w) {rig rig' : Rig R}
    (h : rig.Shares a plan.vibration ρ rig') :
    (r.withRig rig).Voices plan a ρ { w with stage := { w.stage with rig := rig' } } :=
  ⟨H.same, H.stage.withRig h, H.queue, H.step, H.silenced⟩

theorem withMail (H : r.Voices plan a ρ w) (inbox : List Nat) (cancels : List CancelMode) :
    r.Voices plan a ρ { w with inbox, cancels } :=
  ⟨H.same, H.stage, H.queue, H.step, H.silenced⟩

end

section
variable {strict : Prop}

/-- The voice obeys several cancels. -/
theorem obeyAll (H : r.Voices plan a ρ w) {modes : List CancelMode} (h : w.cancels = modes)
    (apart : strict → w.pending plan a w.now ≤ 1) : ∃ σ, (∀ i j, ρ i j → σ i j) ∧ ∃ w',
      Relation.ReflTransGen (Voice.Does plan a strict) w w' ∧
      (modes.foldl Run.cancel r).Voices plan a σ w' ∧ w'.inbox = w.inbox ∧ w'.cancels = [] ∧
      (strict → w'.pending plan a w'.now ≤ 1) := by
  induction modes generalizing r w ρ with
  | nil => exact ⟨ρ, fun _ _ => id, w, .refl, H, rfl, h, apart⟩
  | cons mode modes ih =>
    obtain ⟨σ, hσ, hvoices⟩ := (H.withMail w.inbox modes).obey mode
    obtain ⟨hinbox, hcancels⟩ := Voice.mail_obey { w with cancels := modes } mode
    have hnow := Voice.now_obey (v := { w with cancels := modes }) mode
    obtain ⟨τ, hτ, w', hdoes, hvoices', hinbox', hcancels', hpending⟩ := ih hvoices hcancels
      fun hs => hnow ▸ Voice.pending_obey h (apart hs)
    exact ⟨τ, fun i j hij => hτ i j (hσ i j hij), w', hdoes.head ⟨apart, .obey h⟩, hvoices',
      hinbox'.trans hinbox, hcancels', hpending⟩

/-- The voice hears of several reports what concerns its actuator. -/
theorem hearAll (H : r.Voices plan a ρ w) {es : List Event}
    (steps : ∀ e ∈ es, ∃ b i, e = .stepComplete b plan.vibration i)
    (h : List.Forall₂ ρ (es.filterMap (Event.step? a plan.vibration)) w.inbox)
    (apart : strict → w.pending plan a w.now ≤ 1) : ∃ w',
      Relation.ReflTransGen (Voice.Does plan a strict) w w' ∧
      (es.foldl Run.hear r).Voices plan a ρ w' ∧ w'.inbox = [] ∧ w'.cancels = w.cancels ∧
      (strict → w'.pending plan a w'.now ≤ 1) := by
  induction es generalizing r w with
  | nil => exact ⟨w, .refl, H, List.forall₂_nil_left_iff.mp h, rfl, apart⟩
  | cons e es ih =>
    obtain ⟨b, i, rfl⟩ := steps e List.mem_cons_self
    have hsteps := fun e he => steps e (List.mem_cons_of_mem _ he)
    by_cases hb : b = a
    · subst hb
      have hown : Event.step? b plan.vibration (.stepComplete b plan.vibration i) = some i :=
        if_pos ⟨rfl, rfl⟩
      rw [List.filterMap_cons_some hown] at h
      obtain ⟨j, js, hij, hrest, hinbox⟩ := List.forall₂_cons_left_iff.mp h
      obtain ⟨w', hdoes, hvoices, hinbox', hcancels, hpending⟩ :=
        ih ((H.withMail js w.cancels).hear hij plan.vibration) hsteps hrest
          fun hs => Voice.pending_hear hinbox (apart hs)
      exact ⟨w', hdoes.head ⟨apart, .hear hinbox⟩, hvoices, hinbox', hcancels, hpending⟩
    · have hother : Event.step? a plan.vibration (.stepComplete b plan.vibration i) = none :=
        if_neg fun h => hb h.1
      rw [List.filterMap_cons_none hother] at h
      exact ih (H.hear_aside hb plan.vibration i) hsteps h apart

end

end Run.Voices
end Haptics
