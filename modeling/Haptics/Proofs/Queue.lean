import Haptics.Conductor.Step

/-!
# What is in a queue

A queue is looked at as the list of its items in the order in which they would run (`Queue.items`),
and the queue of a vibration also as the list of whose steps they are (`Queue.parts`): the opening
step, steps of actuators and the closing step. Reports move steps and change their lanes, but the
parts stay. `Queue.Kept` is the invariant behind the closing step: a queue that hands it out holds
nothing else.
-/

namespace Haptics

variable {R α : Type}

/-- Whose step a step is. -/
inductive Part
  /-- The step that starts the effects. -/
  | opening
  | lane (a : ActuatorId)
  /-- The step that closes the vibration. -/
  | closing
deriving DecidableEq

def Step.part : Step R → Part
  | start _ _ => .opening
  | lane l _ => .lane l.actuator
  | finish => .closing

namespace Queue

/-- The items of a queue, those that were released first. -/
def items (q : Queue α) : List α := (q.released ++ q.timed).map (·.item)

def parts (q : Queue (Step R)) : List Part := q.items.map Step.part

theorem isEmpty_iff {q : Queue α} : q.isEmpty = true ↔ q.items = [] := by
  simp [isEmpty, items, and_comm]

theorem parts_eq_nil {q : Queue (Step R)} : q.parts = [] ↔ q.items = [] := List.map_eq_nil_iff

/-! ## Adding and taking out -/

theorem place_perm (e : Entry α) (es : List (Entry α)) : (place e es).Perm (e :: es) := by
  induction es with
  | nil => exact .refl _
  | cons x es ih =>
    unfold place
    split
    · exact .refl _
    · exact (ih.cons x).trans (.swap e x es)

theorem items_push [Scheduled α] (q : Queue α) (x : α) : (q.push x).items.Perm (x :: q.items) := by
  simp only [items, push]
  refine (((place_perm _ q.timed).append_left q.released).map (·.item)).trans ?_
  simp

theorem items_extend [Scheduled α] (q : Queue α) (xs : List α) :
    (q.extend xs).items.Perm (xs ++ q.items) := by
  induction xs generalizing q with
  | nil => exact .refl _
  | cons x xs ih =>
    refine (ih (q.push x)).trans ?_
    exact ((items_push q x).append_left xs).trans List.perm_middle

theorem items_of_popDue {q q' : Queue α} {now : Nat} {x : α} (h : q.popDue now = some (x, q')) :
    q.items = x :: q'.items := by
  unfold popDue at h
  split at h
  · rename_i ts e es hr
    cases h
    simp [items, hr]
  · cases h
  · rename_i e es hr ht
    split at h
    · cases h
    · split at h
      · cases h
        simp [items, hr, ht]
      · cases h

/-- The first of the items that were released is taken out first. -/
theorem popDue_of_released {q : Queue α} {e : Entry α} {es : List (Entry α)}
    (h : q.released = e :: es) (now : Nat) :
    q.popDue now = some (e.item, { q with released := es }) := by
  unfold popDue
  rw [h]

theorem items_drainReversed (q : Queue α) : q.drainReversed.1.Perm q.items :=
  (List.mergeSort_perm _ _).map _

/-! ## Reports -/

section
variable [Scheduled α] {P : Entry α → Prop} {a : ActuatorId} {step : Option Nat} {now : Nat}

/-- What holds of waiting items and survives an offer holds of those that go on waiting. -/
theorem forall_offer (hP : ∀ e, P e → P { e with item := (Scheduled.accept e.item a step now).2 })
    {es : List (Entry α)} (h : ∀ e ∈ es, P e) :
    (∀ e ∈ (offer a step now es).1, P e) ∧ ∀ e ∈ (offer a step now es).2, P e := by
  induction es with
  | nil => exact ⟨fun _ he => (Option.not_mem_none _ he).elim, h⟩
  | cons x es ih =>
    have hx := hP x (h x List.mem_cons_self)
    have hes := fun e he => h e (List.mem_cons_of_mem x he)
    unfold offer
    split
    · rename_i y hy
      rw [hy] at hx
      exact ⟨fun e he => by cases he; exact hx, hes⟩
    · rename_i y hy
      rw [hy] at hx
      refine ⟨(ih hes).1, fun e he => ?_⟩
      rcases List.mem_cons.mp he with rfl | he
      · exact hx
      · exact (ih hes).2 e he

theorem offer_found {es : List (Entry α)} {e : Entry α} (h : (offer a step now es).1 = some e) :
    ∃ x ∈ es, Scheduled.accept x.item a step now = (true, e.item) := by
  induction es with
  | nil => cases h
  | cons x es ih =>
    unfold offer at h
    split at h
    · rename_i y hy
      cases h
      exact ⟨x, List.mem_cons_self, hy⟩
    · obtain ⟨z, hz, hacc⟩ := ih h
      exact ⟨z, List.mem_cons_of_mem x hz, hacc⟩

/-- What holds of all entries and survives an offer holds of all entries after a report. -/
theorem forall_acceptCompletion
    (hP : ∀ e, P e → P { e with item := (Scheduled.accept e.item a step now).2 })
    {q : Queue α} (h : ∀ e ∈ q.released ++ q.timed, P e) :
    ∀ e ∈ (q.acceptCompletion a step now).2.released ++ (q.acceptCompletion a step now).2.timed,
      P e := by
  have ht := forall_offer hP fun e he => h e (List.mem_append_right _ he)
  have hr : ∀ e ∈ q.released, P e := fun e he => h e (List.mem_append_left _ he)
  unfold acceptCompletion
  split
  · rename_i x es hx
    rw [hx] at ht
    intro e he
    rcases List.mem_append.mp he with he | he
    · rcases List.mem_append.mp he with he | he
      · exact hr e he
      · exact ht.1 e (by rw [List.mem_singleton.mp he]; rfl)
    · exact ht.2 e he
  · rename_i es hx
    rw [hx] at ht
    intro e he
    exact (List.mem_append.mp he).elim (hr e) (ht.2 e)

theorem forall_items_acceptCompletion {Q : α → Prop}
    (hQ : ∀ x, Q x → Q (Scheduled.accept x a step now).2) {q : Queue α} (h : ∀ x ∈ q.items, Q x) :
    ∀ x ∈ (q.acceptCompletion a step now).2.items, Q x := by
  intro x hx
  obtain ⟨e, he, rfl⟩ := List.mem_map.mp hx
  exact forall_acceptCompletion (P := fun e => Q e.item) (fun e => hQ e.item)
    (fun e he => h _ (List.mem_map_of_mem he)) e he

theorem offer_of_refused {es : List (Entry α)}
    (h : ∀ e ∈ es, Scheduled.accept e.item a step now = (false, e.item)) :
    offer a step now es = (none, es) := by
  induction es with
  | nil => rfl
  | cons e es ih =>
    have he := h e List.mem_cons_self
    rw [offer, he, ih fun f hf => h f (List.mem_cons_of_mem e hf)]

/-- A report that no item waits for changes nothing. -/
theorem acceptCompletion_of_refused {q : Queue α}
    (h : ∀ x ∈ q.items, Scheduled.accept x a step now = (false, x)) :
    (q.acceptCompletion a step now).2 = q := by
  have hoffer : offer a step now q.timed = (none, q.timed) := offer_of_refused fun e he =>
    h e.item (List.mem_map_of_mem (List.mem_append_right _ he))
  rw [acceptCompletion, hoffer]

theorem map_offer {β : Type} (f : α → β) (hf : ∀ x, f (Scheduled.accept x a step now).2 = f x)
    (es : List (Entry α)) :
    (((offer a step now es).1.toList ++ (offer a step now es).2).map (f ·.item)).Perm
      (es.map (f ·.item)) := by
  induction es with
  | nil => exact .refl _
  | cons x es ih =>
    have hx := hf x.item
    unfold offer
    split
    · rename_i y hy
      rw [hy] at hx
      simp [hx]
    · rename_i y hy
      rw [hy] at hx
      dsimp only
      rw [List.map_append, List.map_cons]
      refine List.perm_middle.trans ?_
      rw [hx, ← List.map_append, List.map_cons]
      exact ih.cons _

/-- What a report does not change of any item is the same of the queue, except for the order. -/
theorem map_acceptCompletion {β : Type} (f : α → β)
    (hf : ∀ x, f (Scheduled.accept x a step now).2 = f x) (q : Queue α) :
    ((q.acceptCompletion a step now).2.items.map f).Perm (q.items.map f) := by
  have H := map_offer f hf q.timed
  unfold acceptCompletion
  split
  · rename_i e es he
    rw [he] at H
    simpa [items, Function.comp_def] using H.append_left _
  · rename_i es he
    rw [he] at H
    simpa [items, Function.comp_def] using H.append_left _

/-- What every report to one actuator preserves, a report to the whole group preserves. -/
theorem acceptSynced_induction {M : Queue α → Prop}
    (hM : ∀ q a, M q → M (q.acceptCompletion a none now).2) {q : Queue α} (h : M q) :
    M (q.acceptSynced now).2 := by
  unfold acceptSynced
  exact List.foldlRecOn (motive := fun (p : Nat × Queue α) => M p.2) _ _ h
    fun p hp a _ => hM p.2 a hp

end

/-! ## The queue of a vibration -/

theorem parts_extend (q : Queue (Step R)) (xs : List (Step R)) :
    (q.extend xs).parts.Perm (xs.map Step.part ++ q.parts) := by
  rw [parts, parts, ← List.map_append]
  exact (items_extend q xs).map Step.part

theorem parts_of_popDue {q q' : Queue (Step R)} {now : Nat} {x : Step R}
    (h : q.popDue now = some (x, q')) : q.parts = x.part :: q'.parts := by
  rw [parts, items_of_popDue h, List.map_cons, parts]

/-- A report leaves a step as it is, or the step waited for it and stops waiting. -/
theorem accept_cases (x : Step R) (a : ActuatorId) (step : Option Nat) (now : Nat) :
    Scheduled.accept x a step now = (false, x) ∨ ∃ l task i, x = .lane l task ∧
      l.deadline.awaiting? = some i ∧ l.actuator = a ∧ step.all (· == i) = true ∧
      Scheduled.accept x a step now =
        (l.deadline.isPending now, .lane { l with deadline := .idle, reported := true } task) := by
  cases x with
  | lane l task =>
    simp only [Scheduled.accept, Lane.accept]
    split
    · exact .inl rfl
    · rename_i i hi
      split
      · rename_i h
        exact .inr ⟨l, task, i, rfl, hi, h.1, h.2, rfl⟩
      · exact .inl rfl
  | _ => exact .inl rfl

section
variable (x : Step R) (a : ActuatorId) (step : Option Nat) (now : Nat)

theorem part_accept : (Scheduled.accept x a step now).2.part = x.part := by
  rcases accept_cases x a step now with h | ⟨l, task, i, rfl, -, -, -, h⟩ <;> rw [h]
  rfl

theorem start_accept :
    Scheduled.start (Scheduled.accept x a step now).2 = Scheduled.start x := by
  rcases accept_cases x a step now with h | ⟨l, task, i, rfl, -, -, -, h⟩ <;> rw [h]
  rfl

end

theorem part_ne_closing_of_accept {x y : Step R} {a : ActuatorId} {step : Option Nat} {now : Nat}
    (h : Scheduled.accept x a step now = (true, y)) : y.part ≠ .closing := by
  have hy : y.part = x.part := by rw [← part_accept x a step now, h]
  rw [hy]
  cases x with
  | finish => cases h
  | _ => exact Part.noConfusion

/-- Waiting entries are filed under the start of their step, and the closing step is never
released by a report. -/
structure Kept (q : Queue (Step R)) : Prop where
  timed : ∀ e ∈ q.timed, e.start = Scheduled.start e.item
  released : ∀ e ∈ q.released, e.item.part ≠ .closing

theorem Kept.of_items {q : Queue (Step R)} (h : q.items = []) : q.Kept := by
  obtain ⟨hr, ht⟩ : q.released = [] ∧ q.timed = [] := by simpa [items] using h
  exact ⟨by simp [ht], by simp [hr]⟩

theorem Kept.push {q : Queue (Step R)} (H : q.Kept) (x : Step R) : (q.push x).Kept where
  timed e he := by
    rcases List.mem_cons.mp ((place_perm _ _).mem_iff.mp he) with rfl | he
    · rfl
    · exact H.timed e he
  released := H.released

theorem Kept.extend {q : Queue (Step R)} (H : q.Kept) (xs : List (Step R)) :
    (q.extend xs).Kept := by
  induction xs generalizing q with
  | nil => exact H
  | cons x xs ih => exact ih (H.push x)

theorem Kept.popDue {q q' : Queue (Step R)} (H : q.Kept) {now : Nat} {x : Step R}
    (h : q.popDue now = some (x, q')) : q'.Kept := by
  unfold Queue.popDue at h
  split at h
  · rename_i ts e es hr
    cases h
    exact ⟨H.timed, fun f hf => H.released f (by rw [hr]; exact List.mem_cons_of_mem e hf)⟩
  · cases h
  · rename_i e es hr ht
    have hes : ∀ f ∈ es, f.start = Scheduled.start f.item := fun f hf =>
      H.timed f (by rw [ht]; exact List.mem_cons_of_mem e hf)
    split at h
    · cases h
    · split at h
      · cases h
        exact ⟨hes, H.released⟩
      · cases h

/-- The closing step comes out only when it is alone. -/
theorem Kept.popDue_closing {q q' : Queue (Step R)} (H : q.Kept) {now : Nat} {x : Step R}
    (h : q.popDue now = some (x, q')) (hx : x.part = .closing) : q'.items = [] := by
  unfold Queue.popDue at h
  split at h
  · rename_i ts e es hr
    cases h
    exact (H.released e (by rw [hr]; exact List.mem_cons_self) hx).elim
  · cases h
  · rename_i e es hr ht
    have he := H.timed e (by rw [ht]; exact List.mem_cons_self)
    split at h
    · cases h
    · rename_i hne
      split at h
      · cases h
        cases hi : e.item with
        | finish =>
          -- It is filed as the closing step, so it was taken because nothing else waits.
          rw [hi] at he
          have hes : es = [] := Classical.not_not.mp fun hes => hne ⟨he, hes⟩
          simp [items, hr, hes]
        | _ => rw [hi] at hx; cases hx
      · cases h

theorem Kept.acceptCompletion {q : Queue (Step R)} (H : q.Kept) (a : ActuatorId)
    (step : Option Nat) (now : Nat) : (q.acceptCompletion a step now).2.Kept := by
  have ht : ∀ es, (Queue.offer a step now q.timed).2 = es →
      ∀ e ∈ es, e.start = Scheduled.start e.item := by
    rintro es rfl
    exact (forall_offer (P := fun e => e.start = Scheduled.start e.item)
      (fun e he => he.trans (start_accept e.item a step now).symm) H.timed).2
  unfold Queue.acceptCompletion
  split
  · rename_i e es he
    refine ⟨ht es (by rw [he]), fun f hf => ?_⟩
    rcases List.mem_append.mp hf with hf | hf
    · exact H.released f hf
    · obtain ⟨x, -, hx⟩ := offer_found (e := e) (by rw [he])
      rw [List.mem_singleton.mp hf]
      exact part_ne_closing_of_accept hx
  · rename_i es he
    exact ⟨ht es (by rw [he]), H.released⟩

theorem Kept.acceptSynced {q : Queue (Step R)} (H : q.Kept) (now : Nat) :
    (q.acceptSynced now).2.Kept :=
  acceptSynced_induction (fun _ a h => h.acceptCompletion a none now) H

end Queue
end Haptics
