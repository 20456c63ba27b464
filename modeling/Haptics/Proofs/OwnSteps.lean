import Haptics.Proofs.Bystanders
import Haptics.Proofs.Moves

/-!
# One actuator's steps in a queue

An actuator has at most one step in the queue of a vibration (`Queue.own`). Steps of others come and
go without touching it, and what reports and cancels do to it depends on nothing but itself.
-/

namespace Haptics

variable {R : Type}

/-! ## The order of the queue -/

namespace StartTime

theorem not_before_of_before {s t u : StartTime} (h : t.before s = true) (hu : u.before s = false) :
    u.before t = false := by
  cases s <;> cases t <;> cases u <;> simp_all [before]
  omega

/-- What starts no later than something that is due is due itself, but for the closing step. -/
theorem isDue_of_not_before {now : Nat} {s t : StartTime} (h : t.before s = false)
    (ht : t.isDue now = true) (hlane : t ≠ .afterPending) :
    s ≠ .afterPending ∧ s.isDue now = true := by
  cases s <;> cases t <;> simp_all [before, isDue]
  omega

end StartTime

def Entry.own? (a : ActuatorId) (e : Entry (Step R)) : Option (Lane × Task R) := e.item.own? a

namespace Queue

/-- The queue of a vibration that was opened: the steps that wait stand in the order in which they
start. -/
structure Underway (q : Queue (Step R)) : Prop where
  kept : q.Kept
  sorted : q.timed.Pairwise fun x y => y.start.before x.start = false
  opened : ∀ x ∈ q.items, x.part ≠ .opening

theorem pairwise_place {α : Type} (e : Entry α) {es : List (Entry α)}
    (h : es.Pairwise fun x y => y.start.before x.start = false) :
    (place e es).Pairwise fun x y => y.start.before x.start = false := by
  induction es with
  | nil => exact List.pairwise_singleton _ e
  | cons x es ih =>
    obtain ⟨hx, hes⟩ := List.pairwise_cons.mp h
    unfold place
    split
    · rename_i hbefore
      refine List.pairwise_cons.mpr ⟨fun y hy => ?_, h⟩
      rcases List.mem_cons.mp hy with rfl | hy
      · cases he : y.start.before e.start with
        | false => rfl
        | true =>
          revert hbefore he
          cases y.start <;> cases e.start <;> simp [StartTime.before]
          omega
      · exact StartTime.not_before_of_before hbefore (hx y hy)
    · rename_i hbefore
      refine List.pairwise_cons.mpr ⟨fun y hy => ?_, ih hes⟩
      rcases List.mem_cons.mp ((place_perm e es).mem_iff.mp hy) with rfl | hy
      · exact Bool.not_eq_true _ ▸ hbefore
      · exact hx y hy

/-- An offer takes no waiting step's start away but that of the step that is released. -/
theorem starts_offer {α : Type} [Scheduled α] (a : ActuatorId) (step : Option Nat) (now : Nat)
    (es : List (Entry α)) :
    ((offer a step now es).2.map (·.start)).Sublist (es.map (·.start)) := by
  induction es with
  | nil => exact .refl _
  | cons e es ih =>
    unfold offer
    split
    · exact List.sublist_cons_self ..
    · exact ih.cons_cons _

namespace Underway

variable {q q' : Queue (Step R)}

theorem of_items (h : q.items = []) : q.Underway where
  kept := .of_items h
  sorted := by
    rw [(List.append_eq_nil_iff.mp (List.map_eq_nil_iff.mp h)).2]
    exact .nil
  opened := by simp [h]

theorem push (U : q.Underway) {x : Step R} (h : x.part ≠ .opening) : (q.push x).Underway where
  kept := U.kept.push x
  sorted := pairwise_place _ U.sorted
  opened y hy := by
    rcases List.mem_cons.mp ((items_push q x).mem_iff.mp hy) with rfl | hy
    · exact h
    · exact U.opened y hy

theorem extend (U : q.Underway) {xs : List (Step R)} (h : ∀ x ∈ xs, x.part ≠ .opening) :
    (q.extend xs).Underway := by
  induction xs generalizing q with
  | nil => exact U
  | cons x xs ih =>
    exact ih (U.push (h x List.mem_cons_self)) fun y hy => h y (List.mem_cons_of_mem x hy)

theorem popDue (U : q.Underway) {now : Nat} {x : Step R} (h : q.popDue now = some (x, q')) :
    q'.Underway where
  kept := U.kept.popDue h
  sorted := by
    have hsorted := U.sorted
    unfold Queue.popDue at h
    split at h
    · cases h
      exact hsorted
    · cases h
    · rename_i ht
      rw [ht] at hsorted
      split at h
      · cases h
      · split at h
        · cases h
          exact (List.pairwise_cons.mp hsorted).2
        · cases h
  opened y hy := U.opened y (items_of_popDue h ▸ List.mem_cons_of_mem x hy)

theorem acceptCompletion (U : q.Underway) (a : ActuatorId) (step : Option Nat) (now : Nat) :
    (q.acceptCompletion a step now).2.Underway where
  kept := U.kept.acceptCompletion a step now
  sorted := by
    have hstarts := starts_offer a step now q.timed
    have hsorted : (q.timed.map (·.start)).Pairwise fun s t => t.before s = false :=
      List.pairwise_map.mpr U.sorted
    have hrest := List.pairwise_map.mp (hsorted.sublist hstarts)
    unfold Queue.acceptCompletion
    split
    · rename_i es he
      rw [he] at hrest
      exact hrest
    · rename_i es he
      rw [he] at hrest
      exact hrest
  opened := forall_items_acceptCompletion
    (fun x hx => by rw [part_accept]; exact hx) U.opened

end Underway

/-! ## The steps of an actuator -/

/-- The steps of an actuator in a queue, and whether they were released. -/
def own (q : Queue (Step R)) (a : ActuatorId) : List (Bool × Lane × Task R) :=
  (q.released.filterMap (Entry.own? a)).map (true, ·) ++
    (q.timed.filterMap (Entry.own? a)).map (false, ·)

section
variable {a b : ActuatorId} {q q' : Queue (Step R)} {now : Nat}

theorem own_map_snd : (q.own a).map (·.2) = q.items.filterMap (Step.own? a) := by
  simp only [own, items, List.map_append, List.map_map, List.filterMap_append, List.filterMap_map]
  exact congrArg₂ (· ++ ·) (List.map_id _) (List.map_id _)

theorem own_of_items (h : q.items = []) : q.own a = [] := by
  have hmap := own_map_snd (q := q) (a := a)
  rw [h] at hmap
  exact List.map_eq_nil_iff.mp hmap

/-! ### Adding and taking out -/

theorem own_place {e : Entry (Step R)} {es : List (Entry (Step R))}
    (h : e.own? a = none ∨ es.filterMap (Entry.own? a) = []) :
    (place e es).filterMap (Entry.own? a) =
      (e.own? a).toList ++ es.filterMap (Entry.own? a) := by
  induction es with
  | nil => cases he : e.own? a <;> simp [place, he]
  | cons x es ih =>
    unfold place
    split
    · cases he : e.own? a <;> simp [he]
    · rcases h with h | h
      · simp [List.filterMap_cons, ih (.inl h), h]
      · obtain ⟨hx, hes⟩ : x.own? a = none ∧ es.filterMap (Entry.own? a) = [] := by
          cases hx : x.own? a with
          | none => exact ⟨rfl, by rwa [List.filterMap_cons_none hx] at h⟩
          | some y =>
            rw [List.filterMap_cons_some hx] at h
            cases h
        rw [List.filterMap_cons_none hx, List.filterMap_cons_none hx, ih (.inr hes)]

theorem own_push_aside {x : Step R} (h : x.own? a = none) : (q.push x).own a = q.own a := by
  have he : Entry.own? a ⟨q.nextSeq, Scheduled.start x, x⟩ = none := h
  unfold own push
  dsimp only
  rw [own_place (.inl he), he]
  rfl

theorem own_extend_aside {xs : List (Step R)} (h : xs.filterMap (Step.own? a) = []) :
    (q.extend xs).own a = q.own a := by
  induction xs generalizing q with
  | nil => rfl
  | cons x xs ih =>
    cases hx : x.own? a with
    | none =>
      rw [List.filterMap_cons_none hx] at h
      exact (ih h).trans (own_push_aside hx)
    | some y =>
      rw [List.filterMap_cons_some hx] at h
      cases h

/-- If no step of the actuator is in the queue, the only one that comes is the only one there is. -/
theorem own_extend (h : q.own a = []) {xs : List (Step R)}
    (one : (xs.filterMap (Step.own? a)).length ≤ 1) :
    (q.extend xs).own a = (xs.filterMap (Step.own? a)).map (false, ·) := by
  induction xs generalizing q with
  | nil => exact h
  | cons x xs ih =>
    cases hx : x.own? a with
    | none =>
      rw [List.filterMap_cons_none hx] at one ⊢
      exact ih ((own_push_aside hx).trans h) one
    | some y =>
      rw [List.filterMap_cons_some hx] at one ⊢
      have hrest : xs.filterMap (Step.own? a) = [] :=
        List.eq_nil_of_length_eq_zero (Nat.le_zero.mp (Nat.le_of_succ_le_succ one))
      obtain ⟨hreleased, htimed⟩ := List.append_eq_nil_iff.mp h
      rw [List.map_eq_nil_iff] at hreleased htimed
      have he : Entry.own? a ⟨q.nextSeq, Scheduled.start x, x⟩ = some y := hx
      refine (own_extend_aside hrest).trans ?_
      unfold own push
      dsimp only
      rw [own_place (.inr htimed), hreleased, htimed, hrest, he]
      rfl

/-- What is taken out was released or is due. -/
inductive Pops (q : Queue (Step R)) (now : Nat) : Entry (Step R) → Queue (Step R) → Prop
  | released {e es} (h : q.released = e :: es) : Pops q now e { q with released := es }
  | timed {e es} (h : q.released = []) (ht : q.timed = e :: es) (due : e.start.isDue now = true) :
    Pops q now e { q with timed := es }

theorem pops_of_popDue {x : Step R} (h : q.popDue now = some (x, q')) :
    ∃ e, e.item = x ∧ q.Pops now e q' := by
  unfold popDue at h
  split at h
  · rename_i hr
    cases h
    exact ⟨_, rfl, .released hr⟩
  · cases h
  · rename_i hr ht
    split at h
    · cases h
    · split at h
      · rename_i hdue
        cases h
        exact ⟨_, rfl, .timed hr ht hdue⟩
      · cases h

/-- Taking a step of something else out leaves the actuator's steps. -/
theorem own_popDue_aside {x : Step R} (h : q.popDue now = some (x, q')) (hx : x.own? a = none) :
    q'.own a = q.own a := by
  obtain ⟨e, rfl, hpop⟩ := pops_of_popDue h
  have he : e.own? a = none := hx
  unfold own
  cases hpop with
  | released hr => rw [hr, List.filterMap_cons_none he]
  | timed _ ht => rw [ht, List.filterMap_cons_none he]

/-- A step of the actuator that is taken out is due. -/
theorem own_popDue (K : q.Kept) {l : Lane} {task : Task R}
    (h : q.popDue now = some (.lane l task, q')) (ha : l.actuator = a) : ∃ released,
      q.own a = (released, l, task) :: q'.own a ∧ (released || l.start.isDue now) = true := by
  obtain ⟨e, hitem, hpop⟩ := pops_of_popDue h
  have he : e.own? a = some (l, task) := Step.own_eq_some.mpr ⟨hitem, ha⟩
  unfold own
  cases hpop with
  | released hr => exact ⟨true, by rw [hr, List.filterMap_cons_some he]; rfl, rfl⟩
  | timed hr ht hdue =>
    have hstart := K.timed e (by rw [ht]; exact List.mem_cons_self)
    rw [hstart, hitem] at hdue
    exact ⟨false, by rw [hr, ht, List.filterMap_cons_some he]; rfl, hdue⟩

/-- If nothing can be taken out, no step of the actuator is due. -/
theorem Underway.not_due (U : q.Underway) (h : q.popDue now = none) {x : Bool × Lane × Task R}
    (hx : x ∈ q.own a) (hlane : x.2.1.start ≠ .afterPending) :
    (x.1 || x.2.1.start.isDue now) = false := by
  have htimed := U.kept.timed
  have hsorted := U.sorted
  unfold Queue.popDue at h
  unfold own at hx
  split at h
  · cases h
  · rename_i hr ht
    rw [hr, ht] at hx
    cases hx
  · rename_i e es hr ht
    rw [hr, ht] at hx
    rw [ht] at htimed hsorted
    obtain ⟨y, hy, rfl⟩ := List.mem_map.mp hx
    obtain ⟨f, hf, hown⟩ := List.mem_filterMap.mp hy
    have hstart : f.start = y.1.start := by
      rw [htimed f hf, (Step.own_eq_some.mp hown).1]
      rfl
    cases hdue : y.1.start.isDue now with
    | false => rfl
    | true =>
      -- What stands first would be due, too.
      rw [← hstart] at hdue hlane
      have hbefore : f.start.before e.start = false := by
        rcases List.mem_cons.mp hf with rfl | hf
        · cases f.start <;> simp [StartTime.before]
        · exact (List.pairwise_cons.mp hsorted).1 f hf
      obtain ⟨hne, hfirst⟩ := StartTime.isDue_of_not_before hbefore hdue hlane
      rw [if_neg fun h => hne h.1, if_pos hfirst] at h
      cases h

/-! ### Reports -/

variable (now)

theorem own_accept_aside (x : Step R) (step : Option Nat) (h : b ≠ a) :
    (Scheduled.accept x b step now).2.own? a = x.own? a ∧
      ((Scheduled.accept x b step now).1 = true → x.own? a = none) := by
  rcases accept_cases x b step now with hacc | ⟨l, task, i, rfl, -, rfl, -, hacc⟩
  · rw [hacc]
    exact ⟨rfl, nofun⟩
  · have hown : ∀ l' : Lane, l'.actuator = l.actuator → (Step.lane l' task).own? a = none :=
      fun l' hl' => if_neg (hl' ▸ h)
    rw [hacc]
    exact ⟨(hown { l with deadline := .idle, reported := true } rfl).trans (hown l rfl).symm,
      fun _ => hown l rfl⟩

theorem offer_aside (step : Option Nat) (h : b ≠ a) (es : List (Entry (Step R))) :
    (offer b step now es).1.toList.filterMap (Entry.own? a) = [] ∧
      (offer b step now es).2.filterMap (Entry.own? a) = es.filterMap (Entry.own? a) := by
  induction es with
  | nil => exact ⟨rfl, rfl⟩
  | cons e es ih =>
    obtain ⟨hitem, hfound⟩ := own_accept_aside now e.item step h
    unfold offer
    split
    · rename_i x hx
      rw [hx] at hitem hfound
      have he : e.own? a = none := hfound rfl
      have hx : Entry.own? a { e with item := x } = none := hitem.trans he
      simp [hx, he]
    · rename_i x hx
      rw [hx] at hitem
      have hx : Entry.own? a { e with item := x } = e.own? a := hitem
      exact ⟨ih.1, by simp [List.filterMap_cons, hx, ih.2]⟩

theorem own_acceptCompletion (step : Option Nat) : (q.acceptCompletion b step now).2.own a =
    (q.released.filterMap (Entry.own? a) ++
      (offer b step now q.timed).1.toList.filterMap (Entry.own? a)).map (true, ·) ++
    ((offer b step now q.timed).2.filterMap (Entry.own? a)).map (false, ·) := by
  unfold acceptCompletion own
  split
  · rename_i he
    rw [he, List.filterMap_append]
    rfl
  · rename_i he
    rw [he]
    exact congrArg (List.map _ · ++ _) (List.append_nil _).symm

theorem own_acceptCompletion_aside (step : Option Nat) (h : b ≠ a) :
    (q.acceptCompletion b step now).2.own a = q.own a := by
  obtain ⟨hfound, hrest⟩ := offer_aside now step h q.timed
  rw [own_acceptCompletion, hfound, hrest, List.append_nil]
  rfl

/-- A report for the actuator passes steps of others. -/
theorem accept_of_other {x : Step R} (step : Option Nat) (h : x.own? a = none) :
    Scheduled.accept x a step now = (false, x) := by
  rcases accept_cases x a step now with hacc | ⟨l, task, i, rfl, -, ha, -⟩
  · exact hacc
  · rw [Step.own_lane ha] at h
    cases h

theorem offer_none (step : Option Nat) {es : List (Entry (Step R))}
    (h : es.filterMap (Entry.own? a) = []) : offer a step now es = (none, es) :=
  offer_of_refused fun e he => accept_of_other now step (List.filterMap_eq_nil_iff.mp h e he)

/-- What a report for the actuator makes of its only waiting step. -/
theorem offer_own (step : Option Nat) {es : List (Entry (Step R))} {l : Lane} {task : Task R}
    (h : es.filterMap (Entry.own? a) = [(l, task)]) :
    (offer a step now es).1.toList.filterMap (Entry.own? a) =
        (if (l.accept a step now).1 then [((l.accept a step now).2, task)] else []) ∧
      (offer a step now es).2.filterMap (Entry.own? a) =
        if (l.accept a step now).1 then [] else [((l.accept a step now).2, task)] := by
  induction es with
  | nil => cases h
  | cons e es ih =>
    cases he : e.own? a with
    | none =>
      rw [List.filterMap_cons_none he] at h
      have hacc := accept_of_other now step he
      unfold offer
      rw [hacc]
      exact ⟨(ih h).1, (List.filterMap_cons_none he).trans (ih h).2⟩
    | some y =>
      rw [List.filterMap_cons_some he] at h
      injection h with hy hes
      subst hy
      obtain ⟨hitem, ha⟩ := Step.own_eq_some.mp he
      have hacc : Scheduled.accept e.item a step now =
          ((l.accept a step now).1, .lane (l.accept a step now).2 task) := by
        rw [hitem]
        rfl
      have hown : ∀ e' : Entry (Step R), e'.item = .lane (l.accept a step now).2 task →
          e'.own? a = some ((l.accept a step now).2, task) := by
        intro e' he'
        refine Step.own_eq_some.mpr ⟨he', ?_⟩
        unfold Lane.accept
        split
        · exact ha
        · split <;> exact ha
      unfold offer
      rw [hacc]
      cases hok : (l.accept a step now).1 with
      | true => exact ⟨List.filterMap_cons_some (hown _ rfl), hes⟩
      | false =>
        dsimp only
        rw [offer_none now step hes]
        exact ⟨rfl, (List.filterMap_cons_some (hown _ rfl)).trans (by rw [hes]; rfl)⟩

/-- What a report for the actuator does to its step. -/
theorem own_acceptCompletion_own (step : Option Nat) (one : (q.own a).length ≤ 1) :
    (q.acceptCompletion a step now).2.own a = (q.own a).map fun (released, l, task) =>
      if released then (true, l, task)
      else ((l.accept a step now).1, (l.accept a step now).2, task) := by
  rw [own_acceptCompletion]
  unfold own at one ⊢
  cases ht : q.timed.filterMap (Entry.own? a) with
  | nil =>
    rw [offer_none now step ht, ht]
    simp
  | cons x xs =>
    obtain ⟨l, task⟩ := x
    rw [ht, List.length_append, List.length_map, List.map_cons, List.length_cons] at one
    obtain rfl : xs = [] := List.eq_nil_of_length_eq_zero (by rw [List.length_map] at one; omega)
    have hr : q.released.filterMap (Entry.own? a) = [] :=
      List.eq_nil_of_length_eq_zero (by omega)
    obtain ⟨hfound, hrest⟩ := offer_own now step ht
    rw [hfound, hrest, hr]
    cases hok : (l.accept a step now).1 <;> simp [hok]

/-! ### Cancels -/

/-- A graceful cancel leaves the remnant of the actuator's step, under a new number. -/
theorem own_remnants (k : Nat) {xs : List (Step R)}
    (one : (xs.filterMap (Step.own? a)).length ≤ 1) : ∃ i, k ≤ i ∧
      (xs.filterMap (Step.own? a) ≠ [] → i < k + (xs.filterMap Scheduled.actuator?).length) ∧
      (Step.remnants now k xs).filterMap (Step.own? a) =
        (xs.filterMap (Step.own? a)).map fun (l, task) =>
          ({ id := i, start := .at now, actuator := l.actuator, deadline := l.deadline },
            task.remnant) := by
  induction xs generalizing k with
  | nil => exact ⟨k, Nat.le_refl k, fun h => absurd rfl h, rfl⟩
  | cons x xs ih =>
    cases x with
    | start | finish => exact ih k one
    | lane l task =>
      have hcount : ((Step.lane l task :: xs).filterMap Scheduled.actuator?).length =
          (xs.filterMap Scheduled.actuator?).length + 1 := rfl
      let l' : Lane := { id := k, start := .at now, actuator := l.actuator, deadline := l.deadline }
      have hremnants : Step.remnants now k (.lane l task :: xs) =
          .lane l' task.remnant :: Step.remnants now (k + 1) xs := rfl
      rw [hcount, hremnants]
      by_cases ha : l.actuator = a
      · rw [List.filterMap_cons_some (Step.own_lane ha task)] at one ⊢
        have hnil : xs.filterMap (Step.own? a) = [] :=
          List.eq_nil_of_length_eq_zero (Nat.le_zero.mp (Nat.le_of_succ_le_succ one))
        obtain ⟨i, -, -, hrest⟩ := ih (k + 1) (hnil ▸ Nat.zero_le 1)
        rw [List.filterMap_cons_some (Step.own_lane (l := l') ha task.remnant), hrest, hnil]
        exact ⟨k, Nat.le_refl k, fun _ => by omega, rfl⟩
      · rw [List.filterMap_cons_none (Step.own_lane_of_ne ha task)] at one ⊢
        rw [List.filterMap_cons_none (Step.own_lane_of_ne (l := l') ha task.remnant)]
        obtain ⟨i, hle, hlt, hrest⟩ := ih (k + 1) one
        exact ⟨i, by omega, fun h => by have := hlt h; omega, hrest⟩

end
end Queue

/-- What a graceful cancel leaves of an actuator's step in a run. -/
theorem Run.own_graceful [Level R] (r : Run R) {a : ActuatorId}
    (h : r.cancelled ≠ some .immediate) (one : (r.queue.own a).length ≤ 1) :
    ∃ i, r.stage.nextStep ≤ i ∧
      (r.queue.own a ≠ [] → i < (r.cancel .graceful).stage.nextStep) ∧
      (r.cancel .graceful).queue.own a = (r.queue.own a).map fun (_, l, task) => (false,
        { id := i, start := .at r.now, actuator := l.actuator, deadline := l.deadline },
        task.remnant) := by
  have hown : r.queue.items.filterMap (Step.own? a) = (r.queue.own a).map (·.2) :=
    Queue.own_map_snd.symm
  have hone : (r.queue.items.filterMap (Step.own? a)).length ≤ 1 := by
    rwa [hown, List.length_map]
  have hempty : r.queue.drainInOrder.2.items = [] := rfl
  obtain ⟨i, hle, hlt, hremnants⟩ := Queue.own_remnants r.now r.stage.nextStep hone
  have hextend : (r.queue.drainInOrder.2.extend
      (Step.remnants r.now r.stage.nextStep r.queue.items)).own a = _ :=
    Queue.own_extend (Queue.own_of_items hempty) (by rwa [hremnants, List.length_map])
  rw [hremnants, hown, List.map_map, List.map_map] at hextend
  rw [r.cancel_graceful_eq h]
  refine ⟨i, hle, fun hne => hlt ?_, hextend⟩
  rw [hown]
  exact mt List.map_eq_nil_iff.mp hne

end Haptics
