import Mathlib.Data.List.Forall2
import Mathlib.Data.List.Nodup
import Mathlib.Data.List.Perm.Subperm

/-!
# Lists and options

Facts about lists and options in general that the library does not have.
-/

namespace Option.Rel

variable {α β : Type} {P Q : α → β → Prop} {x : Option α} {y : Option β}

theorem imp (h : ∀ a b, P a b → Q a b) (H : Rel P x y) : Rel Q x y := by
  cases H with
  | none => exact .none
  | some hab => exact .some (h _ _ hab)

theorem isSome_eq (H : Rel P x y) : y.isSome = x.isSome := by
  cases H <;> rfl

theorem toList (H : Rel P x y) : List.Forall₂ P x.toList y.toList := by
  cases H with
  | none => exact .nil
  | some hab => exact .cons hab .nil

end Option.Rel

namespace List

variable {α β : Type}

theorem Forall₂.getElem? {P : α → β → Prop} {xs : List α} {ys : List β} (H : Forall₂ P xs ys)
    (k : Nat) : Option.Rel P xs[k]? ys[k]? := by
  induction H generalizing k with
  | nil => exact .none
  | cons hxy _ ih =>
    cases k with
    | zero => exact .some hxy
    | succ k => exact ih k

theorem Forall₂.eraseIdx {P : α → β → Prop} {xs : List α} {ys : List β} (H : Forall₂ P xs ys)
    (k : Nat) : Forall₂ P (xs.eraseIdx k) (ys.eraseIdx k) := by
  induction H generalizing k with
  | nil => exact .nil
  | cons hxy hrest ih =>
    cases k with
    | zero => exact hrest
    | succ k => exact .cons hxy (ih k)

theorem Subperm.filterMap (f : α → Option β) {xs ys : List α} (H : xs.Subperm ys) :
    (xs.filterMap f).Subperm (ys.filterMap f) := by
  obtain ⟨zs, hperm, hsub⟩ := H
  exact ⟨zs.filterMap f, hperm.filterMap f, hsub.filterMap f⟩

theorem filter_eraseP (p : α → Bool) (xs : List α) :
    (xs.eraseP p).filter p = (xs.filter p).tail := by
  induction xs with
  | nil => rfl
  | cons x xs ih =>
    by_cases hx : p x = true
    · rw [eraseP_cons_of_pos hx, filter_cons_of_pos hx]
      rfl
    · rw [eraseP_cons_of_neg hx, filter_cons_of_neg hx, filter_cons_of_neg hx]
      exact ih

theorem nodup_eraseDups [DecidableEq α] (xs : List α) : xs.eraseDups.Nodup := by
  cases xs with
  | nil => exact .nil
  | cons x xs =>
    rw [eraseDups_cons]
    refine nodup_cons.mpr ⟨fun hx => ?_, nodup_eraseDups _⟩
    simpa using (mem_filter.mp (mem_eraseDups.mp hx)).2
termination_by xs.length
decreasing_by exact Nat.lt_succ_of_le (length_filter_le _ _)

/-- What goes well for each element goes well for the list. -/
theorem mapM_eq_some {f : α → Option β} {g : α → β} {xs : List α}
    (h : ∀ x ∈ xs, f x = some (g x)) : xs.mapM f = some (xs.map g) := by
  induction xs with
  | nil => rfl
  | cons x xs ih =>
    obtain ⟨hx, hxs⟩ := forall_mem_cons.mp h
    rw [mapM_cons, hx, ih hxs]
    rfl

end List
