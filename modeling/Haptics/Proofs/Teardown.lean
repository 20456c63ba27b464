import Haptics.Proofs.Lane
import Haptics.Proofs.Queue

/-!
# Tearing steps down

Tearing a step down stops its actuator only if the step turns off anyway or still waits for a report
(`Step.stops`), and reports the end of the vibration if it is the closing step. Main statements:
`Stage.history_tearDown`, the deeds of a teardown are those of its steps in order, and
`Stage.isActive_tearDown`, an actuator stays active exactly if no step stops it.
-/

namespace Haptics

variable {R : Type}

def Task.isTurnOff : Task R → Bool
  | turnOff => true
  | _ => false

/-- Whether a step stops an actuator if it is torn down at an instant. -/
def Step.stops (now : Nat) (a : ActuatorId) : Step R → Bool
  | lane l task => decide (l.actuator = a) && (task.isTurnOff || l.deadline.isPending now)
  | start _ _ | finish => false

/-- What tearing a step down at an instant does. -/
def Step.undoing? (caller : Caller) (now : Nat) : Step R → Option (Deed R)
  | start _ _ => none
  | lane l task =>
    if task.isTurnOff || l.deadline.isPending now then some (.stop l.actuator) else none
  | finish => some (.tell (.off caller))

theorem Step.answer_of_undoing {caller : Caller} {now : Nat} {x : Step R} {d : Deed R}
    (h : x.undoing? caller now = some d) : d.answer? = none := by
  cases x with
  | start => cases h
  | lane l task =>
    simp only [undoing?] at h
    split at h <;> cases h
    rfl
  | finish =>
    cases h
    rfl

variable [Level R] (s : Stage R) (plan : Plan R)

theorem Lane.cancelNow_eq (l : Lane) (task : Task R) : l.cancelNow s task =
    if task.isTurnOff || l.deadline.isPending s.now then s.stop l else s := by
  cases task <;> rfl

namespace Stage

@[simp] theorem stop_now (l : Lane) : (s.stop l).now = s.now := (Does.stop l).now

@[simp] theorem cancelNow_now (x : Step R) : (s.cancelNow plan x).now = s.now := by
  cases x with
  | lane l task =>
    simp only [cancelNow, Lane.cancelNow_eq]
    split <;> simp
  | _ => rfl

theorem cancelNow_frame (x : Step R) : (s.cancelNow plan x).startResult = s.startResult ∧
    (s.cancelNow plan x).rig.group = s.rig.group := by
  cases x with
  | lane l task =>
    simp only [cancelNow, Lane.cancelNow_eq]
    split
    · exact ⟨(Does.stop l).startResult, (Does.stop l).group⟩
    · exact ⟨rfl, rfl⟩
  | _ => exact ⟨rfl, rfl⟩

theorem history_cancelNow (x : Step R) : (s.cancelNow plan x).history =
    s.history ++ (x.undoing? plan.caller s.now).toList := by
  cases x with
  | start => simp [cancelNow, Step.undoing?]
  | lane l task =>
    simp only [cancelNow, Lane.cancelNow_eq, Step.undoing?]
    split
    · exact (Does.stop l).history
    · simp
  | finish => simp [cancelNow, Step.undoing?, tell]

theorem isActive_cancelNow (x : Step R) (a : ActuatorId) :
    (s.cancelNow plan x).rig.isActive a = (s.rig.isActive a && !x.stops s.now a) := by
  cases x with
  | lane l task =>
    simp only [cancelNow, Lane.cancelNow_eq, Step.stops]
    split
    · rename_i h
      have hstop : (s.stop l).rig.isActive a = (s.rig.stop l.actuator).isActive a := rfl
      rw [hstop, Rig.isActive_stop, h, Bool.and_true]
      by_cases ha : l.actuator = a <;> simp [ha]
    · rename_i h
      simp [Bool.not_eq_true _ ▸ h]
  | _ => simp [cancelNow, Step.stops, tell, record]

/-! ## Several steps -/

variable (steps : List (Step R))

@[simp] theorem tearDown_now : (s.tearDown plan steps).now = s.now := by
  induction steps generalizing s with
  | nil => rfl
  | cons x xs ih => exact (ih _).trans (s.cancelNow_now plan x)

theorem tearDown_frame : (s.tearDown plan steps).startResult = s.startResult ∧
    (s.tearDown plan steps).rig.group = s.rig.group := by
  induction steps generalizing s with
  | nil => exact ⟨rfl, rfl⟩
  | cons x xs ih =>
    have h := s.cancelNow_frame plan x
    exact ⟨(ih _).1.trans h.1, (ih _).2.trans h.2⟩

theorem history_tearDown : (s.tearDown plan steps).history =
    s.history ++ steps.filterMap (Step.undoing? plan.caller s.now) := by
  induction steps generalizing s with
  | nil => exact (List.append_nil _).symm
  | cons x xs ih =>
    refine (ih (s.cancelNow plan x)).trans ?_
    rw [history_cancelNow, cancelNow_now, List.append_assoc, List.filterMap_cons]
    cases x.undoing? plan.caller s.now <;> rfl

/-- A teardown drives nothing. -/
theorem drives_tearDown : Deed.drives (s.tearDown plan steps).history = Deed.drives s.history := by
  have hnone : Deed.drives (steps.filterMap (Step.undoing? plan.caller s.now)) = [] := by
    refine List.filterMap_eq_nil_iff.mpr fun d hd => ?_
    obtain ⟨x, -, hx⟩ := List.mem_filterMap.mp hd
    exact Step.answer_of_undoing hx
  rw [history_tearDown, Deed.drives_append, hnone, List.append_nil]

/-- An actuator is active after a teardown exactly if it was before and no step stops it. -/
theorem isActive_tearDown (a : ActuatorId) : (s.tearDown plan steps).rig.isActive a =
    (s.rig.isActive a && !steps.any (Step.stops s.now a)) := by
  induction steps generalizing s with
  | nil => simp [tearDown]
  | cons x xs ih =>
    refine (ih (s.cancelNow plan x)).trans ?_
    rw [isActive_cancelNow, cancelNow_now, List.any_cons, Bool.not_or, Bool.and_assoc]

end Stage

/-! ## The record of a teardown -/

omit [Level R]

/-- A drive was undone by a teardown exactly if one of its steps stopped the actuator. -/
theorem Deed.leftOn_undoing (caller : Caller) (now : Nat) (a : ActuatorId) (h : List (Deed R))
    (steps : List (Step R)) :
    leftOn a (h ++ steps.filterMap (Step.undoing? caller now)) =
      (leftOn a h && !steps.any (Step.stops now a)) := by
  induction steps generalizing h with
  | nil => simp
  | cons x xs ih =>
    rw [List.filterMap_cons, List.any_cons, Bool.not_or, ← Bool.and_assoc]
    cases hx : x.undoing? caller now with
    | none =>
      have hs : x.stops now a = false := by
        cases x with
        | lane l task =>
          simp only [Step.undoing?, ite_eq_right_iff, reduceCtorEq, imp_false] at hx
          simp [Step.stops, Bool.not_eq_true _ ▸ hx]
        | _ => rfl
      rw [ih, hs, Bool.not_false, Bool.and_true]
    | some d =>
      dsimp only
      rw [List.append_cons, ih, leftOn_concat]
      cases x with
      | start => cases hx
      | lane l task =>
        simp only [Step.undoing?] at hx
        split at hx
        · rename_i ht
          cases hx
          by_cases ha : l.actuator = a <;> simp [turns?, Step.stops, ha, ht]
        · cases hx
      | finish =>
        cases hx
        simp [turns?, Step.stops]

theorem Deed.told_undoing (caller : Caller) (now : Nat) (steps : List (Step R)) :
    (steps.filterMap (Step.undoing? caller now)).filterMap Deed.told? =
      List.replicate ((steps.map Step.part).count .closing) (.off caller) := by
  rw [List.filterMap_filterMap]
  induction steps with
  | nil => rfl
  | cons x xs ih =>
    rw [List.filterMap_cons, List.map_cons, List.count_cons, ih]
    cases x with
    | start => rfl
    | lane l task =>
      have hl : (Step.undoing? caller now (.lane l task)).bind told? = none := by
        simp only [Step.undoing?]
        split <;> rfl
      rw [hl]
      rfl
    | finish => exact List.replicate_succ.symm

end Haptics
