import Haptics.Conductor.Stage

/-!
# Deeds

What a record says about the actuators: which drives were made and what they answered
(`Deed.drives`), and which actuators were driven with success and not stopped since
(`Deed.leftOn`). `Stage.Does` says that some deeds were done on one actuator and nothing else
happened on the stage; every operation of a lane is of this form.
-/

namespace Haptics

variable {R : Type}

namespace Deed

/-- The actuator that a deed is about, if it is about one. -/
def actuator? : Deed R → Option ActuatorId
  | drive a .. | stop a | setAmplitude a .. => some a
  | prepare .. | trigger _ | cancelSync _ | tell _ => none

/-- The actuator and the answer of a drive. -/
def answer? : Deed R → Option (ActuatorId × Int)
  | drive a _ _ n => some (a, n)
  | _ => none

/-- Whether an actuator is on after a deed, if the deed decides that. -/
def turns? (a : ActuatorId) : Deed R → Option Bool
  | drive b _ _ n => if b = a ∧ 0 < n then some true else none
  | stop b => if b = a then some false else none
  | _ => none

/-- The drives in a record, each with its answer. -/
def drives (h : List (Deed R)) : List (ActuatorId × Int) := h.filterMap answer?

/-- Whether the last successful drive of an actuator was not followed by a stop. -/
def leftOn (a : ActuatorId) (h : List (Deed R)) : Bool :=
  h.foldl (fun on d => (d.turns? a).getD on) false

@[simp] theorem drives_nil : drives ([] : List (Deed R)) = [] := rfl

@[simp] theorem drives_append (h k : List (Deed R)) : drives (h ++ k) = drives h ++ drives k :=
  List.filterMap_append

@[simp] theorem drives_drive (a : ActuatorId) (i : Nat) (x : Drive R) (n : Int) :
    drives [drive a i x n] = [(a, n)] := rfl

@[simp] theorem drives_stop (a : ActuatorId) : drives [(stop a : Deed R)] = [] := rfl

@[simp] theorem drives_setAmplitude (a : ActuatorId) (x : R) (ok : Bool) :
    drives [setAmplitude a x ok] = [] := rfl

@[simp] theorem leftOn_nil (a : ActuatorId) : leftOn a ([] : List (Deed R)) = false := rfl

@[simp] theorem leftOn_concat (a : ActuatorId) (h : List (Deed R)) (d : Deed R) :
    leftOn a (h ++ [d]) = (d.turns? a).getD (leftOn a h) := by
  simp [leftOn]

/-- What some deeds of another actuator do to an actuator is nothing. -/
theorem leftOn_append_of_ne {a b : ActuatorId} (hne : b ≠ a) {h ds : List (Deed R)}
    (own : ∀ d ∈ ds, d.actuator? = some b) : leftOn a (h ++ ds) = leftOn a h := by
  induction ds generalizing h with
  | nil => simp
  | cons d ds ih =>
    rw [List.append_cons, ih fun e he => own e (List.mem_cons_of_mem d he), leftOn_concat]
    have hd := own d List.mem_cons_self
    cases d <;> simp_all [turns?, actuator?]

/-- Only a successful drive leaves an actuator on that was not. -/
theorem leftOn_append {a : ActuatorId} {h ds : List (Deed R)} (on : leftOn a (h ++ ds) = true) :
    leftOn a h = true ∨ ∃ n, 0 < n ∧ (a, n) ∈ drives ds := by
  induction ds generalizing h with
  | nil => exact .inl (by simpa using on)
  | cons d ds ih =>
    rw [List.append_cons] at on
    rcases ih on with on | ⟨n, hn, hm⟩
    · rw [leftOn_concat] at on
      cases d with
      | drive b i x n =>
        by_cases hb : b = a ∧ 0 < n
        · exact .inr ⟨n, hb.2, by simp [drives, answer?, hb.1]⟩
        · exact .inl (by simpa [turns?, hb] using on)
      | stop b =>
        by_cases hb : b = a
        · simp [turns?, hb] at on
        · exact .inl (by simpa [turns?, hb] using on)
      | _ => exact .inl on
    · exact .inr ⟨n, hn, by
        rw [← List.singleton_append, drives_append]; exact List.mem_append_right _ hm⟩

end Deed

namespace Stage

@[simp] theorem history_record (s : Stage R) (d : Deed R) :
    (s.record d).history = s.history ++ [d] := by
  simp [record, history]

theorem telemetry_of_history {s s' : Stage R} {ds : List (Deed R)}
    (h : s'.history = s.history ++ ds) :
    s'.telemetry = s.telemetry ++ ds.filterMap Deed.told? := by
  rw [telemetry, h, List.filterMap_append, telemetry]

end Stage
end Haptics
