import Haptics.Hardware.Rig

/-!
# Completions on their way

Timers are kept in the order in which they arrive, and as time passes exactly those that are due are
delivered, in that order (`Rig.advanceTo_eq`).
-/

namespace Haptics

variable {R : Type}

namespace Rig

/-- The completions on their way stand in the order in which they arrive. -/
def Timely (r : Rig R) : Prop := r.timers.Pairwise (·.due ≤ ·.due)

/-! ## Arming -/

theorem mem_arm {t x : Timer} {xs : List Timer} : x ∈ arm t xs ↔ x = t ∨ x ∈ xs := by
  induction xs with
  | nil => simp [arm]
  | cons y ys ih =>
    unfold arm
    split
    · simp
    · simp only [List.mem_cons, ih]
      exact or_left_comm

theorem pairwise_arm (t : Timer) {xs : List Timer} (h : xs.Pairwise (·.due ≤ ·.due)) :
    (arm t xs).Pairwise (·.due ≤ ·.due) := by
  induction xs with
  | nil => exact List.pairwise_singleton _ t
  | cons x xs ih =>
    obtain ⟨hx, hxs⟩ := List.pairwise_cons.mp h
    unfold arm
    split
    · rename_i ht
      refine List.pairwise_cons.mpr ⟨fun y hy => ?_, h⟩
      rcases List.mem_cons.mp hy with rfl | hy
      · exact Nat.le_of_lt ht
      · exact Nat.le_trans (Nat.le_of_lt ht) (hx y hy)
    · rename_i ht
      refine List.pairwise_cons.mpr ⟨fun y hy => ?_, ih hxs⟩
      rcases mem_arm.mp hy with rfl | hy
      · exact Nat.not_lt.mp ht
      · exact hx y hy

/-- A new timer takes the same place among some of the timers as among all of them. -/
theorem filter_arm (p : Timer → Bool) (t : Timer) {xs : List Timer}
    (h : xs.Pairwise (·.due ≤ ·.due)) :
    (arm t xs).filter p = if p t then arm t (xs.filter p) else xs.filter p := by
  induction xs with
  | nil => cases hp : p t <;> simp [arm, hp]
  | cons x xs ih =>
    obtain ⟨hx, hxs⟩ := List.pairwise_cons.mp h
    have hearly : t.due < x.due → arm t (xs.filter p) = t :: xs.filter p := by
      intro ht
      cases hf : xs.filter p with
      | nil => rfl
      | cons y ys =>
        have hy : y ∈ xs := (List.mem_filter.mp (hf ▸ List.mem_cons_self : y ∈ xs.filter p)).1
        exact if_pos (Nat.lt_of_lt_of_le ht (hx y hy))
    have hcons : ∀ ys, arm t (x :: ys) = if t.due < x.due then t :: x :: ys else x :: arm t ys :=
      fun _ => rfl
    by_cases ht : t.due < x.due
    · cases hp : p t <;> cases hpx : p x <;> simp [hcons, ht, hp, hpx, hearly ht]
    · cases hp : p t <;> cases hpx : p x <;> simp [hcons, ht, hp, hpx, ih hxs]

/-- Of completions in order, those that arrive first are those that are due. -/
theorem split_due (t : Nat) {xs : List Timer} (h : xs.Pairwise (·.due ≤ ·.due)) :
    xs.takeWhile (·.due ≤ t) = xs.filter (·.due ≤ t) ∧
      xs.dropWhile (·.due ≤ t) = xs.filter (t < ·.due) := by
  induction xs with
  | nil => exact ⟨rfl, rfl⟩
  | cons x xs ih =>
    obtain ⟨hx, hxs⟩ := List.pairwise_cons.mp h
    obtain ⟨htake, hdrop⟩ := ih hxs
    by_cases hdue : x.due ≤ t
    · simp [hdue, htake, hdrop]
    · have hlate : ∀ y ∈ xs, t < y.due := by
        intro y hy
        have := hx y hy
        omega
      refine ⟨?_, ?_⟩
      · rw [List.takeWhile_cons_of_neg (by simpa using hdue), eq_comm, List.filter_eq_nil_iff]
        simpa using ⟨Nat.not_le.mp hdue, hlate⟩
      · rw [List.dropWhile_cons_of_neg (by simpa using hdue), eq_comm, List.filter_eq_self]
        simpa using ⟨Nat.not_le.mp hdue, hlate⟩

section
variable {r : Rig R}

theorem Timely.note (h : r.Timely) (x : Signal R) : (r.note x).Timely := by
  cases x with
  | arm delay report => exact pairwise_arm _ h
  | _ => exact h

theorem Timely.noteAll (h : r.Timely) (xs : List (Signal R)) : (r.noteAll xs).Timely := by
  induction xs generalizing r with
  | nil => exact h
  | cons x xs ih => exact ih (h.note x)

theorem noteAll_timers {xs : List (Signal R)} (h : ∀ x ∈ xs, ∀ delay y, x ≠ .arm delay y) :
    (r.noteAll xs).timers = r.timers := by
  induction xs generalizing r with
  | nil => rfl
  | cons x xs ih =>
    refine (ih (r := r.note x) fun y hy => h y (List.mem_cons_of_mem x hy)).trans ?_
    cases x with
    | arm delay y => exact absurd rfl (h _ List.mem_cons_self delay y)
    | _ => rfl

/-- Turning an actuator off arms nothing. -/
theorem stop_timers [Level R] (a : ActuatorId) : (r.stop a).timers = r.timers := by
  unfold stop onDevice
  split
  · rfl
  · rename_i d hd
    refine noteAll_timers fun x hx delay y => ?_
    rcases List.mem_append.mp hx with hx | hx
    · split at hx
      · cases hx
      · rw [List.mem_singleton.mp hx]
        nofun
    · obtain ⟨f, -, rfl⟩ := List.mem_map.mp hx
      nofun

end

/-! ## The passing of time -/

section
variable (r : Rig R)

@[simp] theorem deliver_timers (x : Report) : (r.deliver x).timers = r.timers := by
  cases x <;> rfl

@[simp] theorem deliver_devices (x : Report) : (r.deliver x).devices = r.devices := by
  cases x <;> rfl

theorem deliver_moveTo (x : Report) (t : Nat) :
    (r.moveTo t).deliver x = (r.deliver x).moveTo t := by
  cases x <;> rfl

/-- The same with other completions on their way. -/
def withTimers (ts : List Timer) : Rig R := { r with timers := ts }

theorem deliver_withTimers (x : Report) (ts : List Timer) :
    (r.withTimers ts).deliver x = (r.deliver x).withTimers ts := by
  cases x <;> rfl

/-- Delivers some completions, one after the other. -/
def deliverAll (ts : List Timer) : Rig R := ts.foldl (fun r t => r.deliver t.report) r

variable {r}

@[simp] theorem deliverAll_timers (ts : List Timer) : (r.deliverAll ts).timers = r.timers := by
  induction ts generalizing r with
  | nil => rfl
  | cons x ts ih => exact ih.trans (deliver_timers r x.report)

@[simp] theorem deliverAll_devices (ts : List Timer) :
    (r.deliverAll ts).devices = r.devices := by
  induction ts generalizing r with
  | nil => rfl
  | cons x ts ih => exact ih.trans (deliver_devices r x.report)

theorem deliverAll_moveTo (ts : List Timer) (t : Nat) :
    (r.moveTo t).deliverAll ts = (r.deliverAll ts).moveTo t := by
  induction ts generalizing r with
  | nil => rfl
  | cons x ts ih =>
    calc (r.moveTo t).deliverAll (x :: ts) = ((r.moveTo t).deliver x.report).deliverAll ts := rfl
      _ = ((r.deliver x.report).moveTo t).deliverAll ts := by rw [deliver_moveTo]
      _ = (r.deliverAll (x :: ts)).moveTo t := ih

/-- As time passes, everything that is due by then is delivered and nothing else happens. -/
theorem advanceTo_eq (r : Rig R) (t : Nat) : r.advanceTo t =
    ((r.withTimers (r.timers.dropWhile (·.due ≤ t))).deliverAll
      (r.timers.takeWhile (·.due ≤ t))).moveTo t := by
  suffices h : ∀ (xs : List Timer) (r : Rig R), r.timers = xs →
      (r.passTimers t xs.length).moveTo t =
        ((r.withTimers (xs.dropWhile (·.due ≤ t))).deliverAll
          (xs.takeWhile (·.due ≤ t))).moveTo t from h r.timers r rfl
  intro xs
  induction xs with
  | nil =>
    rintro ⟨⟩ rfl
    rfl
  | cons x xs ih =>
    intro r hr
    rw [List.length_cons, passTimers, hr]
    by_cases hx : x.due ≤ t
    · -- The first one is delivered at its own instant, which makes no difference at `t`.
      have hlater : ∀ r : Rig R, (r.moveTo x.due).moveTo t = r.moveTo t := by
        intro r
        simp only [moveTo, Nat.max_assoc, Nat.max_eq_right hx]
      simp only [hx, if_true, List.dropWhile_cons, List.takeWhile_cons, decide_true]
      calc ((((r.withTimers xs).moveTo x.due).deliver x.report).passTimers t xs.length).moveTo t
        _ = (((((r.withTimers xs).moveTo x.due).deliver x.report).withTimers
              (xs.dropWhile (·.due ≤ t))).deliverAll (xs.takeWhile (·.due ≤ t))).moveTo t :=
          ih _ (deliver_timers _ _)
        _ = ((((r.withTimers (xs.dropWhile (·.due ≤ t))).deliver x.report).moveTo x.due).deliverAll
              (xs.takeWhile (·.due ≤ t))).moveTo t := by
          rw [← deliver_withTimers, ← deliver_moveTo]
          rfl
        _ = ((r.withTimers (xs.dropWhile (·.due ≤ t))).deliverAll
              (x :: xs.takeWhile (·.due ≤ t))).moveTo t := by
          rw [deliverAll_moveTo, hlater]
          rfl
    · simp only [hx, if_false, List.dropWhile_cons, List.takeWhile_cons, decide_false,
        Bool.false_eq_true]
      rw [← hr]
      rfl

end

theorem Timely.advanceTo {r : Rig R} (h : r.Timely) (t : Nat) : (r.advanceTo t).Timely := by
  have htimers : (r.advanceTo t).timers = r.timers.dropWhile (·.due ≤ t) := by
    rw [advanceTo_eq]
    exact deliverAll_timers _
  unfold Timely
  rw [htimers, (split_due t h).2]
  exact h.filter _

end Rig
end Haptics
