import Haptics.Proofs.Lane

/-!
# Runs of segments in one call

Primitives, ramps and envelope segments are handed to the hardware in runs: as many segments of one
kind as follow each other and fit the limit of the actuator, in one call.
-/

namespace Haptics

variable {R : Type}

/-- A kind of segments that are handed over in runs. -/
inductive Batch
  | primitives
  | ramps
  | envelope
deriving DecidableEq, Repr

namespace Segment

/-- The kind of runs that a segment is handed over in, if it is. -/
def batch? : Segment R → Option Batch
  | primitive _ => some .primitives
  | ramp _ => some .ramps
  | envelope _ => some .envelope
  | hold _ | prebaked _ | basic _ => none

def primitive? : Segment R → Option (Primitive R)
  | primitive x => some x
  | _ => none

def ramp? : Segment R → Option (Sweep R)
  | ramp x => some x
  | _ => none

def envelope? : Segment R → Option (Sweep R)
  | envelope x => some x
  | _ => none

end Segment

namespace Batch

/-- The most segments that one call to the actuator of a lane takes. Zero is no limit. -/
def limit (b : Batch) (l : Lane) (s : Stage R) : Nat :=
  match b with
  | primitives => l.limit s (·.compositionMax)
  | ramps => l.limit s (·.rampsMax)
  | envelope => Lane.envelopeLimit (l.limit s (·.envelopeMax))

/-- The call that hands over segments of one kind. -/
def drive (b : Batch) (ss : List (Segment R)) : Drive R :=
  match b with
  | primitives => .composition (ss.filterMap Segment.primitive?)
  | ramps => .ramps (ss.filterMap Segment.ramp?)
  | envelope => .envelope (ControlPoint.ofSweeps (ss.filterMap Segment.envelope?))

def task (b : Batch) (p : Position R) : Task R :=
  match b with
  | primitives => .composition p
  | ramps => .ramps p
  | envelope => .envelope p

/-- The segments of a kind that follow each other from a position on, as many as one call takes. -/
def run (b : Batch) (l : Lane) (s : Stage R) (p : Position R) : List (Segment R) :=
  let found := (p.pattern.segments.drop p.index).takeWhile (·.batch? = some b)
  if b.limit l s = 0 then found else found.take (b.limit l s)

/-! ## What a run is -/

section
variable (b : Batch) (l : Lane) (s : Stage R) (p : Position R)

theorem run_prefix : b.run l s p <+: p.pattern.segments.drop p.index := by
  unfold run
  dsimp only
  split
  · exact List.takeWhile_prefix _
  · exact (List.take_prefix _ _).trans (List.takeWhile_prefix _)

theorem run_eq : b.run l s p =
    (p.pattern.segments.drop p.index).take (b.run l s p).length :=
  List.prefix_iff_eq_take.mp (b.run_prefix l s p)

theorem batch_of_mem_run : ∀ x ∈ b.run l s p, x.batch? = some b := by
  intro x hx
  have hfound : x ∈ (p.pattern.segments.drop p.index).takeWhile (·.batch? = some b) := by
    unfold run at hx
    dsimp only at hx
    split at hx
    · exact hx
    · exact List.mem_of_mem_take hx
  simpa using List.all_eq_true.mp List.all_takeWhile x hfound

theorem length_run_le (h : b.limit l s ≠ 0) : (b.run l s p).length ≤ b.limit l s := by
  unfold run
  rw [if_neg h]
  exact List.length_take_le _ _

theorem length_run_pos {x : Segment R} (hx : p.segment? = some x) (hb : x.batch? = some b) :
    0 < (b.run l s p).length := by
  obtain ⟨hlt, hget⟩ := List.getElem?_eq_some_iff.mp hx
  have hfound : 0 < ((p.pattern.segments.drop p.index).takeWhile (·.batch? = some b)).length := by
    rw [List.drop_eq_getElem_cons hlt, hget, List.takeWhile_cons_of_pos (by simpa using hb)]
    exact Nat.succ_pos _
  unfold run
  dsimp only
  split
  · exact hfound
  · rename_i hlimit
    rw [List.length_take]
    exact Nat.lt_min.mpr ⟨Nat.pos_of_ne_zero hlimit, hfound⟩

theorem run_inside (h : p.index ≤ p.pattern.segments.length) :
    p.index + (b.run l s p).length ≤ p.pattern.segments.length := by
  have hle := (b.run_prefix l s p).length_le
  rw [List.length_drop] at hle
  omega

/-- A run that does not reach the limit ends where another kind of segments begins. -/
theorem run_maximal (h : (b.run l s p).length ≠ b.limit l s) {x : Segment R}
    (hx : p.pattern.segments[p.index + (b.run l s p).length]? = some x) : x.batch? ≠ some b := by
  generalize hrest : p.pattern.segments.drop p.index = rest
  have hfound : b.run l s p = rest.takeWhile (·.batch? = some b) := by
    unfold run at h ⊢
    rw [hrest] at h ⊢
    dsimp only at h ⊢
    split
    · rfl
    · rename_i hlimit
      rw [if_neg hlimit, List.length_take] at h
      exact List.take_of_length_le (by omega)
  rw [hfound, ← List.getElem?_drop, hrest] at hx
  have hnext : (rest.dropWhile (·.batch? = some b)).head? = some x := by
    have hsplit : (rest.takeWhile (·.batch? = some b) ++ rest.dropWhile (·.batch? = some b))[
        (rest.takeWhile (·.batch? = some b)).length]? =
        (rest.dropWhile (·.batch? = some b))[0]? := by
      rw [List.getElem?_append_right (Nat.le_refl _), Nat.sub_self]
    rwa [List.takeWhile_append_dropWhile, hx, ← List.head?_eq_getElem?, eq_comm] at hsplit
  have hstop := List.head?_dropWhile_not (·.batch? = some b) rest
  rw [hnext] at hstop
  simpa using hstop

/-! ## How a run is played -/

/-- What is picked from the segments of one kind is the payload of each of them. -/
theorem takeSome_eq {α : Type} {pick : Segment R → Option α}
    (hpick : ∀ x, (pick x).isSome = decide (x.batch? = some b)) (ss : List (Segment R)) :
    Position.run.takeSome pick ss = (ss.takeWhile (·.batch? = some b)).filterMap pick ∧
      (Position.run.takeSome pick ss).length = (ss.takeWhile (·.batch? = some b)).length := by
  induction ss with
  | nil => exact ⟨rfl, rfl⟩
  | cons x ss ih =>
    have hx := hpick x
    unfold Position.run.takeSome
    cases h : pick x with
    | none =>
      rw [h] at hx
      rw [List.takeWhile_cons_of_neg (by simpa using hx.symm)]
      exact ⟨rfl, rfl⟩
    | some y =>
      rw [h] at hx
      rw [List.takeWhile_cons_of_pos (by simpa using hx.symm), List.filterMap_cons, h]
      exact ⟨congrArg (y :: ·) ih.1, congrArg (· + 1) ih.2⟩

theorem take_filterMap {α : Type} {pick : Segment R → Option α} (n : Nat) {ss : List (Segment R)}
    (h : ∀ x ∈ ss, (pick x).isSome) : (ss.filterMap pick).take n = (ss.take n).filterMap pick := by
  induction ss generalizing n with
  | nil => simp
  | cons x ss ih =>
    obtain ⟨y, hy⟩ := Option.isSome_iff_exists.mp (h x List.mem_cons_self)
    cases n with
    | zero => rfl
    | succ n =>
      simp only [List.filterMap_cons, hy, List.take_succ_cons]
      exact congrArg (y :: ·) (ih n fun z hz => h z (List.mem_cons_of_mem x hz))

theorem run_pick {α : Type} {pick : Segment R → Option α}
    (hpick : ∀ x, (pick x).isSome = decide (x.batch? = some b)) :
    p.run (b.limit l s) pick = (b.run l s p).filterMap pick ∧
      (p.run (b.limit l s) pick).length = (b.run l s p).length := by
  obtain ⟨hfound, hlength⟩ := b.takeSome_eq hpick (p.pattern.segments.drop p.index)
  unfold Position.run run
  dsimp only
  split
  · exact ⟨hfound, hlength⟩
  · have hsome : ∀ x ∈ (p.pattern.segments.drop p.index).takeWhile (·.batch? = some b),
        (pick x).isSome := by
      intro x hx
      rw [hpick]
      exact List.all_eq_true.mp List.all_takeWhile x hx
    exact ⟨by rw [hfound, take_filterMap _ hsome],
      by rw [List.length_take, List.length_take, hlength]⟩

variable [Level R] (plan : Plan R)

/-- A run is played in one call, and what follows comes behind it. -/
theorem play_task : l.play plan s (b.task p) =
    l.playRun plan s p (b.run l s p).length (b.drive (b.run l s p)) := by
  cases b with
  | primitives =>
    have hpick : ∀ x : Segment R,
        x.primitive?.isSome = decide (x.batch? = some Batch.primitives) := by
      intro x
      cases x <;> rfl
    obtain ⟨hrun, hlength⟩ := run_pick _ l s p hpick
    exact congr (congrArg (l.playRun plan s p) hlength) (congrArg Drive.composition hrun)
  | ramps =>
    have hpick : ∀ x : Segment R, x.ramp?.isSome = decide (x.batch? = some Batch.ramps) := by
      intro x
      cases x <;> rfl
    obtain ⟨hrun, hlength⟩ := run_pick _ l s p hpick
    exact congr (congrArg (l.playRun plan s p) hlength) (congrArg Drive.ramps hrun)
  | envelope =>
    have hpick : ∀ x : Segment R,
        x.envelope?.isSome = decide (x.batch? = some Batch.envelope) := by
      intro x
      cases x <;> rfl
    obtain ⟨hrun, hlength⟩ := run_pick _ l s p hpick
    exact congr (congrArg (l.playRun plan s p) hlength)
      (congrArg (fun es => Drive.envelope (ControlPoint.ofSweeps es)) hrun)

end
end Batch
end Haptics
