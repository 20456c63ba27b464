import Haptics.Fitting
import Haptics.Level.Rational
import Mathlib.Algebra.GroupWithZero.Nat
import Mathlib.Data.List.Infix

/-!
# Expanding a segment list

A pass goes through a segment list in place, and the list it goes through grows and shrinks while
the loop start moves along. What it has made of the segments so far is what it makes of each of
them, one after the other, and the loop start stands where the segment that it pointed at begins
(`Pass.apply_eq`). So do all passes of a fitting together (`Fitting.expands`).
-/

namespace Haptics

variable {R : Type}

namespace Pass

/-! ## One pass -/

section
variable (pass : Pass R) (xs ys : List (Segment R)) (x : Segment R) (loopStart : Option Nat)

/-- Where the segment at an index begins after the pass. An index past the end stays as far past
it. -/
def place (r : Nat) : Nat := ((xs.take r).flatMap pass).length + (r - xs.length)

theorem goThrough_concat :
    pass.goThrough (xs ++ [x]) loopStart = (pass.goThrough xs loopStart).put (pass x) := by
  simp [goThrough]

theorem done_goThrough : (pass.goThrough xs loopStart).done.toList = xs.flatMap pass := by
  induction xs using List.reverseRecOn with
  | nil => rfl
  | append_singleton xs x ih => simp [goThrough_concat, Splicing.put, ih]

theorem index_goThrough : (pass.goThrough xs loopStart).index = (xs.flatMap pass).length := by
  rw [← pass.done_goThrough xs loopStart, Array.length_toList, Splicing.index]

variable {xs} in
theorem place_of_le {r : Nat} (h : r ≤ xs.length) :
    pass.place xs r = ((xs.take r).flatMap pass).length := by
  rw [place, Nat.sub_eq_zero_of_le h, Nat.add_zero]

variable {xs} in
/-- The images of the segments in front come before the place of a segment. -/
theorem place_of_ge {r : Nat} (h : xs.length ≤ r) :
    pass.place xs r = (xs.flatMap pass).length + (r - xs.length) := by
  rw [place, List.take_of_length_le h]

/-- One more segment moves the places behind it. -/
theorem place_concat (r : Nat) : pass.place (xs ++ [x]) r =
    if (xs.flatMap pass).length < pass.place xs r then pass.place xs r + (pass x).length - 1
    else pass.place xs r := by
  by_cases h : r ≤ xs.length
  · have hbefore : ((xs.take r).flatMap pass).length ≤ (xs.flatMap pass).length :=
      (List.IsPrefix.flatMap (List.take_prefix r xs) pass).length_le
    rw [pass.place_of_le h, if_neg (by omega), place, List.take_append_of_le_length h,
      List.length_append, List.length_singleton]
    omega
  · have hplace : pass.place xs r = (xs.flatMap pass).length + (r - xs.length) :=
      pass.place_of_ge (by omega)
    have hnext : pass.place (xs ++ [x]) r =
        (xs.flatMap pass).length + (pass x).length + (r - (xs.length + 1)) := by
      rw [pass.place_of_ge (by simp; omega)]
      simp
    rw [hnext, hplace, if_pos (by omega)]
    omega

/-- The loop start keeps to the segment that it points at, wherever the pass is. -/
theorem loopStart_goThrough :
    (pass.goThrough xs loopStart).loopStart = loopStart.map (pass.place xs) := by
  induction xs using List.reverseRecOn with
  | nil =>
    have hplace : pass.place [] = id := funext fun r => by simp [place]
    rw [hplace, Option.map_id]
    rfl
  | append_singleton xs x ih =>
    rw [goThrough_concat, Splicing.put, ih, index_goThrough, Option.map_map]
    exact congrArg (loopStart.map ·) (funext fun r => (pass.place_concat xs x r).symm)

theorem apply_eq :
    pass.apply (xs, loopStart) = (xs.flatMap pass, loopStart.map (pass.place xs)) := by
  rw [apply, done_goThrough, loopStart_goThrough]

theorem place_append : pass.place (xs ++ ys) xs.length = (xs.flatMap pass).length := by
  rw [pass.place_of_le (by simp), List.take_left]

end

/-! ## One pass after the other -/

/-- What some passes make of a segment list. -/
def through (passes : List (Pass R)) (xs : List (Segment R)) : List (Segment R) :=
  passes.foldl (fun xs pass => xs.flatMap pass) xs

section
variable (passes : List (Pass R)) (xs ys : List (Segment R))

/-- The loop start stays between what comes of the segments before it and of those from it on. -/
theorem foldl_apply_some :
    passes.foldl (fun x pass => pass.apply x) (xs ++ ys, some xs.length) =
      (through passes xs ++ through passes ys, some (through passes xs).length) := by
  induction passes generalizing xs ys with
  | nil => rfl
  | cons pass passes ih =>
    rw [List.foldl_cons, apply_eq, List.flatMap_append, Option.map_some, place_append]
    exact ih _ _

theorem foldl_apply_fst (x : List (Segment R) × Option Nat) :
    (passes.foldl (fun x pass => pass.apply x) x).1 = through passes x.1 := by
  induction passes generalizing x with
  | nil => rfl
  | cons pass passes ih =>
    obtain ⟨xs, loopStart⟩ := x
    rw [List.foldl_cons, ih, apply_eq]
    rfl

theorem foldl_apply_none : passes.foldl (fun x pass => pass.apply x) (xs, none) =
    (through passes xs, none) := by
  induction passes generalizing xs with
  | nil => rfl
  | cons pass passes ih =>
    rw [List.foldl_cons, apply_eq]
    exact ih _

/-- Each segment goes through the passes by itself. -/
theorem through_eq_flatMap : through passes xs = xs.flatMap fun x => through passes [x] := by
  induction passes generalizing xs with
  | nil => simp [through]
  | cons pass passes ih =>
    show through passes (xs.flatMap pass) = xs.flatMap fun x => through passes ([x].flatMap pass)
    rw [ih, List.flatMap_assoc]
    simp only [List.flatMap_singleton, ← ih]

end

/-! ## Passes that have nothing to do -/

section
variable [Level R] (p : Profile R)

theorem rampToHolds_eq_keep {step : Nat} (h : p.can .composeRamps = true ∨ step = 0) :
    rampToHolds step p = keep := by
  funext x
  cases x with
  | ramp s => exact if_pos h
  | _ => rfl

theorem holdToRamp_eq_keep (h : ¬p.can .composeRamps = true) : holdToRamp p = keep := by
  funext x
  cases x with
  | hold s => exact if_neg fun hcan => h hcan.1
  | _ => rfl

theorem shortenRamps_eq_keep (h : ¬p.can .composeRamps = true) : shortenRamps p = keep := by
  funext x
  cases x with
  | ramp s => exact if_neg fun hcan => h hcan.1
  | _ => rfl

end

end Pass

/-! ## Fitting -/

namespace Fitting

variable [Level R] (f : Fitting R) (p : Profile R)

/-- The passes in their order. -/
def passes : List (Pass R) :=
  [.fallback f.fallbacks p, .rampToHolds f.step p, .holdToRamp p, .shortenRamps p]

section
variable (xs : List (Segment R)) (loopStart : Option Nat)

theorem fitSegments_fst : (f.fitSegments p xs loopStart).1 = Pass.through (f.passes p) xs :=
  Pass.foldl_apply_fst (f.passes p) (xs, loopStart)

theorem fitSegments_snd : (f.fitSegments p xs loopStart).2 =
    ((f.passes p).foldl (fun x pass => pass.apply x) (xs, loopStart)).2.filter
      (· < (Pass.through (f.passes p) xs).length) := by
  rw [← fitSegments_fst]
  rfl

end

/-- What a pattern becomes, playable or not. -/
def fitted (x : Pattern R) : Pattern R :=
  .ofSegments (Pass.through (f.passes p) x.segments) (f.fitSegments p x.segments x.loopStart).2

/-- What is left of the loop start lies inside the list. -/
theorem loopStart_fitted (x : Pattern R) :
    (f.fitted p x).loopStart = (f.fitSegments p x.segments x.loopStart).2 := by
  show (f.fitSegments p x.segments x.loopStart).2.filter
    (· < (Pass.through (f.passes p) x.segments).length) = _
  rw [fitSegments_snd, Option.filter_filter]
  simp

theorem fit?_pattern (x : Pattern R) : f.fit? p (.pattern x) =
    if (Pass.through (f.passes p) x.segments).all p.plays then some (.pattern (f.fitted p x))
    else none := by
  unfold fitted
  rw [← f.fitSegments_fst p x.segments x.loopStart]
  rfl

/-- What the passes behind the first make of a segment. They know nothing of the fallback
compositions. -/
def refine (step : Nat) : Pass R := fun x =>
  Pass.through [.rampToHolds step p, .holdToRamp p, .shortenRamps p] [x]

/-- What fitting makes of a segment. -/
def image : Pass R := fun x => (Pass.fallback f.fallbacks p x).flatMap (refine p f.step)

theorem through_passes (xs : List (Segment R)) :
    Pass.through (f.passes p) xs = xs.flatMap (f.image p) := by
  show Pass.through _ (xs.flatMap (Pass.fallback f.fallbacks p)) = _
  rw [Pass.through_eq_flatMap, List.flatMap_assoc]
  rfl

/-- The loop start of a fitted list is where what comes of its segment begins. -/
theorem fitSegments_some (xs ys : List (Segment R)) :
    (f.fitSegments p (xs ++ ys) (some xs.length)).2 =
      if (xs.flatMap (f.image p)).length < ((xs ++ ys).flatMap (f.image p)).length then
        some (xs.flatMap (f.image p)).length
      else none := by
  rw [fitSegments_snd, Pass.foldl_apply_some, through_passes, through_passes]
  simp [Option.filter]

theorem fitSegments_take {xs : List (Segment R)} {r : Nat} (hr : r < xs.length) :
    (f.fitSegments p xs (some r)).2 =
      if ((xs.take r).flatMap (f.image p)).length < (xs.flatMap (f.image p)).length then
        some ((xs.take r).flatMap (f.image p)).length
      else none := by
  have htake : (xs.take r).length = r := List.length_take_of_le (Nat.le_of_lt hr)
  have h := f.fitSegments_some p (xs.take r) (xs.drop r)
  rwa [List.take_append_drop, htake] at h

theorem fitSegments_none (xs : List (Segment R)) : (f.fitSegments p xs none).2 = none := by
  rw [fitSegments_snd, Pass.foldl_apply_none]
  rfl

/-- **Fitting expands each segment by itself.** The list becomes what the segments become, one after
the other, where the segments of a fallback composition are not replaced by a fallback again. The
loop start becomes the place where the segment that it points at begins, or is dropped if nothing
is left from there on. So does each pass by itself, but keeps a loop start past the end; and on its
way through the list the loop start is moved as the integers are, never below zero. -/
theorem expands :
    (∀ xs loopStart, (f.fitSegments p xs loopStart).1 = xs.flatMap (f.image p)) ∧
    (∀ b : Prebaked, refine p f.step (.prebaked b) = [.prebaked b]) ∧
    (∀ xs, (f.fitSegments p xs none).2 = none) ∧
    (∀ xs r, r < xs.length →
      let place := ((xs.take r).map fun x => (f.image p x).length).sum
      (f.fitSegments p xs (some r)).2 =
        if place < (xs.flatMap (f.image p)).length then some place else none) ∧
    ∀ pass ∈ f.passes p,
      (∀ xs loopStart, (pass.apply (xs, loopStart)).1 = xs.flatMap pass) ∧
      (∀ xs, (pass.apply (xs, none)).2 = none) ∧
      (∀ xs r, r < xs.length → (pass.apply (xs, some r)).2 =
        some ((xs.take r).map fun x => (pass x).length).sum) ∧
      ∀ xs x loopStart, ∀ r ∈ (pass.goThrough xs loopStart).loopStart,
        ∃ r' ∈ (pass.goThrough (xs ++ [x]) loopStart).loopStart, (r' : Int) =
          if (pass.goThrough xs loopStart).index < r then (r : Int) + (pass x).length - 1
          else r := by
  refine ⟨fun xs loopStart => ?_, fun b => rfl, f.fitSegments_none p, fun xs r hr => ?_,
    fun pass _ => ⟨fun xs loopStart => ?_, fun xs => ?_, fun xs r hr => ?_,
      fun xs x loopStart r hr => ?_⟩⟩
  · rw [fitSegments_fst, through_passes]
  · have hlength : (xs.take r).length = r := List.length_take_of_le (Nat.le_of_lt hr)
    have hplace : ((xs.take r).flatMap (f.image p)).length =
        ((xs.take r).map fun x => (f.image p x).length).sum := List.length_flatMap
    have h := f.fitSegments_some p (xs.take r) (xs.drop r)
    rwa [List.take_append_drop, hlength, hplace] at h
  · rw [Pass.apply_eq]
  · rw [Pass.apply_eq]
    rfl
  · rw [Pass.apply_eq, Option.map_some, pass.place_of_le (Nat.le_of_lt hr), List.length_flatMap]
  · have hnext : (pass.goThrough (xs ++ [x]) loopStart).loopStart =
        some (if (pass.goThrough xs loopStart).index < r then r + (pass x).length - 1 else r) := by
      rw [Pass.goThrough_concat, Splicing.put, hr, Option.map_some]
    refine ⟨_, hnext, ?_⟩
    split <;> omega

/-- A device on which a click is nothing, and a tick is a ramp and a tick. -/
def ticking : Fitting Rat where
  fallbacks := ⟨[(⟨0⟩, []), (⟨2⟩, [.ramp ⟨0, 1, 0, 0, 20⟩, .prebaked ⟨⟨2⟩, .medium, true⟩])]⟩
  step := 10

/-- The tick in the composition stays. So the hold, from which the pattern repeats, comes behind two
holds and a tick. From the click on there is nothing left to repeat, which the first pass leaves to
the last. -/
theorem expands_ticking :
    let p : Profile Rat := { Profile.degraded 0 with effects := some {} }
    let xs : List (Segment Rat) :=
      [.prebaked ⟨⟨2⟩, .medium, true⟩, .hold ⟨.level 1, 0, 5⟩, .prebaked ⟨⟨0⟩, .medium, true⟩]
    (ticking.fitSegments p xs (some 1)).1.length = 4 ∧
      (ticking.fitSegments p xs (some 1)).2 = some 3 ∧
      (ticking.fitSegments p xs (some 2)).2 = none ∧
      ((Pass.fallback ticking.fallbacks p).apply (xs, some 2)).2 = some 3 := by
  intro p xs
  obtain ⟨hlist, -, -, hplace, hpass⟩ := ticking.expands p
  obtain ⟨-, -, hfallback, -⟩ := hpass (.fallback ticking.fallbacks p) List.mem_cons_self
  refine ⟨?_, (hplace xs 1 (by decide)).trans ?_, (hplace xs 2 (by decide)).trans ?_,
    (hfallback xs 2 (by decide)).trans ?_⟩
  · rw [hlist]
    decide +kernel
  · decide +kernel
  · decide +kernel
  · decide +kernel

end Fitting
end Haptics
