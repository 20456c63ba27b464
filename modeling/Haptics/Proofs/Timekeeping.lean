import Haptics.Proofs.Lists
import Haptics.Proofs.Splitting
import Haptics.Proofs.Volume
import Mathlib.Algebra.Order.Floor.Div

/-!
# Conversions keep the time

The passes that turn ramps into holds, holds into ramps and long ramps into short ones put
something into the place of every segment that takes exactly as long (`Pass.KeepsTime`). So a fitted
pattern lasts as long as before, and its loop begins at the same time (`Fitting.keeps_time`). The
durations are worked out in words, where a result may not fit and a divisor may be zero. That never
happens, whatever the durations are (`Pass.holdsInWords?_eq`, `Pass.piecesInWords?_eq`).
-/

namespace Haptics

variable {R : Type}

/-! ## Arithmetic on words -/

namespace Word

/-- A number, if a word holds it. -/
def fit? (n : Nat) : Option Nat := if n < wordCount then some n else none

def add? (a b : Nat) : Option Nat := fit? (a + b)

def mul? (a b : Nat) : Option Nat := fit? (a * b)

/-- The difference, if it is not negative. -/
def sub? (a b : Nat) : Option Nat := if b ≤ a then some (a - b) else none

def div? (a b : Nat) : Option Nat := if b = 0 then none else some (a / b)

/-- What a division leaves. -/
def mod? (a b : Nat) : Option Nat := if b = 0 then none else some (a % b)

/-- The quotient, rounded up. -/
def divUp? (a b : Nat) : Option Nat := do
  let q ← div? a b
  if a % b = 0 then some q else add? q 1

section
variable {a b : Nat}

theorem add?_eq (h : a + b < wordCount) : add? a b = some (a + b) := if_pos h

theorem mul?_eq (h : a * b < wordCount) : mul? a b = some (a * b) := if_pos h

theorem sub?_eq (h : b ≤ a) : sub? a b = some (a - b) := if_pos h

theorem div?_eq (h : 0 < b) : div? a b = some (a / b) := if_neg (Nat.ne_of_gt h)

theorem mod?_eq (h : 0 < b) : mod? a b = some (a % b) := if_neg (Nat.ne_of_gt h)

end

end Word

namespace Pass

/-- A quotient that is rounded up is one more than the quotient, unless nothing is left over. -/
theorem pieces_eq (ms : Nat) {limit : Nat} (hlimit : 0 < limit) :
    pieces ms limit = ms / limit + if ms % limit = 0 then 0 else 1 := by
  have hms := Nat.div_add_mod ms limit
  have hrest := Nat.mod_lt ms hlimit
  have hmul (q r : Nat) (hr : r < limit) : (limit * q + r) / limit = q := by
    rw [Nat.mul_add_div hlimit, Nat.div_eq_of_lt hr, Nat.add_zero]
  unfold pieces
  split
  · rename_i hzero
    have hsum : ms + limit - 1 = limit * (ms / limit) + (limit - 1) := by omega
    rw [hsum, hmul _ _ (by omega), Nat.add_zero]
  · have hsum : ms + limit - 1 = limit * (ms / limit + 1) + (ms % limit - 1) := by
      rw [Nat.mul_succ]
      omega
    rw [hsum, hmul _ _ (by omega)]

theorem pieces_le_max (ms : Nat) {limit : Nat} (hlimit : 0 < limit) :
    pieces ms limit ≤ max ms 1 := by
  rcases Nat.eq_zero_or_pos ms with rfl | hms
  · rw [pieces_eq 0 hlimit]
    simp
  · exact Nat.le_trans (pieces_le hlimit hms) (Nat.le_max_left ..)

theorem divUp?_eq {ms limit : Nat} (hlimit : 0 < limit) (hms : ms < wordCount) :
    Word.divUp? ms limit = some (pieces ms limit) := by
  have hle := pieces_le_max ms hlimit
  have hfits : max ms 1 < wordCount := by
    unfold wordCount at hms ⊢
    omega
  rw [pieces_eq ms hlimit] at hle ⊢
  unfold Word.divUp?
  rw [Word.div?_eq hlimit, Option.bind_eq_bind, Option.bind_some]
  split
  · rfl
  · rename_i hrest
    rw [if_neg hrest] at hle
    exact Word.add?_eq (Nat.lt_of_le_of_lt hle hfits)

/-! ## Staircases in words -/

/-- The durations of the holds that a ramp becomes, worked out in words. -/
def holdsInWords? (step ms : Nat) : Option (List Nat) := do
  let count := max (← Word.divUp? ms step) 1
  (List.range count).mapM fun i => do
    if (← Word.add? i 1) = count then
      Word.sub? ms (← Word.mul? step (← Word.sub? count 1))
    else some step

/-- What a ramp that is not flat becomes in steps. -/
structure Climb (step : Nat) (s : Sweep R) (hs : List (Hold R)) : Prop where
  count : hs.length = max (s.ms ⌈/⌉ step) 1
  /-- All holds but the last one take a whole step. -/
  front : ∀ h ∈ hs.dropLast, h.ms = step
  last : ∀ h ∈ hs.getLast?, h.ms ≤ step
  total : (hs.map (·.ms)).sum = s.ms
  /-- In words it comes to the same. -/
  words : s.ms < wordCount → holdsInWords? step s.ms = some (hs.map (·.ms))

/-- The last hold of a staircase takes what the steps before it leave, which is no more than a
step. -/
theorem exists_last_step (ms : Nat) {step : Nat} (hstep : 0 < step) : ∃ k,
    max (pieces ms step) 1 = k + 1 ∧ step * k ≤ ms ∧ ms - step * k ≤ step := by
  obtain ⟨k, hcount, hle⟩ := exists_max_pieces ms step
  have hcover := le_pieces_mul ms hstep
  have hcount' : pieces ms step * step ≤ (k + 1) * step := Nat.mul_le_mul_right _ (by omega)
  rw [Nat.succ_mul] at hcount'
  rw [Nat.mul_comm] at hle
  rw [Nat.mul_comm k] at hcount'
  exact ⟨k, hcount, hle, by omega⟩

theorem holdsInWords?_eq {step ms k : Nat} (hstep : 0 < step) (hms : ms < wordCount)
    (hcount : max (pieces ms step) 1 = k + 1) (hle : step * k ≤ ms) :
    holdsInWords? step ms =
      some ((List.range (k + 1)).map fun i => if i + 1 = k + 1 then ms - step * k else step) := by
  have hmany := pieces_le_max ms hstep
  unfold holdsInWords?
  rw [divUp?_eq hstep hms, Option.bind_eq_bind, Option.bind_some, hcount]
  refine List.mapM_eq_some fun i hi => ?_
  have hindex : i + 1 < wordCount := by
    have := List.mem_range.mp hi
    unfold wordCount at hms ⊢
    omega
  have hfront := Word.mul?_eq (Nat.lt_of_le_of_lt hle hms)
  rw [Word.add?_eq hindex, Word.sub?_eq (Nat.le_add_left 1 k), Option.bind_eq_bind,
    Option.bind_some, Option.bind_some, Nat.add_sub_cancel, hfront, Option.bind_some,
    Word.sub?_eq hle]
  split <;> rfl

end Pass

/-- A sweep that stays where it is. -/
def Sweep.isFlat [Level R] (s : Sweep R) : Bool :=
  s.startAmplitude == s.endAmplitude && s.startHz == s.endHz

namespace Pass

section
variable [Level R]

/-- A ramp that is not flat becomes a staircase. -/
theorem staircase_climbs {step : Nat} (hstep : 0 < step) (keepHz : Bool) {s : Sweep R}
    (steep : s.isFlat = false) :
    ∃ hs, staircase step keepHz s = hs.map .hold ∧ Climb step s hs := by
  obtain ⟨k, hcount, hle, hlast⟩ := exists_last_step s.ms hstep
  have hmap : ∃ f : Nat → Hold R, staircase step keepHz s = (List.range (k + 1)).map (.hold ∘ f) ∧
      ∀ i, (f i).ms = if i + 1 = k + 1 then s.ms - step * k else step := by
    unfold Sweep.isFlat at steep
    unfold staircase
    dsimp only
    rw [steep, hcount]
    exact ⟨_, rfl, fun i => rfl⟩
  obtain ⟨f, hstaircase, hf⟩ := hmap
  have hfront (i : Nat) (hi : i < k) : (f i).ms = step := by
    rw [hf, if_neg (by omega)]
  have hend : (f k).ms = s.ms - step * k := by
    rw [hf, if_pos rfl]
  refine ⟨(List.range (k + 1)).map f, by rw [hstaircase, List.map_map], ?_⟩
  exact {
    count := by
      rw [List.length_map, List.length_range]
      exact hcount.symm
    front := by
      intro h hh
      rw [List.range_succ, List.map_append, List.map_singleton, List.dropLast_concat] at hh
      obtain ⟨i, hi, rfl⟩ := List.mem_map.mp hh
      exact hfront i (List.mem_range.mp hi)
    last := by
      intro h hh
      rw [List.range_succ, List.map_append, List.map_singleton, List.getLast?_concat] at hh
      cases hh
      exact hend ▸ hlast
    total := by
      have hsteps : ((List.range k).map f).map (·.ms) = (List.range k).map fun _ => step := by
        rw [List.map_map]
        exact List.map_congr_left fun i hi => hfront i (List.mem_range.mp hi)
      rw [List.range_succ, List.map_append, List.map_append, hsteps, List.map_const',
        List.length_range, List.sum_append, List.sum_replicate_nat, List.map_singleton,
        List.map_singleton, List.sum_singleton, hend, Nat.mul_comm]
      exact Nat.add_sub_cancel' hle
    words := by
      intro hms
      rw [holdsInWords?_eq hstep hms hcount hle, List.map_map]
      exact congrArg some (List.map_congr_left fun i _ => (hf i).symm) }

end

/-! ## Short ramps in words -/

/-- The durations of the pieces of a ramp that are left from the `i`-th on, worked out in words.
The pieces before it took `elapsed`. -/
def piecesFrom? (ms base count : Nat) : Nat → Nat → Nat → Option (List Nat)
  | 0, _, _ => some []
  | left + 1, i, elapsed => do
    let next ← Word.add? i 1
    let d ← if next = count then Word.sub? ms elapsed else some base
    let rest ← piecesFrom? ms base count left next (← Word.add? elapsed d)
    some (d :: rest)

/-- The durations of the pieces that a ramp is cut into, worked out in words. -/
def piecesInWords? (limit ms : Nat) : Option (List Nat) := do
  let count ← Word.divUp? ms limit
  piecesFrom? ms (← Word.div? ms count) count count 0 0

theorem piecesFrom?_eq {ms base count : Nat} (hms : ms < wordCount) (hcount : count < wordCount)
    (k i elapsed : Nat) (hi : i + k + 1 = count) (hle : elapsed + k * base ≤ ms) :
    piecesFrom? ms base count (k + 1) i elapsed =
      some (List.replicate k base ++ [ms - (elapsed + k * base)]) := by
  induction k generalizing i elapsed with
  | zero =>
    rw [Nat.zero_mul, Nat.add_zero] at hle ⊢
    have hnext : Word.add? i 1 = some count := (Word.add?_eq (by omega)).trans (congrArg _ hi)
    have hdone : Word.add? elapsed (ms - elapsed) = some ms :=
      (Word.add?_eq (by omega)).trans (congrArg _ (Nat.add_sub_cancel' hle))
    simp [piecesFrom?, hnext, Word.sub?_eq hle, hdone]
  | succ k ih =>
    rw [Nat.succ_mul] at hle
    have hnext : Word.add? i 1 = some (i + 1) := Word.add?_eq (by omega)
    have hmore : i + 1 ≠ count := by omega
    have hdone : Word.add? elapsed base = some (elapsed + base) := Word.add?_eq (by omega)
    have hrest := ih (i + 1) (elapsed + base) (by omega) (by omega)
    have hsum : elapsed + (k * base + base) = elapsed + base + k * base := by omega
    unfold piecesFrom?
    simp [hnext, hmore, hdone, hrest, Nat.succ_mul, hsum, List.replicate_succ]

/-- In words the pieces of a ramp come to the same. -/
theorem piecesInWords?_eq [Level R] (s : Sweep R) {limit : Nat} (hlimit : 0 < limit)
    (hlong : limit < s.ms) (hms : s.ms < wordCount) :
    piecesInWords? limit s.ms = some ((parts s (pieces s.ms limit)).map (·.ms)) := by
  have hmany := pieces_le hlimit (Nat.zero_lt_of_lt hlong)
  obtain ⟨k, hk⟩ := Nat.exists_eq_add_one.mpr (Nat.zero_lt_of_lt (one_lt_pieces hlimit hlong))
  unfold piecesInWords?
  have hall := front_add_last s.ms k
  have hbase : Word.div? s.ms (k + 1) = some (s.ms / (k + 1)) := Word.div?_eq (Nat.succ_pos k)
  have hlast : s.ms - k * (s.ms / (k + 1)) = s.ms / (k + 1) + s.ms % (k + 1) :=
    Nat.sub_eq_of_eq_add ((Nat.add_comm ..).trans hall).symm
  rw [divUp?_eq hlimit hms, Option.bind_eq_bind, Option.bind_some, hk, hbase, Option.bind_some,
    piecesFrom?_eq hms (by omega) k 0 0 (by omega) (by omega), Nat.zero_add, hlast, map_ms_parts]

end Pass

/-! ## Passes that keep the time -/

namespace Segment

theorem total?_singleton (x : Segment R) : total? [x] = x.duration? := by
  show (x.duration?.bind fun ms => some (ms + 0)) = x.duration?
  cases x.duration? <;> rfl

theorem total?_ramps (ps : List (Sweep R)) :
    total? (ps.map .ramp) = some (ps.map (·.ms)).sum := by
  induction ps with
  | nil => rfl
  | cons q ps ih => simp [total?, ih, duration?]

/-- Segments that fill the place of another one: there are some, and together they take exactly as
long. -/
structure Fills (ys : List (Segment R)) (x : Segment R) : Prop where
  ne_nil : ys ≠ []
  total : total? ys = x.duration?

theorem Fills.singleton {x y : Segment R} (h : y.duration? = x.duration?) : Fills [y] x :=
  ⟨by simp, (total?_singleton y).trans h⟩

end Segment

namespace Pass

/-- A pass that fills the place of each segment. -/
def KeepsTime (pass : Pass R) : Prop := ∀ x, Segment.Fills (pass x) x

namespace KeepsTime

variable {pass pass' : Pass R}

theorem total?_flatMap (h : pass.KeepsTime) (xs : List (Segment R)) :
    Segment.total? (xs.flatMap pass) = Segment.total? xs := by
  induction xs with
  | nil => rfl
  | cons x xs ih => rw [List.flatMap_cons, Segment.total?_append, (h x).total, ih, Segment.total?]

theorem length_flatMap_pos (h : pass.KeepsTime) {xs : List (Segment R)} (hxs : xs ≠ []) :
    0 < (xs.flatMap pass).length := by
  obtain ⟨x, xs, rfl⟩ := List.exists_cons_of_ne_nil hxs
  rw [List.flatMap_cons, List.length_append]
  exact Nat.add_pos_left (List.length_pos_of_ne_nil (h x).ne_nil) _

theorem comp (h : pass.KeepsTime) (h' : pass'.KeepsTime) :
    KeepsTime fun x => (pass x).flatMap pass' := fun x =>
  ⟨List.ne_nil_of_length_pos (h'.length_flatMap_pos (h x).ne_nil),
    (h'.total?_flatMap _).trans (h x).total⟩

end KeepsTime

section
variable [Level R] (p : Profile R)

theorem keepsTime_rampToHolds (step : Nat) : (rampToHolds step p).KeepsTime := by
  intro x
  cases x with
  | ramp s =>
    unfold rampToHolds
    dsimp only
    split
    · exact .singleton rfl
    · exact ⟨staircase_ne_nil step _ s, total?_staircase step _ s⟩
  | _ => exact .singleton rfl

theorem keepsTime_holdToRamp : (holdToRamp p).KeepsTime := by
  intro x
  cases x with
  | hold h =>
    unfold holdToRamp
    dsimp only
    split <;> exact .singleton rfl
  | _ => exact .singleton rfl

theorem keepsTime_shortenRamps : (shortenRamps p).KeepsTime := by
  intro x
  cases x with
  | ramp s =>
    unfold shortenRamps
    dsimp only
    split
    · rename_i long
      have C := cut_parts s (Nat.pos_of_ne_zero long.2.1) long.2.2
      have hsome := List.ne_nil_of_length_pos (Nat.zero_lt_of_lt C.count.2.1)
      rw [split_eq_parts]
      exact ⟨by simpa using hsome, by rw [Segment.total?_ramps, C.total]; rfl⟩
    · exact .singleton rfl
  | _ => exact .singleton rfl

end

end Pass

/-! ## Fitting -/

namespace Fitting

variable [Level R] (f : Fitting R) (p : Profile R)

theorem keepsTime_refine (step : Nat) : (refine p step).KeepsTime := by
  have hall := ((Pass.keepsTime_rampToHolds p step).comp (Pass.keepsTime_holdToRamp p)).comp
    (Pass.keepsTime_shortenRamps p)
  intro x
  have hrefine : refine p step x = ((Pass.rampToHolds step p x).flatMap
      (Pass.holdToRamp p)).flatMap (Pass.shortenRamps p) := by
    show ((([x].flatMap _).flatMap _).flatMap _ : List (Segment R)) = _
    rw [List.flatMap_singleton]
  exact hrefine ▸ hall x

/-- On an actuator without ramps, what becomes of a ramp is its staircase. -/
theorem refine_ramp_of_cannot {step : Nat} (hstep : 0 < step)
    (cannot : ¬p.can .composeRamps = true) (s : Sweep R) :
    refine p step (.ramp s) = Pass.staircase step (p.can .frequencyControl) s := by
  have hstairs : Pass.rampToHolds step p (.ramp s) =
      Pass.staircase step (p.can .frequencyControl) s :=
    if_neg fun h => h.elim cannot (Nat.ne_of_gt hstep)
  have hkeep (zs : List (Segment R)) : zs.flatMap Pass.keep = zs := List.flatMap_singleton' zs
  unfold refine Pass.through
  simp only [List.foldl_cons, List.foldl_nil, List.flatMap_singleton, hstairs,
    Pass.holdToRamp_eq_keep p cannot, Pass.shortenRamps_eq_keep p cannot, hkeep]

section
variable {f p} {xs : List (Segment R)}

/-- Where no prebaked effect is replaced, fitting only refines. -/
theorem flatMap_image
    (kept : ∀ b, .prebaked b ∈ xs → Pass.fallback f.fallbacks p (.prebaked b) = [.prebaked b]) :
    xs.flatMap (f.image p) = xs.flatMap (refine p f.step) := by
  refine List.flatMap_congr fun y hy => ?_
  have hkept : Pass.fallback f.fallbacks p y = [y] := by
    cases y with
    | prebaked b => exact kept b hy
    | _ => rfl
  rw [image, hkept, List.flatMap_singleton]

/-- Then the loop start moves to where what comes of its segment begins, and is never dropped. -/
theorem fitSegments_snd_of_kept
    (kept : ∀ b, .prebaked b ∈ xs → Pass.fallback f.fallbacks p (.prebaked b) = [.prebaked b])
    {r : Nat} (hr : r < xs.length) :
    (f.fitSegments p xs (some r)).2 = some ((xs.take r).flatMap (refine p f.step)).length ∧
      ((xs.take r).flatMap (refine p f.step)).length < (xs.flatMap (refine p f.step)).length := by
  have hdrop : xs.drop r ≠ [] := List.ne_nil_of_length_pos (by rw [List.length_drop]; omega)
  have hlt : ((xs.take r).flatMap (refine p f.step)).length <
      (xs.flatMap (refine p f.step)).length := by
    have hrest := (keepsTime_refine p f.step).length_flatMap_pos hdrop
    have hsplit := congrArg (fun zs => (zs.flatMap (refine p f.step)).length)
      (List.take_append_drop r xs)
    simp only [List.flatMap_append, List.length_append] at hsplit
    omega
  rw [f.fitSegments_take p hr, flatMap_image kept,
    flatMap_image fun b hb => kept b (List.mem_of_mem_take hb), if_pos hlt]
  exact ⟨rfl, hlt⟩

theorem duration?_fitted_of_kept {x : Pattern R} (kept : ∀ b, .prebaked b ∈ x.segments →
      Pass.fallback f.fallbacks p (.prebaked b) = [.prebaked b]) :
    (f.fitted p x).duration? = x.duration? := by
  have hrepeats : (f.fitted p x).loopStart.isSome = x.loopStart.isSome := by
    rw [loopStart_fitted]
    cases hr : x.loopStart with
    | none => rw [fitSegments_none]
    | some r =>
      rw [(fitSegments_snd_of_kept kept (x.loopStart_lt r hr)).1]
      rfl
  have hsegments : (f.fitted p x).segments = x.segments.flatMap (refine p f.step) :=
    (f.through_passes p x.segments).trans (flatMap_image kept)
  rw [Pattern.duration?_eq, Pattern.duration?_eq, hrepeats, hsegments,
    (keepsTime_refine p f.step).total?_flatMap]

end

/-- **Conversions keep the time.** Where no prebaked effect is replaced by a fallback, fitting puts
something into the place of every segment that takes exactly as long, or equally unknown. So the
pattern lasts as long as before, and what it repeats begins at the same time. A ramp that is not
flat becomes a staircase whose steps, all but the last, take exactly as long as asked, and a long
ramp is cut; neither leaves the words that durations are stored in. -/
theorem keeps_time (x : Pattern R) (kept : ∀ b, .prebaked b ∈ x.segments →
      Pass.fallback f.fallbacks p (.prebaked b) = [.prebaked b]) :
    let fitted := f.fitSegments p x.segments x.loopStart
    fitted.1 = x.segments.flatMap (refine p f.step) ∧
    (∀ y, Segment.Fills (refine p f.step y) y) ∧
    (Pattern.ofSegments fitted.1 fitted.2).duration? = x.duration? ∧
    (x.loopStart = none → fitted.2 = none) ∧
    (∀ r ∈ x.loopStart, ∃ r' ∈ fitted.2, r' < fitted.1.length ∧
      Segment.total? (fitted.1.take r') = Segment.total? (x.segments.take r)) ∧
    (0 < f.step → ¬p.can .composeRamps = true → ∀ s : Sweep R, s.isFlat = false →
      ∃ hs, refine p f.step (.ramp s) = hs.map .hold ∧ Pass.Climb f.step s hs) ∧
    ∀ s : Sweep R, 0 < p.rampMsMax → p.rampMsMax < s.ms → s.ms < wordCount →
      ∃ ps : List (Sweep R), Pass.split p.rampMsMax s = ps.map .ramp ∧
        Pass.piecesInWords? p.rampMsMax s.ms = some (ps.map (·.ms)) := by
  intro fitted
  have hkeeps := keepsTime_refine p f.step
  have hthrough : fitted.1 = Pass.through (f.passes p) x.segments := f.fitSegments_fst p _ _
  have hfst : fitted.1 = x.segments.flatMap (refine p f.step) := by
    rw [hthrough, f.through_passes p, flatMap_image kept]
  refine ⟨hfst, hkeeps, ?duration, ?once, ?loop, ?stairs, ?cut⟩
  case duration =>
    rw [hthrough]
    exact duration?_fitted_of_kept kept
  case once =>
    intro hx
    show (f.fitSegments p x.segments x.loopStart).2 = none
    rw [hx, fitSegments_none]
  case loop =>
    intro r hr
    obtain ⟨hsnd, hinside⟩ := fitSegments_snd_of_kept kept (x.loopStart_lt r hr)
    have hprefix : (x.segments.take r).flatMap (refine p f.step) <+: fitted.1 := by
      rw [hfst]
      exact (List.take_prefix r x.segments).flatMap _
    refine ⟨_, ?_, hfst ▸ hinside, ?_⟩
    · show (f.fitSegments p x.segments x.loopStart).2 = _
      rw [Option.mem_def.mp hr, hsnd]
    · rw [← List.prefix_iff_eq_take.mp hprefix, hkeeps.total?_flatMap]
  case stairs =>
    intro hstep cannot s steep
    rw [refine_ramp_of_cannot p hstep cannot]
    exact Pass.staircase_climbs hstep _ steep
  case cut =>
    intro s hlimit hlong hms
    exact ⟨_, Pass.split_eq_parts s _, Pass.piecesInWords?_eq s hlimit hlong hms⟩

/-- A swell, a hold, and a click that must not be replaced, from the hold on over and over, for an
actuator that plays neither ramps nor clicks. -/
theorem keeps_time_swell :
    let f : Fitting Rat := ⟨⟨[(⟨0⟩, [.hold ⟨.level 1, 0, 30⟩])]⟩, 10⟩
    let p : Profile Rat := { Profile.degraded 0 with effects := some {} }
    let s : Sweep Rat := ⟨0, 1, 0, 0, 25⟩
    let x : Pattern Rat := .ofSegments
      [.ramp s, .hold ⟨.level 1, 0, 5⟩, .prebaked ⟨⟨0⟩, .medium, false⟩] (some 1)
    let fitted := f.fitSegments p x.segments x.loopStart
    fitted.1.map (·.duration?) = [some 10, some 10, some 5, some 5, none] ∧ fitted.2 = some 3 ∧
      (Pattern.ofSegments fitted.1 fitted.2).duration? = x.duration? ∧
      (∀ r ∈ x.loopStart, ∃ r' ∈ fitted.2, r' < fitted.1.length ∧
        Segment.total? (fitted.1.take r') = Segment.total? (x.segments.take r)) ∧
      ∃ hs, refine p 10 (.ramp s) = hs.map .hold ∧ Pass.Climb 10 s hs := by
  intro f p s x fitted
  have kept : ∀ b, .prebaked b ∈ x.segments →
      Pass.fallback f.fallbacks p (.prebaked b) = [.prebaked b] := by
    intro b hb
    have hb : b = ⟨⟨0⟩, .medium, false⟩ := by simpa [x, Pattern.ofSegments] using hb
    rw [hb]
    rfl
  obtain ⟨-, -, hduration, -, hloop, hstairs, -⟩ := f.keeps_time p x kept
  exact ⟨by decide +kernel, by decide +kernel, hduration, hloop,
    hstairs (by decide) (by decide) s (by decide +kernel)⟩

end Fitting
end Haptics
