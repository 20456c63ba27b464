import Haptics.Proofs.Expansion

/-!
# Which effects an actuator can be given

Fitting refuses a pattern exactly if, with its fallbacks in place, it has a segment that the
actuator cannot play (`Fitting.fit_playable`). The other passes only make holds and ramps of holds
and ramps, which every actuator takes (`Pass.Reshapes`). They leave no ramps to an actuator without
ramps, and no hold with a frequency of its own to one that has them.
-/

namespace Haptics

variable {R : Type} [Level R]

/-! ## What an actuator plays -/

/-- A frequency inside a band, the ends included. A band has to be a range of positive
frequencies. -/
structure Band.Covers (b : Band R) (hz : R) : Prop where
  positive : 0 < b.low
  ordered : b.low ≤ b.high
  above : b.low ≤ hz
  below : hz ≤ b.high

theorem Band.contains_iff (b : Band R) (hz : R) : b.contains hz = true ↔ b.Covers hz := by
  simp only [contains, isValid, Bool.and_eq_true, decide_eq_true_eq]
  exact ⟨fun ⟨⟨⟨h1, h2⟩, h3⟩, h4⟩ => ⟨h1, h2, h3, h4⟩, fun ⟨h1, h2, h3, h4⟩ => ⟨⟨⟨h1, h2⟩, h3⟩, h4⟩⟩

namespace Profile

/-- What an actuator needs to play a segment. -/
def Playable (p : Profile R) : Segment R → Prop
  | .hold _ | .ramp _ => True
  | .envelope s =>
    p.can .composeEnvelopes = true ∧ p.band.Covers s.startHz ∧ p.band.Covers s.endHz
  | .primitive x => p.can .composeEffects = true ∧ ∃ ms, p.primitives.find? x.id = some ms
  | .prebaked b => p.support b.effect = .yes ∨ p.support b.effect = .unknown
  | .basic _ => False

theorem plays_iff (p : Profile R) (x : Segment R) : p.plays x = true ↔ p.Playable x := by
  cases x with
  | hold | ramp => exact iff_of_true rfl trivial
  | prebaked b =>
    show (true && true && true && p.support b.effect != .no) = true ↔ _
    cases h : p.support b.effect <;> simp [Playable, h]
  | primitive x =>
    simp [plays, playsEnvelope, playsPrimitive, playsBasic, playsPrebaked, Playable,
      supportsPrimitive, Table.contains, Option.isSome_iff_exists]
  | envelope s =>
    simp [plays, playsEnvelope, playsPrimitive, playsBasic, playsPrebaked, Playable,
      Band.contains_iff, and_assoc]
  | basic s => simp [plays, playsEnvelope, playsPrimitive, playsBasic, Playable]

end Profile

/-! ## Passes that change no other kinds -/

omit [Level R] in
/-- Holds and ramps, which every actuator takes. -/
def Segment.isPlain : Segment R → Bool
  | hold _ | ramp _ => true
  | _ => false

theorem Segment.plays_of_isPlain {x : Segment R} (h : x.isPlain = true) (p : Profile R) :
    p.plays x = true := by
  cases x with
  | hold | ramp => rfl
  | _ => cases h

namespace Pass

omit [Level R] in
/-- A pass that makes plain segments of plain ones and leaves all others. -/
def Reshapes (pass : Pass R) : Prop :=
  ∀ x, pass x = [x] ∨ x.isPlain = true ∧ ∀ y ∈ pass x, y.isPlain = true

section
variable (p : Profile R) (step : Nat)

/-- A staircase has holds only. -/
theorem exists_hold_of_mem_staircase {keepHz : Bool} {s : Sweep R} {y : Segment R}
    (h : y ∈ staircase step keepHz s) : ∃ x, y = .hold x := by
  unfold staircase at h
  dsimp only at h
  split at h
  · exact ⟨_, List.mem_singleton.mp h⟩
  · obtain ⟨i, -, rfl⟩ := List.mem_map.mp h
    exact ⟨_, rfl⟩

/-- The pieces of a ramp are ramps. -/
theorem exists_ramp_of_mem_split {limit : Nat} {s : Sweep R} {y : Segment R}
    (h : y ∈ split limit s) : ∃ x, y = .ramp x := by
  obtain ⟨i, -, rfl⟩ := List.mem_map.mp h
  exact ⟨_, rfl⟩

theorem reshapes_rampToHolds : (rampToHolds step p).Reshapes := by
  intro x
  cases x with
  | ramp s =>
    simp only [rampToHolds]
    split
    · exact .inl rfl
    · refine .inr ⟨rfl, fun y hy => ?_⟩
      obtain ⟨h, rfl⟩ := exists_hold_of_mem_staircase step hy
      rfl
  | _ => exact .inl rfl

theorem reshapes_holdToRamp : (holdToRamp p).Reshapes := by
  intro x
  cases x with
  | hold h =>
    simp only [holdToRamp]
    split
    · refine .inr ⟨rfl, fun y hy => ?_⟩
      rw [List.mem_singleton.mp hy]
      rfl
    · exact .inl rfl
  | _ => exact .inl rfl

theorem reshapes_shortenRamps : (shortenRamps p).Reshapes := by
  intro x
  cases x with
  | ramp s =>
    simp only [shortenRamps]
    split
    · refine .inr ⟨rfl, fun y hy => ?_⟩
      obtain ⟨s, rfl⟩ := exists_ramp_of_mem_split hy
      rfl
    · exact .inl rfl
  | _ => exact .inl rfl

/-- Such a pass neither makes nor hides a segment that the actuator cannot play. -/
theorem Reshapes.all_plays {pass : Pass R} (h : pass.Reshapes) (xs : List (Segment R)) :
    (xs.flatMap pass).all p.plays = xs.all p.plays := by
  have hone (x : Segment R) : (pass x).all p.plays = p.plays x := by
    obtain hx | ⟨hx, hpass⟩ := h x
    · rw [hx, List.all_cons, List.all_nil, Bool.and_true]
    · rw [Segment.plays_of_isPlain hx]
      exact List.all_eq_true.mpr fun y hy => Segment.plays_of_isPlain (hpass y hy) p
  rw [List.all_flatMap]
  exact congrArg _ (funext hone)

/-! ## What is left behind -/

theorem ne_ramp_of_mem_rampToHolds (h : ¬(p.can .composeRamps = true ∨ step = 0))
    {x y : Segment R} (hy : y ∈ rampToHolds step p x) (s : Sweep R) : y ≠ .ramp s := by
  cases x with
  | ramp t =>
    simp only [rampToHolds, if_neg h] at hy
    obtain ⟨k, rfl⟩ := exists_hold_of_mem_staircase step hy
    exact nofun
  | _ =>
    rw [List.mem_singleton.mp hy]
    exact nofun

theorem hz_of_mem_holdToRamp (can : p.can .composeRamps = true) {x : Segment R} {h : Hold R}
    (hh : .hold h ∈ holdToRamp p x) : (h.hz == 0) = true := by
  cases x with
  | hold k =>
    simp only [holdToRamp] at hh
    split at hh
    · cases List.mem_singleton.mp hh
    · next hzero =>
      cases List.mem_singleton.mp hh
      simpa [can] using hzero
  | _ => cases List.mem_singleton.mp hh

/-- Shortening ramps makes no hold. -/
theorem eq_of_hold_mem_shortenRamps {x : Segment R} {h : Hold R}
    (hh : .hold h ∈ shortenRamps p x) : x = .hold h := by
  cases x with
  | ramp s =>
    simp only [shortenRamps] at hh
    split at hh
    · obtain ⟨s, hs⟩ := exists_ramp_of_mem_split hh
      cases hs
    · cases List.mem_singleton.mp hh
  | _ => exact (List.mem_singleton.mp hh).symm

end

end Pass

/-! ## Fitting -/

namespace Fitting

variable (f : Fitting R) (p : Profile R) (xs : List (Segment R))

theorem through_eq : Pass.through (f.passes p) xs =
    (((xs.flatMap (Pass.fallback f.fallbacks p)).flatMap (Pass.rampToHolds f.step p)).flatMap
      (Pass.holdToRamp p)).flatMap (Pass.shortenRamps p) := rfl

/-- Whether what comes out is playable shows when the fallbacks are in place. -/
theorem all_plays_through : (Pass.through (f.passes p) xs).all p.plays =
    (xs.flatMap (Pass.fallback f.fallbacks p)).all p.plays := by
  rw [through_eq, (Pass.reshapes_shortenRamps p).all_plays, (Pass.reshapes_holdToRamp p).all_plays,
    (Pass.reshapes_rampToHolds p f.step).all_plays]

/-- A ramp is left only to an actuator with ramps, or if there is no step to make holds with. -/
theorem can_of_ramp_mem {s : Sweep R} (hs : .ramp s ∈ Pass.through (f.passes p) xs) :
    p.can .composeRamps = true ∨ f.step = 0 := by
  by_contra hnone
  have hcannot : ¬p.can .composeRamps = true := fun can => hnone (.inl can)
  have hkeep (zs : List (Segment R)) : zs.flatMap Pass.keep = zs := List.flatMap_singleton' zs
  rw [through_eq, Pass.holdToRamp_eq_keep p hcannot, Pass.shortenRamps_eq_keep p hcannot, hkeep,
    hkeep] at hs
  obtain ⟨x, -, hx⟩ := List.mem_flatMap.mp hs
  exact Pass.ne_ramp_of_mem_rampToHolds p f.step hnone hx s rfl

/-- An actuator with ramps is left no hold with a frequency. -/
theorem hz_of_hold_mem (can : p.can .composeRamps = true) {h : Hold R}
    (hh : .hold h ∈ Pass.through (f.passes p) xs) : (h.hz == 0) = true := by
  rw [through_eq] at hh
  obtain ⟨x, hx, hh⟩ := List.mem_flatMap.mp hh
  obtain rfl := Pass.eq_of_hold_mem_shortenRamps p hh
  obtain ⟨y, -, hy⟩ := List.mem_flatMap.mp hx
  exact Pass.hz_of_mem_holdToRamp p can hy

/-- **Fitting accepts exactly what can be played.** It takes a pattern if and only if, with the
fallbacks in place, the actuator can play all of its segments. What comes out it can play too; there
are no ramps for an actuator without ramps, unless there is no step to make holds with, and no holds
with a frequency for one that has them; and the loop start lies inside the list. -/
theorem fit_playable (x : Pattern R) :
    ((f.fit? p (.pattern x)).isSome ↔
      ∀ y ∈ ((Pass.fallback f.fallbacks p).apply (x.segments, x.loopStart)).1, p.Playable y) ∧
    ∀ e, f.fit? p (.pattern x) = some e → ∃ q : Pattern R, e = .pattern q ∧
      (∀ y ∈ q.segments, p.Playable y) ∧
      (∀ s, .ramp s ∈ q.segments → p.can .composeRamps = true ∨ f.step = 0) ∧
      (p.can .composeRamps = true → ∀ h, .hold h ∈ q.segments → (h.hz == 0) = true) ∧
      (q.segments, q.loopStart) = f.fitSegments p x.segments x.loopStart ∧
      ∀ r ∈ q.loopStart, r < q.segments.length := by
  have hplayable (ys : List (Segment R)) :
      ys.all p.plays = true ↔ ∀ y ∈ ys, p.Playable y := by
    simp only [List.all_eq_true, Profile.plays_iff]
  rw [fit?_pattern, Pass.apply_eq]
  constructor
  · rw [all_plays_through, ← hplayable]
    split
    · next hall => exact iff_of_true rfl hall
    · next hall => exact iff_of_false Bool.false_ne_true hall
  · intro e he
    split at he
    · next hall =>
      cases he
      refine ⟨f.fitted p x, rfl, (hplayable _).mp hall, fun s hs => f.can_of_ramp_mem p _ hs,
        fun can h hh => f.hz_of_hold_mem p _ can hh, ?_, (f.fitted p x).loopStart_lt⟩
      rw [loopStart_fitted]
      exact Prod.ext (f.fitSegments_fst p x.segments x.loopStart).symm rfl
    · cases he

/-- A motor that plays envelopes from 50 to 300 Hz, and ramps of 10 ms at most. -/
def sweeping : Profile Rat :=
  { Profile.degraded 0 with
    capabilities := .ofList [.composeRamps, .composeEnvelopes]
    rampMsMax := 10
    band := ⟨none, 50, 300⟩ }

/-- A hold at 100 Hz and an envelope through the whole band. -/
def tuned : Pattern Rat :=
  .ofSegments [.hold ⟨.level 1, 100, 25⟩, .envelope ⟨0, 1, 50, 300, 40⟩] (some 1)

theorem fit_playable_tuned :
    ∃ q : Pattern Rat, ticking.fit? sweeping (.pattern tuned) = some (.pattern q) ∧
      (∀ y ∈ q.segments, sweeping.Playable y) ∧
      (∀ h, .hold h ∈ q.segments → (h.hz == 0) = true) ∧ q.loopStart = some 3 := by
  obtain ⟨-, hfit⟩ := ticking.fit_playable sweeping tuned
  have hsome : (ticking.fit? sweeping (.pattern tuned)).isSome = true := by decide +kernel
  obtain ⟨e, he⟩ := Option.isSome_iff_exists.mp hsome
  obtain ⟨q, rfl, hplayable, -, hhz, hsegments, -⟩ := hfit e he
  have hloop : (ticking.fitSegments sweeping tuned.segments tuned.loopStart).2 = some 3 := by
    decide +kernel
  exact ⟨q, he, hplayable, hhz rfl, (congrArg Prod.snd hsegments).trans hloop⟩

end Fitting
end Haptics
