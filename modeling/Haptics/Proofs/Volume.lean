import Haptics.Proofs.Intake
import Haptics.Proofs.Playable
import Mathlib.Data.List.Forall2

/-!
# How loud a vibration is to play

Whether a request is accepted, how long its effects last and whether they repeat does not depend on
how loud it is to play (`Service.request_volume`). Scaling changes nothing but amplitudes and
strengths (`Effect.shape_scale`), and the passes that fit a pattern to its actuator do not look at
them. The exception are ramps that become staircases, where a flat ramp becomes a single hold; it
takes as long as the staircase does (`Fitting.even_through`).
-/

namespace Haptics

variable {R : Type}

/-! ## Shapes -/

namespace Segment

section
variable [One R]

/-- A segment without its amplitudes and its strength. -/
def shape (x : Segment R) : Segment R :=
  ((x.resolve 1).withStrength .medium).mapAmplitudes fun _ => 1

variable (x : Segment R)

@[simp] theorem shape_resolve (default : R) : (x.resolve default).shape = x.shape := by
  cases x with
  | hold h => cases h with | mk a hz ms => cases a <;> rfl
  | _ => rfl

@[simp] theorem shape_withStrength (strength : Strength) :
    (x.withStrength strength).shape = x.shape := by
  cases x <;> rfl

@[simp] theorem shape_mapAmplitudes (f : R → R) : (x.mapAmplitudes f).shape = x.shape := by
  cases x with
  | hold h => cases h with | mk a hz ms => cases a <;> rfl
  | _ => rfl

@[simp] theorem shape_shape : x.shape.shape = x.shape :=
  (shape_mapAmplitudes ..).trans ((shape_withStrength ..).trans (shape_resolve ..))

@[simp] theorem duration?_shape : x.shape.duration? = x.duration? := by
  cases x <;> rfl

end

@[simp] theorem duration?_resolve (x : Segment R) (default : R) :
    (x.resolve default).duration? = x.duration? := by
  cases x <;> rfl

/-- How long some segments last together, if that is known. -/
def total? : List (Segment R) → Option Nat
  | [] => some 0
  | x :: xs => x.duration?.bind fun ms => (total? xs).map (ms + ·)

theorem total?_append (xs ys : List (Segment R)) :
    total? (xs ++ ys) = (total? xs).bind fun m => (total? ys).map (m + ·) := by
  induction xs with
  | nil => simp [total?]
  | cons x xs ih =>
    rw [List.cons_append, total?, total?, ih]
    cases x.duration? with
    | none => rfl
    | some ms =>
      cases total? xs with
      | none => rfl
      | some m =>
        cases total? ys with
        | none => rfl
        | some n => simp [Nat.add_assoc]

/-- What keeps the time of every segment keeps the time of all. -/
theorem total?_map {f : Segment R → Segment R} (h : ∀ x, (f x).duration? = x.duration?)
    (xs : List (Segment R)) : total? (xs.map f) = total? xs := by
  induction xs with
  | nil => rfl
  | cons x xs ih => rw [List.map_cons, total?, total?, h, ih]

end Segment

/-! ## Effects -/

namespace Pattern

theorem map_map (f g : Segment R → Segment R) (p : Pattern R) :
    (p.map f).map g = p.map (g ∘ f) := by
  simp [map]

/-- A pattern that does not repeat lasts as long as its segments do together. -/
theorem foldlM_duration? (xs : List (Segment R)) {n : Nat} (hn : n ≤ forever) :
    xs.foldlM (fun total x => (x.duration?).map (saturate total)) n =
      (Segment.total? xs).map fun m => min (n + m) forever := by
  induction xs generalizing n with
  | nil => simp [Segment.total?, hn]
  | cons x xs ih =>
    rw [List.foldlM_cons, Segment.total?]
    cases x.duration? with
    | none => rfl
    | some ms =>
      have hle : saturate n ms ≤ forever := Nat.min_le_right ..
      refine (ih hle).trans ?_
      cases Segment.total? xs with
      | none => rfl
      | some m =>
        refine congrArg some ?_
        change min (min (n + ms) forever + m) forever = min (n + (ms + m)) forever
        omega

theorem duration?_eq (p : Pattern R) : p.duration? =
    if p.loopStart.isSome then some forever
    else (Segment.total? p.segments).map fun m => min m forever := by
  unfold duration?
  rw [foldlM_duration? p.segments (Nat.zero_le _)]
  simp

end Pattern

namespace Effect

def repeats : Effect R → Bool
  | pattern p => p.loopStart.isSome
  | vendor _ => false

/-- Two effects take the same time. -/
structure Lasts (e e' : Effect R) : Prop where
  duration : e.duration? = e'.duration?
  repeats : e.repeats = e'.repeats

theorem Lasts.resolve {e e' : Effect R} (h : e.Lasts e') (x x' : R) :
    (e.resolve x).Lasts (e'.resolve x') := by
  have hsame (e : Effect R) (x : R) : (e.resolve x).Lasts e := by
    cases e with
    | vendor v => exact ⟨rfl, rfl⟩
    | pattern p =>
      refine ⟨?_, rfl⟩
      change (p.map _).duration? = p.duration?
      rw [Pattern.duration?_eq, Pattern.duration?_eq, Pattern.segments_map, Pattern.loopStart_map,
        Segment.total?_map (·.duration?_resolve x)]
  exact ⟨((hsame e x).duration.trans h.duration).trans (hsame e' x').duration.symm,
    ((hsame e x).repeats.trans h.repeats).trans (hsame e' x').repeats.symm⟩

/-- An effect without its amplitudes and its strength. -/
def shape [One R] : Effect R → Effect R
  | pattern p => pattern (p.map Segment.shape)
  | vendor v => vendor ⟨v.data, .medium, 1, 1⟩

section
variable [One R] (e : Effect R)

@[simp] theorem shape_resolve (default : R) : (e.resolve default).shape = e.shape := by
  cases e with
  | vendor v => rfl
  | pattern p => simp [resolve, shape, Pattern.map_map, Function.comp_def]

@[simp] theorem shape_withStrength (strength : Strength) :
    (e.withStrength strength).shape = e.shape := by
  cases e with
  | vendor v => rfl
  | pattern p => simp [withStrength, shape, Pattern.map_map, Function.comp_def]

@[simp] theorem shape_scaleWith (curve : R → R → R) (factor : R) :
    (e.scaleWith curve factor).shape = e.shape := by
  cases e with
  | vendor v => rfl
  | pattern p => simp [scaleWith, shape, Pattern.map_map, Function.comp_def]

end

@[simp] theorem shape_scaleAdaptively [Level R] (factor : R) (e : Effect R) :
    (e.scaleAdaptively factor).shape = e.shape := by
  cases e with
  | vendor v => rfl
  | pattern p => simp [scaleAdaptively, shape, Pattern.map_map, Function.comp_def]

/-- Scaling changes how loud an effect plays and nothing else. -/
@[simp] theorem shape_scale [PerceptualLevel R] (s : Scaling R) (u : Usage) (e : Effect R) :
    (s.scale u e).shape = e.shape := by
  unfold Scaling.scale
  dsimp only
  split <;> simp [scale, scaleLinearly]

end Effect

/-! ## Passes that see shapes only -/

namespace Pass

section
variable [Level R]

/-- A pass that makes segments of one shape into segments of the same shapes. -/
def Blind (pass : Pass R) : Prop :=
  ∀ x, (pass x).map Segment.shape = (pass x.shape).map Segment.shape

theorem Blind.flatMap {pass : Pass R} (h : pass.Blind) {xs ys : List (Segment R)}
    (hxy : xs.map Segment.shape = ys.map Segment.shape) :
    (xs.flatMap pass).map Segment.shape = (ys.flatMap pass).map Segment.shape := by
  have hshape (zs : List (Segment R)) : (zs.flatMap pass).map Segment.shape =
      (zs.map Segment.shape).flatMap fun x => (pass x).map Segment.shape := by
    rw [List.map_flatMap, List.flatMap_map]
    exact List.flatMap_congr fun x _ => h x
  rw [hshape, hshape, hxy]

variable (p : Profile R)

theorem blind_keep : (keep : Pass R).Blind := fun x => by simp [keep]

theorem blind_fallback (fallbacks : Table EffectId (List (Segment R))) :
    (fallback fallbacks p).Blind := by
  intro x
  cases x with
  | prebaked b =>
    have hshape : (Segment.prebaked b : Segment R).shape =
        .prebaked ⟨b.effect, .medium, b.replaceable⟩ := rfl
    rw [hshape]
    unfold fallback
    dsimp only
    split
    · cases fallbacks.find? b.effect <;> rfl
    · rfl
  | _ => exact blind_keep _

theorem blind_holdToRamp : (holdToRamp p).Blind := by
  intro x
  cases x with
  | hold h =>
    have hshape : (Segment.hold h).shape = .hold ⟨.level 1, h.hz, h.ms⟩ := by
      cases h with | mk a hz ms => cases a <;> rfl
    unfold holdToRamp
    rw [hshape]
    dsimp only
    split
    · rfl
    · rw [List.map_singleton, hshape]
      rfl
  | _ => exact blind_keep _

theorem blind_shortenRamps : (shortenRamps p).Blind := by
  intro x
  cases x with
  | ramp s =>
    have hshape : (Segment.ramp s).shape = .ramp (s.mapAmplitudes fun _ => 1) := rfl
    unfold shortenRamps
    rw [hshape]
    dsimp only [Sweep.mapAmplitudes]
    split
    · simp only [split, List.map_map]
      rfl
    · rfl
  | _ => exact blind_keep _

/-! ## Staircases -/

omit [Level R] in
theorem total?_steps {h : Nat → Hold R} {step : Nat} (k : Nat) (hstep : ∀ i < k, (h i).ms = step) :
    Segment.total? ((List.range k).map fun i => .hold (h i)) = some (k * step) := by
  induction k with
  | zero => simp [Segment.total?]
  | succ k ih =>
    rw [List.range_succ, List.map_append, Segment.total?_append,
      ih fun i hi => hstep i (Nat.lt_succ_of_lt hi)]
    simp [Segment.total?, Segment.duration?, hstep k (Nat.lt_succ_self k), Nat.succ_mul]

/-- A staircase has a last step, and those before it fit into its time. -/
theorem exists_max_pieces (ms step : Nat) :
    ∃ k, max (pieces ms step) 1 = k + 1 ∧ k * step ≤ ms := by
  have hdiv : pieces ms step * step ≤ ms + step - 1 := Nat.div_mul_le_self _ _
  cases hpieces : pieces ms step with
  | zero => exact ⟨0, rfl, by simp⟩
  | succ k =>
    rw [hpieces, Nat.succ_mul] at hdiv
    exact ⟨k, by omega, by omega⟩

section
variable (step : Nat) (keepHz : Bool) (s : Sweep R)

theorem staircase_ne_nil : staircase step keepHz s ≠ [] := by
  unfold staircase
  dsimp only
  split
  · simp
  · simp

theorem plays_staircase : (staircase step keepHz s).all p.plays = true := by
  rw [List.all_eq_true]
  intro y hy
  obtain ⟨h, rfl⟩ := exists_hold_of_mem_staircase step hy
  rfl

theorem total?_staircase :
    Segment.total? (staircase step keepHz s) = some s.ms := by
  unfold staircase
  dsimp only
  split
  · rfl
  · obtain ⟨k, hcount, hle⟩ := exists_max_pieces s.ms step
    rw [hcount, List.range_succ, List.map_append, Segment.total?_append,
      total?_steps k fun i hi => if_neg (by omega)]
    simp only [List.map_singleton, Segment.total?, Segment.duration?, Option.bind_some,
      Option.map_some, if_true, Nat.add_sub_cancel, Nat.mul_comm step k, Nat.add_zero]
    rw [Nat.add_sub_cancel' hle]

/-- A ramp takes as long as the one hold that a flat ramp becomes, though it has more steps. -/
example : (staircase 5 false (⟨1 / 2, 1, 0, 0, 18⟩ : Sweep Rat)).map (·.duration?) =
      [some 5, some 5, some 5, some 3] ∧
    (staircase 5 false (⟨1, 1, 0, 0, 18⟩ : Sweep Rat)).map (·.duration?) = [some 18] := by
  decide +kernel

end

end

end Pass

/-! ## Fitting -/

section
variable [Level R]

/-- Two segment lists that look the same from outside: they take the same time, and an actuator
plays both or neither. -/
structure Profile.Even (p : Profile R) (xs ys : List (Segment R)) : Prop where
  empty : xs = [] ↔ ys = []
  total : Segment.total? xs = Segment.total? ys
  plays : xs.all p.plays = ys.all p.plays

theorem Profile.plays_shape (p : Profile R) (x : Segment R) : p.plays x.shape = p.plays x := by
  cases x <;> rfl

namespace Profile.Even

variable {p : Profile R} {xs ys zs : List (Segment R)}

theorem symm (h : p.Even xs ys) : p.Even ys xs := ⟨h.empty.symm, h.total.symm, h.plays.symm⟩

theorem trans (h : p.Even xs ys) (h' : p.Even ys zs) : p.Even xs zs :=
  ⟨h.empty.trans h'.empty, h.total.trans h'.total, h.plays.trans h'.plays⟩

theorem append {xs' ys' : List (Segment R)} (h : p.Even xs ys) (h' : p.Even xs' ys') :
    p.Even (xs ++ xs') (ys ++ ys') where
  empty := by simp [h.empty, h'.empty]
  total := by rw [Segment.total?_append, Segment.total?_append, h.total, h'.total]
  plays := by rw [List.all_append, List.all_append, h.plays, h'.plays]

theorem map_shape (xs : List (Segment R)) : p.Even xs (xs.map Segment.shape) where
  empty := by simp
  total := (Segment.total?_map (·.duration?_shape) xs).symm
  plays := by simp [Function.comp_def, plays_shape]

theorem of_shape (h : xs.map Segment.shape = ys.map Segment.shape) : p.Even xs ys :=
  (map_shape xs).trans (h ▸ (map_shape ys).symm)

/-- A pass that does nothing visible to the amplitudes of a segment does nothing visible to those of
a list. -/
theorem flatMap {pass : Pass R} (hpass : ∀ x, p.Even (pass x) (pass x.shape))
    (h : xs.map Segment.shape = ys.map Segment.shape) :
    p.Even (xs.flatMap pass) (ys.flatMap pass) := by
  have hshape (zs : List (Segment R)) :
      p.Even (zs.flatMap pass) ((zs.map Segment.shape).flatMap pass) := by
    induction zs with
    | nil => exact map_shape []
    | cons z zs ih => exact (hpass z).append ih
  exact (hshape xs).trans (h ▸ (hshape ys).symm)

theorem rampToHolds (step : Nat) (x : Segment R) :
    p.Even (Pass.rampToHolds step p x) (Pass.rampToHolds step p x.shape) := by
  cases x with
  | ramp s =>
    have hshape : (Segment.ramp s).shape = .ramp (s.mapAmplitudes fun _ => 1) := rfl
    rw [hshape]
    unfold Pass.rampToHolds
    dsimp only
    split
    · exact of_shape rfl
    · exact {
        empty := iff_of_false (Pass.staircase_ne_nil _ _ s) (Pass.staircase_ne_nil _ _ _)
        total := by rw [Pass.total?_staircase, Pass.total?_staircase, Sweep.mapAmplitudes]
        plays := (Pass.plays_staircase ..).trans (Pass.plays_staircase ..).symm }
  | _ => exact map_shape _

end Profile.Even

namespace Fitting

variable (f : Fitting R) (p : Profile R)

/-- Fitting does not show how loud a segment list is to play. -/
theorem even_through {xs ys : List (Segment R)} (h : xs.map Segment.shape = ys.map Segment.shape) :
    p.Even (Pass.through (f.passes p) xs) (Pass.through (f.passes p) ys) := by
  have hfallback := (Pass.blind_fallback p f.fallbacks).flatMap h
  by_cases hramps : p.can .composeRamps = true ∨ f.step = 0
  · -- Ramps stay ramps, so all passes keep to the shapes.
    have hkeep : (Pass.rampToHolds f.step p).Blind := by
      rw [Pass.rampToHolds_eq_keep p hramps]
      exact Pass.blind_keep
    exact .of_shape ((Pass.blind_shortenRamps p).flatMap
      ((Pass.blind_holdToRamp p).flatMap (hkeep.flatMap hfallback)))
  · -- Ramps become staircases, to which nothing is done any more.
    have hcannot : ¬p.can .composeRamps = true := fun h => hramps (.inl h)
    have hkeep (zs : List (Segment R)) : zs.flatMap Pass.keep = zs := List.flatMap_singleton' zs
    have hstairs := Profile.Even.flatMap (Profile.Even.rampToHolds f.step (p := p)) hfallback
    unfold Pass.through passes
    simp only [List.foldl_cons, List.foldl_nil, Pass.holdToRamp_eq_keep p hcannot,
      Pass.shortenRamps_eq_keep p hcannot, hkeep]
    exact hstairs

section
variable (xs : List (Segment R)) (loopStart : Option Nat)

/-- A fitted pattern repeats if something is left of what it repeats. -/
theorem isSome_fitSegments (h : ∀ r ∈ loopStart, r < xs.length) :
    (f.fitSegments p xs loopStart).2.isSome =
      loopStart.any fun r => !(Pass.through (f.passes p) (xs.drop r)).isEmpty := by
  rw [fitSegments_snd]
  cases loopStart with
  | none =>
    rw [Pass.foldl_apply_none]
    rfl
  | some r =>
    have hlength : (xs.take r).length = r := by
      rw [List.length_take]
      exact Nat.min_eq_left (Nat.le_of_lt (h r rfl))
    have hfold := Pass.foldl_apply_some (f.passes p) (xs.take r) (xs.drop r)
    rw [List.take_append_drop, hlength] at hfold
    have hthrough : Pass.through (f.passes p) xs = Pass.through (f.passes p) (xs.take r) ++
        Pass.through (f.passes p) (xs.drop r) := by
      rw [← Pass.foldl_apply_fst (f.passes p) (xs, some r), hfold]
    rw [hfold, hthrough]
    cases hrest : Pass.through (f.passes p) (xs.drop r) <;> simp [Option.filter, hrest]

theorem isSome_fitted (x : Pattern R) : (f.fitted p x).loopStart.isSome =
    x.loopStart.any fun r => !(Pass.through (f.passes p) (x.segments.drop r)).isEmpty := by
  rw [loopStart_fitted, f.isSome_fitSegments p x.segments x.loopStart x.loopStart_lt]

/-- Patterns of one shape become patterns that take the same time. -/
theorem lasts_fitted {x x' : Pattern R} (h : x.map Segment.shape = x'.map Segment.shape) :
    (Effect.pattern (f.fitted p x)).Lasts (.pattern (f.fitted p x')) := by
  have hsegments : x.segments.map Segment.shape = x'.segments.map Segment.shape :=
    congrArg Pattern.segments h
  have hloop : (x.map Segment.shape).loopStart = (x'.map Segment.shape).loopStart :=
    congrArg Pattern.loopStart h
  rw [Pattern.loopStart_map, Pattern.loopStart_map] at hloop
  have hrest (r : Nat) : (Pass.through (f.passes p) (x.segments.drop r)).isEmpty =
      (Pass.through (f.passes p) (x'.segments.drop r)).isEmpty := by
    have hdrop :
        (x.segments.drop r).map Segment.shape = (x'.segments.drop r).map Segment.shape := by
      rw [List.map_drop, List.map_drop, hsegments]
    rw [Bool.eq_iff_iff, List.isEmpty_iff, List.isEmpty_iff]
    exact (f.even_through p hdrop).empty
  have hrepeats : (f.fitted p x).loopStart.isSome = (f.fitted p x').loopStart.isSome := by
    rw [isSome_fitted, isSome_fitted, hloop]
    simp only [hrest]
  refine ⟨?_, hrepeats⟩
  change (f.fitted p x).duration? = (f.fitted p x').duration?
  rw [Pattern.duration?_eq, Pattern.duration?_eq, hrepeats]
  exact congrArg _ (congrArg _ (f.even_through p hsegments).total)

/-- Effects of one shape are both refused, or what is made of them takes the same time. -/
theorem fit?_shape {e e' : Effect R} (h : e.shape = e'.shape) :
    (f.fit? p e = none ∧ f.fit? p e' = none) ∨
      ∃ x x', f.fit? p e = some x ∧ f.fit? p e' = some x' ∧ x.Lasts x' := by
  cases e with
  | vendor v =>
    cases e' with
    | pattern x => cases h
    | vendor v' => exact .inr ⟨_, _, rfl, rfl, rfl, rfl⟩
  | pattern x =>
    cases e' with
    | vendor v => cases h
    | pattern x' =>
      have hpattern := Effect.pattern.inj h
      have hsegments : x.segments.map Segment.shape = x'.segments.map Segment.shape :=
        congrArg Pattern.segments hpattern
      rw [fit?_pattern, fit?_pattern, ← (f.even_through p hsegments).plays]
      split
      · exact .inr ⟨_, _, rfl, rfl, f.lasts_fitted p hpattern⟩
      · exact .inl ⟨rfl, rfl⟩

end

end Fitting

end

/-! ## Requests at two volumes -/

/-- Everything that says how loud vibrations are to play. -/
structure Volume (R : Type) where
  rawAmplitude : Int
  rawGain : R
  scaleMode : ScaleMode
  rawFactors : Option (List R)
  rawExternalFactors : Option (List R)
  intensities : Usage → Option Intensity
  chosen : Usage → Option Intensity
  adaptive : Usage → Option R

namespace Service

def withVolume (s : Service R) (x : Volume R) : Service R :=
  { s with scaling := {
      tuning := { s.scaling.tuning with
        rawAmplitude := x.rawAmplitude
        rawGain := x.rawGain
        scaleMode := x.scaleMode
        rawFactors := x.rawFactors
        rawExternalFactors := x.rawExternalFactors
        intensities := x.intensities }
      chosen := x.chosen
      adaptive := x.adaptive } }

variable [PerceptualLevel R] (s : Service R) (x y : Volume R) (u u' : Usage)

theorem fit?_volume (p : Profile R) (e : Effect R) :
    ((s.withVolume x).fitting.fit? p ((s.withVolume x).scaling.scale u e) = none ∧
      (s.withVolume y).fitting.fit? p ((s.withVolume y).scaling.scale u' e) = none) ∨
    ∃ z z', (s.withVolume x).fitting.fit? p ((s.withVolume x).scaling.scale u e) = some z ∧
      (s.withVolume y).fitting.fit? p ((s.withVolume y).scaling.scale u' e) = some z' ∧
      z.Lasts z' :=
  (s.withVolume x).fitting.fit?_shape p (by simp)

theorem refusal?_volume (e : ActuatorId × Effect R) :
    (s.withVolume x).refusal? u e = (s.withVolume y).refusal? u' e := by
  unfold refusal?
  have hrig : (s.withVolume x).rig = (s.withVolume y).rig := rfl
  rw [hrig]
  cases (s.withVolume y).rig.device? e.1 with
  | none => rfl
  | some d =>
    obtain ⟨h, h'⟩ | ⟨z, z', h, h', -⟩ := s.fit?_volume x y u u' d.control.profile e.2
    · simp only [h, h']
    · simp only [h, h']
      rfl

theorem refusalOf?_volume (v : Vibration R) :
    (s.withVolume x).refusalOf? u v = (s.withVolume y).refusalOf? u' v := by
  unfold refusalOf?
  have hrefusal : (s.withVolume x).refusal? u = (s.withVolume y).refusal? u' :=
    funext (s.refusal?_volume x y u u')
  rw [hrefusal]
  rfl

theorem lasts_fitted? {e : ActuatorId × Effect R} {z z' : Effect R}
    (h : (s.withVolume x).fitted? u e = some z) (h' : (s.withVolume y).fitted? u' e = some z') :
    z.Lasts z' := by
  obtain ⟨d, hd, h⟩ := Option.bind_eq_some_iff.mp h
  obtain ⟨d', hd', h'⟩ := Option.bind_eq_some_iff.mp h'
  obtain rfl : d = d' := Option.some.inj (hd.symm.trans hd')
  obtain ⟨w, hw, rfl⟩ := Option.map_eq_some_iff.mp h
  obtain ⟨w', hw', rfl⟩ := Option.map_eq_some_iff.mp h'
  obtain ⟨hnone, -⟩ | ⟨_, _, hz, hz', hlasts⟩ := s.fit?_volume x y u u' d.control.profile e.2
  · cases hnone.symm.trans hw
  · cases hz.symm.trans hw
    cases hz'.symm.trans hw'
    exact hlasts.resolve _ _

omit [PerceptualLevel R] in
theorem forall₂_of_ids {P : ActuatorId × Effect R → ActuatorId × Effect R → Prop}
    {es es' : List (ActuatorId × Effect R)} (h : es.map (·.1) = es'.map (·.1))
    (H : ∀ e ∈ es, ∀ e' ∈ es', e.1 = e'.1 → P e e') : List.Forall₂ P es es' := by
  induction es generalizing es' with
  | nil =>
    obtain rfl := List.map_eq_nil_iff.mp h.symm
    exact .nil
  | cons e es ih =>
    cases es' with
    | nil => cases h
    | cons e' es' =>
      obtain ⟨hhead, htail⟩ := List.cons.inj h
      refine .cons (H e List.mem_cons_self e' List.mem_cons_self hhead) (ih htail ?_)
      exact fun z hz z' hz' => H z (List.mem_cons_of_mem e hz) z' (List.mem_cons_of_mem e' hz')

variable {s x y u u'} in
/-- What the actuators are given takes the same time at both volumes. -/
theorem Prepared.lasts {xs es es' : List (ActuatorId × Effect R)}
    (H : (s.withVolume x).Prepared u xs es) (H' : (s.withVolume y).Prepared u' xs es') :
    List.Forall₂ (fun e e' => e.1 = e'.1 ∧ e.2.Lasts e'.2) es es' := by
  refine forall₂_of_ids (H.ids.trans H'.ids.symm) fun e he e' he' hids => ⟨hids, ?_⟩
  obtain ⟨z, hz, hfitted⟩ := Option.bind_eq_some_iff.mp (H.effect e he)
  obtain ⟨z', hz', hfitted'⟩ := Option.bind_eq_some_iff.mp (H'.effect e' he')
  rw [hids] at hz
  obtain rfl : z = z' := Option.some.inj (hz.symm.trans hz')
  exact s.lasts_fitted? x y u u' hfitted hfitted'

omit [PerceptualLevel R] in
/-- The vibration that is accepted waits behind all others. -/
theorem last_supersede (caller : Caller) (v : Vibration R) :
    ((s.enqueue caller v).supersede s.nextId).waiting.getLast?.map (·.run) =
      some (.fresh ⟨s.nextId, caller, s.tuning⟩ v s.rig s.rig.now) := by
  have hlast : (s.enqueue caller v).waiting.getLast? =
      some (.fresh ⟨s.nextId, caller, s.tuning⟩ v s.rig) := List.getLast?_concat ..
  obtain ⟨-, h⟩ | ⟨previous, -, h⟩ := (s.enqueue caller v).supersede_cases s.nextId
  · rw [h, hlast]
    rfl
  · have hwaiting : ((s.enqueue caller v).cancel previous .graceful).waiting =
        (s.enqueue caller v).waiting.map (·.sendTo previous .graceful) := rfl
    rw [h, hwaiting, List.getLast?_map, hlast, Option.map_some, Option.map_some,
      Performance.sendTo_run]
    rfl

/-- **Volume does not decide.** Whatever the volume and the usage, the same request has the same
answer, and when it is accepted, each actuator is given an effect that takes the same time: it lasts
as long, and it repeats or not. -/
theorem request_volume (v : Vibration R) (caller : Caller) :
    let r := (s.withVolume x).request v u caller
    let r' := (s.withVolume y).request v u' caller
    r.1 = r'.1 ∧ ∀ id, r.1 = .ok id → ∃ es es',
      r.2.waiting.getLast?.map (·.run) = some (.fresh ⟨id, caller, (s.withVolume x).tuning⟩
        (.stereo es) s.rig s.rig.now) ∧
      r'.2.waiting.getLast?.map (·.run) = some (.fresh ⟨id, caller, (s.withVolume y).tuning⟩
        (.stereo es') s.rig s.rig.now) ∧
      List.Forall₂ (fun e e' => e.1 = e'.1 ∧ e.2.duration? = e'.2.duration? ∧
        e.2.repeats = e'.2.repeats) es es' := by
  intro r r'
  have hrefusal := s.refusalOf?_volume x y u u' v
  have h : (s.withVolume x).Requested v u caller r := (s.withVolume x).request_requested ..
  have h' : (s.withVolume y).Requested v u' caller r' := (s.withVolume y).request_requested ..
  clear_value r r'
  cases h with
  | @refused e refused =>
    rw [hrefusal] at refused
    cases h' with
    | refused refused' =>
      cases refused.symm.trans refused'
      exact ⟨rfl, nofun⟩
    | stopped accepted => cases refused.symm.trans accepted
    | taken accepted => cases refused.symm.trans accepted
  | stopped accepted dead =>
    rw [hrefusal] at accepted
    cases h' with
    | refused refused => cases refused.symm.trans accepted
    | stopped => exact ⟨rfl, nofun⟩
    | taken _ alive => cases alive.symm.trans dead
  | @taken es accepted alive prepared =>
    rw [hrefusal] at accepted
    cases h' with
    | refused refused => cases refused.symm.trans accepted
    | stopped _ dead => cases alive.symm.trans dead
    | @taken es' _ _ prepared' =>
      refine ⟨rfl, fun id hid => ?_⟩
      cases hid
      refine ⟨es, es', last_supersede _ caller _, last_supersede _ caller _, ?_⟩
      exact (prepared.lasts prepared').imp fun e e' h => ⟨h.1, h.2.duration, h.2.repeats⟩

/-- The volume of a device that configures nothing and of a user who chose nothing. -/
def plain : Volume Rat where
  rawAmplitude := 255
  rawGain := Tuning.defaultGain
  scaleMode := .exponential
  rawFactors := none
  rawExternalFactors := none
  intensities _ := none
  chosen _ := none
  adaptive _ := none

/-- A volume at which every amplitude from a half up is full. -/
def loud : Volume Rat :=
  { plain with scaleMode := .table, rawFactors := some [2, 2, 2] }

/-- A ramp from half to full amplitude, over and over. It becomes a staircase of four holds at plain
volume, and one hold where it is loud. -/
def swell : Vibration Rat :=
  .stereo [(0, .pattern (.ofSegments [.ramp ⟨1 / 2, 1, 0, 0, 20⟩] (some 0)))]

theorem request_volume_swell :
    let s : Service Rat := opened (.bench [0]) { tuning := .standard }
    ((s.withVolume plain).request swell .touch default).1 = .ok 1 ∧
      ((s.withVolume loud).request swell .alarm default).1 = .ok 1 ∧
      ∃ es es',
        ((s.withVolume plain).request swell .touch default).2.waiting.getLast?.map (·.run) =
          some (.fresh ⟨1, default, (s.withVolume plain).tuning⟩ (.stereo es) s.rig s.rig.now) ∧
        ((s.withVolume loud).request swell .alarm default).2.waiting.getLast?.map (·.run) =
          some (.fresh ⟨1, default, (s.withVolume loud).tuning⟩ (.stereo es') s.rig s.rig.now) ∧
        List.Forall₂ (fun e e' => e.1 = e'.1 ∧ e.2.duration? = e'.2.duration? ∧
          e.2.repeats = e'.2.repeats) es es' := by
  intro s
  have hplain : ((s.withVolume plain).request swell .touch default).1 = .ok 1 := by
    decide +kernel
  obtain ⟨hsame, h⟩ := s.request_volume plain loud .touch .alarm swell default
  exact ⟨hplain, hsame.symm.trans hplain, h 1 hplain⟩

end Service
end Haptics
