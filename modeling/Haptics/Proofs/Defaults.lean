import Haptics.Proofs.Volume

/-!
# What the device default amplitude comes to

A request resolves the device default amplitude twice: in the effect before it is fitted, and in
what the fallback compositions put into it. In between, an actuator with ramps is given flat ramps
for the holds that state a frequency, and a ramp has to say how strong it is. There the device
default counts as full scale (`Profile.meant`), whatever the device is configured with. Everywhere
else a fallback composition means the configured level (`Service.defaults_meant`).
-/

namespace Haptics

variable {R : Type}

namespace Table

variable {κ α β : Type} [DecidableEq κ]

omit [DecidableEq κ] in
def map (f : α → β) (t : Table κ α) : Table κ β := ⟨t.entries.map fun e => (e.1, f e.2)⟩

theorem find?_map (f : α → β) (t : Table κ α) (k : κ) : (t.map f).find? k = (t.find? k).map f := by
  simp [find?, map, List.find?_map, Function.comp_def]

end Table

theorem Pattern.ofSegments_map (g : Segment R → Segment R) (xs : List (Segment R))
    (loopStart : Option Nat) :
    ofSegments (xs.map g) loopStart = (ofSegments xs loopStart).map g := by
  simp [ofSegments, map]

/-! ## Effects that state their amplitudes -/

namespace Segment

def usesDefault : Segment R → Bool
  | hold ⟨.deviceDefault, _, _⟩ => true
  | _ => false

section
variable (x : Segment R)

@[simp] theorem usesDefault_resolve (default : R) : (x.resolve default).usesDefault = false := by
  cases x with
  | hold h => cases h with | mk a hz ms => cases a <;> rfl
  | _ => rfl

@[simp] theorem usesDefault_withStrength (strength : Strength) :
    (x.withStrength strength).usesDefault = x.usesDefault := by
  cases x <;> rfl

@[simp] theorem usesDefault_mapAmplitudes (f : R → R) :
    (x.mapAmplitudes f).usesDefault = x.usesDefault := by
  cases x with
  | hold h => cases h with | mk a hz ms => cases a <;> rfl
  | _ => rfl

end

theorem resolve_eq_self {x : Segment R} (h : x.usesDefault = false) (default : R) :
    x.resolve default = x := by
  cases x with
  | hold k =>
    cases k with | mk a hz ms =>
    cases a with
    | deviceDefault => cases h
    | level => rfl
  | _ => rfl

theorem map_resolve_eq_self {xs : List (Segment R)} (h : ∀ x ∈ xs, x.usesDefault = false)
    (default : R) : xs.map (·.resolve default) = xs :=
  (List.map_congr_left fun x hx => resolve_eq_self (h x hx) default).trans (List.map_id' xs)

end Segment

namespace Effect

def usesDefault : Effect R → Bool
  | pattern x => x.segments.any Segment.usesDefault
  | vendor _ => false

theorem usesDefault_resolve (default : R) (e : Effect R) :
    (e.resolve default).usesDefault = false := by
  cases e with
  | vendor v => rfl
  | pattern x => simp [resolve, usesDefault]

/-- Scaling resolves the device default first. -/
theorem usesDefault_scale [PerceptualLevel R] (s : Scaling R) (u : Usage) (e : Effect R) :
    (s.scale u e).usesDefault = false := by
  cases e with
  | vendor v =>
    unfold Scaling.scale
    dsimp only
    split <;> rfl
  | pattern x =>
    unfold Scaling.scale
    dsimp only
    split <;>
      simp [resolve, withStrength, scale, scaleLinearly, scaleWith, scaleAdaptively, usesDefault]

end Effect

/-! ## What fitting takes the device default for -/

section
variable [Level R]

/-- The flat ramp that an actuator with ramps is given for a hold. -/
def Hold.flat (h : Hold R) (amplitude : R) : Sweep R := ⟨amplitude, amplitude, h.hz, h.hz, h.ms⟩

namespace Profile

/-- Whether an actuator is given a flat ramp for a hold of some frequency. -/
def draws (p : Profile R) (hz : R) : Bool := p.can .composeRamps && !(hz == 0)

/-- A segment with the amplitude that fitting takes the device default for, where it is followed by
a resolution. -/
def meant (p : Profile R) (default : R) : Segment R → Segment R
  | .hold h => if p.draws h.hz then .hold { h with amplitude := .level h.amplitude.value }
    else (Segment.hold h).resolve default
  | x => x

section
variable (p : Profile R) (default : R)

theorem meant_eq_self {x : Segment R} (h : x.usesDefault = false) : p.meant default x = x := by
  cases x with
  | hold k =>
    cases k with | mk a hz ms =>
    cases a with
    | deviceDefault => cases h
    | level => exact ite_self _
  | _ => rfl

theorem plays_meant (x : Segment R) : p.plays (p.meant default x) = p.plays x := by
  cases x with
  | hold h =>
    unfold meant
    dsimp only
    split <;> rfl
  | _ => rfl

end

end Profile

namespace Pass

variable (p : Profile R)

omit [Level R] in
/-- A pass that leaves no default amplitudes to what states its own. -/
def States (pass : Pass R) : Prop :=
  ∀ x, x.usesDefault = false → ∀ y ∈ pass x, y.usesDefault = false

omit [Level R] in
theorem States.flatMap {pass : Pass R} (h : pass.States) {xs : List (Segment R)}
    (hxs : ∀ x ∈ xs, x.usesDefault = false) : ∀ y ∈ xs.flatMap pass, y.usesDefault = false := by
  intro y hy
  obtain ⟨x, hx, hy⟩ := List.mem_flatMap.mp hy
  exact h x (hxs x hx) y hy

omit [Level R] in
/-- Passes that make one list and as many segments of each are the same on it. -/
theorem eq_of_flatMap_eq {pass pass' : Pass R} {xs : List (Segment R)}
    (hlength : ∀ x, (pass x).length = (pass' x).length) (h : xs.flatMap pass = xs.flatMap pass') :
    ∀ x ∈ xs, pass x = pass' x := by
  induction xs with
  | nil => nofun
  | cons x xs ih =>
    rw [List.flatMap_cons, List.flatMap_cons] at h
    obtain ⟨hx, hxs⟩ := List.append_inj h (hlength x)
    exact List.forall_mem_cons.mpr ⟨hx, ih hxs⟩

theorem states_rampToHolds (step : Nat) : (rampToHolds step p).States := by
  intro x hx y hy
  cases x with
  | ramp s =>
    unfold rampToHolds staircase at hy
    dsimp only at hy
    split at hy
    · cases List.mem_singleton.mp hy
      rfl
    · split at hy
      · cases List.mem_singleton.mp hy
        rfl
      · obtain ⟨i, -, rfl⟩ := List.mem_map.mp hy
        rfl
  | _ =>
    cases List.mem_singleton.mp hy
    exact hx

theorem states_holdToRamp : (holdToRamp p).States := by
  intro x hx y hy
  cases x with
  | hold h =>
    unfold holdToRamp at hy
    dsimp only at hy
    split at hy
    · cases List.mem_singleton.mp hy
      rfl
    · cases List.mem_singleton.mp hy
      exact hx
  | _ =>
    cases List.mem_singleton.mp hy
    exact hx

theorem states_shortenRamps : (shortenRamps p).States := by
  intro x hx y hy
  cases x with
  | ramp s =>
    unfold shortenRamps at hy
    dsimp only at hy
    split at hy
    · obtain ⟨s, rfl⟩ := exists_ramp_of_mem_split hy
      rfl
    · cases List.mem_singleton.mp hy
      rfl
  | _ =>
    cases List.mem_singleton.mp hy
    exact hx

end Pass

namespace Fitting

section
variable (p : Profile R) (step : Nat)

theorem states_refine : (refine p step).States := by
  intro x hx
  have hone : ∀ y ∈ [x], y.usesDefault = false := by simpa using hx
  exact (Pass.states_shortenRamps p).flatMap ((Pass.states_holdToRamp p).flatMap
    ((Pass.states_rampToHolds p step).flatMap hone))

/-- What becomes of a hold does not depend on the length of a step. -/
theorem refine_hold (h : Hold R) : refine p step (.hold h) =
    if p.draws h.hz then Pass.shortenRamps p (.ramp (h.flat h.amplitude.value)) else [.hold h] := by
  have hramp : Pass.holdToRamp p (.hold h) =
      if p.draws h.hz then [.ramp (h.flat h.amplitude.value)] else [.hold h] := by
    simp [Pass.holdToRamp, Profile.draws, Hold.flat]
  have hpass : refine p step (.hold h) =
      (Pass.holdToRamp p (.hold h)).flatMap (Pass.shortenRamps p) := by
    show ((([Segment.hold h].flatMap _).flatMap _).flatMap _ : List (Segment R)) = _
    rw [List.flatMap_singleton]
    exact congrArg _ (List.flatMap_singleton ..)
  rw [hpass, hramp]
  split
  · exact List.flatMap_singleton ..
  · rfl

/-- Resolving what becomes of a segment is to resolve what fitting takes it for. -/
theorem refine_meant (default : R) (x : Segment R) :
    refine p step (p.meant default x) = (refine p step x).map (·.resolve default) := by
  by_cases hx : x.usesDefault = true
  · cases x with
    | hold h =>
      unfold Profile.meant
      dsimp only
      split
      · rename_i hdraws
        have hramps : ∀ y ∈ Pass.shortenRamps p (.ramp (h.flat h.amplitude.value)),
            y.usesDefault = false := Pass.states_shortenRamps p _ rfl
        rw [refine_hold, refine_hold, if_pos hdraws, if_pos hdraws,
          Segment.map_resolve_eq_self hramps]
        rfl
      · rename_i hdraws
        unfold Segment.resolve
        rw [refine_hold, refine_hold, if_neg hdraws, if_neg hdraws]
        rfl
    | _ => cases hx
  · have hx := Bool.eq_false_iff.mpr hx
    rw [p.meant_eq_self default hx, Segment.map_resolve_eq_self (states_refine p step x hx)]

/-- Whether the device default is taken for the configured level or not, a hold becomes as many
segments. -/
theorem length_refine_meant (default : R) {x : Segment R} :
    (refine p step (p.meant default x)).length =
      (refine p step (x.resolve default)).length := by
  cases x with
  | hold h =>
    have hresolve : (Segment.hold h).resolve default =
        .hold { h with amplitude := h.amplitude.resolve default } := rfl
    unfold Profile.meant
    dsimp only
    split
    · rename_i hdraws
      rw [hresolve, refine_hold, refine_hold, if_pos hdraws, if_pos hdraws]
      unfold Pass.shortenRamps
      dsimp only [Hold.flat]
      split
      · simp [Pass.split]
      · rfl
    · rfl
  | _ => rfl

/-- Full scale and the configured level make a difference in ramps only. -/
theorem refine_meant_eq_iff (default : R) (x : Segment R) :
    refine p step (p.meant default x) = refine p step (x.resolve default) ↔
      ∀ h, x = .hold h → h.amplitude = .deviceDefault → p.draws h.hz = true →
        Pass.shortenRamps p (.ramp (h.flat 1)) = Pass.shortenRamps p (.ramp (h.flat default)) := by
  by_cases hx : x.usesDefault = true
  · cases x with
    | hold h =>
      obtain ⟨a, hz, ms⟩ := h
      cases a with
      | level a => cases hx
      | deviceDefault =>
        unfold Profile.meant Segment.resolve
        dsimp only
        by_cases hdraws : p.draws hz = true
        · rw [if_pos hdraws, refine_hold, refine_hold, if_pos hdraws, if_pos hdraws]
          constructor
          · rintro heq h ⟨⟩ - -
            exact heq
          · intro h
            exact h ⟨.deviceDefault, hz, ms⟩ rfl rfl hdraws
        · rw [if_neg hdraws]
          refine iff_of_true rfl ?_
          rintro h ⟨⟩ - hdraws'
          exact absurd hdraws' hdraws
    | _ => cases hx
  · have hstates := Bool.eq_false_iff.mpr hx
    rw [p.meant_eq_self default hstates, Segment.resolve_eq_self hstates]
    refine iff_of_true rfl ?_
    rintro ⟨a, hz, ms⟩ rfl rfl
    exact absurd rfl hx

end

/-! ## Resolving the fallback compositions -/

variable (f : Fitting R) (p : Profile R) (g : Segment R → Segment R)

/-- A fitting whose fallback compositions are changed segment by segment. -/
def mapFallbacks : Fitting R := { f with fallbacks := f.fallbacks.map (·.map g) }

/-- A fitting whose fallback compositions state the default amplitude. -/
def resolve (default : R) : Fitting R := f.mapFallbacks (·.resolve default)

variable {g} in
omit [Level R] in
theorem fallback_mapFallbacks {x : Segment R} (hx : g x = x) :
    Pass.fallback (f.mapFallbacks g).fallbacks p x = (Pass.fallback f.fallbacks p x).map g := by
  cases x with
  | prebaked b =>
    unfold Pass.fallback
    dsimp only [mapFallbacks]
    split
    · rw [Table.find?_map]
      cases f.fallbacks.find? b.effect with
      | none => simp [hx]
      | some ys => rfl
    · simp [hx]
  | _ => simp [Pass.fallback, hx]

variable {g} in
theorem image_mapFallbacks {x : Segment R} (hx : g x = x) : (f.mapFallbacks g).image p x =
    (Pass.fallback f.fallbacks p x).flatMap fun y => refine p f.step (g y) := by
  unfold image
  rw [f.fallback_mapFallbacks p hx, List.flatMap_map]
  rfl

variable {f p g} {f' : Fitting R} {x : Pattern R}

/-- Where what becomes of each segment changes, so does what becomes of a pattern. -/
theorem fitted_map (h : ∀ y ∈ x.segments, f'.image p y = (f.image p y).map g) :
    f'.fitted p x = (f.fitted p x).map g := by
  have himage (ys : List (Segment R)) (hys : ∀ y ∈ ys, y ∈ x.segments) :
      ys.flatMap (f'.image p) = (ys.flatMap (f.image p)).map g := by
    rw [List.map_flatMap]
    exact List.flatMap_congr fun y hy => h y (hys y hy)
  have hall := himage x.segments fun _ hy => hy
  have hloop : (f'.fitSegments p x.segments x.loopStart).2 =
      (f.fitSegments p x.segments x.loopStart).2 := by
    cases hr : x.loopStart with
    | none => rw [fitSegments_none, fitSegments_none]
    | some r =>
      have hlt := x.loopStart_lt r hr
      rw [f'.fitSegments_take p hlt, f.fitSegments_take p hlt, hall,
        himage _ fun _ => List.mem_of_mem_take]
      simp only [List.length_map]
  unfold fitted
  rw [f'.through_passes, f.through_passes, hall, hloop, Pattern.ofSegments_map]

theorem all_plays_mapFallbacks (hg : ∀ y, p.plays (g y) = p.plays y)
    (hx : ∀ y ∈ x.segments, g y = y) :
    (Pass.through ((f.mapFallbacks g).passes p) x.segments).all p.plays =
      (Pass.through (f.passes p) x.segments).all p.plays := by
  have hfallbacks : x.segments.flatMap (Pass.fallback (f.mapFallbacks g).fallbacks p) =
      (x.segments.flatMap (Pass.fallback f.fallbacks p)).map g := by
    rw [List.map_flatMap]
    exact List.flatMap_congr fun y hy => f.fallback_mapFallbacks p (hx y hy)
  rw [all_plays_through, all_plays_through, hfallbacks, List.all_map]
  exact congrArg _ (funext hg)

theorem segments_fitted_mapFallbacks (hx : ∀ y ∈ x.segments, g y = y) :
    ((f.mapFallbacks g).fitted p x).segments =
      (x.segments.flatMap (Pass.fallback f.fallbacks p)).flatMap fun y =>
        refine p f.step (g y) := by
  show Pass.through _ x.segments = _
  rw [through_passes, List.flatMap_assoc]
  exact List.flatMap_congr fun y hy => f.image_mapFallbacks p (hx y hy)

/-- What is known of a pattern that states its amplitudes, fitted and then resolved. -/
structure Resolution (f : Fitting R) (p : Profile R) (default : R) (x : Pattern R) : Prop where
  /-- The device default counts as full scale in holds that become ramps, and nowhere else. -/
  meant : (f.fit? p (.pattern x)).map (·.resolve default) =
    (f.mapFallbacks (p.meant default)).fit? p (.pattern x)
  /-- So it is the configured level exactly if that does not show in these ramps. -/
  configured_iff :
    (f.fit? p (.pattern x)).map (·.resolve default) = (f.resolve default).fit? p (.pattern x) ↔
      f.fit? p (.pattern x) = none ∨
        ∀ h, .hold h ∈ x.segments.flatMap (Pass.fallback f.fallbacks p) →
          h.amplitude = .deviceDefault → p.draws h.hz = true →
            Pass.shortenRamps p (.ramp (h.flat 1)) = Pass.shortenRamps p (.ramp (h.flat default))
  /-- In a ramp that is not cut it always shows, unless the configured level is full scale. -/
  full_iff : ∀ h : Hold R, p.rampMsMax = 0 ∨ h.ms ≤ p.rampMsMax →
    (Pass.shortenRamps p (.ramp (h.flat 1)) = Pass.shortenRamps p (.ramp (h.flat default)) ↔
      default = 1)

section
variable (states : ∀ y ∈ x.segments, y.usesDefault = false) (default : R)
include states

theorem fitted_meant : (f.mapFallbacks (p.meant default)).fitted p x =
    (f.fitted p x).map (·.resolve default) := by
  refine fitted_map fun y hy => ?_
  rw [f.image_mapFallbacks p (p.meant_eq_self default (states y hy)), image, List.map_flatMap]
  exact List.flatMap_congr fun z _ => refine_meant p f.step default z

theorem fit?_meant : (f.fit? p (.pattern x)).map (·.resolve default) =
    (f.mapFallbacks (p.meant default)).fit? p (.pattern x) := by
  have hplays := all_plays_mapFallbacks (f := f) (p.plays_meant default)
    fun y hy => p.meant_eq_self default (states y hy)
  rw [fit?_pattern, fit?_pattern, hplays, fitted_meant states]
  split <;> rfl

/-- The configured level is what is meant, exactly if that does not show in any segment. -/
theorem fitted_resolve_iff :
    (f.fitted p x).map (·.resolve default) = (f.resolve default).fitted p x ↔
      ∀ y ∈ x.segments.flatMap (Pass.fallback f.fallbacks p),
        refine p f.step (p.meant default y) = refine p f.step (y.resolve default) := by
  have hmeant (y) (hy : y ∈ x.segments) := p.meant_eq_self default (states y hy)
  have hresolve (y) (hy : y ∈ x.segments) := Segment.resolve_eq_self (states y hy) default
  constructor
  · intro h
    have hsegments := congrArg Pattern.segments h
    rw [← fitted_meant states, segments_fitted_mapFallbacks hmeant, resolve,
      segments_fitted_mapFallbacks hresolve] at hsegments
    exact Pass.eq_of_flatMap_eq (fun y => length_refine_meant p f.step default) hsegments
  · intro h
    refine (fitted_map fun y hy => ?_).symm
    rw [resolve, f.image_mapFallbacks p (hresolve y hy), image, List.map_flatMap]
    refine List.flatMap_congr fun z hz => ?_
    rw [← h z (List.mem_flatMap.mpr ⟨y, hy, hz⟩), refine_meant]

theorem resolution : f.Resolution p default x where
  meant := fit?_meant states default
  configured_iff := by
    have hplays := all_plays_mapFallbacks (f := f) (p := p) (x := x)
      (fun y => Effect.plays_resolve p default y)
      fun y hy => Segment.resolve_eq_self (states y hy) default
    have hiff := fitted_resolve_iff (f := f) (p := p) states default
    rw [fit?_pattern, resolve, fit?_pattern, hplays]
    split
    · rw [Option.map_some, Option.some_inj, Effect.resolve, Effect.pattern.injEq]
      simp only [reduceCtorEq, false_or]
      refine hiff.trans ⟨fun h k hk => ?_, fun h y hy => ?_⟩
      · exact (refine_meant_eq_iff p f.step default _).mp (h _ hk) k rfl
      · refine (refine_meant_eq_iff p f.step default y).mpr ?_
        rintro k rfl
        exact h k hy
    · exact iff_of_true rfl (.inl rfl)
  full_iff h hshort := by
    have hkeep (a : R) : Pass.shortenRamps p (.ramp (h.flat a)) = [.ramp (h.flat a)] :=
      if_neg fun hcut => hshort.elim hcut.2.1 (Nat.not_le_of_lt hcut.2.2)
    rw [hkeep, hkeep]
    simp [Hold.flat, eq_comm]

end

end Fitting
end

/-! ## Requests -/

namespace Service

variable [PerceptualLevel R]

/-- What an actuator is given of an effect, with the amplitudes that fitting takes the device
default for in place of it. -/
theorem fit?_of_fitted? {s : Service R} {u : Usage} {x : ActuatorId × Effect R} {e : Effect R}
    (h : s.fitted? u x = some e) : e.usesDefault = false ∧ ∃ d, s.rig.device? x.1 = some d ∧
      (s.fitting.mapFallbacks (d.control.profile.meant s.tuning.amplitude)).fit? d.control.profile
        (s.scaling.scale u x.2) = some e := by
  obtain ⟨d, hd, hfit⟩ := Option.bind_eq_some_iff.mp h
  have hstates := Effect.usesDefault_scale s.scaling u x.2
  refine ⟨?_, d, hd, ?_⟩
  · obtain ⟨e', -, rfl⟩ := Option.map_eq_some_iff.mp hfit
    exact Effect.usesDefault_resolve ..
  · cases hscaled : s.scaling.scale u x.2 with
    | vendor v =>
      rw [hscaled] at hfit
      exact hfit
    | pattern y =>
      rw [hscaled] at hfit hstates
      rw [← Fitting.fit?_meant (by simpa [Effect.usesDefault] using hstates)]
      exact hfit

/-- **The device default means full scale in ramps.** A pattern that states its amplitudes, fitted
and then resolved, is what fitting makes of it when the fallback compositions are resolved first: to
full scale in the holds that become ramps, and to the configured level in all others. So the
configured level is what is meant exactly if no such hold shows the difference. And no effect that
is handed to the worker is left with the device default. -/
theorem defaults_meant :
    (∀ (f : Fitting R) (p : Profile R) (default : R) (x : Pattern R),
      (Effect.pattern x).usesDefault = false → f.Resolution p default x) ∧
    ∀ (s : Service R) (v : Vibration R) (u : Usage) (caller : Caller) (id : Nat),
      let r := s.request v u caller
      r.1 = .ok id → ∃ es,
        r.2.waiting.getLast?.map (·.run) =
          some (.fresh ⟨id, caller, s.tuning⟩ (.stereo es) s.rig s.rig.now) ∧
        ∀ e ∈ es, e.2.usesDefault = false ∧
          ∃ y d, (e.1, y) ∈ v.expand s.rig.group.ids ∧ s.rig.device? e.1 = some d ∧
            (s.fitting.mapFallbacks (d.control.profile.meant s.tuning.amplitude)).fit?
              d.control.profile (s.scaling.scale u y) = some e.2 := by
  refine ⟨fun f p default x hx => ?_, fun s v u caller id => ?_⟩
  · exact Fitting.resolution (by simpa [Effect.usesDefault] using hx) default
  · intro r
    have h : s.Requested v u caller r := s.request_requested v u caller
    clear_value r
    intro hid
    cases h with
    | refused => cases hid
    | stopped => cases hid
    | @taken es _ _ prepared =>
      cases hid
      refine ⟨es, last_supersede s caller _, fun e he => ?_⟩
      obtain ⟨⟨a, y⟩, hy, rfl, hfitted⟩ := prepared.source he
      obtain ⟨hstates, d, hd, hfit⟩ := fit?_of_fitted? hfitted
      exact ⟨hstates, y, d, hy, hd, hfit⟩

/-- A device on which a tick is a hum at the default amplitude. -/
def humming : Fitting Rat := ⟨⟨[(⟨2⟩, [.hold ⟨.deviceDefault, 100, 20⟩])]⟩, 10⟩

/-- A tick, as an application asks for it. -/
def tick : Pattern Rat := .ofSegments [.prebaked ⟨⟨2⟩, .medium, true⟩] none

/-- An actuator without stored effects that plays ramps or does not. -/
def hummer (ramps : Bool) : Profile Rat :=
  { Profile.degraded 0 with
    capabilities := if ramps then .ofList [.composeRamps] else .empty
    effects := some {} }

/-- Without ramps the hum is as loud as configured, and a request for it is taken. -/
theorem defaults_meant_hum :
    (humming.fit? (hummer false) (.pattern tick)).map (·.resolve (1 / 5)) =
      (humming.resolve (1 / 5)).fit? (hummer false) (.pattern tick) ∧
    let s : Service Rat := opened (.bench [0]) { tuning := .standard }
    let r := s.request (.mono (.pattern tick)) .touch default
    r.1 = .ok 1 ∧ ∃ es, r.2.waiting.getLast?.map (·.run) =
        some (.fresh ⟨1, default, s.tuning⟩ (.stereo es) s.rig s.rig.now) ∧
      ∀ e ∈ es, e.2.usesDefault = false := by
  obtain ⟨hfit, hrequest⟩ := defaults_meant (R := Rat)
  refine ⟨?_, ?_⟩
  · refine (hfit humming (hummer false) (1 / 5) tick rfl).configured_iff.mpr (.inr ?_)
    intro h _ _ hdraws
    cases hdraws
  · intro s r
    have hid : r.1 = .ok 1 := by decide +kernel
    obtain ⟨es, hrun, hes⟩ := hrequest s (.mono (.pattern tick)) .touch default 1 hid
    exact ⟨hid, es, hrun, fun e he => (hes e he).1⟩

/-- With ramps the hum plays at full scale, although the device is configured to a fifth. -/
theorem hum_at_full_scale :
    (Effect.pattern tick).usesDefault = false ∧
      (humming.fit? (hummer true) (.pattern tick)).map (·.resolve (1 / 5)) =
        some (.pattern (.ofSegments [.ramp ⟨1, 1, 100, 100, 20⟩] none)) ∧
      (humming.resolve (1 / 5)).fit? (hummer true) (.pattern tick) =
        some (.pattern (.ofSegments [.ramp ⟨1 / 5, 1 / 5, 100, 100, 20⟩] none)) ∧
      (humming.fit? (hummer true) (.pattern tick)).map (·.resolve (1 / 5)) ≠
        (humming.resolve (1 / 5)).fit? (hummer true) (.pattern tick) := by
  have hcode : (humming.fit? (hummer true) (.pattern tick)).map (·.resolve (1 / 5)) =
      some (.pattern (.ofSegments [.ramp ⟨1, 1, 100, 100, 20⟩] none)) := rfl
  have hclaim : (humming.resolve (1 / 5)).fit? (hummer true) (.pattern tick) =
      some (.pattern (.ofSegments [.ramp ⟨1 / 5, 1 / 5, 100, 100, 20⟩] none)) := rfl
  refine ⟨rfl, hcode, hclaim, ?_⟩
  have hlevels : (1 : Rat) ≠ 1 / 5 := by decide +kernel
  rw [hcode, hclaim]
  intro hsame
  have hsegments := congrArg Pattern.segments (Effect.pattern.inj (Option.some.inj hsame))
  have hramp := Segment.ramp.inj (List.cons.inj hsegments).1
  exact hlevels (congrArg Sweep.startAmplitude hramp)

end Service

end Haptics
