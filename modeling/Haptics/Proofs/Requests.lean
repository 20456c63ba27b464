import Haptics.Level.Rational
import Haptics.Service
import Mathlib.Data.List.Nodup

/-!
# What a request comes to

The first actuator that is unknown or cannot play its effect decides the error of a request
(`Service.refusalOf?`). If there is none, the effects are prepared one for each actuator
(`Service.Prepared`). There are three ways a request can go (`Service.Requested`): it is refused and
leaves no trace, it finds the worker dead and uses up a number, or it is taken.
-/

namespace Haptics

variable {R : Type}

/-! ## One effect for each actuator -/

namespace Vibration

variable (a : ActuatorId) (e : Effect R)

theorem ids_setEntry (es : List (ActuatorId × Effect R)) :
    (setEntry a e es).map (·.1) =
      if a ∈ es.map (·.1) then es.map (·.1) else es.map (·.1) ++ [a] := by
  induction es with
  | nil => rfl
  | cons x xs ih =>
    unfold setEntry
    by_cases hx : x.1 = a
    · simp [hx]
    · rw [if_neg hx, List.map_cons, List.map_cons, ih]
      by_cases ha : a ∈ xs.map (·.1) <;> simp [ha, Ne.symm hx]

theorem mem_setEntry {es : List (ActuatorId × Effect R)} (hnodup : (es.map (·.1)).Nodup)
    {y : ActuatorId × Effect R} (hy : y ∈ setEntry a e es) : y = (a, e) ∨ y ∈ es ∧ y.1 ≠ a := by
  induction es with
  | nil => exact .inl (List.mem_singleton.mp hy)
  | cons x xs ih =>
    obtain ⟨hfresh, hnodup⟩ := List.nodup_cons.mp hnodup
    unfold setEntry at hy
    split at hy
    · rename_i hx
      refine (List.mem_cons.mp hy).imp_right fun hy => ⟨List.mem_cons_of_mem x hy, fun hya => ?_⟩
      apply hfresh
      exact List.mem_map.mpr ⟨y, hy, hya.trans hx.symm⟩
    · rename_i hx
      rcases List.mem_cons.mp hy with rfl | hy
      · exact .inr ⟨List.mem_cons_self, hx⟩
      · exact (ih hnodup hy).imp_right fun ⟨hy, hne⟩ => ⟨List.mem_cons_of_mem x hy, hne⟩

end Vibration

/-! ## What is playable -/

section
variable [Level R]

namespace Effect

/-- Whether an actuator plays an effect as it is. Vendor payloads are not looked into. -/
def playable (p : Profile R) : Effect R → Bool
  | pattern x => x.segments.all p.plays
  | vendor _ => true

theorem plays_resolve (p : Profile R) (default : R) (x : Segment R) :
    p.plays (x.resolve default) = p.plays x := by
  cases x <;> rfl

theorem playable_resolve (p : Profile R) (default : R) (e : Effect R) :
    (e.resolve default).playable p = e.playable p := by
  cases e with
  | vendor v => rfl
  | pattern x => simp [resolve, playable, Pattern.map, Function.comp_def, plays_resolve]

end Effect

theorem Fitting.playable_of_fit? {f : Fitting R} {p : Profile R} {e e' : Effect R}
    (h : f.fit? p e = some e') : e'.playable p = true := by
  cases e with
  | vendor v =>
    cases h
    rfl
  | pattern x =>
    unfold fit? at h
    dsimp only at h
    split at h
    · rename_i hplays
      cases h
      exact hplays
    · cases h

end

/-! ## Preparing the effects -/

namespace Service

variable [PerceptualLevel R] (s : Service R) (u : Usage)

/-- Why an actuator cannot play an effect, if it cannot. -/
def refusal? (x : ActuatorId × Effect R) : Option RequestError :=
  match s.rig.device? x.1 with
  | none => some (.unknownActuator x.1)
  | some d =>
    if (s.fitting.fit? d.control.profile (s.scaling.scale u x.2)).isSome then none
    else some (.unsupportedEffect x.1)

/-- What an actuator is given of an effect, if it can play it. -/
def fitted? (x : ActuatorId × Effect R) : Option (Effect R) :=
  (s.rig.device? x.1).bind fun d =>
    (s.fitting.fit? d.control.profile (s.scaling.scale u x.2)).map (·.resolve s.tuning.amplitude)

/-- Why a vibration is refused, if it is: it has no effect, or the first actuator that cannot play
its effect decides. -/
def refusalOf? (v : Vibration R) : Option RequestError :=
  if (v.expand s.rig.group.ids).isEmpty then some .emptyVibration
  else (v.expand s.rig.group.ids).findSome? (s.refusal? u)

/-- The effects that were prepared for a list of requested ones: one for each actuator, in the order
in which the actuators were named first. Of two effects for one actuator the later one counts. -/
structure Prepared (xs es : List (ActuatorId × Effect R)) : Prop where
  ids : es.map (·.1) = (xs.map (·.1)).eraseDups
  nodup : (es.map (·.1)).Nodup
  effect : ∀ y ∈ es, (xs.reverse.find? (·.1 == y.1)).bind (s.fitted? u) = some y.2

variable {s u}

theorem prepareEffect_of_refusal {x : ActuatorId × Effect R} {e : RequestError}
    (h : s.refusal? u x = some e) (v : Vibration R) : s.prepareEffect u v x = .error e := by
  unfold refusal? at h
  unfold prepareEffect
  cases hd : s.rig.device? x.1 with
  | none =>
    rw [hd] at h
    cases h
    rfl
  | some d =>
    rw [hd] at h
    cases hfit : s.fitting.fit? d.control.profile (s.scaling.scale u x.2) with
    | none =>
      simp only [hfit] at h ⊢
      cases h
      rfl
    | some e' => simp [hfit] at h

theorem exists_fitted {x : ActuatorId × Effect R} (h : s.refusal? u x = none) :
    ∃ e, s.fitted? u x = some e ∧ ∀ v, s.prepareEffect u v x = .ok (v.withActuator x.1 e) := by
  unfold refusal? at h
  unfold fitted? prepareEffect
  cases hd : s.rig.device? x.1 with
  | none =>
    rw [hd] at h
    cases h
  | some d =>
    rw [hd] at h
    cases hfit : s.fitting.fit? d.control.profile (s.scaling.scale u x.2) with
    | none => simp [hfit] at h
    | some e => exact ⟨e.resolve s.tuning.amplitude, by simp [hfit], fun v => by simp [hfit]⟩

/-- An effect that is given to an actuator passed its checks. -/
theorem playable_of_fitted? {x : ActuatorId × Effect R} {e : Effect R}
    (h : s.fitted? u x = some e) :
    ∃ d, s.rig.device? x.1 = some d ∧ e.playable d.control.profile = true := by
  obtain ⟨d, hd, h⟩ := Option.bind_eq_some_iff.mp h
  obtain ⟨e', hfit, rfl⟩ := Option.map_eq_some_iff.mp h
  exact ⟨d, hd, (Effect.playable_resolve ..).trans (Fitting.playable_of_fit? hfit)⟩

namespace Prepared

variable {xs es : List (ActuatorId × Effect R)}

theorem nil : s.Prepared u [] [] := ⟨rfl, List.nodup_nil, nofun⟩

/-- The requested effect behind a prepared one. -/
theorem source (H : s.Prepared u xs es) {y : ActuatorId × Effect R} (hy : y ∈ es) :
    ∃ x ∈ xs, x.1 = y.1 ∧ s.fitted? u x = some y.2 := by
  obtain ⟨x, hx, hfitted⟩ := Option.bind_eq_some_iff.mp (H.effect y hy)
  exact ⟨x, List.mem_reverse.mp (List.mem_of_find?_eq_some hx), by simpa using List.find?_some hx,
    hfitted⟩

/-- One more effect is prepared. -/
theorem concat (H : s.Prepared u xs es) {x : ActuatorId × Effect R} {e : Effect R}
    (h : s.fitted? u x = some e) : s.Prepared u (xs ++ [x]) (Vibration.setEntry x.1 e es) where
  ids := by
    rw [Vibration.ids_setEntry, H.ids, List.map_append, List.eraseDups_append]
    by_cases hx : x.1 ∈ xs.map (·.1) <;> simp [hx, List.removeAll, List.eraseDups_cons]
  nodup := by
    rw [Vibration.ids_setEntry]
    split
    · exact H.nodup
    · rename_i hx
      rw [← List.concat_eq_append]
      exact H.nodup.concat hx
  effect y hy := by
    rw [List.reverse_append, List.reverse_singleton, List.singleton_append, List.find?_cons]
    obtain rfl | ⟨hy, hne⟩ := Vibration.mem_setEntry x.1 e H.nodup hy
    · simpa using h
    · rw [beq_eq_false_iff_ne.mpr (Ne.symm hne)]
      exact H.effect y hy

end Prepared

/-- The first refusal ends the preparation. -/
theorem prepareEach_of_refusal {xs : List (ActuatorId × Effect R)} {e : RequestError}
    (h : xs.findSome? (s.refusal? u) = some e) (v : Vibration R) :
    xs.foldlM (s.prepareEffect u) v = .error e := by
  induction xs generalizing v with
  | nil => cases h
  | cons x xs ih =>
    rw [List.foldlM_cons]
    rw [List.findSome?_cons] at h
    cases hx : s.refusal? u x with
    | some e' =>
      rw [hx] at h
      cases h
      rw [prepareEffect_of_refusal hx]
      rfl
    | none =>
      rw [hx] at h
      obtain ⟨e', -, hprepare⟩ := exists_fitted hx
      rw [hprepare]
      exact ih h _

theorem prepareEach_prepared {xs done es : List (ActuatorId × Effect R)}
    (h : xs.findSome? (s.refusal? u) = none) (H : s.Prepared u done es) :
    ∃ es', xs.foldlM (s.prepareEffect u) (.stereo es) = .ok (.stereo es') ∧
      s.Prepared u (done ++ xs) es' := by
  induction xs generalizing done es with
  | nil => exact ⟨es, rfl, by rwa [List.append_nil]⟩
  | cons x xs ih =>
    rw [List.findSome?_cons] at h
    cases hx : s.refusal? u x with
    | some e => simp [hx] at h
    | none =>
      rw [hx] at h
      obtain ⟨e, hfitted, hprepare⟩ := exists_fitted hx
      obtain ⟨es', hfold, H'⟩ := ih h (H.concat hfitted)
      refine ⟨es', ?_, by simpa using H'⟩
      rw [List.foldlM_cons, hprepare]
      exact hfold

theorem prepare_of_refusal {v : Vibration R} {e : RequestError} (h : s.refusalOf? u v = some e) :
    s.prepare v u = .error e := by
  unfold refusalOf? at h
  unfold prepare
  split
  · -- A vibration that names no actuator has none to expand to either.
    rename_i hempty
    cases v with
    | mono m => cases hempty
    | stereo entries =>
      have hxs : (Vibration.expand s.rig.group.ids (.stereo entries)).isEmpty = true := hempty
      rw [if_pos hxs] at h
      cases h
      rfl
  · split at h
    · rename_i hxs
      cases h
      rw [List.isEmpty_iff.mp hxs]
      rfl
    · rw [prepareEach_of_refusal h]

theorem prepare_prepared {v : Vibration R} (h : s.refusalOf? u v = none) :
    ∃ es, s.prepare v u = .ok (.stereo es) ∧ s.Prepared u (v.expand s.rig.group.ids) es := by
  unfold refusalOf? at h
  split at h
  · cases h
  · rename_i hxs
    obtain ⟨es, hfold, H⟩ := prepareEach_prepared h .nil
    rw [List.nil_append] at H
    have hv : v.isEmpty = false := by
      cases v with
      | mono m => rfl
      | stereo entries => exact Bool.eq_false_iff.mpr hxs
    have hes : (Vibration.stereo es).isEmpty = false := by
      refine Bool.eq_false_iff.mpr fun hes => hxs ?_
      have hids := H.ids
      rw [List.isEmpty_iff.mp hes] at hids
      cases hx : v.expand s.rig.group.ids with
      | nil => rfl
      | cons x xs => simp [hx, List.eraseDups_cons] at hids
    refine ⟨es, ?_, H⟩
    unfold prepare
    rw [hv, hfold]
    simp [hes]

/-! ## The ways a request can go -/

omit [PerceptualLevel R] in
/-- The service with one more vibration for the worker, under the next number. -/
def enqueue (s : Service R) (caller : Caller) (v : Vibration R) : Service R :=
  { s with
    nextId := s.nextId + 1
    waiting := s.waiting ++ [.fresh ⟨s.nextId, caller, s.tuning⟩ v s.rig]
    accepted := s.accepted ++ [s.nextId] }

/-- What a request comes to: its answer and the service afterwards. -/
inductive Requested (s : Service R) (v : Vibration R) (u : Usage) (caller : Caller) :
    Except RequestError Nat × Service R → Prop
  /-- An actuator cannot play its part: nothing happens. -/
  | refused {e} (refusal : s.refusalOf? u v = some e) : Requested s v u caller (.error e, s)
  /-- The worker is dead: the number is used up. -/
  | stopped (refusal : s.refusalOf? u v = none) (dead : s.workerAlive = false) :
    Requested s v u caller (.error .workerStopped, { s with nextId := s.nextId + 1 })
  /-- The vibration is queued and the one before it is cancelled. -/
  | taken {es} (refusal : s.refusalOf? u v = none) (alive : s.workerAlive = true)
      (prepared : s.Prepared u (v.expand s.rig.group.ids) es) :
    Requested s v u caller
      (.ok s.nextId, (s.enqueue caller (.stereo es)).supersede s.nextId)

theorem request_requested (s : Service R) (v : Vibration R) (u : Usage) (caller : Caller) :
    s.Requested v u caller (s.request v u caller) := by
  unfold request
  cases hrefusal : s.refusalOf? u v with
  | some e =>
    rw [prepare_of_refusal hrefusal]
    exact .refused hrefusal
  | none =>
    obtain ⟨es, hprepare, H⟩ := prepare_prepared hrefusal
    rw [hprepare]
    unfold allocate submit
    dsimp only
    by_cases halive : s.workerAlive = true
    · rw [if_pos halive]
      exact .taken hrefusal halive H
    · rw [if_neg halive]
      exact .stopped hrefusal (Bool.eq_false_iff.mpr halive)

theorem refusalOf?_ne {s : Service R} {u : Usage} {v : Vibration R} :
    s.refusalOf? u v ≠ some .workerStopped := by
  intro h
  unfold refusalOf? at h
  split at h
  · cases h
  · obtain ⟨x, -, hx⟩ := List.exists_of_findSome?_eq_some h
    unfold refusal? at hx
    split at hx
    · cases hx
    · split at hx <;> cases hx

end Service

/-! ## Levels to compute requests with -/

/-- Rational levels with rational functions in place of the two that are not. -/
instance : PerceptualLevel Rat where
  pow x _ := x
  exp x := 1 + x

end Haptics
