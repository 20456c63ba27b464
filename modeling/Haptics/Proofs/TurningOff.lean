import Haptics.Proofs.Telemetry

/-!
# Turning actuators off

As long as an actuator is on, a step of it is in the queue, and that step turns it off when it is
played or cancelled gracefully. The exception is an immediate cancel: it stops an actuator only if
one of its steps turns off anyway or still waits for a report. A run that is over leaves an actuator
on exactly if such a cancel abandoned it (`Run.left_on_iff`).
-/

namespace Haptics

variable {R : Type}

/-! ## Signs that an actuator is on -/

/-- An actuator was driven with success in the course of a vibration, and is active. -/
def Stage.Lit (a : ActuatorId) (s : Stage R) : Prop :=
  (∃ n, 0 < n ∧ (a, n) ∈ Deed.drives s.history) ∧ s.rig.isActive a = true

/-- The last successful drive of an actuator was not followed by a stop. -/
def Stage.LeftOn (a : ActuatorId) (s : Stage R) : Prop := Deed.leftOn a s.history = true

section
variable [Level R]

/-- What the argument needs to know about a sign that an actuator is on: only steps of the actuator
turn it on, and stopping the actuator turns it off. -/
structure Stage.Sign (a : ActuatorId) (P : Stage R → Prop) : Prop where
  others : ∀ {b ds} {s t : Stage R}, b ≠ a → s.Does b ds t → P t → P s
  stop : ∀ {s : Stage R} {l : Lane}, l.actuator = a → ¬P (s.stop l)
  tell : ∀ {s : Stage R} {t}, P (s.tell t) → P s
  renumber : ∀ {s : Stage R} {k}, P { s with nextStep := k } → P s
  opens : ∀ {s : Stage R} {plan v}, s.history = [] → P (s.openVibration plan v).stage →
    .lane a ∈ (s.openVibration plan v).next.map Step.part
  tearDown : ∀ {s : Stage R} {plan xs}, P (s.tearDown plan xs) ↔
    P s ∧ ∀ x ∈ xs, Step.stops s.now a x = false

end

namespace Deed

theorem leftOn_append_of_off {a : ActuatorId} {h : List (Deed R)} (off : leftOn a h = false)
    (ds : List (Deed R)) : leftOn a (h ++ ds) = leftOn a ds := by
  unfold leftOn at off ⊢
  rw [List.foldl_append, off]

theorem leftOn_append_of_neutral {a : ActuatorId} {ds : List (Deed R)}
    (neutral : ∀ d ∈ ds, d.turns? a = none) (h : List (Deed R)) :
    leftOn a (h ++ ds) = leftOn a h := by
  induction ds generalizing h with
  | nil => rw [List.append_nil]
  | cons d ds ih =>
    rw [List.append_cons, ih fun e he => neutral e (List.mem_cons_of_mem d he), leftOn_concat,
      neutral d List.mem_cons_self]
    rfl

theorem Asks.neutral {g : Group} {required : Flags GroupCapability} {ids : List ActuatorId}
    {prepared : Bool} {asked : List (Deed R)} (A : Asks g required ids prepared asked)
    (a : ActuatorId) : ∀ d ∈ asked, d.turns? a = none := by
  cases A <;> simp [turns?]

theorem Settles.neutral {due : Prop} {prepared : Bool} {settled : List (Deed R)}
    (S : Settles due prepared settled) (a : ActuatorId) : ∀ d ∈ settled, d.turns? a = none := by
  cases S <;> simp [turns?]

end Deed

section
variable [Level R]

/-- What the opening step drives and does not turn off again has a step in the queue. -/
theorem Stage.held_openVibration {s : Stage R} {a : ActuatorId} {n : Int} (plan : Plan R)
    (v : Vibration R) (history : s.history = []) (pos : 0 < n)
    (h : (a, n) ∈ Deed.drives (s.openVibration plan v).stage.history) :
    .lane a ∈ (s.openVibration plan v).next.map Step.part ∨
      ¬(s.openVibration plan v).stage.LeftOn a ∧
        (s.openVibration plan v).stage.rig.isActive a = false := by
  obtain ⟨prepared, asked, driven, undone, settled, H⟩ := s.openAll_starts plan (s.effects v)
  have hdriven : (a, n) ∈ Deed.drives driven := by
    rwa [drives_openVibration, H.drives, history, Deed.drives_nil, List.nil_append] at h
  obtain ⟨told, hhistory, htells⟩ := s.history_openVibration_tells plan v
  rw [H.history, history, List.nil_append] at hhistory
  rcases H.held a n hdriven pos with h | ⟨hoff, hactive⟩
  · rw [next_openVibration, List.map_append]
    exact .inl (List.mem_append_left _ h)
  · refine .inr ⟨?_, by rw [rig_openVibration]; exact hactive⟩
    have htold : ∀ d ∈ settled ++ told, d.turns? a = none := fun d hd => by
      rcases List.mem_append.mp hd with hd | hd
      · exact H.settles.neutral a d hd
      · obtain ⟨t, rfl⟩ := htells d hd
        rfl
    have hasked : Deed.leftOn a asked = false := Deed.leftOn_append_of_neutral (H.asks.neutral a) []
    rw [LeftOn, hhistory, List.append_assoc, Deed.leftOn_append_of_neutral htold,
      List.append_assoc, Deed.leftOn_append_of_off hasked, hoff]
    exact Bool.false_ne_true

theorem Stage.sign_leftOn (a : ActuatorId) : Stage.Sign a (LeftOn (R := R) a) where
  others hne H h := by
    rw [LeftOn, H.history, Deed.leftOn_append_of_ne hne H.own] at h
    exact h
  stop ha := by
    rw [LeftOn, (Does.stop _).history, Deed.leftOn_concat]
    simp [Deed.turns?, ha]
  tell h := by
    rw [LeftOn, Stage.tell, history_record, Deed.leftOn_concat] at h
    exact h
  renumber h := h
  opens {s plan v} history h := by
    obtain hnil | ⟨n, pos, hmem⟩ := Deed.leftOn_append (h := []) h
    · cases hnil
    · exact (s.held_openVibration plan v history pos hmem).resolve_right fun hoff => hoff.1 h
  tearDown {s plan xs} := by
    rw [LeftOn, history_tearDown, Deed.leftOn_undoing, Bool.and_eq_true, Bool.not_eq_true',
      List.any_eq_false, LeftOn]
    simp only [Bool.not_eq_true]

theorem Stage.sign_lit (a : ActuatorId) : Stage.Sign a (Lit (R := R) a) where
  others hne H h := by
    obtain ⟨⟨n, pos, hmem⟩, hactive⟩ := h
    rw [H.history, Deed.drives_append] at hmem
    refine ⟨⟨n, pos, (List.mem_append.mp hmem).resolve_right fun hmem => ?_⟩, ?_⟩
    · exact hne (H.eq_of_mem_drives hmem).symm
    · rwa [H.isActive_of_ne hne.symm] at hactive
  stop {s l} ha h := by
    have hactive : (s.rig.stop l.actuator).isActive a = true := h.2
    rw [ha, Rig.isActive_stop_self] at hactive
    cases hactive
  tell {s t} h := by
    obtain ⟨⟨n, pos, hmem⟩, hactive⟩ := h
    rw [Stage.tell, history_record, Deed.drives_append] at hmem
    exact ⟨⟨n, pos, by simpa [Deed.drives, Deed.answer?] using hmem⟩, hactive⟩
  renumber h := h
  opens {s plan v} history h := by
    obtain ⟨⟨n, pos, hmem⟩, hactive⟩ := h
    refine (s.held_openVibration plan v history pos hmem).resolve_right fun hoff => ?_
    rw [hoff.2] at hactive
    cases hactive
  tearDown {s plan xs} := by
    rw [Lit, drives_tearDown, isActive_tearDown, Bool.and_eq_true, Bool.not_eq_true',
      List.any_eq_false, Lit, and_assoc]
    simp only [Bool.not_eq_true]

/-! ## The step that turns off -/

namespace Run

variable {a : ActuatorId} {P : Stage R → Prop} {v : Vibration R} {asked : Nat} {r r' : Run R}

/-- What is on has a step in the queue, until an immediate cancel empties the queue. -/
structure Watched (a : ActuatorId) (P : Stage R → Prop) (r : Run R) : Prop where
  watched : P r.stage → r.cancelled = some .immediate ∨ .lane a ∈ r.queue.parts
  empty : r.cancelled = some .immediate → r.queue.parts = []

theorem Watched.played (S : Stage.Sign a P) (W : r.Watched a P) (H : r.Phase v asked)
    {x : Step R} {q : Queue (Step R)} (h : r.queue.popDue r.now = some (x, q))
    (on : P (r.stage.play r.plan x).stage) :
    .lane a ∈ (q.extend (r.stage.play r.plan x).next).parts := by
  have hparts := Queue.parts_of_popDue h
  have hextend := q.parts_extend (r.stage.play r.plan x).next
  refine hextend.mem_iff.mpr ?_
  -- The actuator was on before and its step is still there, unless it was the step played.
  have hbefore : P r.stage → .lane a ∈ x.part :: q.parts := fun hP => by
    refine hparts ▸ (W.watched hP).resolve_left fun hc => ?_
    rw [W.empty hc] at hparts
    cases hparts
  cases x with
  | start w t =>
    obtain ⟨-, history, -, items⟩ := H.of_opening (hparts ▸ List.mem_cons_self)
    cases items _ (Queue.items_of_popDue h ▸ List.mem_cons_self)
    exact List.mem_append_left _ (S.opens history on)
  | lane l task =>
    have hplays := l.play_plays r.stage r.plan task
    by_cases ha : l.actuator = a
    · rcases hplays.parts with h | h
      · have hstop : P (r.stage.stop l) := congrArg (P ·.stage) h ▸ on
        exact absurd hstop (S.stop ha)
      · exact List.mem_append_left _ (h ▸ ha ▸ List.mem_singleton_self _)
    · obtain ⟨ds, hds, -⟩ := hplays.deeds
      rcases List.mem_cons.mp (hbefore (S.others ha hds on)) with hmem | hmem
      · exact absurd (Part.lane.inj hmem).symm ha
      · exact List.mem_append_right _ hmem
  | finish =>
    rcases List.mem_cons.mp (hbefore (S.tell on)) with hmem | hmem
    · cases hmem
    · exact List.mem_append_right _ hmem

theorem Watched.moved (S : Stage.Sign a P) (W : r.Watched a P) (H : r.Phase v asked)
    {m : Move R} (M : r.Moved m r')
    (steady : ∀ f, m = .world f → P r'.stage → P r.stage) : r'.Watched a P := by
  cases M with
  | idle | ignored => exact W
  | played h =>
    refine ⟨fun on => .inr (W.played S H h on), fun hc => ?_⟩
    have hparts := Queue.parts_of_popDue h
    rw [W.empty hc] at hparts
    cases hparts
  | heard h =>
    refine ⟨fun on => (W.watched on).imp_right h.parts.mem_iff.mpr, fun hc => ?_⟩
    exact List.perm_nil.mp (W.empty hc ▸ h.parts)
  | graceful hc items left =>
    have parts := r.parts_graceful items left
    refine ⟨fun on => .inr (parts.mem_iff.mpr (List.mem_filter.mpr ⟨?_, rfl⟩)), nofun⟩
    exact (W.watched (S.renumber on)).resolve_left hc
  | immediate hc items empty =>
    exact ⟨fun _ => .inl rfl, fun _ => Queue.parts_eq_nil.mpr empty⟩
  | world f => exact ⟨fun on => W.watched (steady f rfl on), W.empty⟩

/-! ## Whole runs -/

/-- What others do to the hardware between the moves of a run neither sets a sign nor clears it. -/
def Steady (P : Stage R → Prop) : Run R → List (Move R) → Prop
  | _, [] => True
  | r, m :: ms => (∀ f, m = .world f → (P (r.move m).stage ↔ P r.stage)) ∧
    Steady P (r.move m) ms

/-- An immediate cancel among some moves finds an actuator on by a sign, and no step in the queue
that stops it. -/
def Abandons (a : ActuatorId) (P : Stage R → Prop) (r : Run R) (ms : List (Move R)) : Prop :=
  ∃ pre post, ms = pre ++ .cancel .immediate :: post ∧
    (r.moves pre).cancelled ≠ some .immediate ∧ P (r.moves pre).stage ∧
    ∀ x ∈ (r.moves pre).queue.items, Step.stops (r.moves pre).now a x = false

theorem Watched.settled (W : r.Watched a P) (hc : r.cancelled = some .immediate)
    {ms : List (Move R)} (steady : Steady P r ms) : P (r.moves ms).stage ↔ P r.stage := by
  induction ms generalizing r with
  | nil => exact .rfl
  | cons m ms ih =>
    have hempty := W.empty hc
    have hmove : (r.move m).Watched a P ∧ (P (r.move m).stage ↔ P r.stage) := by
      have M := r.move_moved m
      have hworld := steady.1
      generalize r.move m = r' at M hworld
      cases M with
      | idle | ignored => exact ⟨W, .rfl⟩
      | played h =>
        rw [Queue.parts_of_popDue h] at hempty
        cases hempty
      | heard h =>
        exact ⟨⟨fun _ => .inl hc, fun _ => List.perm_nil.mp (hempty ▸ h.parts)⟩, .rfl⟩
      | graceful h | immediate h => exact absurd hc h
      | world f => exact ⟨⟨fun _ => .inl hc, fun _ => hempty⟩, hworld f rfl⟩
    exact (ih hmove.1 ((r.move_moved m).still_immediate hc) steady.2).trans hmove.2

theorem abandons_cons (m : Move R) (ms : List (Move R)) : Abandons a P r (m :: ms) ↔
    (m = .cancel .immediate ∧ r.cancelled ≠ some .immediate ∧ P r.stage ∧
      ∀ x ∈ r.queue.items, Step.stops r.now a x = false) ∨ Abandons a P (r.move m) ms := by
  constructor
  · rintro ⟨pre, post, hms, h⟩
    cases pre with
    | nil => exact .inl ⟨(List.cons.inj hms).1, h⟩
    | cons m' pre =>
      obtain ⟨rfl, rfl⟩ := List.cons.inj hms
      exact .inr ⟨pre, post, rfl, h⟩
  · rintro (⟨rfl, h⟩ | ⟨pre, post, rfl, h⟩)
    · exact ⟨[], ms, rfl, h⟩
    · exact ⟨m :: pre, post, rfl, h⟩

theorem on_cancel_immediate (S : Stage.Sign a P) (hc : r.cancelled ≠ some .immediate) :
    P (r.cancel .immediate).stage ↔
      P r.stage ∧ ∀ x ∈ r.queue.items, Step.stops r.now a x = false := by
  have hitems := r.queue.items_drainReversed
  rw [cancel, if_neg hc]
  refine S.tearDown.trans (and_congr_right fun _ => ⟨fun h x hx => ?_, fun h x hx => ?_⟩)
  · exact h x (hitems.mem_iff.mpr hx)
  · exact h x (hitems.mem_iff.mp hx)

/-- By any sign, a run that is over leaves an actuator on exactly if an immediate cancel abandoned
it. -/
theorem on_iff_abandons (S : Stage.Sign a P) (H : r.Phase v asked) (K : r.queue.Kept)
    (W : r.Watched a P) (hc : r.cancelled ≠ some .immediate) (ms : List (Move R))
    (steady : Steady P r ms) (ended : (r.moves ms).isOver = true) :
    P (r.moves ms).stage ↔ Abandons a P r ms := by
  induction ms generalizing r with
  | nil =>
    have hempty : r.queue.parts = [] := Queue.parts_eq_nil.mpr (Queue.isEmpty_iff.mp ended)
    refine ⟨fun on => ?_, fun ⟨pre, post, hms, _⟩ => by cases pre <;> cases hms⟩
    have hmem := (W.watched on).resolve_left hc
    rw [hempty] at hmem
    cases hmem
  | cons m ms ih =>
    have M := r.move_moved m
    have W' := W.moved S H M fun f hm => (steady.1 f hm).mp
    rw [abandons_cons, moves_cons]
    by_cases hc' : (r.move m).cancelled = some .immediate
    · -- The move was the immediate cancel, so the queue was torn down and the rest does nothing.
      have hnot : ¬Abandons a P (r.move m) ms := fun ⟨pre, _, _, h, _⟩ =>
        h ((r.move m).still_immediate hc' pre)
      obtain rfl := M.eq_cancel hc hc'
      rw [W'.settled hc' steady.2, or_iff_left hnot]
      exact (on_cancel_immediate S hc).trans ⟨fun h => ⟨rfl, hc, h⟩, fun h => h.2.2⟩
    · rw [ih (H.moved K M) (M.kept K) W' hc' steady.2 ended]
      refine ⟨.inr, fun h => h.resolve_left fun ⟨hm, _⟩ => hc' ?_⟩
      rw [hm, move, cancel, if_neg hc]

/-- Between the moves of a run nobody else touches an actuator. -/
def Undisturbed (a : ActuatorId) : Run R → List (Move R) → Prop
  | _, [] => True
  | r, m :: ms => (∀ f, m = .world f → (f r.rig).isActive a = r.rig.isActive a) ∧
    Undisturbed a (r.move m) ms

theorem steady_leftOn (a : ActuatorId) (r : Run R) (ms : List (Move R)) :
    Steady (Stage.LeftOn a) r ms := by
  induction ms generalizing r with
  | nil => trivial
  | cons m ms ih =>
    refine ⟨fun f hm => ?_, ih (r.move m)⟩
    rw [hm]
    exact .rfl

theorem Undisturbed.steady_lit {ms : List (Move R)} (U : Undisturbed a r ms) :
    Steady (Stage.Lit a) r ms := by
  induction ms generalizing r with
  | nil => trivial
  | cons m ms ih =>
    refine ⟨fun f hm => ?_, ih U.2⟩
    have hactive : ((f r.rig).moveTo r.now).isActive a = r.rig.isActive a := U.1 f hm
    rw [hm]
    exact and_congr_right' (iff_of_eq (congrArg (· = true) hactive))

/-- A run that is over leaves an actuator on exactly if an immediate cancel came when the actuator
was on and none of its steps waited for a report any more. This is so for the drives and stops that
the run made, and for the activity of the actuator if nobody else touches it. -/
theorem left_on_iff (plan : Plan R) (v : Vibration R) (rig : Rig R) (asked : Nat)
    (ms : List (Move R)) (ended : ((fresh plan v rig asked).moves ms).isOver = true)
    (a : ActuatorId) :
    (((fresh plan v rig asked).moves ms).stage.LeftOn a ↔
      Abandons a (Stage.LeftOn a) (fresh plan v rig asked) ms) ∧
    (Undisturbed a (fresh plan v rig asked) ms →
      (((fresh plan v rig asked).moves ms).stage.Lit a ↔
        Abandons a (Stage.Lit a) (fresh plan v rig asked) ms)) := by
  have H := fresh_phase plan v rig asked
  have K := fresh_kept plan v rig asked
  refine ⟨?_, fun U => ?_⟩
  · exact on_iff_abandons (Stage.sign_leftOn a) H K ⟨nofun, nofun⟩ nofun ms
      (steady_leftOn a _ ms) ended
  · refine on_iff_abandons (Stage.sign_lit a) H K ⟨fun on => ?_, nofun⟩ nofun ms U.steady_lit ended
    obtain ⟨⟨n, -, hmem⟩, -⟩ := on
    cases hmem

end Run
end

namespace Run

/-- A short hold on a motor that never reports is played to its end. -/
theorem left_on_iff_short : let r := bench (.mono (.pattern (.oneShot 30))) [0]
    let ms := [.play, .world (·.moveTo 30), .play, .world (·.moveTo 1030), .play, .play]
    (r.moves ms).isOver = true ∧
      ((r.moves ms).stage.LeftOn 0 ↔ Abandons 0 (Stage.LeftOn 0) r ms) ∧
      (Undisturbed 0 r ms → ((r.moves ms).stage.Lit 0 ↔ Abandons 0 (Stage.Lit 0) r ms)) :=
  have ended : ((bench (.mono (.pattern (.oneShot 30))) [0]).moves
    [.play, .world (·.moveTo 30), .play, .world (·.moveTo 1030), .play, .play]).isOver = true := by
    decide +kernel
  ⟨ended, left_on_iff _ _ _ _ _ ended 0⟩

/-! ## A motor that is left on -/

/-- A hold that repeats. Its motor is turned on for longer than one hold, so the next hold finds it
on and does not turn it on again. -/
def buzzing : Run Rat := bench (.mono (.pattern (.waveform [4000] [.level 1] (some 0)))) [0]

/-- The second hold begins, and then the time for the report of the first passes. -/
def unheard : List (Move Rat) :=
  [.play, .world (·.moveTo 4000), .play, .world (·.moveTo 7000)]

/-- An immediate cancel leaves a motor on that nobody touched. -/
theorem left_on_after_cancel :
    (buzzing.moves (unheard ++ [.cancel .immediate])).isOver = true ∧
      Undisturbed 0 buzzing (unheard ++ [.cancel .immediate]) ∧
      (buzzing.moves (unheard ++ [.cancel .immediate])).stage.LeftOn 0 ∧
      (buzzing.moves (unheard ++ [.cancel .immediate])).stage.Lit 0 := by
  have hc : (buzzing.moves unheard).cancelled ≠ some .immediate := by decide
  have hstops : ∀ x ∈ (buzzing.moves unheard).queue.items,
      Step.stops (buzzing.moves unheard).now 0 x = false := by decide
  have hon : (buzzing.moves unheard).stage.LeftOn 0 :=
    (by decide : Deed.leftOn 0 (buzzing.moves unheard).stage.history = true)
  have hlit : (buzzing.moves unheard).stage.Lit 0 := ⟨⟨5000, by decide, by decide⟩, by decide⟩
  rw [moves_append]
  refine ⟨isOver_cancel_immediate _ hc, ?_, ?_, ?_⟩
  · refine ⟨nofun, ?_, nofun, ?_, nofun, trivial⟩ <;> rintro f hf <;> cases hf <;> rfl
  · exact (on_cancel_immediate (Stage.sign_leftOn 0) hc).mpr ⟨hon, hstops⟩
  · exact (on_cancel_immediate (Stage.sign_lit 0) hc).mpr ⟨hlit, hstops⟩

end Run
end Haptics
