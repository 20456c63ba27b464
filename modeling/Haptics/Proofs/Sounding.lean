import Haptics.Proofs.Happenings

/-!
# Performances and voices

Whatever happens to a performance that is under way or over, the voice of an actuator goes along
(`Performance.Voiced.happen`). So it follows a path that is settled by what the actuator gets to
feel from outside (`Performance.Voiced.after`).
-/

namespace Haptics

variable {R : Type}

/-- Playing a step leaves the bridge alone. -/
theorem Run.bridge_played [Level R] (r : Run R) (x : Step R) (q : Queue (Step R)) :
    (r.played x q).rig.bridge = r.rig.bridge := by
  have hplay : r.stage.play r.plan x = (r.stage.play r.plan x).withBridge r.rig.bridge :=
    r.stage.play_withBridge r.rig.bridge r.plan x
  exact congrArg (·.stage.rig.bridge) hplay

namespace Performance

/-! ## Performances and voices -/

section
variable (plan : Plan R) (a : ActuatorId) (ρ : Nat → Nat → Prop) (p : Performance R) (w : Voice R)

/-- A performance that is under way, and the share of an actuator in it. -/
structure Playing : Prop where
  on : p.isOver = false
  run : p.run.Voices plan a ρ w
  listens : p.Listens
  inbox : List.Forall₂ ρ (p.reports.filterMap (Event.step? a plan.vibration)) w.inbox
  cancels : w.cancels = p.cancels

/-- A performance that is over, and what is left of the share of an actuator in it. -/
structure Over : Prop where
  ended : p.isOver = true
  same : p.run.plan = plan
  stage : p.run.stage.Shares a plan.vibration ρ w.stage
  step : w.step = none

/-- A performance in which an actuator has a share, perhaps with mail that nobody reads. -/
def Sounds : Prop := p.Playing plan a ρ w ∨ p.Over plan a ρ w

/-- A performance in which an actuator has a share. -/
def Voiced : Prop :=
  ∃ ρ, p.Playing plan a ρ w ∨ p.Over plan a ρ w ∧ w.inbox = [] ∧ w.cancels = []

end

variable {plan : Plan R} {a b : ActuatorId} {ρ : Nat → Nat → Prop} {p : Performance R} {w : Voice R}

/-- A performance under way with other cancels. -/
theorem Playing.withCancels (H : p.Playing plan a ρ w) {q : Performance R} (run : q.run = p.run)
    (inbox : q.inbox = p.inbox) (isOver : q.isOver = p.isOver) :
    q.Playing plan a ρ { w with cancels := q.cancels } where
  on := isOver.trans H.on
  run := run ▸ H.run.withMail _ _
  listens := H.listens.congr inbox (congrArg (·.rig.bridge) run) (congrArg Run.plan run)
  inbox := by
    rw [reports_congr inbox (congrArg (·.rig.bridge) run)]
    exact H.inbox
  cancels := rfl

namespace Sounds

theorem same (H : p.Sounds plan a ρ w) : p.run.plan = plan :=
  H.elim (·.run.same) (·.same)

theorem stage (H : p.Sounds plan a ρ w) : p.run.stage.Shares a plan.vibration ρ w.stage :=
  H.elim (·.run.stage) (·.stage)

theorem now (H : p.Sounds plan a ρ w) : w.now = p.rig.now := H.stage.now

theorem withRig (H : p.Sounds plan a ρ w) {rig rig' : Rig R}
    (h : rig.Shares a plan.vibration ρ rig') (bridge : rig.bridge = p.rig.bridge) :
    (p.withRig rig).Sounds plan a ρ { w with stage := { w.stage with rig := rig' } } := by
  rcases H with H | H
  · refine .inl ⟨H.on, H.run.withRig h, H.listens.congr rfl bridge rfl, ?_, H.cancels⟩
    have hreports : (p.withRig rig).reports = p.reports := reports_congr rfl bridge
    rw [hreports]
    exact H.inbox
  · exact .inr ⟨H.ended, H.same, H.stage.withRig h, H.step⟩

/-- A report arrives, which the voice takes if it is about its actuator. -/
theorem arrive (H : p.Sounds plan a ρ w) {x : Report} (room : p.HasRoom x)
    (lone : x ≠ .synced plan.vibration) {is : List Nat}
    (h : List.Forall₂ ρ (x.step? a plan.vibration).toList is) :
    (p.arrive x).Sounds plan a ρ { w with inbox := w.inbox ++ is } := by
  rcases H with H | H
  · have hrig := H.run.stage.rig.deliver x
    have hplan : p.run.plan = plan := H.run.same
    subst hplan
    refine .inl ⟨H.on, (H.run.withRig hrig).withMail _ _, (H.listens.arrive room lone).1, ?_,
      H.cancels⟩
    rw [arrive_step H.listens room lone]
    exact List.rel_append H.inbox h
  · exact .inr ⟨H.ended, H.same, H.stage.withRig (H.stage.rig.deliver x), H.step⟩

/-- Perhaps a report arrives. -/
theorem arriveAny (H : p.Sounds plan a ρ w) {x? : Option Report} (room : ∀ x ∈ x?, p.HasRoom x)
    (lone : ∀ x ∈ x?, x ≠ .synced plan.vibration) {is : List Nat}
    (h : List.Forall₂ ρ (x?.bind (Report.step? a plan.vibration)).toList is) :
    (p.arriveAny x?).Sounds plan a ρ { w with inbox := w.inbox ++ is } := by
  cases x? with
  | none =>
    obtain rfl := List.forall₂_nil_left_iff.mp h
    rw [List.append_nil]
    exact H
  | some x => exact H.arrive (room x rfl) (lone x rfl) h

section
variable [Level R]

/-- A completion that arrives concerns the voice if it is its own. -/
theorem fire (H : p.Sounds plan a ρ w) (room : p.Allows .fire) : ∃ w',
    (w' = w ∨ ∃ t i us, w.timers plan a = (t, i) :: us ∧ t ≤ w.now ∧ w' = w.fire plan a i) ∧
      (p.happen .fire).Sounds plan a ρ w' := by
  rcases p.happen_fire_cases with hstill | ⟨t, ts, hdue, htimers, hle, hfire⟩
  · rw [hstill]
    exact ⟨w, .inl rfl, H⟩
  · have hroom := room t hdue
    have hlone := H.stage.rig.orderly.timers t (htimers ▸ List.mem_cons_self)
    rw [hfire]
    cases hown : t.report.step? a plan.vibration with
    | none =>
      have hrig := H.stage.rig.fire_aside htimers hown
      have hnil : List.Forall₂ ρ (t.report.step? a plan.vibration).toList [] := by
        rw [hown]
        exact .nil
      have hdone := (H.withRig hrig rfl).arrive hroom hlone hnil
      rw [List.append_nil] at hdone
      exact ⟨w, .inl rfl, hdone⟩
    | some i =>
      obtain ⟨j, us, hij, hus, hrig⟩ := H.stage.rig.fire htimers hown
      refine ⟨w.fire plan a j, .inr ⟨t.due, j, us, hus, H.now ▸ hle, rfl⟩, ?_⟩
      exact (H.withRig hrig rfl).arrive hroom hlone (by rw [hown]; exact .cons hij .nil)

/-- What a motor does without being called is a cue for its own voice only. -/
theorem stir (H : p.Sounds plan a ρ w) (b : ActuatorId) (x : Quirk R)
    (room : p.Allows (.stir b x)) : (p.happen (.stir b x)).Sounds plan a ρ
      (if b = a then w.cue plan a (.motor x) else w) := by
  rcases p.happen_stir_cases b x with ⟨hd, hstill⟩ | ⟨d, hd, hstir⟩
  · rw [hstill]
    split
    · rename_i hb
      subst hb
      have hnone : w.stage.rig.device? b = none := Option.isNone_iff_eq_none.mp <| by
        rw [← Option.not_isSome, H.stage.rig.device.isSome_eq]
        exact congrArg (fun o => !o.isSome) hd
      rw [Voice.cue_of_none hnone]
      exact H
    · exact H
  · have hfrom := fun y hy => H.stage.rig.orderly.held hd y (Motor.mem_of_stir (x := x) hy)
    have hlone : ∀ y ∈ (d.motor.stir x).1, y ≠ .synced plan.vibration := by
      rintro y hy rfl
      exact hfrom _ hy rfl
    have hroom := room d hd
    rw [hstir]
    split
    · rename_i hb
      subst hb
      obtain ⟨d', hd', hreport, hrig⟩ := H.stage.rig.stir hd x
      rw [Voice.cue_of_some hd']
      exact (H.withRig hrig rfl).arriveAny hroom hlone (Report.steps_alike hreport)
    · rename_i hb
      have hrig := H.stage.rig.stir_aside hb hd x
      have hnil : List.Forall₂ ρ
          ((d.motor.stir x).1.bind (Report.step? a plan.vibration)).toList [] := by
        cases hy : (d.motor.stir x).1 with
        | none => exact .nil
        | some y =>
          rw [Option.bind_some, (hfrom y hy).step_of_ne hb]
          exact .nil
      have hdone := (H.withRig hrig rfl).arriveAny hroom hlone hnil
      rwa [List.append_nil] at hdone

theorem tick (H : p.Sounds plan a ρ w) :
    (p.happen .tick).Sounds plan a ρ (w.moveTo (w.now + 1)) := by
  have hrig := H.stage.rig.moveTo (p.rig.now + 1)
  rw [H.now]
  exact H.withRig hrig rfl

theorem send (H : p.Sounds plan a ρ w) (mode : CancelMode) (present : p.callerPresent = true) :
    (p.happen (.send mode)).Sounds plan a ρ (w.cue plan a (.cancel mode)) := by
  rcases H with H | H
  · have hsend : p.happen (.send mode) = { p with cancels := p.cancels ++ [mode] } := by
      have hlistens : p.callerPresent ∧ !p.isOver := by
        rw [present, H.on]
        decide
      exact congrArg Prod.snd (if_pos hlistens)
    have hcue : w.cue plan a (.cancel mode) = { w with cancels := p.cancels ++ [mode] } :=
      congrArg (fun modes => { w with cancels := modes ++ [mode] }) H.cancels
    rw [hsend, hcue]
    exact .inl (H.withCancels rfl rfl rfl)
  · have hsend : p.happen (.send mode) = p := by
      have hdeaf : ¬(p.callerPresent ∧ !p.isOver) := by
        rw [present, H.ended]
        decide
      exact congrArg Prod.snd (if_neg hdeaf)
    rw [hsend]
    exact .inr ⟨H.ended, H.same, H.stage, H.step⟩

theorem leave (H : p.Sounds plan a ρ w) : (p.happen .leave).Sounds plan a ρ w := by
  rcases H with H | H
  · have hvoice : w = { w with cancels := p.cancels } := by
      rw [← H.cancels]
    rw [hvoice]
    exact .inl (H.withCancels (q := p.happen .leave) rfl rfl rfl)
  · exact .inr ⟨H.ended, H.same, H.stage, H.step⟩

end
end Sounds

/-! ## Everything that happens -/

section
variable [Level R] {strict : Prop} {last : Nat}

/-- The voice obeys and hears what the conductor reads. -/
theorem Playing.handleMail (H : p.Playing plan a ρ w)
    (apart : strict → w.pending plan a w.now ≤ 1) : ∃ σ w',
      Relation.ReflTransGen (Voice.Does plan a strict) w w' ∧
      p.handleMail.Playing plan a σ w' ∧ p.handleMail.reports = [] ∧ p.handleMail.cancels = [] ∧
      (strict → w'.pending plan a w'.now ≤ 1) := by
  obtain ⟨σ, hσ, w₁, hdoes₁, hcancelled, hinbox₁, hcancels₁, hpending₁⟩ :=
    H.run.obeyAll H.cancels apart
  have hsteps := H.listens.steps
  rw [H.run.same] at hsteps
  obtain ⟨w₂, hdoes₂, hheard, hinbox₂, hcancels₂, hpending₂⟩ := hcancelled.hearAll hsteps
    (by rw [hinbox₁]; exact H.inbox.imp hσ) hpending₁
  obtain ⟨hlistens, hempty⟩ := H.listens.handleMail
  have hvoices : p.handleMail.run.Voices plan a σ w₂ := by
    rw [handleMail_eq]
    exact hheard.withRig (hheard.stage.rig.withBridge p.emptied)
  have hmail : p.handleMail.isOver = false ∧ p.handleMail.cancels = [] := by
    rw [handleMail_eq]
    exact ⟨H.on, rfl⟩
  refine ⟨σ, w₂, hdoes₁.trans hdoes₂, ⟨hmail.1, hvoices, hlistens, ?_, ?_⟩, hempty, hmail.2,
    hpending₂⟩
  · rw [hempty, hinbox₂]
    exact .nil
  · exact (hcancels₂.trans hcancels₁).trans hmail.2.symm

/-- The voice plays if the step that the conductor plays is its own. -/
theorem Playing.playDue (H : p.Playing plan a ρ w) {r : Run R} (h : p.run.playDue? = some r)
    (apart : strict → w.pending plan a w.now ≤ 1) : ∃ σ w',
      Relation.ReflTransGen (Voice.Does plan a strict) w w' ∧
      Playing plan a σ { p with run := r } w' := by
  obtain ⟨⟨x, q⟩, hdue, rfl⟩ := Option.map_eq_some_iff.mp h
  obtain ⟨σ, hσ, w', hown, hinbox, hcancels, hplayed⟩ := H.run.play hdue
  have hbridge := p.run.bridge_played x q
  refine ⟨σ, w', ?_, H.on, hplayed, H.listens.congr rfl hbridge rfl, ?_, hcancels.trans H.cancels⟩
  · rcases hown with rfl | hown
    · exact .refl
    · exact .single ⟨apart, hown⟩
  · have hreports : reports { p with run := p.run.played x q } = p.reports :=
      reports_congr rfl hbridge
    rw [hinbox]
    exact (hreports ▸ H.inbox).imp hσ

omit [Level R] in
/-- When a performance ends, the actuator has no step any more. -/
theorem Playing.close (H : p.Playing plan a ρ w) (ended : p.run.isOver = true) :
    p.close.Over plan a ρ w where
  ended := rfl
  same := H.run.same
  stage := H.run.stage.withRig (H.run.stage.rig.withBridge p.close.rig.bridge)
  step := by
    rcases H.run.step_cases with ⟨-, hstep⟩ | ⟨_, _, _, _, hown, -⟩
    · exact hstep
    · rw [Queue.own_of_items (Run.isOver_iff.mp ended)] at hown
      cases hown

/-- The voice does its part of what the conductor does. -/
theorem Playing.conduct (H : p.Playing plan a ρ w)
    (apart : strict → w.pending plan a w.now ≤ 1) : ∃ w',
      Relation.ReflTransGen (Voice.Does plan a strict) w w' ∧
        (p.happen .conduct).Voiced plan a w' := by
  obtain ⟨σ, w₁, hdoes, M, hreports, hcancels, hpending⟩ := H.handleMail apart
  show ∃ w', _ ∧ (p.act .conduct).Voiced plan a w'
  rw [act_conduct H.on]
  generalize p.handleMail = m at *
  cases hplay : m.run.playDue? with
  | some r =>
    obtain ⟨τ, w₂, hdoes', hplaying⟩ := M.playDue hplay hpending
    exact ⟨w₂, hdoes.trans hdoes', τ, .inl hplaying⟩
  | none =>
    refine ⟨w₁, hdoes, σ, ?_⟩
    dsimp only
    split
    · rename_i hover
      have hinbox := M.inbox
      rw [hreports] at hinbox
      exact .inr ⟨M.close hover, List.forall₂_nil_left_iff.mp hinbox, M.cancels.trans hcancels⟩
    · have hhears : ¬(m.run.queue.nextWake = none ∧ (!m.callerPresent) = true ∧
          (!m.hearsReports) = true) := by
        rw [M.listens.hearsReports]
        exact fun h => Bool.false_ne_true h.2.2
      rw [if_neg hhears]
      exact .inl M

/-- When a performance is over, the voice takes note of its mail. -/
theorem Sounds.drain (H : p.Sounds plan a ρ w) (apart : strict → w.pending plan a w.now ≤ 1) :
    ∃ w', Relation.ReflTransGen (Voice.Does plan a strict) w w' ∧ p.Voiced plan a w' := by
  rcases H with H | H
  · exact ⟨w, .refl, ρ, .inl H⟩
  · exact ⟨_, Voice.drain H.step apart, ρ, .inr ⟨⟨H.ended, H.same, H.stage, H.step⟩, rfl, rfl⟩⟩

omit [Level R] in
theorem Voiced.sounds (H : p.Voiced plan a w) : ∃ ρ, p.Sounds plan a ρ w := by
  obtain ⟨ρ, H | ⟨H, -⟩⟩ := H
  · exact ⟨ρ, .inl H⟩
  · exact ⟨ρ, .inr H⟩

omit [Level R] in
theorem Voiced.now (H : p.Voiced plan a w) : w.now = p.rig.now := by
  obtain ⟨ρ, H⟩ := H.sounds
  exact H.now

omit [Level R] in
/-- What is pending for the voice is pending for the actuator. -/
theorem Voiced.pending_le (H : p.Voiced plan a w) : w.pending plan a w.now ≤ p.pending a := by
  obtain ⟨ρ, K⟩ := H.sounds
  have hdue := K.stage.rig.length_due w.now
  unfold Voice.pending Voice.timers Performance.pending
  rw [K.same, hdue, K.now]
  obtain ⟨σ, H | ⟨H, hinbox, hcancels⟩⟩ := H
  · have hready : (w.isReady p.rig.now).toNat ≤ (p.run.queue.own a).countP
        fun x => x.1 || x.2.1.start.isDue p.rig.now := by
      rcases H.run.step_cases with ⟨-, hstep⟩ | ⟨released, l, l', task, hown, hstep, L⟩
      · rw [Voice.isReady_of_none hstep]
        exact Nat.zero_le _
      · unfold Voice.isReady
        rw [hown, hstep, List.countP_singleton, Option.any_some]
        dsimp only
        rw [L.start]
        split
        · exact Bool.toNat_le _
        · rename_i hnot
          rw [Bool.not_eq_true] at hnot
          exact Nat.le_of_eq (congrArg Bool.toNat hnot)
    rw [← H.inbox.length_eq, H.cancels]
    exact Nat.add_le_add_left hready _
  · rw [hinbox, hcancels, Voice.isReady_of_none H.step]
    simp only [List.length_nil, Nat.zero_add, Bool.toNat_false, Nat.add_zero]
    exact Nat.le_add_right_of_le (Nat.le_add_left _ _)

/-- If a performance has nothing to do, nothing is pending for the voice. -/
theorem Voiced.calm (H : p.Voiced plan a w) (S : p.Settled) : w.pending plan a w.now = 0 := by
  obtain ⟨ρ, K⟩ := H.sounds
  obtain ⟨hidle, htimers⟩ := S
  have hdue := K.stage.rig.length_due w.now
  have hnone : (p.run.stage.rig.timers.filterMap (Timer.step? a plan.vibration)).filter
      (·.1 ≤ w.now) = [] := by
    refine List.filter_eq_nil_iff.mpr fun x hx => ?_
    obtain ⟨t, ht, hstep⟩ := List.mem_filterMap.mp hx
    obtain ⟨i, -, rfl⟩ := Option.map_eq_some_iff.mp hstep
    have hlt := htimers t ht
    rw [← K.now] at hlt
    simpa using hlt
  rw [hnone] at hdue
  unfold Voice.pending Voice.timers
  rw [hdue]
  obtain ⟨σ, H | ⟨H, hinbox, hcancels⟩⟩ := H
  · obtain ⟨hcancels, hreports, hpop⟩ := idle_of_step (Option.isNone_iff_eq_none.mp hidle) H.on
    have hready := H.run.not_ready hpop
    have hinbox := H.inbox.length_eq
    rw [hreports] at hinbox
    rw [← H.run.now] at hready
    rw [hready, H.cancels, hcancels, ← hinbox]
    rfl
  · rw [hinbox, hcancels, Voice.isReady_of_none H.step]
    rfl

variable {v : Voice R} {cs : List (Nat × Cue R)}

/-- What a voice does was pending for its actuator. -/
theorem Voiced.does (H : p.Voiced plan a w) (K : v.Reaches plan a strict last cs w)
    (le : last ≤ p.rig.now) {w' : Voice R}
    (D : Relation.ReflTransGen (Voice.Does plan a strict) w w') :
    v.Reaches plan a strict (if 0 < p.pending a then p.rig.now else last) cs w' := by
  refine K.doesAll D ?_ fun hpos => ?_
  · split
    · exact le
    · exact Nat.le_refl _
  · rw [if_pos (Nat.lt_of_lt_of_le hpos H.pending_le)]
    exact Nat.le_of_eq H.now

/-- The voice takes a cue. -/
theorem Voiced.feels (H : p.Voiced plan a w) (K : v.Reaches plan a strict last cs w) {c : Cue R}
    (apart : strict → last < p.rig.now ∧ p.pending a = 0) {q : Performance R}
    (S : q.Sounds plan a ρ (w.cue plan a c)) : ∃ w', q.Voiced plan a w' ∧ w'.now = w.now ∧
      v.Reaches plan a strict p.rig.now (cs ++ [(p.rig.now, c)]) w' := by
  have hcalm : strict → w.pending plan a w.now = 0 := fun hs =>
    Nat.eq_zero_of_le_zero ((apart hs).2 ▸ H.pending_le)
  have hnow : (w.cue plan a c).now = w.now := Voice.now_cue c
  have hcue := K.cue c fun hs => ⟨by rw [H.now]; exact (apart hs).1, hcalm hs⟩
  have hone : strict → (w.cue plan a c).pending plan a (w.cue plan a c).now ≤ 1 := fun hs =>
    hnow ▸ Voice.pending_cue (hcalm hs) c
  obtain ⟨w', hdoes, hvoiced⟩ := S.drain hone
  rw [H.now] at hcue
  refine ⟨w', hvoiced, (Voice.now_of_does hdoes).trans hnow,
    hcue.doesAll hdoes (Nat.le_refl _) fun _ => Nat.le_of_eq (hnow.trans H.now)⟩

/-- If the actuator feels nothing, the voice takes note of its mail at most. -/
theorem Voiced.unfelt (H : p.Voiced plan a w) (K : v.Reaches plan a strict last cs w)
    (le : last ≤ p.rig.now) {w₁ : Voice R} (D : Relation.ReflTransGen (Voice.Does plan a strict) w w₁)
    (one : strict → w₁.pending plan a w₁.now ≤ 1) {q : Performance R} (S : q.Sounds plan a ρ w₁) :
    ∃ w', q.Voiced plan a w' ∧ w'.now = w.now ∧
      v.Reaches plan a strict (if 0 < p.pending a then p.rig.now else last) cs w' := by
  obtain ⟨w', D', hvoiced⟩ := S.drain one
  exact ⟨w', hvoiced, Voice.now_of_does (D.trans D'), H.does K le (D.trans D')⟩

theorem Voiced.conduct (H : p.Voiced plan a w) (K : v.Reaches plan a strict last cs w)
    (le : last ≤ p.rig.now) (one : strict → w.pending plan a w.now ≤ 1) : ∃ w',
      (p.happen .conduct).Voiced plan a w' ∧ w'.now = w.now ∧
      v.Reaches plan a strict (if 0 < p.pending a then p.rig.now else last) cs w' := by
  obtain ⟨ρ, P | ⟨O, -⟩⟩ := id H
  · obtain ⟨w', D, hvoiced⟩ := P.conduct one
    exact ⟨w', hvoiced, Voice.now_of_does D, H.does K le D⟩
  · rw [happen_conduct_of_isOver O.ended]
    exact H.unfelt K le .refl one (.inr O)

theorem Voiced.fire (H : p.Voiced plan a w) (K : v.Reaches plan a strict last cs w)
    (le : last ≤ p.rig.now) (one : strict → w.pending plan a w.now ≤ 1) (room : p.Allows .fire) :
    ∃ w', (p.happen .fire).Voiced plan a w' ∧ w'.now = w.now ∧
      v.Reaches plan a strict (if 0 < p.pending a then p.rig.now else last) cs w' := by
  obtain ⟨ρ, S⟩ := H.sounds
  obtain ⟨w₁, hw | ⟨t, i, us, htimers, hdue, hw⟩, T⟩ := S.fire room
  · subst hw
    exact H.unfelt K le .refl one T
  · subst hw
    have D : Voice.Does plan a strict w (w.fire plan a i) := ⟨one, .fire htimers hdue⟩
    exact H.unfelt K le (.single D) (fun hs => Voice.pending_fire htimers hdue (one hs)) T

theorem Voiced.tick (H : p.Voiced plan a w) (K : v.Reaches plan a strict last cs w)
    (le : last ≤ p.rig.now) (settled : p.Settled) : ∃ w',
      (p.happen .tick).Voiced plan a w' ∧ w'.now = w.now + 1 ∧
      v.Reaches plan a strict (if 0 < p.pending a then p.rig.now else last) cs w' := by
  have hlast : last ≤ if 0 < p.pending a then p.rig.now else last := by
    split
    · exact le
    · exact Nat.le_refl _
  refine ⟨w.moveTo (w.now + 1), ?_, Voice.now_moveTo (Nat.le_succ _),
    (K.tick (H.calm settled)).later hlast⟩
  obtain ⟨σ, P | ⟨O, hmail⟩⟩ := H
  · rcases Sounds.tick (.inl P) with T | T
    · exact ⟨σ, .inl T⟩
    · exact absurd (P.on.symm.trans T.ended) Bool.false_ne_true
  · rcases Sounds.tick (.inr O) with T | T
    · exact absurd (T.on.symm.trans O.ended) Bool.false_ne_true
    · exact ⟨σ, .inr ⟨T, hmail⟩⟩

/-- The voice goes along with whatever happens. -/
theorem Voiced.happen (H : p.Voiced plan a w) (K : v.Reaches plan a strict last cs w)
    {h : Happening R} (allows : p.Allows h) (le : last ≤ p.rig.now)
    (apart : strict → p.pending a ≤ 1 ∧
      ((h.cue? a).isSome → last < p.rig.now ∧ p.pending a = 0)) : ∃ w',
      (p.happen h).Voiced plan a w' ∧ w'.now = w.now + h.span ∧
      v.Reaches plan a strict
        (if (h.cue? a).isSome ∨ 0 < p.pending a then p.rig.now else last)
        (cs ++ (h.cue? a).toList.map (p.rig.now, ·)) w' := by
  obtain ⟨ρ, S⟩ := H.sounds
  have hone : strict → w.pending plan a w.now ≤ 1 := fun hs =>
    Nat.le_trans H.pending_le (apart hs).1
  cases h with
  | conduct => simpa [Happening.cue?, Happening.span] using H.conduct K le hone
  | fire => simpa [Happening.cue?, Happening.span] using H.fire K le hone allows
  | tick => simpa [Happening.cue?, Happening.span] using H.tick K le allows
  | send mode =>
    simpa [Happening.cue?, Happening.span] using
      H.feels K (fun hs => (apart hs).2 rfl) (S.send mode allows)
  | leave => simpa [Happening.cue?, Happening.span] using H.unfelt K le .refl hone S.leave
  | stir b x =>
    have hstir := S.stir b x allows
    by_cases hb : b = a
    · rw [if_pos hb] at hstir
      have hcue : (Happening.stir b x).cue? a = some (.motor x) := if_pos hb
      simpa [hcue, Happening.span] using H.feels K (fun hs => (apart hs).2 (hcue ▸ rfl)) hstir
    · rw [if_neg hb] at hstir
      simpa [Happening.cue?, hb, Happening.span] using H.unfelt K le .refl hone hstir

/-- Where the voice gets in the end, if the performance has nothing to do then. -/
theorem Voiced.after (H : p.Voiced plan a w) (K : v.Reaches plan a strict last cs w)
    {hs : List (Happening R)} (prompt : p.Prompt hs) (le : last ≤ p.rig.now)
    (apart : strict → p.Apart a last hs) : ∃ w' last', (p.after hs).Voiced plan a w' ∧
      w'.now = w.now + Happening.spans hs ∧ w'.pending plan a w'.now = 0 ∧
      v.Reaches plan a strict last' (cs ++ Happening.cues a p.rig.now hs) w' := by
  induction hs generalizing p w cs last with
  | nil =>
    refine ⟨w, last, H, rfl, H.calm prompt, ?_⟩
    unfold Happening.cues
    rwa [List.append_nil]
  | cons h hs ih =>
    obtain ⟨w₁, hvoiced, hnow, hreaches⟩ :=
      H.happen K prompt.1 le fun hs => ⟨(apart hs).1, (apart hs).2.1⟩
    have hclock : (p.happen h).rig.now = p.rig.now + h.span := by
      rw [← hvoiced.now, hnow, H.now]
    have hle : (if (h.cue? a).isSome ∨ 0 < p.pending a then p.rig.now else last) ≤
        (p.happen h).rig.now := by
      rw [hclock]
      split
      · exact Nat.le_add_right _ _
      · exact Nat.le_add_right_of_le le
    obtain ⟨w', last', hvoiced', hnow', hcalm, hreaches'⟩ :=
      ih hvoiced hreaches prompt.2 hle fun hs => (apart hs).2.2
    refine ⟨w', last', hvoiced', ?_, hcalm, ?_⟩
    · rw [hnow', hnow, Nat.add_assoc]
      rfl
    · rw [hclock, List.append_assoc] at hreaches'
      exact hreaches'

end

end Performance
end Haptics
