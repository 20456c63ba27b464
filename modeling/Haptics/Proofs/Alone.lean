import Haptics.Proofs.Sounding
import Haptics.Proofs.Starting

/-!
# Actuators by themselves

Actuators do not influence each other: what is asked of one in a vibration of several is what would
be asked of it in a vibration of its own, at the same instants and up to the numbers of the steps
(`Performance.same_as_alone`). Both performances go along with the same voice.
-/

namespace Haptics

variable {R : Type}

namespace Performance

/-! ## The beginning -/

section
variable [Level R]

theorem withRig_moves (p : Performance R) {r : Rig R} (h : p.rig.now ≤ r.now) :
    ∃ ms, (p.withRig r).run = p.run.moves ms := by
  refine ⟨[.world fun _ => r], ?_⟩
  have hnow : max r.now p.run.now = r.now := Nat.max_eq_left h
  show p.run.withRig r = p.run.withRig (r.moveTo p.run.now)
  unfold Rig.moveTo
  rw [hnow]

theorem arrive_moves (p : Performance R) (x : Report) :
    ∃ ms, (p.arrive x).run = p.run.moves ms :=
  p.withRig_moves (by cases x <;> exact Nat.le_refl _)

theorem arriveAny_moves (p : Performance R) (x : Option Report) :
    ∃ ms, (p.arriveAny x).run = p.run.moves ms := by
  cases x with
  | none => exact ⟨[], rfl⟩
  | some x => exact p.arrive_moves x

/-- What happens to a performance is a sequence of moves of its run. -/
theorem happen_moves (p : Performance R) (h : Happening R) :
    ∃ ms, (p.happen h).run = p.run.moves ms := by
  cases h with
  | conduct =>
    show ∃ ms, (p.step?.getD p).run = p.run.moves ms
    cases hstep : p.step? with
    | none => exact ⟨[], rfl⟩
    | some q => exact step_moves hstep
  | fire =>
    rcases p.happen_fire_cases with h | ⟨t, ts, -, -, -, h⟩
    · exact ⟨[], congrArg run h⟩
    · obtain ⟨ms, hms⟩ := p.withRig_moves (r := p.rig.withTimers ts) (Nat.le_refl _)
      obtain ⟨ns, hns⟩ := arrive_moves (p.withRig (p.rig.withTimers ts)) t.report
      exact ⟨ms ++ ns, by rw [h, hns, hms, Run.moves_append]⟩
  | tick => exact p.withRig_moves (Nat.le_max_left _ _)
  | send mode =>
    refine ⟨[], ?_⟩
    show (p.send mode).2.run = p.run
    unfold send
    split <;> rfl
  | leave => exact ⟨[], rfl⟩
  | stir b x =>
    rcases p.happen_stir_cases b x with ⟨-, h⟩ | ⟨d, -, h⟩
    · exact ⟨[], congrArg run h⟩
    · obtain ⟨ms, hms⟩ := p.withRig_moves
        (r := p.rig.file b { d with motor := (d.motor.stir x).2 }) (Nat.le_refl _)
      obtain ⟨ns, hns⟩ := arriveAny_moves
        (p.withRig (p.rig.file b { d with motor := (d.motor.stir x).2 })) (d.motor.stir x).1
      exact ⟨ms ++ ns, by rw [h, hns, hms, Run.moves_append]⟩

theorem after_moves (p : Performance R) (hs : List (Happening R)) :
    ∃ ms, (p.after hs).run = p.run.moves ms := by
  induction hs generalizing p with
  | nil => exact ⟨[], rfl⟩
  | cons h hs ih =>
    obtain ⟨ms, hms⟩ := p.happen_moves h
    obtain ⟨ns, hns⟩ := ih (p.happen h)
    exact ⟨ms ++ ns, by rw [Run.moves_append, ← hms]; exact hns⟩

end

end Performance

/-- The devices are registered under their own numbers, the completions are in order, and none is
for the vibration `v`. -/
structure Rig.Ready (v : Nat) (r : Rig R) : Prop where
  filed {b : ActuatorId} {d : Device R} : r.device? b = some d → d.Filed b
  held {b : ActuatorId} {d : Device R} :
    r.device? b = some d → ∀ x ∈ d.motor.held, x.vibration? ≠ some v
  timers : ∀ t ∈ r.timers, t.report.vibration? ≠ some v
  timely : r.Timely

section
variable {a b : ActuatorId} {v : Nat} {x : Report}

theorem Report.from_of_vibration (h : x.vibration? ≠ some v) (b : ActuatorId) : x.From v b := by
  cases x with
  | step c w i => exact fun hw => absurd (congrArg some hw) h
  | synced w => exact fun hw => h (congrArg some hw)
  | _ => trivial

theorem Report.step_of_vibration (h : x.vibration? ≠ some v) (a : ActuatorId) :
    x.step? a v = none := by
  cases x with
  | step c w i => exact if_neg fun hc => h (congrArg some hc.2)
  | _ => rfl

theorem Report.event_of_vibration (h : x.vibration? ≠ some v) : x.event? v = none := by
  cases x with
  | step c w i => exact if_neg fun hw => h (congrArg some hw)
  | synced w => exact if_neg fun hw => h (congrArg some hw)
  | _ => rfl

namespace Rig.Ready

variable {r : Rig R}

/-- A rig whose registered motors carry their numbers, and on which nothing is on its way. -/
theorem of_entries (h : ∀ x ∈ r.devices.entries,
      x.2.control.id = x.1 ∧ x.2.motor.id = x.1 ∧ x.2.motor.held = [])
    (timers : r.timers = []) : r.Ready v := by
  have hfind : ∀ {b d}, r.device? b = some d →
      d.control.id = b ∧ d.motor.id = b ∧ d.motor.held = [] := by
    intro b d hd
    obtain ⟨⟨c, d'⟩, hx, rfl⟩ := Option.map_eq_some_iff.mp hd
    have hc : c = b := by simpa using List.find?_some hx
    exact hc ▸ h _ (List.mem_of_find?_eq_some hx)
  refine ⟨fun hd => ⟨(hfind hd).1, (hfind hd).2.1⟩, fun hd x hx => ?_, ?_, ?_⟩
  · rw [(hfind hd).2.2] at hx
    cases hx
  · rw [timers]
    exact fun _ ht => (List.not_mem_nil ht).elim
  · unfold Timely
    rw [timers]
    exact .nil

variable (H : r.Ready v)
include H

theorem withTimers {ts : List Timer} (h : ts.Sublist r.timers) : (r.withTimers ts).Ready v :=
  ⟨H.filed, H.held, fun t ht => H.timers t (h.subset ht), H.timely.sublist h⟩

theorem deliver (x : Report) : (r.deliver x).Ready v where
  filed hd := H.filed (by rwa [device?, deliver_devices] at hd)
  held hd := H.held (by rwa [device?, deliver_devices] at hd)
  timers := by
    rw [deliver_timers]
    exact H.timers
  timely := by
    unfold Timely
    rw [deliver_timers]
    exact H.timely

theorem stir {d : Device R} (h : r.device? b = some d) (x : Quirk R) :
    (r.file b { d with motor := (d.motor.stir x).2 }).Ready v where
  filed hd := by
    rw [device?_file] at hd
    split at hd
    · rename_i hc
      cases hd
      exact hc ▸ (H.filed h).stir x
    · exact H.filed hd
  held hd := by
    rw [device?_file] at hd
    split at hd
    · cases hd
      exact fun y hy => H.held h y (Motor.mem_held_stir hy)
    · exact H.held hd
  timers := H.timers
  timely := H.timely

/-- A rig on which nothing of a vibration is on its way shares everything with itself, and no step
numbers correspond. -/
theorem shares (a : ActuatorId) : r.Shares a v (fun _ _ => False) r where
  orderly := ⟨H.filed, fun hd x hx => Report.from_of_vibration (H.held hd x hx) _,
    fun t ht h => H.timers t ht (by rw [h]; rfl), H.timely⟩
  timely := H.timely
  now := rfl
  device := by
    cases hd : r.device? a with
    | none => exact .none
    | some d =>
      refine .some ⟨d.motor.held, List.forall₂_same.mpr fun x hx => ?_, rfl⟩
      unfold Report.Alike
      rw [Report.step_of_vibration (H.held hd x hx)]
      exact .none
  timers := by
    have hnone : r.timers.filter (·.isOwn a v) = [] := by
      refine List.filter_eq_nil_iff.mpr fun t ht => ?_
      rw [Timer.isOwn_eq, Report.step_of_vibration (H.timers t ht)]
      exact Bool.false_ne_true
    rw [hnone]
    exact .nil
  calls := rfl

end Rig.Ready
end

section
variable [Level R] (plan : Plan R) (a : ActuatorId) (e : Effect R) (rig : Rig R)

/-- The voice of an actuator after its first step, or without any step if it is not registered. -/
def Voice.opening : Voice R :=
  if (rig.device? a).isSome then
    Voice.play plan { stage := { rig }, step := none } (Lane.first 0 a rig.now) (.ofEffect e)
  else { stage := { rig }, step := none }

theorem Voice.opening_mail :
    (opening plan a e rig).inbox = [] ∧ (opening plan a e rig).cancels = [] := by
  unfold opening
  split <;> exact ⟨rfl, rfl⟩

/-- The opening step is not queued again. -/
theorem Stage.part_of_mem_openVibration {s : Stage R} {v : Vibration R} {x : Step R}
    (h : x ∈ (s.openVibration plan v).next) : x.part ≠ .opening := by
  intro hpart
  obtain ⟨ps, hps, hlanes⟩ := s.parts_openVibration plan v
  have hmem := List.mem_map_of_mem (f := Step.part) h
  rw [hps, hpart, List.perm_append_comm.mem_iff] at hmem
  exact Part.opening_not_mem hlanes hmem

theorem Voice.now_opening : (opening plan a e rig).now = rig.now := by
  unfold opening
  split
  · obtain ⟨ds, hds, -⟩ := ((Lane.first 0 a rig.now).play_plays { rig } plan (.ofEffect e)).deeds
    exact hds.now
  · rfl

end

namespace Performance

variable {plan : Plan R} {a b : ActuatorId} {entries : List (ActuatorId × Effect R)} {e : Effect R}
  {rig : Rig R} {p : Performance R}

/-- A performance that was not opened yet, and to whose actuator `a` nothing happened. -/
structure Unopened (plan : Plan R) (a : ActuatorId) (entries : List (ActuatorId × Effect R))
    (rig : Rig R) (p : Performance R) : Prop where
  run : p.run = (Run.fresh plan (.stereo entries) rig rig.now).withRig p.rig
  on : p.isOver = false
  cancels : p.cancels = []
  listens : p.Listens
  reports : p.reports = []
  ready : p.rig.Ready plan.vibration
  shares : p.rig.Shares a plan.vibration (fun _ _ => False) rig

namespace Unopened

theorem of_ready (ready : rig.Ready plan.vibration) (a : ActuatorId) :
    (fresh plan (.stereo entries) rig).opened.Unopened plan a entries rig where
  run := rfl
  on := rfl
  cancels := rfl
  listens := (listens_opened plan _ rig).1
  reports := (listens_opened plan _ rig).2
  ready := ⟨ready.filed, ready.held, ready.timers, ready.timely⟩
  shares := (ready.shares a).withBridge _

variable (H : p.Unopened plan a entries rig)
include H

theorem plan_eq : p.run.plan = plan := by
  rw [H.run]
  rfl

theorem now : p.rig.now = rig.now := H.shares.now.symm

theorem stage : p.run.stage.Shares a plan.vibration (fun _ _ => False) { rig } := by
  have hstage : p.run.stage = { rig := p.rig } := by
    rw [H.run]
    rfl
  rw [hstage]
  exact ⟨H.shares, .nil, fun _ _ => False.elim, ⟨fun _ _ _ => False.elim, fun _ _ _ => False.elim⟩⟩

/-- The opening step is due. -/
theorem popDue : ∃ q, q.items = [] ∧
    p.run.queue.popDue p.run.now = some (.start (.stereo entries) rig.now, q) := by
  have hqueue : p.run.queue = ({} : Queue (Step R)).push (.start (.stereo entries) rig.now) := by
    rw [H.run]
    rfl
  have hnow : p.run.now = rig.now := H.now
  rw [hqueue, hnow]
  refine ⟨⟨[], [], 1⟩, rfl, ?_⟩
  simp [Queue.push, Queue.place, Queue.popDue, Scheduled.start, StartTime.isDue]

theorem withRig {r : Rig R} (ready : r.Ready plan.vibration)
    (shares : r.Shares a plan.vibration (fun _ _ => False) rig) (bridge : r.bridge = p.rig.bridge) :
    (p.withRig r).Unopened plan a entries rig where
  run := by
    show p.run.withRig r = _
    rw [H.run]
    rfl
  on := H.on
  cancels := H.cancels
  listens := H.listens.congr rfl bridge rfl
  reports := (reports_congr (p := p) (q := p.withRig r) rfl bridge).trans H.reports
  ready := ready
  shares := shares

theorem arrive {x : Report} (h : x.vibration? ≠ some plan.vibration) :
    (p.arrive x).Unopened plan a entries rig := by
  have hplan := H.plan_eq
  have hroom : p.HasRoom x := fun hx => absurd (hplan ▸ hx) h
  have hlone : x ≠ .synced p.run.plan.vibration := by
    rintro rfl
    exact h (by rw [hplan]; rfl)
  obtain ⟨hlistens, hreports⟩ := H.listens.arrive hroom hlone
  rw [hplan, Report.event_of_vibration h, H.reports] at hreports
  exact {
    run := by
      show p.run.withRig _ = _
      rw [H.run]
      rfl
    on := H.on
    cancels := H.cancels
    listens := hlistens
    reports := hreports
    ready := H.ready.deliver x
    shares := H.shares.deliver x }

theorem arriveAny {x : Option Report} (h : ∀ y ∈ x, y.vibration? ≠ some plan.vibration) :
    (p.arriveAny x).Unopened plan a entries rig := by
  cases x with
  | none => exact H
  | some y => exact H.arrive (h y rfl)

variable [Level R]

theorem not_settled : ¬p.Settled := by
  rintro ⟨hidle, -⟩
  obtain ⟨q, -, hpop⟩ := H.popDue
  obtain ⟨-, -, hnone⟩ := idle_of_step (Option.isNone_iff_eq_none.mp hidle) H.on
  rw [hpop] at hnone
  cases hnone

/-- Until the conductor begins, other actuators may do what they like. -/
theorem happen {h : Happening R} (begun : h ≠ .conduct) (allows : p.Allows h)
    (unfelt : h.cue? a = none) : (p.happen h).Unopened plan a entries rig ∧ h.span = 0 := by
  cases h with
  | conduct => exact absurd rfl begun
  | fire =>
    refine ⟨?_, rfl⟩
    rcases p.happen_fire_cases with hstill | ⟨t, ts, -, htimers, -, hfire⟩
    · rwa [hstill]
    · rw [hfire]
      have hvibration := H.ready.timers t (htimers ▸ List.mem_cons_self)
      have hready : (p.rig.withTimers ts).Ready plan.vibration :=
        H.ready.withTimers (htimers ▸ List.sublist_cons_self t ts)
      have hshares := H.shares.fire_aside htimers (Report.step_of_vibration hvibration a)
      exact (H.withRig hready hshares rfl).arrive hvibration
  | tick => exact absurd allows H.not_settled
  | send => cases unfelt
  | leave =>
    refine ⟨⟨H.run, H.on, H.cancels, H.listens.congr rfl rfl rfl, ?_, H.ready, H.shares⟩, rfl⟩
    exact (reports_congr (p := p) (q := { p with callerPresent := false }) rfl rfl).trans H.reports
  | stir b x =>
    have hb : b ≠ a := by
      rintro rfl
      exact absurd unfelt (by simp [Happening.cue?])
    refine ⟨?_, rfl⟩
    rcases p.happen_stir_cases b x with ⟨-, hstill⟩ | ⟨d, hd, hstir⟩
    · rwa [hstill]
    · rw [hstir]
      exact (H.withRig (H.ready.stir hd x) (H.shares.stir_aside hb hd x) rfl).arriveAny
        fun y hy => H.ready.held hd y (Motor.mem_of_stir hy)

/-- The conductor begins with the opening step. -/
theorem happen_conduct : ∃ q, q.items = [] ∧ p.happen .conduct =
    { p with run := p.run.played (.start (.stereo entries) rig.now) q } := by
  obtain ⟨q, hq, hpop⟩ := H.popDue
  have hplay : p.run.playDue? = some (p.run.played (.start (.stereo entries) rig.now) q) := by
    unfold Run.playDue?
    rw [hpop]
    rfl
  refine ⟨q, hq, ?_⟩
  show p.act .conduct = _
  rw [act_conduct H.on, handleMail_of_empty H.cancels H.reports, hplay]

theorem play_opening : p.run.stage.play p.run.plan (.start (.stereo entries) rig.now) =
    p.run.stage.openVibration plan (.stereo entries) := by
  rw [H.plan_eq]
  rfl

/-- What the start results in stands until the end. -/
theorem startResult_after (hs : List (Happening R)) :
    ((p.happen .conduct).after hs).run.stage.startResult =
      some (p.run.stage.openVibration plan (.stereo entries)).result := by
  obtain ⟨q, -, hconduct⟩ := H.happen_conduct
  have hresult : (p.happen .conduct).run.stage.startResult =
      some (p.run.stage.openVibration plan (.stereo entries)).result := by
    rw [hconduct]
    show (p.run.stage.play p.run.plan _).stage.startResult = _
    rw [H.play_opening]
    exact p.run.stage.startResult_openVibration plan _
  have hphase : p.run.Phase (.stereo entries) rig.now := by
    rw [H.run]
    exact .waiting rfl rfl (.inl rfl) fun x hx => List.mem_singleton.mp hx
  have hkept : p.run.queue.Kept := by
    rw [H.run]
    exact Run.fresh_kept ..
  obtain ⟨ms, hms⟩ := p.happen_moves .conduct
  obtain ⟨ns, hns⟩ := (p.happen .conduct).after_moves hs
  rw [hns]
  rw [hms] at hresult ⊢
  exact Run.startResult_moves (Run.phase_moves hphase hkept ms) (p.run.kept_moves hkept ms)
    hresult ns

/-- If the start does not fail, the actuator's share of it is what it would be by itself. -/
theorem opening (distinct : (entries.map (·.1)).Nodup) (he : (a, e) ∈ entries)
    (started : 0 ≤ (p.run.stage.openVibration plan (.stereo entries)).result) :
    ((rig.device? a).isSome = true →
        0 ≤ ((Lane.first 0 a rig.now).play plan { rig } (.ofEffect e)).result) ∧
      ∃ σ, (p.run.stage.openVibration plan (.stereo entries)).stage.Shares a plan.vibration σ
          (Voice.opening plan a e rig).stage ∧
        List.Forall₂ (Voice.SameStep a σ)
          (((p.run.stage.openVibration plan (.stereo entries)).next.filterMap (Step.own? a)).map
            (false, ·)) (Voice.opening plan a e rig).step.toList := by
  have hregistered : (p.run.stage.rig.device? a).isSome = (rig.device? a).isSome :=
    H.shares.device.isSome_eq.symm
  unfold Voice.opening
  cases hdevice : (rig.device? a).isSome with
  | true =>
    obtain ⟨hfirst, σ, hstage, hnext⟩ := H.stage.openVibration Nat.one_pos distinct he
      (hregistered.trans hdevice) started
    refine ⟨fun _ => hfirst, σ, hstage, ?_⟩
    rw [if_pos rfl]
    unfold Voice.play
    rw [Option.toList_map, List.forall₂_map_left_iff, List.forall₂_map_right_iff]
    exact hnext.imp fun _ _ hsame => ⟨rfl, hsame⟩
  | false =>
    have hnone : p.run.stage.rig.device? a = none :=
      Option.isNone_iff_eq_none.mp (by rw [← Option.not_isSome, hregistered, hdevice]; rfl)
    obtain ⟨hstage, hnext⟩ := H.stage.openVibration_aside hnone started
    refine ⟨fun h => absurd h Bool.false_ne_true, _, hstage, ?_⟩
    rw [hnext]
    exact .nil

/-- If the start does not fail, the voice goes along with it. -/
theorem conduct (distinct : (entries.map (·.1)).Nodup) (he : (a, e) ∈ entries)
    (started : 0 ≤ (p.run.stage.openVibration plan (.stereo entries)).result) :
    (p.happen .conduct).Voiced plan a (Voice.opening plan a e rig) := by
  obtain ⟨q, hq, hconduct⟩ := H.happen_conduct
  have hstep := H.play_opening
  have hbridge := p.run.bridge_played (.start (.stereo entries) rig.now) q
  obtain ⟨-, σ, hstage, hnext⟩ := H.opening distinct he started
  obtain ⟨hinbox, hcancels⟩ := Voice.opening_mail plan a e rig
  have hone : ((p.run.stage.openVibration plan (.stereo entries)).next.filterMap
      (Step.own? a)).length ≤ 1 := by
    have hlength := hnext.length_eq
    rw [List.length_map] at hlength
    rw [hlength]
    exact Option.length_toList_le
  rw [hconduct]
  refine ⟨σ, .inl ⟨H.on, ⟨H.plan_eq, ?_, ?_, ?_, fun hc => ?_⟩, H.listens.congr rfl hbridge rfl,
    ?_, ?_⟩⟩
  · show (p.run.stage.play p.run.plan _).stage.Shares _ _ _ _
    rw [hstep]
    exact hstage
  · show (q.extend (p.run.stage.play p.run.plan _).next).Underway
    rw [hstep]
    exact (Queue.Underway.of_items hq).extend fun _ => Stage.part_of_mem_openVibration plan
  · show List.Forall₂ _ ((q.extend (p.run.stage.play p.run.plan _).next).own a) _
    rw [hstep, Queue.own_extend (Queue.own_of_items hq) hone]
    exact hnext
  · have hnone : p.run.cancelled = none := by
      rw [H.run]
      rfl
    cases hnone.symm.trans hc
  · rw [reports_congr (p := p)
      (q := { p with run := p.run.played (.start (.stereo entries) rig.now) q }) rfl hbridge,
      H.reports, hinbox]
    exact .nil
  · rw [hcancels]
    exact H.cancels.symm

/-- The voice goes along with all that happens from a start on that does not fail. -/
theorem after (distinct : (entries.map (·.1)).Nodup) (he : (a, e) ∈ entries)
    (started : 0 ≤ (p.run.stage.openVibration plan (.stereo entries)).result)
    {hs : List (Happening R)} (prompt : (p.happen .conduct).Prompt hs) {strict : Prop}
    (apart : strict → (p.happen .conduct).Apart a rig.now hs) : ∃ w last,
      ((p.happen .conduct).after hs).Voiced plan a w ∧ w.now = rig.now + Happening.spans hs ∧
      w.pending plan a w.now = 0 ∧ (Voice.opening plan a e rig).Reaches plan a strict last
        (Happening.cues a rig.now hs) w := by
  have hvoiced := H.conduct distinct he started
  have hopening := Voice.now_opening plan a e rig
  have hnow : (p.happen .conduct).rig.now = rig.now := hvoiced.now.symm.trans hopening
  have hbegin : (Voice.opening plan a e rig).Reaches plan a strict rig.now [] _ :=
    .refl (Nat.le_of_eq hopening)
  obtain ⟨w, last, hw, hclock, hcalm, hreaches⟩ :=
    hvoiced.after hbegin prompt (Nat.le_of_eq hnow.symm) apart
  rw [hnow] at hreaches
  exact ⟨w, last, hw, hclock.trans (by rw [hopening]), hcalm, hreaches⟩

/-- The conductor begins before anything happens to the actuator. -/
theorem begins {hs : List (Happening R)} (prompt : p.Prompt hs)
    (later : p.Apart a rig.now hs ∨ ∀ c ∈ Happening.cues a rig.now hs, rig.now < c.1) :
    ∃ (p₁ : Performance R) (ks : List (Happening R)),
      p₁.Unopened plan a entries rig ∧ p.after hs = (p₁.happen .conduct).after ks ∧
      (p₁.happen .conduct).Prompt ks ∧
      (p.Apart a rig.now hs → (p₁.happen .conduct).Apart a rig.now ks) ∧
      Happening.cues a rig.now hs = Happening.cues a rig.now ks ∧
      Happening.spans hs = Happening.spans ks := by
  induction hs generalizing p with
  | nil => exact absurd prompt H.not_settled
  | cons h hs ih =>
    have hnext : p.Apart a rig.now (h :: hs) → (p.happen h).Apart a rig.now hs := by
      intro hapart
      have hrest := hapart.2.2
      rwa [H.now, ite_self] at hrest
    by_cases begun : h = .conduct
    · subst begun
      exact ⟨p, hs, H, rfl, prompt.2, hnext, rfl, Nat.zero_add _⟩
    · have hunfelt : h.cue? a = none := by
        rcases hcue : h.cue? a with _ | c
        · rfl
        · rcases later with hapart | hlater
          · have hlt := (hapart.2.1 (by rw [hcue]; rfl)).1
            rw [H.now] at hlt
            exact absurd hlt (Nat.lt_irrefl _)
          · have hmem : (rig.now, c) ∈ Happening.cues a rig.now (h :: hs) := by
              unfold Happening.cues
              rw [hcue]
              exact List.mem_cons_self
            exact absurd (hlater _ hmem) (Nat.lt_irrefl _)
      obtain ⟨hunopened, hspan⟩ := H.happen begun prompt.1 hunfelt
      have hcues : Happening.cues a rig.now (h :: hs) = Happening.cues a rig.now hs := by
        rw [Happening.cues, hunfelt, hspan]
        rfl
      have hspans : Happening.spans (h :: hs) = Happening.spans hs := by
        show h.span + Happening.spans hs = _
        rw [hspan, Nat.zero_add]
      obtain ⟨p₁, ks, hbegun, hafter, hprompt, hapart, hcues', hspans'⟩ :=
        ih hunopened prompt.2 (later.imp hnext (by rw [hcues]; exact id))
      exact ⟨p₁, ks, hbegun, hafter, hprompt, fun h => hapart (hnext h), hcues.trans hcues',
        hspans.trans hspans'⟩

end Unopened

end Performance

/-! ## Together and alone -/

namespace Deed

variable {ρ σ : Nat → Nat → Prop}

theorem Renamed.of_common {d e f : Deed R} (H : d.Renamed ρ f) (K : e.Renamed σ f) :
    d.Renamed (fun i j => ∃ k, ρ i k ∧ σ j k) e := by
  cases H with
  | drive hi =>
    cases K with
    | drive hj => exact .drive ⟨_, hi, hj⟩ ..
  | stop =>
    cases K
    exact .stop _
  | setAmplitude =>
    cases K
    exact .setAmplitude ..

theorem SameShare.of_common {ds es fs : List (Nat × Deed R)} (H : SameShare ρ ds fs)
    (K : SameShare σ es fs) : SameShare (fun i j => ∃ k, ρ i k ∧ σ j k) ds es := by
  induction H generalizing es with
  | nil =>
    cases K
    exact .nil
  | cons hd _ ih =>
    obtain ⟨e, es, he, hrest, rfl⟩ := List.forall₂_cons_right_iff.mp K
    exact .cons ⟨he.1.symm.trans hd.1, hd.2.of_common he.2⟩ (ih hrest)

end Deed

/-- Stages that share what concerns an actuator with the same stage share it with each other. -/
theorem Stage.Shares.of_common {a : ActuatorId} {v : Nat} {ρ σ : Nat → Nat → Prop} {s t u : Stage R}
    (H : s.Shares a v ρ u) (K : t.Shares a v σ u) : ∃ τ : Nat → Nat → Prop, Relator.BiUnique τ ∧
      Deed.SameShare τ (s.share a) (t.share a) ∧ t.rig.calls a = s.rig.calls a := by
  refine ⟨_, ⟨?_, ?_⟩, H.share.of_common K.share, K.rig.calls.symm.trans H.rig.calls⟩
  · rintro i j b ⟨k, hi, hb⟩ ⟨l, hj, hb'⟩
    obtain rfl := K.unique.2 hb hb'
    exact H.unique.1 hi hj
  · rintro i j b ⟨k, hi, hb⟩ ⟨l, hi', hb'⟩
    obtain rfl := H.unique.2 hi hi'
    exact K.unique.1 hb hb'

namespace Performance

/-- A performance of effects for several actuators, which has not begun. -/
def ofEffects (plan : Plan R) (entries : List (ActuatorId × Effect R)) (rig : Rig R) :
    Performance R := (fresh plan (.stereo entries) rig).opened

/-- Two motors that report when they are told to. One does while the other plays on, until that is
cancelled. -/
def duet : List (Happening Rat) :=
  [.conduct, .tick, .tick, .tick, .conduct, .tick, .stir 0 (.report 0), .conduct, .tick, .tick,
    .send .graceful, .conduct, .conduct, .conduct]

/-- The same with the one motor alone, whose performance is over by the time of the cancel. -/
def solo : List (Happening Rat) :=
  [.conduct, .tick, .tick, .tick, .conduct, .tick, .stir 0 (.report 0), .conduct, .conduct,
    .conduct, .tick, .tick, .send .graceful]

example :
    (((ofEffects ⟨1, ⟨1000, "com.example"⟩, .standard⟩ [(0, .pattern (.oneShot 3)),
      (1, .pattern (.oneShot 9))] (.bench [0, 1])).after duet).rig.calls 0).map (·.1) = [0, 0, 4] := by
  decide +kernel

end Performance
end Haptics
