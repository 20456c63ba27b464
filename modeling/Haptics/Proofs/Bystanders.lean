import Haptics.Proofs.Opening
import Haptics.Proofs.Shares

/-!
# Bystanders

What happens to the other actuators of a vibration, to the group and to the record of what was told
leaves an actuator's share of the stage alone. So the opening step, if it does not fail, does with
the actuator what its first step would have done by itself (`Stage.Shares.openVibration`).
-/

namespace Haptics

variable {R : Type}

/-- The lane and the task of a step, if it is one of a certain actuator. -/
def Step.own? (a : ActuatorId) : Step R → Option (Lane × Task R)
  | lane l task => if l.actuator = a then some (l, task) else none
  | start _ _ | finish => none

theorem Step.own_lane {a : ActuatorId} {l : Lane} (h : l.actuator = a) (task : Task R) :
    (Step.lane l task).own? a = some (l, task) := if_pos h

theorem Step.own_lane_of_ne {a : ActuatorId} {l : Lane} (h : l.actuator ≠ a) (task : Task R) :
    (Step.lane l task).own? a = none := if_neg h

theorem Step.own_eq_some {a : ActuatorId} {x : Step R} {y : Lane × Task R} :
    x.own? a = some y ↔ x = .lane y.1 y.2 ∧ y.1.actuator = a := by
  cases x with
  | lane l task =>
    obtain ⟨l', task'⟩ := y
    simp only [own?, Option.ite_none_right_eq_some, Option.some.injEq, Prod.mk.injEq, lane.injEq]
    constructor
    · rintro ⟨ha, rfl, rfl⟩
      exact ⟨⟨rfl, rfl⟩, ha⟩
    · rintro ⟨⟨rfl, rfl⟩, ha⟩
      exact ⟨ha, rfl, rfl⟩
  | _ => simp [own?]

/-- Tasks in lanes of an actuator that are the same up to the numbers of the steps. -/
def Lane.SameTask (a : ActuatorId) (ρ : Nat → Nat → Prop) (x y : Lane × Task R) : Prop :=
  x.1.Alike a ρ y.1 ∧ y.2 = x.2

/-- The lane of the first step of an actuator. -/
def Lane.first (id : Nat) (a : ActuatorId) (now : Nat) : Lane :=
  { id, start := .at now, actuator := a, deadline := .idle }

/-- The opening step issues a first step for each effect. -/
theorem Stage.mem_issueFirst (s : Stage R) {es : List (ActuatorId × Effect R)} {a : ActuatorId}
    {e : Effect R} (h : (a, e) ∈ es) : ∃ i, s.nextStep ≤ i ∧ i < s.nextStep + es.length ∧
      (Lane.first i a s.now, .ofEffect e, e) ∈ (s.issueFirst es).1 := by
  induction es generalizing s with
  | nil => cases h
  | cons x es ih =>
    rcases List.mem_cons.mp h with rfl | h
    · exact ⟨s.nextStep, Nat.le_refl _, by simp, List.mem_cons_self⟩
    · obtain ⟨i, hle, hlt, hi⟩ := ih { s with nextStep := s.nextStep + 1 } h
      rw [List.length_cons]
      dsimp only at hle hlt
      exact ⟨i, by omega, by omega, List.mem_cons_of_mem _ hi⟩

namespace Stage.Shares

variable {a : ActuatorId} {v : Nat} {ρ : Nat → Nat → Prop} {s t : Stage R}

/-! ## The group and the record -/

theorem withRig_aside (H : s.Shares a v ρ t) {r : Rig R} (h : r.Shares a v ρ t.rig) :
    Stage.Shares a v ρ { s with rig := r } t :=
  ⟨h, H.share, H.below, H.unique⟩

theorem withStart (H : s.Shares a v ρ t) (result : Option Int) :
    Stage.Shares a v ρ { s with startResult := result } t :=
  ⟨H.rig, H.share, H.below, H.unique⟩

theorem skip (H : s.Shares a v ρ t) (n : Nat) :
    Stage.Shares a v ρ { s with nextStep := s.nextStep + n } t where
  rig := H.rig
  share := H.share
  below i j h := by
    have := H.below i j h
    exact ⟨by dsimp only; omega, this.2⟩
  unique := H.unique

theorem tell (H : s.Shares a v ρ t) (x : Telemetry) : (s.tell x).Shares a v ρ t :=
  H.record_aside
      fun h => Option.some_ne_none a h.symm

theorem prepare (H : s.Shares a v ρ t) (required : Flags GroupCapability)
    (ids : List ActuatorId) : (s.prepare required ids).2.Shares a v ρ t := by
  have hcalls : ∀ c ∈ (s.rig.group.prepare (R := R) required ids).2, c.actuator? = none := by
    unfold Group.prepare Group.prepareIds
    split
    · split
      · split <;> simp [Call.actuator?]
      · simp
    · simp
  unfold Stage.prepare
  split
  · exact (H.withRig_aside (H.rig.noteCalls_aside hcalls)).record_aside
      fun h => Option.some_ne_none a h.symm
  · exact H

theorem trigger (H : s.Shares a v ρ t) (plan : Plan R) :
    (s.trigger plan).2.Shares a v ρ t := by
  have hcalls : ∀ c ∈ (s.rig.group.trigger (R := R) plan.vibration).2.2, c.actuator? = none := by
    unfold Group.trigger
    split
    · split
      · split <;> simp [Call.actuator?]
      · simp
    · simp
  exact (H.withRig_aside ((H.rig.group_aside _).noteCalls_aside hcalls)).record_aside
      fun h => Option.some_ne_none a h.symm

theorem cancelSync (H : s.Shares a v ρ t) : s.cancelSync.Shares a v ρ t := by
  have hcalls : ∀ c ∈ (s.rig.group.cancelSync (R := R)).2.2, c.actuator? = none := by
    unfold Group.cancelSync
    split
    · split
      · split <;> simp [Call.actuator?]
      · simp
    · simp
  exact (H.withRig_aside ((H.rig.group_aside _).noteCalls_aside hcalls)).record_aside
      fun h => Option.some_ne_none a h.symm

/-! ## Steps of other actuators -/

section
variable [Level R] {l l' : Lane}

theorem stop_aside (H : s.Shares a v ρ t) (h : l.actuator ≠ a) : (s.stop l).Shares a v ρ t :=
  (H.withRig_aside (H.rig.onDevice_aside h (Device.stop_uniform v) () 0)).record_aside
    fun hd => h (Option.some.inj hd)

theorem drive_aside (H : s.Shares a v ρ t) (h : l.actuator ≠ a) {plan : Plan R}
    (hv : plan.vibration = v) (x : Drive R) : (s.drive plan l x).2.2.Shares a v ρ t := by
  subst hv
  have hrig := H.rig.onDevice_aside h (Device.drive_uniform plan.vibration x) (0 : Int) l.id
  exact (H.withRig_aside hrig).record_aside fun hd : some l.actuator = some a =>
    h (Option.some.inj hd)

omit [Level R] in
theorem setAmplitude_aside (H : s.Shares a v ρ t) (h : l.actuator ≠ a) (x : R) :
    (s.setAmplitude l x).Shares a v ρ t :=
  (H.withRig_aside (H.rig.onDevice_aside h (Device.setAmplitude_uniform v x) false 0)).record_aside
    fun hd => h (Option.some.inj hd)

theorem cancelNow_aside (H : s.Shares a v ρ t) (plan : Plan R) {x : Step R}
    (h : x.own? a = none) : (s.cancelNow plan x).Shares a v ρ t := by
  cases x with
  | start => exact H
  | lane l task =>
    have hl : l.actuator ≠ a := fun hl => by simp [Step.own?, hl] at h
    show (l.cancelNow s task).Shares a v ρ t
    rw [Lane.cancelNow_eq]
    split
    · exact H.stop_aside hl
    · exact H
  | finish => exact H.tell _

/-- Both stages tear the actuator's step down, the one stage among others. -/
theorem tearDown (H : s.Shares a v ρ t) (plan : Plan R) {xs : List (Step R)}
    {y? : Option (Lane × Task R)}
    (h : List.Forall₂ (Lane.SameTask a ρ) (xs.filterMap (Step.own? a)) y?.toList) :
    (s.tearDown plan xs).Shares a v ρ (y?.elim t fun y => y.1.cancelNow t y.2) := by
  induction xs generalizing s t y? with
  | nil =>
    cases y? with
    | none => exact H
    | some y => cases h
  | cons x xs ih =>
    cases hx : x.own? a with
    | none =>
      rw [List.filterMap_cons_none hx] at h
      exact ih (H.cancelNow_aside plan hx) h
    | some z =>
      rw [List.filterMap_cons_some hx] at h
      obtain ⟨rfl, -⟩ := Step.own_eq_some.mp hx
      obtain ⟨⟨l', task'⟩, ys, ⟨L, rfl⟩, hrest, hy⟩ := List.forall₂_cons_left_iff.mp h
      cases y? with
      | none => cases hy
      | some y =>
        obtain ⟨rfl, rfl⟩ : y = (l', z.2) ∧ [] = ys := by simpa using hy
        have hstop : (z.1.cancelNow s z.2).Shares a v ρ (l'.cancelNow t z.2) := by
          rw [Lane.cancelNow_eq, Lane.cancelNow_eq, Deadline.isPending_of_blank L.blank, H.now]
          split
          · exact H.stop L
          · exact H
        have hnone : List.Forall₂ (Lane.SameTask a ρ) (xs.filterMap (Step.own? a))
            (none : Option (Lane × Task R)).toList := hrest
        exact ih hstop hnone

end

/-- The same lane of another actuator on the same stage, whose share does not change. -/
def Bystander (a : ActuatorId) (v : Nat) (ρ : Nat → Nat → Prop) (t : Stage R) (l : Lane)
    (s : Stage R) (l' : Lane) (s' : Stage R) : Prop :=
  l' = l ∧ s' = s ∧ l.actuator ≠ a ∧ s.Shares a v ρ t

theorem bystander_likeness [Level R] (plan : Plan R) (a : ActuatorId) (ρ : Nat → Nat → Prop)
    (t : Stage R) : Lane.Likeness plan (Bystander a plan.vibration ρ t) where
  now := by rintro l s _ _ ⟨rfl, rfl, -⟩; rfl
  start := by rintro l s _ _ ⟨rfl, rfl, -⟩; rfl
  reported := by rintro l s _ _ ⟨rfl, rfl, -⟩; rfl
  deadline := by rintro l s _ _ ⟨rfl, rfl, -⟩; rfl
  amplitude := by rintro l s _ _ ⟨rfl, rfl, -⟩; rfl
  isActive := by rintro l s _ _ ⟨rfl, rfl, -⟩; rfl
  limit := by rintro l s _ _ ⟨rfl, rfl, -⟩ f; rfl
  drive := by rintro l s _ _ x ⟨rfl, rfl, h, H⟩; exact ⟨rfl, rfl, rfl, h, H.drive_aside h rfl x⟩
  stop := by rintro l s _ _ ⟨rfl, rfl, h, H⟩; exact ⟨rfl, rfl, h, H.stop_aside h⟩
  setAmplitude := by
    rintro l s _ _ x ⟨rfl, rfl, h, H⟩
    exact ⟨rfl, rfl, h, H.setAmplitude_aside h x⟩
  issue := by rintro l s _ _ start - ⟨rfl, rfl, h, H⟩; exact ⟨rfl, rfl, h, H.skip 1⟩
  idle := by rintro l s _ _ ⟨rfl, rfl, h, H⟩; exact ⟨rfl, rfl, h, H⟩
  unreported := by rintro l s _ _ ⟨rfl, rfl, h, H⟩; exact ⟨rfl, rfl, h, H⟩
  ramp := by rintro l s _ _ t ⟨rfl, rfl, h, H⟩; exact ⟨rfl, rfl, h, H⟩

theorem play_aside [Level R] {plan : Plan R} (H : s.Shares a plan.vibration ρ t) {l : Lane}
    (h : l.actuator ≠ a) (task : Task R) :
    (l.play plan s task).stage.Shares a plan.vibration ρ t ∧
      (l.play plan s task).next.filterMap (Step.own? a) = [] := by
  have hplay := (bystander_likeness plan a ρ t).play ⟨rfl, rfl, h, H⟩ task
  generalize l.play plan s task = p at hplay ⊢
  cases hplay with
  | halt M => exact ⟨M.2.2.2, rfl⟩
  | follow task M => exact ⟨M.2.2.2, by simp [Step.own?, M.2.2.1]⟩

/-- Playing the actuator's step on both stages has the same answer and leaves the same to do, up to
the numbers of the steps. -/
theorem play_own [Level R] {plan : Plan R} (H : s.Shares a plan.vibration ρ t) {l l' : Lane}
    (L : l.Alike a ρ l') (task : Task R) :
    (l'.play plan t task).result = (l.play plan s task).result ∧
      ∃ σ, (∀ i j, ρ i j → σ i j) ∧
        (l.play plan s task).stage.Shares a plan.vibration σ (l'.play plan t task).stage ∧
        List.Forall₂ (Lane.SameTask a σ) ((l.play plan s task).next.filterMap (Step.own? a))
          ((l'.play plan t task).next.head?.bind Step.lane?).toList := by
  have hplay := (shares_likeness plan a ρ).play ⟨ρ, fun _ _ => id, H, L⟩ task
  generalize l.play plan s task = p at hplay ⊢
  generalize l'.play plan t task = p' at hplay ⊢
  cases hplay with
  | halt M =>
    obtain ⟨σ, hσ, hstage, -⟩ := M
    exact ⟨rfl, σ, hσ, hstage, .nil⟩
  | follow task M =>
    obtain ⟨σ, hσ, hstage, hlane⟩ := M
    refine ⟨rfl, σ, hσ, hstage, ?_⟩
    have hown := (Step.own_eq_some (x := .lane _ task) (y := (_, task))).mpr ⟨rfl, hlane.actuator⟩
    rw [List.filterMap_cons_some hown]
    exact .cons ⟨hlane, rfl⟩ .nil

/-! ## The opening step -/

section
variable [Level R] {plan : Plan R}

/-- Starting other actuators changes nothing. -/
theorem openEach_aside (H : s.Shares a plan.vibration ρ t) (next : List (Step R)) (longest : Int)
    {firsts : List (Lane × Task R × Effect R)} (h : ∀ x ∈ firsts, x.1.actuator ≠ a) :
    (s.openEach plan next longest firsts).stage.Shares a plan.vibration ρ t ∧
      (s.openEach plan next longest firsts).next.filterMap (Step.own? a) =
        next.filterMap (Step.own? a) := by
  induction firsts generalizing s next longest with
  | nil => exact ⟨H, rfl⟩
  | cons x firsts ih =>
    obtain ⟨l, task, e⟩ := x
    obtain ⟨hstage, hnext⟩ := H.play_aside (h _ List.mem_cons_self) task
    have hmore : (next ++ (l.play plan s task).next).filterMap (Step.own? a) =
        next.filterMap (Step.own? a) := by
      rw [List.filterMap_append, hnext, List.append_nil]
    unfold Stage.openEach
    dsimp only
    split
    · exact ⟨hstage, hmore⟩
    · obtain ⟨hrest, hnext⟩ := ih hstage _ _ fun x hx => h x (List.mem_cons_of_mem _ hx)
      exact ⟨hrest, hnext.trans hmore⟩

/-- If all actuators start, one of them starts as it would by itself. -/
theorem openEach (H : s.Shares a plan.vibration ρ t) {next : List (Step R)} {longest : Int}
    (hnext : next.filterMap (Step.own? a) = []) {firsts : List (Lane × Task R × Effect R)}
    (distinct : (firsts.map (·.1.actuator)).Nodup) {l l' : Lane} (L : l.Alike a ρ l')
    {task : Task R} {e : Effect R} (hl : (l, task, e) ∈ firsts)
    (started : (s.openEach plan next longest firsts).longest ≠ none) :
    0 ≤ (l'.play plan t task).result ∧ ∃ σ,
      (s.openEach plan next longest firsts).stage.Shares a plan.vibration σ
        (l'.play plan t task).stage ∧
      List.Forall₂ (Lane.SameTask a σ)
        ((s.openEach plan next longest firsts).next.filterMap (Step.own? a))
        ((l'.play plan t task).next.head?.bind Step.lane?).toList := by
  induction firsts generalizing s next longest with
  | nil => cases hl
  | cons x firsts ih =>
    obtain ⟨hx, hdistinct⟩ := List.nodup_cons.mp distinct
    have hother : ∀ y ∈ firsts, y.1.actuator ≠ x.1.actuator := fun y hy hyx =>
      hx (List.mem_map.mpr ⟨y, hy, hyx⟩)
    unfold Stage.openEach at started ⊢
    rcases List.mem_cons.mp hl with rfl | hl
    · obtain ⟨hresult, σ, -, hstage, hown⟩ := H.play_own L task
      dsimp only at started ⊢
      split at started
      · exact absurd rfl started
      · rename_i hok
        rw [if_neg hok]
        obtain ⟨hrest, hmore⟩ := hstage.openEach_aside (next ++ (l.play plan s task).next)
          (max longest (max (l.play plan s task).result e.expected))
          (L.actuator ▸ hother)
        refine ⟨hresult ▸ Int.not_lt.mp hok, σ, hrest, ?_⟩
        rw [hmore, List.filterMap_append, hnext]
        exact hown
    · have hne : x.1.actuator ≠ a := L.actuator ▸ (hother _ hl).symm
      obtain ⟨hstage, hmore⟩ := H.play_aside hne x.2.1
      dsimp only at started ⊢
      split at started
      · exact absurd rfl started
      · rename_i hok
        rw [if_neg hok]
        exact ih hstage (by rw [List.filterMap_append, hnext, hmore]; rfl) hdistinct hl started

/-- What follows a start that did not fail concerns the group only. -/
theorem close (H : s.Shares a plan.vibration ρ t) (next : List (Step R)) (m : Int)
    (prepared : Bool) :
    (Opened.close ⟨s, next, some m⟩ plan prepared).stage.Shares a plan.vibration ρ t := by
  unfold Opened.close
  dsimp only
  split
  · split
    · exact (H.trigger plan).cancelSync
    · exact H.trigger plan
  · split
    · exact H.cancelSync
    · exact H

end

section
variable [Level R] {plan : Plan R} {entries : List (ActuatorId × Effect R)} {e : Effect R}

omit [Level R] in
/-- A step number of the one stage and the number zero of the other are the first to correspond. -/
theorem pair (H : s.Shares a v (fun _ _ => False) t) {i n : Nat} (hi : i < s.nextStep + n)
    (ht : 0 < t.nextStep) : Stage.Shares a v (fun j k => j = i ∧ k = 0)
      { s with nextStep := s.nextStep + n } t :=
  (H.skip n).mono (fun _ _ => False.elim) (by rintro _ _ ⟨rfl, rfl⟩; exact ⟨hi, ht⟩)
    ⟨by rintro _ _ _ ⟨rfl, -⟩ ⟨rfl, -⟩; rfl, by rintro _ _ _ ⟨-, rfl⟩ ⟨-, rfl⟩; rfl⟩

/-- Of an opening step that did not fail, an actuator sees its own first step. -/
theorem openAll (H : s.Shares a plan.vibration (fun _ _ => False) t) (ht : 0 < t.nextStep)
    {es : List (ActuatorId × Effect R)} (distinct : (es.map (·.1)).Nodup) (he : (a, e) ∈ es)
    (started : 0 ≤ (s.openAll plan es).result) :
    0 ≤ ((Lane.first 0 a t.now).play plan t (.ofEffect e)).result ∧ ∃ σ,
      (s.openAll plan es).stage.Shares a plan.vibration σ
        ((Lane.first 0 a t.now).play plan t (.ofEffect e)).stage ∧
      List.Forall₂ (Lane.SameTask a σ) ((s.openAll plan es).next.filterMap (Step.own? a))
        (((Lane.first 0 a t.now).play plan t (.ofEffect e)).next.head?.bind Step.lane?).toList := by
  have hempty : es.isEmpty = false := List.isEmpty_eq_false_iff.mpr (List.ne_nil_of_mem he)
  obtain ⟨i, -, hi, hmem⟩ := s.mem_issueFirst he
  have hfirsts := s.issueFirst_fst es
  have hissue := s.issueFirst_snd es
  have hpair := H.pair hi ht
  unfold Stage.openAll at started ⊢
  rw [hempty, if_neg Bool.false_ne_true] at started ⊢
  generalize s.issueFirst es = issued at hmem hfirsts hissue started ⊢
  obtain ⟨firsts, s₁⟩ := issued
  dsimp only at hmem hfirsts hissue started ⊢
  subst hissue
  rw [prepare_of_length] at started ⊢
  have hprepared := hpair.prepare (requiredSync (es.map (·.2))) (es.map (·.1))
  have L : (Lane.first i a s.now).Alike a (fun j k => j = i ∧ k = 0) (Lane.first 0 a t.now) :=
    ⟨⟨rfl, rfl⟩, rfl, rfl, congrArg StartTime.at H.now, nofun, rfl, rfl, .none⟩
  have hactuators : (firsts.map (·.1.actuator)).Nodup := by
    rw [Stage.Drives.actuators_eq hfirsts]
    exact distinct
  generalize hopened : Stage.openEach _ plan [] 0 firsts = o at started ⊢
  obtain ⟨u, next, longest⟩ := o
  cases longest with
  | none =>
    have hfailed : (0 : Int) ≤ -1 := started
    exact absurd hfailed (by decide)
  | some m =>
    obtain ⟨hresult, σ, hstage, hown⟩ :=
      hprepared.openEach rfl hactuators L hmem (by rw [hopened]; nofun)
    rw [hopened] at hstage hown
    exact ⟨hresult, σ, hstage.close _ _ _, hown⟩

/-- An opening step without the actuator changes nothing, if it does not fail. -/
theorem openAll_aside (H : s.Shares a plan.vibration ρ t) {es : List (ActuatorId × Effect R)}
    (h : ∀ x ∈ es, x.1 ≠ a) (started : 0 ≤ (s.openAll plan es).result) :
    (s.openAll plan es).stage.Shares a plan.vibration ρ t ∧
      (s.openAll plan es).next.filterMap (Step.own? a) = [] := by
  have hfirsts := s.issueFirst_fst es
  have hissue := s.issueFirst_snd es
  unfold Stage.openAll at started ⊢
  split
  · exact ⟨H, rfl⟩
  · rename_i hempty
    rw [if_neg hempty] at started
    generalize s.issueFirst es = issued at hfirsts hissue started ⊢
    obtain ⟨firsts, s₁⟩ := issued
    dsimp only at hfirsts hissue started ⊢
    subst hissue
    rw [prepare_of_length] at started ⊢
    have hprepared := (H.skip es.length).prepare (requiredSync (es.map (·.2))) (es.map (·.1))
    have hothers : ∀ x ∈ firsts, x.1.actuator ≠ a := fun x hx =>
      h (x.1.actuator, x.2.2) (hfirsts ▸ List.mem_map_of_mem hx)
    obtain ⟨hstage, hnext⟩ := hprepared.openEach_aside [] 0 hothers
    generalize Stage.openEach _ plan [] 0 firsts = o at started hstage hnext ⊢
    obtain ⟨u, next, longest⟩ := o
    cases longest with
    | none =>
      have hfailed : (0 : Int) ≤ -1 := started
      exact absurd hfailed (by decide)
    | some m => exact ⟨hstage.close _ _ _, hnext⟩

omit [Level R] in
theorem own_finish (xs : List (Step R)) :
    (xs ++ [Step.finish]).filterMap (Step.own? a) = xs.filterMap (Step.own? a) := by
  rw [List.filterMap_append]
  exact List.append_nil _

/-- What an opening step does beyond the start does not concern an actuator. -/
theorem openVibration_eq (v : Vibration R)
    (H : (s.openAll plan (s.effects v)).stage.Shares a plan.vibration ρ t) :
    (s.openVibration plan v).stage.Shares a plan.vibration ρ t ∧
      (s.openVibration plan v).next.filterMap (Step.own? a) =
        (s.openAll plan (s.effects v)).next.filterMap (Step.own? a) := by
  unfold Stage.openVibration
  dsimp only
  split
  · exact ⟨(H.withStart _).tell _, own_finish _⟩
  · exact ⟨H.withStart _, rfl⟩

/-- Of an opening step that did not fail, an actuator sees its own first step. -/
theorem openVibration (H : s.Shares a plan.vibration (fun _ _ => False) t) (ht : 0 < t.nextStep)
    (distinct : (entries.map (·.1)).Nodup) (he : (a, e) ∈ entries)
    (registered : (s.rig.device? a).isSome = true)
    (started : 0 ≤ (s.openVibration plan (.stereo entries)).result) :
    0 ≤ ((Lane.first 0 a t.now).play plan t (.ofEffect e)).result ∧ ∃ σ,
      (s.openVibration plan (.stereo entries)).stage.Shares a plan.vibration σ
        ((Lane.first 0 a t.now).play plan t (.ofEffect e)).stage ∧
      List.Forall₂ (Lane.SameTask a σ)
        ((s.openVibration plan (.stereo entries)).next.filterMap (Step.own? a))
        (((Lane.first 0 a t.now).play plan t (.ofEffect e)).next.head?.bind Step.lane?).toList := by
  rw [result_openVibration] at started
  obtain ⟨hresult, σ, hstage, hown⟩ := H.openAll ht
    (distinct.sublist (List.filter_sublist.map _)) (List.mem_filter.mpr ⟨he, registered⟩) started
  obtain ⟨hopened, hnext⟩ := openVibration_eq (.stereo entries) hstage
  exact ⟨hresult, σ, hopened, by rw [hnext]; exact hown⟩

theorem openVibration_aside (H : s.Shares a plan.vibration ρ t)
    (unregistered : s.rig.device? a = none)
    (started : 0 ≤ (s.openVibration plan (.stereo entries)).result) :
    (s.openVibration plan (.stereo entries)).stage.Shares a plan.vibration ρ t ∧
      (s.openVibration plan (.stereo entries)).next.filterMap (Step.own? a) = [] := by
  rw [result_openVibration] at started
  have hothers : ∀ x ∈ s.effects (.stereo entries), x.1 ≠ a := by
    rintro x hx rfl
    have hregistered : (s.rig.device? x.1).isSome = true := (List.mem_filter.mp hx).2
    rw [unregistered] at hregistered
    cases hregistered
  obtain ⟨hstage, hown⟩ := H.openAll_aside hothers started
  obtain ⟨hopened, hnext⟩ := openVibration_eq (.stereo entries) hstage
  exact ⟨hopened, hnext.trans hown⟩

/-- The opening step of an actuator by itself does not fail if its first step does not. -/
theorem started_alone (H : s.Shares a plan.vibration (fun _ _ => False) t) (ht : 0 < t.nextStep)
    (h : (s.rig.device? a).isSome = true →
      0 ≤ ((Lane.first 0 a t.now).play plan t (.ofEffect e)).result) :
    0 ≤ (s.openVibration plan (.stereo [(a, e)])).result := by
  rw [result_openVibration]
  have heffects : s.effects (.stereo [(a, e)]) =
      if (s.rig.device? a).isSome then [(a, e)] else [] := by
    unfold Stage.effects
    simp [Vibration.expand, List.filter_singleton]
  rw [heffects]
  split
  · rename_i hregistered
    have L : (Lane.first s.nextStep a s.now).Alike a (fun j k => j = s.nextStep ∧ k = 0)
        (Lane.first 0 a t.now) :=
      ⟨⟨rfl, rfl⟩, rfl, rfl, congrArg StartTime.at H.now, nofun, rfl, rfl, .none⟩
    obtain ⟨hresult, -⟩ := (H.pair (n := 1) (Nat.lt_succ_self _) ht).play_own L (.ofEffect e)
    have hok : ¬((Lane.first s.nextStep a s.now).play plan
        { s with nextStep := s.nextStep + 1 } (.ofEffect e)).result < 0 := by
      rw [← hresult]
      exact Int.not_lt.mpr (h hregistered)
    have hopened : Stage.openEach { s with nextStep := s.nextStep + 1 } plan [] 0
        [(Lane.first s.nextStep a s.now, .ofEffect e, e)] =
        ⟨_, _, some (max 0 (max _ e.expected))⟩ := if_neg hok
    have hall : (s.openAll plan [(a, e)]).result = (Opened.close (Stage.openEach
        { s with nextStep := s.nextStep + 1 } plan [] 0
        [(Lane.first s.nextStep a s.now, .ofEffect e, e)]) plan false).result := rfl
    rw [hall, hopened]
    exact Int.le_max_left ..
  · exact Int.le_refl 0

end

end Stage.Shares
end Haptics
