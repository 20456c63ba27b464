import Haptics.Proofs.Strays
import Haptics.Proofs.Waking
import Mathlib.Data.Prod.Lex

/-!
# Every performance comes to its end

What a performance has still to do is measured by `Run.rank`: whether it is still to be started,
what its steps are worth, and whether it has to wait for the next one. Each turn of the conductor
brings it down once no more mail comes (`Performance.next_nearer`), so a report that is lost may
delay a performance but does not keep it from ending (`Performance.comesToEnd`).
-/

namespace Haptics

/-! ## What the run of a performance goes through -/

section
variable {R : Type} [Level R]

namespace Run

theorem turns_eq_nil {r : Run R} {ms : List (Move R)} (h : .play ∉ ms) : r.turns ms = [] := by
  induction ms generalizing r with
  | nil => rfl
  | cons m ms ih =>
    have hdue := (r.due_cases m).resolve_right fun h' => h (h'.1 ▸ List.mem_cons_self)
    rw [turns, hdue, ih fun h' => h (List.mem_cons_of_mem m h')]
    rfl

theorem turns_append (r : Run R) (ms ns : List (Move R)) :
    r.turns (ms ++ ns) = r.turns ms ++ (r.moves ms).turns ns := by
  induction ms generalizing r with
  | nil => rfl
  | cons m ms ih =>
    rw [List.cons_append, turns, turns, ih, List.append_assoc]
    rfl

/-- A move of the world that leaves the hardware as it is in another run leads to that run. -/
theorem move_world {r : Run R} (r' : Run R) (h : r' = r.withRig r'.rig) (le : r.now ≤ r'.now) :
    r.move (.world fun _ => r'.rig) = r' := by
  have hmax : max r'.rig.now r.now = r'.rig.now := Nat.max_eq_left le
  have hclock : r'.rig.moveTo r.now = r'.rig := by
    unfold Rig.moveTo
    rw [hmax]
  unfold move
  dsimp only
  rw [hclock]
  exact h.symm

end Run

namespace Performance

/-- What happens to the run when the conductor handles its mail. -/
def mail (p : Performance R) : List (Move R) :=
  p.cancels.map .cancel ++ p.reports.map .hear ++ [.world fun _ => p.handleMail.rig]

/-- What happens to the run when something happens to a performance. -/
def movesOf (p : Performance R) : Act R → List (Move R)
  | .conduct =>
    let q := p.handleMail
    if p.isOver then []
    else if q.run.playDue?.isSome then p.mail ++ [.play]
    else if q.run.isOver then p.mail ++ [.world fun _ => q.close.rig]
    else if q.run.queue.nextWake = none ∧ !q.callerPresent ∧ !q.hearsReports then
      p.mail ++ [.cancel .immediate]
    else p.mail
  | a => [.world fun _ => (p.act a).rig]

/-- What happens to the run of a performance in the course of some acts. -/
def trace : Performance R → List (Act R) → List (Move R)
  | _, [] => []
  | p, a :: as => p.movesOf a ++ (p.act a).trace as

theorem run_handleMail (p : Performance R) : p.handleMail.run = p.run.moves p.mail := by
  have hrun : p.handleMail.run = _ := congrArg (·.run) p.handleMail_eq
  have hmoves : p.reports.foldl Run.hear (p.cancels.foldl Run.cancel p.run) =
      p.run.moves (p.cancels.map .cancel ++ p.reports.map .hear) := by
    rw [Run.moves_append, ← foldl_cancel, ← foldl_hear]
  rw [hmoves] at hrun
  unfold mail
  rw [Run.moves_concat]
  refine (Run.move_world p.handleMail.run ?_ ?_).symm
  · show p.handleMail.run = Run.withRig _ p.handleMail.run.rig
    rw [hrun]
    rfl
  · show _ ≤ p.handleMail.run.now
    rw [hrun]
    exact Nat.le_refl _

theorem act_of_step {p q : Performance R} (h : p.step? = some q) : p.act .conduct = q :=
  congrArg (·.getD p) h

theorem act_of_idle {p : Performance R} (h : p.step? = none) : p.act .conduct = p :=
  congrArg (·.getD p) h

theorem act_of_over {p : Performance R} (h : p.isOver = true) : p.act .conduct = p := by
  refine act_of_idle ?_
  unfold step?
  rw [if_pos h]

theorem run_act (p : Performance R) (a : Act R) : (p.act a).run = p.run.moves (p.movesOf a) := by
  cases a with
  | conduct =>
    unfold movesOf
    dsimp only
    by_cases hover : p.isOver = true
    · rw [if_pos hover, act_of_over hover]
      rfl
    · rw [if_neg hover, act_conduct (Bool.not_eq_true _ ▸ hover)]
      cases hplay : p.handleMail.run.playDue? with
      | some run =>
        have hplays : (some run).isSome = true := rfl
        rw [if_pos hplays, Run.moves_concat, ← run_handleMail, Run.move, hplay]
        rfl
      | none =>
        have hidle : ¬(none : Option (Run R)).isSome = true := Bool.false_ne_true
        rw [if_neg hidle]
        dsimp only
        split
        · rw [Run.moves_concat, ← run_handleMail]
          exact (Run.move_world p.handleMail.close.run rfl (Nat.le_refl _)).symm
        · split
          · rw [Run.moves_concat, ← run_handleMail]
            rfl
          · exact p.run_handleMail
  | arrive e => exact (Run.move_world (p.act (.arrive e)).run rfl (Nat.le_refl _)).symm
  | send mode =>
    have hsame : (p.act (.send mode)).run = p.run := by
      show (p.send mode).2.run = p.run
      unfold send
      split <;> rfl
    refine (Run.move_world (p.act (.send mode)).run ?_ ?_).symm
    · rw [hsame]
      rfl
    · rw [hsame]
  | leave => exact (Run.move_world (p.act .leave).run rfl (Nat.le_refl _)).symm
  | world f =>
    exact (Run.move_world (p.act (.world f)).run rfl (Nat.le_max_right ..)).symm
  | attach v c => exact (Run.move_world (p.act (.attach v c)).run rfl (Nat.le_refl _)).symm
  | detach v => exact (Run.move_world (p.act (.detach v)).run rfl (Nat.le_refl _)).symm

theorem run_acts (p : Performance R) (as : List (Act R)) :
    (p.acts as).run = p.run.moves (p.trace as) := by
  induction as generalizing p with
  | nil => rfl
  | cons a as ih =>
    rw [trace, Run.moves_append, ← run_act]
    exact ih (p.act a)

/-- No drive in the course of some acts takes an unknown time, or so long a time that the clock
cannot name its end. -/
def Definite (p : Performance R) (as : List (Act R)) : Prop :=
  ∀ t ∈ p.run.turns (p.trace as), t.Definite p.run.plan

instance (p : Performance R) (as : List (Act R)) : Decidable (p.Definite as) :=
  inferInstanceAs (Decidable (∀ t ∈ _, Turn.Definite _ t))

theorem definite_append {p : Performance R} {as bs : List (Act R)} :
    p.Definite (as ++ bs) ↔ p.Definite as ∧ (p.acts as).Definite bs := by
  have hplan : (p.acts as).run.plan = p.run.plan := by
    rw [run_acts]
    exact p.run.plan_moves _
  have htrace : p.trace (as ++ bs) = p.trace as ++ (p.acts as).trace bs := by
    clear hplan
    induction as generalizing p with
    | nil => rfl
    | cons a as ih =>
      rw [List.cons_append, trace, trace, ih, List.append_assoc]
      rfl
  unfold Definite
  rw [htrace, Run.turns_append, ← run_acts, hplan, List.forall_mem_append]

end Performance

/-! ## Quiet performances -/

namespace Bridge

variable (b : Bridge)

theorem waiting_attach (v capacity j : Nat) : (b.attach v capacity).waiting j = b.waiting j := by
  unfold attach waiting
  rw [Array.getElem?_push]
  split
  · rename_i h
    rw [Array.getElem?_eq_none (Nat.le_of_eq h.symm)]
    rfl
  · rfl

theorem waiting_detach (v j : Nat) : (b.detach v).waiting j = b.waiting j := by
  unfold detach
  split <;> rfl

theorem waiting_read (j : Nat) : (b.read j).2.waiting j = [] := by
  unfold read
  rw [waiting_modify, if_pos rfl]
  cases b.inboxes[j]? <;> rfl

theorem waiting_abandon (j : Nat) : (b.abandon j).waiting j = [] := by
  unfold abandon
  rw [waiting_modify, if_pos rfl]
  cases b.inboxes[j]? <;> rfl

end Bridge

theorem Run.bridge_of_playDue {r r' : Run R} (h : r.playDue? = some r') :
    r'.rig.bridge = r.rig.bridge := by
  have hplay : r.playDue? = r.playDue?.map (·.withBridge r.rig.bridge) :=
    r.playDue_withBridge r.rig.bridge
  rw [h] at hplay
  exact congrArg (·.rig.bridge) (Option.some.inj hplay)

/-- Neither a report comes nor a cancel. -/
def Act.IsQuiet : Act R → Prop
  | arrive _ | send _ => False
  | conduct | leave | world _ | attach _ _ | detach _ => True

namespace Performance

variable {p q : Performance R}

/-- No mail waits for the conductor. -/
def Calm (p : Performance R) : Prop := p.cancels = [] ∧ p.reports = []

omit [Level R] in
theorem Calm.of_waiting (C : p.Calm) (cancels : q.cancels = p.cancels) (inbox : q.inbox = p.inbox)
    (h : ∀ i, q.rig.bridge.waiting i = p.rig.bridge.waiting i) : q.Calm := by
  refine ⟨cancels.trans C.1, Eq.trans ?_ C.2⟩
  unfold reports takeReports
  rw [inbox]
  cases p.inbox with
  | none => rfl
  | some i => exact h i

theorem calm_handleMail (p : Performance R) : p.handleMail.Calm := by
  rw [handleMail_eq]
  refine ⟨rfl, ?_⟩
  unfold reports takeReports emptied
  dsimp only
  cases p.inbox with
  | none => rfl
  | some i => exact p.rig.bridge.waiting_read i

omit [Level R] in
theorem Calm.withRun (C : p.Calm) {r : Run R} (h : r.rig.bridge = p.rig.bridge) :
    Calm { p with run := r } :=
  C.of_waiting rfl rfl fun i => congrArg (·.waiting i) h

omit [Level R] in
theorem calm_close (p : Performance R) : p.close.Calm := by
  refine ⟨rfl, ?_⟩
  unfold reports takeReports
  cases hi : p.inbox with
  | none =>
    have hclose : p.close.inbox = none := hi
    rw [hclose]
  | some i =>
    have hclose : p.close.inbox = some i := hi
    rw [hclose]
    unfold close
    rw [hi]
    exact Bridge.waiting_abandon _ i

/-- Once the conductor did something, no mail waits for it. -/
theorem calm_conduct (alive : p.isOver = false) : (p.act .conduct).Calm := by
  have C := p.calm_handleMail
  rw [act_conduct alive]
  cases hplay : p.handleMail.run.playDue? with
  | some r => exact C.withRun (Run.bridge_of_playDue hplay)
  | none =>
    dsimp only
    split
    · exact calm_close _
    · split
      · refine C.withRun ?_
        have hbridge := p.handleMail.run.cancel_withBridge p.handleMail.rig.bridge .immediate
        exact congrArg (·.rig.bridge) hbridge
      · exact C

theorem Calm.quiet (C : p.Calm) (alive : p.isOver = false) {a : Act R} (quiet : a.IsQuiet) :
    (p.act a).Calm := by
  cases a with
  | conduct => exact calm_conduct alive
  | arrive | send => exact quiet.elim
  | leave => exact C.of_waiting rfl rfl fun _ => rfl
  | world f => exact C.withRun rfl
  | attach v c => exact C.of_waiting rfl rfl (p.rig.bridge.waiting_attach v c)
  | detach v => exact C.of_waiting rfl rfl (p.rig.bridge.waiting_detach v)

theorem over_act (h : p.isOver = true) (a : Act R) : (p.act a).isOver = true := by
  cases a with
  | conduct => rw [act_of_over h]; exact h
  | send mode =>
    show (p.send mode).2.isOver = true
    unfold send
    split
    · exact h
    · exact h
  | arrive | leave | world | attach | detach => exact h

theorem over_acts (h : p.isOver = true) (as : List (Act R)) : (p.acts as).isOver = true := by
  induction as generalizing p with
  | nil => exact h
  | cons a as ih => exact ih (over_act h a)

/-- What the task of the conductor does: the next thing there is to do, or it sleeps until it is
time to go on. -/
def next (p : Performance R) : Act R :=
  match p.step?, p.wake? with
  | none, some t => .world (·.moveTo t)
  | _, _ => .conduct

theorem next_of_step (h : p.step? = some q) : p.next = .conduct := by
  unfold next
  rw [h]

theorem next_of_wake {t : Nat} (idle : p.step? = none) (wake : p.wake? = some t) :
    p.next = .world (·.moveTo t) := by
  unfold next
  rw [idle, wake]

/-- What happens to a performance in `n` turns of its conductor: before each of them, what `env`
says. -/
def script (p : Performance R) (env : Nat → List (Act R)) : Nat → List (Act R)
  | 0 => []
  | n + 1 => p.script env n ++ env n ++ [(p.acts (p.script env n ++ env n)).next]

end Performance
end

/-! ## How far from its end a run is -/

namespace Run

variable {v : Vibration Rat} {asked : Nat} {r r' : Run Rat}

/-- How far from its end a run is: whether it is still to be started, then what its steps are worth,
then whether it has to wait for the next one. -/
def rank (r : Run Rat) : ℕ ×ₗ ℕ ×ₗ ℕ :=
  toLex (if r.stage.startResult = none then 1 else 0,
    toLex (r.worth, if r.playDue?.isSome then 0 else 1))

/-- A run gets no further from its end if nothing is started and its steps are worth no more. -/
theorem rank_le (start : r'.stage.startResult = r.stage.startResult) (worth : r'.worth ≤ r.worth)
    (due : r.playDue?.isSome = true → r'.playDue?.isSome = true) : r'.rank ≤ r.rank := by
  unfold rank
  rw [start]
  refine Prod.Lex.toLex_le_toLex.mpr (.inr ⟨rfl, Prod.Lex.toLex_le_toLex.mpr ?_⟩)
  rcases Nat.lt_or_eq_of_le worth with hlt | heq
  · exact .inl hlt
  · refine .inr ⟨heq, ?_⟩
    by_cases h : r.playDue?.isSome = true
    · exact Nat.le_of_eq (by rw [if_pos (due h), if_pos h])
    · rw [if_neg h]
      split
      · exact Nat.zero_le 1
      · exact Nat.le_refl 1

/-- A run whose next step becomes due is nearer to its end. -/
theorem rank_lt_of_due (start : r'.stage.startResult = r.stage.startResult)
    (worth : r'.worth = r.worth) (idle : r.playDue? = none) (due : r'.playDue?.isSome = true) :
    r'.rank < r.rank := by
  unfold rank
  rw [start, worth, idle, if_pos due]
  exact Prod.Lex.toLex_lt_toLex.mpr
    (.inr ⟨rfl, Prod.Lex.toLex_lt_toLex.mpr (.inr ⟨rfl, Nat.one_pos⟩)⟩)

/-- A step that is played brings a run nearer to its end. -/
theorem Fit.rank_play (F : r.Fit v asked) (due : r.playDue?.isSome = true) :
    (r.move .play).rank < r.rank := by
  obtain ⟨⟨x, q⟩, hpop⟩ := Option.isSome_iff_exists.mp (Option.isSome_map.symm.trans due)
  have hdue : r.due .play = [x] := by rw [Run.due, hpop]; rfl
  unfold rank
  rcases (r.move_moved .play).opens F.phase with hsame | ⟨-, hnone, O⟩
  · have hcost := worth_move F.kept F.ends .play
    have hfirsts : r.stage.firsts x = [] ∧ 0 < r.stage.plays r.plan x := by
      cases x with
      | start w t =>
        rw [r.move_play hpop] at hsame
        exact absurd hsame (F.phase.startResult_ne hpop)
      | lane | finish => exact ⟨rfl, Nat.one_pos⟩
    rw [hdue, List.map_singleton, List.sum_singleton, List.flatMap_singleton, hfirsts.1,
      List.map_nil, List.sum_nil, Nat.add_zero, releases, Nat.add_zero] at hcost
    have hless : (r.move .play).worth < r.worth :=
      Nat.lt_of_lt_of_le (Nat.lt_add_of_pos_left hfirsts.2) hcost
    rw [hsame]
    exact Prod.Lex.toLex_lt_toLex.mpr (.inr ⟨rfl, Prod.Lex.toLex_lt_toLex.mpr (.inl hless)⟩)
  · -- The opening step leaves more to do than there was, but nothing is to be started any more.
    rw [hnone, O.stage, Stage.startResult_openVibration]
    exact Prod.Lex.toLex_lt_toLex.mpr (.inl Nat.one_pos)

end Run

/-! ## Turns of the conductor -/

namespace Performance

variable {v : Vibration Rat} {asked : Nat} {p : Performance Rat}

/-- What the conductor does next if no mail waits for it: it plays the step whose time has come, or
ends, or waits for an instant that it knows. -/
theorem step_calm (F : p.run.Fit v asked) (C : p.Calm) (alive : p.isOver = false) :
    (p.run.playDue?.isSome = true ∧ p.step? = some { p with run := p.run.move .play }) ∨
    p.step? = some p.close ∨
    (p.run.playDue? = none ∧ p.step? = none ∧ ∃ t, p.wake? = some t ∧ p.run.now < t) := by
  have hmail : p.handleMail = p := handleMail_of_empty C.1 C.2
  have hempty := mail_iff.mpr C
  unfold step?
  dsimp only
  rw [hmail, hempty, alive, if_neg Bool.false_ne_true]
  cases hplay : p.run.playDue? with
  | some run =>
    refine .inl ⟨rfl, ?_⟩
    rw [Run.move, hplay]
    rfl
  | none =>
    refine .inr ?_
    dsimp only
    by_cases hover : p.run.isOver = true
    · rw [if_pos hover]
      exact .inl rfl
    · obtain ⟨t, hwake, hlater⟩ := F.exists_wake hplay (Bool.not_eq_true _ ▸ hover)
      rw [if_neg hover, if_neg, if_neg Bool.false_ne_true]
      · refine .inr ⟨rfl, rfl, t, ?_, hlater⟩
        unfold wake?
        rw [alive, if_neg Bool.false_ne_true]
        exact hwake
      · rw [hwake]
        exact fun h => Option.some_ne_none t h.1

/-- A calm performance stays calm and gets no further from its end, or is over. -/
structure Nears (p q : Performance Rat) : Prop where
  alive : q.isOver = false
  calm : q.Calm
  rank : q.run.rank ≤ p.run.rank

theorem rank_quiet {q : Performance Rat} (queue : q.run.queue = p.run.queue)
    (start : q.run.stage.startResult = p.run.stage.startResult) (plan : q.run.plan = p.run.plan)
    (later : p.run.now ≤ q.run.now) : q.run.rank ≤ p.run.rank := by
  refine Run.rank_le start ?_ fun due => ?_
  · unfold Run.worth
    rw [queue, plan]
  · unfold Run.playDue? at due ⊢
    rw [Option.isSome_map] at due ⊢
    rw [queue]
    exact Queue.popDue_mono later due

theorem nears_act (F : p.run.Fit v asked) (C : p.Calm) (alive : p.isOver = false) {a : Act Rat}
    (quiet : a.IsQuiet) : (p.act a).isOver = true ∨ p.Nears (p.act a) := by
  have hcalm := C.quiet alive quiet
  cases a with
  | conduct =>
    rcases step_calm F C alive with ⟨hdue, hstep⟩ | hstep | ⟨-, hidle, -⟩
    · rw [act_of_step hstep] at hcalm ⊢
      exact .inr ⟨alive, hcalm, (F.rank_play hdue).le⟩
    · rw [act_of_step hstep]
      exact .inl rfl
    · rw [act_of_idle hidle]
      exact .inr ⟨alive, C, le_rfl⟩
  | arrive | send => exact quiet.elim
  | leave | attach | detach =>
    exact .inr ⟨alive, hcalm, rank_quiet rfl rfl rfl (Nat.le_refl _)⟩
  | world f => exact .inr ⟨alive, hcalm, rank_quiet rfl rfl rfl (Nat.le_max_right ..)⟩

theorem fit_acts (F : p.run.Fit v asked) {as : List (Act Rat)} (definite : p.Definite as) :
    (p.acts as).run.Fit v asked := by
  rw [run_acts]
  exact F.moves _ definite

theorem nears_acts (F : p.run.Fit v asked) (C : p.Calm) (alive : p.isOver = false)
    {as : List (Act Rat)} (quiet : ∀ a ∈ as, a.IsQuiet) (definite : p.Definite as) :
    (p.acts as).isOver = true ∨ p.Nears (p.acts as) := by
  induction as generalizing p with
  | nil => exact .inr ⟨alive, C, le_rfl⟩
  | cons a as ih =>
    obtain ⟨hfirst, hrest⟩ : p.Definite [a] ∧ (p.act a).Definite as := definite_append.mp definite
    rcases nears_act F C alive (quiet a List.mem_cons_self) with hover | N
    · exact .inl (over_acts hover as)
    · refine (ih (fit_acts F hfirst) N.calm N.alive
        (fun b hb => quiet b (List.mem_cons_of_mem a hb)) hrest).imp_right fun N' => ?_
      exact ⟨N'.alive, N'.calm, N'.rank.trans N.rank⟩

/-- A turn of the conductor brings a calm performance nearer to its end. -/
theorem next_nearer (F : p.run.Fit v asked) (C : p.Calm) (alive : p.isOver = false) :
    (p.act p.next).isOver = true ∨
      p.Nears (p.act p.next) ∧ (p.act p.next).run.rank < p.run.rank := by
  rcases step_calm F C alive with ⟨hdue, hstep⟩ | hstep | ⟨hidle, hstep, t, hwake, hlater⟩
  · have hcalm := C.quiet alive (a := .conduct) trivial
    have hless := F.rank_play hdue
    rw [next_of_step hstep]
    rw [act_of_step hstep] at hcalm ⊢
    exact .inr ⟨⟨alive, hcalm, hless.le⟩, hless⟩
  · rw [next_of_step hstep, act_of_step hstep]
    exact .inl rfl
  · rw [next_of_wake hstep hwake]
    have hcalm := C.quiet alive (a := .world (·.moveTo t)) trivial
    have hclock : (p.act (.world (·.moveTo t))).run.now = t := by
      show max (max p.run.now t) p.run.now = t
      omega
    have hdue : (p.act (.world (·.moveTo t))).run.playDue?.isSome = true := by
      unfold wake? at hwake
      rw [alive, if_neg Bool.false_ne_true] at hwake
      unfold Run.playDue?
      rw [Option.isSome_map, hclock]
      exact Queue.popDue_of_wake hwake
    have hless : (p.act (.world (·.moveTo t))).run.rank < p.run.rank :=
      Run.rank_lt_of_due rfl rfl hidle hdue
    exact .inr ⟨⟨alive, hcalm, hless.le⟩, hless⟩

/-- The conductor does not sleep while mail waits for it. -/
theorem calm_of_step_eq_none {R : Type} [Level R] {p : Performance R} (alive : p.isOver = false)
    (h : p.step? = none) : p.Calm := by
  refine mail_iff.mp (Bool.not_eq_true _ ▸ fun hmail => ?_)
  unfold step? at h
  dsimp only at h
  rw [alive, if_neg Bool.false_ne_true, hmail] at h
  split at h
  · cases h
  · split at h
    · cases h
    · split at h
      · cases h
      · cases h

/-- After a turn of its conductor, a performance is calm. -/
theorem calm_next (alive : p.isOver = false) : (p.act p.next).Calm := by
  unfold next
  split
  · rename_i t hstep hwake
    exact (calm_of_step_eq_none alive hstep).withRun rfl
  · exact calm_conduct alive

theorem acts_append {R : Type} [Level R] (p : Performance R) (as bs : List (Act R)) :
    p.acts (as ++ bs) = (p.acts as).acts bs := List.foldl_append

theorem acts_script_succ {R : Type} [Level R] (p : Performance R) (env : Nat → List (Act R))
    (n : Nat) : p.acts (p.script env (n + 1)) =
      (p.acts (p.script env n ++ env n)).act (p.acts (p.script env n ++ env n)).next :=
  acts_append ..

section
variable {env : Nat → List (Act Rat)} {N : Nat} (F : p.run.Fit v asked)
  (quiet : ∀ n, N ≤ n → ∀ a ∈ env n, a.IsQuiet) (definite : ∀ n, p.Definite (p.script env n))
include F quiet definite

/-- What happens before a turn keeps a calm performance as near to its end, and the turn brings it
nearer. -/
theorem turn_nearer {n : Nat} (hn : N ≤ n) (C : (p.acts (p.script env n)).Calm)
    (alive : (p.acts (p.script env n)).isOver = false) :
    (p.acts (p.script env (n + 1))).isOver = true ∨ (p.acts (p.script env (n + 1))).Calm ∧
      (p.acts (p.script env (n + 1))).isOver = false ∧
      (p.acts (p.script env (n + 1))).run.rank < (p.acts (p.script env n)).run.rank := by
  have hbefore := (definite_append.mp (definite (n + 1))).1
  have hplace := fit_acts F (definite n)
  rw [acts_script_succ]
  rcases nears_acts hplace C alive (quiet n hn) (definite_append.mp hbefore).2 with hover | N
  · rw [acts_append]
    exact .inl (over_act hover _)
  · have hfit := fit_acts F hbefore
    rw [acts_append] at hfit ⊢
    refine (next_nearer hfit N.calm N.alive).imp_right ?_
    rintro ⟨N', hless⟩
    exact ⟨N'.calm, N'.alive, lt_of_lt_of_le hless N.rank⟩

/-- A calm performance ends. -/
theorem over_of_calm {n : Nat} (hn : N ≤ n) (C : (p.acts (p.script env n)).Calm)
    (alive : (p.acts (p.script env n)).isOver = false) :
    ∃ m, (p.acts (p.script env m)).isOver = true := by
  -- Induction on the rank and not on the number of turns, of which no bound is known beforehand.
  generalize hrank : (p.acts (p.script env n)).run.rank = ρ
  induction ρ using WellFoundedLT.induction generalizing n with
  | ind ρ ih =>
    rcases turn_nearer F quiet definite hn C alive with hover | ⟨C', alive', hless⟩
    · exact ⟨n + 1, hover⟩
    · exact ih _ (hrank ▸ hless) (Nat.le_succ_of_le hn) C' alive' rfl

/-- Once no more mail comes, a performance ends. -/
theorem over_of_quiet : ∃ m, (p.acts (p.script env m)).isOver = true := by
  cases hover : (p.acts (p.script env N ++ env N)).isOver with
  | true =>
    refine ⟨N + 1, ?_⟩
    rw [acts_script_succ]
    exact over_act hover _
  | false =>
    have C := calm_next hover
    rw [← acts_script_succ] at C
    cases hend : (p.acts (p.script env (N + 1))).isOver with
    | true => exact ⟨N + 1, hend⟩
    | false => exact over_of_calm F quiet definite (Nat.le_succ N) C hend

end

end Performance

/-! ## Every performance ends -/

/-- The effects that are started in the course of some moves are those of the vibration at the
moment at which it is started, each of them once. -/
theorem Run.firsts_moves {R : Type} [Level R] {v : Vibration R} {asked : Nat} {r : Run R}
    (H : r.Phase v asked) (K : r.queue.Kept) (ms : List (Move R)) :
    r.firsts ms = [] ∨ ∃ before, before <+: ms ∧
      (r.firsts ms).map (fun x => (x.1.actuator, x.2.2)) = (r.moves before).stage.effects v := by
  induction ms generalizing r with
  | nil => exact .inl rfl
  | cons m ms ih =>
    have M := r.move_moved m
    cases hstart : r.stage.startResult with
    | some n => exact .inl (firsts_of_started H K hstart)
    | none =>
      rcases r.due_cases m with hdue | ⟨rfl, x, q, hpop, hdue⟩
      · have hfirsts : r.firsts (m :: ms) = (r.move m).firsts ms := by
          rw [firsts, hdue]
          rfl
        rw [hfirsts]
        refine (ih (H.moved K M) (M.kept K)).imp_right ?_
        rintro ⟨before, hbefore, heq⟩
        exact ⟨m :: before, List.cons_prefix_cons.mpr ⟨rfl, hbefore⟩, heq⟩
      · have hx := H.opening_of_waiting hstart x (Queue.items_of_popDue hpop ▸ List.mem_cons_self)
        subst hx
        have hplayed : (r.move .play).stage.startResult =
            some (r.stage.openVibration r.plan v).result := by
          rw [r.move_play hpop]
          exact r.stage.startResult_openVibration r.plan v
        have hfirsts : r.firsts (.play :: ms) = (r.stage.issueFirst (r.stage.effects v)).1 := by
          rw [firsts, hdue, firsts_of_started (H.moved K M) (M.kept K) hplayed, List.append_nil]
          exact List.flatMap_singleton ..
        rw [hfirsts, r.stage.issueFirst_fst]
        exact .inr ⟨[], List.nil_prefix, rfl⟩

namespace Performance

section
variable {R : Type} [Level R]

/-- The conductor handled its mail and has nothing to do at present, but is not done: it goes to
sleep, if it knows for how long. -/
def Sleeps (p : Performance R) : Prop :=
  p.isOver = false ∧ p.run.playDue? = none ∧ p.run.isOver = false

instance (p : Performance R) : Decidable p.Sleeps := inferInstanceAs (Decidable (_ ∧ _ ∧ _))

theorem turns_mail (p : Performance R) : p.run.turns p.mail = [] := by
  refine Run.turns_eq_nil fun h => ?_
  unfold mail at h
  simp at h

/-- A performance that is over plays no more steps. -/
theorem definite_of_over {p : Performance R} (h : p.isOver = true) (as : List (Act R)) :
    p.Definite as := by
  have hplay : .play ∉ p.trace as := by
    induction as generalizing p with
    | nil => exact List.not_mem_nil
    | cons a as ih =>
      refine fun hmem => (List.mem_append.mp hmem).elim (fun hmem => ?_) (ih (over_act h a))
      cases a with
      | conduct =>
        unfold movesOf at hmem
        dsimp only at hmem
        rw [if_pos h] at hmem
        cases hmem
      | arrive | send | leave | world | attach | detach => cases List.mem_singleton.mp hmem
  intro t ht
  rw [Run.turns_eq_nil hplay] at ht
  cases ht

/-- It is enough that drives take a known time until the performance is over. -/
theorem definite_script {p : Performance R} {env : Nat → List (Act R)} {k : Nat}
    (ended : (p.acts (p.script env k)).isOver = true) (definite : p.Definite (p.script env k))
    (n : Nat) : p.Definite (p.script env n) := by
  have hlast : ∀ m, p.script env (m + 1) =
      p.script env m ++ (env m ++ [(p.acts (p.script env m ++ env m)).next]) :=
    fun m => List.append_assoc ..
  rcases Nat.le_total n k with hle | hle
  · refine Nat.decreasingInduction (motive := fun m _ => p.Definite (p.script env m))
      (fun m _ h => ?_) definite hle
    rw [hlast] at h
    exact (definite_append.mp h).1
  · suffices hover : (p.acts (p.script env n)).isOver = true ∧ p.Definite (p.script env n) from
      hover.2
    refine Nat.le_induction ⟨ended, definite⟩ (fun m _ h => ?_) n hle
    rw [hlast, acts_append]
    exact ⟨over_acts h.1 _, definite_append.mpr ⟨h.2, definite_of_over h.1 _⟩⟩

end

/-- How the performance of a vibration comes to its end. -/
structure ComesToEnd (v : Vibration Rat) (p : Performance Rat) : Prop where
  /-- No more steps are played than there is to do: the opening and the closing step, for each
  actuator a step for each segment, two to end the effect and those of a ramp down, and one more
  each time that a step accepts a report. -/
  bounded : ∀ as, p.run.stepsPlayed (p.trace as) ≤
    2 + p.run.started (p.trace as) + p.run.accepted (p.trace as)
  /-- Each actuator counts once. -/
  started : ∀ as, p.run.firsts (p.trace as) = [] ∨ ∃ before, before <+: p.trace as ∧
    (p.run.firsts (p.trace as)).map (fun x => (x.1.actuator, x.2.2)) =
      (p.run.moves before).stage.effects v
  /-- Whenever the conductor goes to sleep, it knows for how long. -/
  wakes : ∀ as, p.Definite as → (p.acts as).handleMail.Sleeps →
    ∃ t, (p.acts as).handleMail.wake? = some t ∧ (p.acts as).handleMail.run.now < t
  /-- Whatever happens between the turns of the conductor, if only so many reports and cancels come
  then the performance is over some time. -/
  ends : ∀ env : Nat → List (Act Rat), (∃ N, ∀ n, N ≤ n → ∀ a ∈ env n, a.IsQuiet) →
    (∀ n, p.Definite (p.script env n)) → ∃ n, (p.acts (p.script env n)).isOver = true

/-- Two holds on a motor that ramps down in four steps. -/
def fading : Performance Rat :=
  (fresh ⟨1, ⟨1000, "com.example"⟩, { Tuning.standard with rawRampDown := 20, rawGrace := 0 }⟩
    (.mono (.pattern (.waveform [30, 30] [.level 1, .level (1 / 2)] none)))
    (Rig.init {
      catalogue := fun id => (.negotiated, {
        profile := { Profile.degraded id with
          capabilities := .ofList [.onCallback, .amplitudeControl] }
        manual := true })
      group := .fixed [0] })).opened

/-- The motor reports once, before the second hold begins. -/
def early : Nat → List (Act Rat)
  | 1 => [.world (·.moveTo 10), .arrive (.stepComplete 0 1 1)]
  | _ => []

example : fading.run.stepsPlayed (fading.trace (fading.script early 15)) = 10 ∧
    fading.run.started (fading.trace (fading.script early 15)) = 8 ∧
    fading.run.accepted (fading.trace (fading.script early 15)) = 1 := by
  decide +kernel

end Performance

end Haptics
