import Haptics.Proofs.Budget
import Haptics.Proofs.Cancelling

/-!
# When a run goes on

As long as it is known how long every drive takes, a step that waits knows for how long
(`Step.Dated`): until the drive before it is over, or until its report would come too late. The
closing step stands behind all others. So a run that has nothing to do at present but is not over
always knows when it goes on (`Run.Fit.exists_wake`), whether reports come or not.
-/

namespace Haptics

/-! ## Steps that know when they begin -/

section
variable {R : Type} [Level R]

/-- The answer to the drive of a turn is definite: it is known how long the drive takes, and the
clock can name the last instant at which its report is in time. -/
def Turn.Definite (plan : Plan R) (t : Turn R) : Prop :=
  (t.played plan).result ≠ indefinite ∧ (0 < (t.played plan).result →
    t.stage.now + ((t.played plan).result.toNat + plan.tuning.grace) ≤ lastInstant)

instance (plan : Plan R) (t : Turn R) : Decidable (t.Definite plan) :=
  inferInstanceAs (Decidable (_ ∧ _))

omit [Level R] in
/-- The step knows when it begins and until when the actuator may report. -/
def Step.Dated : Step R → Prop
  | lane l _ => (∃ t, l.start = .at t) ∧ ∀ i, l.deadline ≠ .indefinite i
  | start _ _ | finish => True

namespace Lane

variable {l l' : Lane} {plan : Plan R} {s s' : Stage R} {task : Task R} {n : Int} {p : Played R}

omit [Level R] in
theorem goOn_of_definite {now : Nat} (known : n ≠ indefinite)
    (near : 0 < n → now + n.toNat ≤ lastInstant) : ∃ t, goOn now n = .at t := by
  unfold goOn
  split
  · rename_i hpos
    unfold StartTime.after reach?
    rw [if_neg known, if_pos (near hpos)]
    exact ⟨_, rfl⟩
  · exact ⟨now, rfl⟩

omit [Level R] in
theorem afterDrive_of_definite {d : Deadline} {now grace i : Nat} (dated : ∀ i, d ≠ .indefinite i)
    (known : n ≠ indefinite) (near : 0 < n → now + (n.toNat + grace) ≤ lastInstant) :
    ∀ j, d.afterDrive now grace i n ≠ .indefinite j := by
  unfold Deadline.afterDrive
  rw [if_neg known]
  split
  · rename_i hpos
    unfold reach?
    rw [if_pos (near hpos)]
    exact nofun
  · exact dated

theorem Drove.dated (H : l.Drove plan s task n l' s') (dated : ∀ i, l.deadline ≠ .indefinite i)
    (known : n ≠ indefinite) (near : 0 < n → s.now + (n.toNat + plan.tuning.grace) ≤ lastInstant) :
    ∀ i, l'.deadline ≠ .indefinite i := by
  induction H with
  | rest => exact dated
  | drive x => exact afterDrive_of_definite dated known near
  | stop | shorten => exact nofun
  | setAmplitude _ _ ih => exact ih known near

/-- After a definite answer, it is known when the actuator goes on. -/
theorem Proceeds.dated (H : l.Proceeds plan s task p) (dated : (Step.lane l task).Dated)
    (known : p.result ≠ indefinite)
    (near : 0 < p.result → s.now + (p.result.toNat + plan.tuning.grace) ≤ lastInstant) :
    ∀ x ∈ p.next, x.Dated := by
  have hgoOn : ∃ t, goOn s.now p.result = .at t :=
    goOn_of_definite known fun hpos => by have := near hpos; omega
  cases H with
  | halt => exact fun _ hx => absurd hx List.not_mem_nil
  | wait early back =>
    refine List.forall_mem_singleton.mpr ⟨?_, back.dated dated.2 known near⟩
    have hlane := back.lane_eq
    rw [hlane]
    exact dated.1
  | advance position pos drove timed =>
    refine List.forall_mem_singleton.mpr ⟨?_, drove.dated dated.2 known near⟩
    rcases timed with rfl | timed
    · exact hgoOn
    · exact timed
  | vendor drove => exact List.forall_mem_singleton.mpr ⟨hgoOn, drove.dated dated.2 known near⟩
  | turnOff way drove =>
    have hdated := drove.dated dated.2 known near
    exact List.forall_mem_singleton.mpr ⟨turnOff_of_definite hdated s.now, hdated⟩
  | ramp _ _ _ drove | lower _ drove =>
    exact List.forall_mem_singleton.mpr ⟨⟨_, rfl⟩, drove.dated dated.2 known near⟩

end Lane

omit [Level R] in
theorem Stage.dated_issueFirst (s : Stage R) (es : List (ActuatorId × Effect R)) :
    ∀ x ∈ (s.issueFirst es).1, (Step.lane x.1 x.2.1).Dated := by
  induction es generalizing s with
  | nil => exact fun _ hx => absurd hx List.not_mem_nil
  | cons e es ih =>
    intro x hx
    rcases List.mem_cons.mp hx with rfl | hx
    · exact ⟨⟨s.now, rfl⟩, nofun⟩
    · exact ih _ x hx

theorem Step.dated_carried (plan : Plan R) : Carried plan Dated (Turn.Definite plan) where
  accept {x} a step now h := by
    rcases Queue.accept_cases x a step now with heq | ⟨l, task, i, rfl, -, -, -, heq⟩ <;> rw [heq]
    · exact h
    · exact ⟨h.1, nofun⟩
  turn {t} h definite := (t.lane.play_proceeds t.stage plan t.task).dated h definite.1 definite.2
  remnants {now k xs} h y hy := by
    obtain ⟨x, hx, i, -, hy⟩ := mem_remnants hy
    cases x with
    | start => cases hy
    | lane l task =>
      obtain rfl := List.mem_singleton.mp hy
      exact ⟨⟨now, rfl⟩, (h _ hx).2⟩
    | finish =>
      obtain rfl := List.mem_singleton.mp hy
      trivial
  firsts {s v t} _ := s.dated_issueFirst _
  closing := trivial

end

/-! ## When a queue goes on -/

namespace Queue

section
variable {α : Type} {q q' : Queue α}

/-- The steps that wait stand in the order in which they start. -/
def Sorted (q : Queue α) : Prop := q.timed.Pairwise fun x y => y.start.before x.start = false

theorem Sorted.extend [Scheduled α] (S : q.Sorted) (xs : List α) : (q.extend xs).Sorted := by
  induction xs generalizing q with
  | nil => exact S
  | cons x xs ih => exact ih (q := q.push x) (pairwise_place _ S)

theorem Sorted.acceptCompletion [Scheduled α] (S : q.Sorted) (a : ActuatorId) (step : Option Nat)
    (now : Nat) : (q.acceptCompletion a step now).2.Sorted := by
  have hstarts := starts_offer a step now q.timed
  have hsorted : (q.timed.map (·.start)).Pairwise fun s t => t.before s = false :=
    List.pairwise_map.mpr S
  have hrest := List.pairwise_map.mp (hsorted.sublist hstarts)
  unfold Queue.acceptCompletion
  split
  · rename_i he
    rw [he] at hrest
    exact hrest
  · rename_i he
    rw [he] at hrest
    exact hrest

end

variable {R : Type} {q q' : Queue (Step R)} {now : Nat}

theorem Sorted.popDue (S : q.Sorted) {x : Step R} (h : q.popDue now = some (x, q')) :
    q'.Sorted := by
  obtain ⟨e, -, hpop⟩ := pops_of_popDue h
  cases hpop with
  | released => exact S
  | timed _ htimed =>
    unfold Sorted at S
    rw [htimed] at S
    exact (List.pairwise_cons.mp S).2

/-- Something can be taken out if it was released, or if what stands first is due and is not the
closing step with others behind it. -/
theorem isSome_popDue_iff : (q.popDue now).isSome = true ↔ q.released ≠ [] ∨
    ∃ e es, q.timed = e :: es ∧ (e.start = .afterPending → es = []) ∧
      e.start.isDue now = true := by
  unfold popDue
  split
  · rename_i hreleased
    exact iff_of_true rfl (.inl (hreleased ▸ List.cons_ne_nil _ _))
  · rename_i hreleased htimed
    refine iff_of_false Bool.false_ne_true ?_
    rintro (h | ⟨e, es, h, -⟩)
    · exact h hreleased
    · rw [htimed] at h
      cases h
  · rename_i e es hreleased htimed
    constructor
    · intro h
      split at h
      · cases h
      · rename_i hlast
        split at h
        · rename_i hdue
          exact .inr ⟨e, es, htimed, fun hstart => Classical.not_not.mp fun hes =>
            hlast ⟨hstart, hes⟩, hdue⟩
        · cases h
    · rintro (h | ⟨f, fs, h, hlast, hdue⟩)
      · exact absurd hreleased h
      · rw [htimed] at h
        cases h
        rw [if_neg fun h => h.2 (hlast h.1), if_pos hdue]
        rfl

/-- What can be taken out can be taken out later. -/
theorem popDue_mono {later : Nat} (le : now ≤ later) (h : (q.popDue now).isSome = true) :
    (q.popDue later).isSome = true := by
  refine isSome_popDue_iff.mpr ((isSome_popDue_iff.mp h).imp_right ?_)
  rintro ⟨e, es, htimed, hlast, hdue⟩
  refine ⟨e, es, htimed, hlast, ?_⟩
  cases he : e.start with
  | «at» t =>
    rw [he] at hdue
    exact decide_eq_true (Nat.le_trans (of_decide_eq_true hdue) le)
  | whenComplete =>
    rw [he] at hdue
    cases hdue
  | afterPending => rfl

/-- At the instant at which a queue goes on by itself, something can be taken out. -/
theorem popDue_of_wake {t : Nat} (h : q.nextWake = some t) : (q.popDue t).isSome = true := by
  unfold nextWake at h
  cases htimed : q.timed with
  | nil =>
    rw [htimed] at h
    cases h
  | cons e es =>
    have hstart : e.start = .at t := by
      rw [htimed, List.head?_cons, Option.bind_some] at h
      cases he : e.start with
      | «at» u =>
        rw [he] at h
        exact congrArg StartTime.at (Option.some.inj h)
      | whenComplete | afterPending =>
        rw [he] at h
        cases h
    refine isSome_popDue_iff.mpr (.inr ⟨e, es, htimed, ?_, ?_⟩)
    · rw [hstart]
      exact fun h => StartTime.noConfusion h
    · rw [hstart]
      exact decide_eq_true (Nat.le_refl t)

theorem start_of_dated {x : Step R} (dated : x.Dated) :
    x = .finish ∨ ∃ t, Scheduled.start x = .at t := by
  cases x with
  | start v t => exact .inr ⟨t, rfl⟩
  | lane l task => exact .inr dated.1
  | finish => exact .inl rfl

/-- Nothing stands behind the closing step. -/
theorem alone_of_finish {e : Entry (Step R)} {es : List (Entry (Step R))} (K : q.Kept)
    (S : q.Sorted) (dated : ∀ x ∈ q.items, x.Dated) (one : q.parts.count .closing ≤ 1)
    (htimed : q.timed = e :: es) (finish : e.item = .finish) : es = [] := by
  refine List.eq_nil_iff_forall_not_mem.mpr fun f hf => ?_
  have hmem : f ∈ q.timed := htimed ▸ List.mem_cons_of_mem e hf
  have hbehind : f.start.before e.start = false := by
    unfold Sorted at S
    rw [htimed] at S
    exact (List.pairwise_cons.mp S).1 f hf
  rw [K.timed e (htimed ▸ List.mem_cons_self), K.timed f hmem, finish] at hbehind
  rcases start_of_dated (dated f.item (List.mem_map_of_mem (List.mem_append_right _ hmem))) with
    hagain | ⟨t, ht⟩
  · have htwo : 1 < (q.timed.map (·.item.part)).count .closing := by
      have hcount : 0 < (es.map (·.item.part)).count .closing :=
        List.count_pos_iff.mpr (List.mem_map.mpr ⟨f, hf, by rw [hagain]; rfl⟩)
      have hpart : e.item.part = .closing := by rw [finish]; rfl
      rw [htimed, List.map_cons, hpart, List.count_cons_self]
      omega
    have hall : (q.timed.map (·.item.part)).count .closing ≤ q.parts.count .closing := by
      unfold parts items
      rw [List.map_map, List.map_append]
      exact (List.sublist_append_right _ _).count_le _
    omega
  · rw [ht] at hbehind
    cases hbehind

/-- If nothing can be taken out of a queue that is not empty, it is known when something can. -/
theorem exists_wake (K : q.Kept) (S : q.Sorted) (dated : ∀ x ∈ q.items, x.Dated)
    (one : q.parts.count .closing ≤ 1) (idle : q.popDue now = none) (busy : q.items ≠ []) :
    ∃ t, q.nextWake = some t ∧ now < t := by
  have hidle : ¬(q.popDue now).isSome = true := by
    rw [idle]
    exact Bool.false_ne_true
  rw [isSome_popDue_iff, not_or] at hidle
  obtain ⟨hreleased, hfirst⟩ := hidle
  cases htimed : q.timed with
  | nil =>
    refine absurd ?_ busy
    unfold items
    rw [Classical.not_not.mp hreleased, htimed]
    rfl
  | cons e es =>
    have hmem : e ∈ q.timed := htimed ▸ List.mem_cons_self
    have hstart := K.timed e hmem
    rcases start_of_dated (dated e.item (List.mem_map_of_mem (List.mem_append_right _ hmem))) with
      hfinish | ⟨t, ht⟩
    · have halone := alone_of_finish K S dated one htimed hfinish
      have hdue : e.start.isDue now = true := by
        rw [hstart, hfinish]
        rfl
      exact absurd ⟨e, es, htimed, fun _ => halone, hdue⟩ hfirst
    · rw [ht] at hstart
      refine ⟨t, ?_, Nat.not_le.mp fun hle => hfirst ⟨e, es, htimed, ?_, ?_⟩⟩
      · unfold nextWake
        rw [htimed, List.head?_cons, Option.bind_some, hstart]
        rfl
      · rw [hstart]
        exact fun h => StartTime.noConfusion h
      · rw [hstart]
        exact decide_eq_true hle

end Queue

/-! ## Runs whose steps know when they begin -/

namespace Run

/-- A run of effects that do not repeat, in which it is known when every step begins. -/
structure Fit (v : Vibration Rat) (asked : Nat) (r : Run Rat) : Prop where
  phase : r.Phase v asked
  kept : r.queue.Kept
  sorted : r.queue.Sorted
  ends : ∀ x ∈ r.queue.items, x.Ends
  dated : ∀ x ∈ r.queue.items, x.Dated

variable {v : Vibration Rat} {asked : Nat} {r : Run Rat}

theorem fresh_fit (plan : Plan Rat) {v : Vibration Rat} (ends : v.Ends) (rig : Rig Rat)
    (asked : Nat) : (fresh plan v rig asked).Fit v asked where
  phase := fresh_phase plan v rig asked
  kept := fresh_kept plan v rig asked
  sorted := List.pairwise_singleton _ _
  ends x hx := by
    rw [List.mem_singleton.mp hx]
    exact ends
  dated x hx := by
    rw [List.mem_singleton.mp hx]
    trivial

theorem sorted_move {R : Type} [Level R] {r : Run R} (S : r.queue.Sorted) (m : Move R) :
    (r.move m).queue.Sorted := by
  have hnil : ∀ n, Queue.Sorted ({ nextSeq := n } : Queue (Step R)) := fun _ => List.Pairwise.nil
  cases m with
  | play =>
    cases h : r.queue.popDue r.now with
    | none =>
      rw [r.move_play_of_none h]
      exact S
    | some y =>
      rw [r.move_play h]
      exact (S.popDue h).extend _
  | hear e =>
    cases e with
    | stepComplete a v i => exact S.acceptCompletion a (some i) r.now
    | syncedComplete v =>
      exact Queue.acceptSynced_induction (fun _ a h => h.acceptCompletion a none r.now) S
  | cancel mode =>
    by_cases h : r.cancelled = some .immediate
    · have hsame : r.move (.cancel mode) = r := if_pos h
      rw [hsame]
      exact S
    · cases mode with
      | immediate =>
        rw [move, cancel, if_neg h]
        exact hnil _
      | graceful =>
        rw [move, r.cancel_graceful_eq h]
        exact (hnil _).extend _
  | world f => exact S

theorem Fit.move (F : r.Fit v asked) (m : Move Rat)
    (definite : ∀ t ∈ (r.due m).flatMap (r.stage.turns r.plan), t.Definite r.plan) :
    (r.move m).Fit v asked where
  phase := F.phase.moved F.kept (r.move_moved m)
  kept := (r.move_moved m).kept F.kept
  sorted := sorted_move F.sorted m
  ends := (Step.ends_carried r.plan).move m rfl (fun _ _ => trivial) F.ends
  dated := (Step.dated_carried r.plan).move m rfl definite F.dated

theorem Fit.moves (F : r.Fit v asked) (ms : List (Move Rat))
    (definite : ∀ t ∈ r.turns ms, t.Definite r.plan) : (r.moves ms).Fit v asked := by
  induction ms generalizing r with
  | nil => exact F
  | cons m ms ih =>
    have hfirst := F.move m fun t ht => definite t (List.mem_append_left _ ht)
    refine ih hfirst fun t ht => ?_
    rw [(r.move_moved m).plan]
    exact definite t (List.mem_append_right _ ht)

/-- A run that has nothing to do at present but is not over knows when it goes on. -/
theorem Fit.exists_wake (F : r.Fit v asked) (idle : r.playDue? = none) (busy : r.isOver = false) :
    ∃ t, r.queue.nextWake = some t ∧ r.now < t := by
  refine Queue.exists_wake F.kept F.sorted F.dated ?_ (Option.map_eq_none_iff.mp idle) fun h => ?_
  · have hcount := F.phase.count_le
    omega
  · rw [isOver_iff.mpr h] at busy
    cases busy

end Run

end Haptics
