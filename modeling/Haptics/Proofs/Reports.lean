import Haptics.Proofs.Flight

/-!
# Late reports

A successful drive reports its end once, at any later time. If a step still waits for that report,
the drive is the last thing that was done to its actuator: nobody turned it on again or off since
(`Run.recent_moves`). The number that a report carries is that of the step that drove, and a step
may drive twice under one number: when its actuator is turned back on, and when it is played then.
The second drive comes only after the report of the first, because the actuator is turned back on
for longer than until the step begins.
-/

namespace Haptics

variable {R : Type}

/-! ## Drives that have not reported -/

namespace Deed

/-- The actuator and the step of a successful drive. -/
def driven? : Deed R → Option (ActuatorId × Nat)
  | drive a i _ n => if 0 < n then some (a, i) else none
  | _ => none

/-- The deed at index `k` of a record is a successful drive of an actuator for the step `i`, and its
report did not come yet. -/
def Open (done : List Nat) (h : List (Deed R)) (a : ActuatorId) (i k : Nat) : Prop :=
  k ∉ done ∧ h[k]?.bind driven? = some (a, i)

/-- After the deed at index `k` an actuator was neither turned on nor off. -/
def Latest (h : List (Deed R)) (a : ActuatorId) (k : Nat) : Prop :=
  ∀ d ∈ h.drop (k + 1), d.turns? a = none

variable {done : List Nat} {h ds : List (Deed R)} {a : ActuatorId} {i j k : Nat}

instance : Decidable (Open done h a i k) := inferInstanceAs (Decidable (_ ∧ _))

instance : Decidable (Latest h a k) := inferInstanceAs (Decidable (∀ d ∈ h.drop (k + 1), _))

theorem turns_drive {x : Drive R} {n : Int} (pos : 0 < n) :
    (drive a i x n).turns? a = some true := if_pos ⟨rfl, pos⟩

theorem turns_eq_none {d : Deed R} (own : d.actuator? ≠ some a) : d.turns? a = none := by
  cases d with
  | drive b i x n => exact if_neg fun h => own (congrArg some h.1)
  | stop b => exact if_neg fun h => own (congrArg some h)
  | _ => rfl

theorem answered_of_turns {d : Deed R} (hd : d ∈ ds) (on : d.turns? a = some true) :
    ∃ n, 0 < n ∧ (a, n) ∈ drives ds := by
  cases d with
  | drive b i x n =>
    obtain ⟨rfl, pos⟩ : b = a ∧ 0 < n := by simpa [turns?] using on
    exact ⟨n, pos, List.mem_filterMap.mpr ⟨_, hd, rfl⟩⟩
  | stop b => simp [turns?] at on
  | _ => cases on

theorem eq_drive {d : Deed R} (h : d.driven? = some (a, i)) :
    ∃ x n, 0 < n ∧ d = drive a i x n := by
  cases d with
  | drive b j x n =>
    obtain ⟨pos, rfl, rfl⟩ : 0 < n ∧ b = a ∧ j = i := by simpa [driven?] using h
    exact ⟨x, n, pos, rfl⟩
  | _ => cases h

theorem Open.getElem? (O : Open done h a i k) : ∃ x n, 0 < n ∧ h[k]? = some (drive a i x n) := by
  obtain ⟨d, hget, hd⟩ := Option.bind_eq_some_iff.mp O.2
  obtain ⟨x, n, pos, rfl⟩ := eq_drive hd
  exact ⟨x, n, pos, hget⟩

theorem Open.mem (O : Open done h a i k) : ∃ x n, drive a i x n ∈ h := by
  obtain ⟨x, n, -, hget⟩ := O.getElem?
  exact ⟨x, n, List.mem_of_getElem? hget⟩

theorem Open.of_append (O : Open done (h ++ ds) a i k) (quiet : ∀ d ∈ ds, d.turns? a ≠ some true) :
    Open done h a i k := by
  have hlt : k < h.length := Nat.not_le.mp fun hle => by
    obtain ⟨x, n, pos, hget⟩ := O.getElem?
    rw [List.getElem?_append_right hle] at hget
    exact quiet _ (List.mem_of_getElem? hget) (turns_drive pos)
  exact ⟨O.1, List.getElem?_append_left hlt ▸ O.2⟩

theorem Open.of_concat {d : Deed R} (O : Open done (h ++ [d]) a i k) :
    Open done h a i k ∨ k = h.length := by
  by_cases hlt : k < h.length
  · exact .inl ⟨O.1, List.getElem?_append_left hlt ▸ O.2⟩
  · obtain ⟨x, n, -, hget⟩ := O.getElem?
    obtain ⟨hlen, -⟩ := List.getElem?_eq_some_iff.mp hget
    rw [List.length_append, List.length_singleton] at hlen
    exact .inr (by omega)

theorem Latest.append (L : Latest h a k) (quiet : ∀ d ∈ ds, d.turns? a = none) :
    Latest (h ++ ds) a k := by
  intro d hd
  rw [List.drop_append] at hd
  rcases List.mem_append.mp hd with hd | hd
  · exact L d hd
  · exact quiet d (List.mem_of_mem_drop hd)

theorem latest_concat (d : Deed R) : Latest (h ++ [d]) a h.length := by
  intro e he
  rw [List.drop_eq_nil_of_le (by simp)] at he
  cases he

/-- Only one of the drives of an actuator can be the latest. -/
theorem Open.le_of_latest (O : Open done h a i k) (L : Latest h a j) : k ≤ j := by
  obtain ⟨x, n, pos, hget⟩ := O.getElem?
  refine Nat.not_lt.mp fun hlt => ?_
  have hmem : drive a i x n ∈ h.drop (j + 1) := by
    refine List.mem_of_getElem? (i := k - (j + 1)) ?_
    rw [List.getElem?_drop, Nat.add_sub_cancel' hlt]
    exact hget
  exact absurd ((L _ hmem).symm.trans (turns_drive pos)) nofun

end Deed

/-! ## What a step waits for -/

/-- A lane waits for the report of the latest drive of its actuator, if that has not reported. If
the step made such a drive itself, it goes on waiting for it when its time comes. -/
structure Lane.Awaits (done : List Nat) (h : List (Deed R)) (l : Lane) (task : Task R) : Prop where
  latest : ∀ i, l.deadline.awaiting? = some i → ∀ k, Deed.Open done h l.actuator i k →
    Deed.Latest h l.actuator k
  held : ∀ k, Deed.Open done h l.actuator l.id k → l.reported = false ∧
    l.deadline.awaiting? = some l.id ∧
      ∃ p t, task = .hold p ∧ l.start = .at t ∧ l.deadline.covers t = true

namespace Lane.Awaits

variable {done : List Nat} {h ds : List (Deed R)} {l : Lane} {task : Task R}

theorem append (A : l.Awaits done h task) (quiet : ∀ d ∈ ds, d.turns? l.actuator = none) :
    l.Awaits done (h ++ ds) task := by
  have hopen : ∀ {i k}, Deed.Open done (h ++ ds) l.actuator i k → Deed.Open done h l.actuator i k :=
    fun O => O.of_append fun d hd => by simp [quiet d hd]
  exact ⟨fun i hi k O => (A.latest i hi k (hopen O)).append quiet, fun k O => A.held k (hopen O)⟩

theorem mono (A : l.Awaits done h task) (k : Nat) : l.Awaits (k :: done) h task := by
  have hopen : ∀ {i j}, Deed.Open (k :: done) h l.actuator i j → Deed.Open done h l.actuator i j :=
    fun ⟨hj, hdrive⟩ => ⟨fun hmem => hj (List.mem_cons_of_mem k hmem), hdrive⟩
  exact ⟨fun i hi j O => A.latest i hi j (hopen O), fun j O => A.held j (hopen O)⟩

/-- A step under a new number waits for what the step before it waited for. -/
theorem renumber {l' : Lane} {task' : Task R} (same : l'.actuator = l.actuator)
    (latest : ∀ i, l'.deadline.awaiting? = some i → ∀ k, Deed.Open done h l.actuator i k →
      Deed.Latest h l.actuator k)
    (numbers : ∀ a i x n, .drive a i x n ∈ h → i ≠ l'.id) : l'.Awaits done h task' := by
  refine ⟨same ▸ latest, fun k O => ?_⟩
  obtain ⟨x, n, hmem⟩ := O.mem
  exact absurd rfl (numbers _ _ x n hmem)

theorem hear (A : l.Awaits done h task) {i k : Nat} (hi : l.deadline.awaiting? = some i)
    (O : Deed.Open done h l.actuator i k) :
    Lane.Awaits (k :: done) h { l with deadline := .idle, reported := true } task := by
  refine ⟨nofun, fun j O' => ?_⟩
  obtain ⟨hj, hdrive⟩ := O'
  have hj' : Deed.Open done h l.actuator l.id j :=
    ⟨fun hmem => hj (List.mem_cons_of_mem k hmem), hdrive⟩
  -- Both drives would be the latest.
  obtain rfl : i = l.id := Option.some.inj (hi.symm.trans (A.held j hj').2.1)
  have hle := hj'.le_of_latest (A.latest _ hi k O)
  have hge := O.le_of_latest (A.latest _ hi j hj')
  exact absurd (List.mem_cons.mpr (.inl (Nat.le_antisymm hle hge))) hj

end Lane.Awaits

/-! ## Playing a step -/

theorem Deadline.awaiting_afterDrive (d : Deadline) (now grace i : Nat) {n : Int} (h : 0 < n) :
    (d.afterDrive now grace i n).awaiting? = some i := by
  unfold afterDrive
  split
  · rfl
  · split <;> rfl

/-- After a drive an actuator is expected to be on at any instant before the drive ends. -/
theorem Deadline.covers_afterDrive (d : Deadline) {now grace i t : Nat} {n : Int} (pos : 0 < n)
    (h : n ≠ Haptics.indefinite → (t : Int) < now + n) :
    (d.afterDrive now grace i n).covers t = true := by
  unfold afterDrive
  split
  · rfl
  · split
    · rename_i t' ht
      obtain ⟨-, rfl⟩ : now + (n.toNat + grace) ≤ lastInstant ∧ now + (n.toNat + grace) = t' := by
        simpa [reach?] using ht
      have h := h (by assumption)
      simp only [covers, decide_eq_true_eq]
      omega
    · rfl

/-- The drives so far were made by steps under numbers that are taken. -/
def Stage.Numbered (s : Stage R) : Prop :=
  ∀ a i x n, .drive a i x n ∈ s.history → i < s.nextStep

section
variable [Level R] {done : List Nat} {l l' : Lane} {plan : Plan R} {s s' : Stage R} {task : Task R}
  {n : Int}

namespace Lane

omit [Level R] in
theorem instant_at {t : Nat} (h : l.start = .at t) (now : Nat) : l.instant now = t := by
  simp [instant, h, StartTime.instant?]

omit [Level R] in
theorem at_of_early {now : Nat} (early : now < l.instant now) : ∃ t, l.start = .at t ∧ now < t := by
  cases h : l.start with
  | «at» t =>
    rw [instant_at h] at early
    exact ⟨t, rfl, early⟩
  | _ => simp [instant, h, StartTime.instant?] at early

theorem Drove.numbers (H : l.Drove plan s task n l' s') {a : ActuatorId} {i : Nat} {x : Drive R}
    {m : Int} (h : .drive a i x m ∈ s'.history) : .drive a i x m ∈ s.history ∨ i = l.id := by
  induction H with
  | rest | shorten => exact .inl h
  | drive y =>
    rw [(Stage.Does.drive plan l y).history] at h
    refine (List.mem_append.mp h).imp_right fun h => ?_
    cases List.mem_singleton.mp h
    rfl
  | stop =>
    rw [(Stage.Does.stop l).history] at h
    exact .inl ((List.mem_append.mp h).resolve_right (by simp))
  | @setAmplitude n l' s' _ y ih =>
    obtain ⟨ok, hok⟩ := Stage.Does.setAmplitude (s := s') l' y
    rw [hok.history] at h
    exact ih ((List.mem_append.mp h).resolve_right (by simp))

theorem Drove.open_of_le (H : l.Drove plan s task n l' s') (hn : n ≤ 0) {a : ActuatorId} {i k : Nat}
    (O : Deed.Open done s'.history a i k) : Deed.Open done s.history a i k := by
  obtain ⟨ds, hds, one⟩ := H.deeds
  rw [hds.history] at O
  refine O.of_append fun d hd on => ?_
  obtain ⟨m, pos, hm⟩ := Deed.answered_of_turns hd on
  obtain ⟨-, rfl⟩ := Deed.eq_of_mem_answers one hm
  exact absurd pos (Int.not_lt.mpr hn)

theorem latest_drive (x : Drive R) (due : l.reported = true ∨ l.Due s.now task)
    (A : l.Awaits done s.history task) {i k : Nat}
    (hi : (s.drive plan l x).2.1.deadline.awaiting? = some i)
    (O : Deed.Open done (s.drive plan l x).2.2.history l.actuator i k) :
    Deed.Latest (s.drive plan l x).2.2.history l.actuator k := by
  have hhistory := (Stage.Does.drive (s := s) plan l x).history
  rw [hhistory] at O ⊢
  by_cases hn : 0 < (s.drive plan l x).1
  · obtain rfl : l.id = i := Option.some.inj
      ((Deadline.awaiting_afterDrive l.deadline _ plan.tuning.grace l.id hn).symm.trans hi)
    rcases O.of_concat with O | rfl
    · -- The step made a drive before that has not reported, so it is not due to drive again.
      obtain ⟨hreported, -, p, t, rfl, hstart, hcovers⟩ := A.held k O
      have hdue := due.resolve_left (by simp [hreported])
      simp only [Due, instant_at hstart, hcovers, reduceCtorEq] at hdue
    · exact Deed.latest_concat _
  · have hn := Int.not_lt.mp hn
    have hdeadline : (s.drive plan l x).2.1.deadline = l.deadline :=
      Deadline.afterDrive_of_le _ _ _ _ hn
    rw [hdeadline] at hi
    have quiet : ∀ d ∈ [Deed.drive l.actuator l.id x (s.drive plan l x).1],
        d.turns? l.actuator = none := by simp [Deed.turns?, Int.not_lt.mpr hn]
    have O := O.of_append fun d hd => by simp [quiet d hd]
    exact (A.latest i hi k O).append quiet

/-- A lane that was driven waits for the report of its last drive. -/
theorem Drove.latest (H : l.Drove plan s task n l' s') (A : l.Awaits done s.history task)
    {i k : Nat} (hi : l'.deadline.awaiting? = some i)
    (O : Deed.Open done s'.history l.actuator i k) : Deed.Latest s'.history l.actuator k := by
  induction H with
  | rest => exact A.latest i hi k O
  | shorten t =>
    have hi : l.deadline.awaiting?.getD l.id = i := Option.some.inj hi
    cases hawaiting : l.deadline.awaiting? with
    | some j =>
      obtain rfl : j = i := by rwa [hawaiting] at hi
      exact A.latest j hawaiting k O
    | none =>
      -- A step that made a drive itself which has not reported waits for it.
      obtain rfl : l.id = i := by rwa [hawaiting] at hi
      rw [(A.held k O).2.1] at hawaiting
      cases hawaiting
  | drive x _ due => exact latest_drive x due A hi O
  | stop => cases hi
  | @setAmplitude n l' s' h x ih =>
    obtain ⟨ok, hok⟩ := Stage.Does.setAmplitude (s := s') l' x
    rw [hok.history] at O ⊢
    have quiet : ∀ d ∈ ([.setAmplitude l'.actuator x ok] : List (Deed R)),
        d.turns? l.actuator = none := by simp [Deed.turns?]
    exact (ih hi (O.of_append (by simp [Deed.turns?]))).append quiet

/-- An actuator that is turned back on is expected to be on when the hold begins. -/
theorem turnBackOn_covers {p : Position R} {until_ : Nat}
    (back : l.turnBackOn plan s p until_ = (n, l', s')) (pos : 0 < n) :
    l'.deadline.awaiting? = some l.id ∧ l'.deadline.covers (s.now + until_) = true := by
  unfold turnBackOn at back
  dsimp only at back
  split at back
  · cases back
    exact absurd pos (Int.lt_irrefl 0)
  · rename_i hon
    cases back
    have hvalue : (s.drive plan l (.hold (p.onDuration plan.tuning.rampDown + until_))).1 =
        driveResult (p.onDuration plan.tuning.rampDown + until_) := s.rig.value_hold _ pos
    have hends : (s.drive plan l (.hold (p.onDuration plan.tuning.rampDown + until_))).1 ≠
          Haptics.indefinite → ((s.now + until_ : Nat) : Int) <
        s.now + (s.drive plan l (.hold (p.onDuration plan.tuning.rampDown + until_))).1 := by
      rw [hvalue]
      unfold driveResult
      omega
    exact ⟨Deadline.awaiting_afterDrive _ _ _ _ pos, Deadline.covers_afterDrive _ pos hends⟩

theorem Drove.numbered (H : l.Drove plan s task n l' s') (N : s.Numbered) (id : l.id < s.nextStep) :
    s'.Numbered := by
  intro a i x m h
  rw [H.nextStep]
  rcases H.numbers h with h | rfl
  · exact N a i x m h
  · exact id

theorem Plays.numbered {p : Played R} (H : l.Plays plan s task p) (N : s.Numbered)
    (id : l.id < s.nextStep) : p.stage.Numbered := by
  cases H with
  | halt =>
    have hd : l.Drove plan s task 0 _ (s.stop l) := .stop
    exact hd.numbered N id
  | wait _ early back => exact (turnBackOn_eq early.1 back).numbered N id
  | follow hd => exact fun a i x m h => Nat.lt_succ_of_lt (hd.numbered N id a i x m h)

theorem Plays.awaits {p : Played R} (H : l.Plays plan s task p) (A : l.Awaits done s.history task)
    (N : s.Numbered) (id : l.id < s.nextStep) {l₁ : Lane} {task₁ : Task R}
    (h : .lane l₁ task₁ ∈ p.next) :
    l₁.Awaits done p.stage.history task₁ := by
  cases H with
  | halt => cases h
  | @wait q n l' s' hold early back =>
    subst hold
    cases List.mem_singleton.mp h
    have hd := turnBackOn_eq early.1 back
    refine ⟨fun i hi k O => ?_, fun k O => ?_⟩
    · have O : Deed.Open done s'.history l.actuator i k := by rwa [← hd.same]
      have hlatest := hd.latest A hi O
      rwa [← hd.same] at hlatest
    · have O : Deed.Open done s'.history l.actuator l.id k := by rwa [← hd.same, ← hd.id]
      by_cases hn : 0 < n
      · obtain ⟨hawaiting, hcovers⟩ := turnBackOn_covers back hn
        obtain ⟨t, hstart, ht⟩ := at_of_early early.2
        rw [instant_at hstart, Nat.add_sub_cancel' (Nat.le_of_lt ht)] at hcovers
        have hstart' : l'.start = .at t := by rw [hd.lane_eq, hstart]
        exact ⟨rfl, hd.id ▸ hawaiting, q, t, rfl, hstart', hcovers⟩
      · -- Only a step that was released is turned back on, and a drive of its own has reported.
        have hreported := (A.held k (hd.open_of_le (Int.not_lt.mp hn) O)).1
        rw [early.1] at hreported
        cases hreported
  | @follow n l' s' hd =>
    cases List.mem_singleton.mp h
    refine .renumber hd.same (fun i hi k O => hd.latest A hi O) fun a i x m hmem => ?_
    exact Nat.ne_of_lt (hd.numbered N id a i x m hmem)

end Lane

/-! ## Stages -/

omit [Level R] in
theorem Step.Flight.alone {ids : List ActuatorId} {k : Nat} {xs : List (Step R)}
    (F : Step.Flight ids k (.lane l task :: xs)) (distinct : ids.Nodup) :
    l.actuator ∉ xs.filterMap Scheduled.actuator? := by
  have hcount : (l.actuator :: xs.filterMap Scheduled.actuator?).count l.actuator ≤ 1 :=
    Nat.le_trans (F.actuators.count_le _) (List.nodup_iff_count.mp distinct _)
  rw [List.count_cons_self] at hcount
  exact List.count_eq_zero.mp (by omega)

namespace Stage

/-- Some steps are in flight on a stage, and each waits for the latest drive of its actuator. -/
structure Tracks (ids : List ActuatorId) (done : List Nat) (xs : List (Step R)) (s : Stage R) :
    Prop where
  flight : Step.Flight ids s.nextStep xs
  numbered : s.Numbered
  awaits : ∀ l task, .lane l task ∈ xs → l.Awaits done s.history task

variable {ids : List ActuatorId} {xs : List (Step R)} {p : Played R}

theorem Tracks.played (T : s.Tracks ids done (.lane l task :: xs)) (distinct : ids.Nodup)
    (H : l.Plays plan s task p) : p.stage.Tracks ids done (p.next ++ xs) := by
  have hid : l.id < s.nextStep :=
    List.mem_range.mp (T.flight.numbers.subset (List.mem_cons_self (a := l.id)))
  refine ⟨H.flight T.flight, H.numbered T.numbered hid, fun l' task' h => ?_⟩
  rcases List.mem_append.mp h with h | h
  · exact H.awaits (T.awaits l task List.mem_cons_self) T.numbered hid h
  · obtain ⟨ds, hds, -⟩ := H.deeds
    rw [hds.history]
    refine (T.awaits l' task' (List.mem_cons_of_mem _ h)).append fun d hd => ?_
    have hne : l.actuator ≠ l'.actuator := fun heq =>
      T.flight.alone distinct (List.mem_filterMap.mpr ⟨_, h, congrArg some heq.symm⟩)
    exact Deed.turns_eq_none fun hown => hne (Option.some.inj ((hds.own d hd).symm.trans hown))

omit [Level R] in
theorem Tracks.aside {t : Stage R} {ds : List (Deed R)} (T : s.Tracks ids done xs)
    (nextStep : t.nextStep = s.nextStep) (history : t.history = s.history ++ ds)
    (undriven : ∀ d ∈ ds, d.answer? = none)
    (own : ∀ d ∈ ds, ∀ a, d.actuator? = some a → a ∉ xs.filterMap Scheduled.actuator?) :
    t.Tracks ids done xs := by
  refine ⟨nextStep ▸ T.flight, fun a i x n h => ?_, fun l task h => ?_⟩
  · rw [history] at h
    rcases List.mem_append.mp h with h | h
    · exact nextStep ▸ T.numbered a i x n h
    · cases undriven _ h
  · rw [history]
    refine (T.awaits l task h).append fun d hd => Deed.turns_eq_none fun hown => ?_
    exact own d hd _ hown (List.mem_filterMap.mpr ⟨_, h, rfl⟩)

theorem tracks_keeps (plan : Plan R) (distinct : ids.Nodup) (done : List Nat) :
    Keeps plan fun xs s => s.Tracks ids done xs where
  sub T h := ⟨T.flight.subperm h, T.numbered, fun l task hl => T.awaits l task (h.subset hl)⟩
  closing T := ⟨T.flight.closing, T.numbered, fun l task h =>
    T.awaits l task ((List.mem_cons.mp h).resolve_left nofun)⟩
  aside T := T.aside
  play T H := T.played distinct H

end Stage

/-! ## Runs -/

namespace Run

/-- In the course of some moves all reports are those of successful drives, each at most once. The
drives that have reported before the moves and after them go along. -/
inductive Reports : Run R → List Nat → List (Move R) → List Nat → Prop
  | nil {r done} : Reports r done [] done
  | other {r done m ms done'} (quiet : ∀ e, m ≠ .hear e) (H : Reports (r.move m) done ms done') :
      Reports r done (m :: ms) done'
  | report {r done a i k ms done'} (O : Deed.Open done r.stage.history a i k)
      (H : Reports (r.move (.hear (.stepComplete a r.plan.vibration i))) (k :: done) ms done') :
      Reports r done (.hear (.stepComplete a r.plan.vibration i) :: ms) done'

variable {v : Vibration R} {asked : Nat} {ids : List ActuatorId} {r r' : Run R} {m : Move R}

omit [Level R] in
theorem fresh_tracks (plan : Plan R) (v : Vibration R) (rig : Rig R) (asked : Nat) :
    (fresh plan v rig asked).stage.Tracks ids done (fresh plan v rig asked).queue.items where
  flight := ⟨List.nil_subperm, List.nil_subperm⟩
  numbered := fun _ _ _ _ h => (List.not_mem_nil h).elim
  awaits := fun _ _ h => by cases List.mem_singleton.mp h

theorem Opens.tracks (O : r.Opens v r') (distinct : (v.actuators r.rig.group.ids).Nodup) :
    r'.stage.Tracks (v.actuators r.rig.group.ids) done r'.queue.items := by
  have hissued : (r.stage.issueFirst (r.stage.effects v)).2.history = [] := by
    rw [Stage.issueFirst_snd]
    exact O.first
  have K := Stage.tracks_keeps r.plan distinct done
  have T := K.openVibration (s := r.stage) (v := v) {
    flight := r.stage.flight_issueFirst (r.actuators_effects v)
    numbered := fun a i x n h => by
      rw [hissued] at h
      cases h
    awaits := fun l task _ => by
      rw [hissued]
      exact ⟨fun _ _ k O => by simpa using O.2, fun k O => by simpa using O.2⟩ }
  rw [O.stage]
  exact K.sub T O.items.subperm

/-- Whatever happens, except for a report, steps go on waiting for the latest drives. -/
theorem Moved.tracks (M : r.Moved m r') (F : r.Flying v asked ids) (distinct : ids.Nodup)
    (same : r'.stage.startResult = r.stage.startResult) (quiet : ∀ e, m ≠ .hear e)
    (T : r.stage.Tracks ids done r.queue.items) : r'.stage.Tracks ids done r'.queue.items := by
  have hflight := (F.moved M same).flight
  have K := Stage.tracks_keeps r.plan distinct done
  cases M with
  | idle | ignored => exact T
  | world => exact ⟨hflight, T.numbered, T.awaits⟩
  | heard => exact absurd rfl (quiet _)
  | @played x q h =>
    have hitems := Queue.items_of_popDue h
    rw [hitems] at T
    cases x with
    | start w t => exact absurd same (F.phase.startResult_ne h)
    | lane l task =>
      exact K.sub (T.played distinct (l.play_plays r.stage r.plan task))
        (q.items_extend _).subperm
    | finish =>
      refine K.calls (K.sub T ?_) rfl (r.stage.history_record _) (by simp [Deed.actuator?])
      exact (List.sublist_cons_self _ _).subperm
  | @graceful xs q _ items left =>
    refine ⟨hflight, fun a i x n h => Nat.lt_add_right _ (T.numbered a i x n h), ?_⟩
    intro l' task' h
    obtain ⟨x, hx, i, hi, hy⟩ := Step.mem_remnants (left.mem_iff.mp h)
    cases x with
    | start => cases hy
    | finish => cases List.mem_singleton.mp hy
    | lane l task =>
      cases List.mem_singleton.mp hy
      have A := T.awaits l task (items.mem_iff.mp hx)
      refine .renumber rfl A.latest fun a j x n hmem => ?_
      exact Nat.ne_of_lt (Nat.lt_of_lt_of_le (T.numbered a j x n hmem) hi)
  | @immediate xs q _ items empty =>
    rw [empty]
    refine K.aside (K.sub T List.nil_subperm) (r.stage.nextStep_tearDown r.plan xs)
      (r.stage.history_tearDown r.plan xs) ?_ (fun _ _ _ _ => List.not_mem_nil)
    intro d hd
    obtain ⟨x, -, hx⟩ := List.mem_filterMap.mp hd
    exact Step.answer_of_undoing hx

omit [Level R] in
theorem tracks_heard {ids : List ActuatorId} {a : ActuatorId} {i k : Nat}
    (T : r.stage.Tracks ids done r.queue.items) (O : Deed.Open done r.stage.history a i k)
    {q : Queue (Step R)} (flight : Step.Flight ids r.stage.nextStep q.items)
    (heard : q = (r.queue.acceptCompletion a (some i) r.now).2) :
    r.stage.Tracks ids (k :: done) q.items := by
  have hitems : ∀ y ∈ q.items, ∀ l task, y = .lane l task →
      l.Awaits done r.stage.history task ∨ l.deadline.awaiting? = none ∧
        l.Awaits (k :: done) r.stage.history task := by
    rw [heard]
    refine Queue.forall_items_acceptCompletion ?_ fun y hy l task h =>
      .inl (T.awaits l task (h ▸ hy))
    intro y hy l' task' h
    rcases Queue.accept_cases y a (some i) r.now with hacc | ⟨l, task, j, rfl, hj, rfl, hi, hacc⟩
    · rw [hacc] at h
      exact hy l' task' h
    · obtain rfl : i = j := by simpa using hi
      rw [hacc] at h
      cases h
      refine .inr ⟨rfl, ?_⟩
      rcases hy l task' rfl with A | ⟨hnone, -⟩
      · exact A.hear hj O
      · rw [hj] at hnone
        cases hnone
  refine ⟨flight, T.numbered, fun l task h => ?_⟩
  rcases hitems _ h l task rfl with A | ⟨-, A⟩
  · exact A.mono k
  · exact A

theorem Reports.tracks {done' : List Nat} {ms : List (Move R)} (H : Reports r done ms done')
    (F : r.Flying v asked ids) (distinct : ids.Nodup) (later : r.Distinct v ms)
    (T : r.stage.Tracks ids done r.queue.items) :
    ∃ ids, (r.moves ms).stage.Tracks ids done' (r.moves ms).queue.items := by
  induction H generalizing ids with
  | nil => exact ⟨ids, T⟩
  | @other r done m ms done' quiet H ih =>
    have M := r.move_moved m
    rcases M.opens F.phase with same | ⟨-, -, O⟩
    · exact ih (F.moved M same) distinct later.tail (M.tracks F distinct same quiet T)
    · have F' := O.flying F M
      have hdistinct := later [] List.nil_prefix
      exact ih F' hdistinct later.tail (O.tracks hdistinct)
  | @report r done a i k ms done' O H ih =>
    have F' := F.moved (r.move_moved (.hear (.stepComplete a r.plan.vibration i))) rfl
    exact ih F' distinct later.tail (tracks_heard T O F'.flight rfl)

/-- If the report of a drive, which comes once and at any time, changes anything in the queue, then
nobody has stopped the actuator or turned it on again since that drive. -/
theorem recent_moves (plan : Plan R) (v : Vibration R) (rig : Rig R) (asked : Nat)
    {ms : List (Move R)} {done : List Nat} {a : ActuatorId} {i k : Nat}
    (distinct : (fresh plan v rig asked).Distinct v ms)
    (reports : Reports (fresh plan v rig asked) [] ms done)
    (late : Deed.Open done ((fresh plan v rig asked).moves ms).stage.history a i k)
    (changed : (((fresh plan v rig asked).moves ms).hear
      (.stepComplete a plan.vibration i)).queue ≠ ((fresh plan v rig asked).moves ms).queue) :
    Deed.Latest ((fresh plan v rig asked).moves ms).stage.history a k := by
  have F := fresh_flying plan v rig asked []
  obtain ⟨ids, T⟩ := reports.tracks F List.nodup_nil distinct (fresh_tracks plan v rig asked)
  -- Otherwise no step waits for the report, and nothing changes.
  by_contra hlatest
  refine changed (Queue.acceptCompletion_of_refused fun x hx => ?_)
  rcases Queue.accept_cases x a (some i) _ with hacc | ⟨l, task, j, rfl, hj, rfl, hi, -⟩
  · exact hacc
  · obtain rfl : i = j := by simpa using hi
    exact absurd ((T.awaits l task hx).latest i hj k late) hlatest

end Run
end

namespace Run

/-! ## A motor that is turned back on -/

/-- Two holds in a row. -/
def holds (ms : Nat) : Vibration Rat :=
  .mono (.pattern (.waveform [5000, ms] [.level 1, .level (1 / 2)] none))

/-- The motor reports long before the first hold ends, and is turned back on. -/
def turnedBackOn : List (Move Rat) :=
  [.play, .world (·.moveTo 500), .hear (.stepComplete 0 1 1), .play]

theorem recent_moves_turnedBackOn : let r := bench (holds 3000) [0]
    r.Distinct (holds 3000) turnedBackOn ∧ Reports r [] turnedBackOn [0] ∧
      Deed.Open [0] (r.moves turnedBackOn).stage.history 0 2 3 ∧
      ((r.moves turnedBackOn).hear (.stepComplete 0 1 2)).queue ≠ (r.moves turnedBackOn).queue ∧
      Deed.Latest (r.moves turnedBackOn).stage.history 0 3 :=
  have distinct : (bench (holds 3000) [0]).Distinct (holds 3000) turnedBackOn := by decide +kernel
  have reports : Reports (bench (holds 3000) [0]) [] turnedBackOn [0] :=
    .other nofun (.other nofun (.report (by decide +kernel) (.other nofun .nil)))
  have late : Deed.Open [0] ((bench (holds 3000) [0]).moves turnedBackOn).stage.history 0 2 3 := by
    decide +kernel
  have changed : (((bench (holds 3000) [0]).moves turnedBackOn).hear (.stepComplete 0 1 2)).queue ≠
      ((bench (holds 3000) [0]).moves turnedBackOn).queue :=
    ne_of_apply_ne (·.released.length) (by decide +kernel)
  ⟨distinct, reports, late, changed, recent_moves _ _ _ _ distinct reports late changed⟩

end Run
end Haptics
