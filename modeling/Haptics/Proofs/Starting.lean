import Haptics.Proofs.Audible
import Haptics.Proofs.Silence
import Haptics.Proofs.Telemetry

/-!
# What the opening step decides

Whether a vibration is told of is decided once, in the opening step, from the answers to its drives
and the durations that are known beforehand. `Run.Decided` says what this decision has to do with
the drives of the whole run.
-/

namespace Haptics

variable {R : Type} [Level R]

/-! ## The decision -/

namespace Stage

variable {s : Stage R}

/-- A start fails if a drive failed. Otherwise something started if a drive was successful, or if an
effect is expected to take time. -/
theorem decision_openVibration (plan : Plan R) (v : Vibration R) (history : s.history = []) :
    ((s.openVibration plan v).result < 0 ↔
      ∃ x ∈ Deed.drives (s.openVibration plan v).stage.history, x.2 < 0) ∧
    (0 < (s.openVibration plan v).result ↔
      (∀ x ∈ Deed.drives (s.openVibration plan v).stage.history, 0 ≤ x.2) ∧
      ((∃ x ∈ Deed.drives (s.openVibration plan v).stage.history, 0 < x.2) ∨
        ∃ x ∈ s.effects v, 0 < x.2.expected)) := by
  obtain ⟨_, _, _, _, _, H⟩ := s.openAll_starts plan (s.effects v)
  rw [drives_openVibration, H.drives, history, result_openVibration]
  exact ⟨H.failed, H.started⟩

theorem prefix_openVibration (plan : Plan R) (v : Vibration R) :
    s.history <+: (s.openVibration plan v).stage.history := by
  obtain ⟨_, _, _, _, _, H⟩ := s.openAll_starts plan (s.effects v)
  obtain ⟨told, htold, -⟩ := s.history_openVibration_tells plan v
  rw [htold, H.history, List.append_assoc]
  exact List.prefix_append _ _

theorem closing_openVibration (plan : Plan R) (v : Vibration R) :
    ((s.openVibration plan v).next.map Step.part).count .closing =
      if 0 < (s.openVibration plan v).result then 1 else 0 := by
  obtain ⟨ps, hps, lanes⟩ := s.parts_openVibration plan v
  rw [hps, List.perm_append_comm.count_eq, Part.count_closing lanes]

end Stage

/-! ## The moves before and after the opening step -/

namespace Run

variable {v : Vibration R} {asked : Nat} {r r' : Run R} {m : Move R}

/-- A run that is not cancelled never was. -/
theorem Moved.uncancelled (M : r.Moved m r') (h : r'.cancelled = none) : r.cancelled = none := by
  cases M with
  | graceful | immediate => cases h
  | _ => exact h

theorem uncancelled_of_moves {ms : List (Move R)} (h : (r.moves ms).cancelled = none) :
    r.cancelled = none := by
  induction ms generalizing r with
  | nil => exact h
  | cons m ms ih => exact (r.move_moved m).uncancelled (ih h)

theorem Moved.history (M : r.Moved m r') : r.stage.history <+: r'.stage.history := by
  cases M with
  | idle | heard | ignored | graceful | world => exact List.prefix_refl _
  | @played x q hdue =>
    cases x with
    | start w t => exact Stage.prefix_openVibration r.plan w
    | lane l task =>
      obtain ⟨ds, hds, -⟩ := (l.play_plays r.stage r.plan task).deeds
      exact ⟨ds, hds.history.symm⟩
    | finish => exact ⟨_, (r.stage.history_record _).symm⟩
  | immediate => exact ⟨_, (r.stage.history_tearDown r.plan _).symm⟩

theorem history_moves (r : Run R) (ms : List (Move R)) :
    r.stage.history <+: (r.moves ms).stage.history := by
  induction ms generalizing r with
  | nil => exact List.prefix_refl _
  | cons m ms ih => exact (r.move_moved m).history.trans (ih (r.move m))

/-- The run is what its opening step leaves, and nothing was done before. -/
structure Opens (v : Vibration R) (r r' : Run R) : Prop where
  first : r.stage.history = []
  stage : r'.stage = (r.stage.openVibration r.plan v).stage
  items : r'.queue.items.Perm (r.stage.openVibration r.plan v).next

/-- Only the opening step starts a run, and only once. -/
theorem Moved.opens (M : r.Moved m r') (H : r.Phase v asked) :
    r'.stage.startResult = r.stage.startResult ∨
      m = .play ∧ r.stage.startResult = none ∧ r.Opens v r' := by
  cases M with
  | idle | heard | ignored | graceful | world => exact .inl rfl
  | @played x q hdue =>
    have hparts := Queue.parts_of_popDue hdue
    cases x with
    | start w t =>
      obtain ⟨start, first, parts, items⟩ := H.of_opening (hparts ▸ List.mem_cons_self)
      cases items _ (Queue.items_of_popDue hdue ▸ List.mem_cons_self)
      rw [hparts] at parts
      have hempty : q.items = [] := Queue.parts_eq_nil.mp (List.cons.inj parts).2
      refine .inr ⟨rfl, start, first, rfl, ?_⟩
      have hitems := q.items_extend (r.stage.openVibration r.plan v).next
      rwa [hempty, List.append_nil] at hitems
    | lane l task =>
      obtain ⟨ds, hds, -⟩ := (l.play_plays r.stage r.plan task).deeds
      exact .inl hds.startResult
    | finish => exact .inl rfl
  | immediate => exact .inl (r.stage.tearDown_frame r.plan _).1

theorem startResult_moves (H : r.Phase v asked) (K : r.queue.Kept) {n : Int}
    (h : r.stage.startResult = some n) (ms : List (Move R)) :
    (r.moves ms).stage.startResult = some n := by
  induction ms generalizing r with
  | nil => exact h
  | cons m ms ih =>
    have M := r.move_moved m
    rcases M.opens H with hsame | ⟨-, hnone, -⟩
    · exact ih (H.moved K M) (M.kept K) (hsame.trans h)
    · rw [h] at hnone
      cases hnone

/-- If a run was started in the course of some moves, one of them played its opening step. -/
theorem exists_opens (H : r.Phase v asked) (K : r.queue.Kept) (h : r.stage.startResult = none)
    {ms : List (Move R)} (h' : (r.moves ms).stage.startResult ≠ none) : ∃ pre post,
      ms = pre ++ .play :: post ∧ (r.moves pre).Opens v (r.moves (pre ++ [.play])) := by
  induction ms generalizing r with
  | nil => exact absurd h h'
  | cons m ms ih =>
    have M := r.move_moved m
    rcases M.opens H with hsame | ⟨rfl, -, hopens⟩
    · obtain ⟨pre, post, rfl, hopens⟩ := ih (H.moved K M) (M.kept K) (hsame.trans h) h'
      exact ⟨m :: pre, post, rfl, hopens⟩
    · exact ⟨[], ms, rfl, hopens⟩

/-- While only steps are queued that never make a successful drive, none is made. -/
theorem Moved.mute (M : r.Moved m r') (uncancelled : r'.cancelled = none)
    (h : ∀ x ∈ r.queue.items, x.Mute) : (∀ x ∈ r'.queue.items, x.Mute) ∧
      ∀ x ∈ Deed.drives r'.stage.history, 0 < x.2 → x ∈ Deed.drives r.stage.history := by
  cases M with
  | idle | ignored | world => exact ⟨h, fun _ hx _ => hx⟩
  | graceful | immediate => cases uncancelled
  | heard hq =>
    refine ⟨hq.items Step.Mute (fun x a step hx => hx.accept a step r.now) h, fun _ hx _ => hx⟩
  | @played x q hdue =>
    have hitems := Queue.items_of_popDue hdue
    have hx : x.Mute := h x (hitems ▸ List.mem_cons_self)
    have hrest : ∀ y ∈ q.items, y.Mute := fun y hy => h y (hitems ▸ List.mem_cons_of_mem x hy)
    have hextend : (∀ y ∈ (r.stage.play r.plan x).next, y.Mute) →
        ∀ y ∈ (q.extend (r.stage.play r.plan x).next).items, y.Mute := fun hnext y hy =>
      (List.mem_append.mp ((q.items_extend _).mem_iff.mp hy)).elim (hnext y) (hrest y)
    cases x with
    | start w t => exact hx.elim
    | lane l task =>
      -- The step makes no drive, or one that is not successful.
      obtain ⟨ds, hds, hdrives⟩ := (l.play_plays r.stage r.plan task).deeds
      have hushed := Lane.play_hushed hx r.stage r.plan
      refine ⟨hextend hushed.next, fun y hy hpos => ?_⟩
      have hy : y ∈ Deed.drives r.stage.history ++ Deed.drives ds := by
        rw [← Deed.drives_append, ← hds.history]
        exact hy
      refine (List.mem_append.mp hy).resolve_right fun hy => ?_
      rcases hdrives with ⟨hnil, -⟩ | hone
      · rw [hnil] at hy
        cases hy
      · rw [hone] at hy
        cases List.mem_singleton.mp hy
        exact absurd hpos (Int.not_lt.mpr hushed.result)
    | finish =>
      refine ⟨hextend fun y hy => (List.not_mem_nil hy).elim, fun y hy _ => ?_⟩
      have hy : y ∈ Deed.drives (r.stage.tell (.off r.plan.caller)).history := hy
      rw [Stage.tell, Stage.history_record, Deed.drives_append] at hy
      exact (List.mem_append.mp hy).resolve_right (List.not_mem_nil)

theorem mute_moves {ms : List (Move R)} (uncancelled : (r.moves ms).cancelled = none)
    (h : ∀ x ∈ r.queue.items, x.Mute) :
    ∀ x ∈ Deed.drives (r.moves ms).stage.history, 0 < x.2 → x ∈ Deed.drives r.stage.history := by
  induction ms generalizing r with
  | nil => exact fun _ hx _ => hx
  | cons m ms ih =>
    obtain ⟨hitems, hdrives⟩ := (r.move_moved m).mute (uncancelled_of_moves uncancelled) h
    exact fun x hx hpos => hdrives x (ih uncancelled hitems x hx hpos) hpos

/-- A drive that is owed was made, or is still owed. -/
theorem Moved.pledged (M : r.Moved m r') (uncancelled : r'.cancelled = none) {a : ActuatorId}
    (H : r.stage.Pledged a r.queue.items) : r'.stage.Pledged a r'.queue.items := by
  rcases H with ⟨n, hn⟩ | ⟨x, hx, howes⟩
  · exact .inl ⟨n, (M.history.filterMap Deed.answer?).subset hn⟩
  cases M with
  | idle | ignored | world => exact .inr ⟨x, hx, howes⟩
  | graceful | immediate => cases uncancelled
  | heard hq =>
    have hperm := hq.map (·.Owes a) fun x b step => propext (x.owes_accept a b step r.now)
    obtain ⟨y, hy, heq⟩ := List.mem_map.mp (hperm.mem_iff.mpr (List.mem_map_of_mem hx))
    exact .inr ⟨y, hy, heq.mpr howes⟩
  | @played z q hdue =>
    rw [Queue.items_of_popDue hdue] at hx
    have hextend := q.items_extend (r.stage.play r.plan z).next
    rcases List.mem_cons.mp hx with rfl | hx
    · cases x with
      | start | finish => exact howes.elim
      | lane l task =>
        have hturn : (l.play r.plan r.stage task).stage.Pledged a
            (l.play r.plan r.stage task).next :=
          Turn.pledged (t := ⟨r.stage, l, task⟩) howes
        exact hturn.mono (fun _ hy => hy) fun y hy =>
          hextend.mem_iff.mpr (List.mem_append_left _ hy)
    · exact .inr ⟨x, hextend.mem_iff.mpr (List.mem_append_right _ hx), howes⟩

theorem pledged_moves {ms : List (Move R)} (uncancelled : (r.moves ms).cancelled = none)
    {a : ActuatorId} (H : r.stage.Pledged a r.queue.items) :
    (r.moves ms).stage.Pledged a (r.moves ms).queue.items := by
  induction ms generalizing r with
  | nil => exact H
  | cons m ms ih =>
    exact ih uncancelled ((r.move_moved m).pledged (uncancelled_of_moves uncancelled) H)

/-! ## Runs that are not cancelled -/

omit [Level R] in
theorem status_iff (hc : r.cancelled = none) {n : Int} (h : r.stage.startResult = some n) :
    (r.status = .finished ↔ 0 < n) ∧ (r.status = .failed ↔ n < 0) ∧
      (r.status = .ignoredUnsupported ↔ n = 0) := by
  have hstatus : r.status =
      if n < 0 then .failed else if 0 < n then .finished else .ignoredUnsupported := by
    unfold status
    rw [hc, h]
    rfl
  rw [hstatus]
  rcases Int.lt_trichotomy n 0 with hn | rfl | hn
  · rw [if_pos hn]
    exact ⟨⟨nofun, fun h => by omega⟩, ⟨fun _ => hn, fun _ => rfl⟩, ⟨nofun, fun h => by omega⟩⟩
  · decide
  · rw [if_neg (by omega), if_pos hn]
    exact ⟨⟨fun _ => hn, fun _ => rfl⟩, ⟨nofun, fun h => by omega⟩, ⟨nofun, fun h => by omega⟩⟩

/-- The drives that a run made so far, each with its answer. -/
def drives (r : Run R) : List (ActuatorId × Int) := Deed.drives r.stage.history

/-- The run told that its vibration is on. -/
def Told (r : Run R) : Prop := ∃ t, .on r.plan.caller t ∈ r.stage.telemetry

/-- What a run that was not cancelled told and how it ended, and what this has to do with its
drives. Its opening step started the effects `es` and left the run as it was when it `opened`. -/
structure Decided (es : List (ActuatorId × Effect R)) (opened r : Run R) : Prop where
  entry : opened.drives <+: r.drives
  closing_once : opened.queue.parts.count .closing ≤ 1
  closing_iff : opened.queue.parts.count .closing = 1 ↔ r.Told
  paired : r.Told →
    ∃ t, r.stage.telemetry = [.on r.plan.caller t, .off r.plan.caller]
  finished_iff : r.status = .finished ↔ r.Told
  failed_iff : r.status = .failed ↔ ∃ x ∈ opened.drives, x.2 < 0
  /-- It is told if no drive of the opening step failed, and one was successful or an effect is
  expected to take time. -/
  told_iff : r.Told ↔ (∀ x ∈ opened.drives, 0 ≤ x.2) ∧
    ((∃ x ∈ opened.drives, 0 < x.2) ∨ ∃ x ∈ es, 0 < x.2.expected)
  /-- If it is known how long the effects take, any successful drive is told of. -/
  known : (∀ x ∈ opened.drives, 0 ≤ x.2) → (∀ x ∈ es, x.2.duration? ≠ none) →
    (∃ x ∈ r.drives, 0 < x.2) → r.Told
  /-- Unless the start failed, each audible effect drove its actuator. -/
  heard : (∀ x ∈ opened.drives, 0 ≤ x.2) →
    ∀ x ∈ es, x.2.audible = true → ∃ n, (x.1, n) ∈ r.drives
  /-- So if it is told, a drive was successful, unless there was nothing to be heard or the hardware
  refused. -/
  drove : r.Told → (∃ x ∈ r.drives, 0 < x.2) ∨
    ∀ x ∈ es, x.2.audible = true → ∃ n ≤ 0, (x.1, n) ∈ r.drives
  ignored : r.status = .ignoredUnsupported → (∀ x ∈ opened.drives, x.2 = 0) ∧
    ((∀ x ∈ es, x.2.duration? ≠ none) → ∀ x ∈ r.drives, x.2 ≤ 0)

omit [Level R] in
/-- A run that is over and was not cancelled has been started, and told of it if something was. -/
theorem Phase.uncancelled_ended (H : r.Phase v asked) (hc : r.cancelled = none)
    (ended : r.isOver = true) : ∃ n, r.stage.startResult = some n ∧ r.stage.telemetry =
      if 0 < n then [.on r.plan.caller (announced n), .off r.plan.caller] else [] := by
  obtain ⟨n, hn⟩ : ∃ n, r.stage.startResult = some n := by
    cases H with
    | waiting start history parts =>
      rcases parts with parts | ⟨-, hcancelled⟩
      · rw [Queue.parts_eq_nil.mpr (Queue.isEmpty_iff.mp ended)] at parts
        cases parts
      · exact absurd hc hcancelled
    | playing n _ start | closed n start => exact ⟨n, start⟩
  refine ⟨n, hn, ?_⟩
  rcases H.ended ended with ⟨m, hm, hpos, told⟩ | ⟨hle, told⟩
  · obtain rfl : n = m := Option.some.inj (hn.symm.trans hm)
    rw [told, if_pos hpos]
  · rw [told, if_neg (Int.not_lt.mpr (hle n hn))]

namespace Opens

variable {opened : Run R} (O : r.Opens v opened) {n : Int}
  (hn : (r.stage.openVibration r.plan v).result = n)

include O hn

theorem startResult : opened.stage.startResult = some n := by
  rw [O.stage, Stage.startResult_openVibration, hn]

theorem closing : opened.queue.parts.count .closing = if 0 < n then 1 else 0 := by
  rw [← hn, ← Stage.closing_openVibration]
  exact (O.items.map Step.part).count_eq _

theorem decision : (n < 0 ↔ ∃ x ∈ opened.drives, x.2 < 0) ∧
    (0 < n ↔ (∀ x ∈ opened.drives, 0 ≤ x.2) ∧
      ((∃ x ∈ opened.drives, 0 < x.2) ∨ ∃ x ∈ r.stage.effects v, 0 < x.2.expected)) := by
  have hdecision := Stage.decision_openVibration r.plan v O.first
  rwa [hn, ← O.stage] at hdecision

theorem nonneg_iff : 0 ≤ n ↔ ∀ x ∈ opened.drives, 0 ≤ x.2 := by
  rw [← Int.not_lt, (O.decision hn).1]
  simp only [not_exists, not_and, Int.not_lt]

theorem eq_zero (hzero : n = 0) : ∀ x ∈ opened.drives, x.2 = 0 := by
  have hall : ∀ x ∈ opened.drives, 0 ≤ x.2 := (O.nonneg_iff hn).mp (Int.le_of_eq hzero.symm)
  refine fun x hx => Int.le_antisymm (Int.not_lt.mp fun hpos => ?_) (hall x hx)
  have := (O.decision hn).2.mpr ⟨hall, .inl ⟨x, hx, hpos⟩⟩
  omega

/-- In a run that started nothing although it is known how long the effects take, no drive is ever
successful. -/
theorem mute (hzero : n = 0) (known : ∀ x ∈ r.stage.effects v, x.2.duration? ≠ none)
    {ms : List (Move R)} (uncancelled : (opened.moves ms).cancelled = none) :
    ∀ x ∈ (opened.moves ms).drives, x.2 ≤ 0 := by
  have hitems : ∀ x ∈ opened.queue.items, x.Mute := fun x hx =>
    r.stage.mute_openVibration r.plan v known (hn.trans hzero) x (O.items.mem_iff.mp hx)
  refine fun x hx => Int.not_lt.mp fun hpos => ?_
  have := O.eq_zero hn hzero x (mute_moves uncancelled hitems x hx hpos)
  omega

/-- Unless the start failed, each audible effect has driven its actuator when the run is over. -/
theorem heard (hnonneg : 0 ≤ n) {ms : List (Move R)} (ended : (opened.moves ms).isOver = true)
    (uncancelled : (opened.moves ms).cancelled = none) :
    ∀ x ∈ r.stage.effects v, x.2.audible = true → ∃ m, (x.1, m) ∈ (opened.moves ms).drives := by
  intro x hx audible
  have hopened : opened.stage.Pledged x.1 opened.queue.items := by
    rw [O.stage]
    exact (r.stage.pledged_openVibration r.plan v hx audible (hn ▸ hnonneg)).mono (fun _ hy => hy)
      fun _ hy => O.items.mem_iff.mpr hy
  refine (pledged_moves uncancelled hopened).resolve_right ?_
  rintro ⟨y, hy, -⟩
  rw [Queue.isEmpty_iff.mp ended] at hy
  cases hy

theorem decided (H : opened.Phase v asked) (K : opened.queue.Kept) {ms : List (Move R)}
    (ended : (opened.moves ms).isOver = true) (uncancelled : (opened.moves ms).cancelled = none) :
    Decided (r.stage.effects v) opened (opened.moves ms) := by
  obtain ⟨m, hm, told⟩ := (phase_moves H K ms).uncancelled_ended uncancelled ended
  obtain rfl : n = m :=
    Option.some.inj ((startResult_moves H K (O.startResult hn) ms).symm.trans hm)
  obtain ⟨hfinished, hfailed, hignored⟩ := status_iff uncancelled hm
  obtain ⟨hneg, hpos⟩ := O.decision hn
  have told_iff : (opened.moves ms).Told ↔ 0 < n := by
    unfold Told
    rw [told]
    by_cases h : 0 < n <;> simp [h]
  constructor
  case entry => exact (opened.history_moves ms).filterMap _
  case closing_once =>
    rw [O.closing hn]
    split <;> omega
  case closing_iff =>
    rw [O.closing hn, told_iff]
    by_cases h : 0 < n <;> simp [h]
  case paired =>
    intro h
    rw [told, if_pos (told_iff.mp h)]
    exact ⟨_, rfl⟩
  case finished_iff => exact hfinished.trans told_iff.symm
  case failed_iff => exact hfailed.trans hneg
  case told_iff => exact told_iff.trans hpos
  case known =>
    rintro h known ⟨x, hx, hx'⟩
    refine told_iff.mpr (Int.lt_iff_le_and_ne.mpr ⟨(O.nonneg_iff hn).mpr h, fun hzero => ?_⟩)
    exact Int.not_lt.mpr (O.mute hn hzero.symm known uncancelled x hx) hx'
  case heard => exact fun h => O.heard hn ((O.nonneg_iff hn).mpr h) ended uncancelled
  case drove =>
    intro h
    by_cases hdrove : ∃ x ∈ (opened.moves ms).drives, 0 < x.2
    · exact .inl hdrove
    · refine .inr fun x hx audible => ?_
      obtain ⟨m, hm⟩ := O.heard hn (Int.le_of_lt (told_iff.mp h)) ended uncancelled x hx audible
      exact ⟨m, Int.not_lt.mp fun hpos => hdrove ⟨_, hm, hpos⟩, hm⟩
  case ignored =>
    intro h
    have hzero := hignored.mp h
    exact ⟨O.eq_zero hn hzero, fun known => O.mute hn hzero known uncancelled⟩

end Opens

/-- In every run that is over and was not cancelled, what is told and how the run ends is decided by
its opening step. -/
theorem decided_moves (plan : Plan R) (v : Vibration R) (rig : Rig R) (asked : Nat)
    (ms : List (Move R)) (ended : ((fresh plan v rig asked).moves ms).isOver = true)
    (uncancelled : ((fresh plan v rig asked).moves ms).cancelled = none) :
    ∃ pre post, ms = pre ++ .play :: post ∧
      ((fresh plan v rig asked).moves pre).stage.history = [] ∧
      ((fresh plan v rig asked).moves (pre ++ [.play])).stage =
        (((fresh plan v rig asked).moves pre).stage.openVibration plan v).stage ∧
      Decided (((fresh plan v rig asked).moves pre).stage.effects v)
        ((fresh plan v rig asked).moves (pre ++ [.play])) ((fresh plan v rig asked).moves ms) := by
  have H := fresh_phase plan v rig asked
  have K := fresh_kept plan v rig asked
  have hstart : (fresh plan v rig asked).stage.startResult = none := rfl
  have hplan : ∀ pre, ((fresh plan v rig asked).moves pre).plan = plan :=
    (fresh plan v rig asked).plan_moves
  generalize fresh plan v rig asked = r at *
  obtain ⟨n, hn, -⟩ := (phase_moves H K ms).uncancelled_ended uncancelled ended
  have hstarted : (r.moves ms).stage.startResult ≠ none := fun h => by
    rw [hn] at h
    cases h
  obtain ⟨pre, post, rfl, O⟩ := exists_opens H K hstart hstarted
  have hms : r.moves (pre ++ .play :: post) = (r.moves (pre ++ [.play])).moves post := by
    rw [← moves_append, List.append_assoc]
    rfl
  rw [hms] at ended uncancelled ⊢
  refine ⟨pre, post, rfl, O.first, ?_, ?_⟩
  · rw [O.stage, hplan]
  · exact O.decided rfl (phase_moves H K _) (r.kept_moves K _) ended uncancelled

/-- A short hold that is played to its end. -/
theorem decided_moves_short : let r := bench (.mono (.pattern (.oneShot 30))) [0]
    let ms := [.play, .world (·.moveTo 30), .play, .world (·.moveTo 1030), .play, .play]
    (r.moves ms).isOver = true ∧ (r.moves ms).cancelled = none ∧
      ∃ pre post, ms = pre ++ .play :: post ∧ (r.moves pre).stage.history = [] ∧
        (r.moves (pre ++ [.play])).stage =
          ((r.moves pre).stage.openVibration r.plan (.mono (.pattern (.oneShot 30)))).stage ∧
        Decided ((r.moves pre).stage.effects (.mono (.pattern (.oneShot 30))))
          (r.moves (pre ++ [.play])) (r.moves ms) :=
  have ended : ((bench (.mono (.pattern (.oneShot 30))) [0]).moves
    [.play, .world (·.moveTo 30), .play, .world (·.moveTo 1030), .play, .play]).isOver = true := by
    decide +kernel
  have uncancelled : ((bench (.mono (.pattern (.oneShot 30))) [0]).moves [.play,
    .world (·.moveTo 30), .play, .world (·.moveTo 1030), .play, .play]).cancelled = none := by
    decide +kernel
  ⟨ended, uncancelled, decided_moves _ _ _ _ _ ended uncancelled⟩

/-! ## Drives and telling apart -/

/-- Two motors are to start, and the second has died. -/
def halfDead : Run Rat :=
  (bench (.mono (.pattern (.oneShot 100))) [0, 1]).moves
    [.world (·.onMotor 1 fun m => { m with failure := some .dead }), .play]

/-- A hold at an amplitude of zero. -/
def silent : Run Rat :=
  (bench (.mono (.pattern (.waveform [30] [.level 0] none))) [0]).moves
    [.play, .world (·.moveTo 30), .play, .play, .play]

/-- A primitive, which the motor does not know and nobody knows the duration of, and then a hold. -/
def belated : Run Rat :=
  (bench (.mono (.pattern
      (.ofSegments [.primitive ⟨⟨1⟩, 1, 0⟩, .hold ⟨.level 1, 0, 50⟩] none))) [0]).moves
    [.play, .play, .world (·.moveTo 50), .play, .world (·.moveTo 1050), .play]

/-- What is told does not say whether there was a successful drive: the drives of a start that fails
are not told of, a duration that is expected is told of whether or not it is played, and one that is
not expected comes too late. -/
theorem told_apart_from_drives :
    (halfDead.isOver = true ∧ halfDead.cancelled = none ∧ (0, 100) ∈ halfDead.drives ∧
      halfDead.stage.telemetry = [] ∧ halfDead.status = .failed) ∧
    (silent.isOver = true ∧ silent.cancelled = none ∧ silent.drives = [] ∧
      silent.stage.telemetry = [.on ⟨1000, "com.example"⟩ 30, .off ⟨1000, "com.example"⟩] ∧
      silent.status = .finished) ∧
    (belated.isOver = true ∧ belated.cancelled = none ∧ (0, 50) ∈ belated.drives ∧
      belated.stage.telemetry = [] ∧ belated.status = .ignoredUnsupported) := by
  decide +kernel

end Run
end Haptics
