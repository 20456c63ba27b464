import Haptics.Proofs.Moves

/-!
# What a run tells

A run goes through at most four phases (`Run.Phase`): it waits for its opening step; that step
starts nothing, or it tells that the vibration is on and queues the closing step; and the closing
step tells that it is off. The closing step is in the queue exactly while the vibration is on.
-/

namespace Haptics

variable {R : Type}

/-! ## What single steps tell -/

theorem Deed.told_of_actuator {ds : List (Deed R)} (h : ∀ d ∈ ds, ∃ a, d.actuator? = some a) :
    ds.filterMap told? = [] := by
  refine List.filterMap_eq_nil_iff.mpr fun d hd => ?_
  obtain ⟨a, ha⟩ := h d hd
  cases d with
  | tell t => cases ha
  | _ => rfl

theorem Stage.Starts.telemetry {s : Stage R} {es : List (ActuatorId × Effect R)} {p : Played R}
    {prepared : Bool} {asked driven undone settled : List (Deed R)}
    (H : s.Starts es p prepared asked driven undone settled) : p.stage.telemetry = s.telemetry := by
  have hasked : asked.filterMap Deed.told? = [] := by cases H.asks <;> rfl
  have hdriven : driven.filterMap Deed.told? = [] := Deed.told_of_actuator fun d hd => by
    obtain ⟨x, -, hx⟩ := H.own d hd
    exact ⟨_, hx⟩
  have hundone : undone.filterMap Deed.told? = [] := Deed.told_of_actuator fun d hd => by
    obtain ⟨a, rfl⟩ := H.stops d hd
    exact ⟨a, rfl⟩
  have hsettled : settled.filterMap Deed.told? = [] := by cases H.settles <;> rfl
  rw [telemetry_of_history H.history]
  simp only [List.filterMap_append, hasked, hdriven, hundone, hsettled, List.append_nil]

section
variable [Level R] (s : Stage R) (plan : Plan R)

/-- What a start with a result tells. -/
def announcement (caller : Caller) (result : Int) : List Telemetry :=
  if 0 < result then [.on caller (announced result)] else []

/-- What a start with a result queues beyond the steps of the actuators. -/
def Part.due (result : Int) : List Part := if 0 < result then [.closing] else []

omit [Level R] in
theorem Part.mem_due {p : Part} {n : Int} : p ∈ due n ↔ 0 < n ∧ p = .closing := by
  unfold due
  split <;> simp [*]

omit [Level R] in
theorem Part.opening_not_mem {n : Int} {ps : List Part} (lanes : ∀ p ∈ ps, ∃ a, p = .lane a) :
    .opening ∉ due n ++ ps := fun h => by
  rcases List.mem_append.mp h with h | h
  · cases (mem_due.mp h).2
  · obtain ⟨a, ha⟩ := lanes _ h
    cases ha

omit [Level R] in
theorem Part.count_closing {n : Int} {ps : List Part} (lanes : ∀ p ∈ ps, ∃ a, p = .lane a) :
    (due n ++ ps).count .closing = if 0 < n then 1 else 0 := by
  have hps : ps.count .closing = 0 := List.count_eq_zero.mpr fun h => by
    obtain ⟨a, ha⟩ := lanes _ h
    cases ha
  rw [List.count_append, hps, due]
  split <;> rfl

theorem Stage.telemetry_openVibration (v : Vibration R) :
    (s.openVibration plan v).stage.telemetry =
      s.telemetry ++ announcement plan.caller (s.openVibration plan v).result := by
  obtain ⟨_, _, _, _, _, H⟩ := s.openAll_starts plan (s.effects v)
  rw [telemetry_of_history (s.history_openVibration plan v), H.telemetry, announcement]
  split <;> rfl

theorem Stage.parts_openVibration (v : Vibration R) : ∃ ps,
    (s.openVibration plan v).next.map Step.part = ps ++ Part.due (s.openVibration plan v).result ∧
      ∀ p ∈ ps, ∃ a, p = .lane a := by
  obtain ⟨_, _, _, _, _, H⟩ := s.openAll_starts plan (s.effects v)
  refine ⟨(s.openAll plan (s.effects v)).next.map Step.part, ?_, fun p hp => ?_⟩
  · rw [next_openVibration, List.map_append, Part.due]
    split <;> rfl
  · obtain ⟨x, hx, rfl⟩ := List.mem_map.mp hp
    exact H.lanes x hx

end

/-! ## Phases -/

/-- How far the run of a vibration is. -/
inductive Run.Phase (v : Vibration R) (asked : Nat) (r : Run R) : Prop
  | waiting (start : r.stage.startResult = none) (history : r.stage.history = [])
      (parts : r.queue.parts = [.opening] ∨ r.queue.parts = [] ∧ r.cancelled ≠ none)
      (items : ∀ x ∈ r.queue.items, x = .start v asked)
  | playing (n ps) (start : r.stage.startResult = some n)
      (told : r.stage.telemetry = announcement r.plan.caller n)
      (parts : r.queue.parts.Perm (Part.due n ++ ps)) (lanes : ∀ p ∈ ps, ∃ a, p = .lane a)
  | closed (n) (start : r.stage.startResult = some n) (pos : 0 < n)
      (told : r.stage.telemetry = [.on r.plan.caller (announced n), .off r.plan.caller])
      (empty : r.queue.parts = [])
      (last : r.cancelled ≠ some .immediate →
        ∃ pre, r.stage.history = pre ++ [.tell (.off r.plan.caller)])

namespace Run

variable {v : Vibration R} {asked : Nat} {r r' : Run R}

theorem fresh_phase (plan : Plan R) (v : Vibration R) (rig : Rig R) (asked : Nat) :
    (fresh plan v rig asked).Phase v asked := by
  refine .waiting rfl rfl (.inl rfl) fun x hx => ?_
  exact List.mem_singleton.mp hx

/-- A run whose opening step is in the queue has done nothing yet. -/
theorem Phase.of_opening (H : r.Phase v asked) (h : .opening ∈ r.queue.parts) :
    r.stage.startResult = none ∧ r.stage.history = [] ∧ r.queue.parts = [.opening] ∧
      ∀ x ∈ r.queue.items, x = .start v asked := by
  cases H with
  | waiting start history parts items =>
    rcases parts with parts | ⟨parts, -⟩
    · exact ⟨start, history, parts, items⟩
    · rw [parts] at h
      cases h
  | playing n ps start told parts lanes =>
    exact absurd (parts.mem_iff.mp h) (Part.opening_not_mem lanes)
  | closed n start pos told empty =>
    rw [empty] at h
    cases h

variable [Level R]

/-- While a vibration plays, an actuator's step is replaced by steps of the same actuator. -/
theorem Phase.plays {n : Int} {ps : List Part} (start : r.stage.startResult = some n)
    (told : r.stage.telemetry = announcement r.plan.caller n) {l : Lane} {task : Task R}
    {q : Queue (Step R)} (parts : (.lane l.actuator :: q.parts).Perm (Part.due n ++ ps))
    (lanes : ∀ p ∈ ps, ∃ a, p = .lane a) : Phase v asked { r with
      stage := (l.play r.plan r.stage task).stage
      queue := q.extend (l.play r.plan r.stage task).next } := by
  have H := l.play_plays r.stage r.plan task
  obtain ⟨ds, hds, -⟩ := H.deeds
  have hmem : .lane l.actuator ∈ ps := by
    refine (List.mem_append.mp (parts.mem_iff.mp List.mem_cons_self)).resolve_left fun h => ?_
    cases (Part.mem_due.mp h).2
  have hq : q.parts.Perm (Part.due n ++ ps.erase (.lane l.actuator)) := by
    refine (List.perm_cons (.lane l.actuator)).mp (parts.trans ?_)
    exact ((List.perm_cons_erase hmem).append_left _).trans List.perm_middle
  refine .playing n ((l.play r.plan r.stage task).next.map Step.part ++
    ps.erase (.lane l.actuator)) (hds.startResult.trans start) (hds.telemetry.trans told) ?_ ?_
  · refine (q.parts_extend _).trans ((hq.append_left _).trans ?_)
    exact List.perm_append_comm_assoc ..
  · intro p hp
    rcases List.mem_append.mp hp with hp | hp
    · obtain ⟨x, hx, rfl⟩ := List.mem_map.mp hp
      exact ⟨_, H.lanes x hx⟩
    · exact lanes p (List.mem_of_mem_erase hp)

/-- The opening step decides what is told and whether the vibration is closed. -/
theorem Phase.opens {q : Queue (Step R)} (history : r.stage.history = []) (empty : q.parts = []) :
    Phase v asked { r with
      stage := (r.stage.openVibration r.plan v).stage
      queue := q.extend (r.stage.openVibration r.plan v).next } := by
  obtain ⟨ps, hps, lanes⟩ := r.stage.parts_openVibration r.plan v
  refine .playing _ ps (r.stage.startResult_openVibration r.plan v) ?_ ?_ lanes
  · have htold := r.stage.telemetry_openVibration r.plan v
    have hnil : r.stage.telemetry = [] := congrArg (·.filterMap Deed.told?) history
    rwa [hnil] at htold
  · have hparts := q.parts_extend (r.stage.openVibration r.plan v).next
    rw [hps, empty, List.append_nil] at hparts
    exact hparts.trans List.perm_append_comm

theorem Phase.played {x : Step R} {q : Queue (Step R)} (H : r.Phase v asked) (K : r.queue.Kept)
    (h : r.queue.popDue r.now = some (x, q)) : Phase v asked { r with
      stage := (r.stage.play r.plan x).stage
      queue := q.extend (r.stage.play r.plan x).next } := by
  have hparts := Queue.parts_of_popDue h
  have hitems := Queue.items_of_popDue h
  cases x with
  | start w t =>
    obtain ⟨-, history, parts, items⟩ := H.of_opening (hparts ▸ List.mem_cons_self)
    cases items _ (hitems ▸ List.mem_cons_self)
    rw [hparts] at parts
    exact .opens history (List.cons.inj parts).2
  | lane l task =>
    cases H with
    | waiting start history parts items =>
      cases items _ (hitems ▸ List.mem_cons_self)
    | playing n ps start told parts lanes => exact .plays start told (hparts ▸ parts) lanes
    | closed n start pos told empty =>
      rw [hparts] at empty
      cases empty
  | finish =>
    -- The closing step comes out alone, so nothing is left to be done after it.
    have hempty : q.parts = [] := Queue.parts_eq_nil.mpr (K.popDue_closing h rfl)
    cases H with
    | waiting start history parts items =>
      cases items _ (hitems ▸ List.mem_cons_self)
    | playing n ps start told parts lanes =>
      have hpos : 0 < n := by
        rw [hparts] at parts
        rcases List.mem_append.mp (parts.mem_iff.mp List.mem_cons_self) with h | h
        · exact (Part.mem_due.mp h).1
        · obtain ⟨a, ha⟩ := lanes _ h
          cases ha
      refine .closed n start hpos ?_ hempty fun _ => ⟨_, Stage.history_record _ _⟩
      have htold := Stage.telemetry_of_history (r.stage.history_record (.tell (.off r.plan.caller)))
      rw [told, announcement, if_pos hpos] at htold
      exact htold
    | closed n start pos told empty =>
      rw [hparts] at empty
      cases empty

omit [Level R] in
theorem Phase.heard {q : Queue (Step R)} (H : r.Phase v asked) (h : Heard r.now r.queue q) :
    Phase v asked { r with queue := q } := by
  cases H with
  | waiting start history parts items =>
    refine .waiting start history ?_ (h.items (· = .start v asked) (fun x a step hx => ?_) items)
    · rcases parts with parts | ⟨parts, hc⟩
      · exact .inl (List.perm_singleton.mp (parts ▸ h.parts))
      · exact .inr ⟨List.perm_nil.mp (parts ▸ h.parts), hc⟩
    · rw [hx]
      rfl
  | playing n ps start told parts lanes =>
    exact .playing n ps start told (h.parts.trans parts) lanes
  | closed n start pos told empty last =>
    exact .closed n start pos told (List.perm_nil.mp (empty ▸ h.parts)) last

omit [Level R] in
theorem Phase.graceful {k : Nat} {q : Queue (Step R)} (H : r.Phase v asked)
    (hc : r.cancelled ≠ some .immediate)
    (h : q.parts.Perm (r.queue.parts.filter (· ≠ .opening))) : Phase v asked { r with
      cancelled := some .graceful, stage := { r.stage with nextStep := k }, queue := q } := by
  cases H with
  | waiting start history parts items =>
    have hempty : q.parts = [] := by
      rcases parts with parts | ⟨parts, -⟩ <;> rw [parts] at h <;> exact List.perm_nil.mp h
    refine .waiting start history (.inr ⟨hempty, Option.some_ne_none _⟩) fun x hx => ?_
    rw [Queue.parts_eq_nil.mp hempty] at hx
    cases hx
  | playing n ps start told parts lanes =>
    refine .playing n ps start told (h.trans ((parts.filter _).trans (.of_eq ?_))) lanes
    refine List.filter_eq_self.mpr fun p hp => decide_eq_true ?_
    rintro rfl
    exact Part.opening_not_mem lanes hp
  | closed n start pos told empty last =>
    rw [empty] at h
    exact .closed n start pos told (List.perm_nil.mp h) fun _ => last hc

theorem Phase.immediate {xs : List (Step R)} {q : Queue (Step R)} (H : r.Phase v asked)
    (items : xs.Perm r.queue.items) (empty : q.items = []) : Phase v asked { r with
      cancelled := some .immediate, stage := r.stage.tearDown r.plan xs, queue := q } := by
  have hempty : q.parts = [] := Queue.parts_eq_nil.mpr empty
  have hstart := (r.stage.tearDown_frame r.plan xs).1
  have hhistory := r.stage.history_tearDown r.plan xs
  have htold := Stage.telemetry_of_history hhistory
  -- The end is told as often as the closing step was queued.
  have hcount : (xs.map Step.part).count .closing = r.queue.parts.count .closing :=
    (items.map Step.part).count_eq _
  rw [Deed.told_undoing, hcount] at htold
  cases H with
  | waiting start history parts hitems =>
    refine .waiting (hstart.trans start) ?_ (.inr ⟨hempty, Option.some_ne_none _⟩) fun x hx => ?_
    · rw [history, List.nil_append] at hhistory
      refine hhistory.trans (List.filterMap_eq_nil_iff.mpr fun x hx => ?_)
      rw [hitems x (items.mem_iff.mp hx)]
      rfl
    · rw [empty] at hx
      cases hx
  | playing n ps start told parts lanes =>
    rw [parts.count_eq, Part.count_closing lanes, told, announcement] at htold
    by_cases hn : 0 < n
    · simp only [if_pos hn] at htold
      exact .closed n (hstart.trans start) hn htold hempty fun h => absurd rfl h
    · simp only [if_neg hn] at htold
      refine .playing n [] (hstart.trans start) ?_ ?_ (by simp)
      · rw [htold, announcement, if_neg hn]
        rfl
      · rw [hempty, Part.due, if_neg hn]
        rfl
  | closed n start pos told parts last =>
    rw [parts, told] at htold
    exact .closed n (hstart.trans start) pos htold hempty fun h => absurd rfl h

theorem Phase.moved {m : Move R} (H : r.Phase v asked) (K : r.queue.Kept) (M : r.Moved m r') :
    r'.Phase v asked := by
  cases M with
  | idle | ignored => exact H
  | played h => exact H.played K h
  | heard h => exact H.heard h
  | graceful h items left => exact H.graceful h (r.parts_graceful items left)
  | immediate h items empty => exact H.immediate items empty
  | world f =>
    cases H with
    | waiting start history parts items => exact .waiting start history parts items
    | playing n ps start told parts lanes => exact .playing n ps start told parts lanes
    | closed n start pos told empty last => exact .closed n start pos told empty last

/-- Every run is in one of the phases after every sequence of moves. -/
theorem phase_moves (H : r.Phase v asked) (K : r.queue.Kept) (ms : List (Move R)) :
    (r.moves ms).Phase v asked := by
  induction ms generalizing r with
  | nil => exact H
  | cons m ms ih => exact ih (H.moved K (r.move_moved m)) ((r.move_moved m).kept K)

/-! ## The pairing of beginning and end -/

/-- What a run tells is a beginning and then an end, each at most once; the closing step is queued
between the two. -/
structure Paired (ms : List (Move R)) (r : Run R) : Prop where
  told : r.stage.telemetry = [] ∨ ∃ t, r.stage.telemetry = [.on r.plan.caller t] ∨
    r.stage.telemetry = [.on r.plan.caller t, .off r.plan.caller]
  closing_once : r.queue.parts.count .closing ≤ 1
  closing_iff : r.queue.parts.count .closing = 1 ↔
    (∃ t, .on r.plan.caller t ∈ r.stage.telemetry) ∧ .off r.plan.caller ∉ r.stage.telemetry
  /-- A run that is over told both or nothing, as its opening step decided. -/
  ended : r.isOver = true →
    (∃ n, r.stage.startResult = some n ∧ 0 < n ∧
      r.stage.telemetry = [.on r.plan.caller (announced n), .off r.plan.caller]) ∨
    (∀ n, r.stage.startResult = some n → n ≤ 0) ∧ r.stage.telemetry = []
  finished : r.isOver = true → r.status = .finished →
    ∃ t, r.stage.telemetry = [.on r.plan.caller t, .off r.plan.caller]
  unheard : r.isOver = true → r.status = .ignoredUnsupported ∨ r.status = .failed →
    r.stage.telemetry = []
  /-- Unless the run was cancelled immediately, nothing is done after the end was told. -/
  off_last : .cancel .immediate ∉ ms → .off r.plan.caller ∈ r.stage.telemetry →
    ∃ pre, r.stage.history = pre ++ [.tell (.off r.plan.caller)]

omit [Level R] in
theorem Phase.ended (H : r.Phase v asked) (h : r.isOver = true) :
    (∃ n, r.stage.startResult = some n ∧ 0 < n ∧
      r.stage.telemetry = [.on r.plan.caller (announced n), .off r.plan.caller]) ∨
    (∀ n, r.stage.startResult = some n → n ≤ 0) ∧ r.stage.telemetry = [] := by
  cases H with
  | waiting start history =>
    refine .inr ⟨fun n hn => ?_, congrArg (·.filterMap Deed.told?) history⟩
    rw [start] at hn
    cases hn
  | playing n ps start told parts lanes =>
    have hparts : r.queue.parts = [] := Queue.parts_eq_nil.mpr (Queue.isEmpty_iff.mp h)
    have hn : ¬0 < n := fun hn => by
      have hmem := List.mem_append_left ps (Part.mem_due.mpr ⟨hn, rfl⟩)
      rw [← parts.mem_iff, hparts] at hmem
      cases hmem
    refine .inr ⟨fun m hm => ?_, ?_⟩
    · obtain rfl : n = m := Option.some.inj (start.symm.trans hm)
      exact Int.not_lt.mp hn
    · rw [told, announcement, if_neg hn]
  | closed n start pos told => exact .inl ⟨n, start, pos, told⟩

omit [Level R] in
theorem Phase.told (H : r.Phase v asked) : r.stage.telemetry = [] ∨
    ∃ t, r.stage.telemetry = [.on r.plan.caller t] ∨
      r.stage.telemetry = [.on r.plan.caller t, .off r.plan.caller] := by
  cases H with
  | waiting start history => exact .inl (congrArg (·.filterMap Deed.told?) history)
  | playing n ps start told =>
    rw [told, announcement]
    split
    · exact .inr ⟨_, .inl rfl⟩
    · exact .inl rfl
  | closed n start pos told => exact .inr ⟨_, .inr told⟩

omit [Level R] in
theorem Phase.closing (H : r.Phase v asked) : r.queue.parts.count .closing ≤ 1 ∧
    (r.queue.parts.count .closing = 1 ↔
      (∃ t, .on r.plan.caller t ∈ r.stage.telemetry) ∧
        .off r.plan.caller ∉ r.stage.telemetry) := by
  cases H with
  | waiting start history parts =>
    have htold : r.stage.telemetry = [] := congrArg (·.filterMap Deed.told?) history
    rcases parts with parts | ⟨parts, -⟩ <;> simp [parts, htold]
  | playing n ps start told parts lanes =>
    rw [parts.count_eq, Part.count_closing lanes, told, announcement]
    by_cases hn : 0 < n <;> simp [hn]
  | closed n start pos told empty => simp [empty, told]

omit [Level R] in
theorem startResult_of_status {n : Int} (h : r.stage.startResult = some n) :
    (r.status = .finished → 0 < n) ∧
      (r.status = .ignoredUnsupported ∨ r.status = .failed → n ≤ 0) := by
  unfold status
  rw [h]
  dsimp only
  split
  · exact ⟨nofun, fun _ => by omega⟩
  · split
    · exact ⟨nofun, fun h => h.elim nofun nofun⟩
    · split
      · exact ⟨fun _ => by assumption, fun h => h.elim nofun nofun⟩
      · exact ⟨nofun, fun _ => by omega⟩

omit [Level R] in
theorem startResult_of_finished (h : r.status = .finished) : ∃ n, r.stage.startResult = some n := by
  cases hs : r.stage.startResult with
  | some n => exact ⟨n, rfl⟩
  | none =>
    unfold status at h
    rw [hs] at h
    cases hc : r.cancelled <;> rw [hc] at h <;> cases h

/-- After every sequence of moves the beginning and the end of a vibration are paired. -/
theorem paired_moves (plan : Plan R) (v : Vibration R) (rig : Rig R) (asked : Nat)
    (ms : List (Move R)) : Paired ms ((fresh plan v rig asked).moves ms) := by
  have H := phase_moves (fresh_phase plan v rig asked) (fresh_kept plan v rig asked) ms
  have hmem := (fresh plan v rig asked).mem_of_cancelled nofun ms
  generalize (fresh plan v rig asked).moves ms = r at H hmem
  constructor
  case told => exact H.told
  case closing_once => exact H.closing.1
  case closing_iff => exact H.closing.2
  case ended => exact H.ended
  case finished =>
    intro hended hstatus
    rcases H.ended hended with ⟨n, -, -, told⟩ | ⟨hn, -⟩
    · exact ⟨_, told⟩
    · obtain ⟨n, hstart⟩ := startResult_of_finished hstatus
      have hpos := (startResult_of_status hstart).1 hstatus
      exact absurd hpos (Int.not_lt.mpr (hn n hstart))
  case unheard =>
    intro hended hstatus
    rcases H.ended hended with ⟨n, hstart, hpos, -⟩ | ⟨-, told⟩
    · exact absurd hpos (Int.not_lt.mpr ((startResult_of_status hstart).2 hstatus))
    · exact told
  case off_last =>
    intro hms hoff
    cases H with
    | waiting start history =>
      have htold : r.stage.telemetry = [] := congrArg (·.filterMap Deed.told?) history
      rw [htold] at hoff
      cases hoff
    | playing n ps start told =>
      rw [told, announcement] at hoff
      split at hoff
      · cases List.mem_singleton.mp hoff
      · cases hoff
    | closed n start pos told empty last => exact last fun hc => hms (hmem hc)

end Run
end Haptics
