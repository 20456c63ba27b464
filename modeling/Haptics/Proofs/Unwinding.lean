import Haptics.Proofs.Starting
import Haptics.Proofs.TurningOff

/-!
# Starts that fail

If an actuator fails in the opening step, the actuators after it are not driven, those before it
that had started are stopped again, the last first, and nothing is left to do: the run is over, it
told nothing, and it has failed.
-/

namespace Haptics

variable {R : Type}

/-! ## The record of a start that failed -/

namespace Deed

/-- The record has a drive of one actuator that failed. Before it only actuators earlier in the
order of `ids` were driven, and after it nothing was driven: those that had started were stopped in
reverse order, and what was prepared was given up. -/
inductive Unwound (ids : List ActuatorId) : List (Deed R) → Prop
  | intro {before after settled : List (Deed R)} {a : ActuatorId} {i : Nat} {x : Drive R} {n : Int}
      {earlier later stopped : List ActuatorId} (failed : n < 0)
      (position : ids = earlier ++ a :: later)
      (order : ((drives before).map (·.1)).Sublist earlier)
      (answers : ∀ y ∈ drives before, 0 ≤ y.2)
      (last : drives after = [])
      (stops : ∀ y ∈ drives before, 0 < y.2 → y.1 ∈ stopped)
      (reverse : stopped.Sublist ids)
      (given_up : ∀ d ∈ settled, ∃ ok, d = .cancelSync ok) :
    Unwound ids
      (before ++ .drive a i x n :: after ++ (stopped.map .stop).reverse ++ settled)

/-- If no drive follows one that failed, there is at most one that failed, and it is the last. -/
theorem exists_failed {ds : List (Deed R)} (last : (drives ds).Pairwise fun x _ => 0 ≤ x.2)
    (failed : ∃ x ∈ drives ds, x.2 < 0) : ∃ before a i x n after,
      ds = before ++ .drive a i x n :: after ∧ n < 0 ∧ (∀ y ∈ drives before, 0 ≤ y.2) ∧
        drives after = [] := by
  induction ds with
  | nil =>
    obtain ⟨x, hx, -⟩ := failed
    cases hx
  | cons d ds ih =>
    have hcons : drives (d :: ds) = drives [d] ++ drives ds := drives_append [d] ds
    rw [hcons, List.pairwise_append] at last
    by_cases hd : ∃ x ∈ drives [d], x.2 < 0
    · cases d with
      | drive a i x n =>
        obtain ⟨y, hy, hn⟩ := hd
        obtain rfl := List.mem_singleton.mp hy
        refine ⟨[], a, i, x, n, ds, rfl, hn, nofun, ?_⟩
        refine List.eq_nil_iff_forall_not_mem.mpr fun z hz => ?_
        have := last.2.2 _ hy z hz
        omega
      | _ => simp [drives, answer?] at hd
    · have hlater : ∃ x ∈ drives ds, x.2 < 0 := by
        obtain ⟨x, hx, hn⟩ := failed
        rw [hcons] at hx
        exact ⟨x, (List.mem_append.mp hx).resolve_left fun hx => hd ⟨x, hx, hn⟩, hn⟩
      obtain ⟨before, a, i, x, n, after, rfl, hn, hbefore, hafter⟩ := ih last.2.1 hlater
      refine ⟨d :: before, a, i, x, n, after, rfl, hn, fun y hy => ?_, hafter⟩
      rw [← List.singleton_append, drives_append] at hy
      rcases List.mem_append.mp hy with hy | hy
      · exact Int.not_lt.mp fun hy' => hd ⟨y, hy, hy'⟩
      · exact hbefore y hy

theorem Settles.given_up {due : Prop} {prepared : Bool} {settled : List (Deed R)}
    (S : Settles due prepared settled) (h : ¬due) : ∀ d ∈ settled, ∃ ok, d = .cancelSync ok := by
  cases S with
  | unprepared => exact nofun
  | triggered hdue | missed hdue => exact absurd hdue h
  | idle _ ok => exact fun d hd => ⟨ok, List.mem_singleton.mp hd⟩

end Deed

theorem Stage.Starts.unwound {s : Stage R} {es : List (ActuatorId × Effect R)} {p : Played R}
    {prepared : Bool} {asked driven undone settled : List (Deed R)}
    (H : s.Starts es p prepared asked driven undone settled) (failed : p.result < 0) :
    Deed.Unwound (es.map (·.1)) (asked ++ driven ++ undone ++ settled) := by
  obtain ⟨before, a, i, x, n, after, rfl, hn, answers, last⟩ :=
    Deed.exists_failed H.last (H.failed.mp failed)
  obtain ⟨stopped, rfl, reverse⟩ := H.reverse
  have hdrives : Deed.drives (before ++ .drive a i x n :: after) =
      Deed.drives before ++ [(a, n)] := by
    rw [← List.singleton_append, Deed.drives_append, Deed.drives_append, last, Deed.drives_drive,
      List.append_nil]
  have horder := H.order
  rw [hdrives, List.map_append, List.append_sublist_iff] at horder
  obtain ⟨front, back, hids, hfront, hback⟩ := horder
  obtain ⟨middle, later, rfl⟩ := List.append_of_mem (hback.subset List.mem_cons_self)
  have hbefore : Deed.drives (asked ++ before) = Deed.drives before := by
    rw [Deed.drives_append, H.asks.drives, List.nil_append]
  have hposition : es.map (·.1) = (front ++ middle) ++ a :: later := by
    rw [hids, List.append_assoc]
  have H' : Deed.Unwound (es.map (·.1))
      (asked ++ before ++ .drive a i x n :: after ++ (stopped.map .stop).reverse ++ settled) := by
    refine .intro hn hposition ?_ ?_ last ?_ reverse (H.settles.given_up (by omega))
    · rw [hbefore]
      exact hfront.trans (List.sublist_append_left front middle)
    · rwa [hbefore]
    · rw [hbefore]
      intro y hy hpos
      have hstop := (H.unwinds failed).2 y.1 y.2 (by
        rw [hdrives]
        exact List.mem_append_left _ hy) hpos
      obtain ⟨b, hb, heq⟩ := List.mem_map.mp (List.mem_reverse.mp hstop)
      cases heq
      exact hb
  simpa only [List.append_assoc] using H'

/-! ## Runs that fail -/

namespace Run

variable [Level R] {v : Vibration R} {asked : Nat} {r r' : Run R}

/-- What the opening step leaves of a run `r` if it fails for the effects of `ids`, at once and
after any moves. -/
structure Failed (ids : List ActuatorId) (r r' : Run R) : Prop where
  record : Deed.Unwound ids r'.stage.history
  telemetry : r'.stage.telemetry = []
  empty : r'.queue.items = []
  /-- What had started is off again, and nothing else was turned on. -/
  stopped : ∀ a n, (a, n) ∈ r'.drives → 0 < n → ¬r'.stage.LeftOn a ∧ r'.rig.isActive a = false
  idle : ∀ a, r.rig.isActive a = false → r'.rig.isActive a = false
  later : ∀ ms, (r'.moves ms).isOver = true ∧ (r'.moves ms).status = .failed ∧
    (r'.moves ms).stage.history = r'.stage.history
  undisturbed : ∀ ms a, Undisturbed a r' ms →
    (r'.moves ms).rig.isActive a = r'.rig.isActive a
  /-- The performance ends with its next step. -/
  returns : ∀ ms (p : Performance R), p.run = r'.moves ms → p.isOver = false →
    ∃ p', p.step? = some p' ∧ p'.isOver = true ∧ p'.status = .failed ∧
      p'.run.stage.history = r'.stage.history

omit [Level R] in
theorem status_of_neg {n : Int} (h : r.stage.startResult = some n) (neg : n < 0) :
    r.status = .failed := by
  unfold status
  rw [h]
  exact if_pos neg

/-- In a run that is over only others can change whether an actuator is active. -/
theorem active_over_moves (empty : r.queue.items = []) {a : ActuatorId} {ms : List (Move R)}
    (U : Undisturbed a r ms) : (r.moves ms).rig.isActive a = r.rig.isActive a := by
  induction ms generalizing r with
  | nil => rfl
  | cons m ms ih =>
    have M := r.move_moved m
    refine (ih (M.over empty).1 U.2).trans ?_
    have hworld := U.1
    generalize r.move m = r' at M
    cases M with
    | idle | ignored | heard | graceful => rfl
    | played hdue =>
      rw [Queue.items_of_popDue hdue] at empty
      cases empty
    | immediate _ items =>
      obtain rfl := List.perm_nil.mp (empty ▸ items)
      rfl
    | world f => exact hworld f rfl

theorem Opens.failed (O : r.Opens v r') (neg : (r.stage.openVibration r.plan v).result < 0) :
    Failed ((r.stage.effects v).map (·.1)) r r' := by
  obtain ⟨prepared, asked, driven, undone, settled, H⟩ := r.stage.openAll_starts r.plan
    (r.stage.effects v)
  have hresult : (r.stage.openAll r.plan (r.stage.effects v)).result < 0 := by
    rwa [Stage.result_openVibration] at neg
  have hnotpos : ¬0 < (r.stage.openVibration r.plan v).result := by omega
  have hnext : (r.stage.openVibration r.plan v).next = [] := by
    rw [Stage.next_openVibration, (H.unwinds hresult).1, if_neg hnotpos, List.append_nil]
  have hempty : r'.queue.items = [] := List.perm_nil.mp (hnext ▸ O.items)
  have hstart := O.startResult rfl
  have hheld : ∀ a n, (a, n) ∈ r'.drives → 0 < n →
      ¬r'.stage.LeftOn a ∧ r'.rig.isActive a = false := by
    intro a n hm hpos
    have hheld := Stage.held_openVibration r.plan v O.first hpos (a := a)
    rw [hnext, ← O.stage] at hheld
    exact (hheld hm).resolve_left List.not_mem_nil
  have hmoves := fun ms => r'.over_moves hempty ms
  constructor
  case record =>
    rw [O.stage, Stage.history_openVibration, if_neg hnotpos, List.append_nil, H.history, O.first]
    exact H.unwound hresult
  case telemetry =>
    have htold := r.stage.telemetry_openVibration r.plan v
    have hnil : r.stage.telemetry = [] := congrArg (·.filterMap Deed.told?) O.first
    rw [hnil, announcement, if_neg hnotpos] at htold
    rw [O.stage, htold]
    rfl
  case empty => exact hempty
  case stopped => exact hheld
  case idle =>
    intro a hoff
    by_cases hon : r'.rig.isActive a = true
    · -- Only a successful drive could have turned the actuator on, and it was undone.
      have hrig : r'.rig = (r.stage.openAll r.plan (r.stage.effects v)).stage.rig := by
        rw [rig, O.stage, Stage.rig_openVibration]
      rcases H.active a (hrig ▸ hon) with hbefore | ⟨n, hpos, hm⟩
      · exact absurd (hbefore.symm.trans hoff) (by decide)
      · have hmem : (a, n) ∈ r'.drives := by
          rw [drives, O.stage, Stage.drives_openVibration, H.drives]
          exact List.mem_append_right _ hm
        exact (hheld a n hmem hpos).2
    · exact Bool.not_eq_true _ ▸ hon
  case later =>
    intro ms
    obtain ⟨hitems, hhistory, hsame⟩ := hmoves ms
    exact ⟨isOver_iff.mpr hitems, status_of_neg (hsame.trans hstart) neg, hhistory⟩
  case undisturbed => exact fun ms a U => active_over_moves hempty U
  case returns =>
    intro ms p hp hopen
    obtain ⟨hitems, hhistory, hsame⟩ := hmoves ms
    obtain ⟨p', hstep, hended, hhistory', hsame'⟩ := Performance.step_of_over hopen (hp ▸ hitems)
    refine ⟨p', hstep, hended, ?_, hhistory'.trans (hp ▸ hhistory)⟩
    exact status_of_neg (hsame'.trans (hp ▸ hsame.trans hstart)) neg

/-- If a drive fails in the opening step of a run, the start is undone and the run has failed. -/
theorem failed_moves (plan : Plan R) (v : Vibration R) (rig : Rig R) (asked : Nat)
    (ms : List (Move R)) (first : ((fresh plan v rig asked).moves ms).stage.startResult = none)
    (failed : ∃ x ∈ (((fresh plan v rig asked).moves ms).move .play).drives, x.2 < 0) :
    Failed ((((fresh plan v rig asked).moves ms).stage.effects v).map (·.1))
      ((fresh plan v rig asked).moves ms) (((fresh plan v rig asked).moves ms).move .play) := by
  have H := phase_moves (fresh_phase plan v rig asked) (fresh_kept ..) ms
  have K := kept_moves _ (fresh_kept plan v rig asked) ms
  generalize (fresh plan v rig asked).moves ms = r at *
  have M := r.move_moved .play
  rcases M.opens H with hsame | ⟨-, -, O⟩
  · -- The opening step was not played, so nothing was done.
    cases H.moved K M with
    | waiting start history =>
      obtain ⟨x, hx, -⟩ := failed
      rw [drives, history] at hx
      cases hx
    | playing n ps start | closed n start =>
      rw [hsame, first] at start
      cases start
  · exact O.failed ((O.decision rfl).1.mpr failed)

/-- The second of two motors has died. -/
theorem failed_moves_dead : let r := bench (.mono (.pattern (.oneShot 100))) [0, 1]
    let ms := [.world (·.onMotor 1 fun m => { m with failure := some .dead })]
    (r.moves ms).stage.startResult = none ∧ (∃ x ∈ ((r.moves ms).move .play).drives, x.2 < 0) ∧
      Failed [0, 1] (r.moves ms) ((r.moves ms).move .play) :=
  have first : ((bench (.mono (.pattern (.oneShot 100))) [0, 1]).moves
    [.world (·.onMotor 1 fun m => { m with failure := some .dead })]).stage.startResult =
      none := rfl
  have failed : ∃ x ∈ (((bench (.mono (.pattern (.oneShot 100))) [0, 1]).moves
    [.world (·.onMotor 1 fun m => { m with failure := some .dead })]).move .play).drives,
      x.2 < 0 := by decide +kernel
  ⟨first, failed, failed_moves _ _ _ _ _ first failed⟩

end Run
end Haptics
