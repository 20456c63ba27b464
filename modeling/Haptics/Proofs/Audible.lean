import Haptics.Proofs.Opening
import Haptics.Proofs.Segments

/-!
# Effects that are to be heard

An effect drives its actuator sooner or later if one of its segments does (`Effect.audible`). Until
then there is a step that owes the actuator a drive (`Step.Owes`): it waits for no report, and such
a segment lies ahead of it. Playing it makes the drive or leaves a step that owes it
(`Turn.pledged`). So unless a start fails, every effect of this kind has driven its actuator
afterwards, or owes it a drive (`Stage.pledged_openVibration`).
-/

namespace Haptics

variable {R : Type}

section
variable [Level R]

/-- Playing the segment drives an actuator that was not driven before. -/
def Segment.audible : Segment R → Bool
  | hold h => h.ms != 0 && !(h.amplitude.value == 0)
  | prebaked _ | primitive _ | ramp _ | envelope _ => true
  | basic _ => false

/-- Playing the effect drives its actuator. -/
def Effect.audible : Effect R → Bool
  | pattern p => p.segments.any (·.audible)
  | vendor _ => true

/-- The task drives its actuator, or a segment further on does. -/
def Task.Audible (task : Task R) : Prop :=
  (∃ v, task = .vendor v) ∨
    ∃ p i x, task = .ofPosition p i ∧ x ∈ p.segments.drop i ∧ x.audible = true

/-- The step has not driven an actuator yet, and will. -/
def Step.Owes (a : ActuatorId) : Step R → Prop
  | lane l task => l.actuator = a ∧ l.deadline = .idle ∧ l.reported = false ∧ task.Audible
  | start _ _ | finish => False

/-- An actuator was driven, or one of some steps owes it a drive. -/
def Stage.Pledged (s : Stage R) (a : ActuatorId) (xs : List (Step R)) : Prop :=
  (∃ n, (a, n) ∈ Deed.drives s.history) ∨ ∃ x ∈ xs, x.Owes a

theorem Task.audible_ofEffect {e : Effect R} (h : e.audible = true) :
    (Task.ofEffect e).Audible := by
  cases e with
  | vendor v => exact .inl ⟨v, rfl⟩
  | pattern p =>
    obtain ⟨x, hx, haudible⟩ := List.any_eq_true.mp h
    exact .inr ⟨p, 0, x, rfl, hx, haudible⟩

/-- A report changes nothing about what a step owes. -/
theorem Step.owes_accept (x : Step R) (a b : ActuatorId) (step : Option Nat) (now : Nat) :
    (Scheduled.accept x b step now).2.Owes a ↔ x.Owes a := by
  rcases Queue.accept_cases x b step now with heq | ⟨l, task, i, rfl, hi, -, -, heq⟩
  · rw [heq]
  · rw [heq]
    constructor
    · exact fun h => absurd h.2.2.1.symm Bool.false_ne_true
    · intro h
      rw [h.2.1] at hi
      cases hi

/-! ## Lanes without a drive -/

namespace Lane

variable {l l' : Lane} {plan : Plan R} {s s' : Stage R} {task : Task R} {n : Int} {p : Played R}

/-- A lane that waits for nothing waits for nothing after a drive that is not successful. -/
theorem Drove.idle (H : l.Drove plan s task n l' s') (uncut : task ≠ .complete true)
    (idle : l.deadline = .idle) (h : n ≤ 0) : l'.deadline = .idle := by
  induction H with
  | rest => exact idle
  | drive x => exact (Deadline.afterDrive_of_le _ _ _ _ h).trans idle
  | stop => rfl
  | shorten _ cut => exact absurd cut uncut
  | setAmplitude _ _ ih => exact ih h

theorem Plays.idle (H : l.Plays plan s task p) (uncut : task ≠ .complete true)
    (idle : l.deadline = .idle) (unreported : l.reported = false) (h : p.result ≤ 0)
    {task' : Task R} (next : .lane l' task' ∈ p.next) :
    l'.actuator = l.actuator ∧ l'.deadline = .idle ∧ l'.reported = false := by
  cases H with
  | halt => cases next
  | wait _ early =>
    rw [unreported] at early
    cases early.1
  | follow hd =>
    cases List.mem_singleton.mp next
    exact ⟨hd.same, hd.idle uncut idle h, rfl⟩

end Lane

/-! ## Turns -/

namespace Turn

variable {plan : Plan R} {t : Turn R} {q : Position R} {x : Segment R} {a : ActuatorId}

/-- An audible segment drives an actuator that was not driven before. -/
theorem drives_of_audible (ht : t.task = x.task q) (hq : q.segment? = some x)
    (audible : x.audible = true) (idle : t.lane.deadline = .idle)
    (unreported : t.lane.reported = false) :
    ∃ n, (t.lane.actuator, n) ∈ Deed.drives (t.played plan).stage.history := by
  have plays : ¬t.Waits := fun h => Bool.false_ne_true (unreported.symm.trans h.1)
  refine ⟨(t.played plan).result, ?_⟩
  cases hb : x.batch? with
  | some b =>
    have hands : t.HandsOver plan q.pattern q.index (b.run t.lane t.stage q).length b :=
      (handsOver (ht.trans (Batch.task_eq hb q)) (b.length_run_pos t.lane t.stage q hq hb)).1
    rw [hands.call, Deed.drives_append]
    exact List.mem_append_right _ (List.mem_singleton_self _)
  | none =>
    cases x with
    | hold h =>
      simp only [Segment.audible, Bool.and_eq_true, bne_iff_ne, Bool.not_eq_true'] at audible
      rw [drives_of_uncovered plan ht hq audible.2 (Nat.pos_of_ne_zero audible.1) plays
        (by rw [idle]; rfl)]
      exact List.mem_append_right _ (List.mem_singleton_self _)
    | prebaked b =>
      have alone : t.PlaysAlone plan q (.prebaked b) := playsAlone ht hq hb fun _ => plays
      obtain ⟨ok, hok⟩ := alone.calls
      rw [hok, Deed.drives_append]
      exact List.mem_append_right _ (List.mem_singleton_self _)
    | basic => cases audible
    | primitive | ramp | envelope => cases hb

/-- Nothing is driven for a segment that is not audible. -/
theorem drives_asks {ok : Bool} (silent : x.audible = false) :
    Deed.drives (t.asks plan q ok x) = [] := by
  cases x with
  | hold h =>
    simp only [Segment.audible, Bool.and_eq_false_iff, bne_eq_false_iff_eq,
      Bool.not_eq_false'] at silent
    rw [asks]
    split
    · rfl
    · rename_i hms
      rw [if_pos (silent.resolve_left hms)]
      split <;> rfl
  | basic => rfl
  | prebaked | primitive | ramp | envelope => cases silent

/-- A segment that is not audible is played alone, and drives nothing. -/
theorem result_of_silent (ht : t.task = x.task q) (hq : q.segment? = some x)
    (silent : x.audible = false) (unreported : t.lane.reported = false) :
    (t.played plan).result = 0 ∧
      ∃ l', (t.played plan).next = [.lane l' (.ofPosition q.pattern (q.advance 1))] := by
  have hb : x.batch? = none := by
    cases x with
    | hold | basic => rfl
    | prebaked | primitive | ramp | envelope => cases silent
  have alone : t.PlaysAlone plan q x := playsAlone ht hq hb fun _ h =>
    Bool.false_ne_true (unreported.symm.trans h.1)
  refine ⟨?_, alone.next⟩
  obtain ⟨ok, hok⟩ := alone.calls
  obtain ⟨ds, hds, hresult⟩ := (t.played_plays plan).deeds
  obtain rfl : ds = t.asks plan q ok x := List.append_cancel_left (hds.history.symm.trans hok)
  rw [drives_asks silent] at hresult
  rcases hresult with ⟨-, hzero⟩ | hone
  · exact hzero
  · cases hone

/-- A turn of a step that owes a drive makes it or leaves a step that owes it. -/
theorem pledged (h : (Step.lane t.lane t.task).Owes a) :
    (t.played plan).stage.Pledged a (t.played plan).next := by
  obtain ⟨rfl, idle, unreported, ⟨v, hv⟩ | ⟨p, i, y, ht, hy, audible⟩⟩ := h
  · have hplayed : t.played plan = t.lane.playVendor plan t.stage v := by
      rw [Turn.played, hv]
      rfl
    have hhistory := (Stage.Does.drive (s := t.stage) plan t.lane (.vendor v)).history
    refine .inl ⟨(t.played plan).result, ?_⟩
    rw [hplayed]
    show _ ∈ Deed.drives (t.stage.drive plan t.lane (.vendor v)).2.2.history
    rw [hhistory, Deed.drives_append]
    exact List.mem_append_right _ (List.mem_singleton_self _)
  · obtain hlt | hle := Nat.lt_or_ge i p.segments.length
    case inr =>
      rw [List.drop_eq_nil_of_le hle] at hy
      cases hy
    have hx : p.segments[i]? = some p.segments[i] := List.getElem?_eq_getElem hlt
    have htask : t.task = p.segments[i].task ⟨p, i⟩ := ht.trans (Task.ofPosition_eq hx)
    rw [List.drop_eq_getElem_cons hlt] at hy
    cases hsilent : p.segments[i].audible with
    | true => exact .inl (drives_of_audible htask hx hsilent idle unreported)
    | false =>
      -- The audible segment lies further on, so this is not the last one.
      have hy : y ∈ p.segments.drop (i + 1) := (List.mem_cons.mp hy).resolve_left fun heq => by
        rw [heq, hsilent] at audible
        cases audible
      have hnext : i + 1 < p.segments.length := Nat.lt_of_not_le fun hle => by
        rw [List.drop_eq_nil_of_le hle] at hy
        cases hy
      have hadvance : (⟨p, i⟩ : Position R).advance 1 = i + 1 := by
        unfold Position.advance
        dsimp only
        split
        · exact if_neg (Nat.not_le.mpr hnext)
        · rfl
      obtain ⟨hzero, l', hleft⟩ : (t.played plan).result = 0 ∧ _ :=
        result_of_silent htask hx hsilent unreported
      have hmem : .lane l' _ ∈ (t.played plan).next := hleft ▸ List.mem_singleton_self _
      have uncut : t.task ≠ .complete true := by
        intro heq
        rw [htask] at heq
        cases hsegment : p.segments[i] <;> rw [hsegment] at heq <;> cases heq
      obtain ⟨hsame, hidle, hunreported⟩ :=
        (t.played_plays plan).idle uncut idle unreported (Int.le_of_eq hzero) hmem
      exact .inr ⟨_, hmem, hsame, hidle, hunreported,
        .inr ⟨p, i + 1, y, congrArg _ hadvance, hy, audible⟩⟩

end Turn

/-! ## Pledges are kept -/

namespace Stage.Pledged

variable {s s' : Stage R} {a : ActuatorId} {xs ys : List (Step R)}

theorem mono (H : s.Pledged a xs) (drives : ∀ y ∈ Deed.drives s.history, y ∈ Deed.drives s'.history)
    (steps : ∀ x ∈ xs, x ∈ ys) : s'.Pledged a ys := by
  rcases H with ⟨n, hn⟩ | ⟨x, hx, howes⟩
  · exact .inl ⟨n, drives _ hn⟩
  · exact .inr ⟨x, steps x hx, howes⟩

/-- A turn keeps what is pledged. -/
theorem turn {t : Turn R} (H : t.stage.Pledged a (.lane t.lane t.task :: xs)) (plan : Plan R) :
    (t.played plan).stage.Pledged a ((t.played plan).next ++ xs) := by
  obtain ⟨ds, hds, -⟩ := (t.played_plays plan).deeds
  have hdrives : ∀ y ∈ Deed.drives t.stage.history,
      y ∈ Deed.drives (t.played plan).stage.history := by
    intro y hy
    rw [hds.history, Deed.drives_append]
    exact List.mem_append_left _ hy
  rcases H with ⟨n, hn⟩ | ⟨x, hx, howes⟩
  · exact .inl ⟨n, hdrives _ hn⟩
  · rcases List.mem_cons.mp hx with rfl | hx
    · exact (Turn.pledged howes).mono (fun _ hy => hy) fun _ hx => List.mem_append_left _ hx
    · exact .inr ⟨x, List.mem_append_right _ hx, howes⟩

end Stage.Pledged

/-! ## The opening step -/

namespace Stage

variable (s : Stage R) (plan : Plan R) {a : ActuatorId}

theorem owes_issueFirst {es : List (ActuatorId × Effect R)} {e : Effect R} (h : (a, e) ∈ es)
    (audible : e.audible = true) : ∃ x ∈ (s.issueFirst es).1, (Step.lane x.1 x.2.1).Owes a := by
  induction es generalizing s with
  | nil => cases h
  | cons x es ih =>
    rcases List.mem_cons.mp h with rfl | h
    · exact ⟨_, List.mem_cons_self, rfl, rfl, rfl, Task.audible_ofEffect audible⟩
    · obtain ⟨y, hy, howes⟩ := ih { s with nextStep := s.nextStep + 1 } h
      exact ⟨y, List.mem_cons_of_mem _ hy, howes⟩

theorem pledged_openEach {firsts : List (Lane × Task R × Effect R)} {next : List (Step R)}
    {longest m : Int} (H : s.Pledged a (next ++ firsts.map fun x => .lane x.1 x.2.1))
    (h : (s.openEach plan next longest firsts).longest = some m) :
    (s.openEach plan next longest firsts).stage.Pledged a
      (s.openEach plan next longest firsts).next := by
  induction firsts generalizing s next longest with
  | nil => rwa [List.map_nil, List.append_nil] at H
  | cons y ys ih =>
    obtain ⟨l, task, e⟩ := y
    have hturn : (l.play plan s task).stage.Pledged a
        ((l.play plan s task).next ++ (next ++ ys.map fun x => .lane x.1 x.2.1)) :=
      Pledged.turn (t := ⟨s, l, task⟩)
        (H.mono (fun _ hy => hy) fun _ hx => List.perm_middle.mem_iff.mp hx) plan
    unfold openEach at h ⊢
    dsimp only at h ⊢
    split at h
    · cases h
    · rename_i hresult
      rw [if_neg hresult]
      refine ih _ (hturn.mono (fun _ hy => hy) fun x hx => ?_) h
      rw [List.append_assoc]
      exact List.perm_append_comm_assoc .. |>.mem_iff.mp hx

/-- Unless the start fails, each audible effect has driven its actuator or is owed a drive. -/
theorem pledged_openVibration (v : Vibration R) {e : Effect R} (he : (a, e) ∈ s.effects v)
    (audible : e.audible = true) (h : 0 ≤ (s.openVibration plan v).result) :
    (s.openVibration plan v).stage.Pledged a (s.openVibration plan v).next := by
  have hall : (s.openAll plan (s.effects v)).stage.Pledged a
      (s.openAll plan (s.effects v)).next := by
    rw [result_openVibration] at h
    unfold openAll at h ⊢
    rw [if_neg (by simpa using List.ne_nil_of_mem he)] at h ⊢
    obtain ⟨x, hx, howes⟩ := s.owes_issueFirst he audible
    generalize s.issueFirst (s.effects v) = issued at hx h ⊢
    dsimp only at h ⊢
    generalize (if 1 < (s.effects v).length then _ else _ : Bool × Stage R) = prepared at h ⊢
    cases hlongest : (prepared.2.openEach plan [] 0 issued.1).longest with
    | none =>
      obtain ⟨_, _, -, heq, -⟩ := Opened.close_failed _ plan prepared.1 hlongest
      rw [heq] at h
      cases h
    | some m =>
      obtain ⟨t, settled, hcalls, heq, hsettles⟩ := Opened.close_settles _ plan prepared.1 hlongest
      rw [heq]
      have hfirst : Step.lane x.1 x.2.1 ∈ issued.1.map fun x => .lane x.1 x.2.1 :=
        List.mem_map_of_mem hx
      refine (prepared.2.pledged_openEach plan (.inr ⟨_, hfirst, howes⟩) hlongest).mono
        (fun y hy => ?_) fun _ hy => hy
      rw [hcalls.history, Deed.drives_append]
      exact List.mem_append_left _ hy
  refine hall.mono (fun y hy => ?_) fun x hx => ?_
  · rwa [drives_openVibration]
  · rw [next_openVibration]
    exact List.mem_append_left _ hx

end Stage
end
end Haptics
