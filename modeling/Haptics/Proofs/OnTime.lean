import Haptics.Level.Rational
import Haptics.Conductor.Playing
import Mathlib.Algebra.GroupWithZero.Nat
import Mathlib.Tactic.ByContra

/-!
# How long a motor is turned on for

A motor is turned on once for a whole run of holds. The look-ahead of `Position.onDuration` adds up
the holds that sound, from a position on and once through the loop (`Position.onDuration_eq`). Holds
of no duration are passed over when they are played. The look-ahead passes over them too, as long as
they sound: without them it finds the same run. But it stops at a silent one, so there the motor is
turned on for less than the run that is played (`Position.onDuration_pruned`).
-/

namespace Haptics

variable {R : Type}

namespace Segment

/-- How long a segment lasts, zero if that is not known. -/
def span (x : Segment R) : Nat := x.duration?.getD 0

/-- How long some segments last together. -/
def spans (xs : List (Segment R)) : Nat := (xs.map span).sum

/-- A hold of no duration. -/
def isInstant : Segment R → Bool
  | hold h => h.ms == 0
  | _ => false

/-- The segments that take time, or may take some. -/
def lasting (xs : List (Segment R)) : List (Segment R) := xs.filter (!·.isInstant)

/-- A hold with the motor on. -/
def sounds [Level R] : Segment R → Bool
  | hold h => !h.amplitude.isZero
  | _ => false

@[simp] theorem spans_nil : spans ([] : List (Segment R)) = 0 := rfl

@[simp] theorem spans_cons (x : Segment R) (xs : List (Segment R)) :
    spans (x :: xs) = x.span + spans xs := List.sum_cons

theorem span_of_isInstant {x : Segment R} (h : x.isInstant = true) : x.span = 0 := by
  cases x with
  | hold y => exact eq_of_beq h
  | _ => cases h

/-- Holds of no duration do not add to a duration. -/
theorem spans_lasting (xs : List (Segment R)) : spans (lasting xs) = spans xs := by
  induction xs with
  | nil => rfl
  | cons x xs ih =>
    cases hx : x.isInstant with
    | true =>
      rw [lasting, List.filter_cons_of_neg (by simp [hx]), ← lasting, ih, spans_cons,
        span_of_isInstant hx, Nat.zero_add]
    | false =>
      rw [lasting, List.filter_cons_of_pos (by simp [hx]), ← lasting, spans_cons, ih, spans_cons]

theorem spans_le_of_prefix {xs ys : List (Segment R)} (h : xs <+: ys) : spans xs ≤ spans ys := by
  obtain ⟨zs, rfl⟩ := h
  rw [spans, spans, List.map_append, List.sum_append]
  exact Nat.le_add_right ..

end Segment

/-! ## Adding up -/

section
variable [Level R]

theorem saturate_saturate (a b c : Nat) : saturate (saturate a b) c = saturate a (b + c) := by
  unfold saturate
  omega

theorem onRun_append (xs ys : List (Segment R)) (t : Nat) : onRun (xs ++ ys) t =
    if (onRun xs t).2 then onRun ys (onRun xs t).1 else onRun xs t := by
  induction xs generalizing t with
  | nil => rfl
  | cons x xs ih =>
    cases x with
    | hold h =>
      rw [List.cons_append, onRun, onRun]
      by_cases hzero : h.amplitude.isZero
      · rw [if_pos hzero, if_pos hzero]
        rfl
      · rw [if_neg hzero, if_neg hzero]
        exact ih _
    | _ => rfl

/-- The look-ahead adds up the segments that sound, up to the first that does not. -/
theorem onRun_eq (xs : List (Segment R)) (t : Nat) (ht : t ≤ forever) :
    onRun xs t = (saturate t (Segment.spans (xs.takeWhile (·.sounds))), xs.all (·.sounds)) := by
  induction xs generalizing t with
  | nil =>
    rw [onRun, List.takeWhile_nil, Segment.spans_nil, List.all_nil, saturate, Nat.add_zero,
      Nat.min_eq_left ht]
  | cons x xs ih =>
    cases hx : x.sounds with
    | false =>
      rw [List.takeWhile_cons_of_neg (by simp [hx]), List.all_cons, hx, Bool.false_and,
        Segment.spans_nil, saturate, Nat.add_zero, Nat.min_eq_left ht]
      cases x with
      | hold h =>
        have hzero : h.amplitude.isZero = true := by simpa [Segment.sounds] using hx
        rw [onRun, if_pos hzero]
      | _ => rfl
    | true =>
      rw [List.takeWhile_cons_of_pos hx, List.all_cons, hx, Bool.true_and, Segment.spans_cons]
      cases x with
      | hold h =>
        have hzero : h.amplitude.isZero = false := by simpa [Segment.sounds] using hx
        have hspan : (Segment.hold h).span = h.ms := rfl
        rw [onRun, hzero, if_neg Bool.false_ne_true, ih (saturate t h.ms) (Nat.min_le_right ..),
          saturate_saturate, hspan]
      | _ => cases hx

namespace Position
variable {p : Position R}

omit [Level R] in
/-- The segments from a position on, once through the loop and back to it. -/
def ahead (p : Position R) : List (Segment R) :=
  let segments := p.pattern.segments
  segments.drop p.index ++ match p.pattern.loopStart with
    | some r => if r ≤ p.index then (segments.drop r).take (p.index - r) else segments.drop r
    | none => []

/-- The run of holds with the motor on that begins at a position. -/
def onward (p : Position R) : List (Segment R) := p.ahead.takeWhile (·.sounds)

/-- The segment that ends the run of holds with the motor on, unless the pattern is over before or
the run goes on around the loop. -/
def ending? (p : Position R) : Option (Segment R) := p.ahead.find? (!·.sounds)

/-- What becomes of the duration of a run that no segment ends. A pattern that is over leaves room
to ramp down. A run around the loop has a least duration. -/
def prolong (p : Position R) (rampDown total : Nat) : Nat :=
  match p.pattern.loopStart with
  | some r => if r ≤ p.index then max total repeatingOnTime else total
  | none => saturate total rampDown

omit [Level R] in
theorem le_prolong (p : Position R) (rampDown : Nat) {total : Nat} (h : total ≤ forever) :
    total ≤ p.prolong rampDown total := by
  unfold prolong
  split
  · split
    · exact Nat.le_max_left ..
    · exact Nat.le_refl _
  · unfold saturate
    omega

/-- The look-ahead takes the rest of the pattern first and then the loop. -/
theorem onDuration_of_ahead {total : Nat} {whole : Bool} (h : onRun p.ahead 0 = (total, whole))
    (rampDown : Nat) : p.onDuration rampDown =
      if whole then p.prolong rampDown total else total := by
  unfold ahead at h
  dsimp only at h
  rw [onRun_append] at h
  unfold onDuration prolong
  dsimp only
  generalize onRun (p.pattern.segments.drop p.index) 0 = rest at h ⊢
  obtain ⟨sum, reached⟩ := rest
  cases reached with
  | false =>
    rw [if_neg Bool.false_ne_true] at h
    cases h
    rfl
  | true =>
    rw [if_pos rfl] at h
    cases hloop : p.pattern.loopStart with
    | none =>
      rw [hloop] at h
      cases h
      rfl
    | some r =>
      rw [hloop] at h
      dsimp only at h ⊢
      by_cases hr : r ≤ p.index
      · rw [if_pos hr] at h
        rw [if_pos hr, if_pos hr, h]
        cases whole <;> rfl
      · rw [if_neg hr] at h
        rw [if_neg hr, if_neg hr, h]
        cases whole <;> rfl

/-- The motor is turned on for the run of holds that begins here. -/
theorem onDuration_eq (p : Position R) (rampDown : Nat) : p.onDuration rampDown =
    if p.ahead.all (·.sounds) then p.prolong rampDown (saturate 0 (Segment.spans p.onward))
    else saturate 0 (Segment.spans p.onward) :=
  onDuration_of_ahead (onRun_eq p.ahead 0 (Nat.zero_le _)) rampDown

end Position

end

/-! ## Without the holds of no duration -/

namespace Pattern

variable (p : Pattern R)

/-- Where an index comes to when the holds of no duration go. -/
def shift (i : Nat) : Nat := (Segment.lasting (p.segments.take i)).length

/-- A pattern without its holds of no duration. -/
def pruned : Pattern R := .ofSegments (Segment.lasting p.segments) (p.loopStart.map p.shift)

end Pattern

namespace Segment

variable (xs : List (Segment R))

theorem lasting_append (ys : List (Segment R)) :
    lasting (xs ++ ys) = lasting xs ++ lasting ys := List.filter_append ..

theorem drop_lasting (i : Nat) :
    (lasting xs).drop (lasting (xs.take i)).length = lasting (xs.drop i) := by
  have hxs : lasting xs = lasting (xs.take i) ++ lasting (xs.drop i) := by
    rw [← lasting_append, List.take_append_drop]
  rw [hxs, List.drop_left]

theorem take_lasting (i : Nat) :
    (lasting xs).take (lasting (xs.take i)).length = lasting (xs.take i) := by
  have hxs : lasting xs = lasting (xs.take i) ++ lasting (xs.drop i) := by
    rw [← lasting_append, List.take_append_drop]
  rw [hxs, List.take_left]

section
variable [Level R]

/-- Without its holds of no duration a list begins with the same run, or a longer one. -/
theorem lasting_takeWhile_prefix :
    lasting (xs.takeWhile (·.sounds)) <+: (lasting xs).takeWhile (·.sounds) := by
  induction xs with
  | nil => exact List.prefix_refl _
  | cons x xs ih =>
    unfold lasting at ih ⊢
    cases hx : x.sounds with
    | false =>
      rw [List.takeWhile_cons_of_neg (by simp [hx])]
      exact List.nil_prefix
    | true =>
      rw [List.takeWhile_cons_of_pos hx]
      cases hi : x.isInstant with
      | true => rwa [List.filter_cons_of_neg (by simp [hi]), List.filter_cons_of_neg (by simp [hi])]
      | false =>
        rw [List.filter_cons_of_pos (by simp [hi]), List.filter_cons_of_pos (by simp [hi]),
          List.takeWhile_cons_of_pos hx, List.prefix_cons_inj]
        exact ih

/-- It begins with the same run unless a hold of no duration ends that. -/
theorem takeWhile_lasting {xs : List (Segment R)}
    (h : ∀ x ∈ xs.find? (!·.sounds), x.isInstant = false) :
    (lasting xs).takeWhile (·.sounds) = lasting (xs.takeWhile (·.sounds)) ∧
      (lasting xs).all (·.sounds) = xs.all (·.sounds) := by
  induction xs with
  | nil => exact ⟨rfl, rfl⟩
  | cons x xs ih =>
    unfold lasting at ih ⊢
    cases hx : x.sounds with
    | false =>
      have hi : x.isInstant = false := h x (by rw [List.find?_cons_of_pos (by simp [hx])]; rfl)
      rw [List.filter_cons_of_pos (by simp [hi]), List.takeWhile_cons_of_neg (by simp [hx]),
        List.takeWhile_cons_of_neg (by simp [hx]), List.all_cons, List.all_cons, hx]
      exact ⟨rfl, rfl⟩
    | true =>
      rw [List.find?_cons_of_neg (by simp [hx])] at h
      obtain ⟨hrun, hall⟩ := ih h
      rw [List.takeWhile_cons_of_pos hx, List.all_cons, hx, Bool.true_and]
      cases hi : x.isInstant with
      | true =>
        rw [List.filter_cons_of_neg (by simp [hi]), List.filter_cons_of_neg (by simp [hi])]
        exact ⟨hrun, hall⟩
      | false =>
        rw [List.filter_cons_of_pos (by simp [hi]), List.filter_cons_of_pos (by simp [hi]),
          List.takeWhile_cons_of_pos hx, List.all_cons, hx, Bool.true_and, hrun]
        exact ⟨rfl, hall⟩

end

end Segment

namespace Pattern

variable {p : Pattern R}

theorem shift_mono {i j : Nat} (h : i ≤ j) : p.shift i ≤ p.shift j :=
  ((List.take_prefix_take_left h).filter _).length_le

/-- A segment that stays is still there. -/
theorem shift_lt {i : Nat} {x : Segment R} (hx : p.segments[i]? = some x)
    (stays : x.isInstant = false) : p.shift i < p.shift (i + 1) := by
  unfold shift Segment.lasting
  rw [List.take_add_one, hx, Option.toList_some, List.filter_append,
    List.filter_cons_of_pos (by simp [stays]), List.length_append]
  exact Nat.lt_succ_self _

/-- A loop still begins with the segment that it began with. -/
theorem loopStart_pruned (stays : ∀ r ∈ p.loopStart, ∀ x ∈ p.segments[r]?, x.isInstant = false) :
    p.pruned.loopStart = p.loopStart.map p.shift := by
  cases hloop : p.loopStart with
  | none =>
    unfold pruned ofSegments
    rw [hloop]
    rfl
  | some r =>
    have hget := List.getElem?_eq_getElem (p.loopStart_lt r hloop)
    have hlt : p.shift r < (Segment.lasting p.segments).length :=
      Nat.lt_of_lt_of_le (shift_lt hget (stays r hloop _ hget))
        (((List.take_prefix ..).filter _).length_le)
    have hkept : (some (p.shift r)).filter (· < (Segment.lasting p.segments).length) =
        some (p.shift r) := Option.filter_eq_some_iff.mpr ⟨rfl, decide_eq_true hlt⟩
    unfold pruned ofSegments
    rw [hloop]
    exact hkept

end Pattern

namespace Position

/-- The same place in the pattern without its holds of no duration. -/
def pruned (p : Position R) : Position R := ⟨p.pattern.pruned, p.pattern.shift p.index⟩

/-- A position, and the target of its loop, that stay when the holds of no duration go. -/
structure Stays (p : Position R) : Prop where
  here : ∃ x, p.segment? = some x ∧ x.isInstant = false
  target : ∀ r ∈ p.pattern.loopStart, ∀ x ∈ p.pattern.segments[r]?, x.isInstant = false

namespace Stays

variable {p : Position R}

/-- The loop begins behind the position exactly if it did before. -/
theorem shift_le_iff (S : p.Stays) (r : Nat) :
    p.pattern.shift r ≤ p.pattern.shift p.index ↔ r ≤ p.index := by
  obtain ⟨x, hx, stays⟩ := S.here
  constructor
  · intro h
    by_contra hr
    have hbehind : p.pattern.shift (p.index + 1) ≤ p.pattern.shift r :=
      Pattern.shift_mono (Nat.lt_of_not_le hr)
    have hhere := Pattern.shift_lt hx stays
    omega
  · exact Pattern.shift_mono

/-- What lies ahead is what lay ahead, without the holds of no duration. -/
theorem ahead (S : p.Stays) : p.pruned.ahead = Segment.lasting p.ahead := by
  have hrest : p.pattern.pruned.segments.drop (p.pattern.shift p.index) =
      Segment.lasting (p.pattern.segments.drop p.index) := Segment.drop_lasting ..
  unfold Position.ahead
  dsimp only
  rw [Segment.lasting_append]
  refine congrArg₂ (· ++ ·) hrest ?_
  show (match p.pattern.pruned.loopStart with | some r => _ | none => _) = _
  rw [Pattern.loopStart_pruned S.target]
  cases hloop : p.pattern.loopStart with
  | none => rfl
  | some r =>
    show (if p.pattern.shift r ≤ p.pattern.shift p.index then _ else _) = _
    dsimp only
    by_cases hr : r ≤ p.index
    · have htake : (p.pattern.segments.take p.index).take r = p.pattern.segments.take r := by
        rw [List.take_take, Nat.min_eq_left hr]
      rw [if_pos ((S.shift_le_iff r).mpr hr), if_pos hr, ← List.drop_take, ← List.drop_take,
        ← Segment.drop_lasting, htake, ← Segment.take_lasting _ p.index]
      rfl
    · rw [if_neg (mt (S.shift_le_iff r).mp hr), if_neg hr]
      exact Segment.drop_lasting ..

/-- A run around the loop is still one. -/
theorem prolong [Level R] (S : p.Stays) (rampDown total : Nat) :
    p.pruned.prolong rampDown total = p.prolong rampDown total := by
  unfold Position.prolong
  show (match p.pattern.pruned.loopStart with | some r => _ | none => _) = _
  rw [Pattern.loopStart_pruned S.target]
  cases p.pattern.loopStart with
  | none => rfl
  | some r =>
    show (if p.pattern.shift r ≤ p.pattern.shift p.index then _ else _) = _
    dsimp only
    rw [if_congr (S.shift_le_iff r) rfl rfl]

end Stays

end Position

/-- A turn leaves everything as it is and hands over at once. -/
structure Played.PassesOver (s : Stage R) (l : Lane) (task : Task R) (x : Played R) : Prop where
  rig : x.stage.rig = s.rig
  history : x.stage.history = s.history
  next : ∃ l', x.next = [.lane l' task] ∧ l'.start = .at (l.instant s.now) ∧
    l'.actuator = l.actuator ∧ l'.deadline = l.deadline ∧ l'.reported = false

section
variable [Level R] {p : Position R}

theorem Lane.playHold_passesOver (l : Lane) (plan : Plan R) (s : Stage R) {q : Position R}
    {x : Segment R} (hq : q.segment? = some x) (hx : x.isInstant = true)
    (plays : ¬(l.reported ∧ s.now < l.instant s.now)) :
    (l.playHold plan s q).PassesOver s l (.ofPosition q.pattern (q.advance 1)) := by
  cases x with
  | hold h =>
    have hms : h.ms = 0 := eq_of_beq hx
    have hplayed : l.playHold plan s q = .followed s l (.at (l.instant s.now))
        (.ofPosition q.pattern (q.advance 1)) 0 := by
      unfold playHold
      dsimp only
      rw [if_neg plays, hq]
      dsimp only
      rw [if_pos hms]
    rw [hplayed]
    exact ⟨rfl, rfl, _, rfl, rfl, rfl, rfl, rfl⟩
  | _ => cases hx

/-- Without the holds of no duration, which a turn passes over, a motor is turned on for at least as
long. It is turned on for exactly as long unless such a hold with the motor off ends the run that
is ahead. That hold is no part of the run, so the motor is turned on for what is in front of it. -/
theorem Position.onDuration_pruned (S : p.Stays) (rampDown : Nat) :
    ((∀ x ∈ p.ending?, x.isInstant = false) →
        p.pruned.onDuration rampDown = p.onDuration rampDown) ∧
      p.onDuration rampDown ≤ p.pruned.onDuration rampDown ∧
      (∀ x ∈ p.ending?, x.isInstant = true →
        p.onDuration rampDown = saturate 0 (Segment.spans p.onward)) ∧
      ∀ (plan : Plan R) (s : Stage R) (l : Lane) (q : Position R) (x : Segment R),
        q.pattern = p.pattern → q.segment? = some x → x.isInstant = true →
        ¬(l.reported ∧ s.now < l.instant s.now) →
        (l.playHold plan s q).PassesOver s l (.ofPosition p.pattern (q.advance 1)) := by
  have hpruned := p.pruned.onDuration_eq rampDown
  rw [onward, S.ahead, S.prolong] at hpruned
  have hsame (h : ∀ x ∈ p.ending?, x.isInstant = false) :
      p.pruned.onDuration rampDown = p.onDuration rampDown := by
    obtain ⟨hrun, hall⟩ := Segment.takeWhile_lasting h
    rw [hpruned, hrun, hall, Segment.spans_lasting, onDuration_eq]
    rfl
  have hcut {x : Segment R} (hx : p.ending? = some x) :
      p.onDuration rampDown = saturate 0 (Segment.spans p.onward) := by
    have hall : ¬p.ahead.all (·.sounds) = true := by
      intro hall
      have hsounds := List.all_eq_true.mp hall x (List.mem_of_find?_eq_some hx)
      have hends := List.find?_some hx
      simp [hsounds] at hends
    rw [onDuration_eq, if_neg hall]
  refine ⟨hsame, ?_, fun x hx _ => hcut hx, fun plan s l q x hpattern hq hx plays =>
    hpattern ▸ l.playHold_passesOver plan s hq hx plays⟩
  by_cases h : ∀ x ∈ p.ending?, x.isInstant = false
  · exact Nat.le_of_eq (hsame h).symm
  · obtain ⟨x, hx, -⟩ : ∃ x ∈ p.ending?, x.isInstant ≠ false := by
      simpa using h
    have hrun : saturate 0 (Segment.spans p.onward) ≤
        saturate 0 (Segment.spans ((Segment.lasting p.ahead).takeWhile (·.sounds))) := by
      have hprefix := Segment.spans_le_of_prefix (Segment.lasting_takeWhile_prefix p.ahead)
      rw [Segment.spans_lasting] at hprefix
      unfold saturate onward
      omega
    rw [hcut hx, hpruned]
    split
    · exact Nat.le_trans hrun (p.le_prolong rampDown (Nat.min_le_right ..))
    · exact hrun

end

namespace Position

/-- Holds around a loop, of which one takes no time but sounds. -/
def round : Position Rat :=
  ⟨.waveform [100, 0, 50, 20] [.level 1, .level 1, .level (1 / 2), .level 0] (some 0), 0⟩

theorem onDuration_pruned_round : round.Stays ∧ round.onDuration 30 = 150 ∧
    round.pruned.onDuration 30 = round.onDuration 30 :=
  have stays : round.Stays := {
    here := ⟨_, rfl, rfl⟩
    target := by
      rintro r ⟨⟩ x ⟨⟩
      rfl }
  ⟨stays, by decide +kernel, (onDuration_pruned stays 30).1 (by decide +kernel)⟩

/-- Two holds with a silent one of no duration between them. -/
def parted : Position Rat :=
  ⟨.waveform [100, 0, 50] [.level 1, .level 0, .level 1] none, 0⟩

/-- The look-ahead stops at the silent hold, which takes no time. So the motor is turned on for 100
ms, and without that hold for all 150. -/
theorem onDuration_parted : parted.Stays ∧ parted.onDuration 0 = 100 ∧
    parted.pruned.onDuration 0 = 150 :=
  ⟨{ here := ⟨_, rfl, rfl⟩, target := nofun }, by decide +kernel, by decide +kernel⟩

end Position
end Haptics
