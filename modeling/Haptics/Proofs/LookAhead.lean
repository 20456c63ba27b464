import Haptics.Proofs.OnTime
import Haptics.Proofs.Unrolling
import Mathlib.Data.List.TakeWhile

/-!
# Looking ahead around a loop

A pattern that repeats is played from a position to its end and then over and over from its loop
start (`Position.playback`). Nothing turns up there that is not in the rest of the pattern or in the
loop (`Position.mem_course_iff`), so looking ahead once through the loop is enough to find the
segment at which the motor goes off. Whether there is one is a different matter: the look-ahead
takes a run for endless only when it comes back to where it began. It does so from a position in the
loop. From one in front of the loop it never does, so there an endless run does not get the least
duration (`Position.onDuration_repeating`).
-/

namespace Haptics

variable {R : Type}

namespace Segment

/-- What lies behind the end of a run does not matter to it. -/
theorem takeWhile_of_isPrefix [Level R] {xs ys : List (Segment R)} (h : xs <+: ys)
    (ends : ¬xs.all (·.sounds) = true) : ys.takeWhile (·.sounds) = xs.takeWhile (·.sounds) := by
  obtain ⟨zs, rfl⟩ := h
  rw [List.takeWhile_append, if_neg]
  intro hlength
  apply ends
  rw [List.all_eq_true]
  exact List.takeWhile_eq_self_iff.mp ((List.takeWhile_prefix _).eq_of_length hlength)

end Segment

namespace Position

/-- The first `n` segments that are played from a position on. -/
def playback (p : Position R) : Nat → List (Segment R)
  | 0 => []
  | n + 1 => p.segment?.toList ++ playback ⟨p.pattern, p.advance 1⟩ n

/-- The rest of a pattern, and then the loop that begins at `r`. -/
def course (p : Position R) (r : Nat) : List (Segment R) :=
  p.pattern.segments.drop p.index ++ p.pattern.segments.drop r

/-! ## Playing around the loop -/

theorem playback_mono (p : Position R) {m n : Nat} (h : m ≤ n) :
    p.playback m <+: p.playback n := by
  induction m generalizing p n with
  | zero => exact List.nil_prefix
  | succ m ih =>
    obtain ⟨n, rfl⟩ := Nat.exists_eq_add_of_le' (Nat.zero_lt_of_lt h)
    exact (List.prefix_append_right_inj _).mpr (ih _ (Nat.le_of_succ_le_succ h))

section
variable {p : Pattern R} {r i : Nat}

theorem advance_one_of_last (hloop : p.loopStart = some r) (hi : i + 1 = p.segments.length) :
    (⟨p, i⟩ : Position R).advance 1 = r := by
  rw [Pattern.advance_of_loop hloop (Nat.le_of_eq hi.symm), hi, Nat.sub_self, Nat.zero_mod,
    Nat.add_zero]

theorem playback_succ (hi : i < p.segments.length) (n : Nat) :
    (⟨p, i⟩ : Position R).playback (n + 1) =
      p.segments[i] :: playback ⟨p, advance ⟨p, i⟩ 1⟩ n := by
  have hget : (⟨p, i⟩ : Position R).segment? = some p.segments[i] := List.getElem?_eq_getElem hi
  rw [playback, hget, Option.toList_some, List.singleton_append]

/-- At the end of the pattern its loop begins. -/
theorem playback_rest (hloop : p.loopStart = some r) (c n : Nat)
    (hi : i + (c + 1) = p.segments.length) :
    (⟨p, i⟩ : Position R).playback (c + 1 + n) =
      p.segments.drop i ++ playback ⟨p, r⟩ n := by
  induction c generalizing i with
  | zero =>
    have hlt : i < p.segments.length := Nat.lt_of_succ_le (Nat.le_of_eq hi)
    rw [Nat.zero_add, Nat.add_comm 1 n, playback_succ hlt, advance_one_of_last hloop hi,
      List.drop_eq_getElem_cons hlt, List.drop_eq_nil_of_le (Nat.le_of_eq hi.symm)]
    rfl
  | succ c ih =>
    have hlt : i < p.segments.length := by omega
    rw [Nat.add_right_comm, playback_succ hlt, Pattern.advance_of_lt (by omega), ih (by omega),
      List.drop_eq_getElem_cons hlt, List.cons_append]

/-- What is played later was ahead before. -/
theorem mem_course_of_playback (hloop : p.loopStart = some r) (hi : i < p.segments.length) {n : Nat}
    {x : Segment R} (hx : x ∈ playback ⟨p, i⟩ n) : x ∈ course ⟨p, i⟩ r := by
  induction n generalizing i with
  | zero => cases hx
  | succ n ih =>
    have hcourse : course ⟨p, i⟩ r = p.segments[i] :: course ⟨p, i + 1⟩ r := by
      rw [course, List.drop_eq_getElem_cons hi, List.cons_append]
      rfl
    rw [playback_succ hi, List.mem_cons] at hx
    rw [hcourse, List.mem_cons]
    refine hx.imp_right fun hx => ?_
    by_cases hlast : i + 1 < p.segments.length
    · rw [Pattern.advance_of_lt hlast] at hx
      exact ih hlast hx
    · rw [advance_one_of_last hloop (by omega)] at hx
      have hloopOnly := List.mem_append.mp (ih (p.loopStart_lt r hloop) hx)
      exact List.mem_append_right _ (hloopOnly.elim id id)

end

variable {p : Position R} {r : Nat}

/-- What is played first is the rest of the pattern and the loop. -/
theorem playback_course (hloop : p.pattern.loopStart = some r)
    (hp : p.index < p.pattern.segments.length) : ∃ n, p.playback n = p.course r := by
  obtain ⟨c, hc⟩ := Nat.exists_eq_add_of_lt hp
  obtain ⟨d, hd⟩ := Nat.exists_eq_add_of_lt (p.pattern.loopStart_lt r hloop)
  refine ⟨c + 1 + (d + 1 + 0), ?_⟩
  rw [playback_rest hloop c _ hc.symm, playback_rest hloop d 0 hd.symm, playback, List.append_nil]
  rfl

/-- Nothing else is ever played. -/
theorem mem_course_iff (hloop : p.pattern.loopStart = some r)
    (hp : p.index < p.pattern.segments.length) {x : Segment R} :
    x ∈ p.course r ↔ ∃ n, x ∈ p.playback n := by
  constructor
  · intro hx
    obtain ⟨n, hn⟩ := playback_course hloop hp
    exact ⟨n, hn ▸ hx⟩
  · rintro ⟨n, hx⟩
    exact mem_course_of_playback hloop hp hx

/-! ## What the look-ahead sees of that -/

theorem ahead_of_loop (hloop : p.pattern.loopStart = some r) (hr : r ≤ p.index) :
    p.ahead = p.pattern.segments.drop p.index ++
      (p.pattern.segments.drop r).take (p.index - r) := by
  unfold ahead
  dsimp only
  rw [hloop]
  exact congrArg _ (if_pos hr)

theorem ahead_of_front (hloop : p.pattern.loopStart = some r) (hr : ¬r ≤ p.index) :
    p.ahead = p.course r := by
  unfold ahead course
  dsimp only
  rw [hloop]
  exact congrArg _ (if_neg hr)

theorem ahead_isPrefix (hloop : p.pattern.loopStart = some r) : p.ahead <+: p.course r := by
  by_cases hr : r ≤ p.index
  · rw [ahead_of_loop hloop hr]
    exact (List.prefix_append_right_inj _).mpr (List.take_prefix ..)
  · exact ahead_of_front hloop hr ▸ List.prefix_refl _

/-- In the loop, the look-ahead sees its segments in another order. -/
theorem ahead_perm (hloop : p.pattern.loopStart = some r) (hr : r ≤ p.index) :
    p.ahead.Perm (p.pattern.segments.drop r) := by
  have hrest : p.pattern.segments.drop p.index =
      (p.pattern.segments.drop r).drop (p.index - r) := by
    rw [List.drop_drop, Nat.add_sub_cancel' hr]
  rw [ahead_of_loop hloop hr, hrest]
  exact List.perm_append_comm.trans (.of_eq (List.take_append_drop ..))

/-- The look-ahead sees everything that is played. -/
theorem mem_ahead_iff (hloop : p.pattern.loopStart = some r) {x : Segment R} :
    x ∈ p.ahead ↔ x ∈ p.course r := by
  by_cases hr : r ≤ p.index
  · rw [(ahead_perm hloop hr).mem_iff, course, List.mem_append]
    exact ⟨.inr, fun h => h.elim (fun h => (List.drop_subset_drop_left _ hr) h) id⟩
  · rw [ahead_of_front hloop hr]

section
variable [Level R]

/-- The run that begins at a position ends where the motor first goes off in what is played. -/
theorem onward_of_playback (hloop : p.pattern.loopStart = some r)
    (hp : p.index < p.pattern.segments.length) (ends : ¬p.ahead.all (·.sounds) = true)
    {n : Nat} {xs zs : List (Segment R)} {x : Segment R} (hplay : p.playback n = xs ++ x :: zs)
    (sounds : ∀ y ∈ xs, y.sounds = true) (silent : x.sounds = false) : p.onward = xs := by
  obtain ⟨m, hm⟩ := playback_course hloop hp
  have hfound : (p.playback n).takeWhile (·.sounds) = xs := by
    rw [hplay, List.takeWhile_append_of_pos sounds, List.takeWhile_cons_of_neg (by simp [silent]),
      List.append_nil]
  have hends : ¬(p.playback n).all (·.sounds) = true := by
    rw [hplay, List.all_append, List.all_cons, silent, Bool.false_and, Bool.and_false]
    exact Bool.false_ne_true
  -- Both lists begin what is played in the longer of the two times.
  have hleft : p.ahead <+: p.playback (max m n) :=
    (ahead_isPrefix hloop).trans (hm ▸ p.playback_mono (Nat.le_max_left ..))
  have hright : p.playback n <+: p.playback (max m n) := p.playback_mono (Nat.le_max_right ..)
  rw [onward, ← Segment.takeWhile_of_isPrefix hleft ends,
    Segment.takeWhile_of_isPrefix hright hends, hfound]

theorem onDuration_of_silent (hloop : p.pattern.loopStart = some r)
    (hp : p.index < p.pattern.segments.length) (rampDown : Nat)
    {n : Nat} {xs zs : List (Segment R)} {x : Segment R} (hplay : p.playback n = xs ++ x :: zs)
    (sounds : ∀ y ∈ xs, y.sounds = true) (silent : x.sounds = false) :
    p.onDuration rampDown = saturate 0 (Segment.spans xs) := by
  have hmem : x ∈ p.ahead := (mem_ahead_iff hloop).mpr
    ((mem_course_iff hloop hp).mpr ⟨n, by rw [hplay]; simp⟩)
  have ends : ¬p.ahead.all (·.sounds) = true := by
    intro hall
    rw [List.all_eq_true.mp hall x hmem] at silent
    cases silent
  rw [onDuration_eq, if_neg ends, onward_of_playback hloop hp ends hplay sounds silent]

/-- Whether an endless run gets the least duration depends on where it begins. -/
theorem onDuration_of_endless (hloop : p.pattern.loopStart = some r)
    (sounds : ∀ x ∈ p.course r, x.sounds = true) (rampDown : Nat) :
    p.onDuration rampDown =
      if r ≤ p.index then
        max (saturate 0 (Segment.spans (p.pattern.segments.drop r))) repeatingOnTime
      else saturate 0 (Segment.spans (p.course r)) := by
  have hall : p.ahead.all (·.sounds) = true :=
    List.all_eq_true.mpr fun x hx => sounds x ((mem_ahead_iff hloop).mp hx)
  have honward : p.onward = p.ahead := List.takeWhile_eq_self_iff.mpr (List.all_eq_true.mp hall)
  rw [onDuration_eq, if_pos hall, honward, prolong, hloop]
  dsimp only
  by_cases hr : r ≤ p.index
  · have hspans : Segment.spans p.ahead = Segment.spans (p.pattern.segments.drop r) :=
      ((ahead_perm hloop hr).map _).sum_nat
    rw [if_pos hr, if_pos hr, hspans]
  · rw [if_neg hr, if_neg hr, ahead_of_front hloop hr]

/-- **The look-ahead in a pattern that repeats.** If everything sounds that is ahead of a position,
the motor is turned on for the least duration or for longer exactly if the position is in the loop
or the rest of the pattern and the loop last that long. Otherwise it is turned on until it goes off
in what is played. Nothing is left for ramping down. -/
theorem onDuration_repeating (hloop : p.pattern.loopStart = some r)
    (hp : p.index < p.pattern.segments.length) (rampDown : Nat) :
    ((∀ x ∈ p.course r, x.sounds = true) →
      (p.onDuration rampDown =
        if r ≤ p.index then
          max (saturate 0 (Segment.spans (p.pattern.segments.drop r))) repeatingOnTime
        else saturate 0 (Segment.spans (p.course r))) ∧
      (repeatingOnTime ≤ p.onDuration rampDown ↔
        r ≤ p.index ∨ repeatingOnTime ≤ Segment.spans (p.course r))) ∧
    (∀ n xs x zs, p.playback n = xs ++ x :: zs → (∀ y ∈ xs, y.sounds = true) →
      x.sounds = false → p.onDuration rampDown = saturate 0 (Segment.spans xs)) ∧
    p.onDuration rampDown = p.onDuration 0 := by
  refine ⟨fun sounds => ?_, fun _ _ _ _ => onDuration_of_silent hloop hp rampDown, ?_⟩
  · have hon := onDuration_of_endless hloop sounds rampDown
    refine ⟨hon, ?_⟩
    rw [hon]
    by_cases hr : r ≤ p.index
    · rw [if_pos hr]
      exact ⟨fun _ => .inl hr, fun _ => Nat.le_max_right ..⟩
    · rw [if_neg hr, or_iff_right hr]
      unfold saturate repeatingOnTime forever wordCount
      omega
  · rw [onDuration_eq, onDuration_eq, prolong, prolong, hloop]

/-- Two holds, of which the second is played over and over. -/
def leadIn : Position Rat := ⟨.waveform [10, 20] [.level 1, .level (1 / 2)] (some 1), 0⟩

/-- A hold that is played over and over with a pause. -/
def pulsing : Position Rat := ⟨.waveform [10, 20, 30] [.level 1, .level 1, .level 0] (some 1), 0⟩

theorem onDuration_repeating_pulsing :
    (⟨leadIn.pattern, 1⟩ : Position Rat).onDuration 30 = 5000 ∧ pulsing.onDuration 30 = 30 :=
  ⟨((onDuration_repeating (p := ⟨leadIn.pattern, 1⟩) rfl (by decide +kernel) 30).1
      (by decide +kernel)).1,
    (onDuration_repeating (p := pulsing) rfl (by decide +kernel) 30).2.1 3
      (pulsing.pattern.segments.take 2) (.hold ⟨.level 0, 0, 30⟩) [] rfl (by decide +kernel)
      (by decide +kernel)⟩

/-- The motor never goes off, and yet it is turned on for 50 ms only. -/
theorem onDuration_leadIn : leadIn.pattern.loopStart = some 1 ∧
    (∀ x ∈ leadIn.pattern.segments, x.isInstant = false) ∧
    (∀ x ∈ leadIn.course 1, x.sounds = true) ∧ leadIn.onDuration 0 = 50 ∧
    ¬repeatingOnTime ≤ leadIn.onDuration 0 := by
  decide +kernel

end

end Position
end Haptics
