import Haptics.Effect.Position
import Mathlib.Data.Seq.Basic

/-!
# Unrolling a pattern

A pattern that repeats stands for an endless list of segments: all of them, and then those from the
loop start on over and over (`Pattern.unrolled`). In that order each index leads to the next
(`Pattern.unroll`). Where several segments are taken at once, a remainder tells how far around the
loop that is, and it comes to the same (`Pattern.advance_eq`, `Pattern.get?_unrolled`).
-/

namespace Haptics

variable {R : Type}

namespace Pattern

variable (p : Pattern R)

/-- The index to go on with behind another one. Past the end, a pattern that does not repeat is
over. -/
def next (i : Nat) : Nat :=
  if i + 1 < p.segments.length then i + 1 else p.loopStart.getD (i + 1)

/-- The index of the segment that is played after `k` others. -/
def unroll : Nat → Nat
  | 0 => 0
  | k + 1 => p.next (unroll k)

variable {p} {i k c r : Nat}

theorem unroll_add (h : p.unroll k + c < p.segments.length) :
    p.unroll (k + c) = p.unroll k + c := by
  induction c with
  | zero => rfl
  | succ c ih =>
    have hlast : p.unroll (k + c) = p.unroll k + c := ih (by omega)
    show p.next (p.unroll (k + c)) = _
    rw [hlast, next, if_pos (by omega), Nat.add_assoc]

theorem unroll_of_lt (h : k < p.segments.length) : p.unroll k = k := by
  have hall := unroll_add (p := p) (k := 0) (c := k) (by rwa [unroll, Nat.zero_add])
  rwa [unroll, Nat.zero_add] at hall

theorem unroll_of_once (h : p.loopStart = none) (k : Nat) : p.unroll k = k := by
  induction k with
  | zero => rfl
  | succ k ih =>
    show p.next (p.unroll k) = k + 1
    rw [ih, next, h, Option.getD_none, ite_self]

theorem next_of_last (hloop : p.loopStart = some r) (h : p.segments.length ≤ i + 1) :
    p.next i = r := by
  rw [next, if_neg (Nat.not_lt.mpr h), hloop, Option.getD_some]

/-- A pattern that repeats always has a segment to go on with. -/
theorem unroll_lt (h : p.loopStart = some r) (k : Nat) : p.unroll k < p.segments.length := by
  have hr : r < p.segments.length := p.loopStart_lt r h
  induction k with
  | zero => exact Nat.lt_of_le_of_lt (Nat.zero_le r) hr
  | succ k ih =>
    show p.next (p.unroll k) < _
    unfold next
    split
    · assumption
    · rwa [h]

/-- Around the loop, what is left of a division goes up with the index. -/
theorem next_around (hloop : p.loopStart = some r) (m : Nat) :
    p.next (r + m % (p.segments.length - r)) = r + (m + 1) % (p.segments.length - r) := by
  have hr : r < p.segments.length := p.loopStart_lt r hloop
  have hrest := Nat.mod_lt m (Nat.sub_pos_of_lt hr)
  rw [← Nat.mod_add_mod m _ 1]
  by_cases hround : m % (p.segments.length - r) + 1 < p.segments.length - r
  · rw [Nat.mod_eq_of_lt hround, next, if_pos (by omega), Nat.add_assoc]
  · have hfull : m % (p.segments.length - r) + 1 = p.segments.length - r := by omega
    rw [next_of_last hloop (by omega), hfull, Nat.mod_self, Nat.add_zero]

/-! ## Several segments at once -/

theorem advance_of_lt (h : i + c < p.segments.length) : Position.advance ⟨p, i⟩ c = i + c := by
  unfold Position.advance
  dsimp only
  split
  · exact if_neg (Nat.not_le_of_lt h)
  · rfl

theorem advance_of_once (h : p.loopStart = none) (i c : Nat) :
    Position.advance ⟨p, i⟩ c = i + c := by
  unfold Position.advance
  dsimp only
  rw [h]

theorem advance_of_loop (hloop : p.loopStart = some r) (h : p.segments.length ≤ i + c) :
    Position.advance ⟨p, i⟩ c =
      r + (i + c - p.segments.length) % (p.segments.length - r) := by
  unfold Position.advance
  dsimp only
  rw [hloop]
  exact if_pos h

/-- Going on by one segment more is going on to the next index. -/
theorem advance_succ (i c : Nat) :
    Position.advance ⟨p, i⟩ (c + 1) = p.next (Position.advance ⟨p, i⟩ c) := by
  cases hloop : p.loopStart with
  | none =>
    rw [advance_of_once hloop, advance_of_once hloop, next, hloop, Option.getD_none, ite_self,
      Nat.add_assoc]
  | some r =>
    by_cases hinside : i + (c + 1) < p.segments.length
    · rw [advance_of_lt hinside, advance_of_lt (by omega), next, if_pos (by omega), Nat.add_assoc]
    rw [advance_of_loop hloop (Nat.le_of_not_lt hinside)]
    by_cases hlast : i + c < p.segments.length
    · have hround : i + (c + 1) - p.segments.length = 0 := by omega
      rw [advance_of_lt hlast, next_of_last hloop (by omega), hround, Nat.zero_mod, Nat.add_zero]
    · have hsucc : i + (c + 1) - p.segments.length = i + c - p.segments.length + 1 := by omega
      rw [advance_of_loop hloop (Nat.le_of_not_lt hlast), next_around hloop, hsucc]

/-- Going on from a place of the unrolled pattern is going on in it. -/
theorem advance_eq (k c : Nat) : Position.advance ⟨p, p.unroll k⟩ c = p.unroll (k + c) := by
  induction c with
  | zero =>
    cases hloop : p.loopStart with
    | none => exact advance_of_once hloop _ 0
    | some r => exact advance_of_lt (unroll_lt hloop k)
  | succ c ih =>
    rw [advance_succ, ih]
    rfl

/-- Around the loop, the index is what is left of the rounds. -/
theorem unroll_of_loop (hloop : p.loopStart = some r) (m : Nat) :
    p.unroll (p.segments.length + m) = r + m % (p.segments.length - r) := calc
  p.unroll (p.segments.length + m) = p.unroll (0 + (p.segments.length + m)) := by
    rw [Nat.zero_add]
  _ = Position.advance ⟨p, 0⟩ (p.segments.length + m) := (advance_eq 0 _).symm
  _ = r + m % (p.segments.length - r) := by
    rw [advance_of_loop hloop (by omega), Nat.zero_add, Nat.add_sub_cancel_left]

/-! ## The segments in order -/

theorem drop_loopStart_ne_nil (h : p.loopStart = some r) : p.segments.drop r ≠ [] := by
  apply List.ne_nil_of_length_pos
  rw [List.length_drop]
  exact Nat.sub_pos_of_lt (p.loopStart_lt r h)

/-- The segments in the order in which they are played: all of them, and then those from the loop
start on over and over. -/
def unrolled (p : Pattern R) : Stream'.Seq (Segment R) :=
  match h : p.loopStart with
  | some r =>
    .ofStream (p.segments ++ₛ Stream'.cycle (p.segments.drop r) (drop_loopStart_ne_nil h))
  | none => .ofList p.segments

theorem get_cycle {α : Type} {xs : List α} (h : xs ≠ []) (n : Nat) :
    xs[n % xs.length]? = some ((Stream'.cycle xs h).get n) := by
  have hpos : 0 < xs.length := List.length_pos_iff.mpr h
  induction n using Nat.strong_induction_on with
  | h n ih =>
    rw [Stream'.cycle_eq]
    by_cases hn : n < xs.length
    · rw [Nat.mod_eq_of_lt hn, Stream'.get_append_left n xs _ hn, List.getElem?_eq_getElem hn]
    · obtain ⟨m, rfl⟩ := Nat.exists_eq_add_of_le (Nat.le_of_not_lt hn)
      rw [Stream'.get_append_right, Nat.add_mod_left, ih m (by omega)]

/-- The segments in order are those at the indices in order. -/
theorem get?_unrolled (k : Nat) : p.unrolled.get? k = p.segments[p.unroll k]? := by
  unfold unrolled
  split
  · rename_i r hloop
    show some (Stream'.get _ k) = _
    by_cases hk : k < p.segments.length
    · rw [Stream'.get_append_left k _ _ hk, unroll_of_lt hk, List.getElem?_eq_getElem hk]
    · obtain ⟨m, rfl⟩ := Nat.exists_eq_add_of_le (Nat.le_of_not_lt hk)
      rw [Stream'.get_append_right, ← get_cycle, unroll_of_loop hloop, List.getElem?_drop,
        List.length_drop]
  · rename_i hloop
    rw [Stream'.Seq.ofList_get?, unroll_of_once hloop]

end Pattern
end Haptics
