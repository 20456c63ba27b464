import Haptics.Proofs.Timekeeping
import Haptics.Proofs.Unrolling

/-!
# Going on from a position

The index some segments behind another one is worked out in words, with differences and a remainder.
That fails for a loop start outside the segment list and for no other
(`Word.advance?_eq_none_iff`). A pattern never has one: it is made with the loop start it was asked
for only if that lies inside the list (`Pattern.RepeatsFrom`), changing its segments leaves both as
they are, and fitting drops a loop start that ends up outside. So going on from a position leads to
the segments that the unrolled pattern has there, in one go or in two (`Position.advance_unrolls`).
-/

namespace Haptics

variable {R : Type}

/-! ## Going on in words -/

namespace Word

/-- The index `played` segments behind another one in a list of `length` segments, worked out in
words. -/
def advance? (length : Nat) (loopStart : Option Nat) (index played : Nat) : Option Nat := do
  let next ← add? index played
  match loopStart with
  | some r =>
    if length ≤ next then
      let past ← sub? next length
      add? r (← mod? past (← sub? length r))
    else some next
  | none => some next

section
variable {length r i c : Nat} {loopStart : Option Nat}

theorem advance?_once (fits : i + c < wordCount) : advance? length none i c = some (i + c) := by
  rw [advance?, add?_eq fits]
  rfl

theorem advance?_inside (fits : i + c < wordCount) (h : i + c < length) :
    advance? length loopStart i c = some (i + c) := by
  cases loopStart with
  | none => exact advance?_once fits
  | some r =>
    rw [advance?, add?_eq fits]
    exact if_neg (Nat.not_le_of_lt h)

theorem advance?_loop (fits : i + c < wordCount) (h : length ≤ i + c) (hr : r < length) :
    advance? length (some r) i c = some (r + (i + c - length) % (length - r)) := by
  have hpos : 0 < length - r := Nat.sub_pos_of_lt hr
  have hrest := Nat.mod_lt (i + c - length) hpos
  have hsum : r + (i + c - length) % (length - r) < wordCount := by omega
  rw [advance?, add?_eq fits, Option.bind_eq_bind, Option.bind_some]
  dsimp only
  rw [if_pos h, sub?_eq h, sub?_eq (Nat.le_of_lt hr), Option.bind_some,
    Option.bind_some, mod?_eq hpos, Option.bind_some, add?_eq hsum]

theorem advance?_outside (fits : i + c < wordCount) (h : length ≤ i + c) (hr : length ≤ r) :
    advance? length (some r) i c = none := by
  rw [advance?, add?_eq fits, Option.bind_eq_bind, Option.bind_some]
  dsimp only
  rw [if_pos h, sub?_eq h, Option.bind_some]
  obtain rfl | hlt := Nat.eq_or_lt_of_le hr
  · -- The difference is zero, and nothing can be divided by it.
    rw [sub?_eq (Nat.le_refl length), Nat.sub_self]
    rfl
  · rw [sub?, if_neg (Nat.not_le_of_lt hlt)]
    rfl

/-- Only a loop start outside the list makes it impossible to go on, and only past the end. -/
theorem advance?_eq_none_iff (fits : i + c < wordCount) :
    advance? length loopStart i c = none ↔
      length ≤ i + c ∧ ∃ r ∈ loopStart, length ≤ r := by
  by_cases h : length ≤ i + c
  · cases loopStart with
    | none => simp [advance?_once fits]
    | some r =>
      by_cases hr : length ≤ r
      · simp [advance?_outside fits h hr, h, hr]
      · simp [advance?_loop fits h (Nat.lt_of_not_le hr), hr]
  · simp [advance?_inside fits (Nat.lt_of_not_le h), h]

end

end Word

/-! ## Where patterns come from -/

namespace Pattern

/-- A pattern of `n` segments that was asked to repeat from an index. It does so exactly if the
index lies inside its list. -/
structure RepeatsFrom (p : Pattern R) (n : Nat) (asked : Option Nat) : Prop where
  length : p.segments.length = n
  loopStart : ∀ r, p.loopStart = some r ↔ asked = some r ∧ r < n

theorem repeatsFrom_ofSegments (xs : List (Segment R)) (asked : Option Nat) :
    (ofSegments xs asked).RepeatsFrom xs.length asked where
  length := rfl
  loopStart r := by simp [ofSegments, Option.filter_eq_some_iff]

section
variable [Level R] (timings : List Nat) (amplitudes : List (Amplitude R)) (asked : Option Nat)

theorem repeatsFrom_waveform : (waveform timings amplitudes asked).RepeatsFrom
    (min timings.length amplitudes.length) asked := by
  have hlength : (waveform timings amplitudes asked).segments.length =
      min timings.length amplitudes.length := by
    simp [waveform, ofSegments]
  rw [← hlength]
  exact repeatsFrom_ofSegments _ asked

theorem repeatsFrom_onOff :
    (onOff timings asked : Pattern R).RepeatsFrom timings.length asked := by
  have h := repeatsFrom_waveform timings ((List.range timings.length).map fun i =>
    if i % 2 = 0 then (.level 0 : Amplitude R) else .deviceDefault) asked
  rwa [List.length_map, List.length_range, Nat.min_self] at h

end

end Pattern

namespace Effect

/-- A way to change an effect segment by segment. A scale goes through a curve, perceptual or
linear. -/
inductive Change (R : Type)
  | resolve (default : R)
  | withStrength (strength : Strength)
  | scaleWith (curve : R → R → R) (factor : R)
  | scaleAdaptively (factor : R)

section
variable [Level R]

def Change.run : Change R → Effect R → Effect R
  | resolve default, e => e.resolve default
  | withStrength strength, e => e.withStrength strength
  | scaleWith curve factor, e => e.scaleWith curve factor
  | scaleAdaptively factor, e => e.scaleAdaptively factor

/-- An effect after some changes, one after the other. -/
def changed (cs : List (Change R)) (e : Effect R) : Effect R := cs.foldl (fun e c => c.run e) e

theorem Change.run_pattern (c : Change R) (p : Pattern R) :
    ∃ f, c.run (.pattern p) = .pattern (p.map f) := by
  cases c <;> exact ⟨_, rfl⟩

/-- A pattern keeps its loop start and the number of its segments. -/
theorem changed_pattern (cs : List (Change R)) (p : Pattern R) : ∃ q,
    changed cs (.pattern p) = .pattern q ∧ q.segments.length = p.segments.length ∧
      q.loopStart = p.loopStart := by
  induction cs generalizing p with
  | nil => exact ⟨p, rfl, rfl, rfl⟩
  | cons c cs ih =>
    obtain ⟨f, hf⟩ := c.run_pattern p
    obtain ⟨q, hq, hlength, hloop⟩ := ih (p.map f)
    refine ⟨q, ?_, ?_, hloop⟩
    · rw [changed, List.foldl_cons, hf]
      exact hq
    · rw [hlength, Pattern.segments_map, List.length_map]

end

end Effect

namespace Fitting

variable [Level R] (f : Fitting R) (p : Profile R)

/-- Whatever loop start a list has, fitting leaves one inside or none. -/
theorem lt_of_mem_fitSegments {xs : List (Segment R)} {loopStart : Option Nat} {r : Nat}
    (h : r ∈ (f.fitSegments p xs loopStart).2) : r < (f.fitSegments p xs loopStart).1.length := by
  rw [fitSegments_fst]
  rw [fitSegments_snd, Option.mem_def, Option.filter_eq_some_iff] at h
  exact of_decide_eq_true h.2

theorem exists_fitted_of_fit? {x : Pattern R} {e : Effect R} (h : f.fit? p (.pattern x) = some e) :
    ∃ q, e = .pattern q ∧ q.segments = (f.fitSegments p x.segments x.loopStart).1 ∧
      q.loopStart = (f.fitSegments p x.segments x.loopStart).2 := by
  rw [fit?_pattern] at h
  obtain ⟨-, hfitted⟩ := Option.ite_none_right_eq_some.mp h
  cases hfitted
  exact ⟨_, rfl, (f.fitSegments_fst p _ _).symm, f.loopStart_fitted p x⟩

end Fitting

/-! ## Going on -/

namespace Position

/-- The index `played` segments further on, worked out in words. -/
def advanceInWords? (q : Position R) (played : Nat) : Option Nat :=
  Word.advance? q.pattern.segments.length q.pattern.loopStart q.index played

section
variable {q : Position R}

theorem advanceInWords?_eq {a : Nat} (fits : q.index + a < wordCount) :
    q.advanceInWords? a = some (q.advance a) := by
  obtain ⟨p, i⟩ := q
  unfold advanceInWords?
  by_cases hinside : i + a < p.segments.length
  · rw [Word.advance?_inside fits hinside, Pattern.advance_of_lt hinside]
  cases hloop : p.loopStart with
  | none => rw [Word.advance?_once fits, Pattern.advance_of_once hloop]
  | some r =>
    have hend : p.segments.length ≤ i + a := Nat.le_of_not_lt hinside
    rw [Word.advance?_loop fits hend (p.loopStart_lt r hloop), Pattern.advance_of_loop hloop hend]

/-- The loop leads back. -/
theorem advance_le (q : Position R) (a : Nat) : q.advance a ≤ q.index + a := by
  obtain ⟨p, i⟩ := q
  by_cases hinside : i + a < p.segments.length
  · exact Nat.le_of_eq (Pattern.advance_of_lt hinside)
  cases hloop : p.loopStart with
  | none => exact Nat.le_of_eq (Pattern.advance_of_once hloop i a)
  | some r =>
    have hend : p.segments.length ≤ i + a := Nat.le_of_not_lt hinside
    have hrest := Nat.mod_lt (i + a - p.segments.length)
      (Nat.sub_pos_of_lt (p.loopStart_lt r hloop))
    rw [Pattern.advance_of_loop hloop hend]
    show _ ≤ i + a
    omega

theorem advance_eq_unroll (hq : q.index < q.pattern.segments.length) (a : Nat) :
    q.advance a = q.pattern.unroll (q.index + a) := by
  rw [← Pattern.advance_eq, Pattern.unroll_of_lt hq]

/-- Going on in two goes is going on in one. -/
theorem advance_advance (hq : q.index < q.pattern.segments.length) (a b : Nat) :
    advance ⟨q.pattern, q.advance a⟩ b = q.advance (a + b) := by
  rw [advance_eq_unroll hq, advance_eq_unroll hq, Pattern.advance_eq, Nat.add_assoc]

theorem length_le_advance_iff (hq : q.index < q.pattern.segments.length) (a : Nat) :
    q.pattern.segments.length ≤ q.advance a ↔
      q.pattern.loopStart = none ∧ q.pattern.segments.length ≤ q.index + a := by
  rw [advance_eq_unroll hq]
  cases hloop : q.pattern.loopStart with
  | none => simp [Pattern.unroll_of_once hloop]
  | some r => simpa using Pattern.unroll_lt hloop (q.index + a)

end

/-- Going on from a position is going on in the unrolled pattern. -/
structure GoesOn (q : Position R) : Prop where
  /-- Its index is first played after as many others. -/
  here : q.pattern.unroll q.index = q.index
  /-- Further on is the index that is played as many segments later. -/
  index : ∀ a, q.advance a = q.pattern.unroll (q.index + a)
  /-- It is that of the segment that the unrolled pattern has there, or of none if it is over. -/
  segment : ∀ a, segment? ⟨q.pattern, q.advance a⟩ = q.pattern.unrolled.get? (q.index + a)
  /-- Only a pattern that does not repeat is ever over. -/
  ends : ∀ a, q.pattern.segments.length ≤ q.advance a ↔
    q.pattern.loopStart = none ∧ q.pattern.segments.length ≤ q.index + a
  twice : ∀ a b, advance ⟨q.pattern, q.advance a⟩ b = q.advance (a + b)
  /-- In words it comes to the same, in one go or in two. -/
  words : ∀ a b, q.index + a + b < wordCount →
    q.advanceInWords? a = some (q.advance a) ∧
      advanceInWords? ⟨q.pattern, q.advance a⟩ b = q.advanceInWords? (a + b)

theorem goesOn {q : Position R} (hq : q.index < q.pattern.segments.length) : q.GoesOn where
  here := Pattern.unroll_of_lt hq
  index := advance_eq_unroll hq
  segment a := by
    rw [Pattern.get?_unrolled, ← advance_eq_unroll hq]
    rfl
  ends := length_le_advance_iff hq
  twice := advance_advance hq
  words := by
    intro a b fits
    have hfirst : q.index + a < wordCount := by omega
    have hsecond : q.advance a + b < wordCount :=
      Nat.lt_of_le_of_lt (Nat.add_le_add_right (q.advance_le a) b) fits
    have hboth : q.index + (a + b) < wordCount := by rwa [← Nat.add_assoc]
    refine ⟨advanceInWords?_eq hfirst, ?_⟩
    rw [advanceInWords?_eq hsecond, advanceInWords?_eq hboth, advance_advance hq]

/-- **Going on from a position is going on in the unrolled pattern.** In words, only a loop start
outside the segment list makes that fail. A pattern is made with the loop start it was asked for if
that lies inside and with none otherwise, changes leave it and the number of segments as they are,
and fitting leaves one inside or none. So going on from a position leads to the segment that the
unrolled pattern has as much later, past the end only if a pattern that does not repeat is over, and
it comes to the same in one go or in two. -/
theorem advance_unrolls [Level R] :
    (∀ (length : Nat) (loopStart : Option Nat) (i c : Nat), i + c < wordCount →
      (Word.advance? length loopStart i c = none ↔
        length ≤ i + c ∧ ∃ r ∈ loopStart, length ≤ r)) ∧
    ((∀ (xs : List (Segment R)) asked,
        (Pattern.ofSegments xs asked).RepeatsFrom xs.length asked) ∧
      (∀ ms, (Pattern.oneShot ms : Pattern R).RepeatsFrom 1 none) ∧
      (∀ timings (amplitudes : List (Amplitude R)) asked,
        (Pattern.waveform timings amplitudes asked).RepeatsFrom
          (min timings.length amplitudes.length) asked) ∧
      (∀ timings asked,
        (Pattern.onOff timings asked : Pattern R).RepeatsFrom timings.length asked) ∧
      ∀ effect replaceable,
        (Pattern.prebaked effect replaceable : Pattern R).RepeatsFrom 1 none) ∧
    (∀ (cs : List (Effect.Change R)) (p : Pattern R), ∃ q,
      Effect.changed cs (.pattern p) = .pattern q ∧
        q.segments.length = p.segments.length ∧ q.loopStart = p.loopStart) ∧
    (∀ (f : Fitting R) (profile : Profile R) (xs : List (Segment R)) loopStart,
      ∀ r ∈ (f.fitSegments profile xs loopStart).2,
        r < (f.fitSegments profile xs loopStart).1.length) ∧
    (∀ (f : Fitting R) (profile : Profile R) (p : Pattern R) e,
      f.fit? profile (.pattern p) = some e →
        ∃ q, e = .pattern q ∧ q.segments = (f.fitSegments profile p.segments p.loopStart).1 ∧
          q.loopStart = (f.fitSegments profile p.segments p.loopStart).2) ∧
    ∀ q : Position R, q.index < q.pattern.segments.length → q.GoesOn := by
  refine ⟨fun _ _ _ _ => Word.advance?_eq_none_iff, ⟨Pattern.repeatsFrom_ofSegments,
    fun ms => Pattern.repeatsFrom_ofSegments _ none, Pattern.repeatsFrom_waveform,
    Pattern.repeatsFrom_onOff, fun _ _ => Pattern.repeatsFrom_ofSegments _ none⟩,
    Effect.changed_pattern, fun f profile _ _ _ => f.lt_of_mem_fitSegments profile,
    fun f profile _ _ => f.exists_fitted_of_fit? profile, fun _ => goesOn⟩

/-- Three holds, of which the last two are played over and over. -/
def pulses : Pattern Rat := .waveform [10, 10, 10] [.level 1, .level 1, .level 1] (some 1)

/-- From the last hold one segment leads to the second and two to the last again. A tick that is
fitted into two holds takes the loop start along. -/
theorem advance_unrolls_pulses :
    let q : Position Rat := ⟨pulses, 2⟩
    let f : Fitting Rat := ⟨⟨[(⟨2⟩, [.ramp ⟨0, 1, 0, 0, 20⟩])]⟩, 10⟩
    let profile : Profile Rat := { Profile.degraded 0 with effects := some {} }
    let x : Pattern Rat :=
      .ofSegments [.prebaked ⟨⟨2⟩, .medium, true⟩, .hold ⟨.level 1, 0, 100⟩] (some 1)
    q.index < q.pattern.segments.length ∧ q.GoesOn ∧ q.advance 1 = 1 ∧ q.advance 2 = 2 ∧
      q.advanceInWords? 2 = some 2 ∧ Word.advance? 3 (some 3) 2 1 = none ∧
      ∃ e, f.fit? profile (.pattern x) = some e ∧
        ∃ y, e = .pattern y ∧ y.segments.length = 3 ∧ y.loopStart = some 2 := by
  intro q f profile x
  obtain ⟨hnone, -, -, -, hfit, hgoesOn⟩ := advance_unrolls (R := Rat)
  have hinside : q.index < q.pattern.segments.length := by decide +kernel
  have G : q.GoesOn := hgoesOn q hinside
  have hplayable : (f.fit? profile (.pattern x)).isSome = true := by decide +kernel
  obtain ⟨e, he⟩ := Option.isSome_iff_exists.mp hplayable
  obtain ⟨y, hy, hsegments, hloop⟩ := hfit f profile x e he
  have hmissing := (hnone 3 (some 3) 2 1 (by decide)).mpr (by decide)
  refine ⟨hinside, G, ?_, ?_, (G.words 2 0 (by decide)).1, hmissing, e, he, y, hy, ?_, ?_⟩
  · rw [G.index]
    rfl
  · rw [G.index]
    rfl
  · rw [hsegments]
    decide +kernel
  · rw [hloop]
    decide +kernel

end Position
end Haptics
