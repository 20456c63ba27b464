import Haptics.Proofs.Expansion

/-!
# Cutting long ramps

A ramp that is longer than its actuator takes is cut into as few pieces as it takes, each as long as
the others. The pieces add up to the ramp and lead into each other (`Pass.Cut`). But the division
leaves a rest, which goes to the last piece as a whole. So that one may be longer than the actuator
takes, and much longer if the pieces are short and many (`Pass.shortenRamps_cuts`).
-/

namespace Haptics

variable {R : Type}

namespace Pass

/-! ## How many pieces, and how long -/

section
variable {ms limit : Nat}

/-- How long the last piece is. -/
def lastMs (ms limit : Nat) : Nat := ms / pieces ms limit + ms % pieces ms limit

theorem one_lt_pieces (hlimit : 0 < limit) (hlong : limit < ms) : 1 < pieces ms limit :=
  (Nat.le_div_iff_mul_le hlimit).mpr (by omega)

/-- There are enough pieces. -/
theorem le_pieces_mul (ms : Nat) (hlimit : 0 < limit) : ms ≤ pieces ms limit * limit := by
  have h : ms + limit - 1 < limit * (pieces ms limit + 1) := Nat.lt_mul_div_succ _ hlimit
  rw [Nat.mul_succ, Nat.mul_comm] at h
  omega

/-- There is a millisecond for each piece. -/
theorem pieces_le (hlimit : 0 < limit) (hms : 0 < ms) : pieces ms limit ≤ ms := by
  obtain ⟨k, rfl⟩ := Nat.exists_eq_succ_of_ne_zero (Nat.ne_of_gt hlimit)
  apply Nat.div_le_of_le_mul
  have hk : k ≤ k * ms := Nat.le_mul_of_pos_right k hms
  rw [Nat.succ_mul]
  omega

theorem ms_div_pieces_pos (hlimit : 0 < limit) (hlong : limit < ms) : 0 < ms / pieces ms limit :=
  Nat.div_pos (pieces_le hlimit (by omega)) (Nat.lt_trans Nat.one_pos (one_lt_pieces hlimit hlong))

theorem ms_div_pieces_le (ms : Nat) (hlimit : 0 < limit) : ms / pieces ms limit ≤ limit :=
  Nat.div_le_of_le_mul (le_pieces_mul ms hlimit)

end

/-- The pieces in front and the last one. -/
theorem front_add_last (ms k : Nat) : k * (ms / (k + 1)) + (ms / (k + 1) + ms % (k + 1)) = ms := by
  rw [← Nat.add_assoc, ← Nat.succ_mul]
  exact Nat.div_add_mod ms (k + 1)

/-! ## The pieces -/

section
variable [Level R] (s : Sweep R)

/-- The pieces in front are equally long. -/
theorem ms_piece {count i : Nat} (hi : i + 1 < count) : (piece count s i).ms = s.ms / count := by
  show (if i + 1 = count then s.ms else s.ms / count * (i + 1)) - s.ms / count * i = _
  rw [if_neg (Nat.ne_of_lt hi), Nat.mul_succ, Nat.add_sub_cancel_left]

/-- The last piece takes what is left. -/
theorem ms_piece_last (k : Nat) :
    (piece (k + 1) s k).ms = s.ms / (k + 1) + s.ms % (k + 1) := by
  show (if k + 1 = k + 1 then s.ms else _) - s.ms / (k + 1) * k = _
  rw [if_pos rfl, Nat.mul_comm]
  exact Nat.sub_eq_of_eq_add ((Nat.add_comm ..).trans (front_add_last s.ms k)).symm

/-- A piece ends where the next one begins. -/
theorem piece_joins {count i : Nat} (hi : i + 1 < count) :
    (piece count s i).endAmplitude = (piece count s (i + 1)).startAmplitude ∧
      (piece count s i).endHz = (piece count s (i + 1)).startHz := by
  simp [piece, Nat.ne_of_lt hi]

/-- All pieces of a ramp. -/
def parts (count : Nat) : List (Sweep R) := (List.range count).map (piece count s)

theorem map_ms_parts (k : Nat) : (parts s (k + 1)).map (·.ms) =
    List.replicate k (s.ms / (k + 1)) ++ [s.ms / (k + 1) + s.ms % (k + 1)] := by
  have hfront : (List.range k).map (fun i => (piece (k + 1) s i).ms) =
      (List.range k).map fun _ => s.ms / (k + 1) := by
    apply List.map_congr_left
    intro i hi
    exact ms_piece s (Nat.succ_lt_succ (List.mem_range.mp hi))
  rw [parts, List.map_map, Function.comp_def, List.range_succ, List.map_append, hfront,
    List.map_singleton, ms_piece_last, List.map_const', List.length_range]

/-- What a ramp that is longer than `limit` is cut into. -/
structure Cut (limit : Nat) (ps : List (Sweep R)) : Prop where
  /-- There are several pieces, but not more than milliseconds. -/
  count : ps.length = pieces s.ms limit ∧ 1 < ps.length ∧ ps.length ≤ s.ms
  durations : ps.map (·.ms) =
    List.replicate (ps.length - 1) (s.ms / ps.length) ++ [lastMs s.ms limit]
  pos : ∀ q ∈ ps, 0 < q.ms
  /-- All pieces but the last one are short enough. -/
  short : ∀ q ∈ ps.dropLast, q.ms ≤ limit
  total : (ps.map (·.ms)).sum = s.ms
  /-- What is added up on the way is never more than the ramp. -/
  partly : ∀ n, ((ps.take n).map (·.ms)).sum ≤ s.ms
  joined : ∀ i q q', ps[i]? = some q → ps[i + 1]? = some q' →
    q.endAmplitude = q'.startAmplitude ∧ q.endHz = q'.startHz

omit [Level R] in
variable {s} in
/-- Whether all pieces are short enough shows in the last one. -/
theorem Cut.all_short_iff {limit : Nat} {ps : List (Sweep R)} (C : Cut s limit ps) :
    (∀ q ∈ ps, q.ms ≤ limit) ↔ lastMs s.ms limit ≤ limit := by
  have hne : ps ≠ [] := List.ne_nil_of_length_pos (Nat.zero_lt_of_lt C.count.2.1)
  have hlast : (ps.getLast hne).ms = lastMs s.ms limit := by
    have h := congrArg List.getLast? C.durations
    rw [List.getLast?_map, List.getLast?_eq_some_getLast hne, List.getLast?_concat] at h
    exact Option.some.inj h
  constructor
  · intro hall
    exact hlast ▸ hall _ (List.getLast_mem hne)
  · intro hle q hq
    rw [← List.dropLast_append_getLast hne, List.mem_append, List.mem_singleton] at hq
    obtain hq | rfl := hq
    · exact C.short q hq
    · exact hlast ▸ hle

theorem cut_parts {limit : Nat} (hlimit : 0 < limit) (hlong : limit < s.ms) :
    Cut s limit (parts s (pieces s.ms limit)) := by
  have hcount := one_lt_pieces hlimit hlong
  have hmany := pieces_le hlimit (Nat.zero_lt_of_lt hlong)
  have hpos := ms_div_pieces_pos hlimit hlong
  have hshort := ms_div_pieces_le s.ms hlimit
  have hlast : lastMs s.ms limit = s.ms / pieces s.ms limit + s.ms % pieces s.ms limit := rfl
  obtain ⟨k, hk⟩ := Nat.exists_eq_add_one.mpr (Nat.zero_lt_of_lt hcount)
  rw [hk] at hcount hmany hpos hshort hlast ⊢
  have hlength : (parts s (k + 1)).length = k + 1 := by simp [parts]
  have hms := map_ms_parts s k
  have htotal : ((parts s (k + 1)).map (·.ms)).sum = s.ms := by
    rw [hms, List.sum_append, List.sum_replicate_nat, List.sum_singleton, front_add_last]
  exact {
    count := by
      rw [hlength]
      exact ⟨hk.symm, hcount, hmany⟩
    durations := by
      rw [hlength, hlast]
      exact hms
    pos := by
      intro q hq
      have hmem : q.ms ∈ (parts s (k + 1)).map (·.ms) := List.mem_map_of_mem hq
      rw [hms, List.mem_append, List.mem_replicate, List.mem_singleton] at hmem
      obtain ⟨-, h⟩ | h := hmem
      · exact h ▸ hpos
      · exact h ▸ Nat.add_pos_left hpos _
    short := by
      intro q hq
      rw [parts, List.range_succ, List.map_append, List.map_singleton, List.dropLast_concat] at hq
      obtain ⟨i, hi, rfl⟩ := List.mem_map.mp hq
      rw [ms_piece s (Nat.succ_lt_succ (List.mem_range.mp hi))]
      exact hshort
    total := htotal
    partly := by
      intro n
      rw [← List.take_append_drop n (parts s (k + 1)), List.map_append, List.sum_append] at htotal
      omega
    joined := by
      intro i q q' hq hq'
      obtain ⟨hi, rfl⟩ := List.getElem?_eq_some_iff.mp hq
      obtain ⟨hnext, rfl⟩ := List.getElem?_eq_some_iff.mp hq'
      simp only [parts, List.getElem_map, List.getElem_range]
      exact piece_joins s (hlength ▸ hnext) }

theorem split_eq_parts (limit : Nat) : split limit s = (parts s (pieces s.ms limit)).map .ramp :=
  (List.map_map ..).symm

end

/-! ## The pass -/

section
variable [Level R] (p : Profile R)

theorem shortenRamps_ramp (can : p.can .composeRamps = true) (hlimit : 0 < p.rampMsMax)
    {s : Sweep R} (hlong : p.rampMsMax < s.ms) :
    shortenRamps p (.ramp s) = (parts s (pieces s.ms p.rampMsMax)).map .ramp := by
  rw [shortenRamps, if_pos ⟨can, Nat.ne_of_gt hlimit, hlong⟩, split_eq_parts]

/-- **Long ramps are cut, and only the last piece may be too long.** On an actuator with ramps and a
limit for them, each longer ramp is cut into pieces of a millisecond or more that add up to it and
lead into each other, and all but the last are within the limit. So all ramps are within the limit
exactly if the last piece of each longer ramp is. -/
theorem shortenRamps_cuts (can : p.can .composeRamps = true) (hlimit : 0 < p.rampMsMax) :
    (∀ s : Sweep R, p.rampMsMax < s.ms → ∃ ps, shortenRamps p (.ramp s) = ps.map .ramp ∧
      Cut s p.rampMsMax ps ∧
      ((∀ q ∈ ps, q.ms ≤ p.rampMsMax) ↔ lastMs s.ms p.rampMsMax ≤ p.rampMsMax)) ∧
    ∀ xs loopStart,
      (∀ q, .ramp q ∈ ((shortenRamps p).apply (xs, loopStart)).1 → q.ms ≤ p.rampMsMax) ↔
        ∀ s, .ramp s ∈ xs → p.rampMsMax < s.ms → lastMs s.ms p.rampMsMax ≤ p.rampMsMax := by
  have hcut (s : Sweep R) (hlong : p.rampMsMax < s.ms) :
      ∃ ps, shortenRamps p (.ramp s) = ps.map .ramp ∧ Cut s p.rampMsMax ps ∧
        ((∀ q ∈ ps, q.ms ≤ p.rampMsMax) ↔ lastMs s.ms p.rampMsMax ≤ p.rampMsMax) :=
    have C := cut_parts s hlimit hlong
    ⟨_, shortenRamps_ramp p can hlimit hlong, C, C.all_short_iff⟩
  refine ⟨hcut, fun xs loopStart => ?_⟩
  rw [apply_eq]
  constructor
  · intro hall s hs hlong
    obtain ⟨ps, hps, -, hiff⟩ := hcut s hlong
    apply hiff.mp
    intro q hq
    apply hall
    exact List.mem_flatMap.mpr ⟨.ramp s, hs, hps ▸ List.mem_map_of_mem hq⟩
  · intro hlast q hq
    obtain ⟨x, hx, hq⟩ := List.mem_flatMap.mp hq
    cases x with
    | ramp s =>
      by_cases hlong : p.rampMsMax < s.ms
      · obtain ⟨ps, hps, -, hiff⟩ := hcut s hlong
        rw [hps] at hq
        obtain ⟨_, hr, heq⟩ := List.mem_map.mp hq
        cases heq
        exact hiff.mpr (hlast s hx hlong) _ hr
      · have hkeep : shortenRamps p (.ramp s) = [.ramp s] := if_neg fun h => hlong h.2.2
        rw [hkeep] at hq
        cases List.mem_singleton.mp hq
        exact Nat.le_of_not_lt hlong
    | _ => cases List.mem_singleton.mp hq

/-- An actuator whose ramps last 100 ms at most. -/
def gliding : Profile Rat :=
  { Profile.degraded 0 with capabilities := .ofList [.composeRamps], rampMsMax := 100 }

theorem shortenRamps_cuts_evenly :
    ∃ ps : List (Sweep Rat), shortenRamps gliding (.ramp ⟨0, 1, 100, 200, 250⟩) = ps.map .ramp ∧
      ps.map (·.ms) = [83, 83, 84] ∧ ∀ q ∈ ps, q.ms ≤ 100 := by
  obtain ⟨hcut, -⟩ := shortenRamps_cuts gliding rfl (by decide)
  obtain ⟨ps, hps, C, hiff⟩ := hcut ⟨0, 1, 100, 200, 250⟩ (by decide)
  refine ⟨ps, hps, ?_, hiff.mpr (by decide)⟩
  rw [C.durations, C.count.1]
  decide

/-- A ramp of 5 ms is cut into three pieces for an actuator whose ramps last 2 ms at most, and the
last piece lasts 3 ms. One of 1999 ms is cut into a thousand pieces, the last of which lasts a
second. -/
theorem shortenRamps_leaves_long :
    let p : Profile Rat := { gliding with rampMsMax := 2 }
    p.can .composeRamps = true ∧
      (∃ q, .ramp q ∈ ((shortenRamps p).apply ([.ramp ⟨0, 1, 100, 200, 5⟩], none)).1 ∧
        ¬q.ms ≤ p.rampMsMax) ∧
      lastMs 1999 2 = 1000 := by
  refine ⟨rfl, ⟨piece 3 ⟨0, 1, 100, 200, 5⟩ 2, ?_, by decide⟩, by decide⟩
  rw [apply_eq]
  exact List.mem_flatMap.mpr
    ⟨_, List.mem_cons_self, List.mem_map_of_mem (List.mem_range.mpr (by decide : 2 < 3))⟩

end

end Pass
end Haptics
