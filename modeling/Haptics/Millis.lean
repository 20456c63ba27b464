/-!
# Durations in milliseconds

Durations are natural numbers that fit an unsigned 64-bit word. Some totals stop at the largest
word. Others are exact, and the program dies of one that does not fit. The answer to a drive is a
signed word: positive for the expected duration, zero for an input that the hardware does not
support, negative for a failure.
-/

namespace Haptics

/-- The number of different words. -/
def wordCount : Nat := 18446744073709551616

/-- The largest duration, which also stands for "for ever". -/
def forever : Nat := wordCount - 1

/-- The sum of two durations, at most `forever`. -/
def saturate (a b : Nat) : Nat := min (a + b) forever

/-- The exact sum of some durations, which may be no word. -/
def totalMs (ms : List Nat) : Nat := ms.foldr (· + ·) 0

theorem totalMs_eq_zero {ms : List Nat} (h : ∀ x ∈ ms, x = 0) : totalMs ms = 0 := by
  induction ms with
  | nil => rfl
  | cons x xs ih =>
    have hrest : totalMs xs = 0 := ih fun y hy => h y (List.mem_cons_of_mem x hy)
    show x + totalMs xs = 0
    rw [h x List.mem_cons_self, hrest]

/-- The answer to a drive whose duration nobody knows, and the largest answer there is. -/
def indefinite : Int := 9223372036854775807

/-- The answer to a drive that takes `ms`. -/
def driveResult (ms : Nat) : Int := min (ms : Int) indefinite

end Haptics
