import Mathlib.Algebra.Group.Nat.Defs

/-!
# Rounding to so many bits

What a floating-point format makes of a natural number: the multiples of `ulp p n` are the numbers
about as large as `n` that have `p` significant bits, and `roundTo p n` is the nearest of them,
the one with the even quotient in a tie. The exponent is not bounded: a natural number is not small,
and the largest number of a format is the caller's concern.

A number with no more bits than that is itself (`roundTo_of_lt`). The others are rounded by no more
than one part in `2 ^ p`, up or down (`roundTo_le`, `le_roundTo`).
-/

namespace Cab403
namespace Lib

/-- The distance of the numbers with `p` significant bits, at `n`. -/
def ulp (p n : Nat) : Nat := 2 ^ (n.log2 + 1 - p)

/-- To the nearest, and to even in a tie. -/
def roundTo (p n : Nat) : Nat :=
  if ulp p n < 2 * (n % ulp p n) ∨ ulp p n = 2 * (n % ulp p n) ∧ n / ulp p n % 2 = 1 then
    (n / ulp p n + 1) * ulp p n
  else n / ulp p n * ulp p n

theorem ulp_of_lt {p n : Nat} (hp : 0 < p) (h : n < 2 ^ p) : ulp p n = 1 := by
  have hlog : n.log2 < p := by
    by_cases hn : n = 0
    · rwa [hn, Nat.log2_zero]
    · exact (Nat.log2_lt hn).mpr h
  have hexp : n.log2 + 1 - p = 0 := by omega
  rw [ulp, hexp, Nat.pow_zero]

theorem roundTo_of_lt {p n : Nat} (hp : 0 < p) (h : n < 2 ^ p) : roundTo p n = n := by
  rw [roundTo, ulp_of_lt hp h, Nat.mod_one, if_neg (by omega), Nat.div_one, Nat.mul_one]

/-- A number that has more bits is so many `ulp`s long. -/
theorem ulp_le {p n : Nat} (h : 2 ^ p ≤ n) : 2 ^ p * ulp p n ≤ 2 * n := by
  have hn : n ≠ 0 := Nat.ne_of_gt (Nat.lt_of_lt_of_le (Nat.two_pow_pos p) h)
  have hlog : p ≤ n.log2 := (Nat.le_log2 hn).mpr h
  calc 2 ^ p * ulp p n = 2 ^ (n.log2 + 1) := by
        rw [ulp, ← Nat.pow_add]
        congr 1
        omega
    _ = 2 * 2 ^ n.log2 := Nat.pow_succ'
    _ ≤ 2 * n := Nat.mul_le_mul_left 2 (Nat.log2_self_le hn)

/-- The nearest is half an `ulp` away at most. -/
theorem roundTo_near (p n : Nat) :
    2 * roundTo p n ≤ 2 * n + ulp p n ∧ 2 * n ≤ 2 * roundTo p n + ulp p n := by
  have hdiv := Nat.div_add_mod' n (ulp p n)
  have hmod := Nat.mod_lt n (Nat.two_pow_pos (n.log2 + 1 - p))
  change n % ulp p n < ulp p n at hmod
  unfold roundTo
  split
  · rw [Nat.add_mul, Nat.one_mul]
    omega
  · omega

/-- So many times the distance is no more than the number. -/
theorem roundTo_error {p : Nat} (hp : 0 < p) (n : Nat) :
    2 ^ p * roundTo p n ≤ 2 ^ p * n + n ∧ 2 ^ p * n ≤ 2 ^ p * roundTo p n + n := by
  rcases Nat.lt_or_ge n (2 ^ p) with hlt | hge
  · rw [roundTo_of_lt hp hlt]
    exact ⟨Nat.le_add_right .., Nat.le_add_right ..⟩
  · obtain ⟨hup, hdown⟩ := roundTo_near p n
    have hulp := ulp_le hge
    have hup' := Nat.mul_le_mul_left (2 ^ p) hup
    have hdown' := Nat.mul_le_mul_left (2 ^ p) hdown
    simp only [Nat.mul_add, Nat.mul_left_comm (2 ^ p) 2] at hup' hdown'
    omega

/-- **One part in `2 ^ p`** up, and no more. -/
theorem roundTo_le {p : Nat} (hp : 0 < p) (n : Nat) : 2 ^ p * roundTo p n ≤ 2 ^ p * n + n :=
  (roundTo_error hp n).1

/-- And down. -/
theorem le_roundTo {p : Nat} (hp : 0 < p) (n : Nat) : 2 ^ p * n ≤ 2 ^ p * roundTo p n + n :=
  (roundTo_error hp n).2

end Lib
end Cab403
