import Mathlib.Data.Nat.Basic
import Mathlib.Order.Monotone.Basic
import Mathlib.Tactic.Ring

/-!
# Even tilings

`n` cells in a row, cut into `k` parts by integer division: part `i` is the cells from `cut n k i`
up to `cut n k (i + 1)`. Every cell is in one part (`existsUnique_part`), no part has two cells
more than another (`part_length`), and no part is empty exactly if there are cells enough
(`parts_nonempty_iff`).

`middle n k i` is the cell half way between the first of part `i` and its last. No two of them are
one cell exactly under the same condition (`middles_iff`).
-/

namespace Cab403
namespace Lib

variable {n k i j x : ℕ}

def cut (n k i : ℕ) : ℕ := n * i / k

theorem cut_zero (n k : ℕ) : cut n k 0 = 0 := by
  rw [cut, Nat.mul_zero, Nat.zero_div]

theorem cut_all (n : ℕ) (hk : 0 < k) : cut n k k = n := Nat.mul_div_cancel n hk

theorem cut_mono (n k : ℕ) : Monotone (cut n k) :=
  fun _ _ hij => Nat.div_le_div_right (Nat.mul_le_mul_left n hij)

theorem cut_le (hk : 0 < k) (hi : i ≤ k) : cut n k i ≤ n :=
  (cut_mono n k hi).trans (cut_all n hk).le

/-! ## The parts -/

theorem exists_part (hk : 0 < k) (hx : x < n) :
    ∃ i, i < k ∧ cut n k i ≤ x ∧ x < cut n k (i + 1) := by
  by_contra hnot
  -- no part ends behind `x`, and the last one ends with the last cell
  have hbefore : ∀ i, i ≤ k → cut n k i ≤ x := by
    intro i
    induction i with
    | zero =>
      intro _
      rw [cut_zero]
      exact Nat.zero_le x
    | succ i ih =>
      intro hi
      by_contra hlt
      exact hnot ⟨i, hi, ih (Nat.le_of_succ_le hi), Nat.lt_of_not_le hlt⟩
  have hall := hbefore k (Nat.le_refl k)
  rw [cut_all n hk] at hall
  exact absurd hx (Nat.not_lt.mpr hall)

theorem part_unique (hi : cut n k i ≤ x ∧ x < cut n k (i + 1))
    (hj : cut n k j ≤ x ∧ x < cut n k (j + 1)) : i = j := by
  have hle : ∀ {i j}, cut n k i ≤ x → x < cut n k (j + 1) → i ≤ j := by
    intro i j hlow hhigh
    by_contra hlt
    have hmono : cut n k (j + 1) ≤ cut n k i := cut_mono n k (Nat.lt_of_not_le hlt)
    omega
  exact Nat.le_antisymm (hle hi.1 hj.2) (hle hj.1 hi.2)

theorem existsUnique_part (hk : 0 < k) (hx : x < n) :
    ∃! i, i < k ∧ cut n k i ≤ x ∧ x < cut n k (i + 1) := by
  obtain ⟨i, hi, hpart⟩ := exists_part hk hx
  exact ⟨i, ⟨hi, hpart⟩, fun j hj => part_unique hj.2 hpart⟩

/-- **The parts are even.** -/
theorem part_length (n : ℕ) (hk : 0 < k) (i : ℕ) :
    cut n k i + n / k ≤ cut n k (i + 1) ∧ cut n k (i + 1) ≤ cut n k i + n / k + 1 := by
  unfold cut
  rw [Nat.mul_succ]
  have hlow : n * i / k + n / k ≤ (n * i + n) / k := Nat.div_add_div_le_add_div
  have hi := Nat.lt_mul_div_succ (n * i) hk
  have hn := Nat.lt_mul_div_succ n hk
  refine ⟨hlow, Nat.le_of_lt_succ ((Nat.div_lt_iff_lt_mul hk).mpr ?_)⟩
  calc n * i + n < k * (n * i / k + 1) + k * (n / k + 1) := Nat.add_lt_add hi hn
    _ = (n * i / k + n / k + 1 + 1) * k := by ring

/-- **Every part has a cell** if there is one for each. -/
theorem parts_nonempty_iff (hk : 0 < k) :
    (∀ i, i < k → cut n k i < cut n k (i + 1)) ↔ k ≤ n := by
  constructor
  · intro hnonempty
    have hle : ∀ i, i ≤ k → i ≤ cut n k i := by
      intro i
      induction i with
      | zero => exact fun _ => Nat.zero_le _
      | succ i ih =>
        intro hi
        exact Nat.succ_le_of_lt (Nat.lt_of_le_of_lt (ih (Nat.le_of_succ_le hi)) (hnonempty i hi))
    have hall := hle k (Nat.le_refl k)
    rwa [cut_all n hk] at hall
  · intro hkn i _
    have hpos := Nat.div_pos hkn hk
    have hlength := (part_length n hk i).1
    omega

/-! ## Their middles -/

/-- A part that is empty and the first has its middle in the first cell all the same. -/
def middle (n k i : ℕ) : ℕ := (cut n k i + cut n k (i + 1) - 1) / 2

theorem middle_mono (n k : ℕ) : Monotone (middle n k) := by
  intro i j hij
  have hfirst : cut n k i ≤ cut n k j := cut_mono n k hij
  have hlast : cut n k (i + 1) ≤ cut n k (j + 1) := cut_mono n k (Nat.succ_le_succ hij)
  unfold middle
  omega

theorem middle_lt (hn : 0 < n) (hi : i < k) : middle n k i < n := by
  have hk := Nat.zero_lt_of_lt hi
  have hfirst : cut n k i ≤ n := cut_le hk (Nat.le_of_lt hi)
  have hlast : cut n k (i + 1) ≤ n := cut_le hk hi
  unfold middle
  omega

/-- **The middles differ** if there is a cell for each part. -/
theorem middles_iff (hn : 0 < n) :
    (∀ i j, i < j → j < k → middle n k i < middle n k j) ↔ k ≤ n := by
  constructor
  · intro hlt
    have hle : ∀ i, i < k → i ≤ middle n k i := by
      intro i
      induction i with
      | zero => exact fun _ => Nat.zero_le _
      | succ i ih =>
        intro hi
        have hstep := hlt i (i + 1) (Nat.lt_succ_self i) hi
        have hi' := ih (Nat.lt_of_succ_lt hi)
        omega
    by_contra hkn
    have hlast := hle (k - 1) (by omega)
    have hbound := middle_lt (i := k - 1) (k := k) hn (by omega)
    omega
  · intro hkn i j hij hj
    have hk := Nat.zero_lt_of_lt hj
    have hi := (parts_nonempty_iff hk).mpr hkn i (hij.trans hj)
    have hj' := (parts_nonempty_iff hk).mpr hkn j hj
    have hbetween : cut n k (i + 1) ≤ cut n k j := cut_mono n k hij
    unfold middle
    omega

end Lib
end Cab403
