import Mathlib.Algebra.BigOperators.Group.Finset.Piecewise
import Mathlib.Algebra.Order.BigOperators.Group.Finset
import Mathlib.Data.Fintype.Basic

/-!
# Tallies over a set of threads

A thread's program point is `pc i`; a *tally* sums a weight of the program points over all the
threads. With a weight that is `1` at some points and `0` at the others it counts the threads
there, for any finite number of threads. `tally_update` is the only way a step changes one:
the thread that moves takes its old weight out and puts its new weight in. It is stated
additively, so that `omega` finishes conservation laws.
-/

namespace Cab403
namespace Lib

open Function

variable {ι α : Type*} [Fintype ι]

/-- The total weight of the threads' program points. -/
def tally (w : α → Nat) (pc : ι → α) : Nat := ∑ i, w (pc i)

theorem tally_update [DecidableEq ι] (w : α → Nat) (pc : ι → α) (i : ι) (a : α) :
    tally w (update pc i a) + w (pc i) = tally w pc + w a := by
  have hcomp : (fun j => w (update pc i a j)) = update (fun j => w (pc j)) i (w a) := by
    funext j
    by_cases hj : j = i
    · subst hj; simp
    · simp [hj]
  unfold tally
  rw [hcomp, Finset.sum_update_of_mem (Finset.mem_univ i),
    Finset.sum_eq_add_sum_sdiff_singleton_of_mem (Finset.mem_univ i) (fun j => w (pc j))]
  omega

/-- One thread's weight is part of the total. -/
theorem le_tally (w : α → Nat) (pc : ι → α) (i : ι) : w (pc i) ≤ tally w pc :=
  Finset.single_le_sum (f := fun j => w (pc j)) (fun _ _ => Nat.zero_le _) (Finset.mem_univ i)

theorem tally_eq_zero (w : α → Nat) {pc : ι → α} (h : ∀ i, w (pc i) = 0) : tally w pc = 0 :=
  Finset.sum_eq_zero fun i _ => h i

theorem tally_const_zero (w : α → Nat) {a : α} (h : w a = 0) :
    tally w (fun _ : ι => a) = 0 :=
  tally_eq_zero w fun _ => h

end Lib
end Cab403
