import Mathlib.Logic.Function.Basic
import Mathlib.Data.List.Basic

/-!
# Bounded FIFOs, and the ring buffers that store them

`Fifo α cap` is what a bounded queue is *for*, with its history kept: everything given to it,
everything taken from it, and the two facts that make it a bounded queue as fields — what was
taken is a prefix of what was given, and at most `cap` items are given and not yet taken. A
value of the type is a queue that never reordered, lost, duplicated or overflowed.

`Ring` says that an array and two wrapping indices store such a queue: item number `k` sits in
cell `k % cap` for as long as it is in the queue. `Ring.put` and `Ring.take` are the two moves,
each with the one premise it needs, room or an item.
-/

namespace Cab403
namespace Lib

open Function

variable {α : Type*} {cap : Nat}

/-! ## The abstract queue -/

structure Fifo (α : Type*) (cap : Nat) where
  given : List α
  taken : List α
  inOrder : taken <+: given
  bounded : given.length ≤ taken.length + cap

namespace Fifo

def empty : Fifo α cap := ⟨[], [], List.prefix_rfl, by simp⟩

def put (q : Fifo α cap) (x : α) (room : q.given.length < q.taken.length + cap) :
    Fifo α cap where
  given := q.given ++ [x]
  taken := q.taken
  inOrder := q.inOrder.trans (List.prefix_append _ _)
  bounded := by simp only [List.length_append, List.length_singleton]; omega

/-- The oldest item not yet taken. -/
def front (q : Fifo α cap) (some : q.taken.length < q.given.length) : α :=
  q.given[q.taken.length]

def take (q : Fifo α cap) (some : q.taken.length < q.given.length) : Fifo α cap where
  given := q.given
  taken := q.taken ++ [q.front some]
  inOrder := by
    have htake : q.taken = q.given.take q.taken.length := List.prefix_iff_eq_take.mp q.inOrder
    rw [List.prefix_iff_eq_take, List.length_append, List.length_singleton,
      List.take_succ_eq_append_getElem some, ← htake]
    rfl
  bounded := by
    have := q.bounded
    simp only [List.length_append, List.length_singleton]
    omega

end Fifo

/-! ## The ring -/

/-- Two items less than a lap apart sit in different cells. -/
theorem mod_ne_of_lt {a b c : Nat} (hab : a < b) (hbc : b < a + c) : a % c ≠ b % c := by
  intro h
  have hdvd : c ∣ b - a := Nat.dvd_of_mod_eq_zero (Nat.sub_mod_eq_zero_of_mod_eq h.symm)
  have := Nat.le_of_dvd (by omega) hdvd
  omega

/-- The array `cell`, with the next cell to fill and the next to empty, stores `q`. -/
structure Ring (cell : Nat → α) (ins rem : Nat) (q : Fifo α cap) : Prop where
  ins_eq : ins = q.given.length % cap
  rem_eq : rem = q.taken.length % cap
  stored : ∀ k (h : k < q.given.length), q.taken.length ≤ k → cell (k % cap) = q.given[k]

namespace Ring

variable {cell : Nat → α} {ins rem : Nat} {q : Fifo α cap}

/-- A cell is occupied while an item of the queue is in it. -/
def Occupied (q : Fifo α cap) (j : Nat) : Prop :=
  ∃ k, q.taken.length ≤ k ∧ k < q.given.length ∧ k % cap = j

theorem empty (cell : Nat → α) : Ring cell 0 0 (Fifo.empty : Fifo α cap) :=
  ⟨by simp [Fifo.empty], by simp [Fifo.empty], fun _ h => absurd h (by simp [Fifo.empty])⟩

theorem not_occupied_empty (j : Nat) : ¬ Occupied (Fifo.empty : Fifo α cap) j := by
  rintro ⟨k, _, hk, _⟩
  simp [Fifo.empty] at hk

/-- The cell about to be filled holds no item of the queue. -/
theorem ins_free (h : Ring cell ins rem q) (room : q.given.length < q.taken.length + cap) :
    ¬ Occupied q ins := by
  rintro ⟨k, htaken, hk, hins⟩
  rw [h.ins_eq] at hins
  exact mod_ne_of_lt hk (by omega) hins

/-- The cell about to be emptied holds one. -/
theorem rem_occupied (h : Ring cell ins rem q) (some : q.taken.length < q.given.length) :
    Occupied q rem :=
  ⟨q.taken.length, Nat.le_refl _, some, h.rem_eq.symm⟩

/-- The cell about to be emptied holds the oldest item. -/
theorem front_eq (h : Ring cell ins rem q) (some : q.taken.length < q.given.length) :
    cell rem = q.front some := by
  rw [h.rem_eq, h.stored _ some (Nat.le_refl _)]
  rfl

theorem put (h : Ring cell ins rem q) (x : α) (room : q.given.length < q.taken.length + cap) :
    Ring (update cell ins x) ((ins + 1) % cap) rem (q.put x room) where
  ins_eq := by
    simp only [Fifo.put, List.length_append, List.length_singleton, h.ins_eq, Nat.mod_add_mod]
  rem_eq := h.rem_eq
  stored := by
    intro k hk htaken
    simp only [Fifo.put, List.length_append, List.length_singleton] at hk htaken ⊢
    by_cases hlast : k = q.given.length
    · subst hlast
      rw [← h.ins_eq, update_self, List.getElem_concat_length rfl]
    · have hlt : k < q.given.length := by omega
      have hne : k % cap ≠ ins := fun he => h.ins_free room ⟨k, htaken, hlt, he⟩
      rw [update_of_ne hne, h.stored k hlt htaken, List.getElem_append_left hlt]

/-- Emptying a cell may overwrite it with anything. -/
theorem take (h : Ring cell ins rem q) (x : α) (some : q.taken.length < q.given.length) :
    Ring (update cell rem x) ins ((rem + 1) % cap) (q.take some) where
  ins_eq := h.ins_eq
  rem_eq := by
    simp only [Fifo.take, List.length_append, List.length_singleton, h.rem_eq, Nat.mod_add_mod]
  stored := by
    intro k hk htaken
    simp only [Fifo.take, List.length_append, List.length_singleton] at hk htaken ⊢
    have hbounded := q.bounded
    have hne : k % cap ≠ rem := by
      rw [h.rem_eq]
      exact (mod_ne_of_lt (by omega) (by omega)).symm
    rw [update_of_ne hne, h.stored k hk (by omega)]

theorem occupied_put (h : Ring cell ins rem q) (x : α)
    (room : q.given.length < q.taken.length + cap) (j : Nat) :
    Occupied (q.put x room) j ↔ j = ins ∨ Occupied q j := by
  unfold Occupied
  simp only [Fifo.put, List.length_append, List.length_singleton]
  constructor
  · rintro ⟨k, htaken, hk, hj⟩
    by_cases hlast : k = q.given.length
    · exact .inl (by rw [← hj, hlast, h.ins_eq])
    · exact .inr ⟨k, htaken, by omega, hj⟩
  · rintro (rfl | ⟨k, htaken, hk, hj⟩)
    · exact ⟨q.given.length, q.inOrder.length_le, by omega, h.ins_eq.symm⟩
    · exact ⟨k, htaken, by omega, hj⟩

theorem occupied_take (h : Ring cell ins rem q) (some : q.taken.length < q.given.length)
    (j : Nat) : Occupied (q.take some) j ↔ j ≠ rem ∧ Occupied q j := by
  unfold Occupied
  simp only [Fifo.take, List.length_append, List.length_singleton]
  have hbounded := q.bounded
  constructor
  · rintro ⟨k, htaken, hk, rfl⟩
    refine ⟨?_, k, by omega, hk, rfl⟩
    rw [h.rem_eq]
    exact (mod_ne_of_lt (by omega) (by omega)).symm
  · rintro ⟨hne, k, htaken, hk, rfl⟩
    refine ⟨k, ?_, hk, rfl⟩
    have : k ≠ q.taken.length := fun he => hne (by rw [he, h.rem_eq])
    omega

end Ring

end Lib
end Cab403
