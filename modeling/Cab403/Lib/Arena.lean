import Mathlib.Data.Finset.Basic
import Mathlib.Data.Fintype.EquivFin
import Mathlib.Logic.Function.Basic

/-!
# Blocks, and who holds them

The allocator as its callers see it. A state is the set of the addresses that are allocated;
`Malloc`, `Realloc` and `Free` say what a call may return and what is allocated then. Which fresh
address a call returns, and whether it returns one at all, is left open. A call that is undefined,
for it is handed an address that is not allocated, is one that no rule is for. `realloc` for no
bytes is a call of its own, `ReallocZero`.

The holders are any family of pointers. `Owned` says that each is `NULL` or the address of a block
that no other holds: then every one of them may be handed to `free` and to `realloc`, and it stays
so whatever they are handed to. `Tight` says that nothing else is allocated, and there are two
ways to lose that: to overwrite a pointer with that of a new block, and to overwrite it with the
`NULL` of a `realloc` that fails.
-/

namespace Cab403
namespace Lib

open Function

/-! ## The calls -/

inductive Malloc (s : Finset Nat) : Option Nat → Finset Nat → Prop
  | null : Malloc s none s
  | block {a : Nat} (h : a ∉ s) : Malloc s (some a) (insert a s)

inductive Free (s : Finset Nat) : Option Nat → Finset Nat → Prop
  | null : Free s none s
  | block {a : Nat} (h : a ∈ s) : Free s (some a) (s.erase a)

/-- A call that fails leaves the old block; one that does not has freed it, and may return its
address again. -/
inductive Realloc (s : Finset Nat) (old : Option Nat) : Option Nat → Finset Nat → Prop
  | null (h : ∀ a ∈ old, a ∈ s) : Realloc s old none s
  | block {t : Finset Nat} {a : Nat} (hfree : Free s old t) (h : a ∉ t) :
    Realloc s old (some a) (insert a t)

/-- A call for no bytes, as on Linux: it frees a block, and allocates where there is none. -/
inductive ReallocZero (s : Finset Nat) : Option Nat → Option Nat → Finset Nat → Prop
  | free {t : Finset Nat} {a : Nat} (h : Free s (some a) t) : ReallocZero s (some a) none t
  | malloc {t : Finset Nat} {p : Option Nat} (h : Malloc s p t) : ReallocZero s none p t

/-! ## The holders -/

variable {ι : Type*}

structure Owned (ptr : ι → Option Nat) (s : Finset Nat) : Prop where
  allocated : ∀ i, ∀ a ∈ ptr i, a ∈ s
  distinct : ∀ i j, ∀ a ∈ ptr i, a ∈ ptr j → i = j

def Tight (ptr : ι → Option Nat) (s : Finset Nat) : Prop := ∀ a ∈ s, ∃ i, a ∈ ptr i

theorem owned_empty : Owned (fun _ : ι => none) ∅ := by
  constructor
  · intro i a ha
    cases ha
  · intro i j a ha
    cases ha

theorem tight_empty : Tight (fun _ : ι => none) ∅ := by
  intro a ha
  simp at ha

/-- When nobody holds anything, nothing is allocated. -/
theorem Tight.eq_empty {ptr : ι → Option Nat} {s : Finset Nat} (h : Tight ptr s)
    (hnone : ∀ i, ptr i = none) : s = ∅ := by
  apply Finset.eq_empty_of_forall_notMem
  intro a ha
  obtain ⟨i, hi⟩ := h a ha
  rw [hnone i] at hi
  cases hi

section Calls

variable {ptr : ι → Option Nat} {s t : Finset Nat}

theorem Owned.exists_free (h : Owned ptr s) (i : ι) : ∃ t, Free s (ptr i) t := by
  cases hi : ptr i with
  | none => exact ⟨s, .null⟩
  | some a => exact ⟨_, .block (h.allocated i a hi)⟩

theorem Owned.exists_realloc (h : Owned ptr s) (i : ι) : ∃ a t, Realloc s (ptr i) (some a) t := by
  obtain ⟨t, ht⟩ := h.exists_free i
  obtain ⟨a, ha⟩ := Infinite.exists_notMem_finset t
  exact ⟨a, _, .block ht ha⟩

variable [DecidableEq ι]

/-- A holder may be given `NULL`. -/
theorem Owned.clear (h : Owned ptr s) (i : ι) : Owned (update ptr i none) s := by
  have hmem : ∀ {j a}, a ∈ update ptr i none j → a ∈ ptr j := by
    intro j a ha
    by_cases hj : j = i
    · subst hj
      rw [update_self] at ha
      cases ha
    · rwa [update_of_ne hj] at ha
  exact ⟨fun j a ha => h.allocated j a (hmem ha),
    fun j k a hj hk => h.distinct j k a (hmem hj) (hmem hk)⟩

/-- Or a fresh block. -/
theorem Owned.give (h : Owned ptr s) (i : ι) {a : Nat} (ha : a ∉ s) :
    Owned (update ptr i (some a)) (insert a s) := by
  have hne : ∀ j, a ∉ ptr j := fun j hj => ha (h.allocated j a hj)
  have hmem : ∀ {j b}, b ∈ update ptr i (some a) j → j = i ∧ b = a ∨ j ≠ i ∧ b ∈ ptr j := by
    intro j b hb
    by_cases hj : j = i
    · subst hj
      rw [update_self] at hb
      exact .inl ⟨rfl, (Option.some.inj hb).symm⟩
    · rw [update_of_ne hj] at hb
      exact .inr ⟨hj, hb⟩
  constructor
  · intro j b hb
    rcases hmem hb with ⟨_, rfl⟩ | ⟨_, hb⟩
    · exact Finset.mem_insert_self ..
    · exact Finset.mem_insert_of_mem (h.allocated j b hb)
  · intro j k b hj hk
    rcases hmem hj with ⟨hji, hba⟩ | ⟨_, hold⟩
    · rcases hmem hk with ⟨hki, _⟩ | ⟨_, hold'⟩
      · exact hji.trans hki.symm
      · exact absurd (hba ▸ hold') (hne k)
    · rcases hmem hk with ⟨_, hba⟩ | ⟨_, hold'⟩
      · exact absurd (hba ▸ hold) (hne j)
      · exact h.distinct j k b hold hold'

theorem Owned.free (h : Owned ptr s) {i : ι} (hfree : Free s (ptr i) t) :
    Owned (update ptr i none) t := by
  have hclear := h.clear i
  generalize hp : ptr i = p at hfree
  cases hfree with
  | null => exact hclear
  | @block a ha =>
    refine ⟨fun j b hb => ?_, hclear.distinct⟩
    refine Finset.mem_erase.mpr ⟨?_, hclear.allocated j b hb⟩
    rintro rfl
    -- only `i` held it
    by_cases hj : j = i
    · subst hj
      rw [update_self] at hb
      cases hb
    · rw [update_of_ne hj] at hb
      exact hj (h.distinct j i b hb hp)

theorem Owned.malloc (h : Owned ptr s) {p : Option Nat} (hmalloc : Malloc s p t) (i : ι) :
    Owned (update ptr i p) t := by
  cases hmalloc with
  | null => exact h.clear i
  | block ha => exact h.give i ha

theorem Owned.realloc (h : Owned ptr s) {i : ι} {p : Option Nat}
    (hrealloc : Realloc s (ptr i) p t) : Owned (update ptr i p) t := by
  cases hrealloc with
  | null _ => exact h.clear i
  | block hfree ha =>
    have hgive := (h.free hfree).give i ha
    rwa [update_idem] at hgive

theorem Owned.reallocZero (h : Owned ptr s) {i : ι} {p : Option Nat}
    (hrealloc : ReallocZero s (ptr i) p t) : Owned (update ptr i p) t := by
  generalize hq : ptr i = q at hrealloc
  cases hrealloc with
  | free hfree => exact h.free (hq ▸ hfree)
  | malloc hmalloc => exact h.malloc hmalloc i

/-! ## What is lost -/

/-- A pointer that is overwritten may have been the only one. -/
theorem Owned.tight_clear_iff (h : Owned ptr s) (htight : Tight ptr s) (i : ι) :
    Tight (update ptr i none) s ↔ ptr i = none := by
  constructor
  · intro hclear
    cases hi : ptr i with
    | none => rfl
    | some a =>
      obtain ⟨j, hj⟩ := hclear a (h.allocated i a hi)
      by_cases hij : j = i
      · subst hij
        rw [update_self] at hj
        cases hj
      · rw [update_of_ne hij] at hj
        exact absurd (h.distinct j i a hj hi) hij
  · intro hi
    rw [← hi, update_eq_self]
    exact htight

theorem tight_give (i : ι) {a : Nat} (h : Tight (update ptr i none) s) :
    Tight (update ptr i (some a)) (insert a s) := by
  intro b hb
  rcases Finset.mem_insert.mp hb with rfl | hb
  · exact ⟨i, by rw [update_self]; rfl⟩
  · obtain ⟨j, hj⟩ := h b hb
    by_cases hij : j = i
    · subst hij
      rw [update_self] at hj
      cases hj
    · rw [update_of_ne hij] at hj
      exact ⟨j, by rwa [update_of_ne hij]⟩

theorem tight_of_give {i : ι} {a : Nat} (ha : a ∉ s)
    (h : Tight (update ptr i (some a)) (insert a s)) : Tight (update ptr i none) s := by
  intro b hb
  obtain ⟨j, hj⟩ := h b (Finset.mem_insert_of_mem hb)
  by_cases hij : j = i
  · subst hij
    rw [update_self] at hj
    obtain rfl := Option.some.inj hj
    exact absurd hb ha
  · rw [update_of_ne hij] at hj
    exact ⟨j, by rwa [update_of_ne hij]⟩

theorem Tight.free (h : Tight ptr s) {i : ι} (hfree : Free s (ptr i) t) :
    Tight (update ptr i none) t := by
  generalize hp : ptr i = p at hfree
  cases hfree with
  | null =>
    rw [← hp, update_eq_self]
    exact h
  | @block a ha =>
    intro b hb
    obtain ⟨hne, hb⟩ := Finset.mem_erase.mp hb
    obtain ⟨j, hj⟩ := h b hb
    have hij : j ≠ i := by
      rintro rfl
      rw [hp] at hj
      exact hne (Option.some.inj hj).symm
    exact ⟨j, by rwa [update_of_ne hij]⟩

/-- **What `malloc` loses**: the block whose pointer its result overwrites. -/
theorem Owned.tight_malloc_iff (h : Owned ptr s) (htight : Tight ptr s) {p : Option Nat}
    (hmalloc : Malloc s p t) (i : ι) : Tight (update ptr i p) t ↔ ptr i = none := by
  rw [← h.tight_clear_iff htight i]
  cases hmalloc with
  | null => exact Iff.rfl
  | block ha => exact ⟨tight_of_give ha, tight_give i⟩

/-- **What `realloc` loses**: the old block, when the call fails. -/
theorem Owned.tight_realloc_iff (h : Owned ptr s) (htight : Tight ptr s) {i : ι} {p : Option Nat}
    (hrealloc : Realloc s (ptr i) p t) :
    Tight (update ptr i p) t ↔ (p = none → ptr i = none) := by
  cases hrealloc with
  | null _ =>
    rw [h.tight_clear_iff htight i]
    exact ⟨fun hi _ => hi, fun hi => hi rfl⟩
  | block hfree ha =>
    refine iff_of_true (tight_give i ?_) fun hp => by cases hp
    exact htight.free hfree

/-- A call for no bytes loses nothing. -/
theorem Owned.tight_reallocZero (h : Owned ptr s) (htight : Tight ptr s) {i : ι} {p : Option Nat}
    (hrealloc : ReallocZero s (ptr i) p t) : Tight (update ptr i p) t := by
  generalize hq : ptr i = q at hrealloc
  cases hrealloc with
  | free hfree => exact htight.free (hq ▸ hfree)
  | malloc hmalloc => exact (h.tight_malloc_iff htight hmalloc i).mpr hq

end Calls

end Lib
end Cab403
