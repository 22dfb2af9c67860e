import Mathlib.Data.List.Nodup
import Mathlib.Data.Option.Basic
import Mathlib.Logic.Function.Basic

/-!
# A list with keys, as a partial map

The elements of a list have keys, and no two the same one; an element may have none. Then the list
is a partial map from keys to elements (`lookBy`), and what is done to it is done to the map: an
element put anywhere is an update at its key (`lookBy_middle`), mapping and filtering the list map
and filter what is found.
-/

namespace Cab403
namespace Lib

variable {α β κ : Type*} [DecidableEq κ] {key : α → Option κ} {l front back : List α} {x : α}
  {k : κ}

/-- The element with the key `k`. -/
def lookBy (key : α → Option κ) (l : List α) (k : κ) : Option α := l.find? fun x => key x == some k

theorem lookBy_eq_none_iff : lookBy key l k = none ↔ ∀ x ∈ l, key x ≠ some k := by
  simp [lookBy]

theorem lookBy_spec (hfound : lookBy key l k = some x) : x ∈ l ∧ key x = some k := by
  have htest := List.find?_some hfound
  rw [beq_iff_eq] at htest
  exact ⟨List.mem_of_find?_eq_some hfound, htest⟩

theorem lookBy_eq_some_iff (hnodup : (l.map key).Nodup) :
    lookBy key l k = some x ↔ x ∈ l ∧ key x = some k := by
  refine ⟨lookBy_spec, fun ⟨hmem, hkey⟩ => ?_⟩
  cases hfound : lookBy key l k with
  | none => exact absurd hkey (lookBy_eq_none_iff.mp hfound x hmem)
  | some y =>
    obtain ⟨hmem', hkey'⟩ := lookBy_spec hfound
    rw [List.inj_on_of_nodup_map hnodup hmem' hmem (hkey'.trans hkey.symm)]

/-- An element anywhere in the list. -/
theorem lookBy_middle (hnodup : ((front ++ x :: back).map key).Nodup) (hx : key x = some k) :
    lookBy key (front ++ x :: back) =
      Function.update (lookBy key (front ++ back)) k (some x) := by
  have hrest : ((front ++ back).map key).Nodup :=
    (((List.sublist_cons_self x back).append_left front).map key).nodup hnodup
  funext k'
  by_cases hk : k' = k
  · subst hk
    rw [Function.update_self]
    exact (lookBy_eq_some_iff hnodup).mpr ⟨by simp, hx⟩
  · rw [Function.update_of_ne hk]
    ext y
    rw [lookBy_eq_some_iff hnodup, lookBy_eq_some_iff hrest]
    refine and_congr_left fun hy => ?_
    have hne : y ≠ x := by
      rintro rfl
      exact hk (Option.some.inj (hy.symm.trans hx))
    simp [hne]

theorem lookBy_map {key' : β → Option κ} (f : α → β) (hkey : ∀ x, key' (f x) = key x) (k : κ) :
    lookBy key' (l.map f) k = (lookBy key l k).map f := by
  unfold lookBy
  rw [List.find?_map]
  congr 2
  funext x
  show (key' (f x) == some k) = _
  rw [hkey]

theorem lookBy_filter (hnodup : (l.map key).Nodup) (p : α → Bool) (k : κ) :
    lookBy key (l.filter p) k = (lookBy key l k).filter p := by
  have hkept : ((l.filter p).map key).Nodup := (List.filter_sublist.map key).nodup hnodup
  ext y
  rw [lookBy_eq_some_iff hkept, Option.filter_eq_some_iff, lookBy_eq_some_iff hnodup,
    List.mem_filter]
  exact and_right_comm

end Lib
end Cab403
