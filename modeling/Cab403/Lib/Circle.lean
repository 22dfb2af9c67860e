import Mathlib.Data.Int.Interval

/-!
# Circular ranges

`n` places on a circle, numbered from `0`, and two that move around it: `out`, where a range of
places begins, and `ins`, where it ends. The range has `(ins - out) % n` places, from `out` up to
but not including `ins`; it is never the whole circle, so `ins` moving forward must stop short of
`out`.

Everything is stated for an arbitrary number of places. The remainders are eliminated first
(`place_sub_emod`, `nextPlace_eq`), and what is left is linear.
-/

namespace Cab403
namespace Lib

/-- The place after `i`. -/
def nextPlace (n i : Int) : Int := (i + 1) % n

/-- Place `i` is in the range from `out` up to `ins`. -/
def Between (n out ins i : Int) : Prop := (i - out) % n < (ins - out) % n

/-- A place of the circle. -/
def Place (n i : Int) : Prop := 0 ≤ i ∧ i < n

/-- All of them. -/
def places (n : Int) : Finset Int :=
  (Finset.range n.toNat).map ⟨Int.ofNat, fun _ _ => Int.ofNat.inj⟩

section Circle

variable {n out ins i : Int}

instance : Decidable (Place n i) := inferInstanceAs (Decidable (_ ∧ _))

instance : Decidable (Between n out ins i) := inferInstanceAs (Decidable (_ < _))

theorem place_sub_emod {a b : Int} (ha : Place n a) (hb : Place n b) :
    (a - b) % n = if b ≤ a then a - b else a - b + n := by
  unfold Place at ha hb
  by_cases hab : b ≤ a
  · rw [if_pos hab]
    exact Int.emod_eq_of_lt (by omega) (by omega)
  · rw [if_neg hab, ← Int.add_emod_right (a - b) n]
    exact Int.emod_eq_of_lt (by omega) (by omega)

theorem nextPlace_eq (hi : Place n i) : nextPlace n i = if i + 1 = n then 0 else i + 1 := by
  unfold Place at hi
  unfold nextPlace
  by_cases hlast : i + 1 = n
  · rw [if_pos hlast, hlast, Int.emod_self]
  · rw [if_neg hlast]
    exact Int.emod_eq_of_lt (by omega) (by omega)

/-- A circle of two places or more has no place next to itself. -/
theorem nextPlace_ne (hi : Place n i) (hn : 1 < n) : nextPlace n i ≠ i := by
  rw [nextPlace_eq hi]
  split_ifs with hlast <;> omega

theorem place_nextPlace (hi : Place n i) : Place n (nextPlace n i) := by
  rw [nextPlace_eq hi]
  unfold Place at *
  split <;> omega

theorem between_iff (ho : Place n out) (hin : Place n ins) (hi : Place n i) :
    Between n out ins i ↔
      if out ≤ ins then out ≤ i ∧ i < ins else out ≤ i ∨ i < ins := by
  unfold Between
  rw [place_sub_emod hi ho, place_sub_emod hin ho]
  unfold Place at *
  split_ifs <;> omega

/-- The end of a range is not in it. -/
theorem not_between_end : ¬ Between n out ins ins := Int.lt_irrefl _

/-- A range that ends where it begins is empty. -/
theorem not_between_empty (hi : Place n i) : ¬ Between n out out i := by
  have hn : n ≠ 0 := by
    have h := hi
    unfold Place at h
    omega
  unfold Between
  rw [Int.sub_self, Int.zero_emod]
  exact Int.not_lt.mpr (Int.emod_nonneg _ hn)

/-- The beginning is, unless the range is empty. -/
theorem between_begin (ho : Place n out) (hin : Place n ins) (hne : ins ≠ out) :
    Between n out ins out := by
  rw [between_iff ho hin ho]
  unfold Place at *
  split <;> omega

/-- **The end moves on**: the range gains the place it was at. -/
theorem between_next (ho : Place n out) (hin : Place n ins) (hroom : nextPlace n ins ≠ out)
    (hi : Place n i) : Between n out (nextPlace n ins) i ↔ Between n out ins i ∨ i = ins := by
  rw [between_iff ho (place_nextPlace hin) hi, between_iff ho hin hi, nextPlace_eq hin] at *
  unfold Place at *
  split_ifs at * <;> omega

/-- **The beginning moves on**: the range loses the place it was at. -/
theorem between_pass (ho : Place n out) (hin : Place n ins) (hne : ins ≠ out)
    (hi : Place n i) : Between n (nextPlace n out) ins i ↔ Between n out ins i ∧ i ≠ out := by
  rw [between_iff (place_nextPlace ho) hin hi, between_iff ho hin hi, nextPlace_eq ho]
  unfold Place at *
  split_ifs <;> omega

theorem mem_places : i ∈ places n ↔ Place n i := by
  unfold places Place
  rw [Finset.mem_map]
  constructor
  · rintro ⟨k, hk, rfl⟩
    have hlt := Finset.mem_range.mp hk
    exact ⟨Int.natCast_nonneg k, show (k : Int) < n by omega⟩
  · rintro ⟨hlow, hhigh⟩
    exact ⟨i.toNat, Finset.mem_range.mpr (by omega), Int.toNat_of_nonneg hlow⟩

/-- **The range has `(ins - out) % n` places.** -/
theorem card_between (ho : Place n out) (hin : Place n ins) :
    (((places n).filter (Between n out ins)).card : Int) = (ins - out) % n := by
  rw [place_sub_emod hin ho]
  by_cases hle : out ≤ ins
  · -- one stretch
    have hrange : (places n).filter (Between n out ins) = Finset.Ico out ins := by
      ext i
      rw [Finset.mem_filter, mem_places, Finset.mem_Ico]
      constructor
      · intro h
        have hi := (between_iff ho hin h.1).mp h.2
        rwa [if_pos hle] at hi
      · intro h
        have hi : Place n i := ⟨by have := ho.1; omega, by have := hin.2; omega⟩
        exact ⟨hi, (between_iff ho hin hi).mpr (by rwa [if_pos hle])⟩
    rw [hrange, if_pos hle, Int.card_Ico]
    omega
  · -- all but one stretch
    have hrange : (places n).filter (Between n out ins) =
        Finset.Ico 0 n \ Finset.Ico ins out := by
      ext i
      have hIco : i ∈ Finset.Ico 0 n ↔ Place n i := Finset.mem_Ico
      rw [Finset.mem_filter, Finset.mem_sdiff, mem_places, hIco, Finset.mem_Ico]
      refine and_congr_right fun hi => ?_
      rw [between_iff ho hin hi, if_neg hle]
      omega
    have hsub : Finset.Ico ins out ⊆ Finset.Ico 0 n := by
      have hlow := hin.1
      have hhigh := ho.2
      exact Finset.Ico_subset_Ico hlow (by omega)
    rw [hrange, if_neg hle, Finset.card_sdiff_of_subset hsub, Int.card_Ico, Int.card_Ico]
    have h1 := ho.2
    have h2 := hin.1
    omega

end Circle

end Lib
end Cab403
