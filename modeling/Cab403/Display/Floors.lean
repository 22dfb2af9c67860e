import Cab403.Car.Record
import Cab403.Lib.CInt

/-!
# Floors on the display

`fti` and `itf` of `display-cars.c`, on its `int`. There is no floor `0`: the basements are
numbered from `0` down, so a name and its number are one apart there. Where nothing overflows the
two functions are those of the record of a car, and they undo each other.
-/

namespace Cab403
namespace Display

open Lib

def fti : CString → Int32
  | 'B' :: f => 1 - atoiInt f
  | f => atoiInt f

def itf (f : Int32) : CString :=
  if f ≤ 0 then 'B' :: formatInt (1 - f) else formatInt f

/-- `1 - f`, without an overflow. -/
def HasComplement (f : Int32) : Prop := -2 ^ 31 ≤ 1 - f.toInt ∧ 1 - f.toInt < 2 ^ 31

instance (f : Int32) : Decidable (HasComplement f) := inferInstanceAs (Decidable (_ ∧ _))

/-- A numeral that fits an `int`, perhaps with a `B` in front. -/
def CanonicalName (s : CString) : Prop :=
  ∃ ds, IsNumeral ds ∧ numeralValue ds < 2 ^ 31 ∧ (s = ds ∨ s = 'B' :: ds)

/-- The floors whose names `char buf[4]` has room for, each with its NUL. -/
def Writable (f : Int32) : Prop := -98 ≤ f.toInt ∧ f.toInt ≤ 999

instance (f : Int32) : Decidable (Writable f) := inferInstanceAs (Decidable (_ ∧ _))

/-! ## Without an overflow -/

theorem toInt_one_sub {i : Int32} (h : HasComplement i) : (1 - i).toInt = 1 - i.toInt := by
  rw [Int32.toInt_sub, Int32.toInt_one]
  exact Int.bmod_eq_of_le h.1 h.2

theorem toInt_fti_basement {f : CString} (hlow : 2 - 2 ^ 31 ≤ atoi f) (hhigh : atoi f < 2 ^ 31) :
    (fti ('B' :: f)).toInt = Car.fti ('B' :: f) := by
  have hvalue : (atoiInt f).toInt = atoi f := toInt_atoiInt (by omega) hhigh
  show (1 - atoiInt f).toInt = 1 - atoi f
  rw [toInt_one_sub ⟨by omega, by omega⟩, hvalue]

theorem toInt_fti_decimal {n : Nat} (hn : n < 2 ^ 31) : (fti (decimal n)).toInt = n := by
  have hvalue : (atoiInt (decimal n)).toInt = n := by
    rw [toInt_atoiInt, atoi_decimal] <;> rw [atoi_decimal] <;> omega
  unfold fti
  split
  · rename_i f hB
    exact absurd rfl (Car.decimal_cons_ne_B hB)
  · exact hvalue

/-- The display's `itf` writes what the record's does. -/
theorem itf_eq {f : Int32} (hf : HasComplement f) : itf f = Car.itf f.toInt := by
  unfold itf Car.itf
  by_cases hneg : f ≤ 0
  · have hle : f.toInt ≤ 0 := Int32.le_iff_toInt_le.mp hneg
    have hone := toInt_one_sub hf
    rw [if_pos hneg, if_pos hle, formatInt_of_nonneg (by omega), hone]
  · have hpos : ¬ f.toInt ≤ 0 := fun hle => hneg (Int32.le_iff_toInt_le.mpr hle)
    rw [if_neg hneg, if_neg hpos, formatInt_of_nonneg (by omega)]

theorem Writable.hasComplement {f : Int32} (hf : Writable f) : HasComplement f := by
  obtain ⟨hlow, hhigh⟩ := hf
  exact ⟨by omega, by omega⟩

/-- **What fits `buf`.** -/
theorem length_itf_lt_iff {f : Int32} (hf : HasComplement f) :
    (itf f).length < 4 ↔ Writable f := by
  rw [itf_eq hf, Car.itf]
  by_cases hneg : f.toInt ≤ 0
  · have hdigits : (decimal (1 - f.toInt).toNat).length ≤ 2 ↔ _ := length_decimal_le (by decide)
    rw [if_pos hneg, List.length_cons, Nat.succ_lt_succ_iff, Nat.lt_succ_iff, hdigits]
    unfold Writable
    omega
  · have hdigits : (decimal f.toInt.toNat).length ≤ 3 ↔ _ := length_decimal_le (by decide)
    rw [if_neg hneg, Nat.lt_succ_iff, hdigits]
    unfold Writable
    omega

/-- What three characters may be read as. -/
theorem fti_bounds {name : CString} (hname : name.length < 4) :
    -99 ≤ (fti name).toInt ∧ (fti name).toInt ≤ 999 := by
  have hlength : name.length ≤ 2 + 1 := Nat.le_of_lt_succ hname
  unfold fti
  split
  · rename_i digits
    rw [List.length_cons] at hlength
    obtain ⟨hlow, hhigh⟩ := atoi_bounds (k := 1) (Nat.le_of_succ_le_succ hlength)
    have hvalue : (atoiInt digits).toInt = atoi digits := toInt_atoiInt (by omega) (by omega)
    have hone := toInt_one_sub (i := atoiInt digits) ⟨by omega, by omega⟩
    exact ⟨by omega, by omega⟩
  · obtain ⟨hlow, hhigh⟩ := atoi_bounds hlength
    have hvalue : (atoiInt name).toInt = atoi name := toInt_atoiInt (by omega) (by omega)
    exact ⟨by omega, by omega⟩

/-- Only `-99` cannot be written again. -/
theorem writable_fti {name : CString} (hname : name.length < 4) (hne : fti name ≠ -99) :
    Writable (fti name) := by
  obtain ⟨hlow, hhigh⟩ := fti_bounds hname
  have hne' : (fti name).toInt ≠ -99 := fun h => hne (Int32.toInt_inj.mp h)
  exact ⟨by omega, hhigh⟩

/-! ## Round trips -/

theorem fti_itf {f : Int32} (hf : HasComplement f) : fti (itf f) = f := by
  rw [itf_eq hf, ← Int32.toInt_inj]
  unfold Car.itf
  by_cases hneg : f.toInt ≤ 0
  · obtain ⟨_, hfits⟩ := hf
    have hvalue : atoi (decimal (1 - f.toInt).toNat) = 1 - f.toInt := by
      rw [atoi_decimal]
      omega
    rw [if_pos hneg, toInt_fti_basement (by omega) (by omega)]
    show 1 - atoi _ = _
    omega
  · have hlt := f.toInt_lt
    rw [if_neg hneg, toInt_fti_decimal (by omega)]
    omega

theorem itf_fti {s : CString} (hs : CanonicalName s) : itf (fti s) = s := by
  obtain ⟨ds, hds, hfits, hname⟩ := hs
  have hdecimal := decimal_numeralValue hds
  generalize hn : numeralValue ds = n at hfits hdecimal
  have hpos : 1 ≤ n := by
    rcases Nat.eq_zero_or_pos n with rfl | hpos
    · obtain ⟨c, hhead, hne⟩ := hds.leading
      rw [← hdecimal] at hhead
      exact absurd (Option.some.inj hhead).symm hne
    · exact hpos
  rcases hname with rfl | rfl
  · rw [← hdecimal]
    have hvalue := toInt_fti_decimal hfits
    rw [itf_eq ⟨by omega, by omega⟩, hvalue, Car.itf_above n hpos]
  · rw [← hdecimal]
    have hatoi := atoi_decimal n
    have hvalue : (fti ('B' :: decimal n)).toInt = 1 - n := by
      rw [toInt_fti_basement (by omega) (by omega)]
      show 1 - atoi (decimal n) = _
      rw [hatoi]
    rw [itf_eq ⟨by omega, by omega⟩, hvalue, Car.itf_below n hpos]

/-- **Names and floors are the same thing**, from the lowest basement whose number fits an `int`
to the highest floor: each of the two functions undoes the other. -/
theorem floors_round_trip :
    (∀ f : Int32, HasComplement f → fti (itf f) = f) ∧
      ∀ s : CString, CanonicalName s → itf (fti s) = s :=
  ⟨fun _ hf => fti_itf hf, fun _ hs => itf_fti hs⟩

/-- Floor `-11` and its name. -/
theorem floors_round_trip_B12 :
    fti (itf (-11)) = -11 ∧ itf (fti "B12".toList) = "B12".toList := by
  have hfits : HasComplement (-11) := by decide
  have hdigits : "12".toList.all Char.isDigit = true := by decide
  have hname : CanonicalName "B12".toList :=
    ⟨"12".toList, ⟨List.all_eq_true.mp hdigits, '1', rfl, by decide⟩, by decide, .inr rfl⟩
  exact ⟨floors_round_trip.1 _ hfits, floors_round_trip.2 _ hname⟩

/-- No floor is written as anything but a canonical name. -/
theorem canonicalName_itf {f : Int32} (hf : HasComplement f) : CanonicalName (itf f) := by
  have hvalue : ∀ n, numeralValue (decimal n) = n := fun n => Nat.ofDigitChars_ten_toDigits
  have hlt := f.toInt_lt
  have hfits := hf.2
  rw [itf_eq hf, Car.itf]
  by_cases hneg : f.toInt ≤ 0
  · rw [if_pos hneg]
    refine ⟨_, isNumeral_decimal ?_, ?_, .inr rfl⟩
    · omega
    · rw [hvalue]
      omega
  · rw [if_neg hneg]
    refine ⟨_, isNumeral_decimal ?_, ?_, .inl rfl⟩
    · omega
    · rw [hvalue]
      omega

end Display
end Cab403
