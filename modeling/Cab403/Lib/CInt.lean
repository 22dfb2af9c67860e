import Cab403.Lib.CString
import Mathlib.Algebra.Ring.Int.Defs

/-!
# `int`, as text

`Lib.CString` reads and writes numbers of any size. The programs have an `int`: 32 bits, that wrap
around. `atoi` is `strtol`, which stops at the ends of a `long`, and a conversion; where the number
fits an `int` it is the number.
-/

namespace Cab403
namespace Lib

/-- `atoi` -/
def atoiInt (s : CString) : Int32 :=
  Int32.ofInt (max Int64.minValue.toInt (min Int64.maxValue.toInt (atoi s)))

/-- `%d` -/
def formatInt (i : Int32) : CString :=
  if i < 0 then '-' :: decimal (-i.toInt).toNat else decimal i.toInt.toNat

theorem toInt_atoiInt {s : CString} (hlow : -2 ^ 31 ≤ atoi s) (hhigh : atoi s < 2 ^ 31) :
    (atoiInt s).toInt = atoi s := by
  have hclamp : max Int64.minValue.toInt (min Int64.maxValue.toInt (atoi s)) = atoi s := by
    rw [Int64.toInt_minValue, Int64.toInt_maxValue]
    omega
  rw [atoiInt, hclamp, Int32.toInt_ofInt_of_le hlow hhigh]

theorem formatInt_of_nonneg {i : Int32} (h : 0 ≤ i.toInt) :
    formatInt i = decimal i.toInt.toNat := by
  have hneg : ¬ i < 0 := by
    rw [Int32.lt_iff_toInt_lt, Int32.toInt_zero]
    omega
  rw [formatInt, if_neg hneg]

/-! ## Numerals -/

/-- Digits, the first of them not a `0`. -/
structure IsNumeral (ds : CString) : Prop where
  digits : ∀ c ∈ ds, c.isDigit = true
  leading : ∃ c, ds.head? = some c ∧ c ≠ '0'

def numeralValue (ds : CString) : Nat := Nat.ofDigitChars 10 ds 0

theorem digit_bounds {c : Char} (h : c.isDigit = true) : 48 ≤ c.toNat ∧ c.toNat ≤ 57 := by
  simpa [Char.isDigit, UInt32.le_iff_toNat_le] using h

theorem digitChar_of_isDigit {c : Char} (h : c.isDigit = true) :
    Nat.digitChar (c.toNat - '0'.toNat) = c := by
  obtain ⟨hlow, hhigh⟩ := digit_bounds h
  apply Char.toNat_inj.mp
  show (Nat.digitChar (c.toNat - 48)).toNat = c.toNat
  rw [Nat.toNat_digitChar_of_lt_ten (by omega)]
  omega

/-- Digits read on behind a number are the digits written behind it. -/
theorem decimal_append {ds : CString} (hds : ∀ c ∈ ds, c.isDigit = true) {n : Nat} (hn : 0 < n) :
    decimal (Nat.ofDigitChars 10 ds n) = decimal n ++ ds := by
  induction ds generalizing n with
  | nil => rw [Nat.ofDigitChars_nil, List.append_nil]
  | cons c ds ih =>
    have hc : c.isDigit = true := hds c List.mem_cons_self
    obtain ⟨hlow, hhigh⟩ := digit_bounds hc
    have hlt : c.toNat - '0'.toNat < 10 := by
      show c.toNat - 48 < 10
      omega
    have hlast : decimal (10 * n + (c.toNat - '0'.toNat)) = decimal n ++ [c] := by
      unfold decimal
      rw [← Nat.toDigits_append_toDigits (by decide) hn hlt, Nat.toDigits_of_lt_base hlt,
        digitChar_of_isDigit hc]
    rw [Nat.ofDigitChars_cons, ih (fun d hd => hds d (List.mem_cons_of_mem c hd)) (by omega),
      hlast, List.append_assoc, List.singleton_append]

/-- **`sprintf` undoes `atoi`**, where the numeral is one that `sprintf` writes. -/
theorem decimal_numeralValue {ds : CString} (h : IsNumeral ds) :
    decimal (numeralValue ds) = ds := by
  obtain ⟨c, hhead, hne⟩ := h.leading
  cases ds with
  | nil => cases hhead
  | cons d ds =>
    obtain rfl : d = c := Option.some.inj hhead
    have hd : d.isDigit = true := h.digits d List.mem_cons_self
    obtain ⟨hlow, hhigh⟩ := digit_bounds hd
    have hne48 : d.toNat ≠ 48 := fun heq => hne (Char.toNat_inj.mp heq)
    have hfirst : decimal (10 * 0 + (d.toNat - '0'.toNat)) = [d] := by
      rw [Nat.mul_zero, Nat.zero_add, decimal, Nat.toDigits_of_lt_base, digitChar_of_isDigit hd]
      show d.toNat - 48 < 10
      omega
    have hpos : 0 < 10 * 0 + (d.toNat - '0'.toNat) := by
      show 0 < 10 * 0 + (d.toNat - 48)
      omega
    rw [numeralValue, Nat.ofDigitChars_cons,
      decimal_append (fun e he => h.digits e (List.mem_cons_of_mem d he)) hpos, hfirst,
      List.singleton_append]

/-- A number that is not `0` is written as a numeral. -/
theorem isNumeral_decimal {n : Nat} (hn : 0 < n) : IsNumeral (decimal n) := by
  refine ⟨fun c hc => isDigit_of_mem_decimal hc, ?_⟩
  induction n using Nat.strongRecOn with
  | ind n ih =>
    unfold decimal at ih ⊢
    rw [Nat.toDigits_eq_if (by decide)]
    by_cases hsmall : n < 10
    · rw [if_pos hsmall]
      exact ⟨_, rfl, fun hzero => Nat.ne_of_gt hn (Nat.digitChar_eq_zero.mp hzero)⟩
    · rw [if_neg hsmall]
      obtain ⟨c, hhead, hc⟩ := ih (n / 10) (by omega) (by omega)
      exact ⟨c, by rw [List.head?_append, hhead]; rfl, hc⟩

end Lib
end Cab403
