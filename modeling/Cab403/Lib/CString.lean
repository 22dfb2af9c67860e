import Mathlib.Algebra.Group.Nat.Defs
import Mathlib.Data.List.TakeWhile

/-!
# C strings

A C string is the characters before its NUL. `atoi` and the decimal conversions of `sprintf` are
what the C standard library says they are: `atoi` skips white space, takes an optional sign and
the digits that follow, and stops at the first character that is none.
-/

namespace Cab403
namespace Lib

abbrev CString := List Char

def isSpace (c : Char) : Bool :=
  c == ' ' || c == '\t' || c == '\n' || c == '\x0b' || c == '\x0c' || c == '\r'

/-- The value of the digits at the front. -/
def atoiDigits (s : CString) : Int := Int.ofNat (Nat.ofDigitChars 10 (s.takeWhile Char.isDigit) 0)

def atoi (s : CString) : Int :=
  match s.dropWhile isSpace with
  | '-' :: ds => -atoiDigits ds
  | '+' :: ds => atoiDigits ds
  | ds => atoiDigits ds

/-- `%u`, and `%d` of a number that is not negative. -/
def decimal (n : Nat) : CString := Nat.toDigits 10 n

theorem length_decimal_le {n k : Nat} (hk : 0 < k) : (decimal n).length ≤ k ↔ n < 10 ^ k :=
  Nat.length_toDigits_le_iff (by decide) hk

theorem isDigit_of_mem_decimal {n : Nat} {c : Char} (h : c ∈ decimal n) : c.isDigit = true :=
  Nat.isDigit_of_mem_toDigits (by decide : 0 < 10) (by decide) h

theorem not_isSpace_of_isDigit {c : Char} (h : c.isDigit = true) : isSpace c = false := by
  rw [← Bool.not_eq_true]
  intro hspace
  simp only [isSpace, Bool.or_eq_true, beq_iff_eq] at hspace
  rcases hspace with ((((rfl | rfl) | rfl) | rfl) | rfl) | rfl <;> exact absurd h (by decide)

theorem atoiDigits_decimal (n : Nat) : atoiDigits (decimal n) = n := by
  have htake : (decimal n).takeWhile Char.isDigit = decimal n :=
    List.takeWhile_eq_self_iff.mpr fun c hc => isDigit_of_mem_decimal hc
  unfold atoiDigits
  rw [htake, decimal, Nat.ofDigitChars_ten_toDigits]
  rfl

/-- **`atoi` undoes `sprintf`.** -/
theorem atoi_decimal (n : Nat) : atoi (decimal n) = n := by
  have hvalue := atoiDigits_decimal n
  have hdigit : ∀ c ∈ decimal n, c.isDigit = true := fun c hc => isDigit_of_mem_decimal hc
  unfold atoi
  cases hd : decimal n with
  | nil => exact absurd hd Nat.toDigits_ne_nil
  | cons c cs =>
    rw [hd] at hvalue hdigit
    have hc : c.isDigit = true := hdigit c List.mem_cons_self
    rw [List.dropWhile_cons_of_neg (by rw [not_isSpace_of_isDigit hc]; exact Bool.false_ne_true)]
    -- a digit is neither sign
    split
    · rename_i hcons
      rw [(List.cons.inj hcons).1] at hc
      exact absurd hc (by decide)
    · rename_i hcons
      rw [(List.cons.inj hcons).1] at hc
      exact absurd hc (by decide)
    · exact hvalue

/-! ## How large a number a short string holds -/

theorem ofDigitChars_lt {s : CString} (h : ∀ c ∈ s, c.isDigit = true) :
    Nat.ofDigitChars 10 s 0 < 10 ^ s.length := by
  induction s with
  | nil => simp
  | cons c cs ih =>
    have hcs := ih fun d hd => h d (List.mem_cons_of_mem c hd)
    have hc : c.toNat - '0'.toNat ≤ 9 := by
      have hdigit := h c List.mem_cons_self
      simp only [Char.isDigit, Bool.and_eq_true, decide_eq_true_eq,
        UInt32.le_iff_toNat_le] at hdigit
      exact Nat.sub_le_of_le_add hdigit.2
    rw [Nat.ofDigitChars_cons, Nat.ofDigitChars_eq_ofDigitChars_zero, Nat.mul_zero, Nat.zero_add,
      List.length_cons, Nat.pow_succ]
    have hmul := Nat.mul_le_mul_left (10 ^ cs.length) hc
    omega

theorem atoiDigits_bounds {s : CString} {k : Nat} (h : s.length ≤ k) :
    0 ≤ atoiDigits s ∧ atoiDigits s < (10 ^ k : Nat) := by
  have hdigits : ∀ c ∈ s.takeWhile Char.isDigit, c.isDigit = true :=
    fun c hc => List.mem_takeWhile_imp hc
  have hlt := ofDigitChars_lt hdigits
  have hlen : (s.takeWhile Char.isDigit).length ≤ k :=
    (List.takeWhile_prefix _).length_le.trans h
  have hpow : 10 ^ (s.takeWhile Char.isDigit).length ≤ 10 ^ k :=
    Nat.pow_le_pow_right (by decide) hlen
  unfold atoiDigits
  exact ⟨Int.natCast_nonneg _, Int.ofNat_lt.mpr (Nat.lt_of_lt_of_le hlt hpow)⟩

/-- `k` digits, or a sign and `k - 1`. -/
theorem atoi_bounds {s : CString} {k : Nat} (h : s.length ≤ k + 1) :
    -(10 ^ k : Nat) < atoi s ∧ atoi s < (10 ^ (k + 1) : Nat) := by
  have hpow : 10 ^ k ≤ 10 ^ (k + 1) := Nat.pow_le_pow_right (by decide) (Nat.le_succ k)
  have hpos : 0 < 10 ^ k := Nat.pow_pos (by decide)
  have hdrop : (s.dropWhile isSpace).length ≤ k + 1 :=
    (List.dropWhile_suffix _).length_le.trans h
  unfold atoi
  split
  · rename_i ds heq
    rw [heq, List.length_cons] at hdrop
    have hds := atoiDigits_bounds (Nat.le_of_succ_le_succ hdrop)
    omega
  · rename_i ds heq
    rw [heq, List.length_cons] at hdrop
    have hds := atoiDigits_bounds (Nat.le_of_succ_le_succ hdrop)
    omega
  · have hds := atoiDigits_bounds hdrop
    omega

end Lib
end Cab403
