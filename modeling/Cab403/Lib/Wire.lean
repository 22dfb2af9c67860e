import Mathlib.Data.List.Infix
import Mathlib.Data.List.TakeWhile

/-!
# Bytes on a connection

What a program that reads a stream socket has to do with: the bytes, the C string a buffer holds,
a 16-bit number in network order, and the pieces `recv` may hand a stream out in. `recv` may cut
a stream anywhere; all that is certain is that the pieces are the stream, in order, none empty
and none longer than was asked for.
-/

namespace Cab403
namespace Lib

abbrev Bytes := List UInt8

def ascii (s : String) : Bytes := s.toList.map fun c => UInt8.ofNat c.toNat

/-! ## C strings in a buffer -/

/-- What comes before the first NUL. -/
def cString (buffer : Bytes) : Bytes := buffer.takeWhile (· != 0)

theorem cString_append_nul (b rest : Bytes) : cString (b ++ 0 :: rest) = cString b := by
  induction b with
  | nil => rfl
  | cons c b ih =>
    by_cases hc : c = 0
    · simp [cString, hc]
    · simp only [cString, List.cons_append] at ih ⊢
      rw [List.takeWhile_cons_of_pos (by simpa using hc),
        List.takeWhile_cons_of_pos (by simpa using hc), ih]

theorem cString_eq_self {b : Bytes} (h : 0 ∉ b) : cString b = b :=
  List.takeWhile_eq_self_iff.mpr fun c hc => by
    have hne : c ≠ 0 := by
      rintro rfl
      exact h hc
    simpa using hne

/-- `strstr(s, t) != NULL` -/
def strstr (s t : Bytes) : Bool := decide (t <:+: s)

/-! ## Network order -/

/-- A 16-bit number, high byte first. -/
def htons (n : UInt16) : Bytes := [(n >>> 8).toUInt8, n.toUInt8]

theorem htons_small {n : ℕ} (h : n < 256) : htons (UInt16.ofNat n) = [0, UInt8.ofNat n] := by
  have hhigh : (UInt16.ofNat n >>> 8).toUInt8 = 0 := by
    apply UInt8.toNat_inj.mp
    rw [UInt16.toNat_toUInt8, UInt16.toNat_shiftRight, UInt16.toNat_ofNat']
    rw [Nat.mod_eq_of_lt (show n < 2 ^ 16 by omega)]
    show (n >>> 8) % 256 = 0
    rw [Nat.shiftRight_eq_div_pow, Nat.div_eq_of_lt h]
  have hlow : (UInt16.ofNat n).toUInt8 = UInt8.ofNat n := by
    apply UInt8.toNat_inj.mp
    rw [UInt16.toNat_toUInt8, UInt16.toNat_ofNat', UInt8.toNat_ofNat']
    exact Nat.mod_mod_of_dvd n (by decide)
  rw [htons, hhigh, hlow]

/-- The number two such bytes stand for. -/
def ntohs : Bytes → UInt16
  | [high, low] => UInt16.ofNat (high.toNat * 256 + low.toNat)
  | _ => 0

theorem ntohs_htons (n : UInt16) : ntohs (htons n) = n := by
  have hhigh : (n >>> 8).toUInt8.toNat = n.toNat / 256 := by
    rw [UInt16.toNat_toUInt8, UInt16.toNat_shiftRight]
    show (n.toNat >>> 8) % 256 = n.toNat / 256
    rw [Nat.shiftRight_eq_div_pow]
    have hlt := n.toNat_lt
    exact Nat.mod_eq_of_lt (Nat.div_lt_of_lt_mul hlt)
  have hlow : n.toUInt8.toNat = n.toNat % 256 := UInt16.toNat_toUInt8 n
  show UInt16.ofNat ((n >>> 8).toUInt8.toNat * 256 + n.toUInt8.toNat) = n
  rw [hhigh, hlow, Nat.div_add_mod', UInt16.ofNat_toNat]

/-! ## Pieces -/

/-- The pieces `recv`, asked for `limit` bytes each time, may hand a stream out in. -/
structure Splits (limit : ℕ) (stream : Bytes) (pieces : List Bytes) : Prop where
  flatten : pieces.flatten = stream
  ne_nil : ∀ piece ∈ pieces, piece ≠ []
  length_le : ∀ piece ∈ pieces, piece.length ≤ limit

theorem Splits.nil {limit : ℕ} {pieces : List Bytes} (h : Splits limit [] pieces) :
    pieces = [] := by
  cases pieces with
  | nil => rfl
  | cons piece rest =>
    have hempty : piece = [] := List.flatten_eq_nil_iff.mp h.flatten piece List.mem_cons_self
    exact absurd hempty (h.ne_nil piece List.mem_cons_self)

/-- A stream with anything on it has a first piece, some of what it starts with. -/
theorem Splits.first {limit : ℕ} {stream : Bytes} {pieces : List Bytes}
    (h : Splits limit stream pieces) (hne : stream ≠ []) :
    ∃ piece rest, pieces = piece :: rest ∧ piece ≠ [] ∧ piece <+: stream := by
  cases pieces with
  | nil => exact absurd h.flatten.symm hne
  | cons piece rest =>
    refine ⟨piece, rest, rfl, h.ne_nil piece List.mem_cons_self, rest.flatten, ?_⟩
    exact h.flatten

/-! ## Two bytes repeated -/

/-- A string that begins its own copy two bytes on repeats its first two bytes. -/
theorem getElem?_of_repeats {a b : UInt8} {m : Bytes} (h : m <+: a :: b :: m) {i : ℕ}
    (hi : i + 2 < m.length) : m[i + 2]? = m[i]? := by
  obtain ⟨t, ht⟩ := h
  have heq : (m ++ t)[i + 2]? = (a :: b :: m)[i + 2]? := by rw [ht]
  rw [List.getElem?_append_left hi] at heq
  exact heq

/-- So nothing in it has its first byte different from its third. -/
theorem not_infix_of_repeats {a b : UInt8} {m : Bytes} (h : m <+: a :: b :: m) {x y z : UInt8}
    (hne : x ≠ z) : ¬ [x, y, z] <:+: m := by
  rintro ⟨s, t, rfl⟩
  have hx : (s ++ [x, y, z] ++ t)[s.length]? = some x := by simp
  have hz : (s ++ [x, y, z] ++ t)[s.length + 2]? = some z := by simp
  have heq := getElem?_of_repeats h (i := s.length) (by simp)
  rw [hx, hz] at heq
  exact hne (Option.some.inj heq).symm

end Lib
end Cab403
