import Cab403.Lib.CString

/-!
# The shared record of a car

`internal.h` lays out the record that a car, its safety system and its internal controls share.
The three strings are kept as values. They are arrays of `4`, `4` and `8` bytes one after the
other, and the one string that `internal` can make too long for its array, the destination
floor, then runs on into the status: `CarSharedMem.storeDestination`.

Floors are named `B99` to `B1` and `1` to `999`; `fti` and `itf` are the display's conversions
between names and integers, and a name is *legal* when it is the one `itf` writes for an integer
in range.
-/

namespace Cab403
namespace Car

open Lib

/-! ## The record -/

structure CarSharedMem where
  currentFloor : CString
  destinationFloor : CString
  status : CString
  openButton : UInt8
  closeButton : UInt8
  safetySystem : UInt8
  doorObstruction : UInt8
  overload : UInt8
  emergencyStop : UInt8
  individualServiceMode : UInt8
  emergencyMode : UInt8
  deriving DecidableEq, Repr

/-- `char destination_floor[4]` -/
def floorBytes : Nat := 4

/-- The destination after `strcpy` and `strcat`. What does not fit is the new status: the bytes
follow each other, and the NUL ends it. -/
def CarSharedMem.storeDestination (s : CString) (m : CarSharedMem) : CarSharedMem :=
  { m with
    destinationFloor := s
    status := if s.length < floorBytes then m.status else s.drop floorBytes }

def strOpening : CString := "Opening".toList
def strOpen : CString := "Open".toList
def strClosing : CString := "Closing".toList
def strClosed : CString := "Closed".toList
def strBetween : CString := "Between".toList

/-- How two strings are compared. The source writes `==`, which compares their addresses; what
it means is `strEq`. -/
abbrev Compare := CString → CString → Bool

def strEq : Compare := fun a b => a == b

/-- Two arrays, or an array and a literal, are never at one address. -/
def addrEq : Compare := fun _ _ => false

/-! ## Floors -/

/-- `fti` of the display. -/
def fti : CString → Int
  | 'B' :: f => 1 - atoi f
  | f => atoi f

/-- `itf` of the display. -/
def itf (f : Int) : CString :=
  if f ≤ 0 then 'B' :: decimal (1 - f).toNat else decimal f.toNat

def lowestRank : Int := -98
def highestRank : Int := 999

/-- One of `B99` to `B1` and `1` to `999`. -/
def legalFloor (s : CString) : Bool :=
  lowestRank ≤ fti s && fti s ≤ highestRank && itf (fti s) == s

theorem decimal_cons_ne_B {n : Nat} {c : Char} {cs : CString} (h : decimal n = c :: cs) :
    c ≠ 'B' := by
  intro hB
  have hc : c.isDigit = true := isDigit_of_mem_decimal (h ▸ List.mem_cons_self)
  rw [hB] at hc
  exact absurd hc (by decide)

theorem fti_decimal (n : Nat) : fti (decimal n) = n := by
  have hatoi := atoi_decimal n
  unfold fti
  split
  · rename_i f hB
    exact absurd rfl (decimal_cons_ne_B hB)
  · exact hatoi

theorem fti_itf (f : Int) : fti (itf f) = f := by
  unfold itf
  by_cases hf : f ≤ 0
  · rw [if_pos hf]
    show 1 - atoi (decimal (1 - f).toNat) = f
    rw [atoi_decimal]
    omega
  · rw [if_neg hf, fti_decimal]
    omega

theorem itf_below (n : Nat) (h : 1 ≤ n) : itf (1 - n) = 'B' :: decimal n := by
  have hn : (1 - (1 - (n : Int))).toNat = n := by omega
  rw [itf, if_pos (by omega), hn]

theorem itf_above (n : Nat) (h : 1 ≤ n) : itf n = decimal n := by
  rw [itf, if_neg (by omega), Int.toNat_natCast]

theorem legalFloor_iff {s : CString} : legalFloor s = true ↔
    lowestRank ≤ fti s ∧ fti s ≤ highestRank ∧ s = itf (fti s) := by
  simp only [legalFloor, Bool.and_eq_true, decide_eq_true_eq, beq_iff_eq]
  constructor
  · rintro ⟨⟨hlow, hhigh⟩, heq⟩
    exact ⟨hlow, hhigh, heq.symm⟩
  · rintro ⟨hlow, hhigh, heq⟩
    exact ⟨⟨hlow, hhigh⟩, heq.symm⟩

example : ∀ s ∈ ["B99", "B1", "1", "999"], legalFloor s.toList = true := by decide

example : ∀ s ∈ ["B0", "B100", "0", "1000", "012", "12x", ""], legalFloor s.toList = false := by
  decide

/-! ## Consistency -/

/-- What the comment of `check_data_inconsistency` calls a data inconsistency: a floor or a
status that is none, a flag that is neither `0` nor `1`, an obstruction of doors that do not
move. -/
def dataInconsistent (m : CarSharedMem) : Bool :=
  !legalFloor m.currentFloor || !legalFloor m.destinationFloor ||
  !([strOpen, strOpening, strClosed, strClosing, strBetween].contains m.status) ||
  [m.openButton, m.closeButton, m.safetySystem, m.doorObstruction, m.overload, m.emergencyStop,
    m.individualServiceMode, m.emergencyMode].any (· > 1) ||
  (m.doorObstruction != 0 && m.status != strOpening && m.status != strClosing)

end Car
end Cab403
