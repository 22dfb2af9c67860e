import Cab403.Car.Consistency

/-!
# The call pad

`call.c` from its arguments to where it connects to the controller. It is given two floors, and
is to go on with two different ones that exist.

It never finds the two the same, because it compares the addresses of the arguments. The pattern
it gives to `regcomp` is the safety system's, and with the same flags: of three characters or
fewer it matches `B?1` to `B?9`, which are no floors, and nothing else.
-/

namespace Cab403
namespace Call

open Lib Car

/-- `char floor_src[4]`: floor names are at most three characters. -/
def longestFloor : Nat := 3

/-- `main`: the message it fails with, or the two floors it connects with. `eq` is how the
arguments are compared. -/
def call (eq : Compare) (argv : List CString) : Except String (CString × CString) :=
  match argv with
  | [_, src, dst] =>
    if eq src dst then .error "\nYou are already on that floor!\n"
    else if src.length > longestFloor || !regexec validFloor src ||
        dst.length > longestFloor || !regexec validFloor dst then
      .error "\nInvalid floor(s) specified.\n"
    else .ok (src, dst)
  | _ => .error "\nUsage: ./call \x7bsource floor\x7d \x7bdestination floor\x7d\n"

/-- Past validation, with the arguments as they were given. -/
def Connects (program a b : CString) : Prop := call addrEq [program, a, b] = .ok (a, b)

/-- `B?1` to `B?9` -/
def QuestionFloor (s : CString) : Prop := ∃ d, '1' ≤ d ∧ d ≤ '9' ∧ s = ['B', '?', d]

theorem short_validFloor_iff {s : CString} :
    s.length ≤ longestFloor ∧ regexec validFloor s = true ↔ QuestionFloor s := by
  rw [regexec_validFloor]
  constructor
  · intro h
    obtain ⟨hshort, d, ds, rfl, hlow, hhigh, _⟩ := h
    have hnil : ds = [] := by
      cases ds with
      | nil => rfl
      | cons c cs =>
        simp only [longestFloor, List.length_cons] at hshort
        omega
    exact ⟨d, hlow, hhigh, by rw [hnil]⟩
  · intro h
    obtain ⟨d, hlow, hhigh, rfl⟩ := h
    exact ⟨by simp [longestFloor], d, [], rfl, hlow, hhigh, by simp⟩

theorem QuestionFloor.not_floorName {s : CString} (h : QuestionFloor s) : ¬ FloorName s := by
  intro hname
  have hmatch := (short_validFloor_iff.mpr h).2
  rw [hname.not_validFloor] at hmatch
  cases hmatch

/-- What the call pad connects with. -/
theorem connects_iff {program a b : CString} :
    Connects program a b ↔ QuestionFloor a ∧ QuestionFloor b := by
  rw [← short_validFloor_iff, ← short_validFloor_iff]
  unfold Connects call addrEq
  simp only [Bool.false_eq_true, if_false]
  split
  · rename_i hrefused
    simp only [Bool.or_eq_true, decide_eq_true_eq, Bool.not_eq_true'] at hrefused
    simp only [reduceCtorEq, false_iff]
    grind
  · rename_i haccepted
    simp only [Bool.or_eq_true, decide_eq_true_eq, Bool.not_eq_true', not_or] at haccepted
    simp only [true_iff]
    grind

/-- **When the call pad connects with the right floors and no others**: on the arguments it
should refuse, unless it takes both for floors. -/
theorem connects_floors_iff (program a b : CString) :
    (Connects program a b ↔ a ≠ b ∧ FloorName a ∧ FloorName b) ↔
      ¬ (QuestionFloor a ∧ QuestionFloor b) ∧ (a = b ∨ ¬ FloorName a ∨ ¬ FloorName b) := by
  rw [connects_iff]
  constructor
  · intro h
    have hnone : ¬ (QuestionFloor a ∧ QuestionFloor b) :=
      fun hq => hq.1.not_floorName (h.mp hq).2.1
    refine ⟨hnone, ?_⟩
    by_contra hfloors
    push Not at hfloors
    exact hnone (h.mpr hfloors)
  · intro h
    obtain ⟨hnone, hbad⟩ := h
    constructor
    · intro hq
      exact absurd hq hnone
    · intro hfloors
      rcases hbad with hsame | ha | hb
      · exact absurd hsame hfloors.1
      · exact absurd hfloors.2.1 ha
      · exact absurd hfloors.2.2 hb

/-- From floor `3` to floor `5`. -/
theorem not_connects_floors :
    ¬ (Connects "./call".toList "3".toList "5".toList ↔
      "3".toList ≠ "5".toList ∧ FloorName "3".toList ∧ FloorName "5".toList) := by
  intro h
  have hconnects := h.mpr (by decide)
  unfold Connects at hconnects
  exact absurd hconnects (by decide)

end Call
end Cab403
