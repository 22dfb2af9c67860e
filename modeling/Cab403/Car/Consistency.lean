import Cab403.Car.Threads
import Cab403.Lib.Regex

/-!
# The safety system's validator

`check_data_inconsistency` as it is written, and what a pass of `safety_ctrl` makes of it.

The validator has two slips, each enough to reject every record. Its pattern is compiled without
`REG_EXTENDED`, so that the `?` in it is a character: it matches no floor name
(`FloorName.not_validFloor`). And its tests of the status compare addresses
(`checkDataInconsistency_addrEq`). `Inconsistent` is what the comments on the record and on the
function ask for; the two agree on the inconsistent records and on no other.

`safety_ctrl` in turn raises the alarm for a record the validator *accepts*.
-/

namespace Cab403
namespace Car

open Lib

/-! ## Floor names -/

/-- `B1` to `B99` and `1` to `999`. -/
def FloorName (s : CString) : Prop :=
  (∃ n, 1 ≤ n ∧ n ≤ 99 ∧ s = 'B' :: decimal n) ∨ ∃ n, 1 ≤ n ∧ n ≤ 999 ∧ s = decimal n

/-- A floor name is what the display writes for an integer in range. -/
theorem legalFloor_iff_floorName {s : CString} : legalFloor s = true ↔ FloorName s := by
  rw [legalFloor_iff]
  constructor
  · intro h
    obtain ⟨hlow, hhigh, hs⟩ := h
    simp only [lowestRank] at hlow
    simp only [highestRank] at hhigh
    generalize fti s = f at hlow hhigh hs
    by_cases hf : f ≤ 0
    · refine .inl ⟨(1 - f).toNat, by omega, by omega, ?_⟩
      rw [hs, itf, if_pos hf]
    · refine .inr ⟨f.toNat, by omega, by omega, ?_⟩
      rw [hs, itf, if_neg hf]
  · intro h
    simp only [lowestRank, highestRank]
    rcases h with ⟨n, hlow, hhigh, rfl⟩ | ⟨n, hlow, hhigh, rfl⟩
    · rw [← itf_below n hlow, fti_itf]
      exact ⟨by omega, by omega, rfl⟩
    · rw [← itf_above n hlow, fti_itf]
      exact ⟨by omega, by omega, rfl⟩

instance (s : CString) : Decidable (FloorName s) := decidable_of_iff _ legalFloor_iff_floorName

/-- The pattern both the validator and the call pad give to `regcomp`. -/
def floorPattern : CString := "^B?[1-9][0-9]*$".toList

/-- `valid_floor` once it is compiled. -/
def validFloor : Regex where
  atStart := true
  pieces := [⟨.char 'B', false⟩, ⟨.char '?', false⟩, ⟨.bracket false [('1', '9')], false⟩,
    ⟨.bracket false [('0', '9')], true⟩]
  atEnd := true

theorem regcomp_floorPattern : regcomp floorPattern = some validFloor := by decide

theorem admits_digit {c : Char} :
    (Atom.bracket false [('0', '9')]).admits c = true ↔ c.isDigit = true := by
  simp [Atom.admits, Char.isDigit, Char.le_def, UInt32.le_iff_toNat_le]

/-- What the pattern stands for: a `B`, a question mark and a number. -/
theorem regexec_validFloor {s : CString} : regexec validFloor s = true ↔
    ∃ d ds, s = 'B' :: '?' :: d :: ds ∧ '1' ≤ d ∧ d ≤ '9' ∧ ∀ c ∈ ds, c.isDigit = true := by
  rw [regexec_iff]
  simp only [validFloor, denotes_cons, Piece.denotes_one, Piece.denotes_star, admits_digit]
  constructor
  · intro h
    obtain ⟨w, u, v, hs, hw, hu, hv⟩ := h
    obtain ⟨_, _, rfl, ⟨b, rfl, hb⟩, _, _, rfl, ⟨q, rfl, hq⟩, _, _, rfl, ⟨d, rfl, hd⟩, ds, _, rfl,
      hds, rfl⟩ := hu
    obtain rfl := hw trivial
    obtain rfl := hv trivial
    obtain rfl : b = 'B' := eq_of_beq hb
    obtain rfl : q = '?' := eq_of_beq hq
    have hrange : '1' ≤ d ∧ d ≤ '9' := by simpa [Atom.admits] using hd
    exact ⟨d, ds, by simpa using hs, hrange.1, hrange.2, hds⟩
  · intro h
    obtain ⟨d, ds, rfl, hlow, hhigh, hds⟩ := h
    refine ⟨[], 'B' :: '?' :: d :: ds, [], by simp, fun _ => rfl, ?_, fun _ => rfl⟩
    refine ⟨['B'], '?' :: d :: ds, rfl, ⟨'B', rfl, rfl⟩, ['?'], d :: ds, rfl, ⟨'?', rfl, rfl⟩,
      [d], ds, rfl, ⟨d, rfl, ?_⟩, ds, [], by simp, hds, rfl⟩
    simpa [Atom.admits] using ⟨hlow, hhigh⟩

/-- **No floor name matches the pattern**: where it has its question mark, a name has a digit. -/
theorem FloorName.not_validFloor {s : CString} (h : FloorName s) :
    regexec validFloor s = false := by
  rw [← Bool.not_eq_true, regexec_validFloor]
  intro hmatch
  obtain ⟨d, ds, hs, _⟩ := hmatch
  rcases h with ⟨n, _, _, rfl⟩ | ⟨n, _, _, rfl⟩
  · have hmem : '?' ∈ decimal n := by
      rw [(List.cons.inj hs).2]
      exact List.mem_cons_self
    exact absurd (isDigit_of_mem_decimal hmem) (by decide)
  · exact decimal_cons_ne_B hs rfl

/-! ## The validator -/

/-- The flags that `check_data_inconsistency` looks at. -/
def CarSharedMem.checkedFlags (m : CarSharedMem) : List UInt8 :=
  [m.openButton, m.closeButton, m.safetySystem, m.doorObstruction, m.overload, m.emergencyStop,
    m.individualServiceMode]

def checkDataInconsistency (eq : Compare) (m : CarSharedMem) : Bool :=
  let invalidFloors := !regexec validFloor m.currentFloor || !regexec validFloor m.destinationFloor
  let invalidStatus := !eq m.status strOpen && !eq m.status strOpening &&
    !eq m.status strClosed && !eq m.status strClosing && !eq m.status strBetween
  let invalidStates := m.checkedFlags.any (· > 1)
  let doorObstruction := m.doorObstruction != 0 &&
    (!eq m.status strOpening || !eq m.status strClosing)
  invalidFloors || invalidStatus || invalidStates || doorObstruction

/-- No array is at the address of a literal: every status is invalid. -/
theorem checkDataInconsistency_addrEq (m : CarSharedMem) :
    checkDataInconsistency addrEq m = true := by
  simp [checkDataInconsistency, addrEq]

/-- Nor would comparing characters help. -/
theorem checkDataInconsistency_of_floorName {m : CarSharedMem} (eq : Compare)
    (h : FloorName m.currentFloor) : checkDataInconsistency eq m = true := by
  simp [checkDataInconsistency, h.not_validFloor]

/-- All eight. -/
def CarSharedMem.flags (m : CarSharedMem) : List UInt8 := m.checkedFlags ++ [m.emergencyMode]

/-- A record that is not as `internal.h` describes it. -/
def Inconsistent (m : CarSharedMem) : Prop :=
  (¬ FloorName m.currentFloor ∨ ¬ FloorName m.destinationFloor) ∨
  m.status ∉ [strOpening, strOpen, strClosing, strClosed, strBetween] ∨
  (∃ flag ∈ m.flags, flag > 1) ∨
  (m.doorObstruction ≠ 0 ∧ m.status ≠ strOpening ∧ m.status ≠ strClosing)

/-- The same in the terms of the record's own check. -/
theorem inconsistent_iff {m : CarSharedMem} : Inconsistent m ↔ dataInconsistent m = true := by
  have hstatus : m.status ∉ [strOpening, strOpen, strClosing, strClosed, strBetween] ↔
      [strOpen, strOpening, strClosed, strClosing, strBetween].contains m.status = false := by
    simp [List.contains_eq_mem]
    grind
  simp only [Inconsistent, hstatus, ← legalFloor_iff_floorName, dataInconsistent,
    CarSharedMem.flags, CarSharedMem.checkedFlags, List.cons_append, List.nil_append,
    Bool.or_eq_true, Bool.not_eq_true', List.any_eq_true, Bool.and_eq_true, bne_iff_ne,
    decide_eq_true_eq, Bool.not_eq_true, or_assoc, and_assoc]

instance (m : CarSharedMem) : Decidable (Inconsistent m) := decidable_of_iff' _ inconsistent_iff

/-- **The validator finds every inconsistency and no consistent record**: it answers rightly on
the inconsistent records, and on those alone. -/
theorem validates_iff (m : CarSharedMem) :
    (checkDataInconsistency addrEq m = true ↔ Inconsistent m) ↔ Inconsistent m := by
  rw [checkDataInconsistency_addrEq]
  constructor
  · intro h
    exact h.mp rfl
  · intro h
    exact ⟨fun _ => h, fun _ => rfl⟩

/-- A car that waits on floor `1`, to go to floor `2`. -/
def waiting : CarSharedMem where
  currentFloor := "1".toList
  destinationFloor := "2".toList
  status := strClosed
  openButton := 0
  closeButton := 0
  safetySystem := 1
  doorObstruction := 0
  overload := 0
  emergencyStop := 0
  individualServiceMode := 0
  emergencyMode := 0

theorem not_validates_waiting :
    ¬ (checkDataInconsistency addrEq waiting = true ↔ Inconsistent waiting) := by
  intro h
  exact absurd (h.mp (checkDataInconsistency_addrEq waiting)) (by decide)

/-! ## A pass with it -/

/-- The record when `safety_ctrl` comes to its last test. -/
def atLastTest (eq : Compare) (m : CarSharedMem) : CarSharedMem :=
  onlyIf overloadTest alarmed <| onlyIf stopTest stopped <|
    onlyIf (obstructedTest eq) reopened <| onlyIf disengagedTest engaged m

/-- What a pass should do, `bad` being the validator's answer at the last test. -/
def SafetyLaw (bad : Bool) (m m' : CarSharedMem) : Prop :=
  m' = { m with
    safetySystem := 1
    status := if m.doorObstruction ≠ 0 ∧ m.status = strClosing then strOpening else m.status
    emergencyStop := if m.emergencyStop ≠ 0 ∧ m.emergencyMode = 0 then 0 else m.emergencyStop
    emergencyMode :=
      if m.emergencyMode = 0 ∧ (m.emergencyStop ≠ 0 ∨ m.overload ≠ 0 ∨ bad = true) then 1
      else m.emergencyMode }

theorem mem_exec_safetyBody (eq : Compare) (check : CarSharedMem → Bool) (m : CarSharedMem) :
    ((safetyBody eq check).exec m).map Outcome.mem = some (safetyPass eq check m) := by
  have halarm : ∀ (text : String) (k : Program) (m : CarSharedMem),
      ((Code.print text (.store alarmed (.signal () k))).exec m).map Outcome.mem =
        (k.exec (alarmed m)).map Outcome.mem :=
    fun text k m => Code.mem_exec_print
  unfold safetyBody
  rw [Code.mem_exec_branch fun k => rfl, Code.mem_exec_branch fun k => rfl,
    Code.mem_exec_branch (f := stopped) fun k => Code.mem_exec_print,
    Code.mem_exec_branch fun k => halarm _ k _, Code.mem_exec_branch fun k => halarm _ k _]
  unfold safetyPass
  generalize onlyIf (inconsistentTest check) alarmed _ = left
  rfl

/-- Run alone, `safety_ctrl` does one pass. -/
theorem exec_safetyCtrl (eq : Compare) (check : CarSharedMem → Bool) {m : CarSharedMem}
    (hexit : quiet check m = false) :
    ((safetyCtrl eq check).exec m).map Outcome.mem = some (safetyPass eq check m) := by
  have hloop : (safetyCtrl eq check).exec m = (safetyBody eq check).exec m :=
    if_neg (Bool.eq_false_iff.mp hexit)
  rw [hloop]
  exact mem_exec_safetyBody eq check m

theorem atLastTest_of_calm {m : CarSharedMem} (eq : Compare) (hstop : m.emergencyStop = 0)
    (hover : m.overload = 0) : atLastTest eq m = attend eq m := by
  have hs : stopTest (attend eq m) = false := by simp [stopTest, attend, hstop]
  have ho : overloadTest (attend eq m) = false := by simp [overloadTest, attend, hover]
  rw [atLastTest, attend_eq, onlyIf_neg hs, onlyIf_neg ho]

/-- Comparing addresses, a pass never finds the doors closing. -/
theorem attend_addrEq (m : CarSharedMem) : attend addrEq m = engaged m := by
  simp [attend, engaged, obstructedTest, addrEq]

/-- **When a pass keeps the law.** It never reopens the doors, and its last test is the wrong way
round: whatever the validator, that leaves the records without such an obstruction for which
something else decides the emergency mode. -/
theorem safetyPass_law_iff (check : CarSharedMem → Bool) (m : CarSharedMem) :
    SafetyLaw (check (atLastTest addrEq m)) m (safetyPass addrEq check m) ↔
      ¬ (m.doorObstruction ≠ 0 ∧ m.status = strClosing) ∧
        (m.emergencyMode ≠ 0 ∨ m.emergencyStop ≠ 0 ∨ m.overload ≠ 0) := by
  have hstop : (if stopTest m then 0 else m.emergencyStop) =
      if m.emergencyStop ≠ 0 ∧ m.emergencyMode = 0 then 0 else m.emergencyStop := by
    simp [stopTest]
  have hstatus : (m.status = if m.doorObstruction ≠ 0 ∧ m.status = strClosing then strOpening
      else m.status) ↔ ¬ (m.doorObstruction ≠ 0 ∧ m.status = strClosing) := by
    by_cases h : m.doorObstruction ≠ 0 ∧ m.status = strClosing
    · rw [if_pos h, h.2]
      exact ⟨fun heq => absurd heq (by decide), fun hno => absurd ⟨h.1, rfl⟩ hno⟩
    · rw [if_neg h]
      exact ⟨fun _ => h, fun _ => rfl⟩
  have hmode : ((if m.emergencyMode == 0 && emergency check (engaged m) then 1
        else m.emergencyMode) =
      if m.emergencyMode = 0 ∧
        (m.emergencyStop ≠ 0 ∨ m.overload ≠ 0 ∨ check (atLastTest addrEq m) = true) then 1
      else m.emergencyMode) ↔
      (m.emergencyMode ≠ 0 ∨ m.emergencyStop ≠ 0 ∨ m.overload ≠ 0) := by
    by_cases hon : m.emergencyMode = 0
    · by_cases hes : m.emergencyStop = 0
      · by_cases hov : m.overload = 0
        · -- nothing but the validator decides, and it is asked the wrong way round
          have hemergency : emergency check (engaged m) = !check (engaged m) := by
            show (m.emergencyStop != 0 || m.overload != 0 || !check (engaged m)) = _
            rw [hes, hov]
            rfl
          rw [atLastTest_of_calm addrEq hes hov, attend_addrEq, hemergency]
          cases check (engaged m) <;> simp [hon, hes, hov]
        · simp [emergency, engaged, hon, hov]
      · simp [emergency, engaged, hon, hes]
    · simp [hon]
  rw [SafetyLaw, safetyPass_eq, attend_addrEq, hstop]
  simp only [engaged, CarSharedMem.mk.injEq, true_and]
  exact and_congr hstatus hmode

/-- **What a run of `safety_ctrl` leaves is what the hazards call for**, with the code's own
validator and comparisons, on the records that name an alarm of their own and no closing door
with an obstruction. -/
theorem safetyCtrl_law_iff {m : CarSharedMem}
    (hexit : quiet (checkDataInconsistency addrEq) m = false) :
    (∃ o, (safetyCtrl addrEq (checkDataInconsistency addrEq)).exec m = some o ∧
      SafetyLaw (checkDataInconsistency addrEq (atLastTest addrEq m)) m o.mem) ↔
    ¬ (m.doorObstruction ≠ 0 ∧ m.status = strClosing) ∧
      (m.emergencyMode ≠ 0 ∨ m.emergencyStop ≠ 0 ∨ m.overload ≠ 0) := by
  rw [← safetyPass_law_iff (checkDataInconsistency addrEq)]
  obtain ⟨o, hexec, hpass⟩ := Option.map_eq_some_iff.mp (exec_safetyCtrl addrEq _ hexit)
  rw [← hpass]
  constructor
  · intro h
    obtain ⟨o', hexec', hlaw⟩ := h
    obtain rfl : o = o' := Option.some.inj (hexec.symm.trans hexec')
    exact hlaw
  · intro h
    exact ⟨o, hexec, h⟩

/-- The stop button of a car that waits. -/
theorem safetyCtrl_law_iff_stopped :
    ∃ o, (safetyCtrl addrEq (checkDataInconsistency addrEq)).exec
        { waiting with emergencyStop := 1 } = some o ∧
      SafetyLaw (checkDataInconsistency addrEq
          (atLastTest addrEq { waiting with emergencyStop := 1 }))
        { waiting with emergencyStop := 1 } o.mem :=
  (safetyCtrl_law_iff (by decide)).mpr (by decide)

/-- Nothing is wrong with it but what the validator finds, and no alarm is raised. -/
theorem not_safetyCtrl_law_waiting :
    quiet (checkDataInconsistency addrEq) waiting = false ∧
    ¬ ∃ o, (safetyCtrl addrEq (checkDataInconsistency addrEq)).exec waiting = some o ∧
      SafetyLaw (checkDataInconsistency addrEq (atLastTest addrEq waiting)) waiting o.mem := by
  have hexit : quiet (checkDataInconsistency addrEq) waiting = false := by decide
  refine ⟨hexit, ?_⟩
  intro h
  obtain ⟨o, hexec, hlaw⟩ := h
  obtain ⟨o', hexec', hpass⟩ := Option.map_eq_some_iff.mp (exec_safetyCtrl addrEq _ hexit)
  obtain rfl : o' = o := Option.some.inj (hexec'.symm.trans hexec)
  rw [hpass] at hlaw
  exact absurd ((safetyPass_law_iff _ _).mp hlaw) (by decide)

end Car
end Cab403
