import Cab403.Car.Ladder
import Cab403.Lib.Ghost

/-!
# The strings `up` and `down` build

The branch of `up` and `down` once more, from the level it has read on, with a history of the
strings that `sprintf`, `strcpy` and `strcat` build in it. Without the history it is `moveFrom`
(`moveFromLogged_over`); before that it builds none.

Both arrays have four bytes. A level is at most `255`, so `next_floor` always holds one. The
destination of a basement floor gets a `B` before it, and has room for two digits: `down` tests
for more than that, but the test `up` makes is for `999`, which no level exceeds. So what
overflows is a request to go up from a `B` whose number is not positive: below `B1` the level
wraps around to `255`. Such a floor is no legal one; but `B0` is what `up` itself writes from
`B1`.
-/

namespace Cab403
namespace Car

open Lib

/-! ## The branch, string by string -/

/-- A string that has just been built, and the record as it is then. -/
structure Build where
  text : CString
  after : CarSharedMem
  deriving DecidableEq, Repr

structure Logged where
  data : CarSharedMem
  built : List Build

/-- `sprintf(next_floor, "%u", next_lvl)` -/
def Logged.sprintf (s : CString) (f : Logged) : Logged :=
  { f with built := f.built ++ [⟨s, f.data⟩] }

/-- `strcpy(car->data->destination_floor, s)` -/
def Logged.strcpy (s : CString) (f : Logged) : Logged :=
  ⟨f.data.storeDestination s, f.built ++ [⟨s, f.data.storeDestination s⟩]⟩

/-- `strcat(car->data->destination_floor, s)` -/
def Logged.strcat (s : CString) (f : Logged) : Logged :=
  f.strcpy (f.data.destinationFloor ++ s)

abbrev LoggedProgram := Code Unit Logged

def refuseLogged (message : String) : LoggedProgram := .print message (.exit false)

def copyLocked (s : CString) (next : LoggedProgram) : LoggedProgram :=
  .lock (.store (·.strcpy s) (.signal () (.unlock next)))

def writeNextFloorLogged (B : Bool) (nextLvl : UInt8) : LoggedProgram :=
  let nextFloor := decimal nextLvl.toNat
  .store (·.sprintf nextFloor) <|
  if B then
    .lock (.store (·.strcpy "B".toList)
      (.store (·.strcat nextFloor) (.signal () (.unlock (.exit true)))))
  else copyLocked nextFloor (.exit true)

def moveFromLogged (eq : Compare) (operation : CString) (B : Bool) (lvl : UInt8) :
    LoggedProgram :=
  if eq operation "up".toList then
    let nextLvl := if B then lvl - 1 else lvl + 1
    if nextLvl = 0 then copyLocked "1".toList (writeNextFloorLogged B nextLvl)
    else if nextLvl.toNat > 999 then refuseLogged "\nCar cannot rise above highest floor.\n"
    else writeNextFloorLogged B nextLvl
  else if eq operation "down".toList then
    let nextLvl := if B then lvl + 1 else lvl - 1
    if nextLvl = 0 then copyLocked "B1".toList (writeNextFloorLogged B nextLvl)
    else if nextLvl.toNat > 99 then refuseLogged "\nCar cannot fall below lowest floor.\n"
    else writeNextFloorLogged B nextLvl
  else writeNextFloorLogged B lvl

/-! ## It is the same branch -/

theorem refuseLogged_over (message : String) :
    (refuseLogged message).Over Logged.data (refuse message) :=
  .print (.exit false)

theorem copyLocked_over {s : CString} {c : LoggedProgram} {d : Program}
    (hnext : c.Over Logged.data d) :
    (copyLocked s c).Over Logged.data (writeLocked (·.storeDestination s) d) :=
  .lock (.store (fun _ => rfl) (.signal (.unlock hnext)))

theorem writeNextFloorLogged_over (B : Bool) (nextLvl : UInt8) :
    (writeNextFloorLogged B nextLvl).Over Logged.data (writeNextFloor B nextLvl) := by
  refine .silent (fun _ => rfl) ?_
  cases B with
  | false => exact copyLocked_over (.exit true)
  | true =>
    refine .lock (.store (fun _ => rfl) (.store (fun _ => rfl) ?_))
    exact .signal (.unlock (.exit true))

theorem moveFromLogged_over (eq : Compare) (operation : CString) (B : Bool) (lvl : UInt8) :
    (moveFromLogged eq operation B lvl).Over Logged.data (moveFrom eq operation B lvl) := by
  have hwrite := writeNextFloorLogged_over B
  refine .ite ?_ (.ite ?_ (hwrite _))
  · exact .ite (copyLocked_over (hwrite _)) (.ite (refuseLogged_over _) (hwrite _))
  · exact .ite (copyLocked_over (hwrite _)) (.ite (refuseLogged_over _) (hwrite _))

/-! ## What fits -/

/-- Nothing but the destination has changed. -/
def OnlyDestination (m m' : CarSharedMem) : Prop :=
  m' = { m with destinationFloor := m'.destinationFloor }

/-- **In bounds**: every string built has at most three characters, and each time the rest of the
record is as it was. -/
def InBounds (m : CarSharedMem) (f : Logged) : Prop :=
  ∀ b ∈ f.built, b.text.length ≤ 3 ∧ OnlyDestination m b.after

/-- In bounds, and the record still is what the next string will be built in. -/
structure Intact (m : CarSharedMem) (f : Logged) : Prop where
  bounds : InBounds m f
  data : OnlyDestination m f.data

theorem intact_start (m : CarSharedMem) : Intact m ⟨m, []⟩ := by
  refine ⟨?_, rfl⟩
  intro b hb
  cases hb

theorem OnlyDestination.store {m m' : CarSharedMem} (h : OnlyDestination m m') {s : CString}
    (hs : s.length ≤ 3) : OnlyDestination m (m'.storeDestination s) := by
  have hfits : s.length < floorBytes := Nat.lt_succ_of_le hs
  unfold OnlyDestination at h ⊢
  rw [h]
  simp only [CarSharedMem.storeDestination, if_pos hfits]

theorem Intact.sprintf {m : CarSharedMem} {f : Logged} (h : Intact m f) {s : CString}
    (hs : s.length ≤ 3) : Intact m (f.sprintf s) := by
  refine ⟨?_, h.data⟩
  intro b hb
  rcases List.mem_append.mp hb with hold | hnew
  · exact h.bounds b hold
  · obtain rfl := List.mem_singleton.mp hnew
    exact ⟨hs, h.data⟩

theorem Intact.strcpy {m : CarSharedMem} {f : Logged} (h : Intact m f) {s : CString}
    (hs : s.length ≤ 3) : Intact m (f.strcpy s) := by
  refine ⟨?_, h.data.store hs⟩
  intro b hb
  rcases List.mem_append.mp hb with hold | hnew
  · exact h.bounds b hold
  · obtain rfl := List.mem_singleton.mp hnew
    exact ⟨hs, h.data.store hs⟩

/-- A copy is in bounds exactly if its string is short enough. -/
theorem Intact.inBounds_strcpy {m : CarSharedMem} {f : Logged} (h : Intact m f) {s : CString} :
    InBounds m (f.strcpy s) ↔ s.length ≤ 3 := by
  constructor
  · intro hbounds
    exact (hbounds ⟨s, f.data.storeDestination s⟩ (by simp [Logged.strcpy])).1
  · intro hs
    exact (h.strcpy hs).bounds

theorem length_decimal_level (lvl : UInt8) : (decimal lvl.toNat).length ≤ 3 := by
  rw [length_decimal_le (by decide)]
  have := lvl.toNat_lt
  omega

/-! ## The writes -/

/-- `next_floor` always fits; the destination does unless a third digit follows a `B`. -/
theorem exec_writeNextFloorLogged {m : CarSharedMem} {f : Logged} (h : Intact m f) (B : Bool)
    (lvl : UInt8) : ∃ o, (writeNextFloorLogged B lvl).exec f = some o ∧
      (InBounds m o.mem ↔ (B = true → lvl.toNat ≤ 99)) := by
  have hnext := h.sprintf (length_decimal_level lvl)
  cases B with
  | false =>
    refine ⟨_, rfl, ?_⟩
    show InBounds m ((f.sprintf (decimal lvl.toNat)).strcpy (decimal lvl.toNat)) ↔ _
    rw [hnext.inBounds_strcpy]
    exact ⟨fun _ => nofun, fun _ => length_decimal_level lvl⟩
  | true =>
    have hB := hnext.strcpy (s := "B".toList) (by decide)
    refine ⟨_, rfl, ?_⟩
    show InBounds m (((f.sprintf (decimal lvl.toNat)).strcpy "B".toList).strcpy
      ('B' :: decimal lvl.toNat)) ↔ _
    rw [hB.inBounds_strcpy, List.length_cons, Nat.succ_le_succ_iff, length_decimal_le (by decide)]
    constructor
    · intro hlt _
      exact Nat.le_of_lt_succ hlt
    · intro hle
      exact Nat.lt_succ_of_le (hle rfl)

/-- The write of a boundary floor before it changes nothing about that. -/
theorem exec_copyLocked {m : CarSharedMem} {f : Logged} (h : Intact m f) {s : CString}
    (hs : s.length ≤ 3) (B : Bool) (lvl : UInt8) :
    ∃ o, (copyLocked s (writeNextFloorLogged B lvl)).exec f = some o ∧
      (InBounds m o.mem ↔ (B = true → lvl.toNat ≤ 99)) :=
  exec_writeNextFloorLogged (h.strcpy hs) B lvl

theorem exec_moveFromLogged_up (m : CarSharedMem) (B : Bool) (lvl : UInt8) :
    ∃ o, (moveFromLogged strEq Direction.up.operation B lvl).exec ⟨m, []⟩ = some o ∧
      (InBounds m o.mem ↔ (B = true → (lvl - 1).toNat ≤ 99)) := by
  have hstart := intact_start m
  generalize hnext : (if B then lvl - 1 else lvl + 1) = next
  have hmove : moveFromLogged strEq Direction.up.operation B lvl =
      if next = 0 then copyLocked "1".toList (writeNextFloorLogged B next)
      else if next.toNat > 999 then refuseLogged "\nCar cannot rise above highest floor.\n"
      else writeNextFloorLogged B next := by
    rw [← hnext]
    rfl
  have hlevel : (B = true → (lvl - 1).toNat ≤ 99) ↔ (B = true → next.toNat ≤ 99) := by
    rw [← hnext]
    cases B with
    | false => exact ⟨fun _ => nofun, fun _ => nofun⟩
    | true => exact Iff.rfl
  have hsmall : ¬ next.toNat > 999 := by
    have := next.toNat_lt
    omega
  rw [hmove, if_neg hsmall, hlevel]
  by_cases h0 : next = 0
  · rw [if_pos h0]
    exact exec_copyLocked hstart (by decide) B next
  · rw [if_neg h0]
    exact exec_writeNextFloorLogged hstart B next

/-- `down` tests for a third digit. -/
theorem exec_moveFromLogged_down (m : CarSharedMem) (B : Bool) (lvl : UInt8) :
    ∃ o, (moveFromLogged strEq Direction.down.operation B lvl).exec ⟨m, []⟩ = some o ∧
      InBounds m o.mem := by
  have hstart := intact_start m
  generalize hnext : (if B then lvl + 1 else lvl - 1) = next
  have hmove : moveFromLogged strEq Direction.down.operation B lvl =
      if next = 0 then copyLocked "B1".toList (writeNextFloorLogged B next)
      else if next.toNat > 99 then refuseLogged "\nCar cannot fall below lowest floor.\n"
      else writeNextFloorLogged B next := by
    rw [← hnext]
    rfl
  rw [hmove]
  by_cases h0 : next = 0
  · obtain ⟨o, hexec, hiff⟩ := exec_copyLocked hstart (s := "B1".toList) (by decide) B next
    refine ⟨o, by rw [if_pos h0, hexec], hiff.mpr fun _ => ?_⟩
    rw [h0]
    decide
  · rw [if_neg h0]
    by_cases hlow : next.toNat > 99
    · rw [if_pos hlow]
      exact ⟨_, rfl, hstart.bounds⟩
    · obtain ⟨o, hexec, hiff⟩ := exec_writeNextFloorLogged hstart B next
      exact ⟨o, by rw [if_neg hlow, hexec], hiff.mpr fun _ => Nat.le_of_not_lt hlow⟩

/-! ## The level below a basement -/

/-- Two characters hold at most `99`, and no less than `-9`: one up from there is a number of two
digits only from `1` on. -/
theorem level_above_le {s : CString} (h : s.length ≤ 2) :
    (UInt8.ofInt (atoi s) - 1).toNat ≤ 99 ↔ 0 < atoi s := by
  have hbounds := atoi_bounds h
  have hlevel := toNat_ofInt (atoi s)
  have hone : (1 : UInt8).toNat = 1 := rfl
  generalize UInt8.ofInt (atoi s) = lvl at hlevel
  rw [UInt8.toNat_sub, hone]
  simp only [Nat.reduceAdd, Nat.reducePow] at hbounds
  omega

/-- **A request stays in bounds** unless it is one up from a floor that begins with a `B` and no
positive number after it. -/
theorem inBounds_iff {m : CarSharedMem} (hfloor : m.currentFloor.length ≤ 3)
    (hmode : m.individualServiceMode = 1) (hstatus : m.status = strClosed) (d : Direction) :
    ∃ o, (moveFromLogged strEq d.operation (m.currentFloor.head? == some 'B')
        (readLevel (m.currentFloor.head? == some 'B') m)).exec ⟨m, []⟩ = some o ∧
      (internal strEq d.operation).exec m = some (o.part Logged.data) ∧
      (InBounds m o.mem ↔
        ¬ (d = .up ∧ m.currentFloor.head? = some 'B' ∧ atoi (m.currentFloor.drop 1) ≤ 0)) := by
  have herase : ∀ {B lvl o},
      (moveFromLogged strEq d.operation B lvl).exec ⟨m, []⟩ = some o →
      (moveFrom strEq d.operation B lvl).exec m = some (o.part Logged.data) := by
    intro B lvl o hexec
    have hover := (moveFromLogged_over strEq d.operation B lvl).exec ⟨m, []⟩
    rw [hexec] at hover
    exact hover
  rw [exec_internal hmode hstatus]
  cases d with
  | up =>
    obtain ⟨o, hexec, hiff⟩ := exec_moveFromLogged_up m (m.currentFloor.head? == some 'B')
      (readLevel (m.currentFloor.head? == some 'B') m)
    refine ⟨o, hexec, herase hexec, ?_⟩
    rw [hiff]
    by_cases hB : m.currentFloor.head? = some 'B'
    · have hdrop : (m.currentFloor.drop 1).length ≤ 2 := by
        rw [List.length_drop]
        omega
      have hlevel := level_above_le hdrop
      simp only [hB, beq_self_eq_true, readLevel, if_true, true_imp_iff, true_and, Int.not_le]
      exact hlevel
    · have hfalse : (m.currentFloor.head? == some 'B') = false := by simpa using hB
      simp [hB, hfalse]
  | down =>
    obtain ⟨o, hexec, hbounds⟩ := exec_moveFromLogged_down m (m.currentFloor.head? == some 'B')
      (readLevel (m.currentFloor.head? == some 'B') m)
    refine ⟨o, hexec, herase hexec, ?_⟩
    simp [hbounds]

/-- Up from `B2`. -/
theorem inBounds_iff_B2 :
    ∃ o, (moveFromLogged strEq Direction.up.operation true
        (readLevel true (inService "B2".toList))).exec ⟨inService "B2".toList, []⟩ = some o ∧
      (internal strEq Direction.up.operation).exec (inService "B2".toList) =
        some (o.part Logged.data) ∧
      (InBounds (inService "B2".toList) o.mem ↔
        ¬ (Direction.up = .up ∧ some 'B' = some 'B' ∧ atoi "2".toList ≤ 0)) :=
  inBounds_iff (m := inService "B2".toList) (by decide) rfl rfl .up

/-- From `B1` a request to go up leads to `B0`. From there the next builds `B255`, whose NUL ends
the status before its first character. -/
theorem not_inBounds_B0 :
    (∃ o, (internal strEq Direction.up.operation).exec (inService "B1".toList) = some o ∧
      o.mem.destinationFloor = "B0".toList) ∧
    ((inService "B0".toList).currentFloor.length ≤ 3 ∧
      (inService "B0".toList).individualServiceMode = 1 ∧
      (inService "B0".toList).status = strClosed) ∧
    ∃ o, (moveFromLogged strEq Direction.up.operation true
        (readLevel true (inService "B0".toList))).exec ⟨inService "B0".toList, []⟩ = some o ∧
      ¬ InBounds (inService "B0".toList) o.mem ∧ o.mem.data.status = [] := by
  refine ⟨⟨_, rfl, by decide⟩, ⟨by decide, rfl, rfl⟩, ⟨_, rfl, ?_, by decide⟩⟩
  intro hbounds
  have hlast := hbounds ⟨"B255".toList, (inService "B0".toList).storeDestination "B255".toList⟩
  exact absurd (hlast (by decide)).1 (by decide)

end Car
end Cab403
