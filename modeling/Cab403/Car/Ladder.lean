import Cab403.Car.Internal

/-!
# The ladder of floors

The floors of a car form a ladder, `B99` at its foot and `999` at its top, and `fti` numbers the
rungs from `-98` to `999`. In service mode `up` and `down` are to climb it: one rung at a time,
and off neither end. They do so on part of it. The level is a `uint8_t`, so above `254` it wraps
around; a floor below the test for the lowest basement is refused from `101` down; and at the
step between `B1` and `1`, in either direction, the write that ends both branches overwrites the
boundary floor that was written just before.
-/

namespace Cab403
namespace Car

open Lib

/-! ## One request -/

inductive Direction where
  | up
  | down
  deriving DecidableEq, Repr

def Direction.operation : Direction → CString
  | .up => "up".toList
  | .down => "down".toList

/-- The end of the ladder a direction leads to. -/
def Direction.last : Direction → Int
  | .up => highestRank
  | .down => lowestRank

/-- The next rung. -/
def Direction.next (d : Direction) (rank : Int) : Int :=
  match d with
  | .up => rank + 1
  | .down => rank - 1

/-- What a request is to do: name the next floor, or fail at the end of the ladder. -/
def Climbs (d : Direction) (m : CarSharedMem) (o : Outcome CarSharedMem) : Prop :=
  if fti m.currentFloor = d.last then o.ok = false ∧ o.mem = m
  else o.ok = true ∧ o.mem.destinationFloor = itf (d.next (fti m.currentFloor))

/-- Where a request does that. -/
def Direction.served (d : Direction) (rank : Int) : Prop :=
  match d with
  | .up => rank ≤ -1 ∨ 1 ≤ rank ∧ rank ≤ 254
  | .down => rank ≤ 0 ∨ 2 ≤ rank ∧ rank ≤ 100

/-! ## What the code computes -/

/-- The text of a level. -/
def levelText (B : Bool) (lvl : UInt8) : CString :=
  if B then 'B' :: decimal lvl.toNat else decimal lvl.toNat

theorem storeDestination_twice {s : CString} (hs : s.length < floorBytes) (t : CString)
    (m : CarSharedMem) : (m.storeDestination s).storeDestination t = m.storeDestination t := by
  simp only [CarSharedMem.storeDestination, if_pos hs]

theorem exec_writeNextFloor (B : Bool) (lvl : UInt8) (m : CarSharedMem) :
    (writeNextFloor B lvl).exec m = some ⟨true, m.storeDestination (levelText B lvl), []⟩ := by
  cases B with
  | false => rfl
  | true =>
    show some (Outcome.mk true ((m.storeDestination "B".toList).storeDestination
      (levelText true lvl)) []) = _
    rw [storeDestination_twice (by decide)]

/-- Every level the test for the highest floor is made of passes it. -/
theorem exec_moveFrom_up (B : Bool) (lvl : UInt8) (m : CarSharedMem) :
    (moveFrom strEq Direction.up.operation B lvl).exec m =
      some ⟨true, m.storeDestination (levelText B (if B then lvl - 1 else lvl + 1)), []⟩ := by
  generalize hnext : (if B then lvl - 1 else lvl + 1) = next
  have hmove : moveFrom strEq Direction.up.operation B lvl =
      if next = 0 then writeLocked (·.storeDestination "1".toList) (writeNextFloor B next)
      else if next.toNat > 999 then refuse "\nCar cannot rise above highest floor.\n"
      else writeNextFloor B next := by
    rw [← hnext]
    rfl
  have hsmall : ¬ next.toNat > 999 := by
    have := next.toNat_lt
    omega
  rw [hmove, if_neg hsmall]
  by_cases h0 : next = 0
  · rw [if_pos h0]
    show (writeNextFloor B next).exec _ = _
    rw [exec_writeNextFloor, storeDestination_twice (by decide)]
  · rw [if_neg h0, exec_writeNextFloor]

theorem exec_moveFrom_down (B : Bool) (lvl : UInt8) (m : CarSharedMem) :
    (moveFrom strEq Direction.down.operation B lvl).exec m =
      if (if B then lvl + 1 else lvl - 1).toNat > 99 then
        some ⟨false, m, ["\nCar cannot fall below lowest floor.\n"]⟩
      else some ⟨true, m.storeDestination (levelText B (if B then lvl + 1 else lvl - 1)), []⟩ := by
  generalize hnext : (if B then lvl + 1 else lvl - 1) = next
  have hmove : moveFrom strEq Direction.down.operation B lvl =
      if next = 0 then writeLocked (·.storeDestination "B1".toList) (writeNextFloor B next)
      else if next.toNat > 99 then refuse "\nCar cannot fall below lowest floor.\n"
      else writeNextFloor B next := by
    rw [← hnext]
    rfl
  rw [hmove]
  by_cases h0 : next = 0
  · rw [if_pos h0, if_neg (by rw [h0]; decide)]
    show (writeNextFloor B next).exec _ = _
    rw [exec_writeNextFloor, storeDestination_twice (by decide)]
  · rw [if_neg h0]
    by_cases hlow : next.toNat > 99
    · rw [if_pos hlow, if_pos hlow]
      rfl
    · rw [if_neg hlow, if_neg hlow, exec_writeNextFloor]

theorem exec_refuseAt {str : CString} {next : Program} {m : CarSharedMem} {text : String}
    (h : m.status ≠ str) : (refuseAt strEq str text next).exec m = next.exec m := by
  have hne : ¬ strEq m.status str = true := fun heq => h (beq_iff_eq.mp heq)
  simp only [refuseAt, Code.exec, if_neg hne]

/-- In service mode with the doors closed nothing is refused before the floor is read. -/
theorem exec_internal {m : CarSharedMem} (hmode : m.individualServiceMode = 1)
    (hstatus : m.status = strClosed) (d : Direction) :
    (internal strEq d.operation).exec m =
      (moveFrom strEq d.operation (m.currentFloor.head? == some 'B')
        (readLevel (m.currentFloor.head? == some 'B') m)).exec m := by
  have hbranch : internal strEq d.operation = moveFloor strEq d.operation := by
    cases d <;> rfl
  have hpass : ∀ {str : CString} {text : String} {next : Program}, strClosed ≠ str →
      (refuseAt strEq str text next).exec m = next.exec m := by
    intro str text next hne
    exact exec_refuseAt (hstatus ▸ hne)
  rw [hbranch]
  simp only [moveFloor, Code.exec, hmode, ne_eq, not_true_eq_false, if_false]
  rw [hpass (by decide), hpass (by decide), hpass (by decide), hpass (by decide)]
  rfl

/-! ## Names and levels -/

theorem toNat_ofInt (i : Int) : ((UInt8.ofInt i).toNat : Int) = i % 256 := by
  simp only [UInt8.ofInt, UInt8.toNat_ofNat']
  omega

theorem fti_levelText (B : Bool) (lvl : UInt8) :
    fti (levelText B lvl) = if B then 1 - (lvl.toNat : Int) else (lvl.toNat : Int) := by
  cases B with
  | false => exact fti_decimal _
  | true =>
    show 1 - atoi (decimal lvl.toNat) = _
    rw [atoi_decimal]
    rfl

/-- A basement: the `B` is seen and the level read is its number. -/
theorem readLevel_basement {m : CarSharedMem} {rank : Int} (hrank : rank ≤ 0)
    (hlow : lowestRank ≤ rank) (hfloor : m.currentFloor = itf rank) :
    (m.currentFloor.head? == some 'B') = true ∧
      ((readLevel true m).toNat : Int) = 1 - rank := by
  rw [itf, if_pos hrank] at hfloor
  refine ⟨by rw [hfloor]; rfl, ?_⟩
  have hlevel : readLevel true m = UInt8.ofInt ((1 - rank).toNat : Nat) := by
    show UInt8.ofInt (atoi (m.currentFloor.drop 1)) = _
    rw [hfloor]
    exact congrArg UInt8.ofInt (atoi_decimal _)
  rw [hlevel, toNat_ofInt]
  simp only [lowestRank] at hlow
  omega

/-- Any other floor: its number, modulo `256`. -/
theorem readLevel_floor {m : CarSharedMem} {rank : Int} (hrank : 1 ≤ rank)
    (hfloor : m.currentFloor = itf rank) :
    (m.currentFloor.head? == some 'B') = false ∧
      ((readLevel false m).toNat : Int) = rank % 256 := by
  rw [itf, if_neg (by omega)] at hfloor
  constructor
  · cases hd : decimal rank.toNat with
    | nil => exact absurd hd Nat.toDigits_ne_nil
    | cons c cs =>
      have hne := decimal_cons_ne_B hd
      rw [hfloor, hd]
      simpa using hne
  · have hlevel : readLevel false m = UInt8.ofInt (rank.toNat : Nat) := by
      show UInt8.ofInt (atoi m.currentFloor) = _
      rw [hfloor]
      exact congrArg UInt8.ofInt (atoi_decimal _)
    rw [hlevel, toNat_ofInt]
    omega

/-- A level's text is a legal name only if it is not the text of `0`. -/
theorem levelText_eq_itf (B : Bool) (lvl : UInt8) (rank : Int) : levelText B lvl = itf rank ↔
    1 ≤ lvl.toNat ∧ rank = if B then 1 - (lvl.toNat : Int) else (lvl.toNat : Int) := by
  constructor
  · intro h
    have hrank : rank = if B then 1 - (lvl.toNat : Int) else (lvl.toNat : Int) := by
      rw [← fti_levelText, h, fti_itf]
    refine ⟨?_, hrank⟩
    rw [hrank] at h
    by_cases h0 : lvl.toNat = 0
    · -- `B0` and `0` read as the ranks of `1` and `B1`
      have hl : lvl = 0 := UInt8.toNat_inj.mp h0
      subst hl
      cases B <;> exact absurd h (by decide)
    · omega
  · rintro ⟨hpos, rfl⟩
    cases B with
    | false =>
      show decimal lvl.toNat = itf lvl.toNat
      rw [itf, if_neg (by omega)]
      congr 1
    | true =>
      show 'B' :: decimal lvl.toNat = itf (1 - lvl.toNat)
      rw [itf, if_pos (by omega)]
      congr 2
      omega

/-! ## One request, exactly -/

theorem climbs_store (d : Direction) (m : CarSharedMem) (s : CString) :
    Climbs d m ⟨true, m.storeDestination s, []⟩ ↔
      fti m.currentFloor ≠ d.last ∧ s = itf (d.next (fti m.currentFloor)) := by
  unfold Climbs
  by_cases hlast : fti m.currentFloor = d.last
  · simp [hlast]
  · rw [if_neg hlast]
    exact ⟨fun h => ⟨hlast, h.2⟩, fun h => ⟨rfl, h.2⟩⟩

theorem climbs_refuse (d : Direction) (m : CarSharedMem) (out : List String) :
    Climbs d m ⟨false, m, out⟩ ↔ fti m.currentFloor = d.last := by
  unfold Climbs
  by_cases hlast : fti m.currentFloor = d.last
  · simp [hlast]
  · simp [hlast]

/-- What a request leaves: the record as it was, with a destination if it succeeds. -/
def Leaves (m : CarSharedMem) (o : Outcome CarSharedMem) : Prop :=
  o.ok = true → o.mem = m.storeDestination o.mem.destinationFloor

theorem climbs_iff_basement {m : CarSharedMem} {rank : Int} (hbasement : rank ≤ 0)
    (hlow : lowestRank ≤ rank) (hfloor : m.currentFloor = itf rank) (d : Direction) :
    ∃ o, (moveFrom strEq d.operation (m.currentFloor.head? == some 'B')
        (readLevel (m.currentFloor.head? == some 'B') m)).exec m = some o ∧ Leaves m o ∧
      (Climbs d m o ↔ d.served rank) := by
  have hrank : fti m.currentFloor = rank := by rw [hfloor, fti_itf]
  have hone : (1 : UInt8).toNat = 1 := rfl
  obtain ⟨hB, hlvl⟩ := readLevel_basement hbasement hlow hfloor
  simp only [lowestRank] at hlow
  rw [hB]
  generalize readLevel true m = lvl at hlvl
  cases d with
  | up =>
    refine ⟨_, exec_moveFrom_up true lvl m, fun _ => rfl, ?_⟩
    have hnext : ((lvl - 1).toNat : Int) = -rank := by
      rw [UInt8.toNat_sub, hone]
      omega
    rw [climbs_store, hrank, if_pos rfl, levelText_eq_itf, if_pos rfl]
    simp only [Direction.last, Direction.next, Direction.served, highestRank]
    omega
  | down =>
    have hnext : ((lvl + 1).toNat : Int) = 2 - rank := by
      rw [UInt8.toNat_add, hone]
      omega
    rw [exec_moveFrom_down, if_pos rfl]
    by_cases hlast : (lvl + 1).toNat > 99
    · refine ⟨_, if_pos hlast, fun h => absurd h Bool.false_ne_true, ?_⟩
      rw [climbs_refuse, hrank]
      simp only [Direction.last, Direction.served, lowestRank]
      omega
    · refine ⟨_, if_neg hlast, fun _ => rfl, ?_⟩
      rw [climbs_store, hrank, levelText_eq_itf, if_pos rfl]
      simp only [Direction.last, Direction.next, Direction.served, lowestRank]
      omega

theorem climbs_iff_floor {m : CarSharedMem} {rank : Int} (habove : 1 ≤ rank)
    (hhigh : rank ≤ highestRank) (hfloor : m.currentFloor = itf rank) (d : Direction) :
    ∃ o, (moveFrom strEq d.operation (m.currentFloor.head? == some 'B')
        (readLevel (m.currentFloor.head? == some 'B') m)).exec m = some o ∧ Leaves m o ∧
      (Climbs d m o ↔ d.served rank) := by
  have hrank : fti m.currentFloor = rank := by rw [hfloor, fti_itf]
  have hone : (1 : UInt8).toNat = 1 := rfl
  obtain ⟨hB, hlvl⟩ := readLevel_floor habove hfloor
  simp only [highestRank] at hhigh
  rw [hB]
  generalize readLevel false m = lvl at hlvl
  cases d with
  | up =>
    refine ⟨_, exec_moveFrom_up false lvl m, fun _ => rfl, ?_⟩
    have hnext : ((lvl + 1).toNat : Int) = (rank + 1) % 256 := by
      rw [UInt8.toNat_add, hone]
      omega
    rw [climbs_store, hrank, if_neg Bool.false_ne_true, levelText_eq_itf,
      if_neg Bool.false_ne_true]
    simp only [Direction.last, Direction.next, Direction.served, highestRank]
    omega
  | down =>
    have hnext : ((lvl - 1).toNat : Int) = (rank - 1) % 256 := by
      rw [UInt8.toNat_sub, hone]
      omega
    rw [exec_moveFrom_down, if_neg Bool.false_ne_true]
    by_cases hlast : (lvl - 1).toNat > 99
    · refine ⟨_, if_pos hlast, fun h => absurd h Bool.false_ne_true, ?_⟩
      rw [climbs_refuse, hrank]
      simp only [Direction.last, Direction.served, lowestRank]
      omega
    · refine ⟨_, if_neg hlast, fun _ => rfl, ?_⟩
      rw [climbs_store, hrank, levelText_eq_itf, if_neg Bool.false_ne_true]
      simp only [Direction.last, Direction.next, Direction.served, lowestRank]
      omega

/-- **One request, exactly.** -/
theorem climbs_iff {m : CarSharedMem} {rank : Int} (hmode : m.individualServiceMode = 1)
    (hstatus : m.status = strClosed) (hlow : lowestRank ≤ rank) (hhigh : rank ≤ highestRank)
    (hfloor : m.currentFloor = itf rank) (d : Direction) :
    ∃ o, (internal strEq d.operation).exec m = some o ∧ Leaves m o ∧
      (Climbs d m o ↔ d.served rank) := by
  rw [exec_internal hmode hstatus]
  by_cases hbasement : rank ≤ 0
  · exact climbs_iff_basement hbasement hlow hfloor d
  · exact climbs_iff_floor (Int.add_one_le_of_lt (Int.lt_of_not_ge hbasement)) hhigh hfloor d

/-! ## Runs -/

/-- The car goes where a request that succeeded sends it. -/
def arrive (o : Outcome CarSharedMem) : CarSharedMem :=
  if o.ok then { o.mem with currentFloor := o.mem.destinationFloor } else o.mem

/-- Every request of the sequence climbs. -/
def ClimbsAll : CarSharedMem → List Direction → Prop
  | _, [] => True
  | m, d :: ds =>
    ∃ o, (internal strEq d.operation).exec m = some o ∧ Climbs d m o ∧ ClimbsAll (arrive o) ds

/-- Where a climb from a rung leads. -/
def Direction.climb (d : Direction) (rank : Int) : Int :=
  if rank = d.last then rank else d.next rank

/-- Every request of the sequence is made from a rung where it is served. -/
def ServedAll : Int → List Direction → Prop
  | _, [] => True
  | rank, d :: ds => d.served rank ∧ ServedAll (d.climb rank) ds

theorem climb_range {d : Direction} {rank : Int} (hlow : lowestRank ≤ rank)
    (hhigh : rank ≤ highestRank) :
    lowestRank ≤ d.climb rank ∧ d.climb rank ≤ highestRank := by
  simp only [lowestRank] at hlow
  simp only [highestRank] at hhigh
  cases d with
  | up =>
    simp only [Direction.climb, Direction.last, Direction.next, lowestRank, highestRank]
    omega
  | down =>
    simp only [Direction.climb, Direction.last, Direction.next, lowestRank, highestRank]
    omega

/-- The legal names fit their array. -/
theorem length_itf {rank : Int} (hlow : lowestRank ≤ rank) (hhigh : rank ≤ highestRank) :
    (itf rank).length < floorBytes := by
  simp only [lowestRank] at hlow
  simp only [highestRank] at hhigh
  unfold itf floorBytes
  by_cases hbasement : rank ≤ 0
  · rw [if_pos hbasement, List.length_cons]
    have hdigits : (decimal (1 - rank).toNat).length ≤ 2 :=
      (length_decimal_le (by decide)).mpr (by omega)
    omega
  · rw [if_neg hbasement]
    have hdigits : (decimal rank.toNat).length ≤ 3 :=
      (length_decimal_le (by decide)).mpr (by omega)
    omega

/-- A climb leaves the car on the next rung, in service mode, its doors closed. -/
theorem climbs_arrive {m : CarSharedMem} {rank : Int} {d : Direction}
    {o : Outcome CarSharedMem} (hlow : lowestRank ≤ rank) (hhigh : rank ≤ highestRank)
    (hfloor : m.currentFloor = itf rank) (hleaves : Leaves m o) (h : Climbs d m o) :
    (arrive o).currentFloor = itf (d.climb rank) ∧
      (arrive o).individualServiceMode = m.individualServiceMode ∧
      (arrive o).status = m.status := by
  have hrank : fti m.currentFloor = rank := by rw [hfloor, fti_itf]
  obtain ⟨hlow', hhigh'⟩ := climb_range (d := d) hlow hhigh
  unfold Climbs at h
  rw [hrank] at h
  unfold Direction.climb at hlow' hhigh' ⊢
  by_cases hlast : rank = d.last
  · rw [if_pos hlast] at h ⊢
    obtain ⟨hok, hmem⟩ := h
    have harrive : arrive o = m := by simp only [arrive, hok, hmem, Bool.false_eq_true, if_false]
    rw [harrive]
    exact ⟨hfloor, rfl, rfl⟩
  · rw [if_neg hlast] at h hlow' hhigh' ⊢
    obtain ⟨hok, hdest⟩ := h
    have hmem := hleaves hok
    rw [hdest] at hmem
    have hfits := length_itf hlow' hhigh'
    have harrive : arrive o =
        { m with currentFloor := itf (d.next rank), destinationFloor := itf (d.next rank) } := by
      simp only [arrive, hok, if_true, hmem, CarSharedMem.storeDestination, if_pos hfits]
    rw [harrive]
    exact ⟨rfl, rfl, rfl⟩

theorem climbsAll_iff_of_rank {m : CarSharedMem} {rank : Int}
    (hmode : m.individualServiceMode = 1) (hstatus : m.status = strClosed)
    (hlow : lowestRank ≤ rank) (hhigh : rank ≤ highestRank) (hfloor : m.currentFloor = itf rank)
    (ds : List Direction) : ClimbsAll m ds ↔ ServedAll rank ds := by
  induction ds generalizing m rank with
  | nil => exact Iff.rfl
  | cons d ds ih =>
    obtain ⟨o, hexec, hleaves, hiff⟩ := climbs_iff hmode hstatus hlow hhigh hfloor d
    have hrest : Climbs d m o → (ClimbsAll (arrive o) ds ↔ ServedAll (d.climb rank) ds) := by
      intro h
      obtain ⟨hfloor', hmode', hstatus'⟩ := climbs_arrive hlow hhigh hfloor hleaves h
      obtain ⟨hlow', hhigh'⟩ := climb_range (d := d) hlow hhigh
      exact ih (hmode'.trans hmode) (hstatus'.trans hstatus) hlow' hhigh' hfloor'
    constructor
    · rintro ⟨o', hexec', hclimbs, hall⟩
      obtain rfl : o = o' := Option.some.inj (hexec.symm.trans hexec')
      exact ⟨hiff.mp hclimbs, (hrest hclimbs).mp hall⟩
    · rintro ⟨hserved, hall⟩
      exact ⟨o, hexec, hiff.mpr hserved, (hrest (hiff.mpr hserved)).mpr hall⟩

/-- **A sequence of requests climbs the ladder exactly where each is served.** -/
theorem climbsAll_iff {m : CarSharedMem} (hmode : m.individualServiceMode = 1)
    (hstatus : m.status = strClosed) (hlegal : legalFloor m.currentFloor = true)
    (ds : List Direction) : ClimbsAll m ds ↔ ServedAll (fti m.currentFloor) ds := by
  obtain ⟨hlow, hhigh, hfloor⟩ := legalFloor_iff.mp hlegal
  exact climbsAll_iff_of_rank hmode hstatus hlow hhigh hfloor ds

/-- A record in service mode with the doors closed. -/
def inService (floor : CString) : CarSharedMem :=
  ⟨floor, floor, strClosed, 0, 0, 1, 0, 0, 0, 1, 0⟩

/-- From `5` up and down again. -/
theorem climbsAll_iff_five : ClimbsAll (inService "5".toList) [.up, .down] ∧
    ServedAll 5 [.up, .down] := by
  have hserved : ServedAll 5 [.up, .down] :=
    ⟨.inr (by decide), .inr (by decide), trivial⟩
  exact ⟨(climbsAll_iff rfl rfl (by decide) _).mpr hserved, hserved⟩

/-- From `B1` there is no way up: the request writes `B0`. -/
theorem not_climbsAll_basement :
    ((inService "B1".toList).individualServiceMode = 1 ∧
      (inService "B1".toList).status = strClosed ∧
      legalFloor (inService "B1".toList).currentFloor = true) ∧
    ¬ ClimbsAll (inService "B1".toList) [.up] := by
  refine ⟨⟨rfl, rfl, by decide⟩, ?_⟩
  rintro ⟨o, hexec, hclimbs, _⟩
  obtain rfl := Option.some.inj hexec
  exact absurd hclimbs.2 (by decide)

end Car
end Cab403
