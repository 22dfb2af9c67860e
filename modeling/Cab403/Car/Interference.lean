import Cab403.Car.Ladder

/-!
# Moving a car by hand among other processes

`up` and `down` are for a car in service mode that stands with its doors closed. `internal` tests
that before anything else, reads the floor, and then stores a destination; all of it is there to
make sure that the stores find the car so (`Fit`). But the tests are made without the lock that
`internal.h` says the record is accessed under, and each store takes the lock anew. Between two of
its accesses another process can run any section of its own: end the service mode, open the doors.

`Point` is where such a run stands and `Point.known` what its tests have found so far. On a run
where no other process undoes that, the stores find the car fit.
-/

namespace Cab403
namespace Car

open Lib

/-! ## What the tests are for -/

/-- In service mode, and neither open nor moving. -/
def Fit (m : CarSharedMem) : Prop :=
  m.individualServiceMode = 1 ∧ m.status ∉ [strOpen, strOpening, strClosing, strBetween]

/-- The status tests, with what each refuses with. -/
def statusTests : List (CString × String) :=
  [(strOpen, "\nOperation not allowed while doors are open.\n"),
    (strOpening, "\nOperation not allowed while doors are open.\n"),
    (strClosing, "\nOperation not allowed while doors are open.\n"),
    (strBetween, "\nOperation not allowed while elevator is moving.\n")]

/-- The tests still to make, then the rest. -/
def refuseAll (tests : List (CString × String)) (next : Program) : Program :=
  tests.foldr (fun t next => refuseAt strEq t.1 t.2 next) next

/-- The floor is read in two accesses, its `B` first. -/
def readFloor (d : Direction) : Program :=
  .load fun m =>
  let B := m.currentFloor.head? == some 'B'
  .load fun m => moveFrom strEq d.operation B (readLevel B m)

theorem internal_eq (d : Direction) : internal strEq d.operation = .load fun m =>
    if m.individualServiceMode ≠ 1 then refuse "\nOperation only allowed in service mode.\n"
    else refuseAll statusTests (readFloor d) := by
  cases d <;> rfl

/-! ## Points of a run -/

/-- Where a run of `up` or `down` stands. -/
inductive Point where
  | start
  /-- before the status tests `left`, the others `passed` -/
  | tests (passed left : List (CString × String)) (all : passed ++ left = statusTests)
  | level (B : Bool)
  /-- before the store of a boundary floor -/
  | boundary (s : CString) (short : s.length < floorBytes) (B : Bool) (lvl : UInt8)
  | last (B : Bool) (lvl : UInt8)
  | refused (message : String)
  | exited (ok : Bool)

def Point.code (d : Direction) : Point → Program
  | .start => internal strEq d.operation
  | .tests _ left _ => refuseAll left (readFloor d)
  | .level B => .load fun m => moveFrom strEq d.operation B (readLevel B m)
  | .boundary s _ B lvl => writeLocked (·.storeDestination s) (writeNextFloor B lvl)
  | .last B lvl => writeNextFloor B lvl
  | .refused message => refuse message
  | .exited ok => .exit ok

/-- What the tests have found, as long as stores are to come. -/
def Point.known : Point → CarSharedMem → Prop
  | .tests passed _ _, m => m.individualServiceMode = 1 ∧ ∀ t ∈ passed, m.status ≠ t.1
  | .level _, m => Fit m
  | .boundary _ _ _ _, m => Fit m
  | .last _ _, m => Fit m
  | _, _ => True

theorem fit_iff {m : CarSharedMem} :
    Fit m ↔ m.individualServiceMode = 1 ∧ ∀ t ∈ statusTests, m.status ≠ t.1 := by
  refine and_congr_right fun _ => ?_
  simp [statusTests]

/-- A short destination changes nothing the tests are about. -/
theorem Fit.storeDestination {m : CarSharedMem} (h : Fit m) {s : CString}
    (hs : s.length < floorBytes) : Fit (m.storeDestination s) := by
  have hstatus : (m.storeDestination s).status = m.status := if_pos hs
  unfold Fit
  rw [hstatus]
  exact h

/-! ## Steps -/

/-- The program is that of a point a fit car may be at. -/
def FitAt (d : Direction) (c : Program) : Prop :=
  ∃ pt : Point, c = pt.code d ∧ ∀ m, Fit m → pt.known m

theorem fitAt_last (d : Direction) (B : Bool) (lvl : UInt8) : FitAt d (writeNextFloor B lvl) :=
  ⟨.last B lvl, rfl, fun _ h => h⟩

theorem fitAt_boundary (d : Direction) {s : CString} (hs : s.length < floorBytes) (B : Bool)
    (lvl : UInt8) : FitAt d (writeLocked (·.storeDestination s) (writeNextFloor B lvl)) :=
  ⟨.boundary s hs B lvl, rfl, fun _ h => h⟩

theorem fitAt_refuse (d : Direction) (message : String) : FitAt d (refuse message) :=
  ⟨.refused message, rfl, fun _ _ => trivial⟩

theorem fitAt_ite {d : Direction} {c : Prop} [Decidable c] {a b : Program} (ha : FitAt d a)
    (hb : FitAt d b) : FitAt d (if c then a else b) := by
  by_cases hc : c
  · rw [if_pos hc]
    exact ha
  · rw [if_neg hc]
    exact hb

/-- From the level on there are only stores, or a refusal. -/
theorem fitAt_moveFrom (d : Direction) (B : Bool) (lvl : UInt8) :
    FitAt d (moveFrom strEq d.operation B lvl) := by
  have hone : ("1".toList : CString).length < floorBytes := by decide
  have hB1 : ("B1".toList : CString).length < floorBytes := by decide
  refine fitAt_ite ?_ (fitAt_ite ?_ (fitAt_last d B lvl))
  · exact fitAt_ite (fitAt_boundary d hone B _) (fitAt_ite (fitAt_refuse d _) (fitAt_last d B _))
  · exact fitAt_ite (fitAt_boundary d hB1 B _) (fitAt_ite (fitAt_refuse d _) (fitAt_last d B _))

section Run

variable {ι : Type} {d : Direction} {i : ι} {p q : Pool Unit CarSharedMem ι}

/-- The run stands at a point, and what its tests have found is so. -/
def Tested (d : Direction) (i : ι) (p : Pool Unit CarSharedMem ι) : Prop :=
  ∃ pt : Point, p.thread i = .run (pt.code d) ∧ pt.known p.mem

/-- **No other process undoes what the tests have found**, while there are stores to come. -/
def Undisturbed (d : Direction) (i : ι) (p : Pool Unit CarSharedMem ι) (j : ι)
    (q : Pool Unit CarSharedMem ι) : Prop :=
  j ≠ i → ∀ pt : Point, p.thread i = .run (pt.code d) → pt.known p.mem → pt.known q.mem

/-- Whatever the step stores to the destination, it finds the car fit. -/
def StoresFit (i : ι) (p : Pool Unit CarSharedMem ι) (j : ι) (_ : Pool Unit CarSharedMem ι) :
    Prop :=
  j = i → ∀ c, (p.thread i).entry = some c → ∀ m ∈ c.found p.mem, Fit m

theorem Tested.of_fitAt {c : Program} (hc : FitAt d c) (hthread : q.thread i = .run c)
    (hfit : Fit q.mem) : Tested d i q := by
  obtain ⟨pt, rfl, hknown⟩ := hc
  exact ⟨pt, hthread, hknown _ hfit⟩

/-- A load is no store. -/
theorem storesFit_of_entry {j : ι} (h : (p.thread i).entry = none) : StoresFit i p j q := by
  intro _ c hc
  rw [h] at hc
  cases hc

/-- A section is good if whatever it finds at its stores is. -/
theorem storesFit_of_found {j : ι} {c : Program} (hentry : (p.thread i).entry = some c)
    (hfound : ∀ m ∈ c.found p.mem, Fit m) : StoresFit i p j q := by
  intro _ c' hc
  rw [hentry] at hc
  cases hc
  exact hfound

variable [DecidableEq ι]

/-- A step of the run itself. -/
theorem Tested.step (h : Tested d i p) (hstep : Step p i q) :
    Tested d i q ∧ StoresFit i p i q := by
  obtain ⟨pt, hthread, hknown⟩ := h
  have hnext := hstep.next hthread
  cases pt with
  | start =>
    have hcode := internal_eq d
    refine ⟨?_, storesFit_of_entry ?_⟩
    · rw [Point.code, hcode] at hnext
      obtain ⟨hmem, hq⟩ := hnext
      by_cases hmode : p.mem.individualServiceMode ≠ 1
      · exact ⟨.refused _, hq.trans (congrArg Thread.run (if_pos hmode)), trivial⟩
      · refine ⟨.tests [] statusTests rfl, hq.trans (congrArg Thread.run (if_neg hmode)), ?_,
          fun t ht => absurd ht List.not_mem_nil⟩
        rw [hmem]
        exact not_not.mp hmode
    · rw [hthread, Point.code, hcode]
      rfl
  | tests passed left all =>
    cases left with
    | nil =>
      obtain ⟨hmem, hq⟩ := hnext
      refine ⟨⟨.level _, hq, ?_⟩, storesFit_of_entry (by rw [hthread]; rfl)⟩
      rw [List.append_nil] at all
      subst all
      rw [hmem]
      exact fit_iff.mpr hknown
    | cons t left =>
      obtain ⟨hmem, hq⟩ := hnext
      refine ⟨?_, storesFit_of_entry (by rw [hthread]; rfl)⟩
      by_cases hstatus : strEq p.mem.status t.1 = true
      · exact ⟨.refused _, hq.trans (congrArg Thread.run (if_pos hstatus)), trivial⟩
      · refine ⟨.tests (passed ++ [t]) left (by rw [List.append_assoc]; exact all),
          hq.trans (congrArg Thread.run (if_neg hstatus)), ?_⟩
        rw [hmem]
        refine ⟨hknown.1, fun u hu => ?_⟩
        rcases List.mem_append.mp hu with hold | hnew
        · exact hknown.2 u hold
        · rw [List.mem_singleton.mp hnew]
          exact fun heq => hstatus (beq_iff_eq.mpr heq)
  | level B =>
    obtain ⟨hmem, hq⟩ := hnext
    refine ⟨.of_fitAt (fitAt_moveFrom d B _) hq ?_, storesFit_of_entry (by rw [hthread]; rfl)⟩
    rw [hmem]
    exact hknown
  | boundary s short B lvl =>
    obtain ⟨out, hout, hmem, hq⟩ := hnext
    cases hout
    refine ⟨⟨.last B lvl, hq, ?_⟩, storesFit_of_found (by rw [hthread]; rfl) fun m hm => ?_⟩
    · rw [hmem]
      exact Fit.storeDestination hknown short
    · rw [List.mem_singleton.mp hm]
      exact hknown
  | last B lvl =>
    cases B with
    | false =>
      obtain ⟨out, hout, hmem, hq⟩ := hnext
      cases hout
      refine ⟨⟨.exited true, hq, trivial⟩, storesFit_of_found (by rw [hthread]; rfl) ?_⟩
      intro m hm
      rw [List.mem_singleton.mp hm]
      exact hknown
    | true =>
      obtain ⟨out, hout, hmem, hq⟩ := hnext
      cases hout
      refine ⟨⟨.exited true, hq, trivial⟩, storesFit_of_found (by rw [hthread]; rfl) ?_⟩
      intro m hm
      -- `strcpy` finds the record as the lock did, `strcat` finds the `B` in it
      rcases List.mem_cons.mp hm with rfl | hcat
      · exact hknown
      · rw [List.mem_singleton.mp hcat]
        exact Fit.storeDestination hknown (by decide)
  | refused message =>
    obtain ⟨_, hq⟩ := hnext
    exact ⟨⟨.exited false, hq, trivial⟩, storesFit_of_entry (by rw [hthread]; rfl)⟩
  | exited ok => exact hnext.elim

/-- A step of another process. -/
theorem Tested.other (h : Tested d i p) {j : ι} (hij : j ≠ i) (hstep : Step p j q)
    (hkept : Undisturbed d i p j q) : Tested d i q := by
  obtain ⟨pt, hthread, hknown⟩ := h
  exact ⟨pt, hstep.run_of_ne hij.symm hthread, hkept hij pt hthread hknown⟩

/-- **Every store finds the car fit**, whatever the other processes are, on the runs where none
of them undoes what the tests have found. -/
theorem stores_fit (hi : p.thread i = .run (internal strEq d.operation))
    {tr : List (ι × Pool Unit CarSharedMem ι)} (h : Trace Step p tr)
    (hkept : AllSteps (Undisturbed d i) p tr) : AllSteps (StoresFit i) p tr := by
  refine (h.restrict hkept).allSteps (I := Tested d i) (fun s j t hs hst => ?_)
    ⟨.start, hi, trivial⟩
  by_cases hj : j = i
  · subst hj
    exact hs.step hst.1
  · exact ⟨hs.other hj hst.1 hst.2, fun heq => absurd heq hj⟩

end Run

/-! ## Ending the service mode -/

/-- At floor `1`, in service mode, with the doors closed. -/
def parked : CarSharedMem where
  currentFloor := "1".toList
  destinationFloor := "1".toList
  status := strClosed
  openButton := 0
  closeButton := 0
  safetySystem := 1
  doorObstruction := 0
  overload := 0
  emergencyStop := 0
  individualServiceMode := 1
  emergencyMode := 0

/-- `internal up` and `internal service_off`. -/
def upAndOff : Pool Unit CarSharedMem Bool :=
  ⟨parked, fun j => .run (internal strEq (if j then "service_off".toList else "up".toList))⟩

theorem wakes_lost {th : Bool → Thread Unit CarSharedMem} (hfalse : (th false).isAsleep = false)
    (htrue : (th true).isAsleep = false) : Wakes [()] th th := by
  refine .lose (fun j => ?_) (.done th)
  cases j with
  | false => exact hfalse
  | true => exact htrue

/-- Once the run has returned there is nothing left to disturb. -/
theorem Point.known_of_exit {d : Direction} {pt : Point} {ok : Bool}
    (h : Thread.run (.exit ok) = Thread.run (pt.code d)) (m : CarSharedMem) : pt.known m := by
  have hcode := Thread.run.inj h
  cases pt with
  | start =>
    rw [Point.code, internal_eq] at hcode
    cases hcode
  | tests passed left all =>
    cases left with
    | nil => cases hcode
    | cons t left => cases hcode
  | level B => cases hcode
  | boundary s short B lvl => cases hcode
  | last B lvl =>
    cases B with
    | false => cases hcode
    | true => cases hcode
  | refused message => trivial
  | exited ok => trivial

/-- The service mode may end between the tests and the store. -/
theorem stores_fit_fails : ¬ ∀ tr : List (Bool × Pool Unit CarSharedMem Bool),
    Trace Step upAndOff tr → AllSteps (StoresFit false) upAndOff tr := by
  intro hall
  have hrun := hall _ (.cons (@Step.load _ _ _ _ _ false _ rfl)
    (.cons (@Step.load _ _ _ _ _ false _ rfl) (.cons (@Step.load _ _ _ _ _ false _ rfl)
    (.cons (@Step.load _ _ _ _ _ false _ rfl) (.cons (@Step.load _ _ _ _ _ false _ rfl)
    (.cons (@Step.load _ _ _ _ _ false _ rfl) (.cons (@Step.load _ _ _ _ _ false _ rfl)
    (.cons (@Step.locked _ _ _ _ _ true _ _ _ rfl rfl (wakes_lost rfl rfl))
    (.cons (@Step.locked _ _ _ _ _ false _ _ _ rfl rfl (wakes_lost rfl rfl)) (.nil _))))))))))
  have hfit := hrun.2.2.2.2.2.2.2.2.1 rfl _ rfl _ List.mem_cons_self
  exact absurd hfit.1 (by decide)

/-- Or after it. -/
theorem stores_fit_first : ∃ tr : List (Bool × Pool Unit CarSharedMem Bool),
    AllSteps (StoresFit false) upAndOff tr ∧
    (lastState upAndOff tr).mem.destinationFloor = "2".toList ∧
    (lastState upAndOff tr).mem.individualServiceMode = 0 := by
  have htrace : Trace Step upAndOff _ := .cons (@Step.load _ _ _ _ _ false _ rfl)
    (.cons (@Step.load _ _ _ _ _ false _ rfl) (.cons (@Step.load _ _ _ _ _ false _ rfl)
    (.cons (@Step.load _ _ _ _ _ false _ rfl) (.cons (@Step.load _ _ _ _ _ false _ rfl)
    (.cons (@Step.load _ _ _ _ _ false _ rfl) (.cons (@Step.load _ _ _ _ _ false _ rfl)
    (.cons (@Step.locked _ _ _ _ _ false _ _ _ rfl rfl (wakes_lost rfl rfl))
    (.cons (@Step.locked _ _ _ _ _ true _ _ _ rfl rfl (wakes_lost rfl rfl)) (.nil _)))))))))
  have hself : ∀ {p q : Pool Unit CarSharedMem Bool}, Undisturbed .up false p false q :=
    fun hne => absurd rfl hne
  exact ⟨_, stores_fit (d := .up) rfl htrace ⟨hself, hself, hself, hself, hself, hself, hself,
    hself, fun _ pt hpt _ => Point.known_of_exit hpt _, trivial⟩, rfl, rfl⟩

end Car
end Cab403
