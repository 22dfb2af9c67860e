import Cab403.Car.Flags
import Cab403.Lib.Halting

/-!
# The threads of a car come to rest

None of the three programs has a loop but the wait loop of `safety_ctrl` and of `car_run`, and
none waits after its pass. So however the threads of a car wake each other, they run out of steps:
a woken thread was signalled, and no program signals for ever.

The bound is what `Within` charges each program: its `lock`, what it loads and prints, and its
signals. `internal` sends one signal, or two where it crosses the ground floor; a pass of the
safety system five at most; one of the car one.
-/

namespace Cab403
namespace Car

open Lib

/-! ## What each program costs -/

theorem exit_within (ok : Bool) (n : Nat) : (Code.exit ok : Program).Within n := trivial

theorem refuse_within {message : String} {n : Nat} (hn : 0 < n) : (refuse message).Within n :=
  ⟨0, hn, trivial⟩

theorem writeLocked_within {f : CarSharedMem → CarSharedMem} {next : Program} {n : Nat}
    (hnext : next.Within n) : (writeLocked f next).Within (n + 2) :=
  ⟨n + 1, Nat.lt_succ_self _, n, Nat.lt_succ_self _, hnext⟩

theorem writeNextFloor_within (B : Bool) (lvl : UInt8) : (writeNextFloor B lvl).Within 2 := by
  cases B with
  | false => exact writeLocked_within (exit_within true 0)
  | true => exact ⟨1, by decide, 0, by decide, trivial⟩

theorem moveFrom_within (eq : Compare) (operation : CString) (B : Bool) (lvl : UInt8) :
    (moveFrom eq operation B lvl).Within 4 := by
  have hwrite : ∀ lvl, (writeNextFloor B lvl).Within 4 :=
    fun lvl => (writeNextFloor_within B lvl).mono (by decide)
  have hboundary : ∀ f lvl, (writeLocked f (writeNextFloor B lvl)).Within 4 :=
    fun f lvl => writeLocked_within (writeNextFloor_within B lvl)
  unfold moveFrom
  apply Code.within_ite
  · apply Code.within_ite (hboundary _ _)
    exact Code.within_ite (refuse_within (by decide)) (hwrite _)
  · apply Code.within_ite _ (hwrite lvl)
    apply Code.within_ite (hboundary _ _)
    exact Code.within_ite (refuse_within (by decide)) (hwrite _)

theorem refuseAt_within {eq : Compare} {str : CString} {message : String} {next : Program}
    {n : Nat} (hnext : next.Within n) (hn : 0 < n) :
    (refuseAt eq str message next).Within (n + 1) :=
  ⟨n, Nat.lt_succ_self n, fun _ => Code.within_ite (refuse_within hn) hnext⟩

theorem moveFloor_within (eq : Compare) (operation : CString) :
    (moveFloor eq operation).Within 11 := by
  have hfloor : ∀ m : CarSharedMem, (Code.load fun m' => moveFrom eq operation
      (m.currentFloor.head? == some 'B')
      (readLevel (m.currentFloor.head? == some 'B') m') : Program).Within 5 :=
    fun m => ⟨4, by decide, fun m' => moveFrom_within ..⟩
  refine ⟨10, by decide, fun m => Code.within_ite (refuse_within (by decide)) ?_⟩
  apply refuseAt_within _ (by decide)
  apply refuseAt_within _ (by decide)
  apply refuseAt_within _ (by decide)
  apply refuseAt_within _ (by decide)
  exact ⟨5, by decide, hfloor⟩

theorem internal_within (eq : Compare) (operation : CString) :
    (internal eq operation).Within 11 := by
  have hflag : ∀ f, (writeLocked f (.exit true)).Within 11 :=
    fun f => (writeLocked_within (exit_within true 0)).mono (by decide)
  have hon : ∀ f g, (Code.lock (.store f (.store g (.signal () (.unlock (.exit true))))) :
      Program).Within 11 := fun f g => ⟨1, by decide, 0, by decide, trivial⟩
  unfold internal
  apply Code.within_ite (hflag _)
  apply Code.within_ite (hflag _)
  apply Code.within_ite (hflag _)
  apply Code.within_ite (hon _ _)
  apply Code.within_ite (hflag _)
  exact Code.within_ite (moveFloor_within eq operation) (refuse_within (by decide))

theorem safetyCtrl_within (eq : Compare) (check : CarSharedMem → Bool) :
    (safetyCtrl eq check).Within 14 := by
  -- a body that signals, and one that prints before
  have hquiet : ∀ (f : CarSharedMem → CarSharedMem) (n : Nat) (k : Program), k.Within n →
      (Code.store f (.signal () k)).Within (n + 1) :=
    fun f n k hk => ⟨n, Nat.lt_succ_self n, hk⟩
  have hloud : ∀ (message : String) (f : CarSharedMem → CarSharedMem) (n : Nat) (k : Program),
      k.Within n → (Code.print message (.store f (.signal () k))).Within (n + 2) :=
    fun message f n k hk => ⟨n + 1, Nat.lt_succ_self _, n, Nat.lt_succ_self n, hk⟩
  have hstop : ∀ (n : Nat) (k : Program), k.Within n →
      (Code.print "\nThe emergency stop button has been pressed!\n" <|
        .store (fun m : CarSharedMem => { m with emergencyMode := 1 }) <|
        .store (fun m => { m with emergencyStop := 0 }) <| .signal () k).Within (n + 2) :=
    fun n k hk => ⟨n + 1, Nat.lt_succ_self _, n, Nat.lt_succ_self n, hk⟩
  refine ⟨13, by decide, ?_⟩
  show (safetyBody eq check).Within 13
  unfold safetyBody
  apply Code.within_branch (hquiet _ 11)
  apply Code.within_branch (hquiet _ 9)
  apply Code.within_branch (hstop 6)
  apply Code.within_branch (hloud _ _ 3)
  apply Code.within_branch (hloud _ _ 0)
  trivial

theorem carRun_within : carRun.Within 5 := by
  -- a button is cleared for nothing, but signalled
  have hclear : ∀ n, (Code.signal () (.unlock (.exit true)) : Program).Within (n + 1) :=
    fun n => ⟨n, Nat.lt_succ_self n, trivial⟩
  refine ⟨4, by decide, 3, by decide, fun m => Code.within_ite (hclear 2) ?_⟩
  refine ⟨2, by decide, fun m => Code.within_ite (hclear 1) ?_⟩
  exact ⟨1, by decide, fun m => Code.within_ite (hclear 0) trivial⟩

/-- What a program costs at most. -/
def Job.cost : Job → Nat
  | .internal _ => 11
  | .safety => 14
  | .car => 5

theorem program_within (eq : Compare) (check : CarSharedMem → Bool) (j : Job) :
    (j.program eq check).Within j.cost := by
  cases j with
  | internal operation => exact internal_within strEq operation
  | safety => exact safetyCtrl_within eq check
  | car => exact carRun_within

/-! ## Rest -/

section Pool

variable {ι : Type*} [DecidableEq ι] [Fintype ι] {eq : Compare} {check : CarSharedMem → Bool}
  {jobs : ι → Job}

omit [DecidableEq ι] in
theorem started_within (m : CarSharedMem) :
    (started eq check jobs m).Within (∑ i, (jobs i).cost) :=
  ⟨fun i => (jobs i).cost, fun i => program_within eq check (jobs i), rfl⟩

/-- A control never sleeps. -/
theorem returned_of_resting {t : Thread Unit CarSharedMem} {operation : CString}
    (hat : (Job.internal operation).At eq check t) (hrest : t.isResting = true) :
    t.isReturned = true := by
  obtain ⟨c, rfl⟩ := hat
  exact hrest

omit [DecidableEq ι] [Fintype ι] in
theorem Placed.rests {p : Pool Unit CarSharedMem ι} (hp : Placed eq check jobs p)
    (hrest : ∀ i, (p.thread i).isResting = true) (i : ι) : (p.thread i).isResting = true ∧
      ∀ operation, jobs i = .internal operation → (p.thread i).isReturned = true := by
  refine ⟨hrest i, fun operation hjob => ?_⟩
  have hat := hp.stands i
  rw [hjob] at hat
  exact returned_of_resting hat (hrest i)

omit [Fintype ι] in
theorem Placed.last {p : Pool Unit CarSharedMem ι} (hp : Placed eq check jobs p)
    {tr : List (ι × Pool Unit CarSharedMem ι)} (h : Trace Step p tr) :
    Placed eq check jobs (lastState p tr) :=
  (h.allStates (fun _ _ _ hp hst => placed_step hp hst) hp).last

end Pool

end Car
end Cab403
