import Cab403.Car.Halting
import Cab403.Lib.Reduction

/-!
# The threads of a car, statement by statement

`up` and `down` read the service mode, the status and the current floor without the lock, whatever
section another thread is in at the time. That they find no half of a section is not for the lock's
sake: no section writes two of the three, and none writes one of them twice (`program_reads`). So
taking each section in one step loses nothing (`statements_iff_sections`).

A statement is a step here, and so is a `strcpy`.
-/

namespace Cab403
namespace Car

open Lib

/-! ## What is read without the lock -/

def shown (m : CarSharedMem) : CString × CString × UInt8 :=
  (m.currentFloor, m.status, m.individualServiceMode)

theorem shown_eq_iff {m m' : CarSharedMem} : shown m = shown m' ↔
    m.currentFloor = m'.currentFloor ∧ m.status = m'.status ∧
      m.individualServiceMode = m'.individualServiceMode := by
  simp [shown]

/-! ## The programs -/

theorem writeLocked_reads {f : CarSharedMem → CarSharedMem} {next : Program}
    (hnext : next.Reads shown none) : (writeLocked f next).Reads shown none :=
  fun _ => .inr ⟨rfl, hnext⟩

/-- Only the second of two stores can run on into the status. -/
theorem writeNextFloor_reads (B : Bool) (lvl : UInt8) :
    (writeNextFloor B lvl).Reads shown none := by
  cases B with
  | false => exact writeLocked_reads trivial
  | true => exact fun _ => .inl ⟨rfl, .inr ⟨rfl, trivial⟩⟩

theorem moveFrom_reads (eq : Compare) (operation : CString) (B : Bool) (lvl : UInt8) :
    (moveFrom eq operation B lvl).Reads shown none := by
  have hwrite := writeNextFloor_reads B
  have hboundary : ∀ s lvl,
      (writeLocked (·.storeDestination s) (writeNextFloor B lvl)).Reads shown none :=
    fun s lvl => writeLocked_reads (hwrite lvl)
  refine Code.reads_ite (fun _ => ?_) fun _ => Code.reads_ite (fun _ => ?_) fun _ => hwrite lvl
  · exact Code.reads_ite (fun _ => hboundary _ _)
      fun _ => Code.reads_ite (fun _ => trivial) fun _ => hwrite _
  · exact Code.reads_ite (fun _ => hboundary _ _)
      fun _ => Code.reads_ite (fun _ => trivial) fun _ => hwrite _

theorem refuseAt_reads {eq : Compare} {str : CString} {message : String} {next : Program}
    (hnext : next.Reads shown none) : (refuseAt eq str message next).Reads shown none := by
  refine ⟨fun m m' hsame => ?_, fun _ => Code.reads_ite (fun _ => trivial) fun _ => hnext⟩
  dsimp only
  rw [(shown_eq_iff.mp hsame).2.1]

theorem moveFloor_reads (eq : Compare) (operation : CString) :
    (moveFloor eq operation).Reads shown none := by
  refine ⟨fun m m' hsame => ?_, fun _ => Code.reads_ite (fun _ => trivial) fun _ => ?_⟩
  · dsimp only
    rw [(shown_eq_iff.mp hsame).2.2]
  · refine refuseAt_reads (refuseAt_reads (refuseAt_reads (refuseAt_reads ⟨?_, fun m => ⟨?_, ?_⟩⟩)))
    · intro m m' hsame
      dsimp only
      rw [(shown_eq_iff.mp hsame).1]
    · intro m m' hsame
      dsimp only [readLevel]
      rw [(shown_eq_iff.mp hsame).1]
    · exact fun _ => moveFrom_reads eq operation _ _

theorem internal_reads (eq : Compare) (operation : CString) :
    (internal eq operation).Reads shown none := by
  have hwrite : ∀ f, (writeLocked f (.exit true)).Reads shown none :=
    fun _ => writeLocked_reads trivial
  unfold internal
  refine Code.reads_ite (fun _ => hwrite _) fun _ => ?_
  refine Code.reads_ite (fun _ => hwrite _) fun _ => ?_
  refine Code.reads_ite (fun _ => hwrite _) fun _ => ?_
  refine Code.reads_ite (fun _ => ?_) fun _ => ?_
  · -- `service_on` commits first, and what else it writes does not show
    exact fun _ => .inr ⟨rfl, .inl ⟨rfl, trivial⟩⟩
  refine Code.reads_ite (fun _ => hwrite _) fun _ => ?_
  exact Code.reads_ite (fun _ => moveFloor_reads eq operation) fun _ => trivial

/-- A pass writes the status once, and of the rest nothing that shows. -/
theorem safetyBody_reads (eq : Compare) (check : CarSharedMem → Bool) (m : CarSharedMem) :
    (safetyBody eq check).Reads shown (some (true, m)) := by
  unfold safetyBody
  refine Code.reads_branch ?engage (Code.reads_branch_commit ?reopen fun may =>
    Code.reads_branch ?stop (Code.reads_branch ?overload (Code.reads_branch ?alarm ?unlock))) m
  case engage => exact fun k hk m => .inl ⟨rfl, hk _⟩
  case reopen => exact fun k hk m => .inr ⟨rfl, hk _⟩
  case stop => exact fun k hk m => .inl ⟨rfl, .inl ⟨rfl, hk _⟩⟩
  case overload => exact fun k hk m => .inl ⟨rfl, hk _⟩
  case alarm => exact fun k hk m => .inl ⟨rfl, hk _⟩
  case unlock => exact fun _ => trivial

theorem safetyCtrl_reads (eq : Compare) (check : CarSharedMem → Bool) :
    (safetyCtrl eq check).Reads shown none :=
  fun m => ⟨fun _ => safetyBody_reads eq check m, fun m' _ => safetyBody_reads eq check m'⟩

theorem carBody_reads (m : CarSharedMem) : carBody.Reads shown (some (true, m)) := by
  refine Code.reads_ite (fun _ => .inl ⟨rfl, .inl ⟨rfl, trivial⟩⟩) fun _ => ?_
  refine Code.reads_ite (fun _ => .inl ⟨rfl, trivial⟩) fun _ => ?_
  exact Code.reads_ite (fun _ => .inl ⟨rfl, trivial⟩) fun _ => trivial

theorem carRun_reads : carRun.Reads shown none :=
  fun m => ⟨fun _ => carBody_reads m, fun m' _ => carBody_reads m'⟩

theorem program_reads (eq : Compare) (check : CarSharedMem → Bool) (j : Job) :
    (j.program eq check).Reads shown none := by
  cases j with
  | internal operation => exact internal_reads strEq operation
  | safety => exact safetyCtrl_reads eq check
  | car => exact carRun_reads

/-! ## Runs -/

theorem started_reads {ι : Type*} (eq : Compare) (check : CarSharedMem → Bool) (jobs : ι → Job)
    (m : CarSharedMem) (i : ι) : ((started eq check jobs m).thread i).Reads shown :=
  program_reads eq check (jobs i)

/-- **Whole sections suffice.** Any number of threads, each statement a step: where the lock is free
the record and the threads are what whole sections lead to, and nothing that these lead to is
missing; and wherever a run stands, it can be continued to such a state. -/
theorem statements_iff_sections {ι : Type*} [DecidableEq ι] (eq : Compare)
    (check : CarSharedMem → Bool) (jobs : ι → Job) (m : CarSharedMem) :
    (∀ q, Reaches Statement.Step (⟨started eq check jobs m, none⟩ : Statement.State _ _ ι)
        ⟨q, none⟩ ↔ Reaches Step (started eq check jobs m) q) ∧
      ∀ s, Reaches Statement.Step ⟨started eq check jobs m, none⟩ s →
        ∃ q, Reaches Statement.Step s ⟨q, none⟩ ∧ Reaches Step (started eq check jobs m) q := by
  have hreads := started_reads eq check jobs m
  refine ⟨fun q => Statement.reaches_iff hreads, fun s hs => ?_⟩
  obtain ⟨q, hq⟩ := Statement.exists_free hreads hs
  exact ⟨q, hq, (Statement.reaches_iff hreads).mp (hs.trans hq)⟩

/-- Wherever a run stands, it can be continued to one of whole sections that is at rest. -/
theorem exists_rest {ι : Type*} [DecidableEq ι] [Fintype ι] {eq : Compare}
    {check : CarSharedMem → Bool} {jobs : ι → Job} {m : CarSharedMem} {s : Statement.State _ _ ι}
    (hs : Reaches Statement.Step ⟨started eq check jobs m, none⟩ s) :
    ∃ q, Reaches Statement.Step s ⟨q, none⟩ ∧ Reaches Step (started eq check jobs m) q ∧
      ∀ i, (q.thread i).isResting = true := by
  have hreads := started_reads eq check jobs m
  obtain ⟨p, hp⟩ := Statement.exists_free hreads hs
  obtain ⟨tr, htr, rfl⟩ := (Statement.reaches_iff hreads).mp (hs.trans hp)
  obtain ⟨_, more, hmore, hrest⟩ :=
    Pool.comes_to_rest (placed_started m).keeps (started_within m) htr
  rw [lastState_append] at hrest
  exact ⟨_, hp.trans (Statement.reaches_of_sections ⟨more, hmore, rfl⟩),
    ⟨tr ++ more, htr.append hmore, lastState_append ..⟩, hrest⟩

/-- **At rest.** However statements have been interleaved so far, the lock can be given back, all
internal controls can return, and every other thread can return or sleep. -/
theorem statements_come_to_rest {ι : Type*} [DecidableEq ι] [Fintype ι] (eq : Compare)
    (check : CarSharedMem → Bool) (jobs : ι → Job) (m : CarSharedMem) (s : Statement.State _ _ ι)
    (hs : Reaches Statement.Step ⟨started eq check jobs m, none⟩ s) :
    ∃ q, Reaches Statement.Step s ⟨q, none⟩ ∧ ∀ i, (q.thread i).isResting = true ∧
      ∀ operation, jobs i = .internal operation → (q.thread i).isReturned = true := by
  obtain ⟨q, hq, ⟨tr, htr, rfl⟩, hrest⟩ := exists_rest hs
  exact ⟨_, hq, ((placed_started m).last htr).rests hrest⟩

/-- The stop button is stored, and the lock not given back yet. -/
theorem statements_come_to_rest_stored :
    ∃ s, Reaches Statement.Step (⟨stopButton, none⟩ : Statement.State _ _ _) s ∧
      s.holder = some 0 ∧ s.mem.emergencyStop = 1 ∧
      ∃ q, Reaches Statement.Step s ⟨q, none⟩ ∧ ∀ i, (q.thread i).isResting = true ∧
        ∀ operation, stopAndSafety i = .internal operation → (q.thread i).isReturned = true := by
  have hrun : ∃ s, Reaches Statement.Step (⟨stopButton, none⟩ : Statement.State _ _ _) s ∧
      s.holder = some 0 ∧ s.mem.emergencyStop = 1 :=
    ⟨_, .cons (.enter (i := 0) rfl rfl) (.cons (.store (i := 0) rfl) (.refl _)), rfl, rfl⟩
  obtain ⟨s, hs, hholder, hstored⟩ := hrun
  exact ⟨s, hs, hholder, hstored,
    statements_come_to_rest strEq dataInconsistent stopAndSafety blank s hs⟩

end Car
end Cab403
