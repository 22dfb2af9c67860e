import Cab403.Car.Internal
import Cab403.Lib.Discipline

/-!
# How the internal controls use the lock

`internal` has seven exits once the record is mapped, and nine locked sections that write. Its
refusals stand before any of them: even at the step over the ground floor, which writes the
boundary floor first, the tests for the ends of the building are the other branch.
-/

namespace Cab403
namespace Car

open Lib

variable {stored : Bool}

theorem writeLocked_obeys {f : CarSharedMem → CarSharedMem} {next : Program}
    (hnext : next.Obeys .outside true) : (writeLocked f next).Obeys .outside stored :=
  ⟨_, rfl, _, rfl, _, rfl, _, rfl, hnext⟩

/-- An exit that succeeds may come after anything. -/
theorem done_obeys : (Code.exit true : Program).Obeys .outside stored :=
  ⟨rfl, nofun⟩

/-- One that fails comes before every write. -/
theorem refuse_obeys {message : String} : (refuse message).Obeys .outside false :=
  ⟨rfl, fun _ => rfl⟩

theorem writeNextFloor_obeys (B : Bool) (lvl : UInt8) :
    (writeNextFloor B lvl).Obeys .outside stored := by
  cases B with
  | false => exact writeLocked_obeys done_obeys
  | true => exact ⟨_, rfl, _, rfl, _, rfl, _, rfl, _, rfl, done_obeys⟩

theorem moveFrom_obeys (eq : Compare) (operation : CString) (B : Bool) (lvl : UInt8) :
    (moveFrom eq operation B lvl).Obeys .outside false := by
  refine Code.obeys_ite ?_ (Code.obeys_ite ?_ (writeNextFloor_obeys B lvl))
  · -- up
    refine Code.obeys_ite (writeLocked_obeys (writeNextFloor_obeys B _)) ?_
    exact Code.obeys_ite refuse_obeys (writeNextFloor_obeys B _)
  · -- down
    refine Code.obeys_ite (writeLocked_obeys (writeNextFloor_obeys B _)) ?_
    exact Code.obeys_ite refuse_obeys (writeNextFloor_obeys B _)

theorem refuseAt_obeys {eq : Compare} {str : CString} {message : String} {next : Program}
    (hnext : next.Obeys .outside false) : (refuseAt eq str message next).Obeys .outside false :=
  fun _ => Code.obeys_ite refuse_obeys hnext

theorem moveFloor_obeys (eq : Compare) (operation : CString) :
    (moveFloor eq operation).Obeys .outside false := by
  intro m
  refine Code.obeys_ite refuse_obeys ?_
  apply refuseAt_obeys
  apply refuseAt_obeys
  apply refuseAt_obeys
  apply refuseAt_obeys
  intro at1 at2
  exact moveFrom_obeys eq operation _ _

theorem internal_obeys (eq : Compare) (operation : CString) :
    (internal eq operation).Obeys .outside false := by
  have hflag : ∀ f, (writeLocked f (.exit true)).Obeys .outside false :=
    fun f => writeLocked_obeys done_obeys
  refine Code.obeys_ite (hflag _) ?_
  refine Code.obeys_ite (hflag _) ?_
  refine Code.obeys_ite (hflag _) ?_
  refine Code.obeys_ite ⟨_, rfl, _, rfl, _, rfl, _, rfl, _, rfl, done_obeys⟩ ?_
  refine Code.obeys_ite (hflag _) ?_
  exact Code.obeys_ite (moveFloor_obeys eq operation) refuse_obeys

/-- **`internal` keeps the discipline on every path to an exit**, whatever the operation and
whatever its loads find. From any record, run alone, it follows such a path. -/
theorem internal_disciplined (operation : CString) :
    (∀ m, ∃ o, (internal strEq operation).exec m = some o ∧
      (internal strEq operation).Path ((internal strEq operation).acts m) o.ok) ∧
    ∀ acts ok, (internal strEq operation).Path acts ok → Disciplined acts ok := by
  have hobeys := internal_obeys strEq operation
  constructor
  · intro m
    obtain ⟨o, hexec⟩ := hobeys.exec m
    exact ⟨o, hexec, Code.path_of_exec hexec⟩
  · intro acts ok hpath
    exact hobeys.disciplined hpath

end Car
end Cab403
