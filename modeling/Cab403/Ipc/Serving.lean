import Cab403.Ipc.Shutdown

/-!
# Requests that are not arithmetic

What `do_work` promises of any operation but `op_quit`: the call returns, and the worker goes on
serving. The arithmetic operations keep the promise. A code that is none of the enumeration takes
the `default` branch of the switch, and that sets `retVal` to `false`, as the branch of `op_quit`
does. The request itself is still answered; it is the *next* one that nobody takes up.

A run has only so many steps (`remaining`), whatever the requests, so that each can be continued
until nobody can move. Where it then stands is what tells whether the promise is kept.
-/

namespace Cab403
namespace Ipc

open Lib

variable {V : Type*}

/-! ## Every run ends -/

/-- Bounds the steps of the controller, and those of the worker on what is still to be posted. -/
def Controller.work (todo : Nat) : Controller V → Nat
  | .next => 16 * todo + 5
  | .writeOperation _ => 16 * todo + 20
  | .writeLhs _ => 16 * todo + 19
  | .writeRhs _ => 16 * todo + 18
  | .post _ => 16 * todo + 17
  | .wait _ => 16 * todo + 7
  | .readResult _ => 16 * todo + 6
  | .munmap => 4
  | .unlink => 3
  | .clearFd => 2
  | .clearData => 1
  | .finished => 0

def Worker.work : Worker V → Nat
  | .wait => 0
  | .readLhs => 8
  | .readRhs _ => 7
  | .readOperation _ _ => 6
  | .writeResult _ => 5
  | .post _ => 4
  | .munmap => 3
  | .clearFd => 2
  | .clearData => 1
  | .finished => 0

/-- At most so many steps are left; a request that is posted costs the worker nine. -/
def remaining (s : State V) : Nat :=
  s.controller.work s.todo.length + 9 * s.shared.controllerSemaphore + s.worker.work

theorem work_dispatch (ar : Arith V) (op : Operation) (a b : V) :
    (dispatch ar op a b).work ≤ 5 := by
  cases op with
  | op_quit | other _ => exact Nat.le_succ 4
  | _ => exact Nat.le_refl 5

theorem remaining_controllerStep {s t : State V} (h : controllerStep s = some t) :
    remaining t < remaining s := by
  obtain ⟨b, c, cm, w, wm, linked, todo, calls⟩ := s
  cases c with
  | next =>
    cases todo with
    | nil =>
      cases h
      simp [remaining, Controller.work]
    | cons r rest =>
      cases h
      simp only [remaining, Controller.work, List.length_cons]
      omega
  | wait r =>
    simp only [controllerStep] at h
    split at h
    · cases h
      simp [remaining, Controller.work]
    · cases h
  | finished => cases h
  | _ =>
    cases h
    simp only [remaining, Controller.work]
    omega

theorem remaining_workerStep {ar : Arith V} {s t : State V} (h : workerStep ar s = some t) :
    remaining t < remaining s := by
  obtain ⟨b, c, cm, w, wm, linked, todo, calls⟩ := s
  cases w with
  | wait =>
    simp only [workerStep] at h
    split at h
    · cases h
      simp only [remaining, Worker.work]
      omega
    · cases h
  | readOperation x y =>
    cases h
    exact Nat.add_lt_add_left (Nat.lt_succ_of_le (work_dispatch ar b.operation x y)) _
  | post retVal =>
    cases h
    cases retVal <;> simp [remaining, Worker.work]
  | finished => cases h
  | _ =>
    cases h
    simp only [remaining, Worker.work]
    omega

theorem remaining_step {ar : Arith V} {s t : State V} {p : Party} (h : Step ar s p t) :
    remaining t < remaining s := by
  cases p with
  | controller => exact remaining_controllerStep h
  | worker => exact remaining_workerStep h

/-- **No run is longer** than what was left at its start. -/
theorem length_le_remaining {ar : Arith V} {s : State V} {tr : List (Party × State V)}
    (h : Trace (Step ar) s tr) : tr.length ≤ remaining s := by
  obtain ⟨m, hlength, _⟩ := h.lowers (I := fun s n => remaining s = n)
    (fun s p t n hs hst => ⟨_, hs ▸ remaining_step hst, rfl⟩) rfl
  omega

/-- A run in which nobody can move any more. -/
theorem exists_maximal (ar : Arith V) (s : State V) :
    ∃ tr, Trace (Step ar) s tr ∧ ¬ ∃ p t, Step ar (lastState s tr) p t :=
  Trace.exists_finish (I := fun s n => remaining s = n)
    (fun _ _ _ _ hs hst => ⟨_, hs ▸ remaining_step hst, rfl⟩)
    (fun _ _ _ => (Classical.em _).symm) rfl

/-! ## The requests that are served -/

theorem AtRest.not_gone {ar : Arith V} {l : List (Request V)} {w : Worker V}
    (h : AtRest ar l w) (hl : ∀ r ∈ l, r.answer ar ≠ none) : ¬ Gone w := by
  rcases h with ⟨_, hwait⟩ | ⟨⟨r, hr, hnone⟩, _⟩
  · rw [hwait]
    exact id
  · exact absurd hnone (hl r hr)

theorem Working.not_gone {ar : Arith V} {r : Request V} {b : SharedData V} {w : Worker V}
    (h : Working ar r b w) : ¬ Gone w := by
  cases w with
  | munmap | clearFd | clearData | finished => exact absurd h id
  | _ => exact id

/-- The requests taken up so far are requests of the script. -/
theorem Inv.mem_of_served {ar : Arith V} {script : List (Request V)} {s : State V}
    (h : Inv ar script s) {r : Request V} (hr : r ∈ served s ++ current s.controller) :
    r ∈ script := by
  rw [← h.script_eq]
  exact List.mem_append_left _ hr

/-- **If every request has an answer, the worker stays in its loop.** -/
theorem Inv.not_gone {ar : Arith V} {script : List (Request V)} {s : State V}
    (h : Inv ar script s) (hall : ∀ r ∈ script, r.answer ar ≠ none) : ¬ Gone s.worker := by
  have hdone : ∀ r ∈ served s, r.answer ar ≠ none :=
    fun r hr => hall r (h.mem_of_served (List.mem_append_left _ hr))
  have hcurrent : ∀ r, s.controller = .wait r ∨ s.controller = .readResult r →
      ∀ r' ∈ served s ++ [r], r'.answer ar ≠ none := by
    intro r hc r' hr'
    refine hall r' (h.mem_of_served ?_)
    rcases hc with hc | hc <;> rw [hc] <;> exact hr'
  have hphase := h.phase
  unfold Phase at hphase
  cases hc : s.controller with
  | wait r =>
    rw [hc] at hphase
    cases hphase.2 with
    | asked _ _ rest => exact rest.not_gone hdone
    | working _ _ working => exact working.not_gone
    | replied _ _ rest _ => exact rest.not_gone (hcurrent r (.inl hc))
  | readResult r =>
    rw [hc] at hphase
    exact hphase.2.1.not_gone (hcurrent r (.inr hc))
  | writeLhs r | writeRhs r | post r =>
    rw [hc] at hphase
    exact hphase.2.2.not_gone hdone
  | _ =>
    rw [hc] at hphase
    exact hphase.2.not_gone hdone

/-- Some party can go on until every call has returned. -/
theorem Inv.exists_step {ar : Arith V} {script : List (Request V)} {s : State V}
    (h : Inv ar script s) (hasked : AskedAll s) (hall : ∀ r ∈ script, r.answer ar ≠ none)
    (hmore : served s ≠ script) : ∃ p t, Step ar s p t := by
  by_cases hwait : ∃ r, s.controller = .wait r
  · obtain ⟨r, hr⟩ := hwait
    have hphase := h.phase
    unfold Phase at hphase
    rw [hr] at hphase
    refine hphase.2.exists_step hr fun r' hr' => hall r' (h.mem_of_served ?_)
    exact List.mem_append_left _ hr'
  · refine ⟨.controller, controller_exists_step ?_ fun r hr => absurd ⟨r, hr⟩ hwait⟩
    intro hfinished
    have hscript := h.script_eq
    rw [hfinished, hasked (by rw [hfinished]; trivial)] at hscript
    simp only [current, List.append_nil] at hscript
    exact hmore hscript

/-- **With a request among them that has no answer, the worker ends up gone.** -/
theorem Inv.gone_of_served {ar : Arith V} {script : List (Request V)} {s : State V}
    (h : Inv ar script s) (hserved : served s = script)
    (hnone : ∃ r ∈ script, r.answer ar = none) : Gone s.worker := by
  have hscript := h.script_eq
  rw [hserved, List.append_assoc, List.append_right_eq_self] at hscript
  have hcurrent : current s.controller = [] := (List.append_eq_nil_iff.mp hscript).1
  have hrest : AtRest ar (served s) s.worker := by
    have hphase := h.phase
    unfold Phase at hphase
    cases hc : s.controller with
    | next | munmap | unlink | clearFd | clearData | finished =>
      rw [hc] at hphase
      exact hphase.2
    | _ =>
      rw [hc] at hcurrent
      cases hcurrent
  rcases hrest with ⟨hall, _⟩ | ⟨_, hgone⟩
  · obtain ⟨r, hr, hr'⟩ := hnone
    exact absurd hr' (hall r (hserved ▸ hr))
  · exact hgone

/-! ## Every run -/

/-- Every call of the script returns, and the worker is serving all along: no run goes on for
ever, and in each state of each run the worker is in its loop, with the block mapped, and someone
can move unless all the calls have returned. -/
def Serving (ar : Arith V) (script : List (Request V)) (start : State V) : Prop :=
  ∃ bound, ∀ tr, Trace (Step ar) start tr → tr.length ≤ bound ∧
    (¬ Gone (lastState start tr).worker ∧ (lastState start tr).workerShm.mapped = true) ∧
    (served (lastState start tr) = script ∨ ∃ p t, Step ar (lastState start tr) p t)

theorem stage_of_not_gone {w : Worker V} (h : ¬ Gone w) : w.stage = .attached := by
  cases w with
  | clearFd | clearData | finished => exact absurd trivial h
  | _ => rfl

variable {ar : Arith V} {script : List (Request V)} {block : SharedData V} {cfd wfd : Int}

theorem inv_last {tr : List (Party × State V)}
    (h : Trace (Step ar) (initial script block cfd wfd) tr) :
    Inv ar script (lastState (initial script block cfd wfd) tr) :=
  (h.allStates (inv_step ar script) (inv_initial ar script block cfd wfd)).last

theorem serving_of_arithmetic (harith : ∀ r ∈ script, r.op.IsArithmetic) :
    Serving ar script (initial script block cfd wfd) := by
  have hanswer : ∀ r ∈ script, r.answer ar ≠ none := fun r hr => answer_ne_none (harith r hr)
  refine ⟨_, fun tr htr => ⟨length_le_remaining htr, ?_, ?_⟩⟩
  · have htorn := (htr.allStates (I := TornDown) (fun _ _ _ hs hst => tornDown_step hs hst)
      ⟨⟨rfl, rfl⟩, ⟨rfl, rfl⟩⟩).last
    have hgone := (inv_last htr).not_gone hanswer
    have hworker := htorn.worker
    rw [stage_of_not_gone hgone] at hworker
    exact ⟨hgone, hworker.1⟩
  · have hasked := (htr.allStates (I := AskedAll) (fun _ _ _ hs hst => askedAll_step hs hst)
      (fun hleaving => absurd hleaving id)).last
    by_cases hserved : served (lastState (initial script block cfd wfd) tr) = script
    · exact .inl hserved
    · exact .inr ((inv_last htr).exists_step hasked hanswer hserved)

/-- A run that has come to its end has served the whole script, or got stuck. -/
theorem Serving.answered (h : Serving ar script (initial script block cfd wfd)) :
    ∀ r ∈ script, r.answer ar ≠ none := by
  intro r hr hnone
  obtain ⟨tr, htr, hstuck⟩ := exists_maximal ar (initial script block cfd wfd)
  obtain ⟨bound, hall⟩ := h
  obtain ⟨_, ⟨hgone, _⟩, hserved⟩ := hall tr htr
  exact hgone ((inv_last htr).gone_of_served (hserved.resolve_right hstuck) ⟨r, hr, hnone⟩)

/-- **When the worker goes on serving**: when every request is arithmetic. -/
theorem serving_iff (hquit : ∀ r ∈ script, r.op ≠ .op_quit) :
    Serving ar script (initial script block cfd wfd) ↔ ∀ r ∈ script, r.op.IsArithmetic := by
  constructor
  · intro h r hr
    have hanswer := h.answered r hr
    cases hop : r.op with
    | op_quit => exact absurd hop (hquit r hr)
    | other code => exact absurd (by simp [Request.answer, hop]) hanswer
    | _ => trivial
  · exact serving_of_arithmetic

/-- An addition, as the only request. -/
theorem serving_iff_add : Serving intArith [⟨.op_add, 2, 3⟩]
    (initial [⟨.op_add, 2, 3⟩] ⟨0, 0, .op_quit, 0, 0, 9⟩ 3 3) := by
  refine (serving_iff ?_).mpr ?_
  · simp
  · simp [Operation.IsArithmetic]

/-- Code `7`, and then an addition, which is never taken up. -/
def sevenThenAdd : List (Request Int) := [⟨.other 7, 0, 0⟩, ⟨.op_add, 2, 3⟩]

theorem not_serving_seven : (∀ r ∈ sevenThenAdd, r.op ≠ .op_quit) ∧
    ¬ Serving intArith sevenThenAdd (initial sevenThenAdd ⟨0, 0, .op_quit, 0, 0, 9⟩ 3 3) := by
  refine ⟨by simp [sevenThenAdd], ?_⟩
  intro h
  exact h.answered ⟨.other 7, 0, 0⟩ List.mem_cons_self rfl

end Ipc
end Cab403
