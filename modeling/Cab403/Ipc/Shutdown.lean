import Cab403.Ipc.Handshake

/-!
# The shutdown is orderly

When every request but the last is arithmetic and the last asks to quit, the worker leaves its loop
on that last request and on no other, so that neither party is ever left waiting for one that has
gone. The tear-down itself is a few stages, the same for both control blocks (`Stage`); the worker
is past the first of them only once it has left its loop, and there it touches the block no more.
-/

namespace Cab403
namespace Ipc

open Lib

variable {V : Type*}

/-! ## The requests -/

def Operation.IsArithmetic : Operation → Prop
  | .op_add | .op_sub | .op_mul | .op_div => True
  | _ => False

theorem answer_ne_none {ar : Arith V} {r : Request V} (h : r.op.IsArithmetic) :
    r.answer ar ≠ none := by
  obtain ⟨op, lhs, rhs⟩ := r
  cases op with
  | op_quit => exact absurd h id
  | other code => exact absurd h id
  | _ => exact nofun

/-- An arithmetic request, or the one to quit. -/
theorem mem_controllerMain {requests : List (Request V)} {zero : V}
    (harith : ∀ r ∈ requests, r.op.IsArithmetic) {r : Request V}
    (hr : r ∈ controllerMain requests zero) : r.op.IsArithmetic ∨ r.op = .op_quit := by
  rcases List.mem_append.mp hr with hmem | hlast
  · exact .inl (harith r hmem)
  · rw [List.mem_singleton.mp hlast]
    exact .inr rfl

/-- With a request still to be served, all that were served have an answer. -/
theorem Inv.served_answered {ar : Arith V} {requests : List (Request V)} {zero : V} {s : State V}
    (h : Inv ar (controllerMain requests zero) s) (harith : ∀ r ∈ requests, r.op.IsArithmetic)
    (hmore : current s.controller ++ s.todo ≠ []) : ∀ r ∈ served s, r.answer ar ≠ none := by
  have hscript : served s ++ (current s.controller ++ s.todo) =
      requests ++ [⟨.op_quit, zero, zero⟩] := by
    rw [← List.append_assoc]
    exact h.script_eq
  have hserved : served s <+: requests := by
    rcases List.prefix_concat_iff.mp ⟨_, hscript⟩ with hall | hpre
    · rw [hall] at hscript
      exact absurd (List.append_right_eq_self.mp hscript) hmore
    · exact hpre
  intro r hr
  exact answer_ne_none (harith r (hserved.mem hr))

/-- With none, the one to quit was among them. -/
theorem Inv.served_quit {ar : Arith V} {requests : List (Request V)} {zero : V} {s : State V}
    (h : Inv ar (controllerMain requests zero) s)
    (hnone : current s.controller ++ s.todo = []) : ∃ r ∈ served s, r.answer ar = none := by
  have hscript := h.script_eq
  rw [List.append_assoc, hnone, List.append_nil] at hscript
  refine ⟨⟨.op_quit, zero, zero⟩, ?_, rfl⟩
  rw [hscript]
  exact List.mem_append_right _ (List.mem_singleton_self _)

/-! ## The tear-down -/

/-- How far a control block has been torn down. -/
inductive Stage where
  | attached
  | unmapped
  | fdCleared
  | cleared

def Stage.Holds : Stage → SharedMemory → Prop
  | .attached, m => m.mapped = true ∧ m.data = .block
  | .unmapped, m => m.mapped = false
  | .fdCleared, m => m.mapped = false ∧ m.fd = -1
  | .cleared, m => m.mapped = false ∧ m.fd = -1 ∧ m.data = .null

def Controller.stage : Controller V → Stage
  | .unlink | .clearFd => .unmapped
  | .clearData => .fdCleared
  | .finished => .cleared
  | _ => .attached

def Worker.stage : Worker V → Stage
  | .clearFd => .unmapped
  | .clearData => .fdCleared
  | .finished => .cleared
  | _ => .attached

structure TornDown (s : State V) : Prop where
  controller : s.controller.stage.Holds s.controllerShm
  worker : s.worker.stage.Holds s.workerShm

theorem stage_dispatch (ar : Arith V) (op : Operation) (a b : V) :
    (dispatch ar op a b).stage = .attached := by
  cases op <;> rfl

theorem TornDown.controllerStep {s t : State V} (h : TornDown s) (hst : controllerStep s = some t) :
    TornDown t := by
  obtain ⟨b, c, cm, w, wm, linked, todo, calls⟩ := s
  obtain ⟨hc, hw⟩ := h
  cases c with
  | next =>
    cases todo <;> cases hst <;> exact ⟨hc, hw⟩
  | wait r =>
    simp only [Ipc.controllerStep] at hst
    split at hst
    · cases hst
      exact ⟨hc, hw⟩
    · cases hst
  | munmap =>
    cases hst
    exact ⟨rfl, hw⟩
  | clearFd =>
    cases hst
    exact ⟨⟨hc, rfl⟩, hw⟩
  | clearData =>
    cases hst
    exact ⟨⟨hc.1, hc.2, rfl⟩, hw⟩
  | finished => cases hst
  | _ =>
    cases hst
    exact ⟨hc, hw⟩

theorem TornDown.workerStep {ar : Arith V} {s t : State V} (h : TornDown s)
    (hst : workerStep ar s = some t) : TornDown t := by
  obtain ⟨b, c, cm, w, wm, linked, todo, calls⟩ := s
  obtain ⟨hc, hw⟩ := h
  cases w with
  | wait =>
    simp only [Ipc.workerStep] at hst
    split at hst
    · cases hst
      exact ⟨hc, hw⟩
    · cases hst
  | readOperation x y =>
    cases hst
    refine ⟨hc, ?_⟩
    rw [stage_dispatch]
    exact hw
  | post retVal =>
    cases hst
    cases retVal <;> exact ⟨hc, hw⟩
  | munmap =>
    cases hst
    exact ⟨hc, rfl⟩
  | clearFd =>
    cases hst
    exact ⟨hc, hw, rfl⟩
  | clearData =>
    cases hst
    exact ⟨hc, hw.1, hw.2, rfl⟩
  | finished => cases hst
  | _ =>
    cases hst
    exact ⟨hc, hw⟩

theorem tornDown_step {ar : Arith V} {s t : State V} {p : Party} (h : TornDown s)
    (hst : Step ar s p t) : TornDown t := by
  cases p with
  | controller => exact h.controllerStep hst
  | worker => exact h.workerStep hst

/-! ## Leaving the loop -/

/-- A worker that stands inside `do_work` serves the request the controller waits for. -/
theorem Phase.working {ar : Arith V} {s : State V} (hp : Phase ar s) (hwait : s.worker ≠ .wait)
    (hgone : ¬ Gone s.worker) : ∃ r, s.controller = .wait r ∧ Working ar r s.shared s.worker := by
  have hrest : ∀ {l}, ¬ AtRest ar l s.worker := by
    rintro l (⟨_, hw⟩ | ⟨_, hg⟩)
    · exact hwait hw
    · exact hgone hg
  unfold Phase at hp
  cases hc : s.controller with
  | wait r =>
    rw [hc] at hp
    cases hp.2 with
    | asked _ _ rest => exact absurd rest hrest
    | working _ _ working => exact ⟨r, rfl, working⟩
    | replied _ _ rest _ => exact absurd rest hrest
  | readResult r => rw [hc] at hp; exact absurd hp.2.1 hrest
  | writeLhs r => rw [hc] at hp; exact absurd hp.2.2 hrest
  | writeRhs r => rw [hc] at hp; exact absurd hp.2.2 hrest
  | post r => rw [hc] at hp; exact absurd hp.2.2 hrest
  | _ => rw [hc] at hp; exact absurd hp.2 hrest

/-- The step with which the worker leaves its loop is the one that ends its work on `op_quit`. -/
def LeavesOnQuit (s : State V) (p : Party) (t : State V) : Prop :=
  p = .worker → ¬ Gone s.worker →
    (Gone t.worker ↔ (∃ retVal, s.worker = .post retVal) ∧
      ∃ r, s.controller = .wait r ∧ r.op = .op_quit)

theorem not_gone_dispatch (ar : Arith V) (op : Operation) (a b : V) :
    ¬ Gone (dispatch ar op a b) := by
  cases op <;> exact id

/-- The worker leaves its loop when `do_work` returns false. -/
theorem gone_workerStep {ar : Arith V} {s t : State V} (h : workerStep ar s = some t)
    (hgone : ¬ Gone s.worker) : Gone t.worker ↔ s.worker = .post false := by
  obtain ⟨b, c, cm, w, wm, linked, todo, calls⟩ := s
  cases w with
  | wait =>
    simp only [workerStep] at h
    split at h
    · cases h
      refine iff_of_false id fun hpost => ?_
      cases hpost
    · cases h
  | readOperation x y =>
    cases h
    refine iff_of_false (not_gone_dispatch ar _ x y) fun hpost => ?_
    cases hpost
  | post retVal =>
    cases h
    cases retVal with
    | true =>
      refine iff_of_false id fun hpost => ?_
      cases hpost
    | false => exact iff_of_true trivial rfl
  | munmap | clearFd | clearData | finished => exact absurd trivial hgone
  | _ =>
    cases h
    refine iff_of_false id fun hpost => ?_
    cases hpost

/-- And it returns false for the request to quit. -/
theorem Working.post_iff {ar : Arith V} {r : Request V} {b : SharedData V} {retVal : Bool}
    (h : Working ar r b (.post retVal)) (hr : r.op.IsArithmetic ∨ r.op = .op_quit) :
    retVal = false ↔ r.op = .op_quit := by
  cases retVal with
  | true =>
    have hanswer : r.answer ar = some b.result := h
    refine iff_of_false nofun fun hquit => ?_
    simp only [Request.answer, hquit, reduceCtorEq] at hanswer
  | false =>
    have hanswer : r.answer ar = none := h
    rcases hr with harith | hquit
    · exact absurd hanswer (answer_ne_none harith)
    · exact iff_of_true rfl hquit

theorem Inv.mem_script {ar : Arith V} {script : List (Request V)} {s : State V}
    (h : Inv ar script s) {r : Request V} (hr : s.controller = .wait r) : r ∈ script := by
  rw [← h.script_eq, hr]
  simp [current]

theorem leavesOnQuit {ar : Arith V} {requests : List (Request V)} {zero : V} {s t : State V}
    {p : Party} (h : Inv ar (controllerMain requests zero) s)
    (harith : ∀ r ∈ requests, r.op.IsArithmetic) (hst : Step ar s p t) : LeavesOnQuit s p t := by
  rintro rfl hgone
  rw [gone_workerStep hst hgone]
  constructor
  · intro hpost
    obtain ⟨r, hr, hworking⟩ := h.phase.working (by rw [hpost]; exact nofun) hgone
    rw [hpost] at hworking
    have hquit := hworking.post_iff (mem_controllerMain harith (h.mem_script hr))
    exact ⟨⟨false, hpost⟩, r, hr, hquit.mp rfl⟩
  · rintro ⟨⟨retVal, hpost⟩, r, hr, hquit⟩
    obtain ⟨r', hr', hworking⟩ := h.phase.working (by rw [hpost]; exact nofun) hgone
    obtain rfl := Controller.wait.inj (hr.symm.trans hr')
    rw [hpost] at hworking ⊢
    have hfalse := hworking.post_iff (mem_controllerMain harith (h.mem_script hr))
    rw [hfalse.mpr hquit]

/-! ## Who can go on -/

/-- The controller asks no more. -/
def Leaving : Controller V → Prop
  | .munmap | .unlink | .clearFd | .clearData | .finished => True
  | _ => False

def AskedAll (s : State V) : Prop := Leaving s.controller → s.todo = []

theorem askedAll_step {ar : Arith V} {s t : State V} {p : Party} (h : AskedAll s)
    (hst : Step ar s p t) : AskedAll t := by
  cases p with
  | worker =>
    obtain ⟨_, hctl, htodo, _⟩ := workerStep_frame hst
    unfold AskedAll
    rw [hctl, htodo]
    exact h
  | controller =>
    obtain ⟨b, c, cm, w, wm, linked, todo, calls⟩ := s
    cases c with
    | next =>
      cases todo with
      | nil =>
        cases hst
        exact fun _ => rfl
      | cons r rest =>
        cases hst
        exact fun hleaving => absurd hleaving id
    | wait r =>
      simp only [Step, partyStep, controllerStep] at hst
      split at hst
      · cases hst
        exact fun hleaving => absurd hleaving id
      · cases hst
    | finished => cases hst
    | munmap | unlink | clearFd | clearData =>
      cases hst
      exact fun _ => h trivial
    | _ =>
      cases hst
      exact fun hleaving => absurd hleaving id

/-- Only its wait can hold the controller up. -/
theorem controller_exists_step {s : State V} (hfinished : s.controller ≠ .finished)
    (hwait : ∀ r, s.controller = .wait r → 0 < s.shared.workerSemaphore) :
    ∃ t, controllerStep s = some t := by
  obtain ⟨b, c, cm, w, wm, linked, todo, calls⟩ := s
  cases c with
  | next => cases todo <;> exact ⟨_, rfl⟩
  | wait r => exact ⟨_, if_pos (hwait r rfl)⟩
  | finished => exact absurd rfl hfinished
  | _ => exact ⟨_, rfl⟩

theorem worker_exists_step (ar : Arith V) {s : State V} (hfinished : s.worker ≠ .finished)
    (hwait : s.worker = .wait → 0 < s.shared.controllerSemaphore) :
    ∃ t, workerStep ar s = some t := by
  obtain ⟨b, c, cm, w, wm, linked, todo, calls⟩ := s
  cases w with
  | wait => exact ⟨_, if_pos (hwait rfl)⟩
  | finished => exact absurd rfl hfinished
  | _ => exact ⟨_, rfl⟩

/-- With a request outstanding, the party whose turn it is can take it. -/
theorem Exchange.exists_step {ar : Arith V} {s : State V} {r : Request V}
    (hc : s.controller = .wait r) (h : Exchange ar (served s) r s.shared s.worker)
    (hserved : ∀ r ∈ served s, r.answer ar ≠ none) : ∃ p t, Step ar s p t := by
  cases h with
  | asked hone _ rest =>
    rcases rest with ⟨_, hwait⟩ | ⟨⟨r', hmem, hnone⟩, _⟩
    · refine ⟨.worker, worker_exists_step ar ?_ fun _ => ?_⟩
      · rw [hwait]
        exact nofun
      · omega
    · exact absurd hnone (hserved r' hmem)
  | working _ _ working =>
    refine ⟨.worker, worker_exists_step ar ?_ fun hwait => ?_⟩
    · intro hfinished
      rw [hfinished] at working
      exact working
    · rw [hwait] at working
      exact absurd working id
  | replied _ hone _ _ =>
    refine ⟨.controller, controller_exists_step ?_ fun _ _ => ?_⟩
    · rw [hc]
      exact nofun
    · omega

/-- When the controller has finished, the worker is on its way out. -/
theorem Inv.gone_of_finished {ar : Arith V} {requests : List (Request V)} {zero : V} {s : State V}
    (h : Inv ar (controllerMain requests zero) s) (hasked : AskedAll s)
    (hfinished : s.controller = .finished) : Quiet s.shared ∧ Gone s.worker := by
  have hphase := h.phase
  unfold Phase at hphase
  rw [hfinished] at hphase
  refine ⟨hphase.1, ?_⟩
  have hnone : current s.controller ++ s.todo = [] := by
    rw [hasked (by rw [hfinished]; trivial), hfinished]
    rfl
  obtain ⟨r, hr, hquit⟩ := h.served_quit hnone
  rcases hphase.2 with ⟨hall, _⟩ | ⟨_, hgone⟩
  · exact absurd hquit (hall r hr)
  · exact hgone

theorem exists_step {ar : Arith V} {requests : List (Request V)} {zero : V} {s : State V}
    (h : Inv ar (controllerMain requests zero) s) (hasked : AskedAll s)
    (harith : ∀ r ∈ requests, r.op.IsArithmetic)
    (hbusy : ¬ (s.controller = .finished ∧ s.worker = .finished)) : ∃ p t, Step ar s p t := by
  by_cases hfinished : s.controller = .finished
  · obtain ⟨_, hgone⟩ := h.gone_of_finished hasked hfinished
    refine ⟨.worker, worker_exists_step ar (fun hw => hbusy ⟨hfinished, hw⟩) fun hwait => ?_⟩
    rw [hwait] at hgone
    exact absurd hgone id
  · by_cases hwait : ∃ r, s.controller = .wait r
    · obtain ⟨r, hr⟩ := hwait
      have hphase := h.phase
      unfold Phase at hphase
      rw [hr] at hphase
      refine hphase.2.exists_step hr (h.served_answered harith ?_)
      rw [hr]
      exact nofun
    · exact ⟨.controller, controller_exists_step hfinished fun r hr => absurd ⟨r, hr⟩ hwait⟩

/-! ## Every run -/

/-- The points of `do_work` at which the next step reads or writes the block. -/
def Worker.Accesses : Worker V → Prop
  | .wait | .readLhs | .readRhs _ | .readOperation _ _ | .writeResult _ | .post _ => True
  | _ => False

structure Orderly (ar : Arith V) (s : State V) : Prop where
  notStuck : ¬ (s.controller = .finished ∧ s.worker = .finished) → ∃ p t, Step ar s p t
  noLateAccess : s.worker.Accesses → s.workerShm.mapped = true ∧ s.workerShm.data = .block
  final : s.controller = .finished → s.worker = .finished →
    (s.shared.controllerSemaphore = 0 ∧ s.shared.workerSemaphore = 0) ∧
    (s.controllerShm.fd = -1 ∧ s.controllerShm.data = .null) ∧
    (s.workerShm.fd = -1 ∧ s.workerShm.data = .null)

theorem Inv.orderly {ar : Arith V} {requests : List (Request V)} {zero : V} {s : State V}
    (h : Inv ar (controllerMain requests zero) s) (hasked : AskedAll s) (htorn : TornDown s)
    (harith : ∀ r ∈ requests, r.op.IsArithmetic) : Orderly ar s := by
  refine ⟨exists_step h hasked harith, fun haccess => ?_, fun hc hw => ?_⟩
  · have hworker := htorn.worker
    cases hw : s.worker with
    | munmap | clearFd | clearData | finished =>
      rw [hw] at haccess
      exact absurd haccess id
    | _ =>
      rw [hw] at hworker
      exact hworker
  · have hcontroller := htorn.controller
    have hworker := htorn.worker
    rw [hc] at hcontroller
    rw [hw] at hworker
    exact ⟨(h.gone_of_finished hasked hc).1, hcontroller.2, hworker.2⟩

/-- **The shutdown is orderly.** If every request but the last is arithmetic, then in every
interleaving some party can go on until both have finished, the worker touches the block only
while it is mapped and leaves its loop on the last request alone, and both control blocks end
cleared, with the semaphores at zero. -/
theorem shutdown_orderly {ar : Arith V} {requests : List (Request V)}
    (harith : ∀ r ∈ requests, r.op.IsArithmetic) {zero : V} {block : SharedData V} {cfd wfd : Int}
    {tr : List (Party × State V)}
    (h : Trace (Step ar) (initial (controllerMain requests zero) block cfd wfd) tr) :
    AllStates (Orderly ar) (initial (controllerMain requests zero) block cfd wfd) tr ∧
      AllSteps LeavesOnQuit (initial (controllerMain requests zero) block cfd wfd) tr := by
  have hinv := inv_initial ar (controllerMain requests zero) block cfd wfd
  constructor
  · have hall := h.allStates
      (I := fun s => Inv ar (controllerMain requests zero) s ∧ AskedAll s ∧ TornDown s)
      (fun s p t hs hst => ⟨inv_step ar _ s p t hs.1 hst, askedAll_step hs.2.1 hst,
        tornDown_step hs.2.2 hst⟩)
      ⟨hinv, fun hleaving => absurd hleaving id, ⟨rfl, rfl⟩, ⟨rfl, rfl⟩⟩
    exact hall.imp fun s hs => hs.1.orderly hs.2.1 hs.2.2 harith
  · exact h.allSteps (fun s p t hs hst => ⟨inv_step ar _ s p t hs hst, leavesOnQuit hs harith hst⟩)
      hinv

/-- Two requests answered, and both parties through their tear-down. -/
theorem shutdown_orderly_twice :
    ∃ tr : List (Party × State Int), Trace (Step intArith) twoRequestsStart tr ∧
      (lastState twoRequestsStart tr).controller = .finished ∧
      (lastState twoRequestsStart tr).worker = .finished ∧
      AllStates (Orderly intArith) twoRequestsStart tr ∧
      AllSteps LeavesOnQuit twoRequestsStart tr := by
  have htr := follow_trace (partyStep intArith) twoRequestsStart
    (List.flatten (List.replicate 3
      (List.replicate 5 .controller ++ List.replicate 8 .worker ++ List.replicate 7 .controller)))
  refine ⟨_, htr, rfl, rfl, shutdown_orderly ?_ htr⟩
  intro r hr
  rcases List.mem_cons.mp hr with rfl | hr
  · trivial
  · rw [List.mem_singleton.mp hr]
    trivial

end Ipc
end Cab403
