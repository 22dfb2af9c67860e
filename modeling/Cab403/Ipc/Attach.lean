import Cab403.Lib.Trace

/-!
# Attaching to the shared memory

`create_shared_object` is six system calls of the controller, `get_shared_object` two of the worker,
and a third waits in `do_work`. Nothing makes the one party wait for the other: `sleep` gives the
controller time, and no more. A worker that is early finds no object of the name and fails, or
finds the object of an earlier run, or one that is not truncated yet, or waits on a semaphore
before there is one.

What `get_shared_object` asks to be invoked after, and `main` sleeps for, is an order of these
calls. The worker is attached as it should be (`Attached`) in exactly the runs whose calls come in
that order (`attached_iff`): it is a condition on the calls made so far, which a state keeps.
-/

namespace Cab403
namespace Ipc
namespace Attach

open Lib

/-! ## The calls -/

/-- An object the name can lead to: one of an earlier run, or this controller's. -/
inductive Object where
  | earlier
  | created
  deriving DecidableEq, Repr

/-- The calls of `create_shared_object`. -/
inductive ControllerCall where
  | shmUnlink
  | shmOpen (ok : Bool)
  | ftruncate (ok : Bool)
  | mmap (ok : Bool)
  | semInitController
  | semInitWorker
  deriving DecidableEq, Repr

/-- The calls of `get_shared_object`, and the first one of `do_work`. -/
inductive WorkerCall where
  | shmOpen (ok : Bool)
  | mmap (ok : Bool)
  | semWait
  deriving DecidableEq, Repr

inductive Call where
  | controller (c : ControllerCall)
  | worker (w : WorkerCall)
  deriving DecidableEq, Repr

/-! ## The parties -/

/-- The controller: before each call, or with the value `create_shared_object` returned. -/
inductive Controller where
  | shmUnlink
  | shmOpen
  | ftruncate
  | mmap
  | semInitController
  | semInitWorker
  | returned (retVal : Bool)
  deriving DecidableEq, Repr

/-- The worker. At `semWait` `get_shared_object` has returned true. -/
inductive Worker where
  | shmOpen
  | mmap (fd : Object)
  | semWait (data : Object)
  | waiting (data : Object)
  | failed
  deriving DecidableEq, Repr

/-- What the name leads to, the controller's object, and the calls made so far. A semaphore that
is not initialised has no value. -/
structure State where
  name : Option Object
  truncated : Bool
  controllerSemaphore : Option Nat
  workerSemaphore : Option Nat
  controller : Controller
  worker : Worker
  calls : List Call
  deriving DecidableEq, Repr

/-- `create_shared_object`. Its `shm_open` creates: nobody else makes an object of the name that
it has unlinked. -/
def createSharedObject (c : ControllerCall) (s : State) : Option State :=
  match s.controller, c with
  | .shmUnlink, .shmUnlink => some { s with name := none, controller := .shmOpen }
  | .shmOpen, .shmOpen true => some { s with name := some .created, controller := .ftruncate }
  | .ftruncate, .ftruncate true => some { s with truncated := true, controller := .mmap }
  | .mmap, .mmap true => some { s with controller := .semInitController }
  | .semInitController, .semInitController =>
    some { s with controllerSemaphore := some 0, controller := .semInitWorker }
  | .semInitWorker, .semInitWorker =>
    some { s with workerSemaphore := some 0, controller := .returned true }
  | .shmOpen, .shmOpen false | .ftruncate, .ftruncate false | .mmap, .mmap false =>
    some { s with controller := .returned false }
  | _, _ => none

/-- `get_shared_object`, up to the `sem_wait`. Without `O_CREAT`, `shm_open` needs an object. -/
def getSharedObject (w : WorkerCall) (s : State) : Option State :=
  match s.worker, w with
  | .shmOpen, .shmOpen true => s.name.map fun fd => { s with worker := .mmap fd }
  | .mmap fd, .mmap true => some { s with worker := .semWait fd }
  | .semWait data, .semWait => some { s with worker := .waiting data }
  | .shmOpen, .shmOpen false | .mmap _, .mmap false => some { s with worker := .failed }
  | _, _ => none

def callStep (l : Call) (s : State) : Option State :=
  match l with
  | .controller c => (createSharedObject c s).map fun t => { t with calls := s.calls ++ [l] }
  | .worker w => (getSharedObject w s).map fun t => { t with calls := s.calls ++ [l] }

def Step (s : State) (l : Call) (t : State) : Prop := callStep l s = some t

/-- Before the first call, with or without an object of an earlier run. -/
def start (stale : Bool) : State where
  name := if stale then some .earlier else none
  truncated := false
  controllerSemaphore := none
  workerSemaphore := none
  controller := .shmUnlink
  worker := .shmOpen
  calls := []

/-! ## What is wanted, and the order -/

/-- What the worker has mapped once `get_shared_object` has returned true. -/
def Worker.data : Worker → Option Object
  | .semWait data | .waiting data => some data
  | _ => none

structure Attached (s : State) : Prop where
  mapped : ∀ data, s.worker.data = some data → data = .created ∧ s.truncated = true
  waited : ∀ data, s.worker = .waiting data →
    s.controllerSemaphore.isSome = true ∧ s.workerSemaphore.isSome = true

/-- The controller opens first, and truncates before the worker maps and initialises before it
waits. -/
def InOrder (s : State) : Call → Prop
  | .worker (.mmap true) =>
    Precedes (.controller (.shmOpen true)) (.worker (.shmOpen true)) s.calls ∧
      .controller (.ftruncate true) ∈ s.calls
  | .worker .semWait =>
    .controller .semInitController ∈ s.calls ∧ .controller .semInitWorker ∈ s.calls
  | _ => True

/-! ## What the calls tell -/

/-- What the controller has done is what it has called. -/
structure Made (s : State) : Prop where
  name : s.name = some .created ↔ .controller (.shmOpen true) ∈ s.calls
  truncated : s.truncated = true ↔ .controller (.ftruncate true) ∈ s.calls
  controllerSemaphore :
    s.controllerSemaphore.isSome = true ↔ .controller .semInitController ∈ s.calls
  workerSemaphore : s.workerSemaphore.isSome = true ↔ .controller .semInitWorker ∈ s.calls
  unlinked : s.controller = .shmUnlink → .controller (.shmOpen true) ∉ s.calls

/-- The worker has the descriptor of the controller's object if the controller opened first. -/
structure Opened (s : State) : Prop where
  unopened : s.worker = .shmOpen → .worker (.shmOpen true) ∉ s.calls
  fd : ∀ fd, s.worker = .mmap fd →
    (fd = .created ↔ Precedes (.controller (.shmOpen true)) (.worker (.shmOpen true)) s.calls)

theorem made_start (stale : Bool) : Made (start stale) := by
  cases stale <;> constructor <;> simp [start]

theorem opened_start (stale : Bool) : Opened (start stale) := by
  constructor <;> simp [start]

theorem createSharedObject_frame {c : ControllerCall} {s t : State}
    (h : createSharedObject c s = some t) : t.worker = s.worker := by
  unfold createSharedObject at h
  split at h <;> cases h <;> rfl

theorem getSharedObject_frame {w : WorkerCall} {s t : State} (h : getSharedObject w s = some t) :
    t.name = s.name ∧ t.truncated = s.truncated ∧
      t.controllerSemaphore = s.controllerSemaphore ∧ t.workerSemaphore = s.workerSemaphore ∧
      t.controller = s.controller := by
  unfold getSharedObject at h
  split at h
  · obtain ⟨fd, _, rfl⟩ := Option.map_eq_some_iff.mp h
    exact ⟨rfl, rfl, rfl, rfl, rfl⟩
  all_goals cases h
  all_goals exact ⟨rfl, rfl, rfl, rfl, rfl⟩

theorem Made.worker {w : WorkerCall} {s t : State} (h : Made s)
    (hst : getSharedObject w s = some t) : Made { t with calls := s.calls ++ [.worker w] } := by
  obtain ⟨hname, htruncated, hcontroller, hworker, hpoint⟩ := getSharedObject_frame hst
  have hcalls : ∀ c, .controller c ∈ s.calls ++ [.worker w] ↔ .controller c ∈ s.calls := by
    intro c
    simp
  constructor <;> simp only [hcalls, hname, htruncated, hcontroller, hworker, hpoint]
  · exact h.name
  · exact h.truncated
  · exact h.controllerSemaphore
  · exact h.workerSemaphore
  · exact h.unlinked

theorem Opened.controller {c : ControllerCall} {s t : State} (h : Opened s)
    (hst : createSharedObject c s = some t) :
    Opened { t with calls := s.calls ++ [.controller c] } := by
  have hworker := createSharedObject_frame hst
  constructor
  · intro hopen
    have hcalls := h.unopened (hworker.symm.trans hopen)
    simpa using hcalls
  · intro fd hmmap
    have hfd := h.fd fd (hworker.symm.trans hmmap)
    simpa [precedes_concat] using hfd

theorem Made.controller {c : ControllerCall} {s t : State} (h : Made s)
    (hst : createSharedObject c s = some t) :
    Made { t with calls := s.calls ++ [.controller c] } := by
  obtain ⟨hname, htruncated, hcontroller, hworker, hunlinked⟩ := h
  unfold createSharedObject at hst
  split at hst
  all_goals cases hst
  -- a call joins the calls as its effect joins the state
  all_goals constructor <;> simp_all

/-- The one call of the worker that matters here is its `shm_open`: it finds the object of the
controller if that has been created before. -/
theorem Opened.worker {w : WorkerCall} {s t : State} (h : Opened s) (hmade : Made s)
    (hst : getSharedObject w s = some t) : Opened { t with calls := s.calls ++ [.worker w] } := by
  unfold getSharedObject at hst
  split at hst
  · rename_i hpoint
    obtain ⟨fd, hname, rfl⟩ := Option.map_eq_some_iff.mp hst
    have hnot : ¬ Precedes (.controller (.shmOpen true)) (.worker (.shmOpen true)) s.calls :=
      fun hprecedes => h.unopened hpoint hprecedes.mem
    constructor
    · intro hopen
      cases hopen
    · intro fd' hfd
      cases hfd
      rw [precedes_concat, or_iff_right hnot, and_iff_right rfl, ← hmade.name, hname,
        Option.some.injEq]
  all_goals cases hst
  all_goals
    constructor
    · intro hopen
      cases hopen
    · intro fd hfd
      cases hfd

theorem recorded_step {s t : State} {l : Call} (h : Made s ∧ Opened s) (hst : Step s l t) :
    Made t ∧ Opened t := by
  cases l with
  | controller c =>
    obtain ⟨t, hcall, rfl⟩ := Option.map_eq_some_iff.mp hst
    exact ⟨h.1.controller hcall, h.2.controller hcall⟩
  | worker w =>
    obtain ⟨t, hcall, rfl⟩ := Option.map_eq_some_iff.mp hst
    exact ⟨h.1.worker hcall, h.2.worker h.1 hcall⟩

/-! ## Every run -/

/-- The controller takes nothing back. -/
theorem createSharedObject_keeps {c : ControllerCall} {s t : State}
    (h : createSharedObject c s = some t) :
    (s.truncated = true → t.truncated = true) ∧
      (s.controllerSemaphore.isSome = true → t.controllerSemaphore.isSome = true) ∧
      (s.workerSemaphore.isSome = true → t.workerSemaphore.isSome = true) := by
  unfold createSharedObject at h
  split at h
  all_goals cases h
  all_goals simp

theorem Attached.controller {c : ControllerCall} {s t : State} (h : Attached s)
    (hst : createSharedObject c s = some t) (calls : List Call) :
    Attached { t with calls := calls } := by
  have hworker := createSharedObject_frame hst
  obtain ⟨htruncated, hcontroller, hsemaphore⟩ := createSharedObject_keeps hst
  constructor
  · intro data hdata
    obtain ⟨hcreated, htrue⟩ := h.mapped data ((congrArg Worker.data hworker).symm.trans hdata)
    exact ⟨hcreated, htruncated htrue⟩
  · intro data hwaiting
    obtain ⟨hfirst, hsecond⟩ := h.waited data (hworker.symm.trans hwaiting)
    exact ⟨hcontroller hfirst, hsemaphore hsecond⟩

/-- Away from its `mmap` and its `sem_wait` nothing is asked of the worker. -/
theorem attached_of_data {s : State} (h : s.worker.data = none) : Attached s := by
  constructor
  · intro data hdata
    rw [h] at hdata
    cases hdata
  · intro data hwaiting
    rw [hwaiting] at h
    cases h

theorem attached_worker_iff {w : WorkerCall} {s t : State} (hmade : Made s) (hopened : Opened s)
    (h : Attached s) (hst : getSharedObject w s = some t) (calls : List Call) :
    Attached { t with calls := calls } ↔ InOrder s (.worker w) := by
  unfold getSharedObject at hst
  split at hst
  · obtain ⟨fd, _, rfl⟩ := Option.map_eq_some_iff.mp hst
    exact iff_of_true (attached_of_data rfl) trivial
  · -- `get_shared_object` returns true
    rename_i fd hpoint
    cases hst
    rw [InOrder, ← hopened.fd fd hpoint, ← hmade.truncated]
    constructor
    · intro hattached
      exact hattached.mapped fd rfl
    · intro hmapped
      constructor
      · intro data hdata
        cases hdata
        exact hmapped
      · intro data hwaiting
        cases hwaiting
  · -- `do_work` is entered
    rename_i data hpoint
    cases hst
    rw [InOrder, ← hmade.controllerSemaphore, ← hmade.workerSemaphore]
    constructor
    · intro hattached
      exact hattached.waited data rfl
    · intro hsemaphores
      constructor
      · intro data' hdata
        apply h.mapped data'
        rw [hpoint]
        exact hdata
      · intro _ _
        exact hsemaphores
  all_goals cases hst
  all_goals exact iff_of_true (attached_of_data rfl) trivial

theorem attached_step_iff {s t : State} {l : Call} (hrecorded : Made s ∧ Opened s)
    (h : Attached s) (hst : Step s l t) : Attached t ↔ InOrder s l := by
  cases l with
  | controller c =>
    obtain ⟨t, hcall, rfl⟩ := Option.map_eq_some_iff.mp hst
    exact iff_of_true (h.controller hcall _) trivial
  | worker w =>
    obtain ⟨t, hcall, rfl⟩ := Option.map_eq_some_iff.mp hst
    exact attached_worker_iff hrecorded.1 hrecorded.2 h hcall _

/-- **The worker attaches as it should in the runs whose calls come in order**, and in no other,
whether there is an object of an earlier run or not. -/
theorem attached_iff {stale : Bool} {tr : List (Call × State)} (h : Trace Step (start stale) tr) :
    AllStates Attached (start stale) tr ↔ AllSteps (fun s l _ => InOrder s l) (start stale) tr :=
  h.allStates_iff (fun _ _ _ hs hst => recorded_step hs hst)
    (fun _ _ _ ha hs hst => attached_step_iff ha hs hst)
    ⟨made_start stale, opened_start stale⟩ (attached_of_data rfl)

/-! ## A sleep that is long enough -/

/-- What is there at each point of `create_shared_object`. -/
def Built (s : State) : Prop :=
  match s.controller with
  | .shmUnlink | .shmOpen | .returned false => True
  | .ftruncate => s.name = some .created
  | .mmap | .semInitController => s.name = some .created ∧ s.truncated = true
  | .semInitWorker =>
    s.name = some .created ∧ s.truncated = true ∧ s.controllerSemaphore.isSome = true
  | .returned true =>
    s.name = some .created ∧ s.truncated = true ∧
      s.controllerSemaphore.isSome = true ∧ s.workerSemaphore.isSome = true

theorem Built.controller {c : ControllerCall} {s t : State} (h : Built s)
    (hst : createSharedObject c s = some t) : Built t := by
  unfold createSharedObject at hst
  unfold Built at h
  split at hst
  all_goals cases hst
  all_goals simp_all [Built]

theorem Built.worker {w : WorkerCall} {s t : State} (h : Built s)
    (hst : getSharedObject w s = some t) : Built t := by
  obtain ⟨hname, htruncated, hcontroller, hworker, hpoint⟩ := getSharedObject_frame hst
  unfold Built
  rw [hpoint, hname, htruncated, hcontroller, hworker]
  exact h

/-- The object the worker has a descriptor of. -/
def Worker.object : Worker → Option Object
  | .mmap object | .semWait object | .waiting object => some object
  | .shmOpen | .failed => none

/-- It is the one the name led to when the worker opened it. -/
theorem object_getSharedObject {w : WorkerCall} {s t : State} {o : Object}
    (h : getSharedObject w s = some t) (ho : t.worker.object = some o) :
    s.worker.object = some o ∨ w = .shmOpen true ∧ s.name = some o := by
  unfold getSharedObject at h
  split at h
  · obtain ⟨fd, hname, rfl⟩ := Option.map_eq_some_iff.mp h
    cases ho
    exact .inr ⟨rfl, hname⟩
  · rename_i fd hpoint
    cases h
    rw [hpoint]
    exact .inl ho
  · rename_i data hpoint
    cases h
    rw [hpoint]
    exact .inl ho
  all_goals cases h
  all_goals cases ho

/-- A worker that has opened has opened what the controller has finished. -/
def Late (s : State) : Prop :=
  ∀ o, s.worker.object = some o → s.controller = .returned true ∧ o = .created

/-- The worker opens when `create_shared_object` has returned true. -/
def OpensLate (s : State) (l : Call) : Prop :=
  l = .worker (.shmOpen true) → s.controller = .returned true

theorem late_step {s t : State} {l : Call} (h : Built s ∧ Late s) (hst : Step s l t)
    (hopens : OpensLate s l) : Built t ∧ Late t := by
  obtain ⟨hbuilt, hlate⟩ := h
  cases l with
  | controller c =>
    obtain ⟨t, hcall, rfl⟩ := Option.map_eq_some_iff.mp hst
    have hbuilt' : Built t := hbuilt.controller hcall
    refine ⟨hbuilt', ?_⟩
    intro o ho
    have hworker := createSharedObject_frame hcall
    obtain ⟨hreturned, _⟩ := hlate o ((congrArg Worker.object hworker).symm.trans ho)
    -- there is nothing left for the controller to call
    simp [createSharedObject, hreturned] at hcall
  | worker w =>
    obtain ⟨t, hcall, rfl⟩ := Option.map_eq_some_iff.mp hst
    have hbuilt' : Built t := hbuilt.worker hcall
    refine ⟨hbuilt', ?_⟩
    intro o ho
    have hreturned : s.controller = .returned true ∧ o = .created := by
      rcases object_getSharedObject hcall ho with hold | ⟨rfl, hname⟩
      · exact hlate o hold
      · have hreturned := hopens rfl
        unfold Built at hbuilt
        rw [hreturned] at hbuilt
        exact ⟨hreturned, Option.some.inj (hname.symm.trans hbuilt.1)⟩
    exact ⟨(getSharedObject_frame hcall).2.2.2.2.trans hreturned.1, hreturned.2⟩

theorem Late.attached {s : State} (hbuilt : Built s) (hlate : Late s) : Attached s := by
  have hobject : ∀ o, s.worker.object = some o → o = .created ∧ s.truncated = true ∧
      s.controllerSemaphore.isSome = true ∧ s.workerSemaphore.isSome = true := by
    intro o ho
    obtain ⟨hreturned, hcreated⟩ := hlate o ho
    unfold Built at hbuilt
    rw [hreturned] at hbuilt
    exact ⟨hcreated, hbuilt.2⟩
  constructor
  · intro data hdata
    have ho : s.worker.object = some data := by
      cases hw : s.worker with
      | semWait | waiting =>
        rw [hw] at hdata
        exact hdata
      | _ =>
        rw [hw] at hdata
        cases hdata
    exact ⟨(hobject data ho).1, (hobject data ho).2.1⟩
  · intro data hwaiting
    have ho : s.worker.object = some data := by
      rw [hwaiting]
      rfl
    exact (hobject data ho).2.2

/-- **What the sleep is for**: a worker that opens after `create_shared_object` has returned
attaches as it should. -/
theorem attached_of_opensLate {stale : Bool} {tr : List (Call × State)}
    (h : Trace Step (start stale) tr)
    (hlate : AllSteps (fun s l _ => OpensLate s l) (start stale) tr) :
    AllStates Attached (start stale) tr := by
  have hstart : Built (start stale) ∧ Late (start stale) := by
    refine ⟨trivial, ?_⟩
    intro o ho
    cases ho
  have hall := (h.restrict hlate).allStates (I := fun s => Built s ∧ Late s)
    (fun _ _ _ hs hst => late_step hs hst.1 hst.2) hstart
  exact hall.imp fun s hs => hs.2.attached hs.1

/-! ## Two runs -/

/-- The controller's calls, none of which fails. -/
def creation : List Call :=
  [.controller .shmUnlink, .controller (.shmOpen true), .controller (.ftruncate true),
    .controller (.mmap true), .controller .semInitController, .controller .semInitWorker]

/-- The worker's. -/
def attachment : List Call :=
  [.worker (.shmOpen true), .worker (.mmap true), .worker .semWait]

theorem attached_iff_sleep :
    ∃ tr : List (Call × State), Trace Step (start true) tr ∧
      (lastState (start true) tr).worker = .waiting .created ∧
      AllStates Attached (start true) tr := by
  have htr := follow_trace callStep (start true) (creation ++ attachment)
  refine ⟨_, htr, by decide, (attached_iff htr).mpr ?_⟩
  refine ⟨trivial, trivial, trivial, trivial, trivial, trivial, trivial, ⟨?_, ?_⟩, ⟨?_, ?_⟩,
    trivial⟩
  · decide
  · decide
  · decide
  · decide

/-- An early worker maps the object of an earlier run. -/
theorem not_attached_early :
    ¬ ∀ tr, Trace Step (start true) tr → AllStates Attached (start true) tr := by
  intro hall
  have hlast := (hall _ (follow_trace callStep (start true) attachment)).last
  have hmapped := hlast.mapped .earlier (by decide)
  cases hmapped.1

end Attach
end Ipc
end Cab403
