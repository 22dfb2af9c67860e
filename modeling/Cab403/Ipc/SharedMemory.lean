import Cab403.Lib.Trace

/-!
# Controller and worker over shared memory

`shm_ipc.c`: the controller writes a request into the shared block, posts
`controller_semaphore` and waits on `worker_semaphore`; the worker waits, reads the operands,
switches on the operation, writes the result and posts back. Nothing else guards the block.

Each party is a program point and a *function* from states to states — `none` when it waits on a
semaphore at zero or has finished — and every access to the block, every semaphore operation and
every line of the tear-down is a step. The operands are of any type with four operations: the
program does not depend on what doubles are.

The controller's requests are a list fixed at the start; `controller_main` is the case where the
last of them, and no other, asks to quit.
-/

namespace Cab403
namespace Ipc

open Lib

/-! ## The shared block -/

/-- `operation_t`. An enumeration variable of C holds any integer: `other` is one that is none
of the constants. -/
inductive Operation where
  | op_add
  | op_sub
  | op_mul
  | op_div
  | op_quit
  | other (code : Int)
  deriving DecidableEq, Repr

/-- The arithmetic of the worker. -/
structure Arith (V : Type*) where
  add : V → V → V
  sub : V → V → V
  mul : V → V → V
  div : V → V → V

/-- `shared_data_t`. -/
structure SharedData (V : Type*) where
  controllerSemaphore : Nat
  workerSemaphore : Nat
  operation : Operation
  lhs : V
  rhs : V
  result : V

inductive Pointer where
  | null
  | block
  deriving DecidableEq, Repr

/-- A party's `shared_memory_t`, and whether the pages behind `data` are still mapped. -/
structure SharedMemory where
  fd : Int
  data : Pointer
  mapped : Bool
  deriving DecidableEq, Repr

/-! ## The parties -/

/-- The arguments of one `request_work`. -/
structure Request (V : Type*) where
  op : Operation
  lhs : V
  rhs : V

/-- A `request_work` that has returned. -/
structure Call (V : Type*) where
  request : Request V
  returned : V

/-- The controller: between two requests, inside `request_work`, or in
`destroy_shared_object`. -/
inductive Controller (V : Type*) where
  | next
  | writeOperation (r : Request V)
  | writeLhs (r : Request V)
  | writeRhs (r : Request V)
  | post (r : Request V)
  | wait (r : Request V)
  | readResult (r : Request V)
  | munmap
  | unlink
  | clearFd
  | clearData
  | finished

/-- The worker inside `do_work`; `retVal` is the local of that name. -/
inductive Worker (V : Type*) where
  | wait
  | readLhs
  | readRhs (a : V)
  | readOperation (a b : V)
  | writeResult (v : V)
  | post (retVal : Bool)
  | munmap
  | clearFd
  | clearData
  | finished

structure State (V : Type*) where
  shared : SharedData V
  controller : Controller V
  controllerShm : SharedMemory
  worker : Worker V
  workerShm : SharedMemory
  linked : Bool
  todo : List (Request V)
  calls : List (Call V)

variable {V : Type*}

/-- Both parties have mapped the object and both semaphores are at zero. The block's other
fields and the descriptors may hold anything. -/
def initial (script : List (Request V)) (block : SharedData V) (cfd wfd : Int) : State V where
  shared := { block with controllerSemaphore := 0, workerSemaphore := 0 }
  controller := .next
  controllerShm := ⟨cfd, .block, true⟩
  worker := .wait
  workerShm := ⟨wfd, .block, true⟩
  linked := true
  todo := script
  calls := []

/-- `controller_main`: the requests of its loop, then `request_work(&shm, op_quit, 0, 0)`. -/
def controllerMain (requests : List (Request V)) (zero : V) : List (Request V) :=
  requests ++ [⟨.op_quit, zero, zero⟩]

/-! ## The steps -/

/-- `request_work`, the loop around it and `destroy_shared_object`, a statement at a time. -/
def controllerStep (s : State V) : Option (State V) :=
  match s.controller with
  | .next =>
    match s.todo with
    | [] => some { s with controller := .munmap }
    | r :: rest => some { s with controller := .writeOperation r, todo := rest }
  | .writeOperation r =>
    some { s with shared := { s.shared with operation := r.op }, controller := .writeLhs r }
  | .writeLhs r =>
    some { s with shared := { s.shared with lhs := r.lhs }, controller := .writeRhs r }
  | .writeRhs r => some { s with shared := { s.shared with rhs := r.rhs }, controller := .post r }
  | .post r =>
    some { s with
      shared := { s.shared with controllerSemaphore := s.shared.controllerSemaphore + 1 }
      controller := .wait r }
  | .wait r =>
    if 0 < s.shared.workerSemaphore then
      some { s with
        shared := { s.shared with workerSemaphore := s.shared.workerSemaphore - 1 }
        controller := .readResult r }
    else none
  | .readResult r =>
    some { s with controller := .next, calls := s.calls ++ [⟨r, s.shared.result⟩] }
  | .munmap =>
    some { s with
      controllerShm := { s.controllerShm with mapped := false }, controller := .unlink }
  | .unlink => some { s with linked := false, controller := .clearFd }
  | .clearFd =>
    some { s with controllerShm := { s.controllerShm with fd := -1 }, controller := .clearData }
  | .clearData =>
    some { s with
      controllerShm := { s.controllerShm with data := .null }, controller := .finished }
  | .finished => none

/-- The `switch` of `do_work`: a result to write, or `retVal = false`. -/
def dispatch (ar : Arith V) (op : Operation) (a b : V) : Worker V :=
  match op with
  | .op_quit => .post false
  | .op_add => .writeResult (ar.add a b)
  | .op_sub => .writeResult (ar.sub a b)
  | .op_mul => .writeResult (ar.mul a b)
  | .op_div => .writeResult (ar.div a b)
  | .other _ => .post false

/-- `while ( do_work( &shm ) ) {}`, a statement at a time. -/
def workerStep (ar : Arith V) (s : State V) : Option (State V) :=
  match s.worker with
  | .wait =>
    if 0 < s.shared.controllerSemaphore then
      some { s with
        shared := { s.shared with controllerSemaphore := s.shared.controllerSemaphore - 1 }
        worker := .readLhs }
    else none
  | .readLhs => some { s with worker := .readRhs s.shared.lhs }
  | .readRhs a => some { s with worker := .readOperation a s.shared.rhs }
  | .readOperation a b => some { s with worker := dispatch ar s.shared.operation a b }
  | .writeResult v =>
    some { s with shared := { s.shared with result := v }, worker := .post true }
  | .post retVal =>
    some { s with
      shared := { s.shared with workerSemaphore := s.shared.workerSemaphore + 1 }
      worker := if retVal then .wait else .munmap }
  | .munmap =>
    some { s with workerShm := { s.workerShm with mapped := false }, worker := .clearFd }
  | .clearFd => some { s with workerShm := { s.workerShm with fd := -1 }, worker := .clearData }
  | .clearData =>
    some { s with workerShm := { s.workerShm with data := .null }, worker := .finished }
  | .finished => none

inductive Party where
  | controller
  | worker
  deriving DecidableEq, Repr

def partyStep (ar : Arith V) : Party → State V → Option (State V)
  | .controller => controllerStep
  | .worker => workerStep ar

/-- One step of either party. -/
def Step (ar : Arith V) (s : State V) (p : Party) (t : State V) : Prop :=
  partyStep ar p s = some t

end Ipc
end Cab403
