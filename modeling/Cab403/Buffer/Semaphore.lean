import Cab403.Lib.Trace
import Cab403.Lib.Tally

/-!
# The semaphore buffer, thread by thread

`skeleton_buffer.c`: five slots, two counting semaphores and a mutex. `insert_item` waits on
`empty`, locks, stores, unlocks and posts `full`; `remove_item` is its mirror image, and writes
`-1` over the slot it reads.

A thread is a program point. Between two calls it is `idle` and may start either call at any
time, so that the producers' and consumers' loops, whatever they do between calls, are all among
the runs. Each synchronisation operation is a step of its own; the lines between
`pthread_mutex_lock` and `pthread_mutex_unlock` are one.

The last five fields of the state are history and nothing reads them: what was inserted and
removed, in the order the mutex was held, which slots hold an item that has not been removed, and
how many calls have returned.
-/

namespace Cab403
namespace Buffer

open Function Lib

def BUFFER_SIZE : Nat := 5

/-! ## The threads -/

/-- Where a thread stands. `ins*` are the points inside `insert_item(item)`, `rem*` those inside
`remove_item`; each is named for the operation that comes next. -/
inductive Pc where
  | idle
  | insWaitEmpty (item : Int)
  | insLock (item : Int)
  | insStore (item : Int)
  | insUnlock
  | insPostFull
  | remWaitFull
  | remLock
  | remTake
  | remUnlock (item : Int)
  | remPostEmpty (item : Int)
  deriving DecidableEq, Repr

structure State (ι : Type*) where
  empty : Nat
  full : Nat
  mutex : Option ι
  buffer : Nat → Int
  insertPointer : Nat
  removePointer : Nat
  pc : ι → Pc
  inserted : List Int
  removed : List Int
  holds : Nat → Bool
  insertions : Nat
  removals : Nat

variable {ι : Type*}

/-- `main`: the semaphores initialised, no call made. The slots may hold anything. -/
def initial (buffer : Nat → Int) : State ι where
  empty := BUFFER_SIZE
  full := 0
  mutex := none
  buffer := buffer
  insertPointer := 0
  removePointer := 0
  pc := fun _ => .idle
  inserted := []
  removed := []
  holds := fun _ => false
  insertions := 0
  removals := 0

/-! ## The buffer updates -/

/-- `buffer[insertPointer++] = item; insertPointer = insertPointer % BUFFER_SIZE;` -/
def State.store (s : State ι) (item : Int) : State ι :=
  { s with
    buffer := update s.buffer s.insertPointer item
    insertPointer := (s.insertPointer + 1) % BUFFER_SIZE
    inserted := s.inserted ++ [item]
    holds := update s.holds s.insertPointer true }

/-- `*item = buffer[removePointer]` is the value appended to `removed`; then
`buffer[removePointer++] = -1; removePointer = removePointer % BUFFER_SIZE;` -/
def State.take (s : State ι) : State ι :=
  { s with
    buffer := update s.buffer s.removePointer (-1)
    removePointer := (s.removePointer + 1) % BUFFER_SIZE
    removed := s.removed ++ [s.buffer s.removePointer]
    holds := update s.holds s.removePointer false }

variable [DecidableEq ι]

def State.goto (s : State ι) (i : ι) (p : Pc) : State ι := { s with pc := update s.pc i p }

/-! ## The steps -/

/-- One step of thread `i`. -/
inductive Step : State ι → ι → State ι → Prop
  | callInsert {s : State ι} {i : ι} (item : Int) (h : s.pc i = .idle) :
      Step s i (s.goto i (.insWaitEmpty item))
  | insWaitEmpty {s : State ι} {i : ι} (item : Int) (h : s.pc i = .insWaitEmpty item)
      (hempty : 0 < s.empty) : Step s i ({ s with empty := s.empty - 1 }.goto i (.insLock item))
  | insLock {s : State ι} {i : ι} (item : Int) (h : s.pc i = .insLock item)
      (hmutex : s.mutex = none) : Step s i ({ s with mutex := some i }.goto i (.insStore item))
  | insStore {s : State ι} {i : ι} (item : Int) (h : s.pc i = .insStore item) :
      Step s i ((s.store item).goto i .insUnlock)
  | insUnlock {s : State ι} {i : ι} (h : s.pc i = .insUnlock) :
      Step s i ({ s with mutex := none }.goto i .insPostFull)
  | insPostFull {s : State ι} {i : ι} (h : s.pc i = .insPostFull) :
      Step s i ({ s with full := s.full + 1, insertions := s.insertions + 1 }.goto i .idle)
  | callRemove {s : State ι} {i : ι} (h : s.pc i = .idle) : Step s i (s.goto i .remWaitFull)
  | remWaitFull {s : State ι} {i : ι} (h : s.pc i = .remWaitFull) (hfull : 0 < s.full) :
      Step s i ({ s with full := s.full - 1 }.goto i .remLock)
  | remLock {s : State ι} {i : ι} (h : s.pc i = .remLock) (hmutex : s.mutex = none) :
      Step s i ({ s with mutex := some i }.goto i .remTake)
  | remTake {s : State ι} {i : ι} (h : s.pc i = .remTake) :
      Step s i (s.take.goto i (.remUnlock (s.buffer s.removePointer)))
  | remUnlock {s : State ι} {i : ι} (item : Int) (h : s.pc i = .remUnlock item) :
      Step s i ({ s with mutex := none }.goto i (.remPostEmpty item))
  | remPostEmpty {s : State ι} {i : ι} (item : Int) (h : s.pc i = .remPostEmpty item) :
      Step s i ({ s with empty := s.empty + 1, removals := s.removals + 1 }.goto i .idle)

end Buffer
end Cab403
