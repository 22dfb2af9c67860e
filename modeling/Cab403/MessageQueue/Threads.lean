import Cab403.Lib.Trace
import Mathlib.Logic.Function.Basic

/-!
# The message queue

`msgq.c`: producers push the time onto an array of five slots, consumers pop it, and `main` clears
`keep_running` when the user hits enter. There is no lock. A thread is a program point, and each
read and each write of a shared variable is a step of its own.

`buffer[position++] = message` reads `position`, writes it and writes the slot; C leaves the order
of the two writes open, and likewise for `buffer[--position]`. The label of a step says which comes
first, and what `time` would return.

The last four fields of the queue are history and nothing reads them: the messages stored, in
order, the indices at which the buffer was accessed, and the messages taken. Two messages may be
equal, so a slot also has a `mark`: which of the stores it holds the message of.
-/

namespace Cab403
namespace MessageQueue

open Function Lib

def BUFFER_SIZE : Int := 5

/-! ## The queue -/

/-- `mq`. -/
structure Queue where
  buffer : Int → Int
  keepRunning : Bool
  position : Int
  isRoom : Bool
  mark : Int → Option Nat
  stored : List Int
  accessed : List Int
  taken : List (Option Nat × Int)

/-- `buffer[i] = message` -/
def Queue.store (m : Queue) (i message : Int) : Queue :=
  { m with
    buffer := update m.buffer i message
    mark := update m.mark i (some m.stored.length)
    stored := m.stored ++ [message]
    accessed := m.accessed ++ [i] }

/-- `message = buffer[i]`; the value is `m.buffer i`. -/
def Queue.take (m : Queue) (i : Int) : Queue :=
  { m with
    accessed := m.accessed ++ [i]
    taken := m.taken ++ [(m.mark i, m.buffer i)] }

/-! ## The threads -/

/-- Where a thread stands: `prod*` in `producer_function`, `cons*` in `consumer_function`. At
`prodUpdate` and `consUpdate` it has read `p` from `position` and made neither access; at the two
points that follow each it has made one of them, and is named for the other. -/
inductive Pc where
  | prodLoop
  | prodWait (message : Int)
  | prodLoad (message : Int)
  | prodUpdate (message p : Int)
  | prodMove (p : Int)
  | prodStore (message p : Int)
  | prodReport
  | prodTest
  | prodFull
  | consLoop
  | consWait
  | consLoad
  | consUpdate (p : Int)
  | consMove (p message : Int)
  | consTake (p : Int)
  | consRoom (message : Int)
  | consReport (message : Int)
  | returned
  deriving DecidableEq, Repr

/-- One step of a thread. `time` is what `time(NULL)` returns, `accessFirst` says whether the
buffer is accessed before `position` is written. -/
def advance (time : Int) (accessFirst : Bool) (m : Queue) : Pc → Option (Queue × Pc)
  | .prodLoop => some (m, if m.keepRunning then .prodWait time else .returned)
  | .prodWait message => some (m, if m.isRoom then .prodLoad message else .prodWait message)
  | .prodLoad message => some (m, .prodUpdate message m.position)
  | .prodUpdate message p =>
    if accessFirst then some (m.store p message, .prodMove p)
    else some ({ m with position := p + 1 }, .prodStore message p)
  | .prodMove p => some ({ m with position := p + 1 }, .prodReport)
  | .prodStore message p => some (m.store p message, .prodReport)
  | .prodReport => some (m, .prodTest)
  | .prodTest => some (m, if m.position = BUFFER_SIZE then .prodFull else .prodLoop)
  | .prodFull => some ({ m with isRoom := false }, .prodLoop)
  | .consLoop => some (m, if m.keepRunning then .consWait else .returned)
  | .consWait => some (m, if m.position ≠ 0 then .consWait else .consLoad)
  | .consLoad => some (m, .consUpdate m.position)
  | .consUpdate p =>
    if accessFirst then some (m.take (p - 1), .consMove p (m.buffer (p - 1)))
    else some ({ m with position := p - 1 }, .consTake p)
  | .consMove p message => some ({ m with position := p - 1 }, .consRoom message)
  | .consTake p => some (m.take (p - 1), .consRoom (m.buffer (p - 1)))
  | .consRoom message => some ({ m with isRoom := true }, .consReport message)
  | .consReport _ => some (m, .consLoop)
  | .returned => none

/-! ## The program -/

/-- `main`: in `fgets`, or past its write of `keep_running` and joining the threads. -/
inductive MainPc where
  | reading
  | joining
  deriving DecidableEq, Repr

structure State (ι : Type*) where
  queue : Queue
  main : MainPc
  pc : ι → Pc

inductive Role where
  | producer
  | consumer
  deriving DecidableEq, Repr

def Role.start : Role → Pc
  | .producer => .prodLoop
  | .consumer => .consLoop

/-- What `main` leaves before it reads: an empty queue, whatever the slots hold, and the threads
created. -/
def initial {ι : Type*} (role : ι → Role) (buffer : Int → Int) : State ι where
  queue :=
    { buffer := buffer, keepRunning := true, position := 0, isRoom := true
      mark := fun _ => none, stored := [], accessed := [], taken := [] }
  main := .reading
  pc i := (role i).start

inductive Event (ι : Type*) where
  | stop
  | thread (i : ι) (time : Int) (accessFirst : Bool)

variable {ι : Type*} [DecidableEq ι]

def State.step (e : Event ι) (s : State ι) : Option (State ι) :=
  match e with
  | .stop =>
    match s.main with
    | .reading => some ⟨{ s.queue with keepRunning := false }, .joining, s.pc⟩
    | .joining => none
  | .thread i time accessFirst =>
    (advance time accessFirst s.queue (s.pc i)).map fun out =>
      ⟨out.1, s.main, update s.pc i out.2⟩

def Step (s : State ι) (e : Event ι) (t : State ι) : Prop := s.step e = some t

theorem step_stop {s t : State ι} (h : Step s .stop t) :
    s.main = .reading ∧ t = ⟨{ s.queue with keepRunning := false }, .joining, s.pc⟩ := by
  unfold Step State.step at h
  cases hmain : s.main with
  | reading =>
    simp only [hmain] at h
    exact ⟨rfl, (Option.some.inj h).symm⟩
  | joining =>
    simp only [hmain] at h
    cases h

/-- A thread's step is its own, on the queue alone. -/
theorem step_thread {s t : State ι} {i : ι} {time : Int} {accessFirst : Bool}
    (h : Step s (.thread i time accessFirst) t) :
    ∃ m p, advance time accessFirst s.queue (s.pc i) = some (m, p) ∧
      t = ⟨m, s.main, update s.pc i p⟩ := by
  obtain ⟨⟨m, p⟩, hout, rfl⟩ := Option.map_eq_some_iff.mp h
  exact ⟨m, p, hout, rfl⟩

end MessageQueue
end Cab403
