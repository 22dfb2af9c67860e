import Cab403.Lib.Circle
import Cab403.Lib.Turns

/-!
# The condition-variable buffer

`ConditionVar_SKEL.c`: any number of producers and consumers over one buffer of `BUFFER_SIZE`
slots, a mutex, and two conditions. A producer sets the slot at `in` and moves `in` on, a consumer
clears the slot at `out` and moves `out` on, each around the circle; neither moves when `in` and
`out` would meet, or have met. One slot is never used, so that the two cases differ.

`producer` and `consumer` are one program with their own values put in (`turn`). What a turn does
is read off it once (`body_takesTurns`).
-/

namespace Cab403
namespace Conditional

open Function Lib

/-! ## The shared variables -/

def BUFFER_SIZE : Int := 5

/-- `buffer`, `in` and `out`. -/
structure Shared where
  buffer : Int → Int
  in_ : Int
  out : Int

def Shared.initial : Shared := ⟨fun _ => 0, 0, 0⟩

inductive Cond where
  | full
  | empty
  deriving DecidableEq, Repr

abbrev Program := Code Cond Shared

/-! ## The programs -/

/-- The loop of `printBuffer`, with `n` slots to print from slot `i` on. -/
def printFrom : Nat → Int → Program → Program
  | 0, _, next => .print "\n" next
  | n + 1, i, next =>
    .load fun m => .print (" " ++ toString (m.buffer i) ++ " ") (printFrom n (i + 1) next)

def printBuffer (next : Program) : Program := printFrom BUFFER_SIZE.toNat 0 next

/-- The section both loops share: wait, write, move on, signal, print. -/
def turn (waits signals : Cond) (blocked : Shared → Bool) (write advance : Shared → Shared) :
    Program :=
  .await waits blocked (.store write (.store advance
    (.signal signals (printBuffer (.unlock (.exit true))))))

inductive Role where
  | producer
  | consumer
  deriving DecidableEq, Repr

def Role.waits : Role → Cond
  | .producer => .empty
  | .consumer => .full

def Role.signals : Role → Cond
  | .producer => .full
  | .consumer => .empty

/-- The condition of the `while`. -/
def Role.blocked : Role → Shared → Bool
  | .producer, m => (m.in_ + 1).tmod BUFFER_SIZE == m.out
  | .consumer, m => m.in_ == m.out

def Role.write : Role → Shared → Shared
  | .producer, m => { m with buffer := update m.buffer m.in_ 1 }
  | .consumer, m => { m with buffer := update m.buffer m.out 0 }

def Role.advance : Role → Shared → Shared
  | .producer, m => { m with in_ := (m.in_ + 1).tmod BUFFER_SIZE }
  | .consumer, m => { m with out := (m.out + 1).tmod BUFFER_SIZE }

/-- What `producer` and `consumer` do between `pthread_mutex_lock` and `sleep`, over and over. -/
def Role.body (r : Role) : Program := turn r.waits r.signals r.blocked r.write r.advance

/-! ## What a turn does -/

/-- It waits, and leaves everything as it was, or does its work and signals. -/
def RoleSection (r : Role) (m : Shared) (out : Section Cond Shared) : Prop :=
  if r.blocked m then out.mem = m ∧ out.signals = [] ∧ out.next = .asleep r.waits r.body
  else out.mem = r.advance (r.write m) ∧ out.signals = [r.signals] ∧ out.next = .run (.exit true)

theorem printFrom_locked (next : Program) (sent : List Cond) (m : Shared) (n : Nat) (i : Int) :
    (printFrom n i next).locked sent m = next.locked sent m := by
  induction n generalizing i with
  | zero => rfl
  | succ n ih => exact ih (i + 1)

theorem body_takesTurns (r : Role) : TakesTurns (RoleSection r) r.waits r.body := by
  intro m
  by_cases hm : r.blocked m = true
  · refine ⟨_, if_pos hm, ?_, .inl rfl⟩
    rw [RoleSection, if_pos hm]
    exact ⟨rfl, rfl, rfl⟩
  · refine ⟨_, (if_neg hm).trans (printFrom_locked _ _ _ _ 0), ?_, .inr rfl⟩
    rw [RoleSection, if_neg hm]
    exact ⟨rfl, rfl, rfl⟩

end Conditional
end Cab403
