import Cab403.Conditional.Progress
import Cab403.Lib.Rounds

/-!
# The condition-variable buffer, statement by statement

Neither role reads `buffer`, `in` or `out` without the lock. So whole turns are all that single
statements come to where the lock is free (`turns_iff_statements`), and what holds of turns holds
there: inside a turn the slot is written before the index moves, and the ones are no circular range
in between. That not all threads sleep holds inside a turn too, since the one that has the lock is
awake.
-/

namespace Cab403
namespace Conditional

open Function Lib

/-- Nothing is read without the lock. -/
def unread (_ : Shared) : Unit := ()

theorem printFrom_reads {next : Program} {may : Bool} {m : Shared}
    (hnext : next.Reads unread (some (may, m))) (n : Nat) (i : Int) :
    (printFrom n i next).Reads unread (some (may, m)) := by
  induction n generalizing i with
  | zero => exact hnext
  | succ n ih => exact ih (i + 1)

theorem body_reads (r : Role) : (Code.lock r.body).Reads unread none := by
  have hunlock : ∀ m, (Code.unlock (.exit true) : Program).Reads unread (some (true, m)) :=
    fun _ => trivial
  have hwork : ∀ m, (Code.store r.write (.store r.advance (.signal r.signals
      (printBuffer (.unlock (.exit true)))))).Reads unread (some (true, m)) :=
    fun m => .inl ⟨rfl, .inl ⟨rfl, printFrom_reads (hunlock _) _ 0⟩⟩
  exact fun m => ⟨fun _ => hwork m, fun m' _ => hwork m'⟩

section Run

variable {ι : Type*} [DecidableEq ι]

/-- `Statement.Turn` for the two roles, from `initial` with the lock free. -/
def Reached (role : ι → Role) (wakeups : Bool) (s : Statement.State Cond Shared ι) : Prop :=
  Reaches (Statement.Turn (fun i => (role i).body) wakeups) ⟨initial role, none⟩ s

variable {role : ι → Role} {wakeups : Bool} {s : Statement.State Cond Shared ι}

omit [DecidableEq ι] in
theorem initial_reads (role : ι → Role) (i : ι) : ((initial role).thread i).Reads unread :=
  body_reads (role i)

theorem Reached.placed (hs : Reached role wakeups s) : Statement.Placed unread s :=
  Statement.placed_of_reaches (fun i => body_reads (role i)) (initial_reads role) hs

theorem reached_iff {q : Pool Cond Shared ι} : Reached role wakeups ⟨q, none⟩ ↔
    Reaches (Turn (fun i => (role i).body) wakeups) (initial role) q :=
  Statement.reaches_turn_iff (fun i => body_reads (role i)) (initial_reads role)

/-- **Whole turns suffice.** Any number of producers and consumers, each statement a step, sleepers
waking unsignalled or not: where the lock is free, it is as whole turns leave it, and all that they
leave is reached; and wherever a run stands, the lock can be given back. -/
theorem turns_iff_statements (role : ι → Role) (wakeups : Bool) :
    (∀ q, Reached role wakeups ⟨q, none⟩ ↔
      Reaches (Turn (fun i => (role i).body) wakeups) (initial role) q) ∧
    ∀ s, Reached role wakeups s →
      ∃ q, Reaches Statement.Step s ⟨q, none⟩ ∧ Reached role wakeups ⟨q, none⟩ := by
  refine ⟨fun q => reached_iff, fun s hs => ?_⟩
  obtain ⟨q, hq⟩ := hs.placed.exists_free
  exact ⟨q, hq, hs.trans (Statement.reaches_turn hq)⟩

theorem Reached.circular {q : Pool Cond Shared ι} (h : Reached role wakeups ⟨q, none⟩) :
    Circular q.mem := by
  obtain ⟨tr, htr, rfl⟩ := reached_iff.mp h
  exact ((htr.allStates (fun _ _ _ hp hturn => (inv_turn hp hturn).1)
    (inv_initial role)).last).circular

theorem Reached.alert {q : Pool Cond Shared ι} (hrole : ∀ r, ∃ i, role i = r)
    (h : Reached role false ⟨q, none⟩) : Alert role q := by
  obtain ⟨tr, htr, rfl⟩ := reached_iff.mp h
  exact (htr.allStates (fun _ _ _ hp hturn => alert_turn hrole hp hturn)
    (alert_initial hrole)).last

/-- Not all sleep while one has the lock. -/
theorem Reached.awake {i : ι} (hs : Reached role wakeups s) (hi : s.holder = some i) :
    ¬ AllAsleep role (role i) s.toPool := by
  obtain ⟨c, may, hinside⟩ := hs.placed.inside hi
  exact not_allAsleep rfl hinside.isAsleep

/-- **Statement by statement.** Where the lock is free the ones of the buffer are the circular range
from `out` to `in`. With a producer and a consumer, and sleepers that only wake when they are
signalled, they do not all sleep in any state, inside a turn or not. -/
theorem statements_in_order (role : ι → Role) (wakeups : Bool)
    (s : Statement.State Cond Shared ι) (hs : Reached role wakeups s) :
    (s.holder = none → Circular s.mem ∧
      ((ones s.mem).card : Int) = (s.mem.in_ - s.mem.out) % BUFFER_SIZE) ∧
    (wakeups = false → (∀ r, ∃ i, role i = r) →
      ¬ (AllAsleep role .producer s.toPool ∧ AllAsleep role .consumer s.toPool)) := by
  obtain ⟨p, holder⟩ := s
  cases holder with
  | none =>
    refine ⟨fun _ => ⟨hs.circular, hs.circular.card_ones⟩, ?_⟩
    rintro rfl hrole ⟨hproducer, hconsumer⟩
    have halert := hs.alert hrole
    exact halert.circular.not_both (halert.blocked .producer hproducer)
      (halert.blocked .consumer hconsumer)
  | some i =>
    refine ⟨nofun, ?_⟩
    rintro _ _ ⟨hproducer, hconsumer⟩
    have hawake := hs.awake rfl
    cases hi : role i with
    | producer =>
      rw [hi] at hawake
      exact hawake hproducer
    | consumer =>
      rw [hi] at hawake
      exact hawake hconsumer

/-- The consumer sleeps; the producer has written slot 0 and not moved on yet. -/
theorem statements_in_order_written : ∃ s : Statement.State Cond Shared Role,
    Reached id false s ∧ s.holder = some .producer ∧ ones s.mem = {0} ∧ s.mem.in_ = 0 ∧
    (s.holder = none → Circular s.mem ∧
      ((ones s.mem).card : Int) = (s.mem.in_ - s.mem.out) % BUFFER_SIZE) ∧
    (false = false → (∀ r, ∃ i : Role, id i = r) →
      ¬ (AllAsleep id .producer s.toPool ∧ AllAsleep id .consumer s.toPool)) := by
  have hrun : ∃ s : Statement.State Cond Shared Role, Reached id false s ∧
      s.holder = some .producer ∧ ones s.mem = {0} ∧ s.mem.in_ = 0 :=
    ⟨_, .cons (.step (.enter (i := .consumer) rfl rfl))
      (.cons (.step (.sleep (i := .consumer) rfl rfl))
      (.cons (.step (.enter (i := .producer) rfl rfl))
      (.cons (.step (.goOn (i := .producer) rfl rfl))
      (.cons (.step (.store (i := .producer) rfl)) (.refl _))))), rfl, by decide, rfl⟩
  obtain ⟨s, hs, hholder, hones, hin⟩ := hrun
  exact ⟨s, hs, hholder, hones, hin, statements_in_order id false s hs⟩

end Run

end Conditional
end Cab403
