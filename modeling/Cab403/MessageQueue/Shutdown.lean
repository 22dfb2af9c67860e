import Cab403.MessageQueue.Threads

/-!
# Stopping the message queue

The stop flag is only tested at the top of a thread's loop. A thread inside its wait loop watches
`is_room` or `position` instead, and what those say another thread has to change: if all the others
have returned, or wait as well, `main` joins for good (`Wedged`). Which steps bring that about is
decided before them: `main` clears the flag when every thread waits, or a thread returns that was
the last one neither waiting nor gone.
-/

namespace Cab403
namespace MessageQueue

open Function Lib

/-! ## Waiting for another thread -/

/-- In a wait loop, its condition holding. -/
def Pc.Blocked (m : Queue) : Pc → Prop
  | .prodWait _ => m.isRoom = false
  | .consWait => m.position ≠ 0
  | _ => False

/-- Neither gone nor blocked. -/
def Pc.Runs (m : Queue) (p : Pc) : Prop := p ≠ .returned ∧ ¬ p.Blocked m

/-- At the test of `keep_running`. -/
def Pc.AtLoop : Pc → Prop
  | .prodLoop | .consLoop => True
  | _ => False

variable {ι : Type*}

def Wedged (s : State ι) : Prop :=
  s.queue.keepRunning = false ∧ (∃ i, (s.pc i).Blocked s.queue) ∧
    ∀ i, s.pc i = .returned ∨ (s.pc i).Blocked s.queue

/-- If a step ends the work of somebody while a thread is blocked, it leaves another that runs. -/
def LeavesOne (s : State ι) (e : Event ι) (_ : State ι) : Prop :=
  match e with
  | .stop => (∃ j, (s.pc j).Blocked s.queue) → ∃ j, (s.pc j).Runs s.queue
  | .thread i _ _ =>
    (s.pc i).AtLoop → s.queue.keepRunning = false → (∃ j, (s.pc j).Blocked s.queue) →
      ∃ j, j ≠ i ∧ (s.pc j).Runs s.queue

/-- Nobody runs any more, and somebody is blocked. -/
theorem not_wedged_iff {s : State ι} (hstopped : s.queue.keepRunning = false) :
    ¬ Wedged s ↔ ((∃ i, (s.pc i).Blocked s.queue) → ∃ i, (s.pc i).Runs s.queue) := by
  constructor
  · intro hs hblocked
    by_contra hnone
    refine hs ⟨hstopped, hblocked, fun i => ?_⟩
    by_contra hi
    exact hnone ⟨i, not_or.mp hi⟩
  · rintro hruns ⟨_, hblocked, hall⟩
    obtain ⟨i, hi⟩ := hruns hblocked
    exact (hall i).elim hi.1 hi.2

/-! ## Steps -/

/-- A thread at the test of a cleared flag returns. -/
theorem advance_atLoop {m m' : Queue} {p p' : Pc} {time : Int} {accessFirst : Bool}
    (hp : p.AtLoop) (hstopped : m.keepRunning = false)
    (hstep : advance time accessFirst m p = some (m', p')) : m' = m ∧ p' = .returned := by
  cases p with
  | prodLoop | consLoop =>
    simp only [advance, hstopped] at hstep
    cases hstep
    exact ⟨rfl, rfl⟩
  | _ => exact absurd hp id

theorem Pc.Runs.intro {m : Queue} {p : Pc} (hreturned : p ≠ .returned)
    (hwait : ∀ message, p ≠ .prodWait message) (hconsWait : p ≠ .consWait) : p.Runs m := by
  cases p with
  | prodWait message => exact absurd rfl (hwait message)
  | consWait => exact absurd rfl hconsWait
  | _ => exact ⟨hreturned, id⟩

/-- Any other step is a test that keeps its thread waiting, or leaves a thread that runs. -/
theorem advance_runs {m m' : Queue} {p p' : Pc} {time : Int} {accessFirst : Bool}
    (hp : ¬ p.AtLoop) (hstep : advance time accessFirst m p = some (m', p')) :
    (m' = m ∧ p' = p) ∨ p'.Runs m' := by
  cases p with
  | prodLoop | consLoop => exact absurd trivial hp
  | prodWait message =>
    cases hroom : m.isRoom with
    | true =>
      simp only [advance, hroom] at hstep
      cases hstep
      exact .inr (.intro nofun nofun nofun)
    | false =>
      simp only [advance, hroom] at hstep
      cases hstep
      exact .inl ⟨rfl, rfl⟩
  | consWait =>
    by_cases hposition : m.position ≠ 0
    · simp only [advance, if_pos hposition] at hstep
      cases hstep
      exact .inl ⟨rfl, rfl⟩
    · simp only [advance, if_neg hposition] at hstep
      cases hstep
      exact .inr (.intro nofun nofun nofun)
  | prodTest =>
    cases hstep
    refine .inr ?_
    split <;> exact .intro nofun nofun nofun
  | prodUpdate _ _ | consUpdate _ =>
    cases accessFirst <;> cases hstep <;> exact .inr (.intro nofun nofun nofun)
  | returned => cases hstep
  | _ =>
    cases hstep
    exact .inr (.intro nofun nofun nofun)

/-- Only `main` writes the flag. -/
theorem advance_keepRunning {m m' : Queue} {p p' : Pc} {time : Int} {accessFirst : Bool}
    (hstep : advance time accessFirst m p = some (m', p')) : m'.keepRunning = m.keepRunning := by
  cases p with
  | prodUpdate _ _ | consUpdate _ => cases accessFirst <;> cases hstep <;> rfl
  | returned => cases hstep
  | _ =>
    cases hstep
    rfl

variable [DecidableEq ι] {s t : State ι} {e : Event ι}

/-- A thread that is not blocked returns: who is blocked stays so, and who else runs does too. -/
theorem not_wedged_return {i : ι} (hi : (s.pc i).AtLoop) (hstopped : s.queue.keepRunning = false)
    (ht : t = ⟨s.queue, s.main, update s.pc i .returned⟩) :
    ¬ Wedged t ↔ ((∃ j, (s.pc j).Blocked s.queue) → ∃ j, j ≠ i ∧ (s.pc j).Runs s.queue) := by
  subst ht
  have hfree : ¬ (s.pc i).Blocked s.queue := by
    cases hpc : s.pc i with
    | prodWait _ | consWait =>
      rw [hpc] at hi
      exact absurd hi id
    | _ => exact id
  refine (not_wedged_iff ?_).trans (imp_congr (exists_congr fun j => ?_)
    (exists_congr fun j => ?_))
  · exact hstopped
  · show (update s.pc i .returned j).Blocked s.queue ↔ (s.pc j).Blocked s.queue
    by_cases hj : j = i
    · subst hj
      rw [update_self]
      exact iff_of_false id hfree
    · rw [update_of_ne hj]
  · show (update s.pc i .returned j).Runs s.queue ↔ j ≠ i ∧ (s.pc j).Runs s.queue
    by_cases hj : j = i
    · subst hj
      rw [update_self]
      exact iff_of_false (fun hruns => hruns.1 rfl) (fun hruns => hruns.1 rfl)
    · rw [update_of_ne hj]
      exact (and_iff_right hj).symm

theorem not_wedged_step (hs : ¬ Wedged s) (hst : Step s e t) : ¬ Wedged t ↔ LeavesOne s e t := by
  cases e with
  | stop =>
    obtain ⟨_, rfl⟩ := step_stop hst
    exact not_wedged_iff rfl
  | thread i time accessFirst =>
    obtain ⟨m, p, hadv, rfl⟩ := step_thread hst
    have hflag : m.keepRunning = s.queue.keepRunning := advance_keepRunning hadv
    by_cases hstopped : s.queue.keepRunning = false
    · by_cases hloop : (s.pc i).AtLoop
      · obtain ⟨rfl, rfl⟩ := advance_atLoop hloop hstopped hadv
        rw [not_wedged_return hloop hstopped rfl]
        exact ⟨fun h _ _ => h, fun h => h hloop hstopped⟩
      · refine iff_of_true ?_ fun h => absurd h hloop
        rcases advance_runs hloop hadv with ⟨rfl, rfl⟩ | hruns
        · rw [update_eq_self]
          exact hs
        · rw [not_wedged_iff (hflag.trans hstopped)]
          refine fun _ => ⟨i, ?_⟩
          show (update s.pc i p i).Runs m
          rw [update_self]
          exact hruns
    · exact iff_of_true (fun h => hstopped (hflag.symm.trans h.1)) fun _ h => absurd h hstopped

/-! ## Runs -/

/-- **When the joins are never blocked for good.** With any number of producers and consumers, no
state of a run is wedged if and only if each time `main` clears the flag, or a thread that finds it
cleared returns, there is nobody blocked or still somebody who runs. -/
theorem never_wedged_iff (role : ι → Role) (buffer : Int → Int)
    {tr : List (Event ι × State ι)} (h : Trace Step (initial role buffer) tr) :
    AllStates (fun s => ¬ Wedged s) (initial role buffer) tr ↔
      AllSteps LeavesOne (initial role buffer) tr := by
  refine h.allStates_iff (A := fun _ => True) (fun _ _ _ _ _ => trivial)
    (fun s e t _ hs hst => not_wedged_step hs hst) trivial fun hwedged => ?_
  cases hwedged.1

/-- The producer has stored its first message and goes round; the consumer waits. -/
def oneMessage : List (Event Role) :=
  .thread .consumer 0 true :: List.replicate 7 (.thread .producer 7 true)

/-- Stopped before the consumer begins to wait, both return. -/
theorem never_wedged_iff_idle :
    AllStates (fun s => ¬ Wedged s) (initial id fun _ => 0)
      (follow State.step (initial id fun _ => 0)
        [.stop, .thread Role.producer 0 true, .thread Role.consumer 0 true]) := by
  refine (never_wedged_iff id _ (follow_trace State.step _ _)).mpr ⟨?_, ?_, ?_, trivial⟩
  · exact fun _ => ⟨.producer, nofun, id⟩
  · exact fun _ _ _ => ⟨.consumer, nofun, nofun, id⟩
  · rintro _ _ ⟨j, hj⟩
    cases j <;> exact absurd hj id

/-- The producer returns when it has stored one message; the consumer waits for ever. -/
theorem never_wedged_fails : ¬ ∀ (role : Role → Role) (buffer : Int → Int)
    (tr : List (Event Role × State Role)), Trace Step (initial role buffer) tr →
      AllStates (fun s => ¬ Wedged s) (initial role buffer) tr := by
  intro hall
  have htr := follow_trace State.step (initial id fun _ => 0)
    (oneMessage ++ [.stop, .thread .producer 0 true])
  refine (hall id _ _ htr).last ⟨rfl, ⟨.consumer, ?_⟩, fun j => ?_⟩
  · show (1 : Int) ≠ 0
    decide
  · cases j with
    | producer => exact .inl rfl
    | consumer =>
      right
      show (1 : Int) ≠ 0
      decide

end MessageQueue
end Cab403
