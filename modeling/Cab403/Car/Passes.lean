import Cab403.Car.Consistency

/-!
# One pass after another

A wakeup need not be for an event: `pthread_cond_wait` may return on its own, and a signal meant
for another thread wakes whoever it finds. What follows the wait loop of `safety_ctrl` may so be
run again on the record its last run left. It then does nothing. The five updates of a pass feed
each other, the last even through the validator; but each turns its own test off, and what a
later one writes, the emergency mode, turns no earlier test on (`settled_safetyPass`).
-/

namespace Cab403
namespace Car

open Lib

/-- None of the five tests of a pass has anything to write. -/
structure Settled (eq : Compare) (check : CarSharedMem → Bool) (m : CarSharedMem) : Prop where
  system : m.safetySystem = 1
  doors : obstructedTest eq m = true → m.status = strOpening
  stop : stopTest m = false
  load : overloadTest m = false
  data : inconsistentTest check m = false

variable {eq : Compare} {check : CarSharedMem → Bool} {m : CarSharedMem}

/-- A record that is not in emergency after a pass is one the pass only attended to. -/
theorem safetyPass_of_calm (h : (safetyPass eq check m).emergencyMode = 0) :
    m.emergencyMode = 0 ∧ emergency check (attend eq m) = false ∧
      safetyPass eq check m = attend eq m := by
  rw [safetyPass_eq] at h ⊢
  by_cases hmode : m.emergencyMode = 0
  · cases hem : emergency check (attend eq m) with
    | true => simp [hmode, hem] at h
    | false =>
      have hstop : m.emergencyStop = 0 := by
        simp only [emergency, Bool.or_eq_false_iff, bne_eq_false_iff_eq] at hem
        exact hem.1.1
      refine ⟨hmode, rfl, ?_⟩
      simp [attend, stopTest, hstop]
  · simp [hmode] at h

/-- **A pass leaves a record that the next has nothing to do for.** -/
theorem settled_safetyPass (eq : Compare) (check : CarSharedMem → Bool) (m : CarSharedMem) :
    Settled eq check (safetyPass eq check m) := by
  have hsystem : (safetyPass eq check m).safetySystem = 1 := by
    rw [safetyPass_eq]
    rfl
  have hdoors : obstructedTest eq (safetyPass eq check m) = true →
      (safetyPass eq check m).status = strOpening := by
    rw [safetyPass_eq]
    intro htest
    show (if obstructedTest eq m then strOpening else m.status) = strOpening
    cases hbefore : obstructedTest eq m with
    | true => rfl
    | false =>
      have hstatus : (attend eq m).status = m.status := by simp [attend, hbefore]
      have hsame : (m.doorObstruction != 0 && eq (attend eq m).status strClosing) = true := htest
      rw [hstatus] at hsame
      exact absurd hsame (Bool.eq_false_iff.mp hbefore)
  by_cases hmode : (safetyPass eq check m).emergencyMode = 0
  · -- not in emergency: nothing was wrong, and the record the validator saw is the one left
    obtain ⟨_, hem, hpass⟩ := safetyPass_of_calm hmode
    simp only [emergency, Bool.or_eq_false_iff, bne_eq_false_iff_eq, Bool.not_eq_false'] at hem
    obtain ⟨⟨hstop, hload⟩, hcheck⟩ := hem
    refine ⟨hsystem, hdoors, ?_, ?_, ?_⟩
    · rw [hpass]
      simp [stopTest, hstop]
    · rw [hpass]
      simp [overloadTest, hload]
    · rw [hpass]
      simp [inconsistentTest, hcheck]
  · -- in emergency: the three alarms are off
    refine ⟨hsystem, hdoors, ?_, ?_, ?_⟩
    · simp [stopTest, hmode]
    · simp [overloadTest, hmode]
    · simp [inconsistentTest, hmode]

theorem Settled.disengagedTest (h : Settled eq check m) : disengagedTest m = false := by
  simp [Car.disengagedTest, h.system]

/-- Reopening doors that open writes the word that is there. -/
theorem Settled.reopened (h : Settled eq check m) (htest : obstructedTest eq m = true) :
    reopened m = m := by
  rw [Car.reopened, ← h.doors htest]

/-- A pass over a settled record writes nothing new and prints nothing. -/
theorem Settled.exec_safetyBody (h : Settled eq check m) :
    (safetyBody eq check).exec m = some ⟨true, m, []⟩ := by
  unfold safetyBody
  rw [Code.exec_branch_neg h.disengagedTest]
  have hrest : ∀ body, (Code.branch (obstructedTest eq)
      (fun next => .store Car.reopened (.signal () next)) body).exec m = body.exec m := by
    intro body
    cases htest : obstructedTest eq m with
    | true =>
      show (if obstructedTest eq m then _ else _ : Program).exec m = _
      rw [if_pos htest]
      show body.exec (Car.reopened m) = _
      rw [h.reopened htest]
    | false => exact Code.exec_branch_neg htest
  rw [hrest, Code.exec_branch_neg h.stop, Code.exec_branch_neg h.load, Code.exec_branch_neg h.data]
  rfl

/-- Nor does it signal, if a status that reads `Opening` is not taken for `Closing`. -/
theorem Settled.locked_safetyBody (h : Settled eq check m)
    (heq : eq strOpening strClosing = false) :
    (safetyBody eq check).locked [] m = some ⟨m, [], .run (.exit true)⟩ := by
  have hdoors : obstructedTest eq m = false := by
    rw [← Bool.not_eq_true]
    intro htest
    have hclosing : eq m.status strClosing = true := (Bool.and_eq_true_iff.mp htest).2
    rw [h.doors htest, heq] at hclosing
    cases hclosing
  unfold safetyBody
  rw [Code.locked_branch_neg h.disengagedTest, Code.locked_branch_neg hdoors,
    Code.locked_branch_neg h.stop, Code.locked_branch_neg h.load, Code.locked_branch_neg h.data]
  rfl

/-- **Running it again changes nothing**, once or any number of times, whatever predicate stands
for the validator and however statuses are compared; nothing is printed, and, as `Opening` and
`Closing` differ, nobody is signalled. -/
theorem safetyBody_idempotent (eq : Compare) (check : CarSharedMem → Bool) (m : CarSharedMem) :
    ∃ o, (safetyBody eq check).exec m = some o ∧
      (safetyBody eq check).exec o.mem = some ⟨true, o.mem, []⟩ ∧
      (∀ n, (safetyPass eq check)^[n] o.mem = o.mem) ∧
      (eq strOpening strClosing = false →
        (safetyBody eq check).locked [] o.mem = some ⟨o.mem, [], .run (.exit true)⟩) := by
  obtain ⟨o, hexec, hpass⟩ := Option.map_eq_some_iff.mp (mem_exec_safetyBody eq check m)
  have hsettled : Settled eq check o.mem := by
    rw [hpass]
    exact settled_safetyPass eq check m
  have hagain := hsettled.exec_safetyBody
  have hfixed : safetyPass eq check o.mem = o.mem := by
    have hmem := mem_exec_safetyBody eq check o.mem
    rw [hagain] at hmem
    exact (Option.some.inj hmem).symm
  exact ⟨o, hexec, hagain, fun n => Function.iterate_fixed hfixed n, hsettled.locked_safetyBody⟩

end Car
end Cab403
