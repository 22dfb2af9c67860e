import Cab403.Car.Threads

/-!
# Who is woken

The safety thread and the car thread of one car sleep on one condition variable, and
`pthread_cond_signal` wakes either. A signal meant for the safety thread that goes to the car
thread is lost, unless something else happens: the car thread finds no button pressed and sleeps
again, and the safety thread sleeps on beside its hazard.

That is the only way to it. `attended_iff` says so for any number of internal controls and every
run: no state leaves the hazard unattended exactly when no step of the run is such a step.
-/

namespace Cab403
namespace Car

open Lib

/-! ## The threads of one car -/

/-- The two threads of the car, and its internal controls. -/
inductive Role (κ : Type) where
  | safety
  | car
  | internal (k : κ)
  deriving DecidableEq

variable {κ : Type}

def roles (operation : κ → CString) : Role κ → Job
  | .safety => .safety
  | .car => .car
  | .internal k => .internal (operation k)

theorem eq_safety_of_job {operation : κ → CString} {i : Role κ}
    (h : roles operation i = .safety) : i = .safety := by
  cases i with
  | safety => rfl
  | car => cases h
  | internal k => cases h

theorem eq_car_of_job {operation : κ → CString} {i : Role κ} (h : roles operation i = .car) :
    i = .car := by
  cases i with
  | safety => cases h
  | car => rfl
  | internal k => cases h

theorem exists_internal_of_job {operation : κ → CString} {i : Role κ} {s : CString}
    (h : roles operation i = .internal s) : ∃ k, i = .internal k := by
  cases i with
  | safety => cases h
  | car => cases h
  | internal k => exact ⟨k, rfl⟩

abbrev CarPool (κ : Type) := Pool Unit CarSharedMem (Role κ)

/-- Nobody has been woken, and the safety thread sleeps though its wait condition is false. -/
def Unattended (check : CarSharedMem → Bool) (p : CarPool κ) : Prop :=
  (∀ i, (p.thread i).isWoken = false) ∧ (p.thread .safety).isAsleep = true ∧
    quiet check p.mem = false

/-- The step is the car thread's, woken to no button, with the safety thread asleep beside a
hazard. -/
def missed (check : CarSharedMem → Bool) (p : CarPool κ) (i : Role κ) : Bool :=
  match i with
  | .car =>
    (p.thread .car).isWoken && unpressed p.mem && (p.thread .safety).isAsleep &&
      !quiet check p.mem
  | _ => false

/-! ## One step -/

section Steps

variable [DecidableEq κ] {eq : Compare} {check : CarSharedMem → Bool} {operation : κ → CString}

omit [DecidableEq κ] in
theorem internal_awake {p : CarPool κ} (hp : Placed eq check (roles operation) p) (k : κ) :
    (p.thread (.internal k)).isAsleep = false ∧ (p.thread (.internal k)).isWoken = false := by
  obtain ⟨c, hc⟩ := hp.stands (.internal k)
  rw [hc]
  exact ⟨rfl, rfl⟩

omit [DecidableEq κ] in
/-- The internal controls never sleep, so only the car thread can have been woken beside a
sleeping safety thread. -/
theorem unattended_iff {p : CarPool κ} (hp : Placed eq check (roles operation) p) :
    Unattended check p ↔ (p.thread .car).isWoken = false ∧
      (p.thread .safety).isAsleep = true ∧ quiet check p.mem = false := by
  constructor
  · rintro ⟨hnone, hsafety, hnoisy⟩
    exact ⟨hnone .car, hsafety, hnoisy⟩
  · rintro ⟨hcar, hsafety, hnoisy⟩
    refine ⟨fun i => ?_, hsafety, hnoisy⟩
    cases i with
    | safety =>
      cases ht : p.thread .safety with
      | woken c =>
        rw [ht] at hsafety
        cases hsafety
      | _ => rfl
    | car => exact hcar
    | internal k => exact (internal_awake hp k).2

/-- A section that signals attends to whoever is asleep. -/
theorem attended_of_signal {p q : CarPool κ} {i : Role κ} {signals : List Unit}
    {th : Role κ → Thread Unit CarSharedMem} {c : Program} (hsignals : signals ≠ [])
    (hwakes : Wakes signals p.thread th) (hq : q.thread = Function.update th i (.run c))
    (hi : (p.thread i).isAsleep = false) : ¬ Unattended check q := by
  rintro ⟨hnone, hsafety, _⟩
  have hsafetyNe : i ≠ .safety := by
    rintro rfl
    rw [hq, Function.update_self] at hsafety
    cases hsafety
  rw [hq, Function.update_of_ne hsafetyNe.symm] at hsafety
  -- so the safety thread slept before, and the signal found a sleeper
  have hasleep : ∃ c, p.thread .safety = .asleep () c := by
    rcases hwakes.thread .safety with heq | ⟨_, c, hc, hwoken⟩
    · rw [heq] at hsafety
      cases ht : p.thread .safety with
      | asleep v c => exact ⟨c, rfl⟩
      | run c =>
        rw [ht] at hsafety
        cases hsafety
      | woken c =>
        rw [ht] at hsafety
        cases hsafety
    · exact ⟨c, hc⟩
  obtain ⟨c', hc'⟩ := hasleep
  obtain ⟨s, hs⟩ := List.exists_mem_of_ne_nil signals hsignals
  obtain ⟨k, hk, hwoken⟩ := hwakes.exists_woken hs hc'
  have hki : k ≠ i := by
    rintro rfl
    rw [hi] at hk
    cases hk
  have hstill := hnone k
  rw [hq, Function.update_of_ne hki, hwoken] at hstill
  cases hstill

/-- **A step that starts with nobody unattended ends so unless it is a missed one.** -/
theorem attended_step {p q : CarPool κ} {i : Role κ} (hp : Placed eq check (roles operation) p)
    (hgood : ¬ Unattended check p) (h : Step p i q) :
    ¬ Unattended check q ↔ missed check p i = false := by
  have hnot := h.isActive.1
  cases step_acts h hp with
  | reads op hjob hmem c hthread =>
    obtain ⟨k, rfl⟩ := exists_internal_of_job hjob
    refine iff_of_true ?_ rfl
    rintro ⟨hnone, hsafety, hquiet⟩
    rw [hthread, Function.update_of_ne (by simp)] at hsafety
    rw [hmem] at hquiet
    refine hgood ⟨fun j => ?_, hsafety, hquiet⟩
    by_cases hj : j = .internal k
    · rw [hj]
      exact (internal_awake hp k).2
    · have hj' := hnone j
      rwa [hthread, Function.update_of_ne hj] at hj'
  | operates op hjob hmem signals hsignals th hwakes c hthread =>
    obtain ⟨k, rfl⟩ := exists_internal_of_job hjob
    exact iff_of_true (attended_of_signal hsignals hwakes hthread hnot) rfl
  | safetySleeps hjob hquiet hmem hthread =>
    obtain rfl := eq_safety_of_job hjob
    refine iff_of_true ?_ rfl
    rintro ⟨_, _, hnoisy⟩
    rw [hmem, hquiet] at hnoisy
    cases hnoisy
  | safetyPasses hjob hquiet hmem signals th hwakes hthread =>
    obtain rfl := eq_safety_of_job hjob
    refine iff_of_true ?_ rfl
    rintro ⟨_, hsafety, _⟩
    rw [hthread, Function.update_self] at hsafety
    cases hsafety
  | carSleeps hjob hunpressed hmem hthread =>
    obtain rfl := eq_car_of_job hjob
    -- asleep again: whatever the car had been woken for is nobody's now
    rw [unattended_iff (placed_step hp h)]
    rw [unattended_iff hp] at hgood
    have hasleep : (q.thread .car).isWoken = false := by
      rw [hthread, Function.update_self]
      rfl
    have hsafety : q.thread .safety = p.thread .safety := by
      rw [hthread, Function.update_of_ne (by simp)]
    rw [hasleep, hsafety, hmem]
    simp only [missed, hunpressed, Bool.and_true]
    cases hw : (p.thread .car).isWoken with
    | true => simp
    | false => simpa [hw] using hgood
  | carPasses hjob hpressed hmem signals hsignals th hwakes hthread =>
    obtain rfl := eq_car_of_job hjob
    refine iff_of_true (attended_of_signal hsignals hwakes hthread hnot) ?_
    simp [missed, hpressed]

/-- **Hazards are attended to exactly where no signal is missed.** -/
theorem attended_iff {m : CarSharedMem} {tr : List (Role κ × CarPool κ)}
    (h : Trace Step (started eq check (roles operation) m) tr) :
    AllStates (fun p => ¬ Unattended check p) (started eq check (roles operation) m) tr ↔
      AllSteps (fun p i _ => missed check p i = false) (started eq check (roles operation) m) tr :=
  h.allStates_iff (fun _ _ _ hp hst => placed_step hp hst)
    (fun _ _ _ hp hgood hst => attended_step hp hgood hst) (placed_started m)
    (fun hbad => absurd hbad.2.1 Bool.false_ne_true)

end Steps

/-! ## One signal, two sleepers -/

/-- One internal control, to press the emergency stop. -/
def pressStop : Unit → CString := fun _ => "stop".toList

/-- The safety system is in operation and nothing is wrong. -/
def allWell : CarSharedMem :=
  ⟨"1".toList, "1".toList, strClosed, 0, 0, 1, 0, 0, 0, 0, 0⟩

def onePress : CarPool Unit := started strEq dataInconsistent (roles pressStop) allWell

/-- The safety thread is woken: the emergency stop is attended to. -/
theorem attended_iff_safety_woken :
    ∃ tr, Trace Step onePress tr ∧ (lastState onePress tr).mem.emergencyMode = 1 ∧
      AllStates (fun p => ¬ Unattended dataInconsistent p) onePress tr := by
  have hrun : ∃ tr, Trace Step onePress tr ∧ (lastState onePress tr).mem.emergencyMode = 1 ∧
      AllSteps (fun p i _ => missed dataInconsistent p i = false) onePress tr := by
    refine ⟨_, .cons (.locked (i := .safety) rfl rfl (.done _)) <|
      .cons (.locked (i := .car) rfl rfl (.done _)) <|
      .cons (.locked (i := .internal ()) rfl rfl
        (.wake (ι := Role Unit) (j := .safety) rfl (.done _))) <|
      .cons (.locked (i := .safety) rfl rfl (.wake (ι := Role Unit) (j := .car) rfl (.done _))) <|
      .nil _, rfl, rfl, rfl, rfl, rfl, trivial⟩
  obtain ⟨tr, htr, hlast, hsteps⟩ := hrun
  exact ⟨tr, htr, hlast, (attended_iff htr).mpr hsteps⟩

/-- The car thread is woken instead, and nobody attends to it. -/
theorem unattended_car_woken :
    ∃ tr, Trace Step onePress tr ∧
      ¬ AllStates (fun p => ¬ Unattended dataInconsistent p) onePress tr := by
  have hrun : ∃ tr, Trace Step onePress tr ∧
      Unattended dataInconsistent (lastState onePress tr) := by
    refine ⟨_, .cons (.locked (i := .safety) rfl rfl (.done _)) <|
      .cons (.locked (i := .car) rfl rfl (.done _)) <|
      .cons (.locked (i := .internal ()) rfl rfl
        (.wake (ι := Role Unit) (j := .car) rfl (.done _))) <|
      .cons (.locked (i := .car) rfl rfl (.done _)) <| .nil _, ?_, rfl, rfl⟩
    intro i
    cases i <;> rfl
  obtain ⟨tr, htr, hbad⟩ := hrun
  exact ⟨tr, htr, fun hall => hall.last hbad⟩

end Car
end Cab403
