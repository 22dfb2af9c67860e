import Cab403.Car.Flags
import Cab403.Car.Wakeup

/-!
# Event after event

The safety thread and the car thread of one car, and events from outside: a button, the stop or
the overload sensor set under the mutex, and everybody woken. After each event both threads run
until they sleep or have returned.

`safety_ctrl` and `car_run` do one pass and return. For the safety thread that makes no
difference to the emergency mode: on a consistent record its one pass always raises it, and
nothing here clears it. For the car thread it does: the first press is its last. `served_iff`
says that every event of a history is served exactly when no button is pressed after the car
thread has returned, and, when the threads have come to rest before the first event, exactly when
there is one press at most.
-/

namespace Cab403
namespace Car

open Lib

/-! ## Consistency -/

/-- What it takes for `dataInconsistent` to find nothing. -/
structure Consistent (m : CarSharedMem) : Prop where
  currentFloor : legalFloor m.currentFloor = true
  destinationFloor : legalFloor m.destinationFloor = true
  status : m.status ∈ [strOpen, strOpening, strClosed, strClosing, strBetween]
  flags : FlagsOk m
  obstruction : m.doorObstruction ≠ 0 → m.status = strOpening ∨ m.status = strClosing

theorem consistent_iff {m : CarSharedMem} : dataInconsistent m = false ↔ Consistent m := by
  have hle : ∀ b : UInt8, ¬ b > 1 ↔ b ≤ 1 := fun b => UInt8.not_lt
  simp only [dataInconsistent, Bool.or_eq_false_iff, Bool.not_eq_false', List.contains_iff_mem,
    List.any_cons, List.any_nil, decide_eq_false_iff_not, hle, Bool.and_eq_false_iff,
    bne_eq_false_iff_eq]
  constructor
  · rintro ⟨⟨⟨⟨hc, hd⟩, hs⟩, h1, h2, h3, h4, h5, h6, h7, h8, _⟩, ho⟩
    refine ⟨hc, hd, hs, ⟨h1, h2, h3, h4, h5, h6, h7, h8⟩, fun hne => ?_⟩
    rcases ho with (h | h) | h
    · exact absurd h hne
    · exact .inl h
    · exact .inr h
  · rintro ⟨hc, hd, hs, ⟨h1, h2, h3, h4, h5, h6, h7, h8⟩, ho⟩
    refine ⟨⟨⟨⟨hc, hd⟩, hs⟩, h1, h2, h3, h4, h5, h6, h7, h8, trivial⟩, ?_⟩
    by_cases hne : m.doorObstruction = 0
    · exact .inl (.inl hne)
    · rcases ho hne with h | h
      · exact .inl (.inr h)
      · exact .inr h

section Consistency

variable {eq : Compare} {m : CarSharedMem}

theorem consistent_attend (h : Consistent m) : Consistent (attend eq m) := by
  have hone : (1 : UInt8) ≤ 1 := by decide
  obtain ⟨hc, hd, hs, ⟨h1, h2, h3, h4, h5, h6, h7, h8⟩, ho⟩ := h
  have hstatus : (attend eq m).status = m.status ∨ (attend eq m).status = strOpening := by
    unfold attend
    cases obstructedTest eq m with
    | true => exact .inr rfl
    | false => exact .inl rfl
  refine ⟨hc, hd, ?_, ⟨h1, h2, hone, h4, h5, h6, h7, h8⟩, fun hne => ?_⟩
  · rcases hstatus with h | h
    · rw [h]
      exact hs
    · rw [h]
      simp
  · rcases hstatus with h | h
    · rw [h]
      exact ho hne
    · exact .inl h

theorem consistent_safetyPass (h : Consistent m) :
    Consistent (safetyPass eq dataInconsistent m) := by
  have hflags := flagsOk_safetyPass eq dataInconsistent h.flags
  have hattend : Consistent (attend eq m) := consistent_attend h
  obtain ⟨hc, hd, hs, _, ho⟩ := hattend
  rw [safetyPass_eq] at hflags ⊢
  exact ⟨hc, hd, hs, hflags, ho⟩

theorem consistent_carPass (h : Consistent m) : Consistent (carPass m) :=
  ⟨h.currentFloor, h.destinationFloor, h.status, flagsOk_carPass h.flags, h.obstruction⟩

/-- The test for an inconsistency goes off on a record that has none. -/
theorem safetyPass_of_consistent (h : Consistent m) :
    (safetyPass eq dataInconsistent m).emergencyMode = 1 := by
  rcases eq_zero_or_one h.flags.emergencyMode with h0 | h1
  · have hcheck : dataInconsistent (attend eq m) = false :=
      consistent_iff.mpr (consistent_attend h)
    rw [safetyPass_eq]
    simp [h0, emergency, hcheck]
  · exact safetyPass_emergency h1

end Consistency

/-! ## Events and histories -/

inductive Event where
  | openButton
  | closeButton
  | emergencyStop
  | overload
  deriving DecidableEq, Repr

def Event.set (e : Event) (m : CarSharedMem) : CarSharedMem :=
  match e with
  | .openButton => { m with openButton := 1 }
  | .closeButton => { m with closeButton := 1 }
  | .emergencyStop => { m with emergencyStop := 1 }
  | .overload => { m with overload := 1 }

def Event.isPress : Event → Bool
  | .openButton | .closeButton => true
  | .emergencyStop | .overload => false

/-- The car without internal controls. -/
abbrev TwoThreads := CarPool Empty

def car (eq : Compare) (m : CarSharedMem) : TwoThreads :=
  started eq dataInconsistent (roles Empty.elim) m

/-- The event, and everybody woken. -/
def Event.raise (e : Event) (p : TwoThreads) : TwoThreads :=
  ⟨e.set p.mem, fun i => (p.thread i).awaken⟩

/-- Every thread sleeps or has returned. -/
def AtRest (p : TwoThreads) : Prop :=
  ∀ i, (p.thread i).isAsleep = true ∨ (p.thread i).isReturned = true

/-- The threads run from `p` to `q`, whoever takes the steps. -/
def Runs (p q : TwoThreads) : Prop := ∃ tr, Trace Step p tr ∧ lastState p tr = q

/-- An event, and then both threads until they are at rest. -/
def Round (p : TwoThreads) (e : Event) (q : TwoThreads) : Prop := Runs (e.raise p) q ∧ AtRest q

/-- What serving an event takes. -/
structure Serves (e : Event) (q : TwoThreads) : Prop where
  openButton : q.mem.openButton = 0
  closeButton : q.mem.closeButton = 0
  emergency : e.isPress = false → q.mem.emergencyMode = 1

/-! ## What a step does -/

section Steps

variable {eq : Compare} {p q : TwoThreads} {i : Role Empty}

/-- A step of one of the two threads, and what the other sees of it. -/
inductive TwoActs (eq : Compare) (p q : TwoThreads) : Prop
  | safetySleeps (hactive : (p.thread .safety).isReturned = false)
      (hawake : (p.thread .safety).isAsleep = false)
      (hquiet : quiet dataInconsistent p.mem = true) (hmem : q.mem = p.mem)
      (hsafety : q.thread .safety = .asleep () (safetyLoop eq dataInconsistent))
      (hcar : q.thread .car = p.thread .car)
  | safetyPasses (hactive : (p.thread .safety).isReturned = false)
      (hawake : (p.thread .safety).isAsleep = false)
      (hmem : q.mem = safetyPass eq dataInconsistent p.mem)
      (hsafety : q.thread .safety = .run (.exit true))
      (hreturned : (q.thread .car).isReturned = (p.thread .car).isReturned)
      (hasleep : (q.thread .car).isAsleep = true → (p.thread .car).isAsleep = true)
  | carSleeps (hactive : (p.thread .car).isReturned = false)
      (hawake : (p.thread .car).isAsleep = false)
      (hunpressed : unpressed p.mem = true) (hmem : q.mem = p.mem)
      (hcar : q.thread .car = .asleep () carLoop)
      (hsafety : q.thread .safety = p.thread .safety)
  | carPasses (hactive : (p.thread .car).isReturned = false)
      (hawake : (p.thread .car).isAsleep = false)
      (hpressed : unpressed p.mem = false) (hmem : q.mem = carPass p.mem)
      (hcar : q.thread .car = .run (.exit true))
      (hreturned : (q.thread .safety).isReturned = (p.thread .safety).isReturned)
      (hasleep : (q.thread .safety).isAsleep = true → (p.thread .safety).isAsleep = true)

theorem step_twoActs (h : Step p i q) (hp : Placed eq dataInconsistent (roles Empty.elim) p) :
    TwoActs eq p q := by
  obtain ⟨hawake, hactive⟩ := h.isActive
  cases step_acts h hp with
  | reads op hjob =>
    obtain ⟨k, _⟩ := exists_internal_of_job hjob
    exact k.elim
  | operates op hjob =>
    obtain ⟨k, _⟩ := exists_internal_of_job hjob
    exact k.elim
  | safetySleeps hjob hquiet hmem hthread =>
    obtain rfl := eq_safety_of_job hjob
    refine .safetySleeps hactive hawake hquiet hmem ?_ ?_
    · rw [hthread, Function.update_self]
    · rw [hthread, Function.update_of_ne (by simp)]
  | safetyPasses hjob hquiet hmem signals th hwakes hthread =>
    obtain rfl := eq_safety_of_job hjob
    have hcar : q.thread .car = th .car := by rw [hthread, Function.update_of_ne (by simp)]
    refine .safetyPasses hactive hawake hmem ?_ ?_ ?_
    · rw [hthread, Function.update_self]
    · rw [hcar, hwakes.isReturned]
    · rw [hcar]
      exact hwakes.isAsleep
  | carSleeps hjob hunpressed hmem hthread =>
    obtain rfl := eq_car_of_job hjob
    refine .carSleeps hactive hawake hunpressed hmem ?_ ?_
    · rw [hthread, Function.update_self]
    · rw [hthread, Function.update_of_ne (by simp)]
  | carPasses hjob hpressed hmem signals hsignals th hwakes hthread =>
    obtain rfl := eq_car_of_job hjob
    have hsafety : q.thread .safety = th .safety := by
      rw [hthread, Function.update_of_ne (by simp)]
    refine .carPasses hactive hawake hpressed hmem ?_ ?_ ?_
    · rw [hthread, Function.update_self]
    · rw [hsafety, hwakes.isReturned]
    · rw [hsafety]
      exact hwakes.isAsleep

/-- The buttons are the car thread's alone. -/
theorem unpressed_safetyPass (m : CarSharedMem) :
    unpressed (safetyPass eq dataInconsistent m) = unpressed m := by
  rw [safetyPass_eq]
  rfl

/-- **The car thread's one pass.** A step leaves the buttons and the car thread's being done as
they were, or is the pass that clears the ones and does the other. -/
theorem car_moves (h : Step p i q) (hp : Placed eq dataInconsistent (roles Empty.elim) p) :
    ((q.thread .car).isReturned = (p.thread .car).isReturned ∧
      unpressed q.mem = unpressed p.mem) ∨
    ((p.thread .car).isReturned = false ∧ unpressed p.mem = false ∧
      (q.thread .car).isReturned = true ∧ unpressed q.mem = true) := by
  cases step_twoActs h hp with
  | safetySleeps hactive hawake hquiet hmem hsafety hcar => exact .inl ⟨by rw [hcar], by rw [hmem]⟩
  | safetyPasses hactive hawake hmem hsafety hreturned hasleep =>
    exact .inl ⟨hreturned, by rw [hmem, unpressed_safetyPass]⟩
  | carSleeps hactive hawake hunpressed hmem hcar hsafety =>
    exact .inl ⟨by rw [hcar, hactive]; rfl, by rw [hmem]⟩
  | carPasses hactive hawake hpressed hmem hcar hreturned hasleep =>
    exact .inr ⟨hactive, hpressed, by rw [hcar]; rfl, by rw [hmem]; rfl⟩

/-! ## What every state has -/

/-- The record stays consistent; a safety thread that is done has raised the emergency; a thread
that sleeps has nothing to do. -/
structure Kept (eq : Compare) (p : TwoThreads) : Prop where
  placed : Placed eq dataInconsistent (roles Empty.elim) p
  consistent : Consistent p.mem
  safetyReturned : (p.thread .safety).isReturned = true → p.mem.emergencyMode = 1
  safetyAsleep : (p.thread .safety).isAsleep = true → quiet dataInconsistent p.mem = true
  carAsleep : (p.thread .car).isAsleep = true → unpressed p.mem = true

/-- A press or its reset is nothing to the safety system. -/
theorem quiet_carPass {m : CarSharedMem} (h : Consistent m) :
    quiet dataInconsistent (carPass m) = quiet dataInconsistent m := by
  unfold quiet
  rw [consistent_iff.mpr h, consistent_iff.mpr (consistent_carPass h)]
  rfl

theorem kept_step (hp : Kept eq p) (h : Step p i q) : Kept eq q := by
  have hplaced := placed_step hp.placed h
  cases step_twoActs h hp.placed with
  | safetySleeps hactive hawake hquiet hmem hsafety hcar =>
    refine ⟨hplaced, hmem ▸ hp.consistent, fun hreturned => ?_, fun _ => hmem ▸ hquiet, ?_⟩
    · rw [hsafety] at hreturned
      cases hreturned
    · rw [hcar, hmem]
      exact hp.carAsleep
  | safetyPasses hactive hawake hmem hsafety hreturned hasleep =>
    refine ⟨hplaced, ?_, fun _ => ?_, fun hsleep => ?_, fun hsleep => ?_⟩
    · rw [hmem]
      exact consistent_safetyPass hp.consistent
    · rw [hmem]
      exact safetyPass_of_consistent hp.consistent
    · rw [hsafety] at hsleep
      cases hsleep
    · rw [hmem, unpressed_safetyPass]
      exact hp.carAsleep (hasleep hsleep)
  | carSleeps hactive hawake hunpressed hmem hcar hsafety =>
    refine ⟨hplaced, hmem ▸ hp.consistent, ?_, ?_, fun _ => hmem ▸ hunpressed⟩
    · rw [hsafety, hmem]
      exact hp.safetyReturned
    · rw [hsafety, hmem]
      exact hp.safetyAsleep
  | carPasses hactive hawake hpressed hmem hcar hreturned hasleep =>
    refine ⟨hplaced, ?_, ?_, fun hsleep => ?_, fun hsleep => ?_⟩
    · rw [hmem]
      exact consistent_carPass hp.consistent
    · rw [hreturned, hmem]
      exact hp.safetyReturned
    · rw [hmem, quiet_carPass hp.consistent]
      exact hp.safetyAsleep (hasleep hsleep)
    · rw [hcar] at hsleep
      cases hsleep

theorem kept_car {m : CarSharedMem} (hm : Consistent m) : Kept eq (car eq m) :=
  ⟨placed_started m, hm, fun h => (Bool.false_ne_true h).elim,
    fun h => (Bool.false_ne_true h).elim, fun h => (Bool.false_ne_true h).elim⟩

theorem consistent_set (e : Event) {m : CarSharedMem} (h : Consistent m) :
    Consistent (e.set m) := by
  have hone : (1 : UInt8) ≤ 1 := by decide
  obtain ⟨hc, hd, hs, ⟨h1, h2, h3, h4, h5, h6, h7, h8⟩, ho⟩ := h
  cases e with
  | openButton => exact ⟨hc, hd, hs, ⟨hone, h2, h3, h4, h5, h6, h7, h8⟩, ho⟩
  | closeButton => exact ⟨hc, hd, hs, ⟨h1, hone, h3, h4, h5, h6, h7, h8⟩, ho⟩
  | emergencyStop => exact ⟨hc, hd, hs, ⟨h1, h2, h3, h4, h5, hone, h7, h8⟩, ho⟩
  | overload => exact ⟨hc, hd, hs, ⟨h1, h2, h3, h4, hone, h6, h7, h8⟩, ho⟩

theorem emergencyMode_set (e : Event) (m : CarSharedMem) :
    (e.set m).emergencyMode = m.emergencyMode := by
  cases e <;> rfl

theorem kept_raise (e : Event) (hp : Kept eq p) : Kept eq (e.raise p) := by
  refine ⟨⟨fun j => (hp.placed.keeps j).awaken, fun j => (hp.placed.stands j).awaken⟩,
    consistent_set e hp.consistent, fun hreturned => ?_, fun hsleep => ?_, fun hsleep => ?_⟩
  · have hold : (p.thread .safety).isReturned = true := by
      rw [← Thread.isReturned_awaken]
      exact hreturned
    exact (emergencyMode_set e p.mem).trans (hp.safetyReturned hold)
  · cases (Thread.isAsleep_awaken (p.thread .safety)).symm.trans hsleep
  · cases (Thread.isAsleep_awaken (p.thread .car)).symm.trans hsleep

end Steps

/-! ## Coming to rest -/

section Rest

variable {eq : Compare} {p q : TwoThreads} {i : Role Empty}

/-- How far a thread is from being done: each step takes something off, and a signal gives back
less than that. -/
def weight (t : Thread Unit CarSharedMem) : ℕ :=
  if t.isReturned then 0 else if t.isAsleep then 2 else 3

theorem weight_le (t : Thread Unit CarSharedMem) : weight t ≤ 3 := by
  unfold weight
  split
  · exact Nat.zero_le _
  · split <;> simp

/-- Being woken costs one at most. -/
theorem weight_woken {t t' : Thread Unit CarSharedMem} (h : t'.isReturned = t.isReturned) :
    weight t' ≤ weight t + 1 := by
  cases hr : t.isReturned with
  | true =>
    rw [weight, h, hr]
    exact Nat.zero_le _
  | false =>
    have htwo : 2 ≤ weight t := by
      rw [weight, hr, if_neg Bool.false_ne_true]
      split <;> decide
    exact (weight_le t').trans (Nat.succ_le_succ htwo)

theorem weight_step (hp : Placed eq dataInconsistent (roles Empty.elim) p) (h : Step p i q) :
    weight (q.thread .safety) + weight (q.thread .car) <
      weight (p.thread .safety) + weight (p.thread .car) := by
  have hfull : ∀ {t : Thread Unit CarSharedMem}, t.isReturned = false → t.isAsleep = false →
      weight t = 3 := by
    intro t hr ha
    rw [weight, hr, ha]
    rfl
  cases step_twoActs h hp with
  | safetySleeps hactive hawake hquiet hmem hsafety hcar =>
    have hbefore := hfull hactive hawake
    have hafter : weight (q.thread .safety) = 2 := by rw [hsafety]; rfl
    rw [hcar]
    omega
  | safetyPasses hactive hawake hmem hsafety hreturned hasleep =>
    have hbefore := hfull hactive hawake
    have hafter : weight (q.thread .safety) = 0 := by rw [hsafety]; rfl
    have hother := weight_woken hreturned
    omega
  | carSleeps hactive hawake hunpressed hmem hcar hsafety =>
    have hbefore := hfull hactive hawake
    have hafter : weight (q.thread .car) = 2 := by rw [hcar]; rfl
    rw [hsafety]
    omega
  | carPasses hactive hawake hpressed hmem hcar hreturned hasleep =>
    have hbefore := hfull hactive hawake
    have hafter : weight (q.thread .car) = 0 := by rw [hcar]; rfl
    have hother := weight_woken hreturned
    omega

/-- A thread that is neither asleep nor done can move. -/
theorem exists_step (hp : Placed eq dataInconsistent (roles Empty.elim) p) (h : ¬ AtRest p) :
    ∃ i q, Step p i q := by
  obtain ⟨i, hi⟩ := not_forall.mp h
  obtain ⟨hawake, hactive⟩ := not_or.mp hi
  have hentry : ∃ c, (p.thread i).entry = some c := by
    have hpoint : ∀ {program loop : Program}, program = .lock loop →
        AtPoint program loop (p.thread i) → ∃ c, (p.thread i).entry = some c := by
      rintro program loop rfl (hat | hat | hat | hat)
      · exact ⟨loop, by rw [hat]; rfl⟩
      · exact absurd (by rw [hat]; rfl) hawake
      · exact ⟨loop, by rw [hat]; rfl⟩
      · exact absurd (by rw [hat]; rfl) hactive
    have hat := hp.stands i
    cases i with
    | safety => exact hpoint rfl hat
    | car => exact hpoint rfl hat
    | internal k => exact k.elim
  obtain ⟨c, hc⟩ := hentry
  exact ⟨i, (hp.keeps i).exists_step hc⟩

/-- **The threads come to rest**, after six steps at most, whoever takes them. -/
theorem exists_runs (hp : Placed eq dataInconsistent (roles Empty.elim) p) :
    ∃ q, Runs p q ∧ AtRest q := by
  -- on what is left to do
  induction hn : weight (p.thread .safety) + weight (p.thread .car) using Nat.strong_induction_on
    generalizing p with
  | _ n ih =>
    by_cases hrest : AtRest p
    · exact ⟨p, ⟨[], .nil p, rfl⟩, hrest⟩
    · obtain ⟨i, q, hstep⟩ := exists_step hp hrest
      have hless := weight_step hp hstep
      obtain ⟨r, ⟨tr, htr, hlast⟩, hr⟩ :=
        ih _ (hn ▸ hless) (placed_step hp hstep) rfl
      exact ⟨r, ⟨(i, q) :: tr, .cons hstep htr, hlast⟩, hr⟩

end Rest

/-! ## Histories -/

section Histories

variable {eq : Compare} {p q : TwoThreads}

theorem kept_runs (hp : Kept eq p) (h : Runs p q) : Kept eq q := by
  obtain ⟨tr, htr, rfl⟩ := h
  exact (htr.allStates (fun _ _ _ hs hst => kept_step hs hst) hp).last

/-- What holds of a pair of buttons and car thread that one pass of it keeps, a run keeps. -/
theorem runs_keep {P : Bool → Bool → Prop} (hpass : P false false → P true true)
    (hp : Kept eq p) (h : Runs p q) (hP : P (p.thread .car).isReturned (unpressed p.mem)) :
    P (q.thread .car).isReturned (unpressed q.mem) := by
  obtain ⟨tr, htr, rfl⟩ := h
  refine (htr.allStates (I := fun p => Kept eq p ∧ P (p.thread .car).isReturned (unpressed p.mem))
    (fun s i t hs hst => ⟨kept_step hs.1 hst, ?_⟩) ⟨hp, hP⟩).last.2
  rcases car_moves hst hs.1.placed with ⟨hr, hu⟩ | ⟨hr, hu, hr', hu'⟩
  · rw [hr, hu]
    exact hs.2
  · have hbefore := hs.2
    rw [hr, hu] at hbefore
    rw [hr', hu']
    exact hpass hbefore

theorem unpressed_iff {m : CarSharedMem} :
    unpressed m = true ↔ m.openButton = 0 ∧ m.closeButton = 0 := by
  simp [unpressed]

theorem unpressed_press {e : Event} (he : e.isPress = true) (m : CarSharedMem) :
    unpressed (e.set m) = false := by
  cases e with
  | openButton => rfl
  | closeButton => exact Bool.and_false _
  | emergencyStop => cases he
  | overload => cases he

theorem unpressed_hazard {e : Event} (he : e.isPress = false) (m : CarSharedMem) :
    unpressed (e.set m) = unpressed m := by
  cases e with
  | openButton => cases he
  | closeButton => cases he
  | emergencyStop => rfl
  | overload => rfl

/-- A car thread that has not returned leaves no button pressed. -/
theorem unpressed_of_rest (hp : Kept eq p) (hrest : AtRest p)
    (hreturned : (p.thread .car).isReturned = true → unpressed p.mem = true) :
    unpressed p.mem = true := by
  rcases hrest .car with hasleep | hdone
  · exact hp.carAsleep hasleep
  · exact hreturned hdone

/-- **A round serves its press iff the car thread is still there for it.** -/
theorem unpressed_round {e : Event} (hp : Kept eq p)
    (hserved : (p.thread .car).isReturned = true → unpressed p.mem = true) (h : Round p e q) :
    unpressed q.mem = true ↔ (e.isPress = true → (p.thread .car).isReturned = false) := by
  obtain ⟨hruns, hrest⟩ := h
  have hraise := kept_raise e hp
  have hq := kept_runs hraise hruns
  have hcar : ((e.raise p).thread .car).isReturned = (p.thread .car).isReturned :=
    Thread.isReturned_awaken _
  constructor
  · -- a button pressed after the car thread has returned stays pressed
    intro hun hpress
    cases hr : (p.thread .car).isReturned with
    | false => rfl
    | true =>
      have hstuck := runs_keep (P := fun r u => r = true ∧ u = false) (fun h => nomatch h.1)
        hraise hruns ⟨hcar.trans hr, unpressed_press hpress p.mem⟩
      rw [hstuck.2] at hun
      cases hun
  · intro hcond
    refine unpressed_of_rest hq hrest ?_
    refine runs_keep (P := fun r u => r = true → u = true) (fun _ _ => rfl) hraise hruns ?_
    intro hr
    rw [hcar] at hr
    cases he : e.isPress with
    | true =>
      rw [hcond he] at hr
      cases hr
    | false => exact (unpressed_hazard he p.mem).trans (hserved hr)

/-- A hazard, until the safety system has taken notice of it. -/
def Hazard (m : CarSharedMem) : Prop :=
  m.emergencyStop ≠ 0 ∨ m.overload ≠ 0 ∨ m.emergencyMode = 1

theorem hazard_set {e : Event} (he : e.isPress = false) (m : CarSharedMem) : Hazard (e.set m) := by
  have hone : (1 : UInt8) ≠ 0 := by decide
  cases e with
  | openButton => cases he
  | closeButton => cases he
  | emergencyStop => exact .inl hone
  | overload => exact .inr (.inl hone)

theorem hazard_runs (hp : Kept eq p) (h : Runs p q) (hhazard : Hazard p.mem) : Hazard q.mem := by
  obtain ⟨tr, htr, rfl⟩ := h
  refine (htr.allStates (I := fun p => Kept eq p ∧ Hazard p.mem)
    (fun s i t hs hst => ⟨kept_step hs.1 hst, ?_⟩) ⟨hp, hhazard⟩).last.2
  cases step_twoActs hst hs.1.placed with
  | safetySleeps hactive hawake hquiet hmem hsafety hcar => exact hmem ▸ hs.2
  | safetyPasses hactive hawake hmem hsafety hreturned hasleep =>
    rw [hmem]
    exact .inr (.inr (safetyPass_of_consistent hs.1.consistent))
  | carSleeps hactive hawake hunpressed hmem hcar hsafety => exact hmem ▸ hs.2
  | carPasses hactive hawake hpressed hmem hcar hreturned hasleep =>
    rw [hmem]
    exact hs.2

/-- **The safety thread serves every event.** If it is still there it wakes up to the hazard, and
if it is not then it has raised the emergency before. -/
theorem emergency_round {e : Event} (hp : Kept eq p) (he : e.isPress = false)
    (h : Round p e q) : q.mem.emergencyMode = 1 := by
  obtain ⟨hruns, hrest⟩ := h
  have hraise := kept_raise e hp
  have hq := kept_runs hraise hruns
  rcases hrest .safety with hasleep | hdone
  · have hquiet := hq.safetyAsleep hasleep
    simp only [quiet, Bool.and_eq_true, beq_iff_eq] at hquiet
    obtain ⟨⟨⟨⟨_, _⟩, hstop⟩, hoverload⟩, _⟩ := hquiet
    rcases hazard_runs hraise hruns (hazard_set he p.mem) with hbad | hbad | hmode
    · exact absurd hstop hbad
    · exact absurd hoverload hbad
    · exact hmode
  · exact hq.safetyReturned hdone

theorem serves_round {e : Event} (hp : Kept eq p)
    (hserved : (p.thread .car).isReturned = true → unpressed p.mem = true) (h : Round p e q) :
    Serves e q ↔ (e.isPress = true → (p.thread .car).isReturned = false) := by
  rw [← unpressed_round hp hserved h]
  constructor
  · intro hq
    exact unpressed_iff.mpr ⟨hq.openButton, hq.closeButton⟩
  · intro hun
    obtain ⟨ho, hc⟩ := unpressed_iff.mp hun
    exact ⟨ho, hc, fun he => emergency_round hp he h⟩

/-! ## One press -/

/-- At rest, the car thread is done iff there was something to do. -/
theorem returned_of_runs (hp : Kept eq p) (h : Runs p q) (hrest : AtRest q) :
    (q.thread .car).isReturned = ((p.thread .car).isReturned || !unpressed p.mem) := by
  have hq := kept_runs hp h
  cases hr : (p.thread .car).isReturned with
  | true =>
    exact runs_keep (P := fun r _ => r = true) (fun _ => rfl) hp h hr
  | false =>
    cases hu : unpressed p.mem with
    | true =>
      exact (runs_keep (P := fun r u => r = false ∧ u = true) (fun h => nomatch h.2) hp h
        ⟨hr, hu⟩).1
    | false =>
      have hserved := runs_keep (P := fun r u => r = true ∨ u = false) (fun _ => .inl rfl) hp h
        (.inr hu)
      rcases hserved with hdone | hpressed
      · exact hdone
      · rcases hrest .car with hasleep | hdone
        · cases hpressed.symm.trans (hq.carAsleep hasleep)
        · exact hdone

theorem returned_round {e : Event} (hp : Kept eq p) (hrest : AtRest p) (h : Round p e q) :
    (q.thread .car).isReturned = ((p.thread .car).isReturned || e.isPress) := by
  have hcar : ((e.raise p).thread .car).isReturned = (p.thread .car).isReturned :=
    Thread.isReturned_awaken _
  rw [returned_of_runs (kept_raise e hp) h.1 h.2, hcar]
  cases he : e.isPress with
  | true => rw [show unpressed (e.raise p).mem = false from unpressed_press he p.mem]; rfl
  | false =>
    rw [show unpressed (e.raise p).mem = unpressed p.mem from unpressed_hazard he p.mem]
    rcases hrest .car with hasleep | hdone
    · rw [hp.carAsleep hasleep]
      rfl
    · rw [hdone]
      rfl

def presses (tr : List (Event × TwoThreads)) : ℕ := (tr.map Prod.fst).countP Event.isPress

theorem kept_round {e : Event} (hp : Kept eq p) (h : Round p e q) : Kept eq q :=
  kept_runs (kept_raise e hp) h.1

/-- No press is too late iff there is one at most, a car thread that is done counting for one. -/
theorem allSteps_press {tr : List (Event × TwoThreads)} (h : Trace Round p tr) (hp : Kept eq p)
    (hrest : AtRest p) :
    AllSteps (fun p e _ => e.isPress = true → (p.thread .car).isReturned = false) p tr ↔
      presses tr + (p.thread .car).isReturned.toNat ≤ 1 := by
  induction h with
  | nil p => exact iff_of_true trivial (by cases (p.thread .car).isReturned <;> decide)
  | @cons p q e tr hround htr ih =>
    have hnext := ih (kept_round hp hround) hround.2
    rw [returned_round hp hrest hround] at hnext
    have hcount : presses ((e, q) :: tr) = presses tr + e.isPress.toNat := by
      cases he : e.isPress <;> simp [presses, he]
    show ((e.isPress = true → (p.thread .car).isReturned = false) ∧ AllSteps _ q tr) ↔ _
    rw [hnext, hcount]
    cases e.isPress <;> cases (p.thread .car).isReturned <;> simp

/-- There is no getting stuck: every list of events has its history. -/
theorem exists_history (hp : Kept eq p) (es : List Event) :
    ∃ tr, Trace Round p tr ∧ tr.map Prod.fst = es := by
  induction es generalizing p with
  | nil => exact ⟨[], .nil p, rfl⟩
  | cons e es ih =>
    obtain ⟨q, hq⟩ := exists_runs (kept_raise e hp).placed
    obtain ⟨tr, htr, hes⟩ := ih (kept_round hp hq)
    exact ⟨(e, q) :: tr, .cons hq htr, by rw [List.map_cons, hes]⟩

end Histories

/-! ## Every event -/

/-- **Which events are served.** -/
theorem served_iff {eq : Compare} {m : CarSharedMem} (hm : Consistent m) {p : TwoThreads}
    (hp : Runs (car eq m) p) {tr : List (Event × TwoThreads)} (h : Trace Round p tr) :
    (AllSteps (fun _ e q => Serves e q) p tr ↔
      AllSteps (fun p e _ => e.isPress = true → (p.thread .car).isReturned = false) p tr) ∧
    (AtRest p → (AllSteps (fun _ e q => Serves e q) p tr ↔
      presses tr + (!unpressed m).toNat ≤ 1)) := by
  have hcar : Kept eq (car eq m) := kept_car hm
  have hkept := kept_runs hcar hp
  have hready : (p.thread .car).isReturned = true → unpressed p.mem = true :=
    runs_keep (P := fun r u => r = true → u = true) (fun _ _ => rfl) hcar hp
      fun hr => (Bool.false_ne_true hr).elim
  have hserved : AllSteps (fun _ e q => Serves e q) p tr ↔
      AllSteps (fun p e _ => e.isPress = true → (p.thread .car).isReturned = false) p tr := by
    refine h.allSteps_iff (P := fun p => Kept eq p ∧
      ((p.thread .car).isReturned = true → unpressed p.mem = true)) ?_ ?_ ⟨hkept, hready⟩
    · intro p e q hs hround
      exact serves_round hs.1 hs.2 hround
    · intro p e q hs hround hq
      exact ⟨kept_round hs.1 hround,
        fun _ => (unpressed_round hs.1 hs.2 hround).mpr ((serves_round hs.1 hs.2 hround).mp hq)⟩
  refine ⟨hserved, fun hrest => ?_⟩
  have hdone : (p.thread .car).isReturned = !unpressed m := returned_of_runs hcar hp hrest
  rw [hserved, allSteps_press h hkept hrest, hdone]

/-- The emergency stop, then the open button: both threads were waiting, and both are served. -/
theorem served_iff_stop_open :
    ∃ p tr, Runs (car strEq allWell) p ∧ Trace Round p tr ∧
      tr.map Prod.fst = [.emergencyStop, .openButton] ∧
      AllSteps (fun _ e q => Serves e q) p tr := by
  have hrun : ∃ p tr, Runs (car strEq allWell) p ∧ AtRest p ∧ Trace Round p tr ∧
      tr.map Prod.fst = [Event.emergencyStop, .openButton] := by
    refine ⟨_, [(_, _), (_, _)],
      ⟨_, .cons (.locked (i := .safety) rfl rfl (.done _)) <|
        .cons (.locked (i := .car) rfl rfl (.done _)) <| .nil _, rfl⟩, ?_,
      .cons ⟨⟨_, .cons (.locked (i := .car) rfl rfl (.done _)) <|
        .cons (.locked (i := .safety) rfl rfl
          (.wake (ι := Role Empty) (j := .car) rfl (.done _))) <|
        .cons (.locked (i := .car) rfl rfl (.done _)) <| .nil _, rfl⟩, ?_⟩ <|
      .cons ⟨⟨_, .cons (.locked (i := .car) rfl rfl (.lose ?_ (.done _))) <| .nil _, rfl⟩, ?_⟩ <|
      .nil _, rfl⟩
    · rintro (_ | _ | k)
      exacts [.inl rfl, .inl rfl, k.elim]
    · rintro (_ | _ | k)
      exacts [.inr rfl, .inl rfl, k.elim]
    · rintro (_ | _ | k)
      exacts [rfl, rfl, k.elim]
    · rintro (_ | _ | k)
      exacts [.inr rfl, .inr rfl, k.elim]
  obtain ⟨p, tr, hp, hrest, htr, hes⟩ := hrun
  refine ⟨p, tr, hp, htr, hes, ?_⟩
  have hcount : presses tr = 1 := by
    rw [presses, hes]
    rfl
  refine ((served_iff (consistent_iff.mp rfl) hp htr).2 hrest).mpr ?_
  rw [hcount]
  decide

/-- The open button, then the close button: nobody is there for the second. -/
theorem not_served_open_close :
    ∃ p tr, Runs (car strEq allWell) p ∧ Trace Round p tr ∧
      tr.map Prod.fst = [.openButton, .closeButton] ∧
      ¬ AllSteps (fun _ e q => Serves e q) p tr := by
  refine ⟨_, [(_, _), (_, _)],
    ⟨_, .cons (.locked (i := .safety) rfl rfl (.done _)) <|
      .cons (.locked (i := .car) rfl rfl (.done _)) <| .nil _, rfl⟩,
    .cons ⟨⟨_, .cons (.locked (i := .car) rfl rfl (.lose ?_ (.done _))) <|
      .cons (.locked (i := .safety) rfl rfl (.done _)) <| .nil _, rfl⟩, ?_⟩ <|
    .cons ⟨⟨_, .cons (.locked (i := .safety) rfl rfl (.done _)) <| .nil _, rfl⟩, ?_⟩ <|
    .nil _, rfl, ?_⟩
  · rintro (_ | _ | k)
    exacts [rfl, rfl, k.elim]
  · rintro (_ | _ | k)
    exacts [.inl rfl, .inr rfl, k.elim]
  · rintro (_ | _ | k)
    exacts [.inl rfl, .inr rfl, k.elim]
  · rintro ⟨_, hserves, _⟩
    exact absurd hserves.closeButton (by decide)

end Car
end Cab403
