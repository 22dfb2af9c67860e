import Cab403.Car.Threads

/-!
# The flags of a car

Any number of internal controls, safety systems and car threads work on one record, from the one
`car_init` leaves. What they may do to its eight flags is read off the contracts of their locked
sections, one section at a time, and then holds of every run.
-/

namespace Cab403
namespace Car

open Lib

/-! ## The flags -/

structure FlagsOk (m : CarSharedMem) : Prop where
  openButton : m.openButton ≤ 1
  closeButton : m.closeButton ≤ 1
  safetySystem : m.safetySystem ≤ 1
  doorObstruction : m.doorObstruction ≤ 1
  overload : m.overload ≤ 1
  emergencyStop : m.emergencyStop ≤ 1
  individualServiceMode : m.individualServiceMode ≤ 1
  emergencyMode : m.emergencyMode ≤ 1

/-- `car_init`: the flags are cleared, the strings are whatever they are. -/
def carInit (m : CarSharedMem) : CarSharedMem :=
  { m with
    openButton := 0
    closeButton := 0
    safetySystem := 0
    doorObstruction := 0
    overload := 0
    emergencyStop := 0
    individualServiceMode := 0
    emergencyMode := 0 }

theorem flagsOk_carInit (m : CarSharedMem) : FlagsOk (carInit m) := by
  constructor <;> exact UInt8.zero_le

theorem eq_zero_or_one {b : UInt8} (h : b ≤ 1) : b = 0 ∨ b = 1 := by
  have htoNat : b.toNat ≤ 1 := UInt8.le_iff_toNat_le.mp h
  rcases Nat.le_one_iff_eq_zero_or_eq_one.mp htoNat with h0 | h1
  · exact .inl (UInt8.toNat_inj.mp h0)
  · exact .inr (UInt8.toNat_inj.mp h1)

/-! ## Sections keep the flags -/

theorem Operates.flagsOk {operation : CString} {m m' : CarSharedMem}
    (h : Operates operation m m') (hm : FlagsOk m) : FlagsOk m' := by
  obtain ⟨h1, h2, h3, h4, h5, h6, h7, h8⟩ := hm
  have hone : (1 : UInt8) ≤ 1 := by decide
  have hzero : (0 : UInt8) ≤ 1 := by decide
  rcases h.cases with (rfl | rfl | rfl) | ⟨_, rfl⟩ | ⟨_, rfl⟩ | hmoves
  · exact ⟨hone, h2, h3, h4, h5, h6, h7, h8⟩
  · exact ⟨h1, hone, h3, h4, h5, h6, h7, h8⟩
  · exact ⟨h1, h2, h3, h4, h5, hone, h7, h8⟩
  · exact ⟨h1, h2, h3, h4, h5, h6, hone, hzero⟩
  · exact ⟨h1, h2, h3, h4, h5, h6, hzero, h8⟩
  · rw [hmoves]
    exact ⟨h1, h2, h3, h4, h5, h6, h7, h8⟩

theorem flagsOk_safetyPass (eq : Compare) (check : CarSharedMem → Bool) {m : CarSharedMem}
    (hm : FlagsOk m) : FlagsOk (safetyPass eq check m) := by
  have hone : (1 : UInt8) ≤ 1 := by decide
  have hzero : (0 : UInt8) ≤ 1 := by decide
  obtain ⟨h1, h2, h3, h4, h5, h6, h7, h8⟩ := hm
  rw [safetyPass_eq]
  refine ⟨h1, h2, hone, h4, h5, ?_, h7, ?_⟩
  · show (if stopTest m then (0 : UInt8) else m.emergencyStop) ≤ 1
    split
    · exact hzero
    · exact h6
  · show (if _ then (1 : UInt8) else m.emergencyMode) ≤ 1
    split
    · exact hone
    · exact h8

theorem flagsOk_carPass {m : CarSharedMem} (hm : FlagsOk m) : FlagsOk (carPass m) :=
  ⟨UInt8.zero_le, UInt8.zero_le, hm.safetySystem, hm.doorObstruction, hm.overload, hm.emergencyStop,
    hm.individualServiceMode, hm.emergencyMode⟩

/-! ## What changes the emergency flags -/

/-- Of the operations, only these touch the modes; none clears the emergency stop. -/
theorem Operates.modes {operation : CString} {m m' : CarSharedMem}
    (h : Operates operation m m') :
    (m'.emergencyMode = m.emergencyMode ∨ operation = "service_on".toList) ∧
    (m'.emergencyStop = m.emergencyStop ∨ m'.emergencyStop = 1) ∧
    (m'.individualServiceMode = m.individualServiceMode ∨
      operation = "service_on".toList ∨ operation = "service_off".toList) := by
  rcases h.cases with (rfl | rfl | rfl) | ⟨hon, rfl⟩ | ⟨hoff, rfl⟩ | hmoves
  · exact ⟨.inl rfl, .inl rfl, .inl rfl⟩
  · exact ⟨.inl rfl, .inl rfl, .inl rfl⟩
  · exact ⟨.inl rfl, .inr rfl, .inl rfl⟩
  · exact ⟨.inr hon, .inl rfl, .inr (.inl hon)⟩
  · exact ⟨.inl rfl, .inl rfl, .inr (.inr hoff)⟩
  · rw [hmoves]
    exact ⟨.inl rfl, .inl rfl, .inl rfl⟩

section Pass

variable {eq : Compare} {check : CarSharedMem → Bool} {m : CarSharedMem}

/-- A pass never takes the car out of its emergency. -/
theorem safetyPass_emergency (h : m.emergencyMode = 1) :
    (safetyPass eq check m).emergencyMode = 1 := by
  rw [safetyPass_eq]
  simp [h]

/-- It clears the emergency stop only when it raises the emergency. -/
theorem safetyPass_stop (hm : FlagsOk m) (hstop : m.emergencyStop = 1) :
    (safetyPass eq check m).emergencyMode = 1 := by
  rcases eq_zero_or_one hm.emergencyMode with h0 | h1
  · rw [safetyPass_eq]
    have hraise : emergency check (attend eq m) = true := by simp [emergency, attend, hstop]
    simp [h0, hraise]
  · exact safetyPass_emergency h1

/-- **A pass leaves no hazard without an emergency.** -/
theorem safetyPass_hazard (hm : FlagsOk m) :
    (safetyPass eq check m).emergencyMode = 1 ∨
      (safetyPass eq check m).emergencyStop = 0 ∧ (safetyPass eq check m).overload = 0 := by
  rcases eq_zero_or_one hm.emergencyMode with h0 | h1
  · rcases eq_zero_or_one hm.emergencyStop with hs | hs
    · rcases eq_zero_or_one hm.overload with ho | ho
      · rw [safetyPass_eq]
        exact .inr ⟨by simp [stopTest, hs], ho⟩
      · rw [safetyPass_eq]
        have hraise : emergency check (attend eq m) = true := by simp [emergency, attend, ho]
        exact .inl (by simp [h0, hraise])
    · exact .inl (safetyPass_stop hm hs)
  · exact .inl (safetyPass_emergency h1)

end Pass

/-! ## Every run -/

section Runs

variable {ι : Type*} [DecidableEq ι] {eq : Compare} {check : CarSharedMem → Bool}
  {jobs : ι → Job}

/-- What a step of thread `i` may do to the flags. -/
structure FlagLaws (jobs : ι → Job) (p : Pool Unit CarSharedMem ι) (i : ι)
    (q : Pool Unit CarSharedMem ι) : Prop where
  emergencyCleared : p.mem.emergencyMode = 1 → q.mem.emergencyMode = 0 →
    jobs i = .internal "service_on".toList
  stopCleared : p.mem.emergencyStop = 1 → q.mem.emergencyStop = 0 →
    jobs i = .safety ∧ (q.thread i).isAsleep = false ∧ q.mem.emergencyMode = 1
  serviceChanged : q.mem.individualServiceMode ≠ p.mem.individualServiceMode →
    jobs i = .internal "service_on".toList ∨ jobs i = .internal "service_off".toList
  safetyPassed : jobs i = .safety → (q.thread i).isAsleep = false →
    q.mem.safetySystem = 1 ∧
      (q.mem.emergencyMode = 1 ∨ q.mem.emergencyStop = 0 ∧ q.mem.overload = 0)

theorem zero_ne_one : (0 : UInt8) ≠ 1 := by decide

omit [DecidableEq ι] in
/-- A step that leaves the three flags alone, and is no pass, obeys the laws. -/
theorem FlagLaws.of_same {p q : Pool Unit CarSharedMem ι} {i : ι}
    (hem : q.mem.emergencyMode = p.mem.emergencyMode)
    (hes : q.mem.emergencyStop = p.mem.emergencyStop)
    (hsm : q.mem.individualServiceMode = p.mem.individualServiceMode)
    (hno : jobs i = .safety → (q.thread i).isAsleep = true) : FlagLaws jobs p i q := by
  refine ⟨fun h h' => ?_, fun h h' => ?_, fun h => absurd hsm h, fun h h' => ?_⟩
  · exact absurd ((h'.symm.trans hem).trans h) zero_ne_one
  · exact absurd ((h'.symm.trans hes).trans h) zero_ne_one
  · rw [hno h] at h'
    cases h'

theorem flagLaws_step {p q : Pool Unit CarSharedMem ι} {i : ι} (h : Step p i q)
    (hp : Placed eq check jobs p) (hm : FlagsOk p.mem) :
    FlagsOk q.mem ∧ FlagLaws jobs p i q := by
  cases step_acts h hp with
  | reads operation hjob hmem c hthread =>
    rw [hmem]
    refine ⟨hm, .of_same (by rw [hmem]) (by rw [hmem]) (by rw [hmem]) fun hs => ?_⟩
    cases hjob.symm.trans hs
  | operates operation hjob hmem signals hsignals th hwakes c hthread =>
    obtain ⟨hem, hes, hsm⟩ := hmem.modes
    refine ⟨hmem.flagsOk hm, fun h1 h0 => ?_, fun h1 h0 => ?_, fun hne => ?_, fun hs => ?_⟩
    · rcases hem with heq | hon
      · exact absurd ((h0.symm.trans heq).trans h1) zero_ne_one
      · rw [hjob, hon]
    · rcases hes with heq | hset
      · exact absurd ((h0.symm.trans heq).trans h1) zero_ne_one
      · exact absurd (h0.symm.trans hset) zero_ne_one
    · rcases hsm with heq | hon | hoff
      · exact absurd heq hne
      · exact .inl (by rw [hjob, hon])
      · exact .inr (by rw [hjob, hoff])
    · cases hjob.symm.trans hs
  | safetySleeps hjob hquiet hmem hthread =>
    rw [hmem]
    refine ⟨hm, .of_same (by rw [hmem]) (by rw [hmem]) (by rw [hmem]) fun _ => ?_⟩
    rw [hthread, Function.update_self]
    rfl
  | safetyPasses hjob hquiet hmem signals th hwakes hthread =>
    have hrun : (q.thread i).isAsleep = false := by
      rw [hthread, Function.update_self]
      rfl
    have hsame : (safetyPass eq check p.mem).individualServiceMode =
        p.mem.individualServiceMode := by rw [safetyPass_eq]; rfl
    have hengaged : (safetyPass eq check p.mem).safetySystem = 1 := by rw [safetyPass_eq]; rfl
    rw [hmem]
    refine ⟨flagsOk_safetyPass eq check hm, ?_⟩
    constructor
    · intro h1 h0
      rw [hmem, safetyPass_emergency h1] at h0
      exact absurd h0.symm zero_ne_one
    · intro h1 _
      exact ⟨hjob, hrun, by rw [hmem]; exact safetyPass_stop hm h1⟩
    · intro hne
      rw [hmem] at hne
      exact absurd hsame hne
    · intro _ _
      rw [hmem]
      exact ⟨hengaged, safetyPass_hazard hm⟩
  | carSleeps hjob hunpressed hmem hthread =>
    rw [hmem]
    refine ⟨hm, .of_same (by rw [hmem]) (by rw [hmem]) (by rw [hmem]) fun hs => ?_⟩
    cases hjob.symm.trans hs
  | carPasses hjob hpressed hmem signals hsignals th hwakes hthread =>
    rw [hmem]
    refine ⟨flagsOk_carPass hm, .of_same (by rw [hmem]; rfl) (by rw [hmem]; rfl)
      (by rw [hmem]; rfl) fun hs => ?_⟩
    cases hjob.symm.trans hs

/-- **The flags of a car, in every run.** -/
theorem flags_in_every_run {m : CarSharedMem} {tr : List (ι × Pool Unit CarSharedMem ι)}
    (h : Trace Step (started eq check jobs (carInit m)) tr) :
    AllStates (fun p => FlagsOk p.mem) (started eq check jobs (carInit m)) tr ∧
      AllSteps (FlagLaws jobs) (started eq check jobs (carInit m)) tr := by
  have hstep : ∀ (p : Pool Unit CarSharedMem ι) (i : ι) (q : Pool Unit CarSharedMem ι),
      Placed eq check jobs p ∧ FlagsOk p.mem → Step p i q →
        (Placed eq check jobs q ∧ FlagsOk q.mem) ∧ FlagLaws jobs p i q := by
    rintro p i q ⟨hp, hm⟩ hst
    obtain ⟨hq, hlaws⟩ := flagLaws_step hst hp hm
    exact ⟨⟨placed_step hp hst, hq⟩, hlaws⟩
  have hstart : Placed eq check jobs (started eq check jobs (carInit m)) ∧
      FlagsOk (started eq check jobs (carInit m)).mem :=
    ⟨placed_started (carInit m), flagsOk_carInit m⟩
  exact ⟨(h.allStates (fun p i q hp hst => (hstep p i q hp hst).1) hstart).imp fun _ => And.right,
    h.allSteps hstep hstart⟩

end Runs

/-- One thread presses the emergency stop, the other is the safety system. -/
def stopAndSafety : Fin 2 → Job
  | 0 => .internal "stop".toList
  | 1 => .safety

def blank : CarSharedMem := carInit ⟨"1".toList, "1".toList, strClosed, 0, 0, 0, 0, 0, 0, 0, 0⟩

def stopButton : Pool Unit CarSharedMem (Fin 2) :=
  started strEq dataInconsistent stopAndSafety blank

theorem flags_in_every_run_stop :
    ∃ tr, Trace Step stopButton tr ∧ (lastState stopButton tr).mem.emergencyMode = 1 ∧
      AllStates (fun p => FlagsOk p.mem) stopButton tr ∧
      AllSteps (FlagLaws stopAndSafety) stopButton tr := by
  have hrun : ∃ tr, Trace Step stopButton tr ∧
      (lastState stopButton tr).mem.emergencyMode = 1 := by
    exact ⟨_, .cons (.locked (i := 0) rfl rfl (.lose (by decide) (.done _)))
      (.cons (.locked (i := 1) rfl rfl (.lose (by decide) (.lose (by decide) (.done _))))
        (.nil _)), rfl⟩
  obtain ⟨tr, htr, hlast⟩ := hrun
  exact ⟨tr, htr, hlast, flags_in_every_run htr⟩

end Car
end Cab403
