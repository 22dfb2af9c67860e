import Cab403.Car.Internal

/-!
# The threads of a car

Three programs work on the record of a car: `internal`, the safety system's `safety_ctrl` and the
car's own `car_run`. The last two wait on the one condition variable, each for its own reason;
each wakes up, does one *pass*, and returns.

For each program there is a contract, what a locked section of it does to the record and where
it leaves the thread; `program_keeps` proves them, and the results about runs use nothing else.
How statuses are compared and what is taken for an inconsistency are parameters throughout.
-/

namespace Cab403
namespace Car

open Lib

/-! ## The safety system -/

/-- The condition of its wait loop. -/
def quiet (check : CarSharedMem → Bool) (m : CarSharedMem) : Bool :=
  m.safetySystem != 0 && m.doorObstruction == 0 && m.emergencyStop == 0 && m.overload == 0 &&
    !check m

def engaged (m : CarSharedMem) : CarSharedMem := { m with safetySystem := 1 }

def reopened (m : CarSharedMem) : CarSharedMem := { m with status := strOpening }

def stopped (m : CarSharedMem) : CarSharedMem := { m with emergencyMode := 1, emergencyStop := 0 }

def alarmed (m : CarSharedMem) : CarSharedMem := { m with emergencyMode := 1 }

def disengagedTest (m : CarSharedMem) : Bool := m.safetySystem != 1

def obstructedTest (eq : Compare) (m : CarSharedMem) : Bool :=
  m.doorObstruction != 0 && eq m.status strClosing

def stopTest (m : CarSharedMem) : Bool := m.emergencyStop != 0 && m.emergencyMode == 0

def overloadTest (m : CarSharedMem) : Bool := m.overload != 0 && m.emergencyMode == 0

/-- The source tests for a record that is *not* inconsistent. -/
def inconsistentTest (check : CarSharedMem → Bool) (m : CarSharedMem) : Bool :=
  m.emergencyMode == 0 && !check m

/-- What `safety_ctrl` does once its wait loop is over. -/
def safetyBody (eq : Compare) (check : CarSharedMem → Bool) : Program :=
  .branch disengagedTest (fun next => .store engaged (.signal () next)) <|
  .branch (obstructedTest eq) (fun next => .store reopened (.signal () next)) <|
  .branch stopTest (fun next =>
    .print "\nThe emergency stop button has been pressed!\n" <|
    .store (fun m => { m with emergencyMode := 1 }) <|
    .store (fun m => { m with emergencyStop := 0 }) <| .signal () next) <|
  .branch overloadTest (fun next =>
    .print "\nThe overload sensor has been tripped!\n" <|
    .store alarmed <| .signal () next) <|
  .branch (inconsistentTest check) (fun next =>
    .print "\nData consistency error!\n" <|
    .store alarmed <| .signal () next) <|
  .unlock (.exit true)

def safetyLoop (eq : Compare) (check : CarSharedMem → Bool) : Program :=
  .await () (quiet check) (safetyBody eq check)

def safetyCtrl (eq : Compare) (check : CarSharedMem → Bool) : Program :=
  .lock (safetyLoop eq check)

/-- One pass: from the exit of the wait loop to the unlock. -/
def safetyPass (eq : Compare) (check : CarSharedMem → Bool) (m : CarSharedMem) : CarSharedMem :=
  onlyIf (inconsistentTest check) alarmed <| onlyIf overloadTest alarmed <|
    onlyIf stopTest stopped <| onlyIf (obstructedTest eq) reopened <|
    onlyIf disengagedTest engaged m

/-- What a pass does before it looks for an emergency. -/
def attend (eq : Compare) (m : CarSharedMem) : CarSharedMem :=
  { m with
    safetySystem := 1
    status := if obstructedTest eq m then strOpening else m.status }

/-- What a pass raises the emergency mode for. -/
def emergency (check : CarSharedMem → Bool) (m : CarSharedMem) : Bool :=
  m.emergencyStop != 0 || m.overload != 0 || !check m

theorem attend_eq (eq : Compare) (m : CarSharedMem) :
    onlyIf (obstructedTest eq) reopened (onlyIf disengagedTest engaged m) = attend eq m := by
  have hengaged : onlyIf disengagedTest engaged m = engaged m := by
    by_cases h : m.safetySystem = 1
    · rw [onlyIf_neg (by simp [disengagedTest, h]), engaged, ← h]
    · exact onlyIf_pos (by simp [disengagedTest, h])
  have htest : obstructedTest eq (engaged m) = obstructedTest eq m := rfl
  rw [hengaged]
  unfold attend
  cases h : obstructedTest eq m with
  | true =>
    rw [onlyIf_pos (htest.trans h)]
    rfl
  | false =>
    rw [onlyIf_neg (htest.trans h)]
    rfl

/-- The three alarms in closed form: the first that goes off is the last. -/
theorem alarms_eq (check : CarSharedMem → Bool) (m : CarSharedMem) :
    onlyIf (inconsistentTest check) alarmed (onlyIf overloadTest alarmed
        (onlyIf stopTest stopped m)) =
      { m with
        emergencyStop := if stopTest m then 0 else m.emergencyStop
        emergencyMode :=
          if m.emergencyMode == 0 && emergency check m then 1 else m.emergencyMode } := by
  by_cases hem : m.emergencyMode = 0
  · by_cases hstop : m.emergencyStop = 0
    · have hs : stopTest m = false := by simp [stopTest, hstop]
      rw [onlyIf_neg hs]
      by_cases hover : m.overload = 0
      · have ho : overloadTest m = false := by simp [overloadTest, hover]
        rw [onlyIf_neg ho]
        cases hc : check m with
        | true =>
          have hi : inconsistentTest check m = false := by simp [inconsistentTest, hc]
          have he : emergency check m = false := by simp [emergency, hstop, hover, hc]
          rw [onlyIf_neg hi, hs, he, Bool.and_false]
          rfl
        | false =>
          have hi : inconsistentTest check m = true := by simp [inconsistentTest, hc, hem]
          have he : emergency check m = true := by simp [emergency, hc]
          rw [onlyIf_pos hi, hs, he, hem]
          rfl
      · have ho : overloadTest m = true := by simp [overloadTest, hover, hem]
        have hi : inconsistentTest check (alarmed m) = false := rfl
        have he : emergency check m = true := by simp [emergency, hover]
        rw [onlyIf_pos ho, onlyIf_neg hi, hs, he, hem]
        rfl
    · have hs : stopTest m = true := by simp [stopTest, hstop, hem]
      have ho : overloadTest (stopped m) = false := by simp [overloadTest, stopped]
      have hi : inconsistentTest check (stopped m) = false := rfl
      have he : emergency check m = true := by simp [emergency, hstop]
      rw [onlyIf_pos hs, onlyIf_neg ho, onlyIf_neg hi, hs, he, hem]
      rfl
  · have hs : stopTest m = false := by simp [stopTest, hem]
    have ho : overloadTest m = false := by simp [overloadTest, hem]
    have hi : inconsistentTest check m = false := by simp [inconsistentTest, hem]
    have hraise : (m.emergencyMode == 0) = false := by simp [hem]
    rw [onlyIf_neg hs, onlyIf_neg ho, onlyIf_neg hi, hs, hraise, Bool.false_and]
    rfl

/-- **The pass in closed form.** -/
theorem safetyPass_eq (eq : Compare) (check : CarSharedMem → Bool) (m : CarSharedMem) :
    safetyPass eq check m =
      { attend eq m with
        emergencyStop := if stopTest m then 0 else m.emergencyStop
        emergencyMode :=
          if m.emergencyMode == 0 && emergency check (attend eq m) then 1
          else m.emergencyMode } := by
  rw [safetyPass, attend_eq, alarms_eq]
  rfl

/-- A locked section of `safety_ctrl` falls asleep or does a pass and returns. -/
def SafetySection (eq : Compare) (check : CarSharedMem → Bool) (m : CarSharedMem)
    (out : Section Unit CarSharedMem) : Prop :=
  (quiet check m = true ∧ out = ⟨m, [], .asleep () (safetyLoop eq check)⟩) ∨
    (quiet check m = false ∧ out.mem = safetyPass eq check m ∧ out.next = .run (.exit true))

theorem safetyBody_keeps (eq : Compare) (check : CarSharedMem → Bool) {m : CarSharedMem}
    (hm : quiet check m = false) :
    (safetyBody eq check).Keeps (SafetySection eq check) (some (m, m, [])) := by
  unfold safetyBody
  rw [Code.keeps_branch fun k => Iff.rfl, Code.keeps_branch fun k => Iff.rfl,
    Code.keeps_branch (f := stopped) fun k => Iff.rfl, Code.keeps_branch fun k => Iff.rfl,
    Code.keeps_branch fun k => Iff.rfl, Code.keeps_unlock]
  refine ⟨.inr ⟨hm, ?_, rfl⟩, trivial⟩
  rw [safetyPass]

theorem safetyLoop_keeps (eq : Compare) (check : CarSharedMem → Bool) (m : CarSharedMem) :
    if quiet check m then SafetySection eq check m ⟨m, [], .asleep () (safetyLoop eq check)⟩
    else (safetyBody eq check).Keeps (SafetySection eq check) (some (m, m, [])) := by
  by_cases hm : quiet check m = true
  · rw [if_pos hm]
    exact .inl ⟨hm, rfl⟩
  · rw [if_neg hm]
    exact safetyBody_keeps eq check (Bool.eq_false_iff.mpr hm)

theorem safetyCtrl_keeps (eq : Compare) (check : CarSharedMem → Bool) :
    (safetyCtrl eq check).Keeps (SafetySection eq check) none :=
  fun m => ⟨safetyLoop_keeps eq check m, safetyLoop_keeps eq check⟩

/-! ## The car -/

/-- The condition of the wait loop of `car_run`. -/
def unpressed (m : CarSharedMem) : Bool := m.openButton == 0 && m.closeButton == 0

/-- What `car_run` does once its wait loop is over. -/
def carBody : Program :=
  .load fun m =>
  if m.openButton != 0 && m.closeButton != 0 then
    .store (fun m => { m with openButton := 0 }) <|
    .store (fun m => { m with closeButton := 0 }) <| .signal () (.unlock (.exit true))
  else
    .load fun m =>
    if m.openButton != 0 then
      .store (fun m => { m with openButton := 0 }) <| .signal () (.unlock (.exit true))
    else
      .load fun m =>
      if m.closeButton != 0 then
        .store (fun m => { m with closeButton := 0 }) <| .signal () (.unlock (.exit true))
      else .unlock (.exit true)

def carLoop : Program := .await () unpressed carBody

def carRun : Program := .lock carLoop

/-- One pass of the car clears the buttons. -/
def carPass (m : CarSharedMem) : CarSharedMem := { m with openButton := 0, closeButton := 0 }

def CarSection (m : CarSharedMem) (out : Section Unit CarSharedMem) : Prop :=
  (unpressed m = true ∧ out = ⟨m, [], .asleep () carLoop⟩) ∨
    (unpressed m = false ∧ out.mem = carPass m ∧ out.signals ≠ [] ∧ out.next = .run (.exit true))

theorem carBody_keeps {m : CarSharedMem} (hm : unpressed m = false) :
    carBody.Keeps CarSection (some (m, m, [])) := by
  have hexit : ∀ {m' : CarSharedMem}, m' = carPass m →
      CarSection m ⟨m', [()], .run (.exit true)⟩ :=
    fun h => .inr ⟨hm, h, List.cons_ne_nil _ _, rfl⟩
  unfold carBody
  by_cases ho : m.openButton = 0
  · by_cases hc : m.closeButton = 0
    · simp [unpressed, ho, hc] at hm
    · have hpass : { m with closeButton := 0 } = carPass m := by rw [carPass, ho]
      simpa [Code.Keeps, ho, hc] using hexit hpass
  · by_cases hc : m.closeButton = 0
    · have hpass : { m with openButton := 0 } = carPass m := by rw [carPass, hc]
      simpa [Code.Keeps, ho, hc] using hexit hpass
    · simpa [Code.Keeps, ho, hc, carPass] using hexit rfl

theorem carLoop_keeps (m : CarSharedMem) :
    if unpressed m then CarSection m ⟨m, [], .asleep () carLoop⟩
    else carBody.Keeps CarSection (some (m, m, [])) := by
  by_cases hm : unpressed m = true
  · rw [if_pos hm]
    exact .inl ⟨hm, rfl⟩
  · rw [if_neg hm]
    exact carBody_keeps (Bool.eq_false_iff.mpr hm)

theorem carRun_keeps : carRun.Keeps CarSection none :=
  fun m => ⟨carLoop_keeps m, carLoop_keeps⟩

/-! ## The internal controls -/

/-- All that `up` and `down` may change. -/
def Moves (m m' : CarSharedMem) : Prop :=
  m' = { m with destinationFloor := m'.destinationFloor, status := m'.status }

/-- What a locked section of an operation does to the record. -/
def Operates (operation : CString) (m m' : CarSharedMem) : Prop :=
  if operation = "open".toList then m' = { m with openButton := 1 }
  else if operation = "close".toList then m' = { m with closeButton := 1 }
  else if operation = "stop".toList then m' = { m with emergencyStop := 1 }
  else if operation = "service_on".toList then
    m' = { m with individualServiceMode := 1, emergencyMode := 0 }
  else if operation = "service_off".toList then m' = { m with individualServiceMode := 0 }
  else Moves m m'

theorem Operates.cases {operation : CString} {m m' : CarSharedMem}
    (h : Operates operation m m') :
    (m' = { m with openButton := 1 } ∨ m' = { m with closeButton := 1 } ∨
      m' = { m with emergencyStop := 1 }) ∨
    (operation = "service_on".toList ∧
      m' = { m with individualServiceMode := 1, emergencyMode := 0 }) ∨
    (operation = "service_off".toList ∧ m' = { m with individualServiceMode := 0 }) ∨
    Moves m m' := by
  unfold Operates at h
  split at h
  · exact .inl (.inl h)
  split at h
  · exact .inl (.inr (.inl h))
  split at h
  · exact .inl (.inr (.inr h))
  split at h
  · rename_i hon
    exact .inr (.inl ⟨hon, h⟩)
  split at h
  · rename_i hoff
    exact .inr (.inr (.inl ⟨hoff, h⟩))
  · exact .inr (.inr (.inr h))

/-- It signals, and never waits. -/
def InternalSection (operation : CString) (m : CarSharedMem)
    (out : Section Unit CarSharedMem) : Prop :=
  Operates operation m out.mem ∧ out.signals ≠ [] ∧ ∃ c, out.next = .run c

theorem writeLocked_keeps {R : CarSharedMem → Section Unit CarSharedMem → Prop}
    {f : CarSharedMem → CarSharedMem} {next : Program} (hnext : next.Keeps R none)
    (hR : ∀ m, R m ⟨f m, [()], .run next⟩) : (writeLocked f next).Keeps R none :=
  fun m => ⟨hR m, hnext⟩

section Move

variable {R : CarSharedMem → Section Unit CarSharedMem → Prop}
  (hR : ∀ m m' c, Moves m m' → R m ⟨m', [()], .run c⟩)

include hR

theorem writeNextFloor_keeps (B : Bool) (lvl : UInt8) : (writeNextFloor B lvl).Keeps R none := by
  cases B with
  | false => exact writeLocked_keeps trivial fun m => hR _ _ _ rfl
  | true => exact fun m => ⟨hR _ _ _ rfl, trivial⟩

theorem moveFrom_keeps (eq : Compare) (operation : CString) (B : Bool) (lvl : UInt8) :
    (moveFrom eq operation B lvl).Keeps R none := by
  have hwrite := writeNextFloor_keeps hR B
  have hboundary : ∀ s lvl,
      (writeLocked (·.storeDestination s) (writeNextFloor B lvl)).Keeps R none :=
    fun s lvl => writeLocked_keeps (hwrite lvl) fun m => hR _ _ _ rfl
  refine Code.keeps_ite (fun _ => ?_) fun _ => Code.keeps_ite (fun _ => ?_) fun _ => hwrite lvl
  · exact Code.keeps_ite (fun _ => hboundary _ _)
      fun _ => Code.keeps_ite (fun _ => trivial) fun _ => hwrite _
  · exact Code.keeps_ite (fun _ => hboundary _ _)
      fun _ => Code.keeps_ite (fun _ => trivial) fun _ => hwrite _

omit hR in
theorem refuseAt_keeps {eq : Compare} {str : CString} {message : String} {next : Program}
    (hnext : next.Keeps R none) : (refuseAt eq str message next).Keeps R none :=
  fun _ => Code.keeps_ite (fun _ => trivial) fun _ => hnext

theorem moveFloor_keeps (eq : Compare) (operation : CString) :
    (moveFloor eq operation).Keeps R none :=
  fun _ => Code.keeps_ite (fun _ => trivial) fun _ =>
    refuseAt_keeps (refuseAt_keeps (refuseAt_keeps (refuseAt_keeps
      fun _ _ => moveFrom_keeps hR eq operation _ _)))

end Move

theorem internal_keeps (operation : CString) :
    (internal strEq operation).Keeps (InternalSection operation) none := by
  have hsignals : [()] ≠ [] := List.cons_ne_nil _ _
  unfold internal
  refine Code.keeps_ite (fun h => ?_) fun hopen => ?_
  · obtain rfl := eq_of_beq h
    exact writeLocked_keeps trivial fun m => ⟨rfl, hsignals, _, rfl⟩
  refine Code.keeps_ite (fun h => ?_) fun hclose => ?_
  · obtain rfl := eq_of_beq h
    exact writeLocked_keeps trivial fun m => ⟨rfl, hsignals, _, rfl⟩
  refine Code.keeps_ite (fun h => ?_) fun hstop => ?_
  · obtain rfl := eq_of_beq h
    exact writeLocked_keeps trivial fun m => ⟨rfl, hsignals, _, rfl⟩
  refine Code.keeps_ite (fun h => ?_) fun hon => ?_
  · obtain rfl := eq_of_beq h
    exact fun m => ⟨⟨rfl, hsignals, _, rfl⟩, trivial⟩
  refine Code.keeps_ite (fun h => ?_) fun hoff => ?_
  · obtain rfl := eq_of_beq h
    exact writeLocked_keeps trivial fun m => ⟨rfl, hsignals, _, rfl⟩
  -- none of the five: whatever is written is written by `up` or `down`
  refine Code.keeps_ite (fun _ => moveFloor_keeps ?_ strEq operation) fun _ => trivial
  intro m m' c hmoves
  refine ⟨?_, hsignals, _, rfl⟩
  simp only [strEq, beq_iff_eq] at hopen hclose hstop hon hoff
  simp only [Operates, if_neg hopen, if_neg hclose, if_neg hstop, if_neg hon, if_neg hoff]
  exact hmoves

/-! ## All of them -/

/-- What a thread may be running. -/
inductive Job where
  | internal (operation : CString)
  | safety
  | car
  deriving DecidableEq, Repr

def Job.program (eq : Compare) (check : CarSharedMem → Bool) : Job → Program
  | .internal operation => Car.internal strEq operation
  | .safety => safetyCtrl eq check
  | .car => carRun

def Job.contract (eq : Compare) (check : CarSharedMem → Bool) :
    Job → CarSharedMem → Section Unit CarSharedMem → Prop
  | .internal operation => InternalSection operation
  | .safety => SafetySection eq check
  | .car => CarSection

theorem program_keeps (eq : Compare) (check : CarSharedMem → Bool) (j : Job) :
    (j.program eq check).Keeps (j.contract eq check) none := by
  cases j with
  | internal operation => exact internal_keeps operation
  | safety => exact safetyCtrl_keeps eq check
  | car => exact carRun_keeps

/-! ## What a step does -/

section Pool

variable {ι : Type*} {eq : Compare} {check : CarSharedMem → Bool} {jobs : ι → Job}

/-- Every thread at the start of its program. -/
def started (eq : Compare) (check : CarSharedMem → Bool) (jobs : ι → Job) (m : CarSharedMem) :
    Pool Unit CarSharedMem ι :=
  ⟨m, fun i => .run ((jobs i).program eq check)⟩

/-- The points a thread that waits can stand at. -/
def AtPoint (program loop : Program) (t : Thread Unit CarSharedMem) : Prop :=
  t = .run program ∨ t = .asleep () loop ∨ t = .woken loop ∨ t = .run (.exit true)

def Job.At (eq : Compare) (check : CarSharedMem → Bool) :
    Job → Thread Unit CarSharedMem → Prop
  | .internal _, t => ∃ c, t = .run c
  | .safety, t => AtPoint (safetyCtrl eq check) (safetyLoop eq check) t
  | .car, t => AtPoint carRun carLoop t

/-- Every thread stands where its program can, and keeps its contract. -/
structure Placed (eq : Compare) (check : CarSharedMem → Bool) (jobs : ι → Job)
    (p : Pool Unit CarSharedMem ι) : Prop where
  keeps : ∀ j, (p.thread j).Keeps ((jobs j).contract eq check)
  stands : ∀ j, (jobs j).At eq check (p.thread j)

theorem placed_started (m : CarSharedMem) : Placed eq check jobs (started eq check jobs m) := by
  refine ⟨fun j => program_keeps eq check (jobs j), fun j => ?_⟩
  show (jobs j).At eq check (.run ((jobs j).program eq check))
  cases jobs j with
  | internal operation => exact ⟨_, rfl⟩
  | safety => exact .inl rfl
  | car => exact .inl rfl

variable [DecidableEq ι]

/-- **What a step of thread `i` does**, case by case. -/
inductive Acts (eq : Compare) (check : CarSharedMem → Bool) (jobs : ι → Job)
    (p : Pool Unit CarSharedMem ι) (i : ι) (q : Pool Unit CarSharedMem ι) : Prop
  | reads (operation : CString) (hjob : jobs i = .internal operation) (hmem : q.mem = p.mem)
      (c : Program) (hthread : q.thread = Function.update p.thread i (.run c))
  | operates (operation : CString) (hjob : jobs i = .internal operation)
      (hmem : Operates operation p.mem q.mem) (signals : List Unit) (hsignals : signals ≠ [])
      (th : ι → Thread Unit CarSharedMem) (hwakes : Wakes signals p.thread th) (c : Program)
      (hthread : q.thread = Function.update th i (.run c))
  | safetySleeps (hjob : jobs i = .safety) (hquiet : quiet check p.mem = true)
      (hmem : q.mem = p.mem)
      (hthread : q.thread = Function.update p.thread i (.asleep () (safetyLoop eq check)))
  | safetyPasses (hjob : jobs i = .safety) (hquiet : quiet check p.mem = false)
      (hmem : q.mem = safetyPass eq check p.mem) (signals : List Unit)
      (th : ι → Thread Unit CarSharedMem) (hwakes : Wakes signals p.thread th)
      (hthread : q.thread = Function.update th i (.run (.exit true)))
  | carSleeps (hjob : jobs i = .car) (hunpressed : unpressed p.mem = true)
      (hmem : q.mem = p.mem)
      (hthread : q.thread = Function.update p.thread i (.asleep () carLoop))
  | carPasses (hjob : jobs i = .car) (hpressed : unpressed p.mem = false)
      (hmem : q.mem = carPass p.mem) (signals : List Unit) (hsignals : signals ≠ [])
      (th : ι → Thread Unit CarSharedMem) (hwakes : Wakes signals p.thread th)
      (hthread : q.thread = Function.update th i (.run (.exit true)))

theorem AtPoint.not_outside {program loop : Program} (hlock : program = .lock loop)
    {t : Thread Unit CarSharedMem} (h : AtPoint program loop t) : t.isOutside = false := by
  subst hlock
  rcases h with rfl | rfl | rfl | rfl <;> rfl

theorem step_acts {p q : Pool Unit CarSharedMem ι} {i : ι} (h : Step p i q)
    (hp : Placed eq check jobs p) : Acts eq check jobs p i q := by
  obtain ⟨_, hcases⟩ := h.keeps hp.keeps
  have hat := hp.stands i
  cases hjob : jobs i with
  | internal operation =>
    rcases hcases with ⟨_, hmem, d, hthread⟩ | ⟨c, out, th, _, _, hR, hmem, hwakes, hthread⟩
    · exact .reads operation hjob hmem d hthread
    · rw [hjob] at hR
      obtain ⟨hoperates, hsignals, d, hnext⟩ := hR
      rw [hnext] at hthread
      exact .operates operation hjob (hmem ▸ hoperates) _ hsignals th hwakes d hthread
  | safety =>
    rw [hjob] at hat
    rcases hcases with ⟨houtside, _⟩ | ⟨c, out, th, _, _, hR, hmem, hwakes, hthread⟩
    · exact absurd houtside (Bool.eq_false_iff.mp (hat.not_outside rfl))
    · rw [hjob] at hR
      rcases hR with ⟨hquiet, rfl⟩ | ⟨hquiet, hout, hnext⟩
      · rw [hwakes.nil] at hthread
        exact .safetySleeps hjob hquiet hmem hthread
      · rw [hnext] at hthread
        exact .safetyPasses hjob hquiet (hmem.trans hout) _ th hwakes hthread
  | car =>
    rw [hjob] at hat
    rcases hcases with ⟨houtside, _⟩ | ⟨c, out, th, _, _, hR, hmem, hwakes, hthread⟩
    · exact absurd houtside (Bool.eq_false_iff.mp (hat.not_outside rfl))
    · rw [hjob] at hR
      rcases hR with ⟨hun, rfl⟩ | ⟨hpressed, hout, hsignals, hnext⟩
      · rw [hwakes.nil] at hthread
        exact .carSleeps hjob hun hmem hthread
      · rw [hnext] at hthread
        exact .carPasses hjob hpressed (hmem.trans hout) _ hsignals th hwakes hthread

omit [DecidableEq ι] in
/-- A thread that is woken still stands where it can. -/
theorem Job.At.awaken {j : Job} {t : Thread Unit CarSharedMem} (h : j.At eq check t) :
    j.At eq check t.awaken := by
  have hpoint : ∀ {program loop : Program}, AtPoint program loop t →
      AtPoint program loop t.awaken := by
    rintro program loop (rfl | rfl | rfl | rfl)
    · exact .inl rfl
    · exact .inr (.inr (.inl rfl))
    · exact .inr (.inr (.inl rfl))
    · exact .inr (.inr (.inr rfl))
  cases j with
  | internal operation =>
    obtain ⟨c, rfl⟩ := h
    exact ⟨c, rfl⟩
  | safety => exact hpoint h
  | car => exact hpoint h

theorem Job.At.wakes {j : Job} {signals : List Unit} {th th' : ι → Thread Unit CarSharedMem}
    (hwakes : Wakes signals th th') {k : ι} (h : j.At eq check (th k)) :
    j.At eq check (th' k) :=
  hwakes.keeps (P := j.At eq check) (fun _ => .awaken) h

theorem placed_step {p q : Pool Unit CarSharedMem ι} {i : ι} (hp : Placed eq check jobs p)
    (h : Step p i q) : Placed eq check jobs q := by
  refine ⟨(h.keeps hp.keeps).1, ?_⟩
  -- the thread that moved is where its section left it, the others were woken at most
  have hset : ∀ (th : ι → Thread Unit CarSharedMem) (t : Thread Unit CarSharedMem),
      (jobs i).At eq check t → (∀ j, (jobs j).At eq check (th j)) →
      ∀ k, (jobs k).At eq check (Function.update th i t k) := by
    intro th t ht hth
    exact (Function.forall_update_iff th fun j => (jobs j).At eq check).mpr
      ⟨ht, fun j _ => hth j⟩
  cases step_acts h hp with
  | reads operation hjob hmem c hthread =>
    rw [hthread]
    exact hset _ _ (by rw [hjob]; exact ⟨c, rfl⟩) hp.stands
  | operates operation hjob hmem signals hsignals th hwakes c hthread =>
    rw [hthread]
    exact hset _ _ (by rw [hjob]; exact ⟨c, rfl⟩) fun j => (hp.stands j).wakes hwakes
  | safetySleeps hjob hquiet hmem hthread =>
    rw [hthread]
    exact hset _ _ (by rw [hjob]; exact .inr (.inl rfl)) hp.stands
  | safetyPasses hjob hquiet hmem signals th hwakes hthread =>
    rw [hthread]
    exact hset _ _ (by rw [hjob]; exact .inr (.inr (.inr rfl)))
      fun j => (hp.stands j).wakes hwakes
  | carSleeps hjob hunpressed hmem hthread =>
    rw [hthread]
    exact hset _ _ (by rw [hjob]; exact .inr (.inl rfl)) hp.stands
  | carPasses hjob hpressed hmem signals hsignals th hwakes hthread =>
    rw [hthread]
    exact hset _ _ (by rw [hjob]; exact .inr (.inr (.inr rfl)))
      fun j => (hp.stands j).wakes hwakes

end Pool

end Car
end Cab403
