import Cab403.Car.Statements

/-!
# When a car connects

`connect_controller` runs beside the threads that share the record, and reads one flag of it, not
under the lock: only while `safety_system` is set does it open a socket. The controller may refuse
it any number of times; each time, and each time the flag is not set, it prints a message and
waits.

Since it does not take the lock, it may find the flag between any two statements of the others, and
that is how they are interleaved here. `car_init` clears the flag, and the one statement that
changes it is that of `safety_ctrl` that sets it: the first of its pass. So a car that dials has a
safety system that is on, though perhaps not through its pass; and it can be brought to connect,
from any state of any run, exactly when it has a safety system (`dials_iff`).
-/

namespace Cab403
namespace Car

open Lib

/-! ## The dialling thread -/

/-- Where `connect_controller` stands: before its test, inside the branch, after the loop. -/
inductive Dialer where
  | testing
  | dialing
  | connected
  deriving DecidableEq, Repr

structure Station (ι : Type*) where
  threads : Statement.State Unit CarSharedMem ι
  dialer : Dialer
  /-- How many times it has printed that it failed to connect. -/
  retries : Nat

def Station.safetySystem {ι : Type*} (s : Station ι) : UInt8 := s.threads.mem.safetySystem

inductive Agent (ι : Type*) where
  | thread (i : ι)
  | tcp

section Station

variable {ι : Type*} [DecidableEq ι]

inductive Station.Step : Station ι → Agent ι → Station ι → Prop
  | thread {s : Station ι} {i : ι} {q : Statement.State Unit CarSharedMem ι}
    (h : Statement.Step s.threads i q) : Step s (.thread i) { s with threads := q }
  | off {s : Station ι} (hat : s.dialer = .testing) (h : s.safetySystem = 0) :
    Step s .tcp { s with retries := s.retries + 1 }
  | on {s : Station ι} (hat : s.dialer = .testing) (h : s.safetySystem ≠ 0) :
    Step s .tcp { s with dialer := .dialing }
  -- `socket` or `connect` fails
  | refused {s : Station ι} (hat : s.dialer = .dialing) :
    Step s .tcp { s with dialer := .testing, retries := s.retries + 1 }
  | accepted {s : Station ι} (hat : s.dialer = .dialing) :
    Step s .tcp { s with dialer := .connected }

/-- The record `car_init` leaves, every thread at its start. -/
def Station.start (eq : Compare) (check : CarSharedMem → Bool) (jobs : ι → Job)
    (m : CarSharedMem) : Station ι :=
  ⟨⟨started eq check jobs (carInit m), none⟩, .testing, 0⟩

/-! ## Who stores the flag -/

/-- What a program may do to the flag: set it, if it is a safety system's. -/
def Job.Sets (j : Job) (m m' : CarSharedMem) : Prop :=
  m'.safetySystem = m.safetySystem ∨ j = .safety ∧ m'.safetySystem = 1

theorem writeLocked_stores {R : CarSharedMem → CarSharedMem → Prop}
    {f : CarSharedMem → CarSharedMem} {next : Program} (hf : ∀ m, R m (f m))
    (hnext : next.Stores R) : (writeLocked f next).Stores R := ⟨hf, hnext⟩

section Move

variable (j : Job)

theorem writeNextFloor_stores (B : Bool) (lvl : UInt8) :
    (writeNextFloor B lvl).Stores j.Sets := by
  cases B with
  | false => exact writeLocked_stores (fun _ => .inl rfl) trivial
  | true => exact ⟨fun _ => .inl rfl, fun _ => .inl rfl, trivial⟩

theorem moveFrom_stores (eq : Compare) (operation : CString) (B : Bool) (lvl : UInt8) :
    (moveFrom eq operation B lvl).Stores j.Sets := by
  have hwrite := writeNextFloor_stores j B
  have hboundary : ∀ s lvl,
      (writeLocked (·.storeDestination s) (writeNextFloor B lvl)).Stores j.Sets :=
    fun s lvl => writeLocked_stores (fun _ => .inl rfl) (hwrite lvl)
  refine Code.stores_ite ?_ (Code.stores_ite ?_ (hwrite lvl))
  · exact Code.stores_ite (hboundary _ _) (Code.stores_ite trivial (hwrite _))
  · exact Code.stores_ite (hboundary _ _) (Code.stores_ite trivial (hwrite _))

omit j in
theorem refuseAt_stores {R : CarSharedMem → CarSharedMem → Prop} {eq : Compare} {str : CString}
    {message : String} {next : Program} (hnext : next.Stores R) :
    (refuseAt eq str message next).Stores R :=
  fun _ => Code.stores_ite trivial hnext

theorem moveFloor_stores (eq : Compare) (operation : CString) :
    (moveFloor eq operation).Stores j.Sets :=
  fun _ => Code.stores_ite trivial <| refuseAt_stores <| refuseAt_stores <| refuseAt_stores <|
    refuseAt_stores fun _ _ => moveFrom_stores j eq operation _ _

end Move

theorem program_stores (eq : Compare) (check : CarSharedMem → Bool) (j : Job) :
    (j.program eq check).Stores j.Sets := by
  cases j with
  | internal operation =>
    have hwrite : ∀ f : CarSharedMem → CarSharedMem, (∀ m, (f m).safetySystem = m.safetySystem) →
        (writeLocked f (.exit true)).Stores (Job.internal operation).Sets :=
      fun f hf => writeLocked_stores (fun m => .inl (hf m)) trivial
    refine Code.stores_ite (hwrite _ fun _ => rfl) ?_
    refine Code.stores_ite (hwrite _ fun _ => rfl) ?_
    refine Code.stores_ite (hwrite _ fun _ => rfl) ?_
    refine Code.stores_ite ⟨fun _ => .inl rfl, fun _ => .inl rfl, trivial⟩ ?_
    refine Code.stores_ite (hwrite _ fun _ => rfl) ?_
    exact Code.stores_ite (moveFloor_stores _ strEq operation) trivial
  | safety =>
    show (safetyBody eq check).Stores Job.safety.Sets
    unfold safetyBody
    refine Code.stores_branch (fun hnext => ⟨fun _ => .inr ⟨rfl, rfl⟩, hnext⟩) ?_
    refine Code.stores_branch (fun hnext => ⟨fun _ => .inl rfl, hnext⟩) ?_
    refine Code.stores_branch (fun hnext => ⟨fun _ => .inl rfl, fun _ => .inl rfl, hnext⟩) ?_
    refine Code.stores_branch (fun hnext => ⟨fun _ => .inl rfl, hnext⟩) ?_
    exact Code.stores_branch (fun hnext => ⟨fun _ => .inl rfl, hnext⟩) trivial
  | car =>
    have hstore : ∀ m : CarSharedMem, Job.car.Sets m { m with openButton := 0 } ∧
        Job.car.Sets m { m with closeButton := 0 } := fun _ => ⟨Or.inl rfl, Or.inl rfl⟩
    refine fun _ => Code.stores_ite ⟨fun m => (hstore m).1, fun m => (hstore m).2, trivial⟩ ?_
    refine fun _ => Code.stores_ite ⟨fun m => (hstore m).1, trivial⟩ ?_
    exact fun _ => Code.stores_ite ⟨fun m => (hstore m).2, trivial⟩ trivial

/-! ## What whole sections do to it -/

variable {eq : Compare} {check : CarSharedMem → Bool} {jobs : ι → Job}

theorem Operates.safetySystem {operation : CString} {m m' : CarSharedMem}
    (h : Operates operation m m') : m'.safetySystem = m.safetySystem := by
  rcases h.cases with (rfl | rfl | rfl) | ⟨_, rfl⟩ | ⟨_, rfl⟩ | hmoves
  · rfl
  · rfl
  · rfl
  · rfl
  · rfl
  · rw [hmoves]

/-- While the flag is clear, every safety system is still at its start. -/
def Guarded (eq : Compare) (check : CarSharedMem → Bool) (jobs : ι → Job)
    (p : Pool Unit CarSharedMem ι) : Prop :=
  p.mem.safetySystem = 0 → ∀ i, jobs i = .safety → p.thread i = .run (safetyCtrl eq check)

omit [DecidableEq ι] in
theorem guarded_started (m : CarSharedMem) : Guarded eq check jobs (started eq check jobs m) := by
  intro _ i hi
  show Thread.run ((jobs i).program eq check) = _
  rw [hi]
  rfl

/-- A step of another thread leaves the safety systems where they stand. -/
theorem Guarded.other {p q : Pool Unit CarSharedMem ι} {i : ι} (hp : Guarded eq check jobs p)
    (h : Lib.Step p i q) (hjob : jobs i ≠ .safety)
    (hflag : q.mem.safetySystem = p.mem.safetySystem) : Guarded eq check jobs q := by
  intro hoff j hj
  have hne : j ≠ i := by
    rintro rfl
    exact hjob hj
  exact h.run_of_ne hne (hp (hflag.symm.trans hoff) j hj)

theorem guarded_step {p q : Pool Unit CarSharedMem ι} {i : ι} (hplaced : Placed eq check jobs p)
    (hp : Guarded eq check jobs p) (h : Lib.Step p i q) : Guarded eq check jobs q := by
  cases step_acts h hplaced with
  | reads operation hjob hmem c hthread => exact hp.other h (by simp [hjob]) (by rw [hmem])
  | operates operation hjob hmem signals hsignals th hwakes c hthread =>
    exact hp.other h (by simp [hjob]) hmem.safetySystem
  | safetySleeps hjob hquiet hmem hthread =>
    -- it goes to sleep only while the flag is set
    intro hoff
    rw [hmem] at hoff
    simp [quiet, hoff] at hquiet
  | safetyPasses hjob hquiet hmem signals th hwakes hthread =>
    intro hoff
    have hengaged : q.mem.safetySystem = 1 := by rw [hmem, safetyPass_eq]; rfl
    exact absurd (hoff.symm.trans hengaged) zero_ne_one
  | carSleeps hjob hunpressed hmem hthread => exact hp.other h (by simp [hjob]) (by rw [hmem])
  | carPasses hjob hpressed hmem signals hsignals th hwakes hthread =>
    exact hp.other h (by simp [hjob]) (by rw [hmem]; rfl)

theorem guarded_reached {m : CarSharedMem} {p : Pool Unit CarSharedMem ι}
    (h : Reaches Lib.Step (started eq check jobs m) p) : Guarded eq check jobs p := by
  obtain ⟨tr, htr, rfl⟩ := h
  have hall := htr.allStates (I := fun p => Placed eq check jobs p ∧ Guarded eq check jobs p)
    (fun _ _ _ hp hst => ⟨placed_step hp.1 hst, guarded_step hp.1 hp.2 hst⟩)
    ⟨placed_started m, guarded_started m⟩
  exact hall.last.2

omit [DecidableEq ι] in
/-- At rest no safety system is at its start, so the flag is set if there is one. -/
theorem Guarded.flag_of_resting {p : Pool Unit CarSharedMem ι} (h : Guarded eq check jobs p)
    (hrest : ∀ i, (p.thread i).isResting = true) {i : ι} (hi : jobs i = .safety) :
    p.mem.safetySystem ≠ 0 := by
  intro hoff
  have hat := hrest i
  rw [h hoff i hi] at hat
  cases hat

/-! ## What holds in every state -/

/-- The flag changes from clear to set only, and by a statement of a safety system. -/
def SetBySafety (jobs : ι → Job) (s : Station ι) (a : Agent ι) (t : Station ι) : Prop :=
  t.safetySystem = s.safetySystem ∨
    s.safetySystem = 0 ∧ t.safetySystem = 1 ∧ ∃ i, a = .thread i ∧ jobs i = .safety

/-- Only a set flag lets the thread past its test, and only a safety system sets it. -/
structure Watched (eq : Compare) (check : CarSharedMem → Bool) (jobs : ι → Job)
    (m : CarSharedMem) (s : Station ι) : Prop where
  reached : Reaches Statement.Step ⟨started eq check jobs (carInit m), none⟩ s.threads
  stores : ∀ i, (s.threads.thread i).Stores (jobs i).Sets
  flag : (s.safetySystem = 0 ∧ s.dialer = .testing) ∨
    (s.safetySystem = 1 ∧ ∃ i, jobs i = .safety)

variable {m : CarSharedMem}

theorem watched_start : Watched eq check jobs m (Station.start eq check jobs m) :=
  ⟨.refl _, fun i => program_stores eq check (jobs i), .inl ⟨rfl, rfl⟩⟩

/-- **A statement of a thread** leaves the flag, or sets it for a safety system. -/
theorem Watched.thread {s : Station ι} {i : ι} {q : Statement.State Unit CarSharedMem ι}
    (hs : Watched eq check jobs m s) (h : Statement.Step s.threads i q) :
    q.mem.safetySystem = s.safetySystem ∨ jobs i = .safety ∧ q.mem.safetySystem = 1 := by
  obtain ⟨_, hmem | hsets⟩ := h.stores hs.stores
  · exact .inl (congrArg CarSharedMem.safetySystem hmem)
  · exact hsets

theorem watched_step {s t : Station ι} {a : Agent ι} (hs : Watched eq check jobs m s)
    (h : Station.Step s a t) : Watched eq check jobs m t ∧ SetBySafety jobs s a t := by
  cases h with
  | @thread i q hst =>
    have hreached := hs.reached.trans (.cons hst (.refl q))
    have hstores := (hst.stores hs.stores).1
    rcases hs.thread hst with hsame | ⟨hjob, hset⟩
    · refine ⟨⟨hreached, hstores, ?_⟩, .inl hsame⟩
      show (q.mem.safetySystem = 0 ∧ _) ∨ (q.mem.safetySystem = 1 ∧ _)
      rw [hsame]
      exact hs.flag
    · refine ⟨⟨hreached, hstores, .inr ⟨hset, i, hjob⟩⟩, ?_⟩
      rcases hs.flag with ⟨hoff, _⟩ | ⟨hon, _⟩
      · exact .inr ⟨hoff, hset, i, rfl, hjob⟩
      · exact .inl (hset.trans hon.symm)
  | off hat hoff => exact ⟨⟨hs.reached, hs.stores, hs.flag⟩, .inl rfl⟩
  | on hat hon =>
    refine ⟨⟨hs.reached, hs.stores, .inr ?_⟩, .inl rfl⟩
    rcases hs.flag with ⟨hoff, _⟩ | hset
    · exact absurd hoff hon
    · exact hset
  | refused hat =>
    exact ⟨⟨hs.reached, hs.stores, hs.flag.imp_left fun h => ⟨h.1, rfl⟩⟩, .inl rfl⟩
  | accepted hat =>
    refine ⟨⟨hs.reached, hs.stores, .inr ?_⟩, .inl rfl⟩
    rcases hs.flag with ⟨_, htesting⟩ | hset
    · rw [hat] at htesting
      cases htesting
    · exact hset

/-! ## Bringing it to connect -/

/-- What the threads can do, they can do beside the one that dials. -/
theorem Station.of_threads {s : Station ι} {q : Statement.State Unit CarSharedMem ι}
    (h : Reaches Statement.Step s.threads q) :
    Reaches Station.Step s { s with threads := q } := by
  obtain ⟨tr, htr, rfl⟩ := h
  generalize hp : s.threads = p at htr
  induction htr generalizing s with
  | nil p =>
    subst hp
    exact .refl s
  | @cons p q i tr hst _ ih =>
    subst hp
    exact .cons (.thread hst) (ih (s := { s with threads := q }) rfl)

/-- With the flag set, the thread can connect at once. -/
theorem Station.exists_connect {s : Station ι} (h : s.safetySystem ≠ 0) :
    ∃ t, Reaches Station.Step s t ∧ t.dialer = .connected := by
  cases hat : s.dialer with
  | testing => exact ⟨_, .cons (.on hat h) (.cons (.accepted rfl) (.refl _)), rfl⟩
  | dialing => exact ⟨_, .cons (.accepted hat) (.refl _), rfl⟩
  | connected => exact ⟨s, .refl s, hat⟩

/-- The threads first come to rest; then it dials. -/
theorem Watched.exists_connect [Fintype ι] {s : Station ι} (hs : Watched eq check jobs m s)
    {i : ι} (hi : jobs i = .safety) : ∃ t, Reaches Station.Step s t ∧ t.dialer = .connected := by
  obtain ⟨q, hq, hsections, hrest⟩ := exists_rest hs.reached
  have hflag := (guarded_reached hsections).flag_of_resting hrest hi
  obtain ⟨t, ht, hconnected⟩ :=
    Station.exists_connect (s := { s with threads := ⟨q, none⟩ }) hflag
  exact ⟨t, (Station.of_threads hq).trans ht, hconnected⟩

/-- **A car can be brought to connect exactly if it has a safety system**, from every state of
every run of its threads and of `connect_controller`, each statement a step. While `safety_system`
is clear the thread is before its test, and only a safety system sets the flag. -/
theorem dials_iff [Fintype ι] {tr : List (Agent ι × Station ι)}
    (h : Trace Station.Step (Station.start eq check jobs m) tr) :
    AllStates (fun s => s.safetySystem = 0 → s.dialer = .testing)
        (Station.start eq check jobs m) tr ∧
      AllSteps (SetBySafety jobs) (Station.start eq check jobs m) tr ∧
      ((∃ t, Reaches Station.Step (lastState (Station.start eq check jobs m) tr) t ∧
          t.dialer = .connected) ↔ ∃ i, jobs i = .safety) := by
  have hstep : ∀ (s : Station ι) (a : Agent ι) (t : Station ι),
      Watched eq check jobs m s → Station.Step s a t →
        Watched eq check jobs m t ∧ SetBySafety jobs s a t :=
    fun _ _ _ hs hst => watched_step hs hst
  have hrun : ∀ {s : Station ι} {tr : List (Agent ι × Station ι)}, Watched eq check jobs m s →
      Trace Station.Step s tr → AllStates (Watched eq check jobs m) s tr :=
    fun hs htr => htr.allStates (fun s a t hs hst => (hstep s a t hs hst).1) hs
  have hall := hrun watched_start h
  refine ⟨hall.imp fun s hs hoff => ?_, h.allSteps hstep watched_start, ?_, ?_⟩
  · rcases hs.flag with ⟨_, htesting⟩ | ⟨hon, _⟩
    · exact htesting
    · exact absurd (hoff.symm.trans hon) zero_ne_one
  · rintro ⟨t, ⟨more, hmore, rfl⟩, hconnected⟩
    rcases (hrun hall.last hmore).last.flag with ⟨_, htesting⟩ | ⟨_, hsafety⟩
    · rw [hconnected] at htesting
      cases htesting
    · exact hsafety
  · rintro ⟨i, hi⟩
    exact hall.last.exists_connect hi

end Station

/-- The first test fails. Then the safety system sets the flag, and before it is through its pass
the second does not. -/
theorem dials_iff_safety :
    ∃ tr, Trace Station.Step (Station.start strEq dataInconsistent stopAndSafety blank) tr ∧
      (lastState (Station.start strEq dataInconsistent stopAndSafety blank) tr).dialer = .dialing ∧
      (lastState (Station.start strEq dataInconsistent stopAndSafety blank) tr).threads.holder =
        some 1 ∧
      AllStates (fun s => s.safetySystem = 0 → s.dialer = .testing)
        (Station.start strEq dataInconsistent stopAndSafety blank) tr ∧
      AllSteps (SetBySafety stopAndSafety)
        (Station.start strEq dataInconsistent stopAndSafety blank) tr ∧
      ∃ t, Reaches Station.Step
        (lastState (Station.start strEq dataInconsistent stopAndSafety blank) tr) t ∧
        t.dialer = .connected := by
  have hrun : ∃ tr,
      Trace Station.Step (Station.start strEq dataInconsistent stopAndSafety blank) tr ∧
      (lastState (Station.start strEq dataInconsistent stopAndSafety blank) tr).dialer =
        .dialing ∧
      (lastState (Station.start strEq dataInconsistent stopAndSafety blank) tr).threads.holder =
        some 1 := by
    refine ⟨_, .cons (.off rfl rfl) <| .cons (.thread (.enter (i := 1) rfl rfl)) <|
      .cons (.thread (.goOn (i := 1) rfl rfl)) <| .cons (.thread (.load (i := 1) rfl)) <|
      .cons (.thread (.store (i := 1) rfl)) <| .cons (.on rfl ?_) <| .nil _, rfl, rfl⟩
    decide
  obtain ⟨tr, htr, hdialing, hholder⟩ := hrun
  obtain ⟨hoff, hset, hiff⟩ := dials_iff htr
  exact ⟨tr, htr, hdialing, hholder, hoff, hset, hiff.mpr ⟨1, rfl⟩⟩

end Car
end Cab403
