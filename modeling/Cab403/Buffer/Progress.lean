import Cab403.Buffer.Fifo

/-!
# The semaphore buffer is never stuck

`producer` calls `insert_item` over and over, `consumer` calls `remove_item`. In every state such
a pool reaches, some thread has a step. A thread inside the mutex always has one; if nobody is
inside, the mutex is free, and a thread that wants it has one; and if nobody wants it either,
nothing is reserved or owed, so that the two semaphores share `BUFFER_SIZE` units between them,
and a thread waiting on the one that has some can go on.
-/

namespace Cab403
namespace Buffer

open Function Lib

variable {ι : Type*}

/-! ## The loops -/

inductive Loop where
  | producer
  | consumer
  deriving DecidableEq, Repr

/-- The call a loop makes. -/
def Loop.Calls : Loop → Pc → Prop
  | .producer, p => ∃ item, p = .insWaitEmpty item
  | .consumer, p => p = .remWaitFull

/-- A step of a pool in which thread `i` runs `loop i`: between two calls a thread may only make
the call of its loop. -/
def LoopStep [DecidableEq ι] (loop : ι → Loop) (s : State ι) (i : ι) (t : State ι) : Prop :=
  Step s i t ∧ (s.pc i = .idle → (loop i).Calls (t.pc i))

/-- The loop a program point is part of; `idle` is part of both. -/
def Pc.loop : Pc → Option Loop
  | .idle => none
  | .insWaitEmpty _ | .insLock _ | .insStore _ | .insUnlock | .insPostFull => some .producer
  | .remWaitFull | .remLock | .remTake | .remUnlock _ | .remPostEmpty _ => some .consumer

def Loop.Within (l : Loop) (p : Pc) : Prop := p.loop = none ∨ p.loop = some l

theorem Loop.Calls.within {l : Loop} {p : Pc} (h : l.Calls p) : l.Within p := by
  cases l with
  | producer =>
    obtain ⟨item, rfl⟩ := h
    exact .inr rfl
  | consumer =>
    obtain rfl := h
    exact .inr rfl

variable [DecidableEq ι] {loop : ι → Loop} {s t : State ι} {i : ι}

theorem within_step (h : ∀ j, (loop j).Within (s.pc j)) (hst : LoopStep loop s i t) :
    ∀ j, (loop j).Within (t.pc j) := by
  obtain ⟨hstep, hcalls⟩ := hst
  have hi := h i
  have hmoves : ∀ {p q : Pc}, s.pc i = p → t.pc = update s.pc i q →
      ((loop i).Within p → (loop i).Within q) → ∀ j, (loop j).Within (t.pc j) := by
    intro p q hp hq hpq
    rw [hq]
    exact (forall_update_iff s.pc fun j => (loop j).Within).mpr ⟨hpq (hp ▸ hi), fun j _ => h j⟩
  have hcall : ∀ {p : Pc}, s.pc i = .idle → t.pc = update s.pc i p →
      ∀ j, (loop j).Within (t.pc j) := by
    intro p hidle hp
    refine hmoves hidle hp fun _ => ?_
    have hc := hcalls hidle
    rw [hp, update_self] at hc
    exact hc.within
  cases hstep with
  | callInsert item hpc => exact hcall hpc rfl
  | callRemove hpc => exact hcall hpc rfl
  | insPostFull hpc => exact hmoves hpc rfl fun _ => .inl rfl
  | remPostEmpty item hpc => exact hmoves hpc rfl fun _ => .inl rfl
  | insWaitEmpty item hpc => exact hmoves hpc rfl id
  | insLock item hpc => exact hmoves hpc rfl id
  | insStore item hpc => exact hmoves hpc rfl id
  | insUnlock hpc => exact hmoves hpc rfl id
  | remWaitFull hpc => exact hmoves hpc rfl id
  | remLock hpc => exact hmoves hpc rfl id
  | remTake hpc => exact hmoves hpc rfl id
  | remUnlock item hpc => exact hmoves hpc rfl id

/-! ## Who can go on -/

/-- What the next operation of a thread waits for. -/
def Ready (s : State ι) : Pc → Prop
  | .insWaitEmpty _ => 0 < s.empty
  | .remWaitFull => 0 < s.full
  | .insLock _ | .remLock => s.mutex = none
  | _ => True

theorem Ready.exists_step (h : Ready s (s.pc i)) : ∃ t, LoopStep loop s i t := by
  -- only a thread that is idle has a choice to make
  have hbusy : ∀ {p : Pc} {t : State ι}, s.pc i = p → p ≠ .idle → Step s i t →
      ∃ t, LoopStep loop s i t :=
    fun hp hne hst => ⟨_, hst, fun hidle => absurd (hp.symm.trans hidle) hne⟩
  cases hpc : s.pc i with
  | idle =>
    cases hl : loop i with
    | producer =>
      refine ⟨_, .callInsert 0 hpc, fun _ => ?_⟩
      rw [hl]
      exact ⟨0, update_self ..⟩
    | consumer =>
      refine ⟨_, .callRemove hpc, fun _ => ?_⟩
      rw [hl]
      exact update_self ..
  | insWaitEmpty item =>
    rw [hpc] at h
    exact hbusy hpc nofun (.insWaitEmpty item hpc h)
  | insLock item =>
    rw [hpc] at h
    exact hbusy hpc nofun (.insLock item hpc h)
  | insStore item => exact hbusy hpc nofun (.insStore item hpc)
  | insUnlock => exact hbusy hpc nofun (.insUnlock hpc)
  | insPostFull => exact hbusy hpc nofun (.insPostFull hpc)
  | remWaitFull =>
    rw [hpc] at h
    exact hbusy hpc nofun (.remWaitFull hpc h)
  | remLock =>
    rw [hpc] at h
    exact hbusy hpc nofun (.remLock hpc h)
  | remTake => exact hbusy hpc nofun (.remTake hpc)
  | remUnlock item => exact hbusy hpc nofun (.remUnlock item hpc)
  | remPostEmpty item => exact hbusy hpc nofun (.remPostEmpty item hpc)

omit [DecidableEq ι] in
theorem ready_of_inside {p : Pc} (h : inside p = true) : Ready s p := by
  cases p with
  | insWaitEmpty item => cases h
  | insLock item => cases h
  | remWaitFull => cases h
  | remLock => cases h
  | _ => trivial

/-- A thread at one of the two waits. -/
def waits : Pc → Bool
  | .insWaitEmpty _ | .remWaitFull => true
  | _ => false

omit [DecidableEq ι] in
theorem waits_of_not_ready {p : Pc} (hmutex : s.mutex = none) (h : ¬ Ready s p) :
    waits p = true := by
  cases p with
  | insWaitEmpty item => rfl
  | remWaitFull => rfl
  | insLock item => exact absurd hmutex h
  | remLock => exact absurd hmutex h
  | _ => exact absurd trivial h

theorem Loop.Within.waits_producer {p : Pc} (h : Loop.producer.Within p) (hp : waits p = true) :
    ∃ item, p = .insWaitEmpty item := by
  cases p with
  | insWaitEmpty item => exact ⟨item, rfl⟩
  | remWaitFull => rcases h with h | h <;> cases h
  | _ => cases hp

theorem Loop.Within.waits_consumer {p : Pc} (h : Loop.consumer.Within p) (hp : waits p = true) :
    p = .remWaitFull := by
  cases p with
  | remWaitFull => rfl
  | insWaitEmpty item => rcases h with h | h <;> cases h
  | _ => cases hp

/-- A thread at a wait has no unit reserved and owes none. -/
theorem free_of_waits {p : Pc} (h : waits p = true) :
    (reservesItem p = 0 ∧ owesFull p = 0) ∧ reservesSlot p = 0 ∧ owesEmpty p = 0 := by
  cases p with
  | insWaitEmpty item => exact ⟨⟨rfl, rfl⟩, rfl, rfl⟩
  | remWaitFull => exact ⟨⟨rfl, rfl⟩, rfl, rfl⟩
  | _ => cases h

omit [DecidableEq ι] in
/-- With everybody at a wait, the semaphores have all the units. -/
theorem Counted.units_of_waits [Fintype ι] (h : Counted s) (hall : ∀ i, waits (s.pc i) = true) :
    s.empty + s.full = BUFFER_SIZE := by
  have hri := tally_eq_zero reservesItem fun i => (free_of_waits (hall i)).1.1
  have hof := tally_eq_zero owesFull fun i => (free_of_waits (hall i)).1.2
  have hrs := tally_eq_zero reservesSlot fun i => (free_of_waits (hall i)).2.1
  have hoe := tally_eq_zero owesEmpty fun i => (free_of_waits (hall i)).2.2
  have hitems := h.items
  have hslots := h.slots
  omega

omit [DecidableEq ι] in
theorem exists_ready [Fintype ι] (h : Inv s) (hwithin : ∀ i, (loop i).Within (s.pc i))
    (hproducer : ∃ i, loop i = .producer) (hconsumer : ∃ i, loop i = .consumer) :
    ∃ i, Ready s (s.pc i) := by
  by_contra hnone
  have hstuck : ∀ i, ¬ Ready s (s.pc i) := fun i hi => hnone ⟨i, hi⟩
  have hmutex : s.mutex = none := by
    cases hm : s.mutex with
    | none => rfl
    | some j => exact absurd (ready_of_inside ((h.exclusive j).mpr hm)) (hstuck j)
  have hall : ∀ i, waits (s.pc i) = true := fun i => waits_of_not_ready hmutex (hstuck i)
  have hunits := h.counted.units_of_waits hall
  have hempty : ¬ 0 < s.empty := by
    obtain ⟨i, hi⟩ := hproducer
    obtain ⟨item, hpc⟩ := (hi ▸ hwithin i).waits_producer (hall i)
    have hr := hstuck i
    rw [hpc] at hr
    exact hr
  have hfull : ¬ 0 < s.full := by
    obtain ⟨i, hi⟩ := hconsumer
    have hpc := (hi ▸ hwithin i).waits_consumer (hall i)
    have hr := hstuck i
    rw [hpc] at hr
    exact hr
  have hpos : 0 < BUFFER_SIZE := by decide
  omega

/-! ## Every run -/

/-- **The semaphore buffer never deadlocks**, with one producer and one consumer or more. -/
theorem never_stuck [Fintype ι] (loop : ι → Loop) (hproducer : ∃ i, loop i = .producer)
    (hconsumer : ∃ i, loop i = .consumer) {b : Nat → Int} {tr : List (ι × State ι)}
    (h : Trace (LoopStep loop) (initial b) tr) :
    AllStates (fun s => ∃ i t, LoopStep loop s i t) (initial b) tr := by
  have hinv : AllStates (fun s => Inv s ∧ ∀ i, (loop i).Within (s.pc i)) (initial b) tr :=
    h.allStates (fun s i t hs hst => ⟨inv_step s i t hs.1 hst.1, within_step hs.2 hst⟩)
      ⟨inv_initial b, fun _ => .inl rfl⟩
  refine hinv.imp fun s hs => ?_
  obtain ⟨i, hi⟩ := exists_ready hs.1 hs.2 hproducer hconsumer
  exact ⟨i, hi.exists_step⟩

/-- What thread `i` of two runs: `0` inserts, `1` removes. -/
def pair (i : Fin 2) : Loop := if i = 0 then .producer else .consumer

/-- Thread `1` waits on the empty buffer; thread `0`, inside the mutex, can go on. -/
theorem never_stuck_pair : ∃ tr : List (Fin 2 × State (Fin 2)),
    (lastState (initial fun _ => 0) tr).pc 0 = .insStore 7 ∧
    (lastState (initial fun _ => 0) tr).pc 1 = .remWaitFull ∧
    AllStates (fun s => ∃ i t, LoopStep pair s i t) (initial fun _ => 0) tr := by
  have hrun : Trace (LoopStep pair) (initial fun _ => 0) _ :=
    .cons (l := 1) ⟨.callRemove rfl, fun _ => rfl⟩ <|
      .cons (l := 0) ⟨.callInsert 7 rfl, fun _ => ⟨7, rfl⟩⟩ <|
      .cons (l := 0) ⟨.insWaitEmpty 7 rfl (by decide), nofun⟩ <|
      .cons (l := 0) ⟨.insLock 7 rfl rfl, nofun⟩ <| .nil _
  exact ⟨_, rfl, rfl, never_stuck _ ⟨0, rfl⟩ ⟨1, rfl⟩ hrun⟩

end Buffer
end Cab403
