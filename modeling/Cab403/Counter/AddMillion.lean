import Cab403.Lib.Trace
import Cab403.Lib.Tally

/-!
# One variable, counted up by many threads

`testrc-dl.c`: each thread locks the mutex, adds one to `globalVar` ten million times, and unlocks
it. `globalVar++` is two steps, a read and a write, and any thread may move in between; what keeps
the updates from each other is that the lock is held around the whole loop.

`globalVar` is an `int`. A write that would leave its range is undefined, and has no step here:
that no thread is ever stuck (`all_counted`) is also that none overflows, for as many threads as
there is room for. `pthread_mutex_lock` may fail, and the thread then returns without adding.
-/

namespace Cab403
namespace Counter

open Function Lib

/-- How often `addMillion` adds. -/
def repeats : Nat := 10000000

/-! ## The threads -/

/-- Where a thread stands, named for what comes next. -/
inductive Pc where
  | locking
  | testing (i : Nat)
  | reading (i : Nat)
  | writing (i : Nat) (read : Int)
  | unlocking
  | failed
  | returned
  deriving DecidableEq, Repr

structure State (ι : Type*) where
  globalVar : Int
  mutex : Option ι
  pc : ι → Pc

/-- `main`, the threads created. -/
def start (ι : Type*) : State ι := ⟨0, none, fun _ => .locking⟩

variable {ι : Type*} [DecidableEq ι]

def State.goto (s : State ι) (i : ι) (p : Pc) : State ι := { s with pc := update s.pc i p }

/-- One step of thread `i`. -/
inductive Step : State ι → ι → State ι → Prop
  | lock {s : State ι} {i : ι} (h : s.pc i = .locking) (hmutex : s.mutex = none) :
    Step s i ({ s with mutex := some i }.goto i (.testing 0))
  | fail {s : State ι} {i : ι} (h : s.pc i = .locking) : Step s i (s.goto i .failed)
  | test {s : State ι} {i : ι} {n : Nat} (h : s.pc i = .testing n) (hn : n < repeats) :
    Step s i (s.goto i (.reading n))
  | leave {s : State ι} {i : ι} {n : Nat} (h : s.pc i = .testing n) (hn : ¬ n < repeats) :
    Step s i (s.goto i .unlocking)
  | read {s : State ι} {i : ι} {n : Nat} (h : s.pc i = .reading n) :
    Step s i (s.goto i (.writing n s.globalVar))
  | write {s : State ι} {i : ι} {n : Nat} {x : Int} (h : s.pc i = .writing n x)
    (hx : x + 1 < 2 ^ 31) : Step s i ({ s with globalVar := x + 1 }.goto i (.testing (n + 1)))
  | unlock {s : State ι} {i : ι} (h : s.pc i = .unlocking) :
    Step s i ({ s with mutex := none }.goto i .returned)

/-! ## What a thread has added, and has to do -/

def Pc.inside : Pc → Bool
  | .testing _ | .reading _ | .writing _ _ | .unlocking => true
  | .locking | .failed | .returned => false

def Pc.ended : Pc → Bool
  | .failed | .returned => true
  | _ => false

def Pc.added : Pc → Nat
  | .testing n | .reading n | .writing n _ => n
  | .unlocking | .returned => repeats
  | .locking | .failed => 0

/-- Steps to its end at most. -/
def Pc.left : Pc → Nat
  | .locking => 3 * repeats + 3
  | .testing n => 3 * (repeats - n) + 2
  | .reading n => 3 * (repeats - n) + 1
  | .writing n _ => 3 * (repeats - n)
  | .unlocking => 1
  | .failed | .returned => 0

/-- The counter of a loop is in range, and what a thread has read nobody has changed since. -/
def Pc.Fits (globalVar : Int) : Pc → Prop
  | .testing n => n ≤ repeats
  | .reading n => n < repeats
  | .writing n x => n < repeats ∧ x = globalVar
  | _ => True

variable [Fintype ι]

/-- **Nothing is lost**: the variable is what the threads have added, and only the thread that has
the lock is inside. -/
structure Counted (s : State ι) : Prop where
  total : s.globalVar = tally Pc.added s.pc
  inside : ∀ i, (s.pc i).inside = true ↔ s.mutex = some i
  fits : ∀ i, (s.pc i).Fits s.globalVar

omit [DecidableEq ι] in
theorem counted_start : Counted (start ι) := by
  refine ⟨?_, fun i => ?_, fun i => trivial⟩
  · exact (congrArg Nat.cast (tally_const_zero Pc.added (a := .locking) rfl)).symm
  · simp [start, Pc.inside]

/-- Who is outside the lock remembers nothing of the variable. -/
theorem Pc.fits_of_outside {p : Pc} (h : p.inside = false) (globalVar : Int) :
    p.Fits globalVar := by
  cases p with
  | testing n => cases h
  | reading n => cases h
  | writing n x => cases h
  | locking => trivial
  | unlocking => trivial
  | failed => trivial
  | returned => trivial

/-- What a step has to see to: its own addition, its own lock, and that the variable is written
under it. -/
theorem Counted.set {s : State ι} (hs : Counted s) {i : ι} {p : Pc} {globalVar : Int}
    {mutex : Option ι} (hadded : globalVar + (s.pc i).added = s.globalVar + p.added)
    (hself : p.inside = true ↔ mutex = some i)
    (hothers : ∀ j, j ≠ i → (mutex = some j ↔ s.mutex = some j)) (hfits : p.Fits globalVar)
    (hlocked : globalVar = s.globalVar ∨ s.mutex = some i) :
    Counted ⟨globalVar, mutex, update s.pc i p⟩ := by
  have htotal := hs.total
  have htally := tally_update Pc.added s.pc i p
  refine ⟨?_, fun j => ?_, fun j => ?_⟩
  · show globalVar = (tally Pc.added (update s.pc i p) : Nat)
    omega
  · show (update s.pc i p j).inside = true ↔ mutex = some j
    by_cases hj : j = i
    · subst hj
      rw [update_self]
      exact hself
    · rw [update_of_ne hj, hs.inside j]
      exact (hothers j hj).symm
  · show (update s.pc i p j).Fits globalVar
    by_cases hj : j = i
    · subst hj
      rw [update_self]
      exact hfits
    · rw [update_of_ne hj]
      rcases hlocked with rfl | hmine
      · exact hs.fits j
      · -- the lock is `i`'s, so `j` is outside
        apply Pc.fits_of_outside
        rw [← Bool.not_eq_true, hs.inside j, hmine]
        exact fun h => hj (Option.some.inj h).symm

theorem counted_step {s t : State ι} {i : ι} (hs : Counted s) (h : Step s i t) : Counted t := by
  have hkeeps : ∀ j, j ≠ i → (s.mutex = some j ↔ s.mutex = some j) := fun j _ => Iff.rfl
  have hin := hs.inside i
  have hfits := hs.fits i
  cases h with
  | lock h hmutex =>
    refine hs.set (by rw [h]; rfl) (iff_of_true rfl rfl) (fun j hj => ?_) (Nat.zero_le _) (.inl rfl)
    rw [hmutex]
    exact iff_of_false (fun h => hj (Option.some.inj h).symm) nofun
  | fail h =>
    rw [h] at hin
    exact hs.set (by rw [h]; rfl) hin hkeeps trivial (.inl rfl)
  | test h hn =>
    rw [h] at hin
    exact hs.set (by rw [h]; rfl) hin hkeeps hn (.inl rfl)
  | @leave n h hn =>
    rw [h] at hin hfits
    have hend : n = repeats := Nat.le_antisymm hfits (Nat.le_of_not_lt hn)
    exact hs.set (by rw [h, hend]; rfl) hin hkeeps trivial (.inl rfl)
  | read h =>
    rw [h] at hin hfits
    exact hs.set (by rw [h]; rfl) hin hkeeps ⟨hfits, rfl⟩ (.inl rfl)
  | @write n x h hx =>
    rw [h] at hin hfits
    obtain ⟨hn, rfl⟩ := hfits
    refine hs.set ?_ hin hkeeps hn (.inr (hin.mp rfl))
    rw [h]
    simp only [Pc.added]
    omega
  | unlock h =>
    rw [h] at hin
    have hmine : s.mutex = some i := hin.mp rfl
    refine hs.set (by rw [h]; rfl) (iff_of_false nofun nofun) (fun j hj => ?_) trivial (.inl rfl)
    rw [hmine]
    exact iff_of_false nofun fun h => hj (Option.some.inj h).symm

/-! ## Every run ends -/

/-- At most so many steps are left. -/
def Paid (s : State ι) (n : Nat) : Prop := Counted s ∧ tally Pc.left s.pc = n

theorem paid_step {s t : State ι} {i : ι} {n : Nat} (hs : Paid s n) (h : Step s i t) :
    ∃ m, m < n ∧ Paid t m := by
  obtain ⟨hcounted, rfl⟩ := hs
  have hlower : ∃ p, t.pc = update s.pc i p ∧ p.left < (s.pc i).left := by
    have hfits := hcounted.fits i
    cases h with
    | lock h hmutex => exact ⟨_, rfl, by rw [h]; simp only [Pc.left]; omega⟩
    | fail h => exact ⟨_, rfl, by rw [h]; simp only [Pc.left]; omega⟩
    | test h hn => exact ⟨_, rfl, by rw [h]; simp only [Pc.left]; omega⟩
    | leave h hn => exact ⟨_, rfl, by rw [h]; simp only [Pc.left]; omega⟩
    | read h => exact ⟨_, rfl, by rw [h]; simp only [Pc.left]; omega⟩
    | write h hx =>
      rw [h] at hfits
      have hn := hfits.1
      exact ⟨_, rfl, by rw [h]; simp only [Pc.left]; omega⟩
    | unlock h => exact ⟨_, rfl, by rw [h]; simp only [Pc.left]; omega⟩
  obtain ⟨p, hpc, hp⟩ := hlower
  have htally := tally_update Pc.left s.pc i p
  exact ⟨tally Pc.left t.pc, by rw [hpc]; omega, counted_step hcounted h, rfl⟩

/-- A thread inside has not added everything yet when it is about to write. -/
theorem Counted.room {s : State ι} (hs : Counted s) (hfit : Fintype.card ι * repeats < 2 ^ 31)
    {i : ι} {n : Nat} {x : Int} (h : s.pc i = .writing n x) : x + 1 < 2 ^ 31 := by
  have hfits := hs.fits i
  rw [h] at hfits
  obtain ⟨hn, rfl⟩ := hfits
  -- were it through, the threads together would still have added no more than they can
  have hbound : ∀ q : Pc, q.Fits s.globalVar → q.added ≤ repeats := by
    intro q hq
    cases q with
    | testing k => exact hq
    | reading k => exact Nat.le_of_lt hq
    | writing k y => exact Nat.le_of_lt hq.1
    | locking => exact Nat.zero_le _
    | unlocking => exact Nat.le_refl _
    | failed => exact Nat.zero_le _
    | returned => exact Nat.le_refl _
  have hthrough : tally Pc.added (update s.pc i .returned) ≤ Fintype.card ι * repeats := by
    unfold tally
    refine Nat.le_trans (Finset.sum_le_card_nsmul _ _ repeats fun j _ => ?_) (Nat.le_refl _)
    by_cases hj : j = i
    · subst hj
      rw [update_self]
      exact Nat.le_refl _
    · rw [update_of_ne hj]
      exact hbound _ (hs.fits j)
  have htally := tally_update Pc.added s.pc i .returned
  rw [h] at htally
  simp only [Pc.added] at htally
  rw [hs.total]
  omega

/-- A step that is no failure of `pthread_mutex_lock`. -/
def Works (s : State ι) (i : ι) (t : State ι) : Prop := Step s i t ∧ t.pc i ≠ .failed

omit [Fintype ι] in
theorem works_of {s t : State ι} {i : ι} {p : Pc} (h : Step s i (t.goto i p)) (hp : p ≠ .failed) :
    Works s i (t.goto i p) := by
  refine ⟨h, ?_⟩
  show update t.pc i p i ≠ .failed
  rwa [update_self]

/-- Whoever has the lock can go on. -/
theorem Counted.inside_works {s : State ι} (hs : Counted s)
    (hfit : Fintype.card ι * repeats < 2 ^ 31) {i : ι} (hi : (s.pc i).inside = true) :
    ∃ t, Works s i t := by
  cases h : s.pc i with
  | testing n =>
    by_cases hn : n < repeats
    · exact ⟨_, works_of (.test h hn) nofun⟩
    · exact ⟨_, works_of (.leave h hn) nofun⟩
  | reading n => exact ⟨_, works_of (.read h) nofun⟩
  | writing n x => exact ⟨_, works_of (.write h (hs.room hfit h)) nofun⟩
  | unlocking => exact ⟨_, works_of (.unlock h) nofun⟩
  | locking =>
    rw [h] at hi
    cases hi
  | failed =>
    rw [h] at hi
    cases hi
  | returned =>
    rw [h] at hi
    cases hi

theorem Counted.progress {s : State ι} (hs : Counted s)
    (hfit : Fintype.card ι * repeats < 2 ^ 31) :
    (∀ i, (s.pc i).ended = true) ∨ ∃ i t, Works s i t := by
  by_cases hin : ∃ i, (s.pc i).inside = true
  · obtain ⟨i, hi⟩ := hin
    exact .inr ⟨i, hs.inside_works hfit hi⟩
  · -- nobody is inside, so the lock is free for whoever waits for it
    rw [not_exists] at hin
    by_cases hwaits : ∃ i, s.pc i = .locking
    · obtain ⟨i, hi⟩ := hwaits
      have hfree : s.mutex = none := by
        cases hmutex : s.mutex with
        | none => rfl
        | some j => exact absurd ((hs.inside j).mpr hmutex) (hin j)
      exact .inr ⟨i, _, works_of (.lock hi hfree) nofun⟩
    · rw [not_exists] at hwaits
      refine .inl fun i => ?_
      have hout := hin i
      have hwait := hwaits i
      cases hpc : s.pc i with
      | locking => exact absurd hpc hwait
      | failed => rfl
      | returned => rfl
      | testing n =>
        rw [hpc] at hout
        exact absurd rfl hout
      | reading n =>
        rw [hpc] at hout
        exact absurd rfl hout
      | writing n x =>
        rw [hpc] at hout
        exact absurd rfl hout
      | unlocking =>
        rw [hpc] at hout
        exact absurd rfl hout

omit [Fintype ι] in
/-- Who fails has failed at its own step. -/
theorem Works.failed {s t : State ι} {i j : ι} (h : Works s i t) (hj : t.pc j = .failed) :
    s.pc j = .failed := by
  have hij : j ≠ i := by
    rintro rfl
    exact h.2 hj
  obtain ⟨hst, _⟩ := h
  have hother : t.pc j = s.pc j := by
    cases hst with
    | lock h hmutex => exact update_of_ne hij ..
    | fail h => exact update_of_ne hij ..
    | test h hn => exact update_of_ne hij ..
    | leave h hn => exact update_of_ne hij ..
    | read h => exact update_of_ne hij ..
    | write h hx => exact update_of_ne hij ..
    | unlock h => exact update_of_ne hij ..
  rw [← hother]
  exact hj

omit [DecidableEq ι] in
/-- When all threads have ended, what each that got the lock has added is there. -/
theorem Counted.total_of_ended {s : State ι} (hs : Counted s)
    (hended : ∀ i, (s.pc i).ended = true) :
    s.globalVar = (repeats * (Finset.univ.filter fun i => s.pc i = .returned).card : Nat) := by
  rw [hs.total]
  have hadded : ∀ i, (s.pc i).added = if s.pc i = .returned then repeats else 0 := by
    intro i
    have hi := hended i
    cases hpc : s.pc i with
    | returned => rfl
    | failed => rfl
    | _ =>
      rw [hpc] at hi
      cases hi
  have htally : tally Pc.added s.pc = ∑ i, if s.pc i = .returned then repeats else 0 :=
    Finset.sum_congr rfl fun i _ => hadded i
  rw [htally, ← Finset.sum_filter, Finset.sum_const, Nat.nsmul_eq_mul, Nat.mul_comm]

/-- **No update is lost**, however the threads' reads and writes fall: the variable is at every
moment what has been added, the threads end after a bounded number of steps and can always be
brought to, without one more failing than has, and then the variable is ten million times the
number of those that got the lock. -/
theorem all_counted (hfit : Fintype.card ι * repeats < 2 ^ 31) {tr : List (ι × State ι)}
    (h : Trace Step (start ι) tr) :
    AllStates (fun s => s.globalVar = ((tally Pc.added s.pc : Nat) : Int)) (start ι) tr ∧
      tr.length ≤ Fintype.card ι * (3 * repeats + 3) ∧
      ∃ more, Trace Step (lastState (start ι) tr) more ∧
        (∀ i, ((lastState (start ι) (tr ++ more)).pc i).ended = true ∧
          ((lastState (start ι) (tr ++ more)).pc i = .failed →
            (lastState (start ι) tr).pc i = .failed)) ∧
        (lastState (start ι) (tr ++ more)).globalVar =
          (repeats * (Finset.univ.filter fun i =>
            (lastState (start ι) (tr ++ more)).pc i = .returned).card : Nat) := by
  have hcounted := h.allStates (fun _ _ _ hs hst => counted_step hs hst) counted_start
  have hpaid : Paid (start ι) (Fintype.card ι * (3 * repeats + 3)) := by
    refine ⟨counted_start, ?_⟩
    show ∑ _i : ι, (3 * repeats + 3) = _
    rw [Finset.sum_const, Finset.card_univ, Nat.nsmul_eq_mul]
  obtain ⟨m, hlength, hlast⟩ := h.lowers (fun _ _ _ _ hs hst => paid_step hs hst) hpaid
  have hstep : ∀ s i t n, Paid s n → Works s i t → ∃ m, m < n ∧ Paid (t : State ι) m :=
    fun _ _ _ _ hs hst => paid_step hs hst.1
  have hprogress : ∀ s n, Paid s n → (∀ i : ι, (s.pc i).ended = true) ∨ ∃ i t, Works s i t :=
    fun _ _ hs => hs.1.progress hfit
  obtain ⟨more, hmore, hended⟩ := Trace.exists_finish hstep hprogress hlast
  have hsteps : Trace Step (lastState (start ι) tr) more := hmore.imp fun _ _ _ hst => hst.1
  have hfailed := hmore.allStates (I := fun s => ∀ i, s.pc i = .failed →
    (lastState (start ι) tr).pc i = .failed)
    (fun _ _ _ hs hst i hi => hs i (hst.failed hi)) fun _ hi => hi
  have hend := (hsteps.allStates (fun _ _ _ hs hst => counted_step hs hst) hcounted.last).last
  refine ⟨hcounted.imp fun _ => Counted.total, by omega, more, hsteps, ?_⟩
  rw [lastState_append]
  exact ⟨fun i => ⟨hended i, hfailed.last i⟩, hend.total_of_ended hended⟩

/-- The three threads of `main`: thirty million is well inside an `int`. -/
theorem all_counted_three :
    ∃ more, Trace Step (start (Fin 3)) more ∧
      (lastState (start (Fin 3)) more).globalVar = 30000000 := by
  obtain ⟨_, _, more, hmore, hended, htotal⟩ :=
    all_counted (ι := Fin 3) (by decide) (.nil (start (Fin 3)))
  rw [List.nil_append] at hended htotal
  refine ⟨more, hmore, htotal.trans ?_⟩
  -- nobody has failed, so everybody has returned
  have hall : ∀ i, (lastState (start (Fin 3)) more).pc i = .returned := by
    intro i
    obtain ⟨hend, hfailed⟩ := hended i
    cases hpc : (lastState (start (Fin 3)) more).pc i with
    | returned => rfl
    | failed =>
      have hstart : Pc.locking = Pc.failed := hfailed hpc
      cases hstart
    | _ =>
      rw [hpc] at hend
      cases hend
  rw [Finset.filter_true_of_mem fun i _ => hall i]
  rfl

end Counter
end Cab403
