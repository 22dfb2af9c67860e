import Cab403.Lib.Reduction
import Cab403.Lib.Turns

/-!
# Turns, statement by statement

Threads that take turns do two things more than those of `Statement.Step`: one that has come to its
end begins again, and a sleeper may wake that nobody signalled, in the middle of another's section
too. The first is a step outside the lock like any other.

The second is where the two levels come apart for a moment. Before the commit it can be done before
the section. After the commit it is to be done after the section; but then the sleeper still sleeps
when the rest of the section signals, and a signal that was lost on it may wake it. It has woken all
the same, and nothing is left to be done (`Wakes.of_woken`).
-/

namespace Cab403
namespace Lib

open Function Relation

variable {κ S O : Type} {obs : S → O} {ι : Type*} [DecidableEq ι]

/-! ## Signals, and a thread that wakes unsignalled -/

/-- Nobody signals a thread that still sleeps, and nobody would have if it had not slept. -/
theorem Wakes.put_of_asleep {vs : List κ} {th th' : ι → Thread κ S} (h : Wakes vs th th') {j : ι}
    {v : κ} {c : Code κ S} (hj : th' j = .asleep v c) {t : Thread κ S}
    (ht : t.isAsleep = false) : Wakes vs (update th j t) (update th' j t) := by
  induction h with
  | done th => exact .done _
  | @wake w ws th th' k d hk hrest ih =>
    have hkj : k ≠ j := by
      rintro rfl
      rcases hrest.thread k with heq | ⟨_, _, hasleep, _⟩
      · rw [update_self, hj] at heq
        cases heq
      · rw [update_self] at hasleep
        cases hasleep
    refine .wake ((update_of_ne hkj ..).trans hk) ?_
    rw [update_comm hkj.symm]
    exact ih hj
  | lost hnone _ ih =>
    refine .lost (fun k d hk => ?_) (ih hj)
    by_cases hkj : k = j
    · subst hkj
      rw [update_self] at hk
      rw [hk] at ht
      cases ht
    · rw [update_of_ne hkj] at hk
      exact hnone k d hk

/-- If the thread sleeps on, the signals wake it, or they wake whom they woke. -/
theorem Wakes.of_woken {vs : List κ} {th th' : ι → Thread κ S} {j : ι} {v : κ} {c : Code κ S}
    (h : Wakes vs (update th j (.woken c)) th') (hj : th j = .asleep v c) :
    Wakes vs th th' ∨ Wakes vs th (update th' j (.asleep v c)) := by
  generalize hwoken : update th j (.woken c) = th₁ at h
  induction h generalizing th with
  | done th₁ =>
    subst hwoken
    refine .inr ?_
    rw [update_idem, ← hj, update_eq_self]
    exact .done th
  | @wake w ws th₁ th' k d hk _ ih =>
    subst hwoken
    have hkj : k ≠ j := by
      rintro rfl
      rw [update_self] at hk
      cases hk
    rw [update_of_ne hkj] at hk
    have hsleeps : update th k (.woken d) j = .asleep v c := (update_of_ne hkj.symm ..).trans hj
    rcases ih hsleeps (update_comm hkj ..) with hsame | hother
    · exact .inl (.wake hk hsame)
    · exact .inr (.wake hk hother)
  | @lost w ws th₁ th' hnone hrest ih =>
    by_cases hvw : v = w
    · -- it is the one that this signal wakes
      subst hvw hwoken
      exact .inl (.wake hj hrest)
    · have hnone' : ∀ k d, th k ≠ .asleep w d := by
        intro k d hk
        by_cases hkj : k = j
        · subst hkj
          rw [hj] at hk
          cases hk
          exact hvw rfl
        · refine hnone k d ?_
          rw [← hwoken, update_of_ne hkj]
          exact hk
      rcases ih hj hwoken with hsame | hother
      · exact .inl (.lost hnone' hsame)
      · exact .inr (.lost hnone' hother)

namespace Statement

/-! ## The steps -/

/-- One statement of a pool in which thread `i` takes turns with `body i`. -/
inductive Turn (body : ι → Code κ S) (wakeups : Bool) : State κ S ι → Move ι → State κ S ι → Prop
  | step {s t : State κ S ι} {i : ι} (h : Step s i t) : Turn body wakeups s (.step i) t
  | again {s : State κ S ι} {i : ι} {ok : Bool} (h : s.thread i = .run (.exit ok)) :
      Turn body wakeups s (.again i)
        ⟨⟨s.mem, update s.thread i (.run (.lock (body i)))⟩, s.holder⟩
  | spurious {s : State κ S ι} {i : ι} {v : κ} {c : Code κ S} (hallowed : wakeups = true)
      (h : s.thread i = .asleep v c) :
      Turn body wakeups s (.spurious i) ⟨⟨s.mem, update s.thread i (.woken c)⟩, s.holder⟩

variable {body : ι → Code κ S} {wakeups : Bool} {s t : State κ S ι} {p q : Pool κ S ι} {i j : ι}
  {c d : Code κ S} {may : Bool} {v : κ} {m : Move ι}

/-- A move of the pool in which sections are whole. -/
def Whole (body : ι → Code κ S) (wakeups : Bool) (p q : Pool κ S ι) : Prop :=
  ∃ m, Lib.Turn body wakeups p m q

theorem whole_step {p q : Pool κ S ι} {i : ι} (h : Lib.Step p i q) : Whole body wakeups p q :=
  ⟨_, .step h⟩

/-- To begin again is a step outside the lock. -/
theorem outside_again {ok : Bool} (hbody : (Code.lock (body j)).Reads obs none)
    (h : s.thread j = .run (.exit ok)) : Outside obs (Whole body wakeups) s j
      ⟨⟨s.mem, update s.thread j (.run (.lock (body j)))⟩, s.holder⟩ :=
  ⟨_, _, h, hbody, rfl, fun _ hp _ => ⟨_, .again hp⟩⟩

omit [DecidableEq ι] in
theorem Inside.not_asleep (h : Inside obs s i c may) (hj : s.thread j = .asleep v d) : j ≠ i := by
  rintro rfl
  have hi := h.isAsleep
  rw [hj] at hi
  cases hi

/-! ## A sleeper that wakes -/

theorem Inside.spurious (h : Inside obs s i c may) (hj : s.thread j = .asleep v d) :
    Inside obs ⟨⟨s.mem, update s.thread j (.woken d)⟩, s.holder⟩ i c may := by
  have hji := h.not_asleep hj
  have hreads := h.others j hji
  rw [hj] at hreads
  refine ⟨h.holder, (update_of_ne hji.symm ..).trans h.code, h.reads, ?_⟩
  exact (forall_update_iff s.thread fun k t => k ≠ i → t.Reads obs).mpr
    ⟨fun _ => hreads, fun k _ hk => h.others k hk⟩

theorem Placed.spurious (hs : Placed obs s) (hj : s.thread j = .asleep v d) :
    Placed obs ⟨⟨s.mem, update s.thread j (.woken d)⟩, s.holder⟩ := by
  rcases hs with ⟨hfree, hreads⟩ | ⟨i, c, may, hs⟩
  · have hreads' := hreads j
    rw [hj] at hreads'
    exact .inl ⟨hfree, reads_update (fun k _ => hreads k) hreads'⟩
  · exact .inr ⟨i, c, may, hs.spurious hj⟩

theorem Before.spurious (h : Before obs s i c p) (hj : s.thread j = .asleep v d) :
    p.thread j = .asleep v d ∧
      Before obs ⟨⟨s.mem, update s.thread j (.woken d)⟩, s.holder⟩ i c
        ⟨p.mem, update p.thread j (.woken d)⟩ := by
  have hji := h.inside.not_asleep hj
  obtain ⟨c₀, sent, hentry, hlocked, hwakes⟩ := h.begun
  have hsleeps : update s.thread i (p.thread i) j = .asleep v d := (update_of_ne hji ..).trans hj
  have hpj : p.thread j = .asleep v d := by
    rcases hwakes.thread j with heq | ⟨_, _, _, hwoken⟩
    · exact heq.symm.trans hsleeps
    · rw [hsleeps] at hwoken
      cases hwoken
  refine ⟨hpj, h.inside.spurious hj, h.obs_eq, c₀, sent, ?_, hlocked, ?_⟩
  · exact (congrArg Thread.entry (update_of_ne hji.symm ..)).trans hentry
  · show Wakes sent (update p.thread j (.woken d))
      (update (update s.thread j (.woken d)) i (update p.thread j (.woken d) i))
    rw [update_of_ne hji.symm, update_comm hji]
    exact hwakes.put_of_asleep hsleeps rfl

/-- After the section it wakes, if the section has not woken it. -/
theorem After.spurious (h : After obs ⟨⟨s.mem, update s.thread j (.woken d)⟩, s.holder⟩ i c p)
    (hallowed : wakeups = true) (hji : j ≠ i) (hj : s.thread j = .asleep v d) :
    After obs s i c p ∨ ∃ p', After obs s i c p' ∧ Whole body wakeups p' p := by
  obtain ⟨out, th, hlocked, hobs, hwakes, rfl⟩ := h
  have hwoken : th j = .woken d :=
    (hwakes.eq_of_not_asleep (i := j) (by simp [Thread.isAsleep])).trans (update_self ..)
  rcases Wakes.of_woken hwakes hj with hsame | hother
  · exact .inl ⟨out, th, hlocked, hobs, hsame, rfl⟩
  · refine .inr ⟨_, ⟨out, _, hlocked, hobs, hother, rfl⟩, .spurious j, ?_⟩
    have hsleeps : update (update th j (.asleep v d)) i out.next j = .asleep v d := by
      rw [update_of_ne hji, update_self]
    have hmove : Lib.Turn body wakeups
        ⟨out.mem, update (update th j (.asleep v d)) i out.next⟩ (.spurious j)
        ⟨out.mem, update (update (update th j (.asleep v d)) i out.next) j (.woken d)⟩ :=
      .spurious hallowed hsleeps
    have hthreads : update (update (update th j (.asleep v d)) i out.next) j (.woken d) =
        update th i out.next := by
      rw [update_comm hji.symm, update_idem, ← hwoken, update_eq_self]
    rwa [hthreads] at hmove

theorem Runs.spurious
    (h : Runs obs (Whole body wakeups) ⟨⟨s.mem, update s.thread j (.woken d)⟩, s.holder⟩ q)
    (hallowed : wakeups = true) (hj : s.thread j = .asleep v d) :
    Runs obs (Whole body wakeups) s q := by
  refine ⟨fun hfree => ?_, fun hs => ?_, fun hs => ?_⟩
  · exact .head ⟨_, .spurious hallowed hj⟩ (h.free hfree)
  · obtain ⟨hpj, hbefore⟩ := hs.spurious hj
    exact .head ⟨_, .spurious hallowed hpj⟩ (h.before hbefore)
  · obtain ⟨p, hafter, hrun⟩ := h.after (hs.spurious hj)
    rcases hafter.spurious hallowed (hs.not_asleep hj) hj with hsame | ⟨p', hafter', hmove⟩
    · exact ⟨p, hsame, hrun⟩
    · exact ⟨p', hafter', .head hmove hrun⟩

/-! ## Runs -/

omit [DecidableEq ι] in
theorem exit_not_holder {ok : Bool} (hs : Placed obs s) (h : s.thread j = .run (.exit ok)) :
    s.holder ≠ some j := by
  intro hj
  obtain ⟨c, may, hs⟩ := hs.inside hj
  obtain rfl := Thread.run.inj (hs.code.symm.trans h)
  exact hs.reads

theorem placed_turn (hbody : ∀ i, (Code.lock (body i)).Reads obs none) (hs : Placed obs s)
    (hst : Turn body wakeups s m t) : Placed obs t := by
  cases hst with
  | step hst => exact placed_step hs hst
  | again h => 
    exact hs.outside (M := Whole body wakeups) (exit_not_holder hs h) (outside_again (hbody _) h)
  | spurious _ h => exact hs.spurious h

theorem runs_turn (hbody : ∀ i, (Code.lock (body i)).Reads obs none)
    {tr : List (Move ι × State κ S ι)} (h : Trace (Turn body wakeups) s tr) (hs : Placed obs s)
    (hlast : lastState s tr = ⟨q, none⟩) : Runs obs (Whole body wakeups) s q := by
  induction h with
  | nil s =>
    subst hlast
    exact runs_refl q
  | cons hst _ ih =>
    have hruns := ih (placed_turn hbody hs hst) hlast
    cases hst with
    | step hst => exact hruns.cons whole_step hs hst
    | again h => exact hruns.outside (exit_not_holder hs h) (outside_again (hbody _) h)
    | spurious hallowed h => exact hruns.spurious hallowed h

theorem reaches_turn (h : Reaches Step s t) : Reaches (Turn body wakeups) s t := by
  obtain ⟨tr, htr, rfl⟩ := h
  induction htr with
  | nil s => exact .refl s
  | cons hst _ ih => exact .cons (.step hst) ih

theorem reaches_of_turn (h : Lib.Turn body wakeups p m q) :
    Reaches (Turn body wakeups) (⟨p, none⟩ : State κ S ι) ⟨q, none⟩ := by
  cases h with
  | step h => exact reaches_turn (reaches_of_step h)
  | again h => exact .cons (.again h) (.refl _)
  | spurious hallowed h => exact .cons (.spurious hallowed h) (.refl _)

theorem reaches_of_turns (h : Reaches (Lib.Turn body wakeups) p q) :
    Reaches (Turn body wakeups) (⟨p, none⟩ : State κ S ι) ⟨q, none⟩ := by
  obtain ⟨tr, htr, rfl⟩ := h
  induction htr with
  | nil p => exact .refl _
  | cons hst _ ih => exact (reaches_of_turn hst).trans ih

/-- **Reduction**, for threads that take turns. -/
theorem reaches_turn_iff (hbody : ∀ i, (Code.lock (body i)).Reads obs none)
    (hp : ∀ j, (p.thread j).Reads obs) :
    Reaches (Turn body wakeups) (⟨p, none⟩ : State κ S ι) ⟨q, none⟩ ↔
      Reaches (Lib.Turn body wakeups) p q := by
  constructor
  · rintro ⟨tr, htr, hlast⟩
    exact reaches_iff_reflTransGen.mpr ((runs_turn hbody htr (.inl ⟨rfl, hp⟩) hlast).free rfl)
  · exact reaches_of_turns

/-- Wherever a run stands. -/
theorem placed_of_reaches (hbody : ∀ i, (Code.lock (body i)).Reads obs none)
    (hp : ∀ j, (p.thread j).Reads obs)
    (hs : Reaches (Turn body wakeups) (⟨p, none⟩ : State κ S ι) s) : Placed obs s := by
  obtain ⟨tr, htr, rfl⟩ := hs
  exact (htr.allStates (fun _ _ _ => placed_turn hbody) (.inl ⟨rfl, hp⟩)).last

end Statement

end Lib
end Cab403
