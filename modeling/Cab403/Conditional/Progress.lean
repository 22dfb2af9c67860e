import Cab403.Conditional.Ones

/-!
# No wakeup is lost

A role all of whose threads sleep has nothing to do: its buffer is full, or empty. A thread falls
asleep only then; and work of the other role, which is what could end that state, signals the
condition the role sleeps on, so that from then on one of its threads is awake. The buffer is not
both full and empty, so the two roles never all sleep together.
-/

namespace Cab403
namespace Conditional

open Function Lib

variable {ι : Type*} {role : ι → Role} {p q : Pool Cond Shared ι}

/-- Every thread of the role sleeps on its condition. -/
def AllAsleep (role : ι → Role) (r : Role) (p : Pool Cond Shared ι) : Prop :=
  ∀ i, role i = r → ∃ c, p.thread i = .asleep r.waits c

theorem not_allAsleep {r : Role} {i : ι} (hi : role i = r)
    (hawake : (p.thread i).isAsleep = false) :
    ¬ AllAsleep role r p := by
  intro hall
  obtain ⟨c, hc⟩ := hall i hi
  rw [hc] at hawake
  cases hawake

theorem Role.waits_inj {r r' : Role} (h : r.waits = r'.waits) : r = r' := by
  cases r <;> cases r' <;> first | rfl | cases h

theorem Role.signals_eq_waits {r r' : Role} (h : r ≠ r') : r'.signals = r.waits := by
  cases r <;> cases r' <;> first | rfl | exact absurd rfl h

/-- Not full and empty at once. -/
theorem Circular.not_both {m : Shared} (h : Circular m) (hproducer : Role.producer.blocked m = true)
    (hconsumer : Role.consumer.blocked m = true) : False := by
  have hfull : (m.in_ + 1).tmod BUFFER_SIZE = m.out := eq_of_beq hproducer
  have hempty : m.in_ = m.out := eq_of_beq hconsumer
  rw [advance_eq h.in_, ← hempty] at hfull
  exact nextPlace_ne h.in_ (by decide) hfull

/-- A role that sleeps as a whole is blocked. -/
structure Alert (role : ι → Role) (p : Pool Cond Shared ι) : Prop extends Inv role p where
  blocked : ∀ r, AllAsleep role r p → r.blocked p.mem = true

theorem alert_initial (hrole : ∀ r, ∃ i, role i = r) : Alert role (initial role) := by
  refine ⟨inv_initial role, fun r hall => ?_⟩
  obtain ⟨i, hi⟩ := hrole r
  exact absurd hall (not_allAsleep hi rfl)

variable [DecidableEq ι]

/-- **Work wakes the other role.** If one of its threads slept, one of them is woken. -/
theorem wakes_other {r r' : Role} (hr : r ≠ r') {th th' : ι → Thread Cond Shared}
    (h : Wakes [r'.signals] th th')
    (hstands : ∀ j, Stands (role j).waits (role j).body (th j)) {j : ι} (hj : role j = r)
    (hsleep : (th j).isAsleep = true) : ∃ k, role k = r ∧ (th' k).isAsleep = false := by
  have hstand := (hstands j).eq_asleep hsleep
  rw [hj] at hstand
  rw [Role.signals_eq_waits hr] at h
  rcases h.one with ⟨k, c, hk, rfl⟩ | ⟨_, hnone⟩
  · -- whoever sleeps on the role's condition has the role
    have hk' := (hstands k).eq_asleep (by rw [hk]; rfl)
    rw [hk] at hk'
    refine ⟨k, Role.waits_inj (Thread.asleep.inj hk').1.symm, ?_⟩
    rw [update_self]
    rfl
  · exact absurd hstand (hnone j _)

/-- A section of a thread that finds its role blocked puts it to sleep. -/
theorem alert_sleeps (h : Alert role p) {i : ι} {out : Section Cond Shared}
    (hblocked : (role i).blocked p.mem = true) (hR : RoleSection (role i) p.mem out)
    (hruns : Runs p i out q) (r : Role) (hall : AllAsleep role r q) :
    r.blocked q.mem = true := by
  rw [RoleSection, if_pos hblocked] at hR
  obtain ⟨hsame, hsignals, _⟩ := hR
  obtain ⟨hmem, th, hwakes, hthread⟩ := hruns
  rw [hsignals] at hwakes
  obtain rfl := hwakes.nil
  rw [hmem, hsame]
  by_cases hr : role i = r
  · exact hr ▸ hblocked
  · refine h.blocked r fun j hj => ?_
    have hji : j ≠ i := fun heq => hr (heq ▸ hj)
    have hsleep := hall j hj
    rw [hthread, update_of_ne hji] at hsleep
    exact hsleep

/-- A section of a thread that works leaves a thread of each role awake. -/
theorem alert_works (h : Alert role p) (hrole : ∀ r, ∃ i, role i = r) {i : ι}
    {out : Section Cond Shared} (hfree : (role i).blocked p.mem = false)
    (hR : RoleSection (role i) p.mem out) (hruns : Runs p i out q) (r : Role) :
    ¬ AllAsleep role r q := by
  rw [RoleSection, if_neg (Bool.eq_false_iff.mp hfree)] at hR
  obtain ⟨_, hsignals, hnext⟩ := hR
  obtain ⟨_, th, hwakes, hthread⟩ := hruns
  rw [hsignals] at hwakes
  by_cases hr : role i = r
  · refine not_allAsleep hr ?_
    rw [hthread, update_self, hnext]
    rfl
  · -- of the other role, one was awake and still is, or one is woken
    have hawake : ∃ k, role k = r ∧ (th k).isAsleep = false := by
      obtain ⟨j, hj⟩ := hrole r
      by_cases hsleep : (p.thread j).isAsleep = true
      · exact wakes_other (Ne.symm hr) hwakes h.stands hj hsleep
      · refine ⟨j, hj, Bool.eq_false_iff.mpr fun hth => hsleep (hwakes.isAsleep hth)⟩
    obtain ⟨k, hk, hkawake⟩ := hawake
    have hki : k ≠ i := fun heq => hr (heq ▸ hk)
    refine not_allAsleep hk ?_
    rw [hthread, update_of_ne hki]
    exact hkawake

theorem alert_idles (h : Alert role p) {i : ι} (hidle : Idles p i q)
    (hawake : (p.thread i).isAsleep = false) (r : Role) (hall : AllAsleep role r q) :
    r.blocked q.mem = true := by
  obtain ⟨hmem, t, ht, hthread⟩ := hidle
  rw [hmem]
  refine h.blocked r fun j hj => ?_
  have hsleep := hall j hj
  rw [hthread] at hsleep
  by_cases hji : j = i
  · subst hji
    obtain ⟨c, hc⟩ := hsleep
    rw [update_self] at hc
    rw [hc] at ht
    cases ht
  · rwa [update_of_ne hji] at hsleep

theorem alert_turn (hrole : ∀ r, ∃ i, role i = r) {m : Move ι} (h : Alert role p)
    (hturn : Turn (fun i => (role i).body) false p m q) : Alert role q := by
  refine ⟨(inv_turn h.toInv hturn).1, ?_⟩
  obtain ⟨_, hmove⟩ := hturn.stands (fun i => body_takesTurns (role i)) h.stands
  cases m with
  | step i =>
    obtain ⟨out, hR, hruns, _⟩ := hmove
    by_cases hblocked : (role i).blocked p.mem = true
    · exact alert_sleeps h hblocked hR hruns
    · intro r hall
      exact absurd hall (alert_works h hrole (Bool.eq_false_iff.mpr hblocked) hR hruns r)
  | again i => exact alert_idles h hmove.1 hmove.2
  | spurious i => cases hmove.2

/-- **The two roles never all sleep.** With one producer and one consumer or more, and sleepers
that only wake when they are signalled, no state is reached in which every producer sleeps on
`empty` and every consumer sleeps on `full`. -/
theorem never_all_asleep (role : ι → Role) (hproducer : ∃ i, role i = .producer)
    (hconsumer : ∃ i, role i = .consumer) {tr : List (Move ι × Pool Cond Shared ι)}
    (h : Trace (Turn (fun i => (role i).body) false) (initial role) tr) :
    AllStates (fun p =>
      ¬ ((∀ i, role i = .producer → ∃ c, p.thread i = .asleep .empty c) ∧
        (∀ i, role i = .consumer → ∃ c, p.thread i = .asleep .full c))) (initial role) tr := by
  have hrole : ∀ r, ∃ i, role i = r := by
    intro r
    cases r with
    | producer => exact hproducer
    | consumer => exact hconsumer
  have hall := h.allStates (fun p m q hp hturn => alert_turn hrole hp hturn)
    (alert_initial hrole)
  refine hall.imp fun p hp hboth => ?_
  exact hp.circular.not_both (hp.blocked .producer hboth.1) (hp.blocked .consumer hboth.2)

/-- The consumer sleeps, and is woken by the producer before that begins again. -/
theorem never_all_asleep_pair : ∃ tr : List (Move Role × Pool Cond Shared Role),
    tr.map Prod.fst = [.step .consumer, .step .producer, .again .producer] ∧
    AllStates (fun p =>
      ¬ ((∀ i, i = Role.producer → ∃ c, p.thread i = .asleep .empty c) ∧
        (∀ i, i = Role.consumer → ∃ c, p.thread i = .asleep .full c))) (initial id) tr := by
  have hrun : Trace (Turn (fun i => (id i).body) false) (initial id) _ :=
    .cons (.step (i := Role.consumer) (.locked rfl rfl (.done _)))
      (.cons (.step (i := Role.producer) (.locked rfl rfl
        (.wake (j := Role.consumer) rfl (.done _))))
      (.cons (.again (i := Role.producer) rfl) (.nil _)))
  exact ⟨_, rfl, never_all_asleep id ⟨.producer, rfl⟩ ⟨.consumer, rfl⟩ hrun⟩

end Conditional
end Cab403
