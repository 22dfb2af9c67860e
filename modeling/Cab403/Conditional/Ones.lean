import Cab403.Conditional.Programs

/-!
# What the buffer holds

The ones of the buffer fill the circular range from `out` up to `in`, and the zeros the rest. That
is one invariant of the record (`Circular`), kept by every turn of either role: the library says
which place the range gains when its end moves on, and which one it loses when its beginning does,
and those are the slots the two roles write.
-/

namespace Cab403
namespace Conditional

open Function Lib

/-! ## The invariant -/

structure Circular (m : Shared) : Prop where
  in_ : Place BUFFER_SIZE m.in_
  out : Place BUFFER_SIZE m.out
  buffer : ∀ i, Place BUFFER_SIZE i →
    m.buffer i = if Between BUFFER_SIZE m.out m.in_ i then 1 else 0

/-- The slots that hold `1`. -/
def ones (m : Shared) : Finset Int := (places BUFFER_SIZE).filter fun i => m.buffer i = 1

theorem advance_eq {i : Int} (hi : Place BUFFER_SIZE i) :
    (i + 1).tmod BUFFER_SIZE = nextPlace BUFFER_SIZE i :=
  Int.tmod_eq_emod_of_nonneg (Int.add_nonneg hi.1 (by decide))

theorem circular_initial : Circular Shared.initial := by
  have hplace : Place BUFFER_SIZE 0 := by decide
  refine ⟨hplace, hplace, fun i hi => ?_⟩
  exact (if_neg (not_between_empty hi)).symm

/-- **The ones fill the range.** -/
theorem Circular.card_ones {m : Shared} (h : Circular m) :
    ((ones m).card : Int) = (m.in_ - m.out) % BUFFER_SIZE := by
  have hones : ones m = (places BUFFER_SIZE).filter (Between BUFFER_SIZE m.out m.in_) := by
    apply Finset.filter_congr
    intro i hi
    rw [h.buffer i (mem_places.mp hi)]
    by_cases hb : Between BUFFER_SIZE m.out m.in_ i
    · simp [hb]
    · simp [hb]
  rw [hones, card_between h.out h.in_]

/-! ## A turn -/

/-- The slot a role writes to. -/
def Role.slot : Role → Shared → Int
  | .producer, m => m.in_
  | .consumer, m => m.out

/-- What it finds there, and what it leaves. -/
def Role.finds : Role → Int
  | .producer => 0
  | .consumer => 1

def Role.leaves : Role → Int
  | .producer => 1
  | .consumer => 0

/-- The work of a role turns one slot of the buffer, and no other. -/
structure Turned (r : Role) (m m' : Shared) : Prop where
  place : Place BUFFER_SIZE (r.slot m)
  found : m.buffer (r.slot m) = r.finds
  left : m'.buffer = update m.buffer (r.slot m) r.leaves

theorem Circular.turned {m : Shared} (h : Circular m) {r : Role} (hr : r.blocked m = false) :
    Turned r m (r.advance (r.write m)) := by
  cases r with
  | producer =>
    refine ⟨h.in_, ?_, rfl⟩
    show m.buffer m.in_ = 0
    rw [h.buffer _ h.in_, if_neg not_between_end]
  | consumer =>
    refine ⟨h.out, ?_, rfl⟩
    have hne : m.in_ ≠ m.out := beq_eq_false_iff_ne.mp hr
    show m.buffer m.out = 1
    rw [h.buffer _ h.out, if_pos (between_begin h.out h.in_ hne)]

theorem Circular.advance {m : Shared} (h : Circular m) {r : Role} (hr : r.blocked m = false) :
    Circular (r.advance (r.write m)) := by
  cases r with
  | producer =>
    have hroom : nextPlace BUFFER_SIZE m.in_ ≠ m.out := by
      have hne : (m.in_ + 1).tmod BUFFER_SIZE ≠ m.out := beq_eq_false_iff_ne.mp hr
      rwa [advance_eq h.in_] at hne
    refine ⟨?_, h.out, fun i hi => ?_⟩
    · show Place BUFFER_SIZE ((m.in_ + 1).tmod BUFFER_SIZE)
      rw [advance_eq h.in_]
      exact place_nextPlace h.in_
    · show update m.buffer m.in_ 1 i =
        if Between BUFFER_SIZE m.out ((m.in_ + 1).tmod BUFFER_SIZE) i then 1 else 0
      rw [advance_eq h.in_]
      by_cases hslot : i = m.in_
      · subst hslot
        rw [update_self, if_pos ((between_next h.out h.in_ hroom hi).mpr (.inr rfl))]
      · rw [update_of_ne hslot, h.buffer i hi]
        refine if_congr ?_ rfl rfl
        rw [between_next h.out h.in_ hroom hi]
        exact (or_iff_left hslot).symm
  | consumer =>
    have hne : m.in_ ≠ m.out := beq_eq_false_iff_ne.mp hr
    refine ⟨h.in_, ?_, fun i hi => ?_⟩
    · show Place BUFFER_SIZE ((m.out + 1).tmod BUFFER_SIZE)
      rw [advance_eq h.out]
      exact place_nextPlace h.out
    · show update m.buffer m.out 0 i =
        if Between BUFFER_SIZE ((m.out + 1).tmod BUFFER_SIZE) m.in_ i then 1 else 0
      rw [advance_eq h.out]
      by_cases hslot : i = m.out
      · subst hslot
        rw [update_self, if_neg fun hb => ((between_pass h.out h.in_ hne hi).mp hb).2 rfl]
      · rw [update_of_ne hslot, h.buffer i hi]
        refine if_congr ?_ rfl rfl
        rw [between_pass h.out h.in_ hne hi]
        exact (and_iff_left hslot).symm

/-! ## Runs -/

section Run

variable {ι : Type*}

/-- Every thread stands where its role can, and the record is in order. -/
structure Inv (role : ι → Role) (p : Pool Cond Shared ι) : Prop where
  stands : ∀ i, Stands (role i).waits (role i).body (p.thread i)
  circular : Circular p.mem

/-- A turn of a thread puts it to sleep, or does its role's work; nothing else touches the
record. -/
def Works (role : ι → Role) (p : Pool Cond Shared ι) (m : Move ι) (q : Pool Cond Shared ι) : Prop :=
  match m with
  | .step i => ((q.thread i).isAsleep = true ∧ q.mem = p.mem) ∨ Turned (role i) p.mem q.mem
  | _ => q.mem = p.mem

/-- All threads at the start of their loops, the buffer clear. -/
def initial (role : ι → Role) : Pool Cond Shared ι :=
  .start (fun i => (role i).body) Shared.initial

theorem inv_initial (role : ι → Role) : Inv role (initial role) :=
  ⟨fun _ => .start, circular_initial⟩

variable [DecidableEq ι]

theorem inv_turn {role : ι → Role} {wakeups : Bool} {p q : Pool Cond Shared ι} {m : Move ι}
    (h : Inv role p) (hturn : Turn (fun i => (role i).body) wakeups p m q) :
    Inv role q ∧ Works role p m q := by
  obtain ⟨hstands, hmove⟩ := hturn.stands (fun i => body_takesTurns (role i)) h.stands
  cases m with
  | step i =>
    obtain ⟨out, hR, ⟨hmem, th, _, hthread⟩, _⟩ := hmove
    unfold RoleSection at hR
    by_cases hblocked : (role i).blocked p.mem = true
    · rw [if_pos hblocked] at hR
      obtain ⟨hsame, _, hnext⟩ := hR
      rw [hsame] at hmem
      refine ⟨⟨hstands, hmem ▸ h.circular⟩, .inl ⟨?_, hmem⟩⟩
      rw [hthread, update_self, hnext]
      rfl
    · rw [if_neg hblocked] at hR
      rw [hR.1] at hmem
      have hfree := Bool.eq_false_iff.mpr hblocked
      refine ⟨⟨hstands, ?_⟩, .inr ?_⟩
      · rw [hmem]
        exact h.circular.advance hfree
      · rw [hmem]
        exact h.circular.turned hfree
  | again i =>
    obtain ⟨hidle, _⟩ := hmove
    exact ⟨⟨hstands, hidle.mem ▸ h.circular⟩, hidle.mem⟩
  | spurious i =>
    obtain ⟨hidle, _⟩ := hmove
    exact ⟨⟨hstands, hidle.mem ▸ h.circular⟩, hidle.mem⟩

/-- **The buffer is a circular range of ones.** With any number of producers and consumers, and
whether or not sleepers wake unsignalled, the indices stay on the circle, the ones fill the range
between them and never the whole circle, and each turn that does not wait moves one slot from
what its role finds to what it leaves. -/
theorem ones_circular (role : ι → Role) (wakeups : Bool)
    {tr : List (Move ι × Pool Cond Shared ι)}
    (h : Trace (Turn (fun i => (role i).body) wakeups) (initial role) tr) :
    AllStates (fun p => Circular p.mem ∧
      ((ones p.mem).card : Int) = (p.mem.in_ - p.mem.out) % BUFFER_SIZE ∧
      ((ones p.mem).card : Int) ≤ BUFFER_SIZE - 1) (initial role) tr ∧
    AllSteps (Works role) (initial role) tr := by
  refine ⟨?_, h.allSteps (fun p m q hp hturn => inv_turn hp hturn) (inv_initial role)⟩
  have hall := h.allStates (fun p m q hp hturn => (inv_turn hp hturn).1) (inv_initial role)
  refine hall.imp fun p hp => ⟨hp.circular, hp.circular.card_ones, ?_⟩
  rw [hp.circular.card_ones]
  exact Int.le_sub_one_of_lt (Int.emod_lt_of_pos _ (by decide))

/-- A consumer finds the buffer empty and sleeps; a producer fills slot 0 and wakes it. -/
theorem ones_circular_oneSlot : ∃ tr : List (Move Role × Pool Cond Shared Role),
    tr.map Prod.fst = [.step .consumer, .step .producer] ∧
    ones (lastState (initial id) tr).mem = {0} ∧
    AllStates (fun p => Circular p.mem ∧
      ((ones p.mem).card : Int) = (p.mem.in_ - p.mem.out) % BUFFER_SIZE ∧
      ((ones p.mem).card : Int) ≤ BUFFER_SIZE - 1) (initial id) tr ∧
    AllSteps (Works id) (initial id) tr := by
  have hrun : Trace (Turn (fun i => (id i).body) false) (initial id) _ :=
    .cons (.step (i := Role.consumer) (.locked rfl rfl (.done _)))
      (.cons (.step (i := Role.producer) (.locked rfl rfl
        (.wake (j := Role.consumer) rfl (.done _)))) (.nil _))
  exact ⟨_, rfl, by decide, ones_circular id false hrun⟩

end Run

end Conditional
end Cab403
