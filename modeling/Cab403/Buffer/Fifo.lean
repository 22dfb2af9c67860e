import Cab403.Buffer.Semaphore
import Cab403.Lib.Ring

/-!
# The semaphore buffer is a bounded FIFO

The invariant has three parts. `Counted` is the bookkeeping: an item inserted and not removed is
accounted for by `full`, by a remover that has taken its unit from `full` and not yet removed, or
by an inserter that has stored and not yet posted; a free slot likewise, on the other side.
`Exclusive` says who is inside the mutex. `Stored` says that the array and its two pointers are a
`Ring`. Room to store and an item to take, the premises of `Ring.put` and `Ring.take`, are what
`Counted` gives a thread that stands at its buffer update.
-/

namespace Cab403
namespace Buffer

open Function Lib

variable {ι : Type*} [DecidableEq ι]

/-! ## What a thread owes -/

/-- Between `sem_wait(&empty)` and the store. -/
def reservesSlot : Pc → Nat
  | .insLock _ | .insStore _ => 1
  | _ => 0

/-- Between the store and the end of the call. -/
def owesFull : Pc → Nat
  | .insUnlock | .insPostFull => 1
  | _ => 0

/-- Between `sem_wait(&full)` and the removal. -/
def reservesItem : Pc → Nat
  | .remLock | .remTake => 1
  | _ => 0

/-- Between the removal and the end of the call. -/
def owesEmpty : Pc → Nat
  | .remUnlock _ | .remPostEmpty _ => 1
  | _ => 0

/-- Between `pthread_mutex_lock` and `pthread_mutex_unlock`. -/
def inside : Pc → Bool
  | .insStore _ | .insUnlock | .remTake | .remUnlock _ => true
  | _ => false

/-! ## The invariant -/

structure Counted [Fintype ι] (s : State ι) : Prop where
  items : s.removed.length + s.full + tally reservesItem s.pc + tally owesFull s.pc =
    s.inserted.length
  slots : s.inserted.length + s.empty + tally reservesSlot s.pc + tally owesEmpty s.pc =
    s.removed.length + BUFFER_SIZE
  insertions : s.insertions + tally owesFull s.pc = s.inserted.length
  removals : s.removals + tally owesEmpty s.pc = s.removed.length

def Exclusive (s : State ι) : Prop := ∀ i, inside (s.pc i) = true ↔ s.mutex = some i

structure Stored (s : State ι) (q : Fifo Int BUFFER_SIZE) : Prop where
  given : q.given = s.inserted
  taken : q.taken = s.removed
  ring : Ring s.buffer s.insertPointer s.removePointer q
  holds : ∀ j, s.holds j = true ↔ Ring.Occupied q j

structure Inv [Fintype ι] (s : State ι) : Prop where
  counted : Counted s
  exclusive : Exclusive s
  stored : ∃ q, Stored s q

/-! ## The start -/

omit [DecidableEq ι] in
theorem inv_initial [Fintype ι] (b : Nat → Int) : Inv (initial b : State ι) := by
  have hzero : ∀ {w : Pc → Nat}, w .idle = 0 → tally w (initial b : State ι).pc = 0 :=
    fun hw => tally_const_zero _ hw
  refine ⟨?_, ?_, Fifo.empty, ?_⟩
  · constructor
    · rw [hzero rfl, hzero rfl]; rfl
    · rw [hzero rfl, hzero rfl]; rfl
    · rw [hzero rfl]; rfl
    · rw [hzero rfl]; rfl
  · intro i
    constructor
    · intro h
      cases h
    · intro h
      cases h
  · refine ⟨rfl, rfl, Ring.empty b, ?_⟩
    intro j
    constructor
    · intro h
      cases h
    · intro h
      exact absurd h (Ring.not_occupied_empty j)

/-! ## The books -/

omit [DecidableEq ι] in
/-- A thread at its store has room. -/
theorem Counted.room [Fintype ι] {s : State ι} (h : Counted s) {i : ι} {item : Int}
    (hpc : s.pc i = .insStore item) : s.inserted.length < s.removed.length + BUFFER_SIZE := by
  have hone := le_tally reservesSlot s.pc i
  rw [hpc] at hone
  have hslots := h.slots
  simp only [reservesSlot] at hone
  omega

omit [DecidableEq ι] in
/-- A thread at its removal has an item. -/
theorem Counted.some [Fintype ι] {s : State ι} (h : Counted s) {i : ι}
    (hpc : s.pc i = .remTake) : s.removed.length < s.inserted.length := by
  have hone := le_tally reservesItem s.pc i
  rw [hpc] at hone
  have hitems := h.items
  simp only [reservesItem] at hone
  omega

/-- What a thread going from `p` to `q` puts into each account, it takes out elsewhere. -/
structure Balanced (s t : State ι) (p q : Pc) : Prop where
  items : t.removed.length + t.full + reservesItem q + owesFull q + s.inserted.length =
    s.removed.length + s.full + reservesItem p + owesFull p + t.inserted.length
  slots : t.inserted.length + t.empty + reservesSlot q + owesEmpty q + s.removed.length =
    s.inserted.length + s.empty + reservesSlot p + owesEmpty p + t.removed.length
  insertions : t.insertions + owesFull q + s.inserted.length =
    s.insertions + owesFull p + t.inserted.length
  removals : t.removals + owesEmpty q + s.removed.length =
    s.removals + owesEmpty p + t.removed.length

theorem Counted.move [Fintype ι] {s t : State ι} {i : ι} {p q : Pc} (hs : Counted s)
    (hp : s.pc i = p) (hq : t.pc = update s.pc i q) (hb : Balanced s t p q) : Counted t := by
  have hri := tally_update reservesItem s.pc i q
  have hof := tally_update owesFull s.pc i q
  have hrs := tally_update reservesSlot s.pc i q
  have hoe := tally_update owesEmpty s.pc i q
  rw [hp, ← hq] at hri hof hrs hoe
  obtain ⟨hitems, hslots, hinsertions, hremovals⟩ := hs
  obtain ⟨bitems, bslots, binsertions, bremovals⟩ := hb
  constructor
  · omega
  · omega
  · omega
  · omega

omit [DecidableEq ι] in
theorem balanced_store (s : State ι) (item : Int) :
    Balanced s (s.store item) (.insStore item) .insUnlock := by
  constructor <;> simp only [State.store, List.length_append, List.length_singleton,
    reservesItem, owesFull, reservesSlot, owesEmpty] <;> omega

omit [DecidableEq ι] in
theorem balanced_take (s : State ι) :
    Balanced s s.take .remTake (.remUnlock (s.buffer s.removePointer)) := by
  constructor <;> simp only [State.take, List.length_append, List.length_singleton,
    reservesItem, owesFull, reservesSlot, owesEmpty] <;> omega

theorem counted_step [Fintype ι] {s t : State ι} {i : ι} (hs : Counted s) (hst : Step s i t) :
    Counted t := by
  cases hst with
  | callInsert item h => exact hs.move h rfl ⟨rfl, rfl, rfl, rfl⟩
  | insWaitEmpty item h hempty =>
    refine hs.move h rfl ⟨rfl, ?_, rfl, rfl⟩
    simp only [State.goto, reservesSlot, owesEmpty]
    omega
  | insLock item h hmutex => exact hs.move h rfl ⟨rfl, rfl, rfl, rfl⟩
  | insStore item h =>
    have hb := balanced_store s item
    exact hs.move h rfl ⟨hb.items, hb.slots, hb.insertions, hb.removals⟩
  | insUnlock h => exact hs.move h rfl ⟨rfl, rfl, rfl, rfl⟩
  | insPostFull h =>
    refine hs.move h rfl ⟨?_, rfl, ?_, rfl⟩
    · simp only [State.goto, reservesItem, owesFull]
      omega
    · simp only [State.goto, owesFull]
  | callRemove h => exact hs.move h rfl ⟨rfl, rfl, rfl, rfl⟩
  | remWaitFull h hfull =>
    refine hs.move h rfl ⟨?_, rfl, rfl, rfl⟩
    simp only [State.goto, reservesItem, owesFull]
    omega
  | remLock h hmutex => exact hs.move h rfl ⟨rfl, rfl, rfl, rfl⟩
  | remTake h =>
    have hb := balanced_take s
    exact hs.move h rfl ⟨hb.items, hb.slots, hb.insertions, hb.removals⟩
  | remUnlock item h => exact hs.move h rfl ⟨rfl, rfl, rfl, rfl⟩
  | remPostEmpty item h =>
    refine hs.move h rfl ⟨rfl, ?_, rfl, ?_⟩
    · simp only [State.goto, reservesSlot, owesEmpty]
      omega
    · simp only [State.goto, owesEmpty]

/-! ## The mutex -/

theorem Exclusive.keep {s t : State ι} {i : ι} {p q : Pc} (hs : Exclusive s)
    (hp : s.pc i = p) (hq : t.pc = update s.pc i q) (hin : inside q = inside p)
    (hm : t.mutex = s.mutex) : Exclusive t := by
  intro j
  rw [hq, hm, ← hs j]
  by_cases hj : j = i
  · rw [hj, update_self, hin, hp]
  · rw [update_of_ne hj]

theorem Exclusive.lock {s t : State ι} {i : ι} {q : Pc} (hs : Exclusive s)
    (hfree : s.mutex = none) (hq : t.pc = update s.pc i q) (hin : inside q = true)
    (hm : t.mutex = some i) : Exclusive t := by
  intro j
  rw [hq, hm]
  by_cases hj : j = i
  · simp only [hj, update_self, hin]
  · have hout : inside (s.pc j) ≠ true := by
      intro h
      rw [hs j, hfree] at h
      cases h
    rw [update_of_ne hj]
    simp [hout, Ne.symm hj]

theorem Exclusive.unlock {s t : State ι} {i : ι} {p q : Pc} (hs : Exclusive s)
    (hp : s.pc i = p) (hwas : inside p = true) (hq : t.pc = update s.pc i q)
    (hin : inside q = false) (hm : t.mutex = none) : Exclusive t := by
  intro j
  rw [hq, hm]
  by_cases hj : j = i
  · simp only [hj, update_self, hin, reduceCtorEq]
  · have hheld : s.mutex = some i := (hs i).mp (by rw [hp, hwas])
    have hout : inside (s.pc j) ≠ true := by
      intro h
      rw [hs j, hheld] at h
      exact hj (Option.some.inj h).symm
    rw [update_of_ne hj]
    simp only [hout, reduceCtorEq]

theorem exclusive_step {s t : State ι} {i : ι} (hs : Exclusive s) (hst : Step s i t) :
    Exclusive t := by
  cases hst with
  | callInsert item h => exact hs.keep h rfl rfl rfl
  | insWaitEmpty item h hempty => exact hs.keep h rfl rfl rfl
  | insLock item h hmutex => exact hs.lock hmutex rfl rfl rfl
  | insStore item h => exact hs.keep h rfl rfl rfl
  | insUnlock h => exact hs.unlock h rfl rfl rfl rfl
  | insPostFull h => exact hs.keep h rfl rfl rfl
  | callRemove h => exact hs.keep h rfl rfl rfl
  | remWaitFull h hfull => exact hs.keep h rfl rfl rfl
  | remLock h hmutex => exact hs.lock hmutex rfl rfl rfl
  | remTake h => exact hs.keep h rfl rfl rfl
  | remUnlock item h => exact hs.unlock h rfl rfl rfl rfl
  | remPostEmpty item h => exact hs.keep h rfl rfl rfl

/-! ## The slots -/

theorem Stored.store {s : State ι} {q : Fifo Int BUFFER_SIZE} (h : Stored s q) {i : ι}
    (item : Int) (room : s.inserted.length < s.removed.length + BUFFER_SIZE) :
    ∃ q', Stored ((s.store item).goto i .insUnlock) q' := by
  have hroom : q.given.length < q.taken.length + BUFFER_SIZE := by
    rw [h.given, h.taken]
    exact room
  refine ⟨q.put item hroom, ?_, h.taken, h.ring.put item hroom, ?_⟩
  · show q.given ++ [item] = s.inserted ++ [item]
    rw [h.given]
  · intro j
    rw [h.ring.occupied_put item hroom j, ← h.holds j]
    show update s.holds s.insertPointer true j = true ↔ _
    by_cases hj : j = s.insertPointer
    · simp [hj]
    · simp [hj]

theorem Stored.take {s : State ι} {q : Fifo Int BUFFER_SIZE} (h : Stored s q) {i : ι} (p : Pc)
    (some : s.removed.length < s.inserted.length) : ∃ q', Stored (s.take.goto i p) q' := by
  have hsome : q.taken.length < q.given.length := by
    rw [h.given, h.taken]
    exact some
  refine ⟨q.take hsome, h.given, ?_, h.ring.take (-1) hsome, ?_⟩
  · show q.taken ++ [q.front hsome] = s.removed ++ [s.buffer s.removePointer]
    rw [h.taken, h.ring.front_eq hsome]
  · intro j
    rw [h.ring.occupied_take hsome j, ← h.holds j]
    show update s.holds s.removePointer false j = true ↔ _
    by_cases hj : j = s.removePointer
    · simp [hj]
    · simp [hj]

theorem stored_step [Fintype ι] {s t : State ι} {i : ι} (hc : Counted s)
    (hs : ∃ q, Stored s q) (hst : Step s i t) : ∃ q, Stored t q := by
  obtain ⟨q, hq⟩ := hs
  cases hst with
  | insStore item h => exact hq.store item (hc.room h)
  | remTake h => exact hq.take _ (hc.some h)
  -- no other step touches the array, its pointers or the history
  | _ => exact ⟨q, hq.given, hq.taken, hq.ring, hq.holds⟩

/-! ## Every run -/

theorem inv_step [Fintype ι] (s : State ι) (i : ι) (t : State ι) (hs : Inv s)
    (hst : Step s i t) : Inv t :=
  ⟨counted_step hs.counted hst, exclusive_step hs.exclusive hst,
    stored_step hs.counted hs.stored hst⟩

/-- What the buffer is for. -/
structure Served (s : State ι) : Prop where
  inOrder : s.removed <+: s.inserted
  notBehind : s.removals ≤ s.insertions
  notAhead : s.insertions ≤ s.removals + BUFFER_SIZE
  oneInside : ∀ i j, inside (s.pc i) = true → inside (s.pc j) = true → i = j
  noOverwrite : ∀ i item, s.pc i = .insStore item → s.holds s.insertPointer = false
  noEmptyTake : ∀ i, s.pc i = .remTake → s.holds s.removePointer = true

omit [DecidableEq ι] in
theorem Inv.served [Fintype ι] (s : State ι) (h : Inv s) : Served s := by
  obtain ⟨hc, hx, q, hq⟩ := h
  have hitems := hc.items
  have hslots := hc.slots
  have hinsertions := hc.insertions
  have hremovals := hc.removals
  constructor
  · rw [← hq.given, ← hq.taken]
    exact q.inOrder
  · omega
  · omega
  · intro i j hi hj
    rw [hx i] at hi
    rw [hx j, hi] at hj
    exact Option.some.inj hj
  · intro i item hpc
    have hroom := hc.room hpc
    rw [← hq.given, ← hq.taken] at hroom
    rw [← Bool.not_eq_true, hq.holds]
    exact hq.ring.ins_free hroom
  · intro i hpc
    have hsome := hc.some hpc
    rw [← hq.given, ← hq.taken] at hsome
    rw [hq.holds]
    exact hq.ring.rem_occupied hsome

end Buffer
end Cab403
