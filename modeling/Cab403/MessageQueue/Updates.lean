import Cab403.MessageQueue.Threads

/-!
# Updates one at a time

An update of the queue goes from the read of `position` to the last of its two accesses. Where each
update begins with none in progress, a producer's below `BUFFER_SIZE` and a consumer's above zero,
the slots below `position` are a stack (`Holds`): of messages stored and not taken. While a thread
is in the middle of its update the stack is one off from `position`, on the side its program point
says (`Pc.Settled`); no other thread touches either then.

Neither half of the condition is met by the code. The consumer waits while there *is* a message
and goes on when there is none, and nothing keeps two updates apart.
-/

namespace Cab403
namespace MessageQueue

open Function Lib

/-! ## The stack -/

/-- The messages below `position`, bottom first, each with its mark: all of them stored, none of
them taken, and no two the same. -/
structure Holds (m : Queue) (l : List (Option Nat × Int)) : Prop where
  slots : ∀ k < l.length, l[k]? = some (m.mark k, m.buffer k)
  fits : (l.length : Int) ≤ BUFFER_SIZE
  stored : ∀ x ∈ m.taken ++ l, ∃ n, x.1 = some n ∧ m.stored[n]? = some x.2
  once : ((m.taken ++ l).map Prod.fst).Nodup
  accessed : ∀ i ∈ m.accessed, 0 ≤ i ∧ i < BUFFER_SIZE

theorem Holds.store {m : Queue} {l : List (Option Nat × Int)} (h : Holds m l)
    (hroom : (l.length : Int) < BUFFER_SIZE) (message : Int) :
    Holds (m.store l.length message) (l ++ [(some m.stored.length, message)]) := by
  have hlt : ∀ {n x}, m.stored[n]? = some x → n < m.stored.length :=
    fun hn => (List.getElem?_eq_some_iff.mp hn).1
  refine ⟨?_, ?_, ?_, ?_, ?_⟩
  · intro k hk
    rw [List.length_append, List.length_singleton] at hk
    show _ = some (update m.mark l.length (some m.stored.length) k,
      update m.buffer l.length message k)
    by_cases hlast : k = l.length
    · rw [hlast, List.getElem?_concat_length, update_self, update_self]
    · have hbelow : k < l.length := by omega
      have hne : (k : Int) ≠ l.length := by omega
      rw [List.getElem?_append_left hbelow, update_of_ne hne, update_of_ne hne]
      exact h.slots k hbelow
  · rw [List.length_append, List.length_singleton]
    omega
  · intro x hx
    show ∃ n, x.1 = some n ∧ (m.stored ++ [message])[n]? = some x.2
    rw [← List.append_assoc] at hx
    rcases List.mem_append.mp hx with hold | hnew
    · obtain ⟨n, hn, hx⟩ := h.stored x hold
      exact ⟨n, hn, by rw [List.getElem?_append_left (hlt hx), hx]⟩
    · rw [List.mem_singleton.mp hnew]
      exact ⟨m.stored.length, rfl, List.getElem?_concat_length⟩
  · show ((m.taken ++ (l ++ [(some m.stored.length, message)])).map Prod.fst).Nodup
    rw [← List.append_assoc, List.map_append]
    refine List.nodup_append.mpr ⟨h.once, by simp, ?_⟩
    -- the mark of a new store is past every mark there is
    rintro a ha b hb rfl
    obtain ⟨x, hx, rfl⟩ := List.mem_map.mp ha
    obtain ⟨n, hn, hstored⟩ := h.stored x hx
    rw [List.map_singleton, List.mem_singleton, hn] at hb
    have hlt' := hlt hstored
    have heq := Option.some.inj hb
    omega
  · intro i hi
    rcases List.mem_append.mp hi with hold | hnew
    · exact h.accessed i hold
    · rw [List.mem_singleton.mp hnew]
      omega

theorem Holds.take {m : Queue} {l : List (Option Nat × Int)} {x : Option Nat × Int}
    (h : Holds m (l ++ [x])) : Holds (m.take l.length) l := by
  have hlen : l.length < (l ++ [x]).length := by simp
  have htop : x = (m.mark l.length, m.buffer l.length) := by
    have hslot := h.slots l.length hlen
    rw [List.getElem?_concat_length] at hslot
    exact Option.some.inj hslot
  have hfits := h.fits
  rw [List.length_append, List.length_singleton] at hfits
  have hperm : ((m.take l.length).taken ++ l).Perm (m.taken ++ (l ++ [x])) := by
    show ((m.taken ++ [(m.mark l.length, m.buffer l.length)]) ++ l).Perm _
    rw [← htop, List.append_assoc]
    exact (List.perm_append_comm).append_left _
  refine ⟨?_, by omega, ?_, ?_, ?_⟩
  · intro k hk
    have hbelow : (l ++ [x])[k]? = l[k]? := List.getElem?_append_left hk
    rw [← hbelow]
    exact h.slots k (by omega)
  · intro y hy
    exact h.stored y (hperm.mem_iff.mp hy)
  · exact (hperm.map Prod.fst).nodup_iff.mpr h.once
  · intro i hi
    rcases List.mem_append.mp hi with hold | hnew
    · exact h.accessed i hold
    · rw [List.mem_singleton.mp hnew]
      omega

/-! ## One update -/

/-- The stack is `level` high, and `position` says `position`. -/
def Holding (m : Queue) (level position : Int) : Prop :=
  (∃ l, Holds m l ∧ (l.length : Int) = level) ∧ m.position = position

theorem Holding.fits {m : Queue} {p q : Int} (h : Holding m p q) : 0 ≤ p ∧ p ≤ BUFFER_SIZE := by
  obtain ⟨⟨l, hl, rfl⟩, _⟩ := h
  exact ⟨Int.natCast_nonneg _, hl.fits⟩

theorem Holding.store {m : Queue} {p q : Int} (h : Holding m p q) (hroom : p < BUFFER_SIZE)
    (message : Int) : Holding (m.store p message) (p + 1) q := by
  obtain ⟨⟨l, hl, rfl⟩, hq⟩ := h
  refine ⟨⟨_, hl.store hroom message, ?_⟩, hq⟩
  rw [List.length_append, List.length_singleton]
  omega

theorem Holding.take {m : Queue} {p q : Int} (h : Holding m p q) (hsome : 0 < p) :
    Holding (m.take (p - 1)) (p - 1) q := by
  obtain ⟨⟨l, hl, rfl⟩, hq⟩ := h
  rcases List.eq_nil_or_concat l with rfl | ⟨l, x, rfl⟩
  · exact absurd hsome (Int.lt_irrefl 0)
  · rw [List.concat_eq_append] at hl ⊢
    have hlen : (((l ++ [x]).length : Nat) : Int) - 1 = l.length := by
      rw [List.length_append, List.length_singleton]
      omega
    rw [hlen]
    exact ⟨⟨l, hl.take, rfl⟩, hq⟩

theorem Holding.move {m : Queue} {p q : Int} (h : Holding m p q) (r : Int) :
    Holding { m with position := r } p r := by
  obtain ⟨⟨l, hl, hlen⟩, _⟩ := h
  exact ⟨⟨l, ⟨hl.slots, hl.fits, hl.stored, hl.once, hl.accessed⟩, hlen⟩, rfl⟩

/-- The two flags have no part in it. -/
theorem Holding.flags {m : Queue} {p q : Int} (h : Holding m p q) (run room : Bool) :
    Holding { m with keepRunning := run, isRoom := room } p q := by
  obtain ⟨⟨l, hl, hlen⟩, hq⟩ := h
  exact ⟨⟨l, ⟨hl.slots, hl.fits, hl.stored, hl.once, hl.accessed⟩, hlen⟩, hq⟩

theorem Holding.settle {m : Queue} {p : Int} (h : Holding m p p) :
    Holding m m.position m.position := by
  rw [h.2]
  exact h

/-- The thread is between its read of `position` and the last of its two accesses. -/
def Pc.InUpdate : Pc → Prop
  | .prodUpdate _ _ | .prodMove _ | .prodStore _ _ => True
  | .consUpdate _ | .consMove _ _ | .consTake _ => True
  | _ => False

/-- What the queue looks like to the thread whose update is in progress, if one is. -/
def Pc.Settled (m : Queue) : Pc → Prop
  | .prodUpdate _ p => p < BUFFER_SIZE ∧ Holding m p p
  | .prodMove p => (0 ≤ p ∧ p < BUFFER_SIZE) ∧ Holding m (p + 1) p
  | .prodStore _ p => p < BUFFER_SIZE ∧ Holding m p (p + 1)
  | .consUpdate p => 0 < p ∧ Holding m p p
  | .consMove p _ => (0 < p ∧ p ≤ BUFFER_SIZE) ∧ Holding m (p - 1) p
  | .consTake p => 0 < p ∧ Holding m p (p - 1)
  | _ => Holding m m.position m.position

theorem Pc.Settled.of_not_inUpdate {m : Queue} {p : Pc} (h : p.Settled m) (hp : ¬ p.InUpdate) :
    Holding m m.position m.position := by
  cases p with
  | prodUpdate _ _ | prodMove _ | prodStore _ _ => exact absurd trivial hp
  | consUpdate _ | consMove _ _ | consTake _ => exact absurd trivial hp
  | _ => exact h

theorem Pc.Settled.flags {m : Queue} {p : Pc} (h : p.Settled m) (run room : Bool) :
    p.Settled { m with keepRunning := run, isRoom := room } := by
  cases p with
  | prodUpdate _ _ | prodMove _ | prodStore _ _ => exact ⟨h.1, h.2.flags run room⟩
  | consUpdate _ | consMove _ _ | consTake _ => exact ⟨h.1, h.2.flags run room⟩
  | _ => exact Holding.flags h run room

/-- A step of the update keeps the stack, whichever access comes first. -/
theorem Pc.Settled.advance {m m' : Queue} {p p' : Pc} {time : Int} {accessFirst : Bool}
    (h : p.Settled m) (hp : p.InUpdate)
    (hstep : MessageQueue.advance time accessFirst m p = some (m', p')) : p'.Settled m' := by
  cases p with
  | prodUpdate message p =>
    obtain ⟨hroom, hm⟩ := h
    cases accessFirst with
    | true =>
      cases hstep
      exact ⟨⟨hm.fits.1, hroom⟩, hm.store hroom message⟩
    | false =>
      cases hstep
      exact ⟨hroom, hm.move _⟩
  | prodMove p =>
    cases hstep
    exact h.2.move _
  | prodStore message p =>
    cases hstep
    exact (h.2.store h.1 message).settle
  | consUpdate p =>
    obtain ⟨hsome, hm⟩ := h
    cases accessFirst with
    | true =>
      cases hstep
      exact ⟨⟨hsome, hm.fits.2⟩, hm.take hsome⟩
    | false =>
      cases hstep
      exact ⟨hsome, hm.move _⟩
  | consMove p message =>
    cases hstep
    exact h.2.move _
  | consTake p =>
    cases hstep
    exact (h.2.take h.1).settle
  | _ => exact absurd hp id

/-! ## The other steps -/

/-- The next step is the read of `position` that begins an update. -/
def Pc.Begins : Pc → Prop
  | .prodLoad _ | .consLoad => True
  | _ => False

/-- There is room for the message of a producer, or a message for a consumer. -/
def Pc.CanUpdate (m : Queue) : Pc → Prop
  | .prodLoad _ => m.position < BUFFER_SIZE
  | .consLoad => 0 < m.position
  | _ => True

theorem settled_begins {m m' : Queue} {p p' : Pc} {time : Int} {accessFirst : Bool}
    (h : Holding m m.position m.position) (hp : p.Begins) (hcan : p.CanUpdate m)
    (hstep : advance time accessFirst m p = some (m', p')) : m' = m ∧ p'.Settled m := by
  cases p with
  | prodLoad message =>
    cases hstep
    exact ⟨rfl, hcan, h⟩
  | consLoad =>
    cases hstep
    exact ⟨rfl, hcan, h⟩
  | _ => exact absurd hp id

/-- Any other step leaves `position` and the buffer alone. -/
theorem advance_outside {m m' : Queue} {p p' : Pc} {time : Int} {accessFirst : Bool}
    (hp : ¬ p.InUpdate) (hbegins : ¬ p.Begins)
    (hstep : advance time accessFirst m p = some (m', p')) :
    ¬ p'.InUpdate ∧
      ∃ room, m' = { m with keepRunning := m.keepRunning, isRoom := room } := by
  cases p with
  | prodLoop | prodWait _ | prodTest | consLoop | consWait =>
    cases hstep
    refine ⟨?_, _, rfl⟩
    split <;> exact id
  | prodReport | prodFull | consRoom _ | consReport _ =>
    cases hstep
    exact ⟨id, _, rfl⟩
  | returned => cases hstep
  | prodLoad _ | consLoad => exact absurd trivial hbegins
  | _ => exact absurd trivial hp

/-! ## Runs -/

section Run

variable {ι : Type*} {s t : State ι} {e : Event ι}

/-- A thread begins its update with none in progress, and only if it can make it. -/
def Guarded (s : State ι) (e : Event ι) (_ : State ι) : Prop :=
  match e with
  | .stop => True
  | .thread i _ _ =>
    (s.pc i).Begins → (s.pc i).CanUpdate s.queue ∧ ∀ j, ¬ (s.pc j).InUpdate

/-- At most one update is in progress, and its thread knows how far it has come. -/
inductive Inv (s : State ι) : Prop
  | free (hnone : ∀ j, ¬ (s.pc j).InUpdate)
      (h : Holding s.queue s.queue.position s.queue.position)
  | held (i : ι) (hi : (s.pc i).InUpdate) (hothers : ∀ j, j ≠ i → ¬ (s.pc j).InUpdate)
      (h : (s.pc i).Settled s.queue)

theorem Inv.of_settled {i : ι} (hothers : ∀ j, j ≠ i → ¬ (s.pc j).InUpdate)
    (h : (s.pc i).Settled s.queue) : Inv s := by
  by_cases hi : (s.pc i).InUpdate
  · exact .held i hi hothers h
  · refine .free (fun j => ?_) (h.of_not_inUpdate hi)
    by_cases hj : j = i
    · rw [hj]
      exact hi
    · exact hothers j hj

theorem inv_initial (role : ι → Role) (buffer : Int → Int) : Inv (initial role buffer) := by
  refine .free (fun j => ?_) ⟨⟨[], ?_, rfl⟩, rfl⟩
  · show ¬ (role j).start.InUpdate
    cases role j <;> exact id
  · exact ⟨nofun, by decide, nofun, List.nodup_nil, nofun⟩

theorem Inv.flags (h : Inv s) (run room : Bool) (main : MainPc) :
    Inv ⟨{ s.queue with keepRunning := run, isRoom := room }, main, s.pc⟩ := by
  cases h with
  | free hnone h => exact .free hnone (h.flags run room)
  | held i hi hothers h => exact .held i hi hothers (h.flags run room)

section Step

variable [DecidableEq ι]

/-- A thread outside its update goes on, outside. -/
theorem Inv.goto (h : Inv s) {i : ι} {p : Pc} (hin : ¬ (s.pc i).InUpdate) (hout : ¬ p.InUpdate) :
    Inv ⟨s.queue, s.main, update s.pc i p⟩ := by
  have hstill : ∀ {j}, ¬ (s.pc j).InUpdate → ¬ (update s.pc i p j).InUpdate := by
    intro j hj
    by_cases hji : j = i
    · subst hji
      rw [update_self]
      exact hout
    · rw [update_of_ne hji]
      exact hj
  cases h with
  | free hnone h => exact .free (fun j => hstill (hnone j)) h
  | held k hk hothers h =>
    have hki : k ≠ i := fun heq => hin (heq ▸ hk)
    have hpc : update s.pc i p k = s.pc k := update_of_ne hki ..
    refine .held k ?_ (fun j hj => hstill (hothers j hj)) ?_
    · show (update s.pc i p k).InUpdate
      rw [hpc]
      exact hk
    · show (update s.pc i p k).Settled _
      rw [hpc]
      exact h

/-- The one thread in its update goes on, or one begins with no other in its update. -/
theorem Inv.moves {i : ι} {m : Queue} {p : Pc} (hothers : ∀ j, j ≠ i → ¬ (s.pc j).InUpdate)
    (hp : p.Settled m) : Inv ⟨m, s.main, update s.pc i p⟩ := by
  refine .of_settled (i := i) (fun j hj => ?_) ?_
  · show ¬ (update s.pc i p j).InUpdate
    rw [update_of_ne hj]
    exact hothers j hj
  · show (update s.pc i p i).Settled m
    rw [update_self]
    exact hp

theorem inv_step (hs : Inv s) (hst : Step s e t) (hguard : Guarded s e t) : Inv t := by
  cases e with
  | stop =>
    obtain ⟨_, rfl⟩ := step_stop hst
    exact hs.flags false s.queue.isRoom .joining
  | thread i time accessFirst =>
    obtain ⟨m, p, hadv, rfl⟩ := step_thread hst
    by_cases hbegins : (s.pc i).Begins
    · obtain ⟨hcan, hnone⟩ := hguard hbegins
      cases hs with
      | free _ h =>
        obtain ⟨rfl, hp⟩ := settled_begins h hbegins hcan hadv
        exact .moves (fun j _ => hnone j) hp
      | held k hk _ _ => exact absurd hk (hnone k)
    · by_cases hin : (s.pc i).InUpdate
      · cases hs with
        | free hnone _ => exact absurd hin (hnone i)
        | held k hk hothers h =>
          by_cases hik : i = k
          · subst hik
            exact .moves hothers (h.advance hin hadv)
          · exact absurd hin (hothers i hik)
      · obtain ⟨hout, room, rfl⟩ := advance_outside hin hbegins hadv
        exact (hs.flags s.queue.keepRunning room s.main).goto hin hout

end Step

/-- What the queue is to be: its index on the array, its accesses within it, and each message
taken one that was stored, and not taken before. -/
structure Safe (m : Queue) : Prop where
  position : 0 ≤ m.position ∧ m.position ≤ BUFFER_SIZE
  accessed : ∀ i ∈ m.accessed, 0 ≤ i ∧ i < BUFFER_SIZE
  stored : ∀ x ∈ m.taken, ∃ n, x.1 = some n ∧ m.stored[n]? = some x.2
  once : (m.taken.map Prod.fst).Nodup

theorem Holding.safe {m : Queue} {p q : Int} (h : Holding m p q)
    (hq : 0 ≤ q ∧ q ≤ BUFFER_SIZE) : Safe m := by
  obtain ⟨⟨l, hl, _⟩, rfl⟩ := h
  refine ⟨hq, hl.accessed, fun x hx => hl.stored x (List.mem_append_left l hx), ?_⟩
  have honce := hl.once
  rw [List.map_append] at honce
  exact (List.nodup_append.mp honce).1

theorem Pc.Settled.safe {m : Queue} {p : Pc} (h : p.Settled m) : Safe m := by
  cases p with
  | prodUpdate message p => exact h.2.safe h.2.fits
  | prodMove p => exact h.2.safe ⟨h.1.1, Int.le_of_lt h.1.2⟩
  | prodStore message p =>
    have hfits := h.2.fits
    have hroom := h.1
    exact h.2.safe ⟨by omega, by omega⟩
  | consUpdate p => exact h.2.safe h.2.fits
  | consMove p message => exact h.2.safe ⟨Int.le_of_lt h.1.1, h.1.2⟩
  | consTake p =>
    have hfits := h.2.fits
    have hsome := h.1
    exact h.2.safe ⟨by omega, by omega⟩
  | _ => exact Holding.safe h (Holding.fits h)

/-- **Neither bound can be spared.** A thread that begins an update it cannot make breaks the queue
with its first access, whatever the others do in between. -/
theorem not_safe_of_not_canUpdate {m₁ m₁' m₂ m₂' : Queue} {p p₁ p₂ : Pc} {time₁ time₂ : Int}
    {first₁ first₂ : Bool} (hsafe : Safe m₁) (hcannot : ¬ p.CanUpdate m₁)
    (hbegin : advance time₁ first₁ m₁ p = some (m₁', p₁))
    (haccess : advance time₂ first₂ m₂ p₁ = some (m₂', p₂)) : ¬ Safe m₂' := by
  obtain ⟨hlow, hhigh⟩ := hsafe.position
  intro hsafe'
  cases p with
  | prodLoad message =>
    have hfull : ¬ m₁.position < BUFFER_SIZE := hcannot
    cases hbegin
    cases first₂ with
    | true =>
      cases haccess
      have haccessed := (hsafe'.accessed m₁.position (List.mem_append_right _ (by simp))).2
      exact hfull haccessed
    | false =>
      cases haccess
      have hposition : m₁.position + 1 ≤ BUFFER_SIZE := hsafe'.position.2
      omega
  | consLoad =>
    have hempty : ¬ 0 < m₁.position := hcannot
    cases hbegin
    cases first₂ with
    | true =>
      cases haccess
      have haccessed := (hsafe'.accessed (m₁.position - 1) (List.mem_append_right _ (by simp))).1
      omega
    | false =>
      cases haccess
      have hposition : 0 ≤ m₁.position - 1 := hsafe'.position.1
      omega
  | _ => exact hcannot trivial

theorem Inv.safe (h : Inv s) : Safe s.queue := by
  cases h with
  | free _ h => exact h.safe h.fits
  | held i _ _ h => exact h.safe

variable [DecidableEq ι]

/-- **Updates one at a time are safe.** With any number of producers and consumers, if every update
begins with none in progress, a producer's below `BUFFER_SIZE` and a consumer's above zero, then
the queue is what it is to be in every state. -/
theorem updates_safe (role : ι → Role) (buffer : Int → Int) {tr : List (Event ι × State ι)}
    (h : Trace Step (initial role buffer) tr)
    (hguard : AllSteps Guarded (initial role buffer) tr) :
    AllStates (fun s => Safe s.queue) (initial role buffer) tr := by
  have hall := (h.restrict hguard).allStates (I := Inv)
    (fun s e t hs hst => inv_step hs hst.1 hst.2) (inv_initial role buffer)
  exact hall.imp fun s hs => hs.safe

/-- A consumer that has passed its wait takes the message a producer then stores. -/
def handover : List (Event Role) :=
  List.replicate 2 (.thread .consumer 0 true) ++ List.replicate 5 (.thread .producer 7 false) ++
    List.replicate 3 (.thread .consumer 0 true)

theorem updates_safe_handover : ∃ tr : List (Event Role × State Role),
    (lastState (initial id fun _ => 0) tr).queue.taken = [(some 0, 7)] ∧
    AllStates (fun s => Safe s.queue) (initial id fun _ => 0) tr := by
  have htr := follow_trace State.step (initial id fun _ => 0) handover
  have hnone : ∀ {s : State Role}, ¬ (s.pc .producer).InUpdate → ¬ (s.pc .consumer).InUpdate →
      ∀ j, ¬ (s.pc j).InUpdate := by
    intro s hproducer hconsumer j
    cases j with
    | producer => exact hproducer
    | consumer => exact hconsumer
  have hroom : (0 : Int) < BUFFER_SIZE := by decide
  have hsome : (0 : Int) < 1 := by decide
  refine ⟨_, by decide, updates_safe id _ htr ⟨False.elim, False.elim, False.elim, False.elim,
    fun _ => ⟨hroom, hnone id id⟩, False.elim, False.elim, fun _ => ⟨hsome, hnone id id⟩,
    False.elim, False.elim, trivial⟩⟩

/-- A consumer alone finds no message, goes on, and reads the slot below the first. -/
theorem updates_safe_fails : ¬ ∀ (role : Role → Role) (buffer : Int → Int)
    (tr : List (Event Role × State Role)), Trace Step (initial role buffer) tr →
      AllStates (fun s => Safe s.queue) (initial role buffer) tr := by
  intro hall
  have htr := follow_trace State.step (initial id fun _ => 0)
    (List.replicate 4 (.thread .consumer 0 true))
  have hsafe := (hall id _ _ htr).last
  have hbelow := (hsafe.accessed (-1) (by decide)).1
  exact absurd hbelow (by decide)

end Run

end MessageQueue
end Cab403
