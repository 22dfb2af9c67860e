import Cab403.RoundRobin.Schedule

/-!
# Printing the ready queue

`printLinkedList` follows `nextNode` until it is `NULL`; it is given the head of a queue and knows
no tail. `main` sets the `nextNode` of the job nodes to `NULL` and that of the ready nodes to
nothing, so what the ready queue's tail points to is what `malloc`'s block held, and the printer
stops there exactly if that was `NULL`.

The loop is followed here for its links only (`Fills`), with no policy in sight, so the bursts
may be any `int`. A burst less than a quantum above the least `int` wraps around when the quantum
is taken off, and its job comes back for as many turns as the large burst needs (`quanta`).
-/

namespace Cab403
namespace RoundRobin

open Function

/-! ## The printer -/

/-- The loop of `printLinkedList`: the nodes it prints, in order. -/
def printLoop (node : Heap) : Nat → Addr → Option (List Addr)
  | 0, _ => none
  | fuel + 1, headOfLinkedList =>
    match (node headOfLinkedList).nextNode with
    | none => some [headOfLinkedList]
    | some next => (printLoop node fuel next).map (headOfLinkedList :: ·)

def printLinkedList (node : Heap) (fuel : Nat) : Option Addr → Option (List Addr)
  | none => some []
  | some headOfLinkedList => printLoop node fuel headOfLinkedList

/-- The printer, given the head of the queue, visits the nodes `l` one after the other and stops,
after the tail of the queue if there is one. -/
def Prints (node : Heap) (q : Queue) (l : List Addr) : Prop :=
  (∃ fuel, printLinkedList node fuel q.head = some l) ∧ l.getLast? = q.tail

/-- What is printed is linked, and its last node points nowhere. -/
theorem printLoop_last {node : Heap} {fuel : Nat} {a : Addr} {l : List Addr}
    (h : printLoop node fuel a = some l) : ∃ t, l.getLast? = some t ∧ (node t).nextNode = none := by
  induction fuel generalizing a l with
  | zero => cases h
  | succ fuel ih =>
    unfold printLoop at h
    cases hnext : (node a).nextNode with
    | none =>
      rw [hnext] at h
      cases h
      exact ⟨a, rfl, hnext⟩
    | some b =>
      rw [hnext] at h
      obtain ⟨l', hrest, rfl⟩ := Option.map_eq_some_iff.mp h
      obtain ⟨t, hlast, ht⟩ := ih hrest
      refine ⟨t, ?_, ht⟩
      rw [List.getLast?_cons, hlast]
      rfl

theorem printLoop_linked {node : Heap} {l : List Addr} {a t : Addr}
    (hlinked : (a :: l).IsChain fun a b => (node a).nextNode = some b)
    (hlast : (a :: l).getLast? = some t) (ht : (node t).nextNode = none) :
    printLoop node (l.length + 1) a = some (a :: l) := by
  induction l generalizing a with
  | nil =>
    obtain rfl : a = t := Option.some.inj hlast
    rw [printLoop, ht]
  | cons b l ih =>
    obtain ⟨hab, hrest⟩ := List.isChain_cons_cons.mp hlinked
    rw [List.getLast?_cons_cons] at hlast
    rw [List.length_cons, printLoop, hab]
    exact congrArg (Option.map (a :: ·)) (ih hrest hlast)

/-- **A queue is printed as it is iff its tail points nowhere.** -/
theorem IsQueue.prints_iff {node : Heap} {q : Queue} {l : List Addr} (h : IsQueue node q l) :
    Prints node q l ↔ ∀ t, q.tail = some t → (node t).nextNode = none := by
  unfold Prints
  rw [h.head, h.tail]
  cases l with
  | nil => exact iff_of_true ⟨⟨0, rfl⟩, rfl⟩ nofun
  | cons a l =>
    constructor
    · intro hprints t ht
      obtain ⟨⟨fuel, hfuel⟩, _⟩ := hprints
      obtain ⟨t', hlast, ht'⟩ := printLoop_last hfuel
      obtain rfl := Option.some.inj (ht.symm.trans hlast)
      exact ht'
    · intro hnull
      have hlast := List.getLast?_eq_some_getLast (List.cons_ne_nil a l)
      exact ⟨⟨l.length + 1, printLoop_linked h.linked hlast (hnull _ hlast)⟩, rfl⟩

/-! ## How often the loop is entered -/

/-- How many turns a job with the burst takes: one, and as many more as there are quanta in what the
first leaves. -/
def quanta (burstTime : Int32) : Nat := 1 + (burstTime - quantum).toInt.toNat ⌈/⌉ 20

theorem quanta_pos (b : Int32) : 0 < quanta b :=
  Nat.lt_of_lt_of_le Nat.one_pos (Nat.le_add_right ..)

theorem pos_iff {b : Int32} : b > 0 ↔ 0 < b.toInt := Int32.lt_iff_toInt_lt

/-- A job with time left comes back for one turn less. -/
theorem quanta_back {b : Int32} (h : b - quantum > 0) : quanta b = quanta (b - quantum) + 1 := by
  have hpos := pos_iff.mp h
  unfold quanta
  rw [toInt_sub_quantum (b := b - quantum) (by omega)]
  simp only [Nat.ceilDiv_eq_add_pred_div]
  omega

theorem quanta_done {b : Int32} (h : ¬ b - quantum > 0) : quanta b = 1 := by
  have hneg : (b - quantum).toInt.toNat = 0 := by
    rw [pos_iff] at h
    omega
  unfold quanta
  rw [hneg, Nat.ceilDiv_eq_add_pred_div]

/-- For a burst that is at least a quantum above the least `int`, a turn for each quantum. -/
theorem quanta_eq {b : Int32} (hb : -2147483628 ≤ b.toInt) :
    quanta b = max 1 (b.toInt.toNat ⌈/⌉ 20) := by
  unfold quanta
  rw [toInt_sub_quantum hb]
  simp only [Nat.ceilDiv_eq_add_pred_div]
  omega

/-- A job is done at its first turn iff it has a quantum at most, and the subtraction does not
wrap. -/
theorem not_back_iff {b : Int32} :
    ¬ b - quantum > 0 ↔ -2147483628 ≤ b.toInt ∧ b.toInt ≤ 20 := by
  have hle := Int32.le_toInt b
  rw [pos_iff]
  by_cases hb : -2147483628 ≤ b.toInt
  · rw [toInt_sub_quantum hb]
    omega
  · have hwraps : (b - quantum).toInt = b.toInt - 20 + 2 ^ 32 := by
      rw [Int32.toInt_sub, toInt_quantum, ← Int.add_bmod_right]
      exact Int.bmod_eq_of_le_mul_two (by omega) (by omega)
    omega

/-- The turns of all jobs. -/
def allQuanta (node : Heap) (jobs : List Addr) : Nat :=
  (jobs.map fun a => quanta (node a).burstTime).sum

theorem allQuanta_cons (node : Heap) (a : Addr) (l : List Addr) :
    allQuanta node (a :: l) = quanta (node a).burstTime + allQuanta node l := List.sum_cons

theorem allQuanta_nil (node : Heap) : allQuanta node [] = 0 := rfl

theorem allQuanta_append (node : Heap) (l l' : List Addr) :
    allQuanta node (l ++ l') = allQuanta node l + allQuanta node l' := by
  unfold allQuanta
  rw [List.map_append, List.sum_append]

theorem allQuanta_congr {node node' : Heap} {l : List Addr}
    (h : ∀ a ∈ l, (node' a).burstTime = (node a).burstTime) :
    allQuanta node' l = allQuanta node l := by
  unfold allQuanta
  refine congrArg List.sum (List.map_congr_left fun a ha => ?_)
  rw [h a ha]

/-- Where no subtraction wraps the turns are the iterations of the schedule. -/
theorem allQuanta_eq {node : Heap} {jobs : List Addr}
    (hb : ∀ a ∈ jobs, -2147483628 ≤ (node a).burstTime.toInt) :
    allQuanta node jobs = iterations node jobs :=
  congrArg List.sum (List.map_congr_left fun a ha => quanta_eq (hb a ha))

/-! ## What the loop links -/

/-- The nodes inserted into the ready queue in `n` iterations. -/
def inserted (block : Nat → Addr) (n : Nat) : List Addr := (List.range n).map block

/-- The queues run through live nodes and through the blocks allocated so far, and the last of
these still points where it did. -/
structure Fills {live : List Addr} (m : Malloc live) (node : Heap) (s : State) (js : List Addr) :
    Prop where
  job : IsQueue s.node s.job js
  ready : IsQueue s.node s.ready (inserted m.block s.mallocs)
  nodup : js.Nodup
  live : ∀ a ∈ js, a ∈ live
  unlinked : ∀ k, s.mallocs ≤ k + 1 → (s.node (m.block k)).nextNode = (node (m.block k)).nextNode

section Fills

variable {live : List Addr} {m : Malloc live} {node : Heap} {s : State} {js : List Addr}

theorem mem_inserted (m : Malloc live) {n k : Nat} : m.block k ∈ inserted m.block n ↔ k < n := by
  unfold inserted
  rw [List.mem_map_of_injective m.distinct, List.mem_range]

theorem nodup_inserted (m : Malloc live) (n : Nat) : (inserted m.block n).Nodup :=
  List.nodup_range.map m.distinct

theorem inserted_succ (block : Nat → Addr) (n : Nat) :
    inserted block (n + 1) = inserted block n ++ [block n] := by
  rw [inserted, List.range_succ, List.map_append]
  rfl

theorem Fills.disjoint (h : Fills m node s js) : js.Disjoint (inserted m.block s.mallocs) := by
  intro a hjs ha
  obtain ⟨k, _, rfl⟩ := List.mem_map.mp ha
  exact m.fresh k (h.live _ hjs)

/-- A write that leaves every pointer. -/
theorem Fills.keep (h : Fills m node s js) {node' : Heap}
    (hnext : ∀ a, (node' a).nextNode = (s.node a).nextNode) :
    Fills m node { s with node := node' } js := by
  refine ⟨h.job.frame fun a _ => hnext a, h.ready.frame fun a _ => hnext a, h.nodup, h.live, ?_⟩
  intro k hk
  exact (hnext _).trans (h.unlinked k hk)

theorem nextNode_update {node : Heap} {a : Addr} {n : Node}
    (h : n.nextNode = (node a).nextNode) (b : Addr) :
    (update node a n b).nextNode = (node b).nextNode := by
  by_cases hb : b = a
  · subst hb
    rw [update_self, h]
  · rw [update_of_ne hb]

theorem Fills.giveSlice (h : Fills m node s js) (a : Addr) :
    Fills m node (giveSlice m.block s a) js := by
  have hcopy : Fills m node { s with node := copyJob s.node (m.block s.mallocs) a } js :=
    h.keep (nextNode_update rfl)
  have hnew : m.block s.mallocs ∉ inserted m.block s.mallocs :=
    fun hmem => Nat.lt_irrefl _ ((mem_inserted m).mp hmem)
  refine ⟨hcopy.ready.insert_other hcopy.job h.disjoint.symm _, ?_, h.nodup, h.live, ?_⟩
  · show IsQueue _ _ (inserted m.block (s.mallocs + 1))
    rw [inserted_succ]
    exact hcopy.ready.insert hnew (nodup_inserted m _)
  · intro k hk
    have hk' : m.block k ∉ inserted m.block s.mallocs :=
      fun hmem => Nat.not_lt_of_le (Nat.le_of_succ_le_succ hk) ((mem_inserted m).mp hmem)
    rw [← hcopy.unlinked k (Nat.le_of_succ_le hk)]
    exact congrArg Node.nextNode (hcopy.ready.insertNode_other _ _ hk')

/-- The pointers of the jobs are left alone. -/
theorem Fills.giveSlice_nextNode (h : Fills m node s js) (a : Addr) {b : Addr} (hb : b ∈ live) :
    ((RoundRobin.giveSlice m.block s a).node b).nextNode = (s.node b).nextNode := by
  have hcopy : Fills m node { s with node := copyJob s.node (m.block s.mallocs) a } js :=
    h.keep (nextNode_update rfl)
  have hout : b ∉ inserted m.block s.mallocs := by
    intro hmem
    obtain ⟨k, _, rfl⟩ := List.mem_map.mp hmem
    exact m.fresh k hb
  have hlink : ((RoundRobin.giveSlice m.block s a).node b).nextNode =
      (copyJob s.node (m.block s.mallocs) a b).nextNode :=
    congrArg Node.nextNode (hcopy.ready.insertNode_other _ _ hout)
  rw [hlink, copyJob, nextNode_update (by rfl)]

theorem Fills.insertJob (h : Fills m node s js) {a : Addr} (ha : a ∉ js) (hlive : a ∈ live) :
    Fills m node (insertNodeToJobQueue s a) (js ++ [a]) := by
  refine ⟨h.job.insert ha h.nodup, h.job.insert_other h.ready h.disjoint a, ?_, ?_, ?_⟩
  · exact List.nodup_append'.mpr ⟨h.nodup, List.nodup_singleton a, by simpa using ha⟩
  · intro b hb
    rcases List.mem_append.mp hb with hb | hb
    · exact h.live b hb
    · rwa [List.mem_singleton.mp hb]
  · intro k hk
    rw [← h.unlinked k hk]
    exact congrArg Node.nextNode
      (h.job.insertNode_other _ _ fun hmem => m.fresh k (h.live _ hmem))

/-- A job that has time left goes back. -/
def putBack (burstTime : Int32) (a : Addr) : List Addr :=
  if burstTime - quantum > 0 then [a] else []

theorem Fills.reinsert (h : Fills m node s js) {a : Addr} (ha : a ∉ js) (hlive : a ∈ live)
    {b : Int32} (hb : (s.node a).burstTime = b - quantum) :
    Fills m node (reinsert s a) (js ++ putBack b a) ∧
      (∀ c, ((RoundRobin.reinsert s a).node c).entry = (s.node c).entry) ∧
      ∀ c, c ∉ js ∨ ¬ b - quantum > 0 →
        ((RoundRobin.reinsert s a).node c).nextNode = (s.node c).nextNode := by
  unfold RoundRobin.reinsert putBack
  rw [hb]
  by_cases hpos : b - quantum > 0
  · rw [if_pos hpos, if_pos hpos]
    refine ⟨h.insertJob ha hlive, insertNode_entry s.node s.job a, ?_⟩
    rintro c (hc | hc)
    · exact congrArg Node.nextNode (h.job.insertNode_other a c hc)
    · exact absurd hpos hc
  · rw [if_neg hpos, if_neg hpos, List.append_nil]
    exact ⟨h, fun _ => rfl, fun _ _ => rfl⟩

/-- What an iteration does: the job at the head has a quantum less to run and goes to the tail, or
is done, one more block is in the ready queue, and only a tail that gets a successor is linked. -/
structure Turn (m : Malloc live) (node : Heap) (s : State) (a : Addr) (js : List Addr)
    (t : State) : Prop where
  run : body m.block s = some t
  fills : Fills m node t (js ++ putBack (s.node a).burstTime a)
  mallocs : t.mallocs = s.mallocs + 1
  entry : (t.node a).entry = ((s.node a).processID, ((s.node a).burstTime - quantum).toInt)
  entry_other : ∀ b ∈ live, b ≠ a → (t.node b).entry = (s.node b).entry
  nextNode : ∀ b ∈ live, b ∉ js ∨ ¬ (s.node a).burstTime - quantum > 0 →
    (t.node b).nextNode = (s.node b).nextNode

/-- **An iteration.** -/
theorem Fills.turn {a : Addr} (h : Fills m node s (a :: js)) : ∃ t, Turn m node s a js t := by
  obtain ⟨ha, hnd⟩ := List.nodup_cons.mp h.nodup
  have hlive := h.live a List.mem_cons_self
  obtain ⟨hremoved, hjob⟩ := h.job.remove h.nodup
  have hother : ∀ b ∈ live, b ≠ m.block s.mallocs := by
    rintro b hb rfl
    exact m.fresh _ hb
  have hleft : Fills m node { s with job := (removeHeadNode s.node s.job).2 } js :=
    ⟨hjob, h.ready, hnd, fun b hb => h.live b (List.mem_cons_of_mem _ hb), h.unlinked⟩
  have hslice := hleft.giveSlice a
  have hlinks := fun b (hb : b ∈ live) => hleft.giveSlice_nextNode a hb
  generalize hs₁ : RoundRobin.giveSlice m.block
    { s with job := (removeHeadNode s.node s.job).2 } a = s₁ at hslice hlinks
  have hentries : ∀ b ∈ live, (s₁.node b).entry = (s.node b).entry := by
    intro b hb
    rw [← hs₁]
    exact giveSlice_entry (hother b hb)
  have hcharge : Fills m node (charge s₁ a) js := hslice.keep (nextNode_update rfl)
  have hcharged : ((charge s₁ a).node a).entry =
      ((s.node a).processID, ((s.node a).burstTime - quantum).toInt) := by
    rw [charge_self, ← burst_of_entry (hentries a hlive)]
    exact congrArg (·, _) (congrArg Prod.fst (hentries a hlive))
  obtain ⟨hfills, hentry, hnext⟩ := hcharge.reinsert ha hlive (burst_of_entry hcharged)
  refine ⟨_, ?_, hfills, ?_, (hentry a).trans hcharged, ?_, ?_⟩
  · unfold RoundRobin.body removeJobQueueHeadNode
    rw [hremoved]
    exact congrArg (fun s => some (RoundRobin.reinsert (charge s a) a)) hs₁
  · have hmallocs : (RoundRobin.reinsert (charge s₁ a) a).mallocs = s₁.mallocs := by
      unfold RoundRobin.reinsert
      split <;> rfl
    rw [hmallocs, ← hs₁]
    rfl
  · intro b hb hne
    rw [hentry b, charge_of_ne hne]
    exact hentries b hb
  · intro b hb hkept
    rw [hnext b hkept, charge, nextNode_update (by rfl)]
    exact hlinks b hb

/-- One turn less is left. -/
theorem Turn.allQuanta {a : Addr} {t : State} (h : Fills m node s (a :: js))
    (hturn : Turn m node s a js t) :
    allQuanta t.node (js ++ putBack (s.node a).burstTime a) + 1 = allQuanta s.node (a :: js) := by
  have ha : a ∉ js := (List.nodup_cons.mp h.nodup).1
  have hsame : RoundRobin.allQuanta t.node js = RoundRobin.allQuanta s.node js := by
    apply allQuanta_congr
    intro b hb
    exact burst_of_entry (hturn.entry_other b (h.live b (List.mem_cons_of_mem a hb))
      (ne_of_mem_of_not_mem hb ha))
  have hburst : (t.node a).burstTime = (s.node a).burstTime - quantum := burst_of_entry hturn.entry
  rw [allQuanta_append, hsame, allQuanta_cons, putBack]
  by_cases hback : (s.node a).burstTime - quantum > 0
  · rw [if_pos hback, allQuanta_cons, hburst, allQuanta_nil, quanta_back hback]
    omega
  · rw [if_neg hback, allQuanta_nil, quanta_done hback]
    omega

/-- **The loop ends**, after as many iterations as there are turns. -/
theorem Fills.loop {n : Nat} (h : Fills m node s js) (hn : allQuanta s.node js = n) :
    ∃ s', loop m.block n s = some s' ∧ Fills m node s' [] ∧ s'.mallocs = s.mallocs + n := by
  induction n generalizing s js with
  | zero =>
    cases js with
    | nil => exact ⟨s, if_pos h.job.head, h, rfl⟩
    | cons a js =>
      have hpos := quanta_pos (s.node a).burstTime
      rw [allQuanta_cons] at hn
      omega
  | succ n ih =>
    cases js with
    | nil => cases hn
    | cons a js =>
      obtain ⟨s₁, hturn⟩ := h.turn
      have hiter := hturn.allQuanta h
      have hmallocs := hturn.mallocs
      obtain ⟨s', hloop, hfills', hmallocs'⟩ := ih hturn.fills (by omega)
      refine ⟨s', ?_, hfills', by omega⟩
      have hhead : s.job.head ≠ none := by
        rw [h.job.head]
        exact Option.some_ne_none a
      simp only [RoundRobin.loop, if_neg hhead, hturn.run, Option.bind_some]
      exact hloop

theorem Fills.insertAll {l : List Addr} (h : Fills m node s js) (hnd : (js ++ l).Nodup)
    (hlive : ∀ a ∈ l, a ∈ live) :
    Fills m node (l.foldl insertNodeToJobQueue s) (js ++ l) ∧
    (l.foldl insertNodeToJobQueue s).mallocs = s.mallocs ∧
    ∀ a, ((l.foldl insertNodeToJobQueue s).node a).entry = (s.node a).entry := by
  induction l generalizing s js with
  | nil =>
    rw [List.append_nil]
    exact ⟨h, rfl, fun _ => rfl⟩
  | cons a l ih =>
    have ha : a ∉ js := fun hmem => (List.nodup_append'.mp hnd).2.2 hmem List.mem_cons_self
    rw [List.append_cons] at hnd ⊢
    obtain ⟨hfills, hmallocs, hentry⟩ := ih (h.insertJob ha (hlive a List.mem_cons_self)) hnd
      fun b hb => hlive b (List.mem_cons_of_mem _ hb)
    exact ⟨hfills, hmallocs, fun b => (hentry b).trans (insertNode_entry s.node s.job a b)⟩

end Fills

/-! ## The schedule, printed -/

/-- When the loop ends, the ready queue is the blocks inserted, in order; its tail points where
the last block did. -/
theorem loop_fills {node : Heap} {jobs : List Addr} (m : Malloc jobs) (hnd : jobs.Nodup) :
    ∃ s, loop m.block (allQuanta node jobs) (start node jobs) = some s ∧
      s.mallocs = allQuanta node jobs ∧ Fills m node s [] := by
  have hempty : Fills m node ⟨node, .empty, .empty, 0⟩ [] :=
    ⟨.empty node, .empty node, .nil, nofun, fun _ _ => rfl⟩
  obtain ⟨hfills, hmallocs, hentry⟩ := hempty.insertAll (l := jobs) hnd fun a ha => ha
  have hiter : allQuanta (start node jobs).node jobs = allQuanta node jobs :=
    allQuanta_congr fun a _ => burst_of_entry (hentry a)
  obtain ⟨s, hloop, hend, hcount⟩ := Fills.loop hfills hiter
  exact ⟨s, hloop, by rw [hcount, hmallocs, Nat.zero_add], hend⟩

theorem Fills.prints_iff {live : List Addr} {m : Malloc live} {node : Heap} {s : State}
    (h : Fills m node s []) : Prints s.node s.ready (inserted m.block s.mallocs) ↔
      s.mallocs = 0 ∨ (node (m.block (s.mallocs - 1))).nextNode = none := by
  rw [h.ready.prints_iff, h.ready.tail]
  cases hk : s.mallocs with
  | zero => exact iff_of_true nofun (.inl rfl)
  | succ k =>
    have hlast : (inserted m.block (k + 1)).getLast? = some (m.block k) := by
      rw [inserted_succ, List.getLast?_concat]
    rw [hlast, ← h.unlinked (k + 1 - 1) (by omega)]
    simp

/-- **The schedule is printed iff the last block was `NULL` where `nextNode` is.** -/
theorem print_ready_queue {node : Heap} {jobs : List Addr} (m : Malloc jobs) (hnd : jobs.Nodup) :
    ∃ s, loop m.block (allQuanta node jobs) (start node jobs) = some s ∧
      IsQueue s.node s.ready (inserted m.block (allQuanta node jobs)) ∧
      (Prints s.node s.ready (inserted m.block (allQuanta node jobs)) ↔
        jobs = [] ∨ (node (m.block (allQuanta node jobs - 1))).nextNode = none) := by
  obtain ⟨s, hloop, hcount, hfills⟩ := @loop_fills node jobs m hnd
  have hnone : allQuanta node jobs = 0 ↔ jobs = [] := by
    cases jobs with
    | nil => exact iff_of_true rfl rfl
    | cons a jobs =>
      have hpos := quanta_pos (node a).burstTime
      rw [allQuanta_cons]
      exact iff_of_false (by omega) (List.cons_ne_nil _ _)
  refine ⟨s, hloop, ?_, ?_⟩
  · rw [← hcount]
    exact hfills.ready
  · rw [← hnone, ← hcount]
    exact hfills.prints_iff

/-- The last of the five blocks as `calloc` would give it. -/
theorem print_ready_queue_zeroed :
    ∃ s, loop blocksFrom100.block 5 (start (update threeJobs 104 ⟨0, 0, none⟩) [0, 1, 2]) = some s ∧
      Prints s.node s.ready [100, 101, 102, 103, 104] := by
  obtain ⟨s, hloop, _, hiff⟩ := @print_ready_queue (update threeJobs 104 ⟨0, 0, none⟩) [0, 1, 2]
    blocksFrom100 (by decide)
  exact ⟨s, hloop, hiff.mpr (.inr rfl)⟩

/-- The blocks of `threeJobs` point to a node of the job queue: the printer goes on there. -/
theorem print_ready_queue_garbage :
    ∃ s, loop blocksFrom100.block 5 (start threeJobs [0, 1, 2]) = some s ∧
      ¬ Prints s.node s.ready (inserted blocksFrom100.block 5) := by
  obtain ⟨s, hloop, hcount, hfills⟩ :=
    @loop_fills threeJobs [0, 1, 2] blocksFrom100 (by decide)
  have hfive : s.mallocs = 5 := hcount
  have hiff := hfills.prints_iff
  rw [hfive] at hiff
  refine ⟨s, hloop, fun hprints => ?_⟩
  rcases hiff.mp hprints with hzero | hnull
  · cases hzero
  · cases hnull

end RoundRobin
end Cab403
