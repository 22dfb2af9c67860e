import Cab403.Lib.RoundRobin
import Cab403.RoundRobin.Queue
import Mathlib.Algebra.BigOperators.Ring.Finset
import Mathlib.GroupTheory.GroupAction.Ring

/-!
# The scheduling loop

`main` takes the job at the head of the job queue, copies it into a node fresh from `malloc` with
a slice of one quantum at most, appends that node to the ready queue, takes the quantum off the
job and puts the job back if there is time left. The nodes are updated in place and every
`nextNode` but those the two insertions write is whatever was there before.

The loop is the round-robin policy of `Lib.RoundRobin`, step for step: `Runs` says that the two
queues are threaded through disjoint nodes and hold the policy's jobs and slices, `body_step` that
an iteration keeps that.
-/

namespace Cab403
namespace RoundRobin

open Function Lib.RoundRobin

/-! ## The program -/

structure State where
  node : Heap
  job : Queue
  ready : Queue
  mallocs : Nat

/-- The blocks `malloc` hands out while the nodes `live` are in use and nothing is freed. -/
structure Malloc (live : List Addr) where
  block : Nat → Addr
  distinct : Injective block
  fresh : ∀ k, block k ∉ live

def insertNodeToJobQueue (s : State) (jobQueueNode : Addr) : State :=
  { s with
    node := (insertNode s.node s.job jobQueueNode).1
    job := (insertNode s.node s.job jobQueueNode).2 }

def insertNodeToReadyQueue (s : State) (newReadyQueueNode : Addr) : State :=
  { s with
    node := (insertNode s.node s.ready newReadyQueueNode).1
    ready := (insertNode s.node s.ready newReadyQueueNode).2 }

def removeJobQueueHeadNode (s : State) : Option Addr × State :=
  ((removeHeadNode s.node s.job).1, { s with job := (removeHeadNode s.node s.job).2 })

def quantum : Int32 := 20

theorem toInt_quantum : quantum.toInt = 20 := rfl

theorem toInt_sub_quantum {b : Int32} (hb : -2147483628 ≤ b.toInt) :
    (b - quantum).toInt = b.toInt - 20 := by
  have hle := Int32.toInt_lt b
  rw [Int32.toInt_sub, toInt_quantum]
  exact Int.bmod_eq_of_le_mul_two (by omega) (by omega)

/-- `readyQueueProcess->processID = …;` and `readyQueueProcess->burstTime = …;` -/
def copyJob (node : Heap) (readyQueueProcess jobQueueProcess : Addr) : Heap :=
  update node readyQueueProcess
    { node readyQueueProcess with
      processID := (node jobQueueProcess).processID
      burstTime :=
        if (node jobQueueProcess).burstTime ≥ quantum then quantum
        else (node jobQueueProcess).burstTime }

/-- The slice of the job: a copy of it, at most a quantum long, in the ready queue. -/
def giveSlice (block : Nat → Addr) (s : State) (jobQueueProcess : Addr) : State :=
  let readyQueueProcess := block s.mallocs
  insertNodeToReadyQueue
    { s with
      node := copyJob s.node readyQueueProcess jobQueueProcess
      mallocs := s.mallocs + 1 }
    readyQueueProcess

/-- `jobQueueProcess->burstTime -= quantum;`, which wraps around below the least `int`. -/
def charge (s : State) (jobQueueProcess : Addr) : State :=
  { s with
    node := update s.node jobQueueProcess
      { s.node jobQueueProcess with burstTime := (s.node jobQueueProcess).burstTime - quantum } }

/-- `if (jobQueueProcess->burstTime > 0) insertNodeToJobQueue(jobQueueProcess);` -/
def reinsert (s : State) (jobQueueProcess : Addr) : State :=
  if (s.node jobQueueProcess).burstTime > 0 then insertNodeToJobQueue s jobQueueProcess else s

/-- The body of the loop; `none` is the dereference of a null `jobQueueProcess`. -/
def body (block : Nat → Addr) (s : State) : Option State :=
  match removeJobQueueHeadNode s with
  | (none, _) => none
  | (some jobQueueProcess, s) =>
    some (reinsert (charge (giveSlice block s jobQueueProcess) jobQueueProcess) jobQueueProcess)

/-- `while (jobQueueHead != NULL)` with exactly `n` iterations: `some` of the state in which the
test fails for the first time, if that is after `n` of them. -/
def loop (block : Nat → Addr) : Nat → State → Option State
  | 0, s => if s.job.head = none then some s else none
  | n + 1, s => if s.job.head = none then none else (body block s).bind (loop block n)

/-- The job queue built from the nodes, one `insertNodeToJobQueue` after the other. -/
def start (node : Heap) (jobs : List Addr) : State :=
  jobs.foldl insertNodeToJobQueue ⟨node, .empty, .empty, 0⟩

/-! ## The loop is the policy -/

/-- The entries of the policy, as the program holds them. -/
def ints (l : List (UInt8 × Nat)) : List (UInt8 × Int) := l.map fun j => (j.1, (j.2 : Int))

def entries (node : Heap) (l : List Addr) : List (UInt8 × Int) := l.map fun a => (node a).entry

/-- The program's queues run through the nodes `js` and `rs` and hold what the policy's do. -/
structure Threads {live : List Addr} (m : Malloc live) (s : State) (js rs : List Addr)
    (p : Sched UInt8) : Prop where
  job : IsQueue s.node s.job js
  ready : IsQueue s.node s.ready rs
  nodup : (js ++ rs).Nodup
  fresh : ∀ k, s.mallocs ≤ k → m.block k ∉ js ++ rs
  jobs_eq : entries s.node js = ints p.jobs
  ready_eq : entries s.node rs = ints p.ready

theorem entries_congr {node node' : Heap} {l : List Addr}
    (h : ∀ a ∈ l, (node' a).entry = (node a).entry) : entries node' l = entries node l :=
  List.map_congr_left h

theorem copyJob_of_ne {node : Heap} {r j a : Addr} (h : a ≠ r) : copyJob node r j a = node a :=
  update_of_ne h _ _

theorem charge_of_ne {s : State} {j a : Addr} (h : a ≠ j) : (charge s j).node a = s.node a :=
  update_of_ne h _ _

theorem giveSlice_entry {block : Nat → Addr} {s : State} {j a : Addr}
    (h : a ≠ block s.mallocs) : ((giveSlice block s j).node a).entry = (s.node a).entry := by
  show ((insertNode _ _ _).1 a).entry = _
  rw [insertNode_entry]
  exact congrArg Node.entry (copyJob_of_ne h)

theorem charge_self (s : State) (a : Addr) :
    (charge s a).node a = { s.node a with burstTime := (s.node a).burstTime - quantum } :=
  update_self a _ s.node

theorem copyJob_self (node : Heap) (a j : Addr) :
    (copyJob node a j a).entry = ((node j).processID, min 20 (node j).burstTime.toInt) := by
  rw [copyJob, update_self]
  refine congrArg (Prod.mk (node j).processID) ?_
  show Int32.toInt (if quantum ≤ (node j).burstTime then quantum else (node j).burstTime) = _
  have hle : quantum ≤ (node j).burstTime ↔ 20 ≤ (node j).burstTime.toInt :=
    Int32.le_iff_toInt_le
  rw [apply_ite Int32.toInt, toInt_quantum, min_def]
  exact if_congr hle rfl rfl

theorem insertNode_entries (node : Heap) (q : Queue) (a : Addr) (l : List Addr) :
    entries (insertNode node q a).1 l = entries node l :=
  entries_congr fun b _ => insertNode_entry node q a b

namespace Threads

variable {live : List Addr} {m : Malloc live} {s : State} {js rs : List Addr} {p : Sched UInt8}

/-- The fresh node gets its slice and goes to the ready queue. -/
theorem giveSlice (h : Threads m s js rs p) {a : Addr} {k : UInt8} {b : Nat}
    (ha : (s.node a).entry = (k, (b : Int))) :
    Threads m (giveSlice m.block s a) js (rs ++ [m.block s.mallocs])
      ⟨p.jobs, p.ready ++ [(k, min 20 b)]⟩ := by
  have hnew : m.block s.mallocs ∉ js ++ rs := h.fresh _ (Nat.le_refl _)
  have hnewjs : m.block s.mallocs ∉ js := fun hm => hnew (List.mem_append_left _ hm)
  have hnewrs : m.block s.mallocs ∉ rs := fun hm => hnew (List.mem_append_right _ hm)
  obtain ⟨hjs, hrs, hdisj⟩ := List.nodup_append'.mp h.nodup
  -- the write to the fresh node touches neither queue
  have hjob := h.job.update_of_not_mem hnewjs
  have hready := h.ready.update_of_not_mem hnewrs
  constructor
  · exact (hready _).insert_other (hjob _) hdisj.symm _
  · exact (hready _).insert hnewrs hrs
  · rw [← List.append_assoc]
    exact List.nodup_append'.mpr ⟨h.nodup, List.nodup_singleton _, by simpa using hnew⟩
  · intro i hi hmem
    rw [← List.append_assoc, List.mem_append, List.mem_singleton] at hmem
    rcases hmem with hold | hlast
    · exact h.fresh i (Nat.le_of_succ_le hi) hold
    · exact absurd (m.distinct hlast) (Nat.ne_of_gt hi)
  · show entries (insertNode _ _ _).1 js = ints p.jobs
    rw [insertNode_entries, ← h.jobs_eq]
    apply entries_congr
    intro c hc
    exact congrArg Node.entry (copyJob_of_ne (ne_of_mem_of_not_mem hc hnewjs))
  · have hcopy : (copyJob s.node (m.block s.mallocs) a (m.block s.mallocs)).entry =
        (k, ((min 20 b : Nat) : Int)) := by
      obtain ⟨hid, hburst⟩ := Prod.mk.inj ha
      rw [copyJob_self, hid, hburst]
      exact congrArg (Prod.mk k) (by omega)
    show entries (insertNode _ _ _).1 (rs ++ [m.block s.mallocs]) = _
    rw [insertNode_entries, entries, List.map_append, ints, List.map_append]
    congr 1
    · show entries _ rs = ints p.ready
      rw [← h.ready_eq]
      apply entries_congr
      intro c hc
      exact congrArg Node.entry (copyJob_of_ne (ne_of_mem_of_not_mem hc hnewrs))
    · exact congrArg (fun e => [e]) hcopy

/-- A burst the policy has does not wrap. -/
theorem charge_entry {s : State} {a : Addr} {k : UInt8} {b : Nat}
    (h : (s.node a).entry = (k, (b : Int))) :
    ((RoundRobin.charge s a).node a).entry = (k, (b : Int) - 20) := by
  obtain ⟨hid, hburst⟩ := Prod.mk.inj h
  rw [charge_self, Node.entry, hid, toInt_sub_quantum (by omega), hburst]

/-- Taking the quantum off a node outside the queues. -/
theorem charge (h : Threads m s js rs p) {a : Addr} (ha : a ∉ js ++ rs) :
    Threads m (charge s a) js rs p := by
  have hajs : a ∉ js := fun hm => ha (List.mem_append_left _ hm)
  have hars : a ∉ rs := fun hm => ha (List.mem_append_right _ hm)
  refine ⟨h.job.update_of_not_mem hajs _, h.ready.update_of_not_mem hars _, h.nodup, h.fresh,
    ?_, ?_⟩
  · rw [← h.jobs_eq]
    apply entries_congr
    intro c hc
    exact congrArg Node.entry (charge_of_ne (ne_of_mem_of_not_mem hc hajs))
  · rw [← h.ready_eq]
    apply entries_congr
    intro c hc
    exact congrArg Node.entry (charge_of_ne (ne_of_mem_of_not_mem hc hars))

/-- A node outside the queues goes to the back of the job queue. -/
theorem insertJob (h : Threads m s js rs p) {a : Addr} (ha : a ∉ js ++ rs)
    (hblock : ∀ k, s.mallocs ≤ k → m.block k ≠ a) {k : UInt8} {b : Nat}
    (hentry : (s.node a).entry = (k, (b : Int))) :
    Threads m (insertNodeToJobQueue s a) (js ++ [a]) rs ⟨p.jobs ++ [(k, b)], p.ready⟩ := by
  have hajs : a ∉ js := fun hm => ha (List.mem_append_left _ hm)
  have hars : a ∉ rs := fun hm => ha (List.mem_append_right _ hm)
  obtain ⟨hjs, hrs, hdisj⟩ := List.nodup_append'.mp h.nodup
  constructor
  · exact h.job.insert hajs hjs
  · exact h.job.insert_other h.ready hdisj a
  · rw [List.append_assoc, List.singleton_append]
    exact List.nodup_middle.mpr (List.nodup_cons.mpr ⟨ha, h.nodup⟩)
  · intro i hi hmem
    rw [List.append_assoc, List.singleton_append, List.mem_append, List.mem_cons] at hmem
    rcases hmem with hold | hnew | hold
    · exact h.fresh i hi (List.mem_append_left _ hold)
    · exact hblock i hi hnew
    · exact h.fresh i hi (List.mem_append_right _ hold)
  · show entries (insertNode _ _ _).1 (js ++ [a]) = _
    rw [insertNode_entries, entries, List.map_append, ints, List.map_append]
    congr 1
    · exact h.jobs_eq
    · exact congrArg (fun e => [e]) hentry
  · show entries (insertNode _ _ _).1 rs = _
    rw [insertNode_entries]
    exact h.ready_eq

/-- What is left of the job's burst decides whether it goes back. -/
theorem reinsert (h : Threads m s js rs p) {a : Addr} (ha : a ∉ js ++ rs)
    (hblock : ∀ k, s.mallocs ≤ k → m.block k ≠ a) {k : UInt8} {b : Nat}
    (hentry : (s.node a).entry = (k, (b : Int) - 20)) :
    ∃ js', Threads m (reinsert s a) js' rs ⟨p.jobs ++ rest 20 (k, b), p.ready⟩ := by
  have hburst : (s.node a).burstTime > 0 ↔ 0 < (b : Int) - 20 := by
    rw [gt_iff_lt, Int32.lt_iff_toInt_lt, show (s.node a).burstTime.toInt = _ from
      congrArg Prod.snd hentry]
    rfl
  unfold RoundRobin.reinsert rest
  by_cases hb : 20 < b
  · have hleft : ((b - 20 : Nat) : Int) = (b : Int) - 20 := by omega
    rw [if_pos (hburst.mpr (by omega)), if_pos hb]
    exact ⟨js ++ [a], h.insertJob ha hblock (by rw [hentry, hleft])⟩
  · rw [if_neg fun hpos => hb (by have := hburst.mp hpos; omega), if_neg hb, List.append_nil]
    exact ⟨js, h⟩

end Threads

/-- **An iteration is a step of the policy.** -/
theorem body_step {live : List Addr} {m : Malloc live} {s : State} {js rs : List Addr}
    {p p' : Sched UInt8} (h : Threads m s js rs p) (hp : step 20 p = some p') :
    s.job.head ≠ none ∧ ∃ s' js' rs', body m.block s = some s' ∧ Threads m s' js' rs' p' := by
  obtain ⟨jobs, ready⟩ := p
  cases jobs with
  | nil => cases hp
  | cons j jobs =>
    obtain ⟨k, b⟩ := j
    cases hp
    cases js with
    | nil => cases h.jobs_eq
    | cons a js =>
      obtain ⟨hentry, hjobs⟩ := List.cons.inj h.jobs_eq
      obtain ⟨ha, hnd⟩ := List.nodup_cons.mp h.nodup
      obtain ⟨hremoved, hjob⟩ := h.job.remove (List.nodup_append'.mp h.nodup).1
      have hblock : ∀ i, s.mallocs ≤ i → m.block i ≠ a := by
        intro i hi heq
        exact h.fresh i hi (heq ▸ List.mem_cons_self)
      have hane : a ≠ m.block s.mallocs := (hblock _ (Nat.le_refl _)).symm
      have hrem : removeJobQueueHeadNode s =
          (some a, { s with job := (removeHeadNode s.node s.job).2 }) := by
        unfold removeJobQueueHeadNode
        rw [hremoved]
      -- the job leaves its queue, its slice goes to the other, the quantum goes off it
      have h1 : Threads m { s with job := (removeHeadNode s.node s.job).2 } js rs ⟨jobs, ready⟩ :=
        ⟨hjob, h.ready, hnd, fun i hi hm => h.fresh i hi (List.mem_cons_of_mem _ hm), hjobs,
          h.ready_eq⟩
      have h2 := h1.giveSlice hentry
      have ha2 : a ∉ js ++ (rs ++ [m.block s.mallocs]) := by
        rw [← List.append_assoc, List.mem_append, List.mem_singleton, not_or]
        exact ⟨ha, hane⟩
      have hentry2 : ((giveSlice m.block { s with job := (removeHeadNode s.node s.job).2 } a).node
          a).entry = _ := (giveSlice_entry hane).trans hentry
      obtain ⟨js', h4⟩ := (h2.charge ha2).reinsert ha2
        (fun i hi => hblock i (Nat.le_of_succ_le hi)) (Threads.charge_entry hentry2)
      refine ⟨?_, _, js', _, ?_, h4⟩
      · rw [h.job.head]
        exact Option.some_ne_none a
      · unfold body
        rw [hrem]

/-- The whole loop, from where the policy runs to an empty queue. -/
theorem loop_steps {live : List Addr} {m : Malloc live} {n : Nat} {ready : List (UInt8 × Nat)}
    {s : State} {js rs : List Addr} {p : Sched UInt8} (h : Threads m s js rs p)
    (hp : steps 20 n p = some ⟨[], ready⟩) :
    ∃ s' rs', loop m.block n s = some s' ∧ Threads m s' [] rs' ⟨[], ready⟩ := by
  induction n generalizing s js rs p with
  | zero =>
    cases hp
    cases js with
    | nil => exact ⟨s, rs, if_pos h.job.head, h⟩
    | cons a js => cases h.jobs_eq
  | succ n ih =>
    obtain ⟨p', hstep, hrest⟩ := Option.bind_eq_some_iff.mp hp
    obtain ⟨hhead, s', js', rs', hbody, h'⟩ := body_step h hstep
    obtain ⟨t, rt, hloop, ht⟩ := ih h' hrest
    refine ⟨t, rt, ?_, ht⟩
    simp only [loop, if_neg hhead, hbody, Option.bind_some]
    exact hloop

/-! ## The initial queue -/

/-- A job as the policy sees it. -/
def job (node : Heap) (a : Addr) : UInt8 × Nat :=
  ((node a).processID, (node a).burstTime.toInt.toNat)

theorem threads_insertAll {live : List Addr} {m : Malloc live} {node : Heap} {l : List Addr}
    {s : State} {js : List Addr} {p : Sched UInt8} (h : Threads m s js [] p)
    (hnd : (js ++ l).Nodup) (hlive : ∀ a ∈ l, a ∈ live)
    (hentry : ∀ a ∈ l, (s.node a).entry = ((job node a).1, ((job node a).2 : Int))) :
    Threads m (l.foldl insertNodeToJobQueue s) (js ++ l) []
      ⟨p.jobs ++ l.map (job node), p.ready⟩ := by
  induction l generalizing s js p with
  | nil =>
    rw [List.map_nil, List.append_nil, List.append_nil]
    exact h
  | cons a l ih =>
    have ha : a ∉ js ++ [] := by
      rw [List.append_nil]
      intro hm
      exact (List.nodup_append'.mp hnd).2.2 hm List.mem_cons_self
    have hblock : ∀ k, s.mallocs ≤ k → m.block k ≠ a := by
      intro k _ heq
      exact m.fresh k (heq ▸ hlive a List.mem_cons_self)
    have h' := h.insertJob ha hblock (hentry a List.mem_cons_self)
    rw [List.append_cons] at hnd
    rw [List.append_cons js, List.map_cons, List.append_cons p.jobs]
    refine ih h' hnd (fun b hb => hlive b (List.mem_cons_of_mem _ hb)) ?_
    intro b hb
    have hsame : ((insertNodeToJobQueue s a).node b).entry = (s.node b).entry :=
      insertNode_entry _ _ _ _
    rw [hsame]
    exact hentry b (List.mem_cons_of_mem _ hb)

theorem threads_start {node : Heap} {jobs : List Addr} (m : Malloc jobs) (hnd : jobs.Nodup)
    (hb : ∀ a ∈ jobs, 0 ≤ (node a).burstTime.toInt) :
    Threads m (start node jobs) jobs [] ⟨jobs.map (job node), []⟩ := by
  have h0 : Threads m ⟨node, .empty, .empty, 0⟩ [] [] ⟨[], []⟩ :=
    ⟨.empty node, .empty node, .nil, fun _ _ hm => absurd hm List.not_mem_nil, rfl, rfl⟩
  apply threads_insertAll h0 hnd fun a ha => ha
  intro a ha
  simp only [Node.entry, job, Int.toNat_of_nonneg (hb a ha)]

/-! ## The schedule -/

/-- A job is in round `r` if it has more than `20r` to run; every job is in the first. -/
def dueIn (node : Heap) (r : Nat) (a : Addr) : Bool :=
  r = 0 ∨ 20 * (r : Int) < (node a).burstTime.toInt

/-- Its slice there: a quantum, or what is left. -/
def sliceOf (node : Heap) (r : Nat) (a : Addr) : Int := min 20 ((node a).burstTime.toInt - 20 * r)

/-- What round `r` puts into the ready queue. -/
def roundOf (node : Heap) (jobs : List Addr) (r : Nat) : List (UInt8 × Int) :=
  (jobs.filter (dueIn node r)).map fun a => ((node a).processID, sliceOf node r a)

/-- The slices a job gets in the first `R` rounds. -/
def slicesOf (node : Heap) (R : Nat) (a : Addr) : List Int :=
  ((List.range R).filter fun r => dueIn node r a).map fun r => sliceOf node r a

theorem due_job {node : Heap} {a : Addr} (hb : 0 ≤ (node a).burstTime.toInt) (r : Nat) :
    due 20 r (job node a).2 = dueIn node r a := by
  have hlt : (20 * r < (node a).burstTime.toInt.toNat) ↔
      20 * (r : Int) < (node a).burstTime.toInt := by omega
  rw [Bool.eq_iff_iff]
  simp [due, dueIn, job, hlt, -Int32.toNat_toInt]

theorem slice_job {node : Heap} {a : Addr} (hb : 0 ≤ (node a).burstTime.toInt) {r : Nat}
    (hdue : dueIn node r a = true) :
    ((slice 20 r (job node a).2 : Nat) : Int) = sliceOf node r a := by
  have hdue' := of_decide_eq_true hdue
  simp only [slice, job, sliceOf]
  omega

theorem ints_round {node : Heap} {jobs : List Addr} (hb : ∀ a ∈ jobs, 0 ≤ (node a).burstTime.toInt)
    (r : Nat) : ints (roundSlices 20 (jobs.map (job node)) r) = roundOf node jobs r := by
  have hfilter : jobs.filter ((fun j => due 20 r j.2) ∘ job node) =
      jobs.filter (dueIn node r) := List.filter_congr fun a ha => due_job (hb a ha) r
  unfold ints roundSlices roundOf
  rw [List.filter_map, hfilter, List.map_map, List.map_map]
  apply List.map_congr_left
  intro a ha
  obtain ⟨hmem, hdue⟩ := List.mem_filter.mp ha
  exact Prod.ext rfl (slice_job (hb a hmem) hdue)

theorem ints_rounds {node : Heap} {jobs : List Addr} (hb : ∀ a ∈ jobs, 0 ≤ (node a).burstTime.toInt)
    (R : Nat) : ints ((List.range R).flatMap (roundSlices 20 (jobs.map (job node)))) =
      (List.range R).flatMap (roundOf node jobs) := by
  unfold ints
  rw [List.map_flatMap]
  exact congrArg (List.flatMap · _) (funext fun r => ints_round hb r)

/-- **The slices of a job add up to its burst.** -/
theorem sum_slicesOf {node : Heap} {a : Addr} (hb : 0 ≤ (node a).burstTime.toInt) {R : Nat}
    (hR : (node a).burstTime.toInt ≤ 20 * R) :
    (slicesOf node R a).sum = (node a).burstTime.toInt := by
  have hfilter : ((List.range R).filter fun r => due 20 r (job node a).2) =
      (List.range R).filter fun r => dueIn node r a := List.filter_congr fun r _ => due_job hb r
  have hslices : slicesOf node R a =
      (((List.range R).filter fun r => due 20 r (job node a).2).map
        fun r => slice 20 r (job node a).2).map Nat.cast := by
    rw [hfilter, List.map_map]
    apply List.map_congr_left
    intro r hr
    exact (slice_job hb (List.mem_filter.mp hr).2).symm
  rw [hslices, ← Nat.cast_list_sum, sum_slices]
  simp only [job]
  omega

/-- One iteration for each slice: `⌈b / 20⌉` for each job, and one at least. -/
def iterations (node : Heap) (jobs : List Addr) : Nat :=
  (jobs.map fun a => max 1 ((node a).burstTime.toInt.toNat ⌈/⌉ 20)).sum

theorem steps_iterations {node : Heap} {jobs : List Addr} {R : Nat} (hR : 0 < R)
    (hfit : ∀ a ∈ jobs, (node a).burstTime.toInt ≤ 20 * R) :
    steps 20 (iterations node jobs) ⟨jobs.map (job node), []⟩ =
      some ⟨[], (List.range R).flatMap (roundSlices 20 (jobs.map (job node)))⟩ := by
  have hturns : totalTurns 20 (jobs.map (job node)) = iterations node jobs := by
    unfold totalTurns iterations
    rw [List.map_map]
    rfl
  rw [← hturns]
  refine steps_rounds (by decide) R _ [] ?_ (fun h0 => absurd h0 (Nat.ne_of_gt hR))
  intro j hj
  obtain ⟨a, ha, rfl⟩ := List.mem_map.mp hj
  have := hfit a ha
  simp only [job]
  omega

/-- Every burst fits into some number of rounds. -/
theorem exists_rounds (node : Heap) (jobs : List Addr) :
    ∃ R : Nat, 0 < R ∧ ∀ a ∈ jobs, (node a).burstTime.toInt ≤ 20 * (R : Int) := by
  induction jobs with
  | nil => exact ⟨1, by decide, fun a ha => absurd ha List.not_mem_nil⟩
  | cons b jobs ih =>
    obtain ⟨R, hR, hfit⟩ := ih
    refine ⟨R + (node b).burstTime.toInt.toNat, by omega, ?_⟩
    intro a ha
    rcases List.mem_cons.mp ha with rfl | ha
    · omega
    · have := hfit a ha
      omega

/-- **The ready queue is the round-robin schedule**, after exactly one iteration for each slice,
whatever the nodes' links and `malloc`'s blocks held before. -/
theorem ready_queue_round_robin {node : Heap} {jobs : List Addr} (m : Malloc jobs)
    (hnd : jobs.Nodup) (hb : ∀ a ∈ jobs, 0 ≤ (node a).burstTime.toInt) :
    ∃ s, loop m.block (iterations node jobs) (start node jobs) = some s ∧
      s.job = Queue.empty ∧
      ∀ R : Nat, 0 < R → (∀ a ∈ jobs, (node a).burstTime.toInt ≤ 20 * (R : Int)) →
        readQueue s.node s.ready (iterations node jobs) =
            some ((List.range R).flatMap (roundOf node jobs)) ∧
          ∀ a ∈ jobs, (slicesOf node R a).sum = (node a).burstTime.toInt := by
  obtain ⟨R₀, hR₀, hfit₀⟩ := exists_rounds node jobs
  have hsteps₀ := steps_iterations hR₀ hfit₀
  obtain ⟨s, rs, hloop, h⟩ := loop_steps (threads_start m hnd hb) hsteps₀
  refine ⟨s, hloop, h.job.eq_empty, ?_⟩
  intro R hR hfit
  refine ⟨?_, fun a ha => sum_slicesOf (hb a ha) (hfit a ha)⟩
  -- however many rounds are counted, the policy's ready list is the one the loop has built
  have hready : (List.range R₀).flatMap (roundSlices 20 (jobs.map (job node))) =
      (List.range R).flatMap (roundSlices 20 (jobs.map (job node))) :=
    congrArg Sched.ready (Option.some.inj (hsteps₀.symm.trans (steps_iterations hR hfit)))
  have hlen : rs.length = iterations node jobs := by
    have hpolicy := steps_length hsteps₀
    have hentries := congrArg List.length h.ready_eq
    simp only [entries, ints, List.length_map, List.length_nil] at hentries hpolicy
    omega
  rw [h.ready.read (List.nodup_append'.mp h.nodup).2.1 (Nat.le_of_eq hlen), ← ints_rounds hb,
    ← hready]
  exact congrArg some h.ready_eq

/-- Nodes `0`, `1` and `2` hold the jobs, with bursts of `45`, `0` and `20`. -/
def threeJobs : Heap
  | 0 => ⟨65, 45, some 7⟩
  | 1 => ⟨66, 0, none⟩
  | 2 => ⟨67, 20, some 0⟩
  | _ => ⟨0, 0, some 2⟩

def blocksFrom100 : Malloc [0, 1, 2] where
  block k := 100 + k
  distinct := fun _ _ h => Nat.add_left_cancel h
  fresh := by
    intro k hk
    have hle : 100 + k ≤ 2 := (by decide : ∀ a ∈ [0, 1, 2], a ≤ 2) _ hk
    omega

theorem ready_queue_round_robin_three :
    ∃ s, loop blocksFrom100.block 5 (start threeJobs [0, 1, 2]) = some s ∧
      readQueue s.node s.ready 5 = some [(65, 20), (66, 0), (67, 20), (65, 20), (65, 5)] := by
  obtain ⟨s, hloop, _, hread⟩ :=
    @ready_queue_round_robin threeJobs [0, 1, 2] blocksFrom100 (by decide) (by decide)
  exact ⟨s, hloop, (hread 3 (by decide) (by decide)).1⟩

end RoundRobin
end Cab403
