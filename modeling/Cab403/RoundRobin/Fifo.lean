import Cab403.RoundRobin.Schedule

/-!
# The job queue is a queue

`insertNodeToJobQueue` and `removeJobQueueHeadNode`, called in any order on any nodes, as long as
a node is not inserted while it is in the queue. A node that comes back still points to the node
it was in front of, and so does the tail of the queue then; but what follows the tail is decided
by the tail pointer, and no call follows the link. So the two functions are the operations of a
list (`Call.spec`) whatever the nodes hold.
-/

namespace Cab403
namespace RoundRobin

/-! ## Calls -/

inductive Call where
  | insert (jobQueueNode : Addr)
  | remove
  deriving DecidableEq, Repr

/-- What a call returns, and what it leaves. -/
def Call.run : Call → State → List (Option Addr) × State
  | .insert a, s => ([], insertNodeToJobQueue s a)
  | .remove, s => ([(removeJobQueueHeadNode s).1], (removeJobQueueHeadNode s).2)

/-- What it is to do to a list. -/
def Call.spec : Call → List Addr → List (Option Addr) × List Addr
  | .insert a, l => ([], l ++ [a])
  | .remove, l => ([l.head?], l.tail)

/-- Where a call may be made. -/
def Call.Allowed : Call → List Addr → Prop
  | .insert a, l => a ∉ l
  | .remove, _ => True

section Runs

variable {σ : Type}

/-- The calls one after the other: what they return, and what they leave. -/
def runCalls (run : Call → σ → List (Option Addr) × σ) :
    List Call → σ → List (Option Addr) × σ
  | [], s => ([], s)
  | c :: cs, s => ((run c s).1 ++ (runCalls run cs (run c s).2).1, (runCalls run cs (run c s).2).2)

end Runs

/-- Each call is made where it may be. -/
def AllAllowed : List Call → List Addr → Prop
  | [], _ => True
  | c :: cs, l => c.Allowed l ∧ AllAllowed cs (c.spec l).2

def Call.inserted : Call → List Addr
  | .insert a => [a]
  | .remove => []

/-- The nodes inserted, in order. -/
def insertions (cs : List Call) : List Addr := cs.flatMap Call.inserted

/-- The nodes removed, in order. -/
def removals (returned : List (Option Addr)) : List Addr := returned.filterMap id

/-! ## One call -/

/-- The job queue runs through the nodes `l`, once through each. -/
structure Queued (s : State) (l : List Addr) : Prop where
  queue : IsQueue s.node s.job l
  nodup : l.Nodup

theorem Queued.insert {s : State} {l : List Addr} (h : Queued s l) {a : Addr} (ha : a ∉ l) :
    Queued (insertNodeToJobQueue s a) (l ++ [a]) := by
  refine ⟨h.queue.insert ha h.nodup, ?_⟩
  exact List.nodup_append'.mpr ⟨h.nodup, List.nodup_singleton a, by simpa using ha⟩

theorem Queued.remove {s : State} {l : List Addr} (h : Queued s l) :
    (removeJobQueueHeadNode s).1 = l.head? ∧ Queued (removeJobQueueHeadNode s).2 l.tail := by
  cases l with
  | nil =>
    have hempty : removeJobQueueHeadNode s = (none, s) := by
      obtain ⟨node, job, ready, mallocs⟩ := s
      obtain rfl := h.queue.eq_empty
      rfl
    rw [hempty]
    exact ⟨rfl, h⟩
  | cons a l =>
    obtain ⟨hremoved, hqueue⟩ := h.queue.remove h.nodup
    exact ⟨hremoved, hqueue, (List.nodup_cons.mp h.nodup).2⟩

/-- **A call does to the queue what it is to do to the list.** -/
theorem Queued.run {s : State} {l : List Addr} (h : Queued s l) {c : Call} (hc : c.Allowed l) :
    (c.run s).1 = (c.spec l).1 ∧ Queued (c.run s).2 (c.spec l).2 := by
  cases c with
  | insert a => exact ⟨rfl, h.insert hc⟩
  | remove =>
    obtain ⟨hremoved, hqueued⟩ := h.remove
    exact ⟨congrArg (fun r => [r]) hremoved, hqueued⟩

/-! ## Any sequence of calls -/

theorem Queued.runCalls {cs : List Call} {s : State} {l : List Addr} (h : Queued s l)
    (hcs : AllAllowed cs l) :
    (runCalls Call.run cs s).1 = (runCalls Call.spec cs l).1 ∧
      Queued (runCalls Call.run cs s).2 (runCalls Call.spec cs l).2 := by
  induction cs generalizing s l with
  | nil => exact ⟨rfl, h⟩
  | cons c cs ih =>
    obtain ⟨hreturned, hqueued⟩ := h.run hcs.1
    obtain ⟨hrest, hlast⟩ := ih hqueued hcs.2
    refine ⟨?_, hlast⟩
    show (c.run s).1 ++ _ = (c.spec l).1 ++ _
    rw [hreturned, hrest]

/-- What was there and what is inserted comes out in that order, or is still there. -/
theorem spec_conserves (c : Call) (l : List Addr) :
    l ++ c.inserted = removals (c.spec l).1 ++ (c.spec l).2 := by
  cases c with
  | insert a => rfl
  | remove => cases l <;> simp [Call.inserted, Call.spec, removals]

theorem runCalls_conserves (cs : List Call) (l : List Addr) :
    l ++ insertions cs = removals (runCalls Call.spec cs l).1 ++ (runCalls Call.spec cs l).2 := by
  induction cs generalizing l with
  | nil => simp [insertions, runCalls, removals]
  | cons c cs ih =>
    have hrest := ih (c.spec l).2
    simp only [insertions, removals] at hrest ⊢
    have hc := spec_conserves c l
    calc l ++ (c :: cs).flatMap Call.inserted
        = l ++ c.inserted ++ cs.flatMap Call.inserted := by simp
      _ = removals (c.spec l).1 ++ ((c.spec l).2 ++ cs.flatMap Call.inserted) := by simp [hc]
      _ = _ := by rw [hrest]; simp [runCalls, removals]

/-- **First in, first out.** From an empty queue, whatever the nodes hold: the calls return what
they would on a list, the nodes removed and the nodes queued are the nodes inserted, in order, and
the queue is threaded through the latter. -/
theorem job_queue_fifo {s : State} (hs : s.job = Queue.empty) {cs : List Call}
    (hcs : AllAllowed cs []) :
    (runCalls Call.run cs s).1 = (runCalls Call.spec cs []).1 ∧
      insertions cs = removals (runCalls Call.run cs s).1 ++ (runCalls Call.spec cs []).2 ∧
      IsQueue (runCalls Call.run cs s).2.node (runCalls Call.run cs s).2.job
        (runCalls Call.spec cs []).2 := by
  have hstart : Queued s [] := ⟨hs ▸ IsQueue.empty s.node, List.nodup_nil⟩
  obtain ⟨hreturned, hqueued⟩ := hstart.runCalls hcs
  refine ⟨hreturned, ?_, hqueued.queue⟩
  rw [hreturned]
  exact runCalls_conserves cs []

/-- Node `0` leaves the queue, points to node `1` still, and comes back. -/
theorem job_queue_fifo_reinserted :
    (runCalls Call.run [.remove, .insert 0, .insert 1, .remove, .insert 0, .remove, .remove]
      ⟨threeJobs, .empty, .empty, 0⟩).1 = [none, some 0, some 1, some 0] :=
  (@job_queue_fifo ⟨threeJobs, .empty, .empty, 0⟩ rfl
    [.remove, .insert 0, .insert 1, .remove, .insert 0, .remove, .remove]
    (by simp [AllAllowed, Call.Allowed, Call.spec])).1

end RoundRobin
end Cab403
