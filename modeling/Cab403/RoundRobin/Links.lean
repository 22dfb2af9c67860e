import Cab403.RoundRobin.Print

/-!
# Printing the job queue

At the start of an iteration the job queue is the one of the policy: from its head to its tail,
the jobs with what they have left, in order (`Holds`). `printLinkedList` looks for no tail, though,
it goes on to a `NULL`. `main` sets the `nextNode` of a job to `NULL` before the job is inserted
for the first time, and not when it comes back: then the job points to the one it was in front of,
which is the head now, and the queue is printed for ever. Whether a job comes back behind another
is decided by the bursts (`job_queue_prints_iff`).

As in `Cab403.RoundRobin.Print` the bursts may be any `int`.
-/

namespace Cab403
namespace RoundRobin

open Function

/-! ## The jobs -/

/-- A job as `main` makes it: the block it is in, and what it is given. -/
structure Process where
  block : Addr
  processID : UInt8
  burstTime : Int32
  deriving DecidableEq, Repr

/-- The body of the first loop of `main`. -/
def create (s : State) (p : Process) : State :=
  insertNodeToJobQueue { s with node := update s.node p.block ⟨p.processID, p.burstTime, none⟩ }
    p.block

/-- The initial job queue. -/
def createAll (node : Heap) (ps : List Process) : State :=
  ps.foldl create ⟨node, .empty, .empty, 0⟩

/-- The state at the start of the `n`-th iteration, if there is one. -/
def iteration (block : Nat → Addr) : Nat → State → Option State
  | 0, s => if s.job.head = none then none else some s
  | n + 1, s => if s.job.head = none then none else (body block s).bind (iteration block n)

/-! ## The queue of the header comment -/

/-- The job at the head takes a quantum, and goes to the tail with the rest. -/
def turn : List Process → List Process
  | [] => []
  | p :: ps =>
    ps ++ if p.burstTime - quantum > 0 then [{ p with burstTime := p.burstTime - quantum }] else []

theorem turn_back {p : Process} (h : p.burstTime - quantum > 0) (ps : List Process) :
    turn (p :: ps) = ps ++ [{ p with burstTime := p.burstTime - quantum }] := by
  rw [turn, if_pos h]

theorem turn_done {p : Process} (h : ¬ p.burstTime - quantum > 0) (ps : List Process) :
    turn (p :: ps) = ps := by
  rw [turn, if_neg h, List.append_nil]

/-- The job queue is `ps`, each job in its block. -/
structure Holds {live : List Addr} (m : Malloc live) (node : Heap) (s : State)
    (ps : List Process) : Prop where
  fills : Fills m node s (ps.map Process.block)
  entry : ∀ p ∈ ps, (s.node p.block).entry = (p.processID, p.burstTime.toInt)

/-- The tail points nowhere. -/
def Ends (s : State) : Prop := ∀ t, s.job.tail = some t → (s.node t).nextNode = none

section Holds

variable {live : List Addr} {m : Malloc live} {node : Heap} {s t : State} {p : Process}
  {ps : List Process}

theorem Holds.prints_iff (h : Holds m node s ps) :
    Prints s.node s.job (ps.map Process.block) ↔ Ends s := h.fills.job.prints_iff

theorem Holds.head_ne (h : Holds m node s (p :: ps)) : s.job.head ≠ none := by
  rw [h.fills.job.head]
  exact Option.some_ne_none _

theorem Holds.burst (h : Holds m node s (p :: ps)) : (s.node p.block).burstTime = p.burstTime :=
  burst_of_entry (h.entry p List.mem_cons_self)

/-- The queue after an iteration. -/
theorem Holds.turn (h : Holds m node s (p :: ps))
    (hturn : Turn m node s p.block (ps.map Process.block) t) : Holds m node t (turn (p :: ps)) := by
  have hp : p.block ∉ ps.map Process.block := (List.nodup_cons.mp h.fills.nodup).1
  have hlive : ∀ q ∈ p :: ps, q.block ∈ live :=
    fun q hq => h.fills.live _ (List.mem_map_of_mem hq)
  constructor
  · have hfills := hturn.fills
    rw [h.burst] at hfills
    by_cases hback : p.burstTime - quantum > 0
    · rw [putBack, if_pos hback] at hfills
      rw [turn_back hback, List.map_append]
      exact hfills
    · rw [putBack, if_neg hback, List.append_nil] at hfills
      rw [turn_done hback]
      exact hfills
  · intro q hq
    rcases List.mem_append.mp hq with hold | hback
    · have hne : q.block ≠ p.block := ne_of_mem_of_not_mem (List.mem_map_of_mem hold) hp
      rw [hturn.entry_other _ (hlive q (List.mem_cons_of_mem p hold)) hne]
      exact h.entry q (List.mem_cons_of_mem p hold)
    · split at hback
      · rw [List.mem_singleton.mp hback]
        show (t.node p.block).entry = _
        rw [hturn.entry, h.burst]
        exact congrArg (·, _) (congrArg Prod.fst (h.entry p List.mem_cons_self))
      · cases hback

/-! ## The link of the tail -/

theorem Turn.tail (hturn : Turn m node s p.block (ps.map Process.block) t) :
    t.job.tail =
      (ps.map Process.block ++ putBack (s.node p.block).burstTime p.block).getLast? :=
  hturn.fills.job.tail

/-- A job that comes back behind another one points to it. -/
theorem Holds.not_ends {q : Process} (h : Holds m node s (p :: q :: ps))
    (hturn : Turn m node s p.block ((q :: ps).map Process.block) t)
    (hback : p.burstTime - quantum > 0) :
    ¬ Ends t := by
  intro hends
  have hp : p.block ∉ (q :: ps).map Process.block := (List.nodup_cons.mp h.fills.nodup).1
  have hlast : t.job.tail = some p.block := by
    rw [hturn.tail, h.burst, putBack, if_pos hback, List.getLast?_concat]
  have hkept := hturn.nextNode p.block (h.fills.live _ List.mem_cons_self) (.inl hp)
  have hlinked : (s.node p.block).nextNode = some q.block :=
    (List.isChain_cons_cons.mp h.fills.job.linked).1
  rw [hends p.block hlast, hlinked] at hkept
  cases hkept

/-- Otherwise the tail stays, or was alone. -/
theorem Holds.ends (h : Holds m node s (p :: ps))
    (hturn : Turn m node s p.block (ps.map Process.block) t)
    (hback : ps = [] ∨ ¬ p.burstTime - quantum > 0) (hends : Ends s) : Ends t := by
  intro last hlast
  have hsame : s.job.tail = some last := by
    rw [h.fills.job.tail, List.map_cons]
    rw [hturn.tail, h.burst, putBack] at hlast
    cases ps with
    | nil =>
      split at hlast
      · exact hlast
      · cases hlast
    | cons q ps =>
      have hdone : ¬ p.burstTime - quantum > 0 := hback.resolve_left (List.cons_ne_nil q ps)
      rw [if_neg hdone, List.append_nil] at hlast
      rw [List.map_cons, List.getLast?_cons_cons, ← List.map_cons]
      exact hlast
  have hmem : last ∈ (p :: ps).map Process.block :=
    List.mem_of_mem_getLast? (h.fills.job.tail ▸ hsame)
  rw [hturn.nextNode last (h.fills.live last hmem) ?_]
  · exact hends last hsame
  · rw [h.burst]
    refine hback.imp_left fun hnil => ?_
    rw [hnil]
    exact List.not_mem_nil

/-! ## All iterations -/

theorem Holds.iteration_nil (h : Holds m node s []) (n : Nat) :
    iteration m.block n s = none := by
  have hhead : s.job.head = none := h.fills.job.head
  cases n with
  | zero => exact if_pos hhead
  | succ n => exact if_pos hhead

theorem Holds.iteration_zero (h : Holds m node s (p :: ps)) :
    iteration m.block 0 s = some s := if_neg h.head_ne

theorem Holds.iteration_succ (h : Holds m node s (p :: ps))
    (hturn : Turn m node s p.block (ps.map Process.block) t) (n : Nat) :
    iteration m.block (n + 1) s = iteration m.block n t := by
  rw [RoundRobin.iteration, if_neg h.head_ne, hturn.run, Option.bind_some]

/-- **The queue at the start of an iteration.** -/
theorem Holds.iteration {n : Nat} (h : Holds m node s ps)
    (hrun : iteration m.block n s = some t) : Holds m node t (RoundRobin.turn^[n] ps) := by
  induction n generalizing s ps with
  | zero =>
    cases ps with
    | nil =>
      rw [h.iteration_nil] at hrun
      cases hrun
    | cons p ps =>
      rw [h.iteration_zero] at hrun
      obtain rfl := Option.some.inj hrun
      exact h
  | succ n ih =>
    cases ps with
    | nil =>
      rw [h.iteration_nil] at hrun
      cases hrun
    | cons p ps =>
      obtain ⟨u, hturn⟩ := h.fills.turn
      rw [h.iteration_succ hturn] at hrun
      rw [iterate_succ_apply]
      exact ih (h.turn hturn) hrun

/-- Every iteration starts with a queue that ends. -/
def AlwaysEnds (m : Malloc live) (s : State) : Prop :=
  ∀ n t, RoundRobin.iteration m.block n s = some t → Ends t

/-- The first iteration, and those after it. -/
theorem Holds.alwaysEnds_cons (h : Holds m node s (p :: ps))
    (hturn : Turn m node s p.block (ps.map Process.block) t) :
    AlwaysEnds m s ↔ Ends s ∧ AlwaysEnds m t := by
  constructor
  · intro hall
    refine ⟨hall 0 s h.iteration_zero, fun n u hrun => hall (n + 1) u ?_⟩
    rw [h.iteration_succ hturn]
    exact hrun
  · intro hall n u hrun
    cases n with
    | zero =>
      rw [h.iteration_zero] at hrun
      obtain rfl := Option.some.inj hrun
      exact hall.1
    | succ n =>
      rw [h.iteration_succ hturn] at hrun
      exact hall.2 n u hrun

/-- A job alone comes back to an empty queue. -/
theorem Holds.alwaysEnds_single (h : Holds m node s [p]) (hends : Ends s) : AlwaysEnds m s := by
  intro n
  induction n generalizing s p with
  | zero =>
    intro t hrun
    rw [h.iteration_zero] at hrun
    obtain rfl := Option.some.inj hrun
    exact hends
  | succ n ih =>
    intro t hrun
    obtain ⟨u, hturn⟩ := h.fills.turn
    rw [h.iteration_succ hturn] at hrun
    have hnext := h.turn hturn
    have hstill := h.ends hturn (.inl rfl) hends
    by_cases hback : p.burstTime - quantum > 0
    · rw [turn_back hback, List.nil_append] at hnext
      exact ih hnext hstill t hrun
    · rw [turn_done hback] at hnext
      rw [hnext.iteration_nil] at hrun
      cases hrun

/-- The queue ends throughout iff no job comes back behind another: the induction is on the jobs
that are done at their first turn. -/
theorem Holds.alwaysEnds_iff (h : Holds m node s ps) (hends : Ends s) :
    AlwaysEnds m s ↔ ∀ q ∈ ps.dropLast, ¬ q.burstTime - quantum > 0 := by
  induction ps generalizing s with
  | nil =>
    refine iff_of_true (fun n t hrun => ?_) nofun
    rw [h.iteration_nil] at hrun
    cases hrun
  | cons p ps ih =>
    cases ps with
    | nil => exact iff_of_true (h.alwaysEnds_single hends) nofun
    | cons q ps =>
      obtain ⟨t, hturn⟩ := h.fills.turn
      have hnext := h.turn hturn
      rw [h.alwaysEnds_cons hturn, List.dropLast_cons_cons, List.forall_mem_cons]
      by_cases hback : p.burstTime - quantum > 0
      · rw [turn_back hback, List.cons_append] at hnext
        have hlinked := h.not_ends hturn hback
        exact iff_of_false (fun hall => hlinked (hall.2 0 t hnext.iteration_zero))
          fun hall => hall.1 hback
      · have hstill := h.ends hturn (.inr hback) hends
        rw [turn_done hback] at hnext
        rw [ih hnext hstill, and_iff_right hends, and_iff_right hback]

/-- There is an iteration as long as there is a job. -/
theorem Holds.exists_iteration_iff (h : Holds m node s ps) (n : Nat) :
    (∃ t, RoundRobin.iteration m.block n s = some t) ↔ RoundRobin.turn^[n] ps ≠ [] := by
  induction n generalizing s ps with
  | zero =>
    cases ps with
    | nil => simp [h.iteration_nil]
    | cons p ps => simp [h.iteration_zero]
  | succ n ih =>
    cases ps with
    | nil =>
      have hnone : RoundRobin.turn^[n + 1] [] = [] := iterate_fixed rfl (n + 1)
      simp [h.iteration_nil, hnone]
    | cons p ps =>
      obtain ⟨u, hturn⟩ := h.fills.turn
      rw [h.iteration_succ hturn, iterate_succ_apply]
      exact ih (h.turn hturn)

/-! ## The initial queue -/

theorem Holds.create (h : Holds m node s ps) (hp : p.block ∉ ps.map Process.block)
    (hlive : p.block ∈ live) : Holds m node (create s p) (ps ++ [p]) ∧ Ends (create s p) := by
  have hblock : ∀ k, m.block k ≠ p.block := fun k heq => m.fresh k (heq ▸ hlive)
  have hready : p.block ∉ inserted m.block s.mallocs := by
    intro hmem
    obtain ⟨k, _, heq⟩ := List.mem_map.mp hmem
    exact hblock k heq
  have hmade : Fills m node
      { s with node := update s.node p.block ⟨p.processID, p.burstTime, none⟩ }
      (ps.map Process.block) := by
    refine ⟨h.fills.job.update_of_not_mem hp _, h.fills.ready.update_of_not_mem hready _,
      h.fills.nodup, h.fills.live, fun k hk => ?_⟩
    rw [← h.fills.unlinked k hk]
    exact congrArg Node.nextNode (update_of_ne (hblock k) _ _)
  have hinserted := hmade.insertJob hp hlive
  refine ⟨⟨?_, ?_⟩, ?_⟩
  · rw [List.map_append]
    exact hinserted
  · intro q hq
    refine (insertNode_entry _ s.job p.block q.block).trans ?_
    rcases List.mem_append.mp hq with hold | hnew
    · have hne : q.block ≠ p.block := ne_of_mem_of_not_mem (List.mem_map_of_mem hold) hp
      rw [← h.entry q hold]
      exact congrArg Node.entry (update_of_ne hne _ _)
    · rw [List.mem_singleton.mp hnew]
      exact congrArg Node.entry (update_self p.block _ s.node)
  · intro last hlast
    have htail := hinserted.job.tail
    rw [List.getLast?_concat] at htail
    obtain rfl : p.block = last := Option.some.inj (htail.symm.trans hlast)
    refine (congrArg Node.nextNode (hmade.job.insertNode_other _ _ hp)).trans ?_
    exact congrArg Node.nextNode (update_self p.block _ s.node)

theorem Holds.createAll {qs : List Process} (h : Holds m node s ps) (hends : Ends s)
    (hnd : ((ps ++ qs).map Process.block).Nodup) (hlive : ∀ q ∈ qs, q.block ∈ live) :
    Holds m node (qs.foldl RoundRobin.create s) (ps ++ qs) ∧
      Ends (qs.foldl RoundRobin.create s) := by
  induction qs generalizing s ps with
  | nil =>
    rw [List.append_nil]
    exact ⟨h, hends⟩
  | cons q qs ih =>
    have hq : q.block ∉ ps.map Process.block := by
      rw [List.map_append, List.nodup_append'] at hnd
      exact fun hmem => hnd.2.2 hmem List.mem_cons_self
    obtain ⟨hnext, hnextEnds⟩ := h.create hq (hlive q List.mem_cons_self)
    rw [List.append_cons] at hnd ⊢
    exact ih hnext hnextEnds hnd fun r hr => hlive r (List.mem_cons_of_mem q hr)

end Holds

theorem holds_createAll {node : Heap} {ps : List Process} (m : Malloc (ps.map Process.block))
    (hnd : (ps.map Process.block).Nodup) :
    Holds m node (createAll node ps) ps ∧ Ends (createAll node ps) := by
  have hempty : Holds m node ⟨node, .empty, .empty, 0⟩ [] :=
    ⟨⟨.empty node, .empty node, .nil, nofun, fun _ _ => rfl⟩, nofun⟩
  exact hempty.createAll nofun hnd fun q hq => List.mem_map_of_mem hq

/-- **The job queue, printed.** There is an iteration for each turn, and it starts with the jobs of
the policy queued in order; the printer stops behind the last of them in every iteration iff every
job but the last is done at its first turn. -/
theorem job_queue_prints_iff {node : Heap} {ps : List Process}
    (m : Malloc (ps.map Process.block)) (hnd : (ps.map Process.block).Nodup) :
    (∀ n, (∃ s, iteration m.block n (createAll node ps) = some s) ↔ turn^[n] ps ≠ []) ∧
    (∀ n s, iteration m.block n (createAll node ps) = some s →
      IsQueue s.node s.job ((turn^[n] ps).map Process.block) ∧
        ∀ p ∈ turn^[n] ps, (s.node p.block).entry = (p.processID, p.burstTime.toInt)) ∧
    ((∀ n s, iteration m.block n (createAll node ps) = some s →
        Prints s.node s.job ((turn^[n] ps).map Process.block)) ↔
      ∀ p ∈ ps.dropLast, -2147483628 ≤ p.burstTime.toInt ∧ p.burstTime.toInt ≤ 20) := by
  obtain ⟨hholds, hends⟩ := @holds_createAll node ps m hnd
  refine ⟨hholds.exists_iteration_iff, fun n s hrun => ?_, ?_⟩
  · have hs := hholds.iteration hrun
    exact ⟨hs.fills.job, hs.entry⟩
  · simp only [← not_back_iff]
    rw [← hholds.alwaysEnds_iff hends]
    constructor
    · intro hprints n s hrun
      exact (hholds.iteration hrun).prints_iff.mp (hprints n s hrun)
    · intro hall n s hrun
      exact (hholds.iteration hrun).prints_iff.mpr (hall n s hrun)

/-- The jobs of the header comment, in blocks `0` to `4`. -/
def headerJobs : List Process :=
  [⟨0, 65, 178⟩, ⟨1, 66, 83⟩, ⟨2, 67, 166⟩, ⟨3, 68, 169⟩, ⟨4, 69, 193⟩]

/-- The queues the header comment shows. -/
example : (turn headerJobs).map (fun p => (p.processID, p.burstTime)) =
      [(66, 83), (67, 166), (68, 169), (69, 193), (65, 158)] ∧
    (turn (turn headerJobs)).map (fun p => (p.processID, p.burstTime)) =
      [(67, 166), (68, 169), (69, 193), (65, 158), (66, 63)] := by
  decide

theorem not_mem_headerJobs (k : ℕ) : 100 + k ∉ headerJobs.map Process.block := by
  intro hk
  have hmem : 100 + k ∈ [0, 1, 2, 3, 4] := hk
  simp only [List.mem_cons, List.not_mem_nil, or_false] at hmem
  omega

def headerBlocks : Malloc (headerJobs.map Process.block) where
  block := blocksFrom100.block
  distinct := blocksFrom100.distinct
  fresh := not_mem_headerJobs

/-- Three jobs, of which the last has more than a quantum to run. -/
def shortJobs : List Process := [⟨0, 65, 15⟩, ⟨1, 66, 20⟩, ⟨2, 67, 45⟩]

theorem job_queue_prints_iff_short :
    ∃ s, iteration blocksFrom100.block 1 (createAll threeJobs shortJobs) = some s ∧
      Prints s.node s.job [1, 2] := by
  obtain ⟨hruns, _, hprints⟩ :=
    @job_queue_prints_iff threeJobs shortJobs blocksFrom100 (by decide)
  obtain ⟨s, hs⟩ := (hruns 1).mpr (by decide)
  exact ⟨s, hs, hprints.mpr (by decide) 1 s hs⟩

/-- The queue `B` to `A` of the header comment: `A` points to `B`. -/
theorem not_prints_header :
    ∃ s, iteration headerBlocks.block 1 (createAll threeJobs headerJobs) = some s ∧
      ¬ Prints s.node s.job [1, 2, 3, 4, 0] := by
  obtain ⟨hholds, _⟩ := @holds_createAll threeJobs headerJobs headerBlocks (by decide)
  obtain ⟨t, hturn⟩ := hholds.fills.turn
  have hnext := hholds.turn hturn
  refine ⟨t, ?_, fun hprints => ?_⟩
  · rw [hholds.iteration_succ hturn]
    exact hnext.iteration_zero
  · exact hholds.not_ends hturn (by decide) (hnext.prints_iff.mp hprints)

end RoundRobin
end Cab403
