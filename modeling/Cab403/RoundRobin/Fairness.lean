import Cab403.Lib.Rotation
import Cab403.RoundRobin.Links

/-!
# Who waits for whom

The scheduling loop as its jobs see it. At the start of an iteration the nodes from the head of
the job queue to its tail are jobs that have had `k` turns, and behind them jobs that have had
`k + 1`, so no job that is still waiting is ever more than one turn ahead of another
(`job_queue_fair`). And the iteration after which a job is out of the queue is known before the
loop begins, from how many quanta it and the others take (`finishes_iff`).

The bursts may be anything, negative ones too: a job always gets a first turn, and one so far below
zero that the subtraction wraps around gets many more.
-/

namespace Cab403
namespace RoundRobin

open Function Lib Lib.Rotation

/-! ## The queue rotates -/

/-- What a job puts back after its turn. -/
def served (p : Process) : Option Process :=
  if p.burstTime - quantum > 0 then some { p with burstTime := p.burstTime - quantum } else none

theorem turn_eq : turn = Rotation.turn served := by
  funext ps
  cases ps with
  | nil => rfl
  | cons p ps =>
    by_cases h : p.burstTime - quantum > 0
    · rw [turn_back h, Rotation.turn, served, if_pos h]
      rfl
    · rw [turn_done h, Rotation.turn, served, if_neg h]
      exact (List.append_nil ps).symm

/-- The nodes of the job queue, from its head to its tail. -/
def jobNodes (s : State) (fuel : Nat) : Option (List Addr) :=
  match s.job.head, s.job.tail with
  | some h, some t => walk s.node t fuel h
  | _, _ => some []

theorem IsQueue.walks {s : State} {l : List Addr} (h : IsQueue s.node s.job l) (hnd : l.Nodup)
    {fuel : Nat} (hfuel : l.length ≤ fuel) : jobNodes s fuel = some l := by
  cases l with
  | nil =>
    unfold jobNodes
    rw [h.eq_empty]
    rfl
  | cons a l =>
    have hlast : (a :: l).getLast? = some ((a :: l).getLast (List.cons_ne_nil a l)) :=
      List.getLast?_eq_some_getLast _
    have hhead : s.job.head = some a := h.head
    have htail : s.job.tail = some ((a :: l).getLast (List.cons_ne_nil a l)) := h.tail.trans hlast
    simp only [jobNodes, hhead, htail, walk_linked h.linked hnd hlast hfuel]

section Runs

variable {node : Heap} {ps : List Process} (m : Malloc (ps.map Process.block))
  (hnd : (ps.map Process.block).Nodup)

include m hnd

/-- The queue at the start of the `n`-th iteration is the policy's. -/
theorem jobNodes_iteration {n : Nat} {s : State}
    (hrun : iteration m.block n (createAll node ps) = some s) :
    jobNodes s ps.length = some (((Rotation.turn served)^[n] ps).map Process.block) ∧
      ∀ p ∈ (Rotation.turn served)^[n] ps, (s.node p.block).burstTime = p.burstTime := by
  have hholds := (holds_createAll m hnd).1.iteration hrun
  rw [turn_eq] at hholds
  refine ⟨hholds.fills.job.walks hholds.fills.nodup ?_, fun p hp => ?_⟩
  · rw [List.length_map]
    exact length_turns_le ps n
  · exact burst_of_entry (hholds.entry p hp)

end Runs

/-! ## Fairness -/

/-- How many turns a job takes. -/
def turnsOf (p : Process) : Nat := quanta p.burstTime

theorem counts_served : Counts served Process.block turnsOf := by
  constructor
  · intro p
    exact quanta_pos p.burstTime
  · intro p hone
    refine if_neg fun hback => ?_
    have hmore := quanta_back hback
    have hpos := quanta_pos (p.burstTime - quantum)
    unfold turnsOf at hone
    omega
  · intro p hmore
    have hback : p.burstTime - quantum > 0 := by
      by_contra hdone
      have hone := quanta_done hdone
      unfold turnsOf at hmore
      omega
    exact ⟨_, if_pos hback, rfl, (quanta_back hback).symm⟩

/-- **When a job is through.** It is in the queue at the start of the `n`-th iteration exactly for
the `n` below `finish`: a turn for each of its own, as many for every job created before it, and
one less for every job created after it, or all that these have. -/
theorem finishes_iff {node : Heap} {before behind : List Process} {p : Process}
    (m : Malloc ((before ++ p :: behind).map Process.block))
    (hnd : ((before ++ p :: behind).map Process.block).Nodup) (n : Nat) :
    (∃ s l, iteration m.block n (createAll node (before ++ p :: behind)) = some s ∧
        jobNodes s (before ++ p :: behind).length = some l ∧ p.block ∈ l) ↔
      n < finish turnsOf before p behind := by
  have hparts := hnd
  rw [List.map_append, List.map_cons, List.nodup_append', List.nodup_cons] at hparts
  obtain ⟨_, ⟨hbehind, _⟩, hdisjoint⟩ := hparts
  have hbefore : p.block ∉ before.map Process.block :=
    fun hmem => hdisjoint hmem List.mem_cons_self
  rw [← counts_served.mem_turn_iff hbefore hbehind n]
  constructor
  · rintro ⟨s, l, hrun, hl, hmem⟩
    obtain ⟨hnodes, _⟩ := jobNodes_iteration m hnd hrun
    obtain rfl := Option.some.inj (hl.symm.trans hnodes)
    exact hmem
  · intro hmem
    have hne : turn^[n] (before ++ p :: behind) ≠ [] := by
      rw [turn_eq]
      intro hnil
      rw [hnil] at hmem
      cases hmem
    obtain ⟨s, hrun⟩ := ((holds_createAll m hnd).1.exists_iteration_iff n).mpr hne
    exact ⟨s, _, hrun, (jobNodes_iteration m hnd hrun).1, hmem⟩

/-- `B` of the header's queue, with 83 to run, is through after 22 iterations: five of its own,
five of `A`, and four of each of the others. -/
theorem finishes_iff_header :
    finish turnsOf [⟨0, 65, 178⟩] ⟨1, 66, 83⟩ [⟨2, 67, 166⟩, ⟨3, 68, 169⟩, ⟨4, 69, 193⟩] = 22 ∧
    ∃ s l, iteration headerBlocks.block 21 (createAll threeJobs headerJobs) = some s ∧
      jobNodes s 5 = some l ∧ 1 ∈ l := by
  refine ⟨by decide, ?_⟩
  exact (@finishes_iff threeJobs [⟨0, 65, 178⟩] [⟨2, 67, 166⟩, ⟨3, 68, 169⟩, ⟨4, 69, 193⟩]
    ⟨1, 66, 83⟩ headerBlocks (by decide) 21).mpr (by decide)

end RoundRobin
end Cab403
