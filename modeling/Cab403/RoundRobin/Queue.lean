import Mathlib.Data.List.Chain
import Mathlib.Logic.Function.Basic

/-!
# The intrusive queues

`roundRobinScheduling_Skeleton.c` keeps two queues threaded through one heap of nodes, each a
head and a tail pointer. A node's `nextNode` is written when a later node is put behind it and at
no other time, so the last node of a queue, and every node outside one, holds whatever was there
before: what ends a queue is its tail pointer.

`IsQueue node q l` is that reading: `q` is the queue of the nodes `l`. Insertion and removal keep
it, and a write to a node that the queue does not run through leaves it alone.
-/

namespace Cab403
namespace RoundRobin

open Function

/-! ## Nodes and queues -/

abbrev Addr := Nat

/-- `struct process`. -/
structure Node where
  processID : UInt8
  burstTime : Int32
  nextNode : Option Addr
  deriving DecidableEq, Repr

abbrev Heap := Addr → Node

structure Queue where
  head : Option Addr
  tail : Option Addr
  deriving DecidableEq, Repr

def Queue.empty : Queue := ⟨none, none⟩

/-- The body `insertNodeToJobQueue` and `insertNodeToReadyQueue` share. -/
def insertNode (node : Heap) (q : Queue) (a : Addr) : Heap × Queue :=
  match q.tail with
  | none => (node, ⟨some a, some a⟩)
  | some t => (update node t { node t with nextNode := some a }, ⟨q.head, some a⟩)

/-- The body of `removeJobQueueHeadNode`: the node removed, and the queue without it. -/
def removeHeadNode (node : Heap) (q : Queue) : Option Addr × Queue :=
  match q.head with
  | none => (none, q)
  | some h =>
    if q.head = q.tail then (some h, ⟨none, none⟩)
    else (some h, ⟨(node h).nextNode, q.tail⟩)

/-! ## What a queue stands for -/

/-- `q` is the queue of the nodes `l`. -/
structure IsQueue (node : Heap) (q : Queue) (l : List Addr) : Prop where
  head : q.head = l.head?
  tail : q.tail = l.getLast?
  linked : l.IsChain fun a b => (node a).nextNode = some b

namespace IsQueue

variable {node : Heap} {q : Queue} {l : List Addr}

theorem empty (node : Heap) : IsQueue node Queue.empty [] := ⟨rfl, rfl, .nil⟩

theorem eq_empty (h : IsQueue node q []) : q = Queue.empty := by
  obtain ⟨head, tail⟩ := q
  obtain ⟨rfl, rfl, _⟩ := h
  rfl

/-- Only the links of the nodes before the last matter. -/
theorem linked_frame {node' : Heap} : ∀ {l : List Addr},
    (l.IsChain fun a b => (node a).nextNode = some b) →
    (∀ a ∈ l.dropLast, (node' a).nextNode = (node a).nextNode) →
    l.IsChain fun a b => (node' a).nextNode = some b
  | [], _, _ => .nil
  | [a], _, _ => .singleton a
  | a :: b :: l, h, hsame => by
    rw [List.isChain_cons_cons] at h ⊢
    refine ⟨?_, linked_frame h.2 fun c hc => hsame c (List.mem_cons_of_mem _ hc)⟩
    rw [hsame a List.mem_cons_self]
    exact h.1

theorem frame (h : IsQueue node q l) {node' : Heap}
    (hsame : ∀ a ∈ l, (node' a).nextNode = (node a).nextNode) : IsQueue node' q l :=
  ⟨h.head, h.tail, linked_frame h.linked fun a ha => hsame a (List.dropLast_subset l ha)⟩

theorem update_of_not_mem (h : IsQueue node q l) {a : Addr} (ha : a ∉ l) (n : Node) :
    IsQueue (update node a n) q l := by
  apply h.frame
  intro b hb
  rw [update_of_ne (ne_of_mem_of_not_mem hb ha)]

/-- Inserting writes to the tail of the queue alone. -/
theorem insertNode_other (h : IsQueue node q l) (a b : Addr) (hb : b ∉ l) :
    (insertNode node q a).1 b = node b := by
  unfold insertNode
  cases hq : q.tail with
  | none => rfl
  | some t =>
    have ht : t ∈ l := List.mem_of_mem_getLast? (by rw [← h.tail, hq]; rfl)
    exact update_of_ne (ne_of_mem_of_not_mem ht hb).symm _ _

/-- A queue that shares no node with another is not touched by the other's insertion. -/
theorem insert_other (h : IsQueue node q l) {q' : Queue} {l' : List Addr}
    (h' : IsQueue node q' l') (hdisj : l.Disjoint l') (a : Addr) :
    IsQueue (insertNode node q a).1 q' l' := by
  apply h'.frame
  intro b hb
  rw [h.insertNode_other a b fun hl => hdisj hl hb]

theorem insert (h : IsQueue node q l) {a : Addr} (ha : a ∉ l) (hnd : l.Nodup) :
    IsQueue (insertNode node q a).1 (insertNode node q a).2 (l ++ [a]) := by
  unfold insertNode
  cases hq : q.tail with
  | none =>
    have hl : l = [] := List.getLast?_eq_none_iff.mp (h.tail ▸ hq)
    subst hl
    exact ⟨rfl, rfl, .singleton a⟩
  | some t =>
    have ht : l.getLast? = some t := h.tail ▸ hq
    obtain ⟨l', rfl⟩ := List.getLast?_eq_some_iff.mp ht
    have hfront : t ∉ l' := by
      intro hmem
      exact (List.nodup_append.mp hnd).2.2 t hmem t (List.mem_singleton.mpr rfl) rfl
    refine ⟨?_, by simp, ?_⟩
    · rw [h.head]
      simp
    · rw [List.isChain_append]
      refine ⟨?_, .singleton a, ?_⟩
      · -- no link inside the queue leaves from its tail
        apply linked_frame h.linked
        intro b hb
        rw [List.dropLast_concat] at hb
        show (update node t { node t with nextNode := some a } b).nextNode = (node b).nextNode
        rw [update_of_ne (ne_of_mem_of_not_mem hb hfront)]
      · intro x hx y hy
        rw [ht] at hx
        obtain rfl : t = x := Option.some.inj hx
        obtain rfl : a = y := Option.some.inj hy
        show (update node t { node t with nextNode := some a } t).nextNode = some a
        rw [update_self]

theorem remove {a : Addr} (h : IsQueue node q (a :: l)) (hnd : (a :: l).Nodup) :
    (removeHeadNode node q).1 = some a ∧ IsQueue node (removeHeadNode node q).2 l := by
  have hhead : q.head = some a := h.head
  cases l with
  | nil =>
    have htail : q.tail = some a := h.tail
    simp only [removeHeadNode, hhead, htail, if_pos, true_and]
    exact ⟨rfl, rfl, .nil⟩
  | cons b l =>
    have hne : ¬ some a = q.tail := by
      rw [h.tail, List.getLast?_cons_cons]
      intro he
      exact (List.nodup_cons.mp hnd).1 (List.mem_of_getLast? he.symm)
    have hlinked := List.isChain_cons_cons.mp h.linked
    simp only [removeHeadNode, hhead, if_neg hne, true_and]
    refine ⟨hlinked.1, ?_, hlinked.2⟩
    show q.tail = _
    rw [h.tail, List.getLast?_cons_cons]

end IsQueue

/-! ## Reading a queue -/

/-- The entry printed for a node. -/
def Node.entry (n : Node) : UInt8 × Int := (n.processID, n.burstTime.toInt)

/-- Nodes with one entry have one burst. -/
theorem burst_of_entry {n : Node} {k : UInt8} {b : Int32} (h : n.entry = (k, b.toInt)) :
    n.burstTime = b := Int32.toInt_inj.mp (congrArg Prod.snd h)

theorem insertNode_entry (node : Heap) (q : Queue) (a b : Addr) :
    ((insertNode node q a).1 b).entry = (node b).entry := by
  unfold insertNode
  cases q.tail with
  | none => rfl
  | some t =>
    by_cases hb : b = t
    · subst hb
      simp [Node.entry]
    · simp [update_of_ne hb]

/-- The nodes from `a` to `tail`, along `nextNode`. -/
def walk (node : Heap) (tail : Addr) : Nat → Addr → Option (List Addr)
  | 0, _ => none
  | fuel + 1, a =>
    if a = tail then some [a]
    else
      match (node a).nextNode with
      | none => none
      | some b => (walk node tail fuel b).map (a :: ·)

/-- The entries of a queue, from its head to its tail. -/
def readQueue (node : Heap) (q : Queue) (fuel : Nat) : Option (List (UInt8 × Int)) :=
  match q.head, q.tail with
  | some h, some t => (walk node t fuel h).map (List.map fun a => (node a).entry)
  | _, _ => some []

theorem walk_linked {node : Heap} {tail : Addr} : ∀ {l : List Addr} {a : Addr} {fuel : Nat},
    ((a :: l).IsChain fun a b => (node a).nextNode = some b) → (a :: l).Nodup →
    (a :: l).getLast? = some tail → l.length < fuel → walk node tail fuel a = some (a :: l)
  | [], a, fuel + 1, _, _, hlast, _ => by
    obtain rfl : a = tail := Option.some.inj hlast
    simp [walk]
  | b :: l, a, fuel + 1, hlinked, hnd, hlast, hfuel => by
    obtain ⟨hab, hrest⟩ := List.isChain_cons_cons.mp hlinked
    obtain ⟨ha, hnd'⟩ := List.nodup_cons.mp hnd
    rw [List.getLast?_cons_cons] at hlast
    have hne : a ≠ tail := (ne_of_mem_of_not_mem (List.mem_of_mem_getLast? hlast) ha).symm
    have hfuel' : l.length < fuel := Nat.lt_of_succ_lt_succ hfuel
    simp only [walk, if_neg hne, hab, walk_linked hrest hnd' hlast hfuel', Option.map_some]

theorem IsQueue.read {node : Heap} {q : Queue} {l : List Addr} (h : IsQueue node q l)
    (hnd : l.Nodup) {fuel : Nat} (hfuel : l.length ≤ fuel) :
    readQueue node q fuel = some (l.map fun a => (node a).entry) := by
  cases l with
  | nil =>
    rw [h.eq_empty]
    rfl
  | cons a l =>
    have htail := h.tail
    rw [List.getLast?_eq_some_getLast (List.cons_ne_nil a l)] at htail
    have hhead : q.head = some a := h.head
    have hwalk := walk_linked h.linked hnd (List.getLast?_eq_some_getLast (List.cons_ne_nil a l))
      hfuel
    simp only [readQueue, hhead, htail, hwalk, Option.map_some]

end RoundRobin
end Cab403
