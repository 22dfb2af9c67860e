import Cab403.Controller.Register
import Cab403.Lib.Linked
import Cab403.Lib.Trace

/-!
# The list of threads

`main` keeps a node for every thread it creates, so that the threads can be found again.
`link_thread_node` returns the `thread` of the node it has made ready, by value: what
`pthread_create` writes to is a variable of `main`. So the list grows as it should, a node for
each connection, `NULL`-terminated (`Listed.run`), and its `thread` fields are whatever was in the
nodes' memory (`tracks_iff`).

A new node is where nothing was before; `raw` is what was in its memory.
-/

namespace Cab403
namespace Controller
namespace ThreadList

open Function Lib

/-- `pthread_t` -/
abbrev Thread := UInt64

/-- `tcp_thread_node` -/
structure Node where
  thread : Thread
  threadCreated : UInt8
  next : Option Addr
  deriving DecidableEq, Repr

abbrev Heap := Addr → Option Node

/-- What a node says of its thread. -/
structure Entry where
  thread : Thread
  threadCreated : UInt8
  deriving DecidableEq, Repr

def Node.entry (n : Node) : Entry := ⟨n.thread, n.threadCreated⟩

def Heap.cell (h : Heap) (a : Addr) : Option (Entry × Option Addr) :=
  (h a).map fun n => (n.entry, n.next)

/-- `link_thread_node`, with the block `malloc` would return should a new node be needed. -/
def linkThreadNode (new : Addr) (raw : Node) : Nat → Addr → Heap → Option (Thread × Heap)
  | 0, _, _ => none
  | fuel + 1, node, h => do
    let n ← h node
    if n.threadCreated = 0 then
      some (n.thread, update h node (some { n with threadCreated := 1 }))
    else match n.next with
      | none =>
        let h := update h node (some { n with next := some new })
        some (raw.thread, update h new (some { raw with next := none, threadCreated := 1 }))
      | some next => linkThreadNode new raw fuel next h

/-- `main`, between two connections. -/
structure State where
  heap : Heap
  detached : List Thread

/-- A connection: what `malloc` would return for its node, and the id `pthread_create` produces. -/
structure Connection where
  new : Addr
  raw : Node
  id : Thread

/-- `pthread_create` stores the id in the variable it is given, whatever was there. -/
def pthreadCreate (id _thread : Thread) : Thread := id

/-- The body of the accept loop, from `link_thread_node` on. -/
def serve (fuel : Nat) (head : Addr) (c : Connection) (s : State) : Option State := do
  let (currentThread, heap) ← linkThreadNode c.new c.raw fuel head s.heap
  let currentThread := pthreadCreate c.id currentThread
  some ⟨heap, s.detached ++ [currentThread]⟩

/-- The connection is served, its node being put where nothing was. -/
inductive Serves (head : Addr) (s : State) (c : Connection) (t : State) : Prop
  | intro (fuel : Nat) (hfresh : s.heap c.new = none) (h : serve fuel head c s = some t)

/-- `tcp_head`, in use by no thread. -/
def start (head : Addr) (raw : Node) : State :=
  ⟨update (fun _ => none) head (some { raw with threadCreated := 0, next := none }), []⟩

/-- The list from `head` is `NULL`-terminated and has the threads `ids`, all of them created. -/
def Tracks (head : Addr) (h : Heap) (ids : List Thread) : Prop :=
  ∃ l, Linked h.cell (some head) l ∧ l.map Prod.snd = ids.map fun id => ⟨id, 1⟩

/-- What is in the `thread` fields before any thread is created. -/
def uninitialised (raw : Node) (cs : List Connection) : List Thread :=
  raw.thread :: cs.tail.map fun c => c.raw.thread

/-! ## One call -/

variable {h : Heap} {new a head : Addr} {raw n : Node}

theorem Heap.node_of_cell {e : Entry} {next : Option Addr} (hcell : h.cell a = some (e, next)) :
    h a = some ⟨e.thread, e.threadCreated, next⟩ := by
  obtain ⟨n, hn, heq⟩ := Option.map_eq_some_iff.mp hcell
  obtain ⟨rfl, rfl⟩ := Prod.mk.inj heq
  exact hn

theorem Heap.cell_update (h : Heap) (a : Addr) (n : Node) :
    Heap.cell (update h a (some n)) = update h.cell a (some (n.entry, n.next)) := by
  funext x
  by_cases hx : x = a
  · subst hx
    simp [Heap.cell]
  · simp [Heap.cell, update_of_ne hx]

/-- The first thread gets the head. -/
theorem linkThreadNode_unused {fuel : Nat} (hn : h a = some n) (hunused : n.threadCreated = 0) :
    linkThreadNode new raw fuel a h = if 0 < fuel then
      some (n.thread, update h a (some { n with threadCreated := 1 })) else none := by
  cases fuel with
  | zero => rfl
  | succ fuel => simp [linkThreadNode, hn, hunused]

/-- Nodes in use are passed, and a new one is linked to the tail. -/
theorem linkThreadNode_front {fuel : Nat} {front : List (Addr × Entry)} {b : Addr}
    (hfront : Segment h.cell (some a) front (some b))
    (hused : ∀ d ∈ front, d.2.threadCreated = 1) (hn : h b = some n)
    (hcreated : n.threadCreated = 1) (htail : n.next = none) :
    linkThreadNode new raw fuel a h = if front.length < fuel then
      some (raw.thread, update (update h b (some { n with next := some new })) new
        (some { raw with next := none, threadCreated := 1 })) else none := by
  induction fuel generalizing front a with
  | zero => rfl
  | succ fuel ih =>
    cases front with
    | nil =>
      obtain rfl : a = b := Option.some.inj hfront
      simp [linkThreadNode, hn, hcreated, htail]
    | cons d front =>
      obtain ⟨x, e⟩ := d
      obtain ⟨hx, next, hcell, hrest⟩ := hfront
      obtain rfl : a = x := Option.some.inj hx
      have hnode := Heap.node_of_cell hcell
      have he : e.threadCreated = 1 := hused _ List.mem_cons_self
      obtain ⟨c, rfl⟩ : ∃ c, next = some c := by
        cases front with
        | nil => exact ⟨b, hrest⟩
        | cons d front => exact ⟨d.1, hrest.1⟩
      have hstep : linkThreadNode new raw (fuel + 1) a h = linkThreadNode new raw fuel c h := by
        simp [linkThreadNode, hnode, he]
      rw [hstep, ih hrest fun d hd => hused d (List.mem_cons_of_mem _ hd)]
      simp only [List.length_cons, Nat.add_lt_add_iff_right]

/-- **Every other thread gets a node behind the tail**, wherever that is. -/
theorem linkThreadNode_append {front : List (Addr × Entry)} {b : Addr} {e : Entry}
    (hlist : Linked h.cell (some a) (front ++ [(b, e)]))
    (hused : ∀ d ∈ front ++ [(b, e)], d.2.threadCreated = 1) (hfresh : h new = none) :
    ∃ h', Linked h'.cell (some a) (front ++ [(b, e)] ++ [(new, ⟨raw.thread, 1⟩)]) ∧
      ∀ fuel, linkThreadNode new raw fuel a h =
        if front.length < fuel then some (raw.thread, h') else none := by
  have hnew : new ∉ (front ++ [(b, e)]).map Prod.fst := by
    apply hlist.not_mem_of_none
    rw [Heap.cell, hfresh]
    rfl
  have hb : b ∉ front.map Prod.fst := by
    have hnodup := hlist.nodup
    rw [List.map_append] at hnodup
    intro hmem
    exact (List.nodup_append'.mp hnodup).2.2 hmem List.mem_cons_self
  obtain ⟨mid, hfront, hmid, next, hcell, hend⟩ := Segment.append_iff.mp hlist
  obtain rfl : mid = some b := hmid
  obtain rfl : next = none := hend
  refine ⟨_, ?_, fun fuel => linkThreadNode_front hfront
    (fun d hd => hused d (List.mem_append_left _ hd)) (Heap.node_of_cell hcell)
    (hused _ (List.mem_append_right _ List.mem_cons_self)) rfl⟩
  rw [Heap.cell_update, Heap.cell_update]
  have hredirect := (Segment.redirect hlist hb (some new)).update_of_not_mem hnew
    (some (⟨raw.thread, 1⟩, none))
  exact Segment.append_iff.mpr ⟨some new, hredirect, rfl, none, update_self .., rfl⟩

/-! ## The accept loop -/

/-- After the connections `cs`, the list has a node for each of them, or the head alone. -/
def Listed (head : Addr) (raw : Node) (cs : List Connection) (s : State) : Prop :=
  s.detached = cs.map Connection.id ∧ ∃ l, Linked s.heap.cell (some head) l ∧
    l.map Prod.snd = (uninitialised raw cs).map fun thread => ⟨thread, if cs = [] then 0 else 1⟩

theorem listed_start (head : Addr) (raw : Node) : Listed head raw [] (start head raw) := by
  refine ⟨rfl, [(head, ⟨raw.thread, 0⟩)], ⟨rfl, none, ?_, rfl⟩, rfl⟩
  rw [start, Heap.cell_update]
  exact update_self ..

/-- The first connection: the head is all there is, and is not in use. -/
theorem Listed.link_head {s : State} (hs : Listed head raw [] s) (c : Connection) :
    ∃ h', Linked h'.cell (some head) [(head, ⟨raw.thread, 1⟩)] ∧
      ∀ fuel, linkThreadNode c.new c.raw fuel head s.heap =
        if 0 < fuel then some (raw.thread, h') else none := by
  obtain ⟨_, l, hlist, hl⟩ := hs
  obtain ⟨b, rfl⟩ : ∃ b, l = [(b, ⟨raw.thread, 0⟩)] := by
    obtain ⟨d, rfl, hd⟩ := List.map_eq_singleton_iff.mp hl
    have hentry : d.2 = ⟨raw.thread, 0⟩ := hd
    exact ⟨d.1, by rw [← hentry]⟩
  obtain ⟨hb, next, hcell, hend⟩ := hlist
  obtain rfl : head = b := Option.some.inj hb
  obtain rfl : next = none := hend
  refine ⟨update s.heap head (some ⟨raw.thread, 1, none⟩), ⟨rfl, none, ?_, rfl⟩,
    fun fuel => linkThreadNode_unused (Heap.node_of_cell hcell) rfl⟩
  rw [Heap.cell_update]
  exact update_self ..

/-- The next call leaves one node more in use, if it has the fuel to return. -/
theorem Listed.link {cs : List Connection} {s : State} (hs : Listed head raw cs s)
    (c : Connection) (hfresh : s.heap c.new = none) :
    ∃ h' thread n, (∃ l, Linked h'.cell (some head) l ∧
        l.map Prod.snd = (uninitialised raw (cs ++ [c])).map fun thread => ⟨thread, 1⟩) ∧
      ∀ fuel, linkThreadNode c.new c.raw fuel head s.heap =
        if n < fuel then some (thread, h') else none := by
  cases cs with
  | nil =>
    obtain ⟨h', hlist, hcall⟩ := hs.link_head c
    exact ⟨h', _, 0, ⟨_, hlist, rfl⟩, hcall⟩
  | cons d cs =>
    obtain ⟨_, l, hlist, hl⟩ := hs
    rcases List.eq_nil_or_concat l with rfl | ⟨front, ⟨b, e⟩, rfl⟩
    · cases hl
    rw [List.concat_eq_append] at hlist hl
    rw [if_neg (List.cons_ne_nil _ _)] at hl
    have hused : ∀ x ∈ front ++ [(b, e)], x.2.threadCreated = 1 := by
      intro x hx
      have hmem := List.mem_map_of_mem (f := Prod.snd) hx
      rw [hl] at hmem
      obtain ⟨_, _, hentry⟩ := List.mem_map.mp hmem
      rw [← hentry]
    obtain ⟨h', hlist', hcall⟩ :=
      @linkThreadNode_append s.heap c.new head c.raw front b e hlist hused hfresh
    refine ⟨h', _, front.length, ⟨_, hlist', ?_⟩, hcall⟩
    rw [List.map_append, hl]
    simp [uninitialised]

theorem Listed.serves {cs : List Connection} {s t : State} {c : Connection}
    (hs : Listed head raw cs s) (hst : Serves head s c t) : Listed head raw (cs ++ [c]) t := by
  obtain ⟨fuel, hfresh, hserve⟩ := hst
  obtain ⟨h', thread, n, ⟨l, hlist, hl⟩, hcall⟩ := hs.link c hfresh
  obtain ⟨r, hr, hserve⟩ := Option.bind_eq_some_iff.mp hserve
  rw [hcall] at hr
  split at hr
  · cases hr
    cases hserve
    refine ⟨?_, l, hlist, ?_⟩
    · show s.detached ++ [c.id] = _
      rw [hs.1, List.map_append]
      rfl
    · rw [hl, if_neg (List.append_ne_nil_of_right_ne_nil _ (List.cons_ne_nil _ _))]
  · cases hr

/-- **The accept loop goes on.** -/
theorem Listed.exists_serves {cs : List Connection} {s : State} (hs : Listed head raw cs s)
    {c : Connection} (hfresh : s.heap c.new = none) : ∃ t, Serves head s c t := by
  obtain ⟨_, _, n, _, hcall⟩ := hs.link c hfresh
  exact ⟨_, n + 1, hfresh, by rw [serve, hcall, if_pos (Nat.lt_succ_self n)]; rfl⟩

theorem Listed.run {cs : List Connection} {s : State} {tr : List (Connection × State)}
    (hs : Listed head raw cs s) (htr : Trace (Serves head) s tr) :
    Listed head raw (cs ++ tr.map Prod.fst) (lastState s tr) := by
  induction htr generalizing cs with
  | nil s =>
    rw [List.map_nil, List.append_nil]
    exact hs
  | @cons s t c tr hst _ ih =>
    rw [List.map_cons, List.append_cons]
    exact ih (hs.serves hst)

/-- The list is determined, so its threads are. -/
theorem Listed.tracks_ids_iff {cs : List Connection} {s : State} (hs : Listed head raw cs s)
    {ids : List Thread} (hlength : ids.length = cs.length) :
    Tracks head s.heap ids ↔ uninitialised raw cs = ids := by
  obtain ⟨_, l, hlist, hl⟩ := hs
  constructor
  · intro htracks
    obtain ⟨l', hlist', hl'⟩ := htracks
    rw [hlist'.unique hlist, hl] at hl'
    have hthreads := congrArg (List.map Entry.thread) hl'
    simpa [List.map_map, Function.comp_def] using hthreads
  · intro hids
    refine ⟨l, hlist, ?_⟩
    cases cs with
    | nil =>
      rw [← hids] at hlength
      cases hlength
    | cons c cs => rw [hl, hids, if_neg (List.cons_ne_nil _ _)]

/-- **The list of threads is right iff the memory of its nodes was.** Whatever is accepted, the
next connection is served too; the list has the threads `pthread_create` produced exactly when
their ids were in the `thread` fields before. Without a connection the list has a node too many. -/
theorem tracks_iff {tr : List (Connection × State)}
    (htr : Trace (Serves head) (start head raw) tr) :
    (∀ c : Connection, (lastState (start head raw) tr).heap c.new = none →
      ∃ t, Serves head (lastState (start head raw) tr) c t) ∧
    (Tracks head (lastState (start head raw) tr).heap (tr.map fun p => p.1.id) ↔
      uninitialised raw (tr.map Prod.fst) = tr.map fun p => p.1.id) := by
  have hlisted := (listed_start head raw).run htr
  rw [List.nil_append] at hlisted
  exact ⟨fun c hfresh => hlisted.exists_serves hfresh, hlisted.tracks_ids_iff (by simp)⟩

/-- A node of `0`s. -/
def zeroed : Node := ⟨0, 0, none⟩

/-- Two connections, with the ids `7` and `9`; both happened to be in memory. -/
theorem tracks_two : ∃ tr : List (Connection × State),
    tr.map Prod.fst = [⟨1, zeroed, 7⟩, ⟨1, { zeroed with thread := 9 }, 9⟩] ∧
    Tracks 0 (lastState (start 0 { zeroed with thread := 7 }) tr).heap [7, 9] := by
  have htr := Trace.cons
    (.intro 1 rfl rfl : Serves 0 (start 0 { zeroed with thread := 7 }) ⟨1, zeroed, 7⟩ _)
    (.cons (.intro 1 rfl rfl : Serves 0 _ ⟨1, { zeroed with thread := 9 }, 9⟩ _) (.nil _))
  exact ⟨_, rfl, (tracks_iff htr).2.mpr rfl⟩

/-- One connection, with the id `7` and a node of `0`s. -/
theorem not_tracks_one : ∃ tr : List (Connection × State),
    tr.map Prod.fst = [⟨1, zeroed, 7⟩] ∧ Trace (Serves 0) (start 0 zeroed) tr ∧
    ¬ Tracks 0 (lastState (start 0 zeroed) tr).heap [7] := by
  have htr := Trace.cons (.intro 1 rfl rfl : Serves 0 (start 0 zeroed) ⟨1, zeroed, 7⟩ _) (.nil _)
  refine ⟨_, rfl, htr, ?_⟩
  rw [((listed_start 0 zeroed).run htr).tracks_ids_iff rfl]
  decide

end ThreadList
end Controller
end Cab403
