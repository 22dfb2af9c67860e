import Cab403.Hashtable.Search
import Cab403.Lib.Tally
import Mathlib.Data.List.FinRange

/-!
# The parallel search is the sequential scan

The four search threads of `main`, on a table that nobody changes meanwhile. Each walks a range
of buckets, and the ranges are consecutive and of one length, so that together they are all the
buckets (`ranges_eq`). What a thread has printed and what the entries it is still to look at will
have it print make up the scan of its range (`Owes`, `Owes.searchNext`). No step of another
thread matters to it.

`ahead` is the specification: the entries of a range of buckets in order.
-/

namespace Cab403
namespace Hashtable

open Function Lib

/-! ## The sequential scan -/

/-- The keys printed for a list of entries. -/
def found (search : Int32) (entries : List (Addr × Entry)) : List Chars :=
  (entries.filter fun e => e.2.value = search).map fun e => text e.2.key

/-- The entries of the buckets from `i` up to `stop`. -/
def ahead (chain : Nat → List (Addr × Entry)) (i stop : Nat) : List (Addr × Entry) :=
  (List.range' i (stop - i)).flatMap chain

theorem found_cons (search : Int32) (e : Addr × Entry) (entries : List (Addr × Entry)) :
    found search (e :: entries) =
      (if e.2.value = search then [text e.2.key] else []) ++ found search entries := by
  unfold found
  by_cases he : e.2.value = search <;> simp [he]

theorem ahead_of_lt (chain : Nat → List (Addr × Entry)) {i stop : Nat} (h : i < stop) :
    ahead chain i stop = chain i ++ ahead chain (i + 1) stop := by
  obtain ⟨w, rfl⟩ := Nat.exists_eq_add_of_lt h
  have hw : i + w + 1 - i = w + 1 := by omega
  have hw' : i + w + 1 - (i + 1) = w := by omega
  rw [ahead, ahead, hw, hw', List.range'_succ, List.flatMap_cons]

theorem ahead_of_le (chain : Nat → List (Addr × Entry)) {i stop : Nat} (h : stop ≤ i) :
    ahead chain i stop = [] := by
  rw [ahead, Nat.sub_eq_zero_of_le h]
  rfl

/-- Ranges of one length, one after the other, are one range. -/
theorem ranges_eq (w m : Nat) :
    (List.range m).flatMap (fun k => List.range' (k * w) w) = List.range' 0 (m * w) := by
  induction m with
  | zero => simp
  | succ m ih =>
    have happend := @List.range'_append_1 0 (m * w) w
    rw [Nat.zero_add] at happend
    rw [List.range_succ, List.flatMap_append, ih, List.flatMap_singleton, Nat.succ_mul, happend]

/-- **The ranges of the threads are the table.** -/
theorem flatMap_ahead (chain : Nat → List (Addr × Entry)) :
    (List.finRange THREADS).flatMap (fun k => ahead chain (start k) (stop k)) =
      ahead chain 0 BUCKETS := by
  have hwidth : ∀ k : Fin THREADS, stop k - start k = BUCKET_SIZE :=
    fun k => Nat.add_sub_cancel_left ..
  have hranges := ranges_eq BUCKET_SIZE THREADS
  rw [← List.map_coe_finRange_eq_range, List.flatMap_map] at hranges
  have hflat := congrArg (List.flatMap chain) hranges
  rw [List.flatMap_assoc] at hflat
  simp only [ahead, hwidth]
  exact hflat

theorem stop_le (k : Fin THREADS) : stop k ≤ BUCKETS := by
  have hk := k.isLt
  simp only [stop, start, THREADS, BUCKET_SIZE, BUCKETS] at *
  omega

/-! ## One thread -/

section Thread

variable (search : Int32) (cell : Addr → Option (Entry × Option Addr))
  (chain : Nat → List (Addr × Entry)) (start stop : Nat)

/-- At `pc` in the range from `start` to `stop`, the entries still to look at are `left`. -/
def Owes : SearchPc → List (Addr × Entry) → Prop
  | .testEnd i, left => start ≤ i ∧ left = ahead chain i stop
  | .readBuckets i, left => start ≤ i ∧ i < stop ∧ left = ahead chain i stop
  | .readBucket i null, left => start ≤ i ∧ i < stop ∧ null = false ∧ left = ahead chain i stop
  | .readValue i a, left => start ≤ i ∧ i < stop ∧ ∃ e l, Linked cell (some a) ((a, e) :: l) ∧
      left = (a, e) :: l ++ ahead chain (i + 1) stop
  | .readKey i a, left => start ≤ i ∧ i < stop ∧ ∃ e l, Linked cell (some a) ((a, e) :: l) ∧
      e.value = search ∧ left = (a, e) :: l ++ ahead chain (i + 1) stop
  | .readNext i a, left => start ≤ i ∧ i < stop ∧ ∃ e l, Linked cell (some a) ((a, e) :: l) ∧
      left = l ++ ahead chain (i + 1) stop
  | .newline, left => left = []
  | .returned, left => left = []

/-- At most so many accesses are left: three for an entry, and three for a bucket. -/
def work (left : List (Addr × Entry)) : SearchPc → Nat
  | .testEnd i => 3 * left.length + 3 * (stop - i) + 2
  | .readBuckets i => 3 * left.length + 3 * (stop - i) + 1
  | .readBucket i _ => 3 * left.length + 3 * (stop - i)
  | .readValue i _ => 3 * left.length + 3 * (stop - (i + 1)) + 2
  | .readKey i _ => 3 * left.length + 3 * (stop - (i + 1)) + 1
  | .readNext i _ => 3 * left.length + 3 * (stop - (i + 1)) + 3
  | .newline => 1
  | .returned => 0

end Thread

/-- The table is as it was when the threads were created. -/
structure Unchanged (t : Table) (s : State) : Prop where
  h : s.h = t.h
  mem : s.mem = t.mem
  array : s.arrayFreed = false
  running : s.main ≠ .exited

/-- The item at the head of a chain. -/
theorem Unchanged.item {t : Table} {s : State} (h : Unchanged t s) {a : Addr} {e : Entry}
    {l : List (Addr × Entry)} (hl : Linked t.mem.cell (some a) ((a, e) :: l)) :
    ∃ next, s.mem.item a = some ⟨e.key, e.value, next⟩ ∧ Linked t.mem.cell next l := by
  obtain ⟨_, next, hcell, hrest⟩ := hl
  exact ⟨next, h.mem ▸ Heap.item_of_cell hcell, hrest⟩

section Table

variable {search : Int32} {t : Table} {chain : Nat → List (Addr × Entry)}

variable (search chain) in
/-- From a pointer on. -/
theorem owes_searchFrom {start stop i : Nat} {head : Option Addr} {l : List (Addr × Entry)}
    (hlow : start ≤ i) (hhigh : i < stop) (hl : Linked t.mem.cell head l) :
    Owes search t.mem.cell chain start stop (searchFrom i head)
      (l ++ ahead chain (i + 1) stop) ∧
    work stop (l ++ ahead chain (i + 1) stop) (searchFrom i head) =
      3 * (l ++ ahead chain (i + 1) stop).length + 3 * (stop - (i + 1)) + 2 := by
  cases l with
  | nil =>
    obtain rfl : head = none := hl
    exact ⟨⟨by omega, rfl⟩, rfl⟩
  | cons e l =>
    obtain ⟨a, v⟩ := e
    obtain rfl : head = some a := hl.1
    exact ⟨⟨hlow, hhigh, v, l, hl, rfl⟩, rfl⟩

variable (hchain : ∀ i < BUCKETS, t.Chain (UInt64.ofNat i) (chain i)) {s : State}
  {k : Fin THREADS}

include hchain

/-- **One access of a thread.** It goes on, having printed what it owes less. -/
theorem Owes.searchNext (hs : Unchanged t s) {left : List (Addr × Entry)}
    (h : Owes search t.mem.cell chain (start k) (stop k) (s.thread k).pc left) :
    (s.thread k).pc = .returned ∨ ∃ me left', searchNext search s k = some me ∧
      Owes search t.mem.cell chain (start k) (stop k) me.pc left' ∧
      me.printed ++ found search left' = (s.thread k).printed ++ found search left ∧
      work (stop k) left' me.pc < work (stop k) left (s.thread k).pc := by
  cases hpc : (s.thread k).pc with
  | testEnd i =>
    rw [hpc] at h
    obtain ⟨hlow, rfl⟩ := h
    by_cases hi : i < stop k
    · refine .inr ⟨⟨.readBuckets i, _⟩, _, ?_, ⟨hlow, hi, rfl⟩, rfl, Nat.lt_succ_self _⟩
      simp only [Hashtable.searchNext, hpc, if_pos hi]
    · have hnil := ahead_of_le chain (Nat.le_of_not_lt hi)
      refine .inr ⟨⟨.newline, _⟩, _, ?_, hnil, rfl, Nat.lt_add_left _ Nat.one_lt_two⟩
      simp only [Hashtable.searchNext, hpc, if_neg hi]
  | readBuckets i =>
    rw [hpc] at h
    obtain ⟨hlow, hhigh, rfl⟩ := h
    obtain ⟨heads, hheads, _⟩ := hchain i (Nat.lt_of_lt_of_le hhigh (stop_le k))
    refine .inr ⟨⟨.readBucket i false, _⟩, _, ?_, ⟨hlow, hhigh, rfl, rfl⟩, rfl, Nat.lt_succ_self _⟩
    simp only [Hashtable.searchNext, hpc, hs.h, hheads, Option.isNone_some]
  | readBucket i null =>
    rw [hpc] at h
    obtain ⟨hlow, hhigh, rfl, rfl⟩ := h
    obtain ⟨heads, hheads, hlinked⟩ := hchain i (Nat.lt_of_lt_of_le hhigh (stop_le k))
    obtain ⟨howes, hwork⟩ := owes_searchFrom search chain hlow hhigh hlinked
    rw [ahead_of_lt chain hhigh]
    refine .inr ⟨⟨searchFrom i (heads (UInt64.ofNat i)), _⟩, _, ?_, howes, rfl, ?_⟩
    · simp only [Hashtable.searchNext, hpc, hs.h, hs.array, hheads, Bool.or_self,
        Bool.false_eq_true, if_false, Option.map_some]
    · rw [hwork]
      show _ < 3 * _ + 3 * (stop k - i)
      omega
  | readValue i a =>
    rw [hpc] at h
    obtain ⟨hlow, hhigh, e, l, hl, rfl⟩ := h
    obtain ⟨next, hi, _⟩ := hs.item hl
    by_cases hvalue : e.value = search
    · refine .inr ⟨⟨.readKey i a, _⟩, _, ?_, ⟨hlow, hhigh, e, l, hl, hvalue, rfl⟩, rfl,
        Nat.lt_succ_self _⟩
      simp only [Hashtable.searchNext, hpc, hi, Option.map_some, if_pos hvalue]
    · refine .inr ⟨⟨.readNext i a, (s.thread k).printed⟩, _, ?_, ⟨hlow, hhigh, e, l, hl, rfl⟩,
        ?_, ?_⟩
      · simp only [Hashtable.searchNext, hpc, hi, Option.map_some, if_neg hvalue]
      · rw [List.cons_append, found_cons, if_neg hvalue]
        rfl
      · simp only [work, List.cons_append, List.length_cons]
        omega
  | readKey i a =>
    rw [hpc] at h
    obtain ⟨hlow, hhigh, e, l, hl, hvalue, rfl⟩ := h
    obtain ⟨next, hi, _⟩ := hs.item hl
    refine .inr ⟨⟨.readNext i a, (s.thread k).printed ++ [text e.key]⟩, _, ?_,
      ⟨hlow, hhigh, e, l, hl, rfl⟩, ?_, ?_⟩
    · simp only [Hashtable.searchNext, hpc, hi, Option.map_some]
    · rw [List.cons_append, found_cons, if_pos hvalue, List.append_assoc]
    · simp only [work, List.cons_append, List.length_cons]
      omega
  | readNext i a =>
    rw [hpc] at h
    obtain ⟨hlow, hhigh, e, l, hl, rfl⟩ := h
    obtain ⟨next, hi, hrest⟩ := hs.item hl
    obtain ⟨howes, hwork⟩ := owes_searchFrom search chain hlow hhigh hrest
    refine .inr ⟨⟨searchFrom i next, _⟩, _, ?_, howes, rfl, ?_⟩
    · simp only [Hashtable.searchNext, hpc, hi, Option.map_some]
    · rw [hwork]
      exact Nat.lt_succ_self _
  | newline =>
    rw [hpc] at h
    refine .inr ⟨⟨.returned, _⟩, left, ?_, h, rfl, Nat.one_pos⟩
    simp only [Hashtable.searchNext, hpc]
  | returned => exact .inl rfl

omit hchain in
/-- A thread that can go on reads what is allocated. -/
theorem readsAllocated_of_next {me : Search} (h : Hashtable.searchNext search s k = some me) :
    ReadsAllocated s k := by
  unfold ReadsAllocated
  unfold Hashtable.searchNext at h
  cases hpc : (s.thread k).pc with
  | readBucket i null =>
    simp only [hpc] at h
    by_cases hbad : (null || s.arrayFreed) = true
    · rw [if_pos hbad] at h
      cases h
    · simpa using hbad
  | readValue i a | readKey i a | readNext i a =>
    simp only [hpc] at h
    obtain ⟨item, hitem, _⟩ := Option.map_eq_some_iff.mp h
    exact Option.isSome_of_eq_some hitem
  | _ => trivial

/-! ## All of them -/

/-- A search thread moves; nobody else does. -/
def Scans (search : Int32) (s : State) (k : Fin THREADS) (u : State) : Prop :=
  Step search s (.search k) u

/-- What the threads have printed and what they owe is the scan of their ranges, and they have at
most `n` accesses left. -/
def Scanning (search : Int32) (t : Table) (chain : Nat → List (Addr × Entry)) (s : State)
    (n : Nat) : Prop :=
  Unchanged t s ∧ ∃ left : Fin THREADS → List (Addr × Entry),
    (∀ k, Owes search t.mem.cell chain (start k) (stop k) (s.thread k).pc (left k) ∧
      (s.thread k).printed ++ found search (left k) =
        found search (ahead chain (start k) (stop k))) ∧
    tally id (fun k => work (stop k) (left k) (s.thread k).pc) = n

omit hchain in
theorem scanning_created : ∃ n, Scanning search t chain (created t) n :=
  ⟨_, ⟨rfl, rfl, rfl, nofun⟩, fun k => ahead chain (start k) (stop k),
    fun _ => ⟨⟨Nat.le_refl _, rfl⟩, rfl⟩, rfl⟩

/-- **A step scans on.** -/
theorem scanning_step {u : State} {n : Nat} (h : Scanning search t chain s n)
    (hst : Scans search s k u) : ∃ m, m < n ∧ Scanning search t chain u m := by
  obtain ⟨hs, left, hleft, rfl⟩ := h
  have hnext := (hleft k).1.searchNext hchain hs
  have hgoes : ∃ me left', u = { s with thread := update s.thread k me } ∧
      Owes search t.mem.cell chain (start k) (stop k) me.pc left' ∧
      me.printed ++ found search left' = (s.thread k).printed ++ found search (left k) ∧
      work (stop k) left' me.pc < work (stop k) (left k) (s.thread k).pc := by
    cases hst with
    | search hrun hme =>
      rcases hnext with hreturned | ⟨me, left', hme', hgoes⟩
      · simp [Hashtable.searchNext, hreturned] at hme
      · rw [hme] at hme'
        obtain rfl := Option.some.inj hme'
        exact ⟨_, left', rfl, hgoes⟩
    | stale me hrun hstale =>
      rcases hnext with hreturned | ⟨me', left', hme', _⟩
      · exact absurd (by simp [ReadsAllocated, hreturned]) hstale
      · exact absurd (readsAllocated_of_next hme') hstale
  obtain ⟨me, left', rfl, howes, hprinted, hwork⟩ := hgoes
  refine ⟨_, ?_, ⟨hs.h, hs.mem, hs.array, hs.running⟩, update left k left', ?_, rfl⟩
  · -- the others have as much left as before
    have hupdate : (fun j => work (stop j) (update left k left' j) (update s.thread k me j).pc) =
        update (fun j => work (stop j) (left j) (s.thread j).pc) k (work (stop k) left' me.pc) := by
      funext j
      by_cases hj : j = k
      · subst hj
        simp
      · simp [update_of_ne hj]
    have htally := tally_update id (fun j => work (stop j) (left j) (s.thread j).pc) k
      (work (stop k) left' me.pc)
    show tally id (fun j => work (stop j) (update left k left' j) (update s.thread k me j).pc) < _
    rw [hupdate]
    simp only [id_eq] at htally
    omega
  · intro j
    by_cases hj : j = k
    · subst hj
      simp only [update_self]
      exact ⟨howes, hprinted.trans (hleft j).2⟩
    · simp only [update_of_ne hj]
      exact hleft j

/-- All four have returned, or one of them can go on. -/
theorem scanning_progress {n : Nat} (h : Scanning search t chain s n) :
    (∀ k, (s.thread k).pc = .returned) ∨ ∃ k u, Scans search s k u := by
  obtain ⟨hs, left, hleft, _⟩ := h
  by_cases hall : ∀ k, (s.thread k).pc = .returned
  · exact .inl hall
  · obtain ⟨k, hk⟩ := not_forall.mp hall
    rcases (hleft k).1.searchNext hchain hs with hreturned | ⟨me, _, hme, _⟩
    · exact absurd hreturned hk
    · exact .inr ⟨k, _, .search hs.running hme⟩

/-! ## Which buckets -/

omit hchain

/-- The buckets read in a run, each with the thread that read it. -/
def visits (s : State) : List (Fin THREADS × State) → List (Fin THREADS × Nat)
  | [] => []
  | (k, u) :: tr =>
    match (s.thread k).pc with
    | .readBucket i _ => (k, i) :: visits u tr
    | _ => visits u tr

/-- Thread `k` keeps to its range. -/
def InRange (s : State) (k : Fin THREADS) (_ : State) : Prop :=
  ∀ i null, (s.thread k).pc = .readBucket i null → start k ≤ i ∧ i < stop k

theorem visits_inRange {tr : List (Fin THREADS × State)} (h : AllSteps InRange s tr) :
    ∀ v ∈ visits s tr, start v.1 ≤ v.2 ∧ v.2 < stop v.1 := by
  induction tr generalizing s with
  | nil => simp [visits]
  | cons p tr ih =>
    obtain ⟨j, u⟩ := p
    intro v hv
    unfold visits at hv
    split at hv
    · rename_i i null hpc
      rcases List.mem_cons.mp hv with rfl | hmem
      · exact h.1 i null hpc
      · exact ih h.2 v hmem
    · exact ih h.2 v hv

/-- The ranges do not overlap. -/
theorem eq_of_inRange {j k : Fin THREADS} {i : Nat} (hj : start j ≤ i ∧ i < stop j)
    (hk : start k ≤ i ∧ i < stop k) : j = k := by
  simp only [start, stop, BUCKET_SIZE, BUCKETS, THREADS] at hj hk
  exact Fin.ext (by omega)

/-! ## Runs -/

/-- The keys the four threads have printed. -/
def printedKeys (s : State) : List Chars :=
  (List.finRange THREADS).flatMap fun k => (s.thread k).printed

theorem printedKeys_of_returned {n : Nat} (h : Scanning search t chain s n)
    (hall : ∀ k, (s.thread k).pc = .returned) :
    printedKeys s = found search (ahead chain 0 BUCKETS) := by
  obtain ⟨_, left, hleft, _⟩ := h
  have hprinted : ∀ k, (s.thread k).printed = found search (ahead chain (start k) (stop k)) := by
    intro k
    obtain ⟨howes, heq⟩ := hleft k
    rw [hall k] at howes
    have hnil : left k = [] := howes
    rw [← heq, hnil]
    exact (List.append_nil _).symm
  unfold printedKeys
  simp only [hprinted]
  rw [← flatMap_ahead]
  simp only [found, List.filter_flatMap, List.map_flatMap]

include hchain

/-- **The parallel search is the sequential scan.** Whatever the chains hold and whoever moves
when: no two threads read one bucket; when all four have returned they have printed, in some
order, the keys that a scan of the buckets prints; and every run comes to that. -/
theorem search_prints : ∃ bound, ∀ tr, Trace (Scans search) (created t) tr →
    (∀ j k i, (j, i) ∈ visits (created t) tr → (k, i) ∈ visits (created t) tr → j = k) ∧
    ((∀ k, ((lastState (created t) tr).thread k).pc = .returned) →
      (printedKeys (lastState (created t) tr)).Perm (found search (ahead chain 0 BUCKETS))) ∧
    tr.length ≤ bound ∧
    ∃ more, Trace (Scans search) (lastState (created t) tr) more ∧
      ∀ k, ((lastState (created t) (tr ++ more)).thread k).pc = .returned := by
  obtain ⟨n, hcreated⟩ := @scanning_created search t chain
  refine ⟨n, fun tr htr => ?_⟩
  have hlowers : ∀ s k u n, Scanning search t chain s n → Scans search s k u →
      ∃ m, m < n ∧ Scanning search t chain u m :=
    fun s k u n hs hst => scanning_step hchain hs hst
  obtain ⟨m, hlength, hlast⟩ := htr.lowers hlowers hcreated
  refine ⟨?_, fun hall => ?_, by omega, ?_⟩
  · have hrange : AllSteps InRange (created t) tr := by
      refine htr.allSteps (I := fun s => ∃ n, Scanning search t chain s n) ?_ ⟨n, hcreated⟩
      intro s k u hs hst
      obtain ⟨n, hs⟩ := hs
      refine ⟨(hlowers s k u n hs hst).imp fun m hm => hm.2, fun i null hpc => ?_⟩
      obtain ⟨_, left, hleft, _⟩ := hs
      have howes := (hleft k).1
      rw [hpc] at howes
      exact ⟨howes.1, howes.2.1⟩
    intro j k i hj hk
    have hj : start j ≤ i ∧ i < stop j := visits_inRange hrange (j, i) hj
    have hk : start k ≤ i ∧ i < stop k := visits_inRange hrange (k, i) hk
    exact eq_of_inRange hj hk
  · rw [printedKeys_of_returned hlast hall]
  · have hprogress : ∀ s n, Scanning search t chain s n →
        (∀ k, (s.thread k).pc = .returned) ∨ ∃ k u, Scans search s k u :=
      fun s n hs => scanning_progress hchain hs
    obtain ⟨more, hmore, hdone⟩ := Trace.exists_finish hlowers hprogress hlast
    refine ⟨more, hmore, ?_⟩
    rw [lastState_append]
    exact hdone

end Table

/-- The one item with the value is printed, whatever the schedule it took. -/
theorem search_prints_oneItem : ∃ tr, Trace (Scans 7) (created oneItem) tr ∧
    (printedKeys (lastState (created oneItem) tr)).Perm [[65]] := by
  have hchain : ∀ i < BUCKETS, oneItem.Chain (UInt64.ofNat i)
      (if UInt64.ofNat i = 0 then [(0, ⟨[65, 0, 0, 0], 7⟩)] else []) := by
    intro i _
    refine ⟨_, rfl, ?_⟩
    by_cases hi : UInt64.ofNat i = 0
    · rw [if_pos hi, hi, update_self]
      exact ⟨rfl, none, rfl, rfl⟩
    · rw [if_neg hi, update_of_ne hi]
      rfl
  obtain ⟨bound, hall⟩ := @search_prints 7 oneItem _ hchain
  obtain ⟨_, _, _, more, hmore, hdone⟩ := hall [] (.nil _)
  exact ⟨more, hmore, (hall more hmore).2.1 hdone⟩

end Hashtable
end Cab403
