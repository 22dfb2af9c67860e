import Cab403.Hashtable.Chains
import Cab403.Lib.Trace

/-!
# The parallel search, and `main` behind its back

`main` of `hashtable_search.c` starts four threads, each to search a quarter of the buckets, and
goes on to destroy the table without joining them. Every access to memory is a step of its own:
the search reads the table's bucket pointer, a bucket, and an item's value, key and pointer;
`htab_destroy` reads a bucket and an item's pointer, and frees. Reading what is not allocated any
more is undefined: the thread that does it goes on anywhere.

So a thread reads freed memory on some runs. What keeps it from doing so is what a join would
have given: nothing is freed that a thread is still to read. `ToRead` is what that is, along the
pointers of the items, and `Spares` says it of one step of `main`.
-/

namespace Cab403
namespace Hashtable

open Function Lib

/-! ## The threads -/

def THREADS : Nat := 4

def BUCKETS : Nat := 100

def BUCKET_SIZE : Nat := BUCKETS / THREADS

/-- A search thread, before its next access. `i` is its loop variable. -/
inductive SearchPc where
  | testEnd (i : Nat)
  | readBuckets (i : Nat)
  /-- before `buckets[i]`, the pointer read `NULL` or not -/
  | readBucket (i : Nat) (null : Bool)
  | readValue (i : Nat) (bucket : Addr)
  | readKey (i : Nat) (bucket : Addr)
  | readNext (i : Nat) (bucket : Addr)
  | newline
  | returned
  deriving DecidableEq, Repr

structure Search where
  pc : SearchPc
  printed : List Chars
  deriving DecidableEq, Repr

/-- `main`, before its next access. `i` is the loop variable of `htab_destroy`. -/
inductive MainPc where
  | testSize (i : Nat)
  | readBucket (i : Nat)
  | readNext (i : Nat) (bucket : Addr)
  | freeItem (i : Nat) (bucket : Addr) (next : Option Addr)
  | freeBuckets
  | clearBuckets
  | clearSize
  | returning
  | exited
  deriving DecidableEq, Repr

structure State where
  h : Htab
  mem : Heap
  /-- the array that `h.buckets` points to, or did, is freed -/
  arrayFreed : Bool
  main : MainPc
  thread : Fin THREADS → Search

def start (k : Fin THREADS) : Nat := k * BUCKET_SIZE

def stop (k : Fin THREADS) : Nat := start k + BUCKET_SIZE

/-- The threads are created. -/
def created (t : Table) : State where
  h := t.h
  mem := t.mem
  arrayFreed := false
  main := .testSize 0
  thread := fun k => ⟨.testEnd (start k), []⟩

/-- `bucket != NULL` in the search. -/
def searchFrom (i : Nat) : Option Addr → SearchPc
  | none => .testEnd (i + 1)
  | some bucket => .readValue i bucket

/-- `bucket != NULL` in `htab_destroy`. -/
def destroyFrom (i : Nat) : Option Addr → MainPc
  | none => .testSize (i + 1)
  | some bucket => .readNext i bucket

/-- What the next access of a search thread reads is allocated. -/
def ReadsAllocated (s : State) (k : Fin THREADS) : Prop :=
  match (s.thread k).pc with
  | .readBucket _ null => null = false ∧ s.arrayFreed = false
  | .readValue _ bucket => (s.mem.item bucket).isSome
  | .readKey _ bucket => (s.mem.item bucket).isSome
  | .readNext _ bucket => (s.mem.item bucket).isSome
  | _ => True

/-- `htab_search_value` goes on, where what it reads is allocated. -/
def searchNext (search : Int32) (s : State) (k : Fin THREADS) : Option Search :=
  let me := s.thread k
  match me.pc with
  | .testEnd i => some { me with pc := if i < stop k then .readBuckets i else .newline }
  | .readBuckets i => some { me with pc := .readBucket i s.h.buckets.isNone }
  | .readBucket i null =>
    if null || s.arrayFreed then none
    else s.h.buckets.map fun buckets =>
      { me with pc := searchFrom i (buckets (UInt64.ofNat i)) }
  | .readValue i bucket => (s.mem.item bucket).map fun item =>
      { me with pc := if item.value = search then .readKey i bucket else .readNext i bucket }
  | .readKey i bucket => (s.mem.item bucket).map fun item =>
      ⟨.readNext i bucket, me.printed ++ [text item.key]⟩
  | .readNext i bucket => (s.mem.item bucket).map fun item =>
      { me with pc := searchFrom i item.next }
  | .newline => some { me with pc := .returned }
  | .returned => none

/-- `main` goes on. -/
def mainNext (s : State) : Option State :=
  match s.main with
  | .testSize i =>
    some { s with main := if i < s.h.size.toNat then .readBucket i else .freeBuckets }
  | .readBucket i => s.h.buckets.map fun buckets =>
      { s with main := destroyFrom i (buckets (UInt64.ofNat i)) }
  | .readNext i bucket => (s.mem.item bucket).map fun item =>
      { s with main := .freeItem i bucket item.next }
  | .freeItem i bucket next => (s.mem.free bucket).map fun mem =>
      { s with mem := mem, main := destroyFrom i next }
  | .freeBuckets => some { s with arrayFreed := true, main := .clearBuckets }
  | .clearBuckets => some { s with h := { s.h with buckets := none }, main := .clearSize }
  | .clearSize => some { s with h := { s.h with size := 0 }, main := .returning }
  | .returning => some { s with main := .exited }
  | .exited => none

inductive Actor where
  | main
  | search (k : Fin THREADS)
  deriving DecidableEq, Repr

/-- One access of one thread, until `main` has returned and the process is gone. -/
inductive Step (search : Int32) : State → Actor → State → Prop
  | main {s t : State} (h : mainNext s = some t) : Step search s .main t
  | search {s : State} {k : Fin THREADS} {me : Search} (hrun : s.main ≠ .exited)
      (h : searchNext search s k = some me) :
      Step search s (.search k) { s with thread := update s.thread k me }
  | stale {s : State} {k : Fin THREADS} (me : Search) (hrun : s.main ≠ .exited)
      (h : ¬ ReadsAllocated s k) :
      Step search s (.search k) { s with thread := update s.thread k me }

/-! ## What is still to be read -/

/-- The item a thread reads next. -/
def SearchPc.item : SearchPc → Option Addr
  | .readValue _ bucket => some bucket
  | .readKey _ bucket => some bucket
  | .readNext _ bucket => some bucket
  | _ => none

/-- The thread, whose range ends at `stop`, is still to read bucket `j`. -/
def SearchPc.Left (stop j : Nat) : SearchPc → Prop
  | .testEnd i => i ≤ j ∧ j < stop
  | .readBuckets i => j = i ∨ i < j ∧ j < stop
  | .readBucket i _ => j = i ∨ i < j ∧ j < stop
  | .readValue i _ => i < j ∧ j < stop
  | .readKey i _ => i < j ∧ j < stop
  | .readNext i _ => i < j ∧ j < stop
  | _ => False

/-- The items such a thread is still to read: the one it is at, the first ones of its buckets,
and what follows them. -/
inductive ToRead (mem : Heap) (buckets : Option (UInt64 → Option Addr)) (stop : Nat)
    (pc : SearchPc) : Addr → Prop
  | here {a : Addr} (h : pc.item = some a) : ToRead mem buckets stop pc a
  | bucket {j : Nat} {heads : UInt64 → Option Addr} {a : Addr} (hj : pc.Left stop j)
      (hheads : buckets = some heads) (ha : heads (UInt64.ofNat j) = some a) :
      ToRead mem buckets stop pc a
  | next {a b : Addr} {i : Item} (h : ToRead mem buckets stop pc a) (hi : mem.item a = some i)
      (hb : i.next = some b) : ToRead mem buckets stop pc b

/-- The items thread `k` is still to read. -/
def State.ToRead (s : State) (k : Fin THREADS) : Addr → Prop :=
  Hashtable.ToRead s.mem s.h.buckets (stop k) (s.thread k).pc

/-- **What is freed, no thread is still to read.** -/
def Spares (s : State) (a : Actor) : Prop :=
  match a, s.main with
  | .main, .freeItem _ bucket _ => ∀ k, ¬ s.ToRead k bucket
  | .main, .freeBuckets => ∀ k j, ¬ (s.thread k).pc.Left (stop k) j
  | _, _ => True

/-- A step into the table, or along it, comes to nothing that was not to be read before. -/
theorem ToRead.of_pc {mem : Heap} {buckets : Option (UInt64 → Option Addr)} {stop : Nat}
    {pc pc' : SearchPc} (hhere : ∀ a, pc'.item = some a → ToRead mem buckets stop pc a)
    (hleft : ∀ j, pc'.Left stop j → pc.Left stop j) {a : Addr}
    (h : ToRead mem buckets stop pc' a) : ToRead mem buckets stop pc a := by
  induction h with
  | here h => exact hhere _ h
  | bucket hj hheads ha => exact .bucket (hleft _ hj) hheads ha
  | next _ hi hb ih => exact .next ih hi hb

/-- Less memory, less to read. -/
theorem ToRead.of_le {mem mem' : Heap} {buckets buckets' : Option (UInt64 → Option Addr)}
    {stop : Nat} {pc : SearchPc} (hmem : ∀ a i, mem'.item a = some i → mem.item a = some i)
    (hbuckets : ∀ heads, buckets' = some heads → buckets = some heads) {a : Addr}
    (h : ToRead mem' buckets' stop pc a) : ToRead mem buckets stop pc a := by
  induction h with
  | here h => exact .here h
  | bucket hj hheads ha => exact .bucket hj (hbuckets _ hheads) ha
  | next _ hi hb ih => exact .next ih (hmem _ _ hi) hb

/-! ## The invariant -/

/-- Whatever a search is still to read is allocated. -/
structure Inv (s : State) : Prop where
  items : ∀ k a, s.ToRead k a → (s.mem.item a).isSome
  array : ∀ k j, (s.thread k).pc.Left (stop k) j → s.arrayFreed = false ∧ s.h.buckets.isSome
  pointer : ∀ k i null, (s.thread k).pc = .readBucket i null → null = false
  cleared : s.main = .clearBuckets → s.arrayFreed = true

theorem Inv.readsAllocated {s : State} (h : Inv s) (k : Fin THREADS) : ReadsAllocated s k := by
  have hitems := h.items k
  have harray := h.array k
  have hpointer := h.pointer k
  unfold State.ToRead at hitems
  unfold ReadsAllocated
  cases hpc : (s.thread k).pc with
  | readBucket i null =>
    rw [hpc] at harray
    exact ⟨hpointer i null hpc, (harray i (.inl rfl)).1⟩
  | readValue _ bucket | readKey _ bucket | readNext _ bucket =>
    rw [hpc] at hitems
    exact hitems bucket (.here rfl)
  | _ => trivial

/-- The thread moved on within what it was to read. -/
theorem Inv.search {s : State} (h : Inv s) {k : Fin THREADS} {me : Search}
    (hhere : ∀ a, me.pc.item = some a → s.ToRead k a)
    (hleft : ∀ j, me.pc.Left (stop k) j → (s.thread k).pc.Left (stop k) j)
    (hpointer : ∀ i null, me.pc = .readBucket i null → null = false) :
    Inv { s with thread := update s.thread k me } := by
  refine ⟨?_, ?_, ?_, h.cleared⟩
  · have hitems := forall_update_iff (a := k) (b := me) s.thread fun k' me =>
      ∀ a, ToRead s.mem s.h.buckets (stop k') me.pc a → (s.mem.item a).isSome
    exact hitems.mpr ⟨fun a ha => h.items k a (ToRead.of_pc hhere hleft ha), fun k' _ => h.items k'⟩
  · have harray := forall_update_iff (a := k) (b := me) s.thread fun k' me =>
      ∀ j, me.pc.Left (stop k') j → s.arrayFreed = false ∧ s.h.buckets.isSome
    exact harray.mpr ⟨fun j hj => h.array k j (hleft j hj), fun k' _ => h.array k'⟩
  · have hpointers := forall_update_iff (a := k) (b := me) s.thread fun _ me =>
      ∀ i null, me.pc = .readBucket i null → null = false
    exact hpointers.mpr ⟨hpointer, fun k' _ => h.pointer k'⟩

/-- From inside bucket `i`, to `next` or to the next bucket. -/
theorem left_searchFrom {stop i j : Nat} {next : Option Addr}
    (h : (searchFrom i next).Left stop j) : i < j ∧ j < stop := by
  cases next with
  | none => exact h
  | some bucket => exact h

theorem item_searchFrom {i : Nat} {next : Option Addr} {a : Addr}
    (h : (searchFrom i next).item = some a) : next = some a := by
  cases next with
  | none => cases h
  | some bucket => exact h

theorem searchFrom_ne_readBucket {i j : Nat} {next : Option Addr} {null : Bool} :
    searchFrom i next ≠ .readBucket j null := by
  cases next with
  | none => exact SearchPc.noConfusion
  | some bucket => exact SearchPc.noConfusion

/-- Past an item's value, whatever it is. -/
theorem item_readValue {c : Prop} [Decidable c] {i : Nat} {bucket a : Addr}
    (h : (if c then SearchPc.readKey i bucket else .readNext i bucket).item = some a) :
    bucket = a := by
  split at h
  · exact Option.some.inj h
  · exact Option.some.inj h

theorem left_readValue {c : Prop} [Decidable c] {stop i j : Nat} {bucket : Addr}
    (h : (if c then SearchPc.readKey i bucket else .readNext i bucket).Left stop j) :
    i < j ∧ j < stop := by
  split at h
  · exact h
  · exact h

theorem readValue_ne_readBucket {c : Prop} [Decidable c] {i j : Nat} {bucket : Addr}
    {null : Bool} :
    (if c then SearchPc.readKey i bucket else .readNext i bucket) ≠ .readBucket j null := by
  split
  · exact SearchPc.noConfusion
  · exact SearchPc.noConfusion

theorem Inv.searchNext {s : State} (h : Inv s) {search : Int32} {k : Fin THREADS} {me : Search}
    (hnext : searchNext search s k = some me) : Inv { s with thread := update s.thread k me } := by
  have harray := h.array k
  have hhere : ∀ a, (s.thread k).pc.item = some a → s.ToRead k a := fun a ha => .here ha
  have hfirst : ∀ j heads a, (s.thread k).pc.Left (stop k) j → s.h.buckets = some heads →
      heads (UInt64.ofNat j) = some a → s.ToRead k a := fun j heads a => .bucket
  unfold Hashtable.searchNext at hnext
  cases hpc : (s.thread k).pc with
  | testEnd i =>
    simp only [hpc, Option.some.injEq] at hnext
    subst hnext
    by_cases hi : i < stop k
    · rw [if_pos hi]
      refine h.search (fun a ha => by cases ha) (fun j hj => ?_) (fun i null h => by cases h)
      rw [hpc]
      rcases hj with rfl | ⟨hij, hj⟩
      · exact ⟨Nat.le_refl _, hi⟩
      · exact ⟨Nat.le_of_lt hij, hj⟩
    · rw [if_neg hi]
      exact h.search (fun a ha => by cases ha) (fun j hj => hj.elim) (fun i null h => by cases h)
  | readBuckets i =>
    simp only [hpc, Option.some.injEq] at hnext
    subst hnext
    rw [hpc] at harray
    refine h.search (fun a ha => by cases ha) (fun j hj => ?_) (fun i' null hnull => ?_)
    · rw [hpc]
      exact hj
    · obtain ⟨_, rfl⟩ := SearchPc.readBucket.inj hnull
      exact Option.isNone_eq_false_iff.mpr (harray i (.inl rfl)).2
  | readBucket i null =>
    simp only [hpc] at hnext
    rw [hpc] at hfirst
    split at hnext
    · cases hnext
    · obtain ⟨heads, hheads, rfl⟩ := Option.map_eq_some_iff.mp hnext
      refine h.search (fun a ha => ?_) (fun j hj => ?_)
        (fun i' null h => absurd h searchFrom_ne_readBucket)
      · exact hfirst i heads a (.inl rfl) hheads (item_searchFrom ha)
      · rw [hpc]
        exact .inr (left_searchFrom hj)
  | readValue i bucket =>
    simp only [hpc] at hnext
    obtain ⟨item, hitem, rfl⟩ := Option.map_eq_some_iff.mp hnext
    rw [hpc] at hhere
    refine h.search (fun a ha => hhere a ?_) (fun j hj => ?_)
      (fun i' null h => absurd h readValue_ne_readBucket)
    · exact congrArg some (item_readValue ha)
    · rw [hpc]
      exact left_readValue hj
  | readKey i bucket =>
    simp only [hpc] at hnext
    obtain ⟨item, hitem, rfl⟩ := Option.map_eq_some_iff.mp hnext
    rw [hpc] at hhere
    refine h.search (fun a ha => hhere a ha) (fun j hj => ?_) (fun i' null h => by cases h)
    rw [hpc]
    exact hj
  | readNext i bucket =>
    simp only [hpc] at hnext
    obtain ⟨item, hitem, rfl⟩ := Option.map_eq_some_iff.mp hnext
    rw [hpc] at hhere
    refine h.search (fun a ha => ?_) (fun j hj => ?_)
      (fun i' null h => absurd h searchFrom_ne_readBucket)
    · exact .next (hhere bucket rfl) hitem (item_searchFrom ha)
    · rw [hpc]
      exact left_searchFrom hj
  | newline =>
    simp only [hpc, Option.some.injEq] at hnext
    subst hnext
    exact h.search (fun a ha => by cases ha) (fun j hj => hj.elim) (fun i null h => by cases h)
  | returned => simp [hpc] at hnext

theorem destroyFrom_ne_clearBuckets {i : Nat} {next : Option Addr} :
    destroyFrom i next ≠ .clearBuckets := by
  cases next with
  | none => exact MainPc.noConfusion
  | some bucket => exact MainPc.noConfusion

/-- `main` moved, and nothing else. -/
theorem Inv.main {s : State} (h : Inv s) {pc : MainPc} (hpc : pc ≠ .clearBuckets) :
    Inv { s with main := pc } :=
  ⟨h.items, h.array, h.pointer, fun hclear => absurd hclear hpc⟩

theorem Inv.mainNext {s t : State} (h : Inv s) (hspares : Spares s .main)
    (hnext : mainNext s = some t) : Inv t := by
  unfold Hashtable.mainNext at hnext
  unfold Spares at hspares
  cases hpc : s.main with
  | testSize i =>
    simp only [hpc, Option.some.injEq] at hnext
    subst hnext
    apply h.main
    split
    · exact MainPc.noConfusion
    · exact MainPc.noConfusion
  | readBucket i =>
    simp only [hpc] at hnext
    obtain ⟨heads, _, rfl⟩ := Option.map_eq_some_iff.mp hnext
    exact h.main destroyFrom_ne_clearBuckets
  | readNext i bucket =>
    simp only [hpc] at hnext
    obtain ⟨item, _, rfl⟩ := Option.map_eq_some_iff.mp hnext
    exact h.main MainPc.noConfusion
  | freeItem i bucket next =>
    simp only [hpc] at hnext hspares
    obtain ⟨mem, hfree, rfl⟩ := Option.map_eq_some_iff.mp hnext
    obtain ⟨_, hitem⟩ := Heap.cell_free hfree
    refine ⟨fun k a ha => ?_, h.array, h.pointer,
      fun hclear => absurd hclear destroyFrom_ne_clearBuckets⟩
    -- it was to be read before, so it is not what was freed
    have hold : s.ToRead k a := by
      refine ToRead.of_le (fun b i hb => ?_) (fun heads hheads => hheads) ha
      exact (Heap.item_of_free hfree hb).2
    have hne : a ≠ bucket := by
      intro heq
      rw [heq] at hold
      exact hspares k hold
    show (mem.item a).isSome
    rw [hitem, update_of_ne hne]
    exact h.items k a hold
  | freeBuckets =>
    simp only [hpc, Option.some.injEq] at hnext hspares
    subst hnext
    exact ⟨h.items, fun k j hj => absurd hj (hspares k j), h.pointer, fun _ => rfl⟩
  | clearBuckets =>
    simp only [hpc, Option.some.injEq] at hnext
    subst hnext
    have hfreed := h.cleared hpc
    refine ⟨fun k a ha => ?_, fun k j hj => ?_, h.pointer, fun hclear => by cases hclear⟩
    · refine h.items k a (ToRead.of_le (fun b i hb => hb) (fun heads hheads => ?_) ha)
      cases hheads
    · have hold := (h.array k j hj).1
      rw [hfreed] at hold
      cases hold
  | clearSize =>
    simp only [hpc, Option.some.injEq] at hnext
    subst hnext
    exact ⟨h.items, h.array, h.pointer, fun hclear => by cases hclear⟩
  | returning =>
    simp only [hpc, Option.some.injEq] at hnext
    subst hnext
    exact h.main MainPc.noConfusion
  | exited =>
    rw [hpc] at hnext
    cases hnext

theorem inv_step {search : Int32} {s t : State} {a : Actor} (h : Inv s)
    (hspares : Spares s a) (hstep : Step search s a t) : Inv t := by
  cases hstep with
  | main hnext => exact h.mainNext hspares hnext
  | search _ hnext => exact h.searchNext hnext
  | stale me _ hstale => exact absurd (h.readsAllocated _) hstale

/-! ## Runs -/

/-- A table: `BUCKETS` buckets, each a chain of items. -/
def Table.Whole (t : Table) : Prop :=
  t.h.size.toNat = BUCKETS ∧ ∃ buckets, t.h.buckets = some buckets ∧
    ∀ j < BUCKETS, ∃ l, Linked t.mem.cell (buckets (UInt64.ofNat j)) l

/-- Whatever is on a chain is allocated. -/
theorem inv_created {t : Table} (ht : t.Whole) : Inv (created t) := by
  obtain ⟨_, buckets, hbuckets, hlinked⟩ := ht
  have hrange : ∀ (k : Fin THREADS) (j : Nat), j < stop k → j < BUCKETS := by
    intro k j hj
    have hk := k.isLt
    simp only [stop, start, THREADS, BUCKET_SIZE, BUCKETS] at *
    omega
  refine ⟨fun k a ha => ?_, fun k j _ => ⟨rfl, ?_⟩, fun k i null h => (by cases h),
    fun h => (by cases h)⟩
  · have hchain : ∀ a, (created t).ToRead k a →
        ∃ l v, Linked t.mem.cell (some a) ((a, v) :: l) := by
      intro a ha
      induction ha with
      | here h => cases h
      | @bucket j heads a hj hheads ha =>
        obtain rfl : buckets = heads := Option.some.inj (hbuckets.symm.trans hheads)
        obtain ⟨l, hl⟩ := hlinked j (hrange k j hj.2)
        rw [ha] at hl
        obtain ⟨v, l, rfl⟩ := hl.exists_cons
        exact ⟨l, v, hl⟩
      | @next a b i _ hi hb ih =>
        obtain ⟨l, v, _, next, hcell, hrest⟩ := ih
        have hitem := Heap.item_of_cell hcell
        obtain rfl : i = _ := Option.some.inj (hi.symm.trans hitem)
        obtain rfl : next = some b := hb
        obtain ⟨v, l, rfl⟩ := Linked.exists_cons hrest
        exact ⟨l, v, hrest⟩
    obtain ⟨l, v, _, next, hcell, _⟩ := hchain a ha
    have hitem := Heap.item_of_cell hcell
    show (t.mem.item a).isSome
    rw [hitem]
    rfl
  · show t.h.buckets.isSome
    rw [hbuckets]
    rfl

/-- A step of a search reads what is allocated. -/
def SafeRead (s : State) (a : Actor) (_ : State) : Prop :=
  match a with
  | .main => True
  | .search k => ReadsAllocated s k

/-- **No search reads freed memory**, on the runs where `main` spares what is still to be
read. -/
theorem reads_allocated {search : Int32} {t : Table} (ht : t.Whole) {tr : List (Actor × State)}
    (h : Trace (Step search) (created t) tr)
    (hspares : AllSteps (fun s a _ => Spares s a) (created t) tr) :
    AllSteps SafeRead (created t) tr := by
  refine (h.restrict hspares).allSteps (I := Inv) (fun s a t hs hst => ?_) (inv_created ht)
  refine ⟨inv_step hs hst.2 hst.1, ?_⟩
  cases a with
  | main => trivial
  | search k => exact hs.readsAllocated k

/-! ## One item -/

/-- A table with one item, in bucket `0`. -/
def oneItem : Table :=
  ⟨⟨some (update (fun _ => none) 0 (some 0)), 100⟩,
    ⟨update (fun _ => none) 0 (some ⟨[65, 0, 0, 0], 7, none⟩), []⟩⟩

def first : Fin THREADS := ⟨0, by decide⟩

theorem oneItem_whole : oneItem.Whole := by
  refine ⟨rfl, _, rfl, fun j _ => ?_⟩
  by_cases hj : UInt64.ofNat j = 0
  · rw [hj, update_self]
    exact ⟨[(0, ⟨[65, 0, 0, 0], 7⟩)], rfl, none, rfl, rfl⟩
  · rw [update_of_ne hj]
    exact ⟨[], rfl⟩

/-- Past bucket `0` there is nothing to read. -/
theorem not_toRead_oneItem {mem : Heap} {i : Nat} (hi : 0 < i) (k : Fin THREADS) (a : Addr) :
    ¬ ToRead mem oneItem.h.buckets (stop k) (.testEnd i) a := by
  intro h
  induction h with
  | here h => cases h
  | @bucket j heads a hj hheads ha =>
    obtain rfl := Option.some.inj hheads
    have hk := k.isLt
    have hlt : j < 100 := by
      have hstop := hj.2
      simp only [stop, start, THREADS, BUCKET_SIZE, BUCKETS] at hstop hk
      omega
    have hj0 : UInt64.ofNat j ≠ 0 := by
      intro h0
      have hnat := congrArg UInt64.toNat h0
      rw [UInt64.toNat_ofNat', Nat.mod_eq_of_lt (Nat.lt_trans hlt (by decide))] at hnat
      have hj0 : j = 0 := hnat
      have hij := hj.1
      omega
    rw [update_of_ne hj0] at ha
    cases ha
  | next _ _ _ ih => exact ih

theorem ne_exited {s : State} (h : (mainNext s).isSome) : s.main ≠ .exited := by
  intro hexit
  simp [mainNext, hexit] at h

/-- `main` may free the item a search has come to. -/
theorem reads_allocated_fails : ¬ ∀ (search : Int32) (t : Table), t.Whole →
    ∀ tr, Trace (Step search) (created t) tr → AllSteps SafeRead (created t) tr := by
  intro hall
  have hstale := hall 7 oneItem oneItem_whole _
    (.cons (.search (k := first) (ne_exited rfl) rfl)
      (.cons (.search (k := first) (ne_exited rfl) rfl)
      (.cons (.search (k := first) (ne_exited rfl) rfl)
      (.cons (.main rfl) (.cons (.main rfl) (.cons (.main rfl) (.cons (.main rfl)
      (.cons (.stale (k := first) ⟨.returned, []⟩ (ne_exited rfl) Bool.false_ne_true)
      (.nil _)))))))))
  exact Bool.false_ne_true hstale.2.2.2.2.2.2.2.1

/-- It may also free it once the search is past it. -/
theorem reads_allocated_oneItem : ∃ tr : List (Actor × State),
    AllSteps SafeRead (created oneItem) tr ∧
      (lastState (created oneItem) tr).mem.item 0 = none := by
  have htrace : Trace (Step 0) (created oneItem) _ :=
    .cons (.search (k := first) (ne_exited rfl) rfl)
      (.cons (.search (k := first) (ne_exited rfl) rfl)
      (.cons (.search (k := first) (ne_exited rfl) rfl)
      (.cons (.search (k := first) (ne_exited rfl) rfl)
      (.cons (.search (k := first) (ne_exited rfl) rfl)
      (.cons (.main rfl) (.cons (.main rfl) (.cons (.main rfl) (.cons (.main rfl)
      (.nil _)))))))))
  refine ⟨_, reads_allocated oneItem_whole htrace ?_, rfl⟩
  refine ⟨trivial, trivial, trivial, trivial, trivial, trivial, trivial, trivial, ?_, trivial⟩
  intro k
  by_cases hk : k = first
  · subst hk
    exact not_toRead_oneItem (Nat.zero_lt_one) first 0
  · have hpos : 0 < start k := by
      have hne : k.val ≠ 0 := fun h => hk (Fin.ext h)
      simp only [start, BUCKET_SIZE, BUCKETS, THREADS]
      omega
    simp only [State.ToRead, created, update_of_ne hk]
    exact not_toRead_oneItem hpos k 0

end Hashtable
end Cab403
