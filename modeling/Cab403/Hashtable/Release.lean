import Cab403.Hashtable.Stacks
import Mathlib.Data.Finset.Lattice.Fold
import Mathlib.Data.Finset.Range

/-!
# Who releases an item

`htab_destroy`, and what becomes of the items `htab_add` allocates. The chains own them: an item
is allocated as long as it is on a chain, and it is on one chain (`Owned`). So what `htab_delete`
unlinks is what it releases, and `htab_destroy`, which goes through every chain, meets each item
there is once.

Two things are read off the heap for this. A release of an item that is not there, or a pointer
to it that is followed, ends a function without a result, so a function that returns did neither.
And the log tells the items apart that were allocated at one address, one after the other: the
address has been released as often as it was allocated, alternately (`Released`).
-/

namespace Cab403
namespace Hashtable

open Function Lib

/-! ## `htab_destroy` -/

/-- The inner loop, from `bucket` on. -/
def freeChain : Nat → Option Addr → Heap → Option Heap
  | 0, _, _ => none
  | _ + 1, none, m => some m
  | fuel + 1, some bucket, m => do
    let i ← m.item bucket
    let m ← m.free bucket
    freeChain fuel i.next m

/-- The loop over the buckets, from `i` on; `long` is the fuel of the inner one. -/
def freeBuckets (long : Nat) (h : Htab) : Nat → UInt64 → Heap → Option Heap
  | 0, _, _ => none
  | fuel + 1, i, m =>
    if i < h.size then do
      let buckets ← h.buckets
      let m ← freeChain long (buckets i) m
      freeBuckets long h fuel (i + 1) m
    else some m

def htabDestroy (fuel : Nat) (t : Table) : Option Table := do
  let m ← freeBuckets fuel t.h fuel 0 t.mem
  some ⟨⟨none, 0⟩, m⟩

/-! ## What is allocated -/

/-- There is an item at `a`. -/
def Heap.live (m : Heap) (a : Addr) : Bool := (m.item a).isSome

def Event.addr : Event → Addr
  | .malloc a => a
  | .free a => a

/-- What has happened at `a`, the latest first. -/
def Heap.history (m : Heap) (a : Addr) : List Event := m.log.filter (·.addr == a)

/-- Whatever was allocated at `a` has been released once, before the address was used again. -/
inductive Released (a : Addr) : List Event → Prop
  | nil : Released a []
  | cons {es : List Event} : Released a es → Released a (.free a :: .malloc a :: es)

/-- The log is right: where there is no item, all that were have been released; where there is
one, it is the last allocated there, and has not been. -/
structure Heap.Tracked (m : Heap) : Prop where
  gone : ∀ a, m.live a = false → Released a (m.history a)
  live : ∀ a, m.live a = true → ∃ es, m.history a = .malloc a :: es ∧ Released a es

/-- What a call can do to the heap, links apart. -/
inductive Heap.Change (m m' : Heap) : Prop
  | keep (hlog : m'.log = m.log) (hlive : m'.live = m.live)
  | malloc (a : Addr) (hfresh : m.live a = false) (hlog : m'.log = .malloc a :: m.log)
      (hlive : m'.live = update m.live a true)
  | free (a : Addr) (hthere : m.live a = true) (hlog : m'.log = .free a :: m.log)
      (hlive : m'.live = update m.live a false)

theorem Heap.live_of_item {m : Heap} {a : Addr} {i : Item} (h : m.item a = some i) :
    m.live a = true := by
  rw [Heap.live, h]
  rfl

theorem Heap.live_update {m m' : Heap} {a : Addr} {i : Option Item}
    (h : m'.item = update m.item a i) : m'.live = update m.live a i.isSome := by
  funext b
  unfold Heap.live
  rw [h]
  by_cases hb : b = a
  · subst hb
    simp
  · rw [update_of_ne hb, update_of_ne hb]

theorem Heap.Change.of_malloc {m : Heap} {a : Addr} (hfresh : m.item a = none) (i : Item) :
    Heap.Change m (m.malloc a i) := by
  refine .malloc a ?_ rfl (Heap.live_update (i := some i) rfl)
  rw [Heap.live, hfresh]
  rfl

theorem Heap.Change.of_free {m m' : Heap} {a : Addr} (h : m.free a = some m') :
    Heap.Change m m' := by
  obtain ⟨i, hi, hm'⟩ := Option.map_eq_some_iff.mp h
  refine .free a (Heap.live_of_item hi) ?_ (Heap.live_update (Heap.cell_free h).2)
  rw [← hm']

/-- Writing a pointer before does not count. -/
theorem Heap.Change.after_setNext {m m₁ m' : Heap} {p : Addr} {next : Option Addr}
    (h : m.setNext p next = some m₁) (hc : Heap.Change m₁ m') : Heap.Change m m' := by
  obtain ⟨i, hi, rfl⟩ := Option.map_eq_some_iff.mp h
  have hlive : Heap.live ⟨update m.item p (some { i with next := next }), m.log⟩ = m.live := by
    rw [Heap.live_update (m := m) rfl, Option.isSome_some]
    exact (congrArg (update m.live p) (Heap.live_of_item hi).symm).trans (update_eq_self p _)
  cases hc with
  | keep hlog hlive' => exact .keep hlog (hlive'.trans hlive)
  | malloc a hfresh hlog hlive' =>
    rw [hlive] at hfresh hlive'
    exact .malloc a hfresh hlog hlive'
  | free a hthere hlog hlive' =>
    rw [hlive] at hthere hlive'
    exact .free a hthere hlog hlive'

theorem Heap.Tracked.empty : Heap.empty.Tracked :=
  ⟨fun _ _ => .nil, fun _ h => by cases h⟩

/-- An event is part of the history of its own address, and says whether there is an item now. -/
theorem Heap.Tracked.event {m m' : Heap} (h : m.Tracked) {e : Event} {there : Bool}
    (hlog : m'.log = e :: m.log) (hlive : m'.live = update m.live e.addr there)
    (hgone : there = false → Released e.addr (e :: m.history e.addr))
    (hthere : there = true → ∃ es, e :: m.history e.addr = .malloc e.addr :: es ∧
      Released e.addr es) : m'.Tracked := by
  have hself : m'.history e.addr = e :: m.history e.addr := by
    rw [Heap.history, hlog, List.filter_cons_of_pos (by simp)]
    rfl
  have hother : ∀ b, b ≠ e.addr → m'.history b = m.history b := by
    intro b hb
    rw [Heap.history, hlog, List.filter_cons_of_neg (by simpa using hb.symm)]
    rfl
  refine ⟨fun b hb => ?_, fun b hb => ?_⟩
  all_goals
    rw [hlive] at hb
    by_cases hbe : b = e.addr
  · subst hbe
    rw [update_self] at hb
    rw [hself]
    exact hgone hb
  · rw [update_of_ne hbe] at hb
    rw [hother b hbe]
    exact h.gone b hb
  · subst hbe
    rw [update_self] at hb
    rw [hself]
    exact hthere hb
  · rw [update_of_ne hbe] at hb
    rw [hother b hbe]
    exact h.live b hb

/-- **The log stays right.** -/
theorem Heap.Tracked.change {m m' : Heap} (h : m.Tracked) (hc : Heap.Change m m') :
    m'.Tracked := by
  cases hc with
  | keep hlog hlive =>
    have hhistory : m'.history = m.history := by
      funext a
      rw [Heap.history, hlog]
      rfl
    refine ⟨?_, ?_⟩ <;> rw [hlive, hhistory]
    · exact h.gone
    · exact h.live
  | malloc a hfresh hlog hlive =>
    exact h.event hlog hlive nofun fun _ => ⟨_, rfl, h.gone a hfresh⟩
  | free a hthere hlog hlive =>
    obtain ⟨es, hes, hreleased⟩ := h.live a hthere
    refine h.event hlog hlive (fun _ => ?_) nofun
    rw [show m.history (Event.free a).addr = _ from hes]
    exact .cons hreleased

/-! ## What the calls change -/

theorem unlinkItem_change {key : Chars} {previous : Option Addr} {current : Addr}
    {next : Option Addr} {t t' : Table} (h : unlinkItem key previous current next t = some t') :
    Heap.Change t.mem t'.mem := by
  cases previous with
  | none =>
    obtain ⟨_, _, h⟩ := Option.bind_eq_some_iff.mp h
    obtain ⟨_, _, h⟩ := Option.bind_eq_some_iff.mp h
    obtain ⟨m, hfree, h⟩ := Option.bind_eq_some_iff.mp h
    cases h
    exact .of_free hfree
  | some p =>
    obtain ⟨m₁, hset, h⟩ := Option.bind_eq_some_iff.mp h
    obtain ⟨m, hfree, h⟩ := Option.bind_eq_some_iff.mp h
    cases h
    exact (Heap.Change.of_free hfree).after_setNext hset

theorem deleteLoop_change {key : Chars} {fuel : Nat} {previous current : Option Addr}
    {t t' : Table} (h : deleteLoop key fuel previous current t = some t') :
    Heap.Change t.mem t'.mem := by
  induction fuel generalizing previous current with
  | zero => cases h
  | succ fuel ih =>
    cases current with
    | none =>
      cases h
      exact .keep rfl rfl
    | some current =>
      obtain ⟨i, _, h⟩ := Option.bind_eq_some_iff.mp h
      by_cases hkey : strcmp i.key key = 0
      · rw [if_pos hkey] at h
        exact unlinkItem_change h
      · rw [if_neg hkey] at h
        exact ih h

theorem Makes.change {t t' : Table} {c : Call} (h : Makes t c t') : Heap.Change t.mem t'.mem := by
  cases h with
  | @add _ _ _ answer _ hfresh h =>
    cases answer with
    | none =>
      cases h
      exact .keep rfl rfl
    | some a =>
      obtain ⟨_, _, h⟩ := Option.bind_eq_some_iff.mp h
      obtain ⟨_, _, h⟩ := Option.bind_eq_some_iff.mp h
      obtain ⟨_, _, h⟩ := Option.bind_eq_some_iff.mp h
      cases h
      exact .of_malloc (hfresh a rfl) _
  | delete h =>
    obtain ⟨_, _, h⟩ := Option.bind_eq_some_iff.mp h
    exact deleteLoop_change h

/-- A log says what was allocated and what was released between two heaps. -/
theorem Heap.Change.events {m m' : Heap} (h : Heap.Change m m') : ∃ new, m'.log = new ++ m.log ∧
    ∀ a, (.malloc a ∈ new ↔ m.live a = false ∧ m'.live a = true) ∧
      (.free a ∈ new ↔ m.live a = true ∧ m'.live a = false) := by
  cases h with
  | keep hlog hlive =>
    refine ⟨[], hlog, fun b => ?_⟩
    rw [hlive]
    cases m.live b <;> simp
  | malloc a hfresh hlog hlive =>
    refine ⟨[.malloc a], hlog, fun b => ?_⟩
    rw [hlive]
    by_cases hba : b = a
    · subst hba
      simp [hfresh]
    · rw [update_of_ne hba]
      cases m.live b <;> simp [hba]
  | free a hthere hlog hlive =>
    refine ⟨[.free a], hlog, fun b => ?_⟩
    rw [hlive]
    by_cases hba : b = a
    · subst hba
      simp [hthere]
    · rw [update_of_ne hba]
      cases m.live b <;> simp [hba]

/-! ## The chains own the items -/

/-- The item at `a` is on the chain of a bucket. -/
def Table.OnChain (t : Table) (a : Addr) : Prop :=
  ∃ i < t.h.size, ∃ l, t.Chain i l ∧ a ∈ l.map Prod.fst

/-- Every chain ends, no item is on two of them or twice on one, and the items on them are the
ones there are. -/
structure Owned (t : Table) : Prop where
  ends : ∀ i < t.h.size, ∃ l, t.Chain i l
  once : ∀ i < t.h.size, ∀ l, t.Chain i l → (l.map Prod.fst).Nodup
  disjoint : ∀ i < t.h.size, ∀ j < t.h.size, ∀ l l', t.Chain i l → t.Chain j l' →
    ∀ a ∈ l.map Prod.fst, a ∈ l'.map Prod.fst → i = j
  live : ∀ a, t.OnChain a ↔ t.mem.live a = true

section Rep

variable {n : UInt64} {t : Table} {chain : UInt64 → List (Addr × Entry)}

theorem Rep.onChain_iff (h : Rep n t chain) (hn : 0 < n) {a : Addr} :
    t.OnChain a ↔ t.mem.live a = true := by
  unfold Table.OnChain
  rw [h.size]
  constructor
  · intro hon
    obtain ⟨i, hi, l, hl, ha⟩ := hon
    obtain rfl := (h.chain_iff hi).mp hl
    obtain ⟨buckets, _, hlinked⟩ := h.chains
    obtain ⟨e, he, rfl⟩ := List.mem_map.mp ha
    obtain ⟨next, hcell⟩ := (hlinked i hi).cell_of_mem he
    exact Heap.live_of_item (Heap.item_of_cell hcell)
  · intro hlive
    obtain ⟨i, hi⟩ := Option.isSome_iff_exists.mp hlive
    have hslot := slot_lt hn i.key
    exact ⟨_, hslot, _, h.chainOf hslot, h.covers a i hi⟩

theorem Rep.owned (h : Rep n t chain) (hn : 0 < n) : Owned t := by
  refine ⟨?_, ?_, ?_, fun a => h.onChain_iff hn⟩
  all_goals rw [h.size]
  · intro i hi
    exact ⟨_, h.chainOf hi⟩
  · intro i hi l hl
    obtain ⟨_, _, hlinked⟩ := hl
    exact hlinked.nodup
  · intro i hi j hj l l' hl hl' a ha ha'
    obtain rfl := (h.chain_iff hi).mp hl
    obtain rfl := (h.chain_iff hj).mp hl'
    obtain ⟨e, he, rfl⟩ := List.mem_map.mp ha
    by_contra hij
    exact h.disjoint hi hj hij he ha'

end Rep

/-! ## Releasing the chains -/

/-- A loop that releases: the log grows by what it has released. -/
def Heap.ReleasesOnly (m m' : Heap) : Prop :=
  (m.Tracked → m'.Tracked) ∧ ∃ freed : List Addr, m'.log = freed.map .free ++ m.log

theorem Heap.ReleasesOnly.refl (m : Heap) : m.ReleasesOnly m := ⟨id, [], rfl⟩

theorem Heap.ReleasesOnly.trans {m m₁ m' : Heap} (h : m.ReleasesOnly m₁)
    (h' : m₁.ReleasesOnly m') : m.ReleasesOnly m' := by
  obtain ⟨htracked, freed, hlog⟩ := h
  obtain ⟨htracked', freed', hlog'⟩ := h'
  refine ⟨htracked' ∘ htracked, freed' ++ freed, ?_⟩
  rw [hlog', hlog, List.map_append, List.append_assoc]

theorem Heap.ReleasesOnly.of_free {m m' : Heap} {a : Addr} (h : m.free a = some m') :
    m.ReleasesOnly m' := by
  refine ⟨fun htracked => htracked.change (.of_free h), [a], ?_⟩
  obtain ⟨_, _, rfl⟩ := Option.map_eq_some_iff.mp h
  rfl

theorem freeChain_releases {fuel : Nat} {head : Option Addr} {m m' : Heap}
    (h : freeChain fuel head m = some m') : m.ReleasesOnly m' := by
  induction fuel generalizing head m with
  | zero => cases h
  | succ fuel ih =>
    cases head with
    | none =>
      cases h
      exact .refl _
    | some bucket =>
      obtain ⟨i, _, h⟩ := Option.bind_eq_some_iff.mp h
      obtain ⟨m₁, hfree, h⟩ := Option.bind_eq_some_iff.mp h
      exact (Heap.ReleasesOnly.of_free hfree).trans (ih h)

theorem freeBuckets_releases {long fuel : Nat} {h : Htab} {i : UInt64} {m m' : Heap}
    (hfree : freeBuckets long h fuel i m = some m') : m.ReleasesOnly m' := by
  induction fuel generalizing i m with
  | zero => cases hfree
  | succ fuel ih =>
    unfold freeBuckets at hfree
    by_cases hi : i < h.size
    · rw [if_pos hi] at hfree
      obtain ⟨_, _, hfree⟩ := Option.bind_eq_some_iff.mp hfree
      obtain ⟨_, hchain, hfree⟩ := Option.bind_eq_some_iff.mp hfree
      exact (freeChain_releases hchain).trans (ih hfree)
    · rw [if_neg hi] at hfree
      cases hfree
      exact .refl _

/-- **The inner loop releases the items of the chain, and only these.** The pointer to the next
is read before. -/
theorem freeChain_linked {head : Option Addr} {l : List (Addr × Entry)} {m : Heap}
    (h : Linked m.cell head l) :
    (∀ fuel m', freeChain fuel head m = some m' →
      ∀ a, m'.item a = if a ∈ l.map Prod.fst then none else m.item a) ∧
    ∀ fuel, l.length < fuel → ∃ m', freeChain fuel head m = some m' := by
  induction l generalizing head m with
  | nil =>
    obtain rfl : head = none := h
    refine ⟨fun fuel m' hm' a => ?_, fun fuel hfuel => ?_⟩
    · cases fuel with
      | zero => cases hm'
      | succ fuel =>
        cases hm'
        rfl
    · cases fuel with
      | zero => cases hfuel
      | succ fuel => exact ⟨m, rfl⟩
  | cons e l ih =>
    obtain ⟨a, v⟩ := e
    have hnodup := h.nodup
    obtain ⟨rfl, next, hcell, hrest⟩ := h
    have hitem := Heap.item_of_cell hcell
    obtain ⟨m₁, hfree⟩ : ∃ m₁, m.free a = some m₁ := ⟨_, by rw [Heap.free, hitem]; rfl⟩
    obtain ⟨hcell₁, hitem₁⟩ := Heap.cell_free hfree
    have hloop : ∀ fuel, freeChain (fuel + 1) (some a) m = freeChain fuel next m₁ := by
      intro fuel
      simp only [freeChain, hitem, hfree, Option.bind_eq_bind, Option.bind_some]
    have hrest₁ : Linked m₁.cell next l := by
      rw [hcell₁]
      exact hrest.update_of_not_mem (List.nodup_cons.mp hnodup).1 _
    refine ⟨fun fuel m' hm' b => ?_, fun fuel hfuel => ?_⟩
    · cases fuel with
      | zero => cases hm'
      | succ fuel =>
        rw [hloop] at hm'
        rw [(ih hrest₁).1 fuel m' hm' b, hitem₁, List.map_cons]
        by_cases hb : b = a
        · rw [hb, update_self, if_pos List.mem_cons_self, ite_self]
        · rw [update_of_ne hb]
          simp only [List.mem_cons, or_iff_right hb]
    · cases fuel with
      | zero => cases hfuel
      | succ fuel =>
        rw [hloop]
        exact (ih hrest₁).2 fuel (Nat.lt_of_succ_lt_succ hfuel)

/-- Before the bucket `i`: the buckets from there on have their chains, and no other item is
left. -/
structure Remain (n : UInt64) (h : Htab) (chain : UInt64 → List (Addr × Entry)) (i : UInt64)
    (m : Heap) : Prop where
  size : h.size = n
  chains : ∃ buckets, h.buckets = some buckets ∧
    ∀ j < n, i ≤ j → Linked m.cell (buckets j) (chain j)
  disjoint : ∀ j < n, ∀ k < n, j ≠ k → ∀ e ∈ chain j, e.1 ∉ (chain k).map Prod.fst
  covers : ∀ a, m.live a = true → ∃ j < n, i ≤ j ∧ a ∈ (chain j).map Prod.fst

section Remain

variable {n i : UInt64} {h : Htab} {chain : UInt64 → List (Addr × Entry)} {m : Heap}

theorem Rep.remain {t : Table} (hrep : Rep n t chain) (hn : 0 < n) :
    Remain n t.h chain 0 t.mem := by
  obtain ⟨buckets, hbuckets, hlinked⟩ := hrep.chains
  refine ⟨hrep.size, ⟨buckets, hbuckets, fun j hj _ => hlinked j hj⟩, ?_, fun a ha => ?_⟩
  · intro j hj k hk hjk e he
    exact hrep.disjoint hj hk hjk he
  · obtain ⟨item, hitem⟩ := Option.isSome_iff_exists.mp ha
    exact ⟨_, slot_lt hn item.key, UInt64.zero_le, hrep.covers a item hitem⟩

theorem lt_of_succ_le {i j n : UInt64} (hi : i < n) (h : i + 1 ≤ j) : i < j := by
  rw [UInt64.lt_iff_toNat_lt] at *
  rw [UInt64.le_iff_toNat_le, UInt64.toNat_add] at h
  have := n.toNat_lt
  have hone : (1 : UInt64).toNat = 1 := rfl
  omega

/-- One bucket further. -/
theorem Remain.next (hr : Remain n h chain i m) (hi : i < n) {m' : Heap}
    (hm' : ∀ a, m'.item a = if a ∈ (chain i).map Prod.fst then none else m.item a) :
    Remain n h chain (i + 1) m' := by
  obtain ⟨buckets, hbuckets, hlinked⟩ := hr.chains
  refine ⟨hr.size, ⟨buckets, hbuckets, ?_⟩, hr.disjoint, ?_⟩
  · intro j hj hij
    have hlt := lt_of_succ_le hi hij
    refine (hlinked j hj (UInt64.le_of_lt hlt)).frame fun e he => ?_
    rw [Heap.cell, Heap.cell, hm' e.1,
      if_neg (hr.disjoint j hj i hi (UInt64.ne_of_lt hlt).symm e he)]
  · intro a ha
    have hai : a ∉ (chain i).map Prod.fst := by
      intro hmem
      rw [Heap.live, hm' a, if_pos hmem] at ha
      cases ha
    have hold : m.live a = true := by
      rw [Heap.live, hm' a, if_neg hai] at ha
      exact ha
    obtain ⟨j, hj, hij, hmem⟩ := hr.covers a hold
    refine ⟨j, hj, ?_, hmem⟩
    have hne : i ≠ j := by
      rintro rfl
      exact hai hmem
    rw [UInt64.le_iff_toNat_le, UInt64.toNat_add]
    rw [UInt64.le_iff_toNat_le] at hij
    have hne' : i.toNat ≠ j.toNat := fun heq => hne (UInt64.toNat_inj.mp heq)
    have hone : (1 : UInt64).toNat = 1 := rfl
    omega

/-- **The loop over the buckets leaves no item**, and gets to the end of every table. -/
theorem Remain.freeBuckets (hr : Remain n h chain i m) {long : Nat} {fuel : Nat} :
    (∀ m', freeBuckets long h fuel i m = some m' → ∀ a, m'.live a = false) ∧
    ((∀ j < n, (chain j).length < long) → n.toNat - i.toNat < fuel →
      ∃ m', freeBuckets long h fuel i m = some m') := by
  induction fuel generalizing i m with
  | zero => exact ⟨nofun, fun _ hfuel => absurd hfuel (Nat.not_lt_zero _)⟩
  | succ fuel ih =>
    unfold Hashtable.freeBuckets
    rw [hr.size]
    by_cases hi : i < n
    · rw [if_pos hi]
      obtain ⟨buckets, hbuckets, hlinked⟩ := hr.chains
      have hchain := freeChain_linked (hlinked i hi (UInt64.le_refl i))
      simp only [hbuckets, Option.bind_eq_bind, Option.bind_some]
      refine ⟨fun m' hm' => ?_, fun hlong hfuel => ?_⟩
      · obtain ⟨m₁, hm₁, hrest⟩ := Option.bind_eq_some_iff.mp hm'
        exact (ih (hr.next hi (hchain.1 long m₁ hm₁))).1 m' hrest
      · obtain ⟨m₁, hm₁⟩ := hchain.2 long (hlong i hi)
        rw [hm₁, Option.bind_some]
        refine (ih (hr.next hi (hchain.1 long m₁ hm₁))).2 hlong ?_
        rw [UInt64.lt_iff_toNat_lt] at hi
        rw [UInt64.toNat_add]
        have hone : (1 : UInt64).toNat = 1 := rfl
        have hlt := n.toNat_lt
        omega
    · rw [if_neg hi]
      refine ⟨fun m' hm' a => ?_, fun _ _ => ⟨m, rfl⟩⟩
      cases hm'
      by_contra hlive
      obtain ⟨j, hj, hij, _⟩ := hr.covers a (Bool.eq_true_of_not_eq_false hlive)
      exact hi (UInt64.lt_of_le_of_lt hij hj)

end Remain

theorem exists_long (n : UInt64) (chain : UInt64 → List (Addr × Entry)) :
    ∃ long, ∀ j < n, (chain j).length < long := by
  refine ⟨(Finset.range n.toNat).sup (fun k => (chain (UInt64.ofNat k)).length) + 1, fun j hj => ?_⟩
  have hle := Finset.le_sup (f := fun k => (chain (UInt64.ofNat k)).length)
    (Finset.mem_range.mpr (UInt64.lt_iff_toNat_lt.mp hj))
  rw [UInt64.ofNat_toNat] at hle
  exact Nat.lt_succ_of_le hle

/-- **`htab_destroy` returns, and has released everything.** -/
theorem Rep.destroy {n : UInt64} {t : Table} {chain : UInt64 → List (Addr × Entry)}
    (h : Rep n t chain) (hn : 0 < n) :
    (∃ fuel t', htabDestroy fuel t = some t') ∧
    ∀ fuel t', htabDestroy fuel t = some t' →
      t.mem.ReleasesOnly t'.mem ∧ ∀ a, t'.mem.live a = false := by
  have hremain := h.remain hn
  constructor
  · obtain ⟨long, hlong⟩ := exists_long n chain
    obtain ⟨fuel, hlongle, hle⟩ : ∃ fuel, long ≤ fuel ∧ n.toNat < fuel :=
      ⟨max long (n.toNat + 1), Nat.le_max_left .., Nat.le_max_right ..⟩
    obtain ⟨m, hm⟩ : ∃ m, freeBuckets fuel t.h fuel 0 t.mem = some m :=
      hremain.freeBuckets.2 (fun j hj => Nat.lt_of_lt_of_le (hlong j hj) hlongle)
        (Nat.lt_of_le_of_lt (Nat.sub_le ..) hle)
    exact ⟨fuel, _, by rw [htabDestroy, hm]; rfl⟩
  · intro fuel t' ht'
    obtain ⟨m, hm, ht'⟩ := Option.bind_eq_some_iff.mp ht'
    cases ht'
    exact ⟨freeBuckets_releases hm, hremain.freeBuckets.1 m hm⟩

/-! ## Runs -/

/-- **Every item is released once.** After any calls on a table `htab_init` has made, whatever
`malloc` answers: the items there are are those on the chains, each on one of them; nothing is
released twice, and no pointer to a released item is there to be followed, so that every next
call returns. A call releases an item exactly when it unlinks it. `htab_destroy` returns, and
then whatever was ever allocated has been released once. -/
theorem htab_releases {n : UInt64} (hn : 0 < n) {grant : Bool} {h : Htab}
    (hinit : htabInit grant n = (true, h)) {calls : List (Call × Table)}
    (hcalls : Trace Makes ⟨h, .empty⟩ calls) :
    AllStates (fun t => Owned t ∧ t.mem.Tracked ∧ ∀ c : Call, c.Fresh t → ∃ t', Makes t c t')
      ⟨h, .empty⟩ calls ∧
    AllSteps (fun s _ t => ∃ new, t.mem.log = new ++ s.mem.log ∧ ∀ a,
      (.malloc a ∈ new ↔ ¬ s.OnChain a ∧ t.OnChain a) ∧
      (.free a ∈ new ↔ s.OnChain a ∧ ¬ t.OnChain a)) ⟨h, .empty⟩ calls ∧
    (∃ fuel t, htabDestroy fuel (lastState ⟨h, .empty⟩ calls) = some t) ∧
    ∀ fuel t, htabDestroy fuel (lastState ⟨h, .empty⟩ calls) = some t →
      (∃ freed : List Addr, t.mem.log =
        freed.map .free ++ (lastState ⟨h, .empty⟩ calls).mem.log) ∧
      ∀ a, t.mem.item a = none ∧ Released a (t.mem.history a) := by
  have hstep : ∀ s c t, (∃ chain, Rep n s chain) ∧ s.mem.Tracked → Makes s c t →
      (∃ chain, Rep n t chain) ∧ t.mem.Tracked := by
    intro s c t hs hc
    obtain ⟨⟨chain, hs⟩, htracked⟩ := hs
    exact ⟨⟨_, hs.makes hn hc⟩, htracked.change hc.change⟩
  have hstart : (∃ chain, Rep n ⟨h, .empty⟩ chain) ∧ Heap.empty.Tracked :=
    ⟨⟨_, rep_init n hinit⟩, .empty⟩
  have hall := hcalls.allStates hstep hstart
  obtain ⟨⟨chain, hlast⟩, htracked⟩ := hall.last
  obtain ⟨hreturns, hreleased⟩ := hlast.destroy hn
  refine ⟨?_, ?_, hreturns, fun fuel t ht => ?_⟩
  · refine hall.imp fun t ht => ?_
    obtain ⟨⟨chain, ht⟩, htracked⟩ := ht
    exact ⟨ht.owned hn, htracked, fun c hc => ht.exists_makes hn hc⟩
  · refine hcalls.allSteps (I := fun t => (∃ chain, Rep n t chain) ∧ t.mem.Tracked)
      (fun s c t hs hc => ?_) hstart
    have ht := hstep s c t hs hc
    refine ⟨ht, ?_⟩
    obtain ⟨⟨_, hs⟩, _⟩ := hs
    obtain ⟨⟨_, ht⟩, _⟩ := ht
    obtain ⟨new, hlog, hnew⟩ := hc.change.events
    refine ⟨new, hlog, fun a => ?_⟩
    rw [hs.onChain_iff hn, ht.onChain_iff hn, Bool.not_eq_true, Bool.not_eq_true]
    exact hnew a
  · obtain ⟨⟨htracked', hfreed⟩, hgone⟩ := hreleased fuel t ht
    refine ⟨hfreed, fun a => ⟨?_, (htracked' htracked).gone a (hgone a)⟩⟩
    exact Option.isNone_iff_eq_none.mp (by simpa [Heap.live] using hgone a)

/-- Two items in one bucket; the older one is deleted, its address is used again, and the table
destroyed: everything allocated at the address, the second time too, has been released. -/
theorem htab_releases_reused : ∃ (calls : List (Call × Table)) (t : Table),
    calls.map Prod.fst =
      [.add keyA 7 (some 0), .add keyB 8 (some 1), .delete keyA, .add keyA 9 (some 0)] ∧
    htabDestroy 4 (lastState ⟨(htabInit true 1).2, .empty⟩ calls) = some t ∧
    t.mem.history 0 = [.free 0, .malloc 0, .free 0, .malloc 0] ∧
    Released 0 (t.mem.history 0) := by
  have hone : (0 : UInt64) < 1 := by decide
  have hinit : htabInit true 1 = (true, (htabInit true 1).2) := rfl
  obtain ⟨calls, hcalls, hnames⟩ : ∃ calls, Trace Makes ⟨(htabInit true 1).2, .empty⟩ calls ∧
      calls.map Prod.fst =
        [.add keyA 7 (some 0), .add keyB 8 (some 1), .delete keyA, .add keyA 9 (some 0)] ∧
      ∃ t, htabDestroy 4 (lastState ⟨(htabInit true 1).2, .empty⟩ calls) = some t ∧
        t.mem.history 0 = [.free 0, .malloc 0, .free 0, .malloc 0] :=
    ⟨_, .cons (.add (fun _ _ => rfl) rfl)
      (.cons (.add (fun _ h => by cases h; rfl) rfl)
        (.cons (@Makes.delete _ _ keyA 3 rfl)
          (.cons (.add (fun _ h => by cases h; rfl) rfl) (.nil _)))), rfl, _, rfl, rfl⟩
  obtain ⟨hnames, t, ht, hhistory⟩ := hnames
  exact ⟨calls, t, hnames, ht, hhistory,
    (((htab_releases hone hinit hcalls).2.2.2 4 t ht).2 0).2⟩

end Hashtable
end Cab403
