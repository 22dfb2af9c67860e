import Cab403.Hashtable.Table

/-!
# The chains of a hash table

`Rep n t chain` reads a table off its heap: which entries are on the chain of each of its `n`
buckets, that the key of an entry hashes to the bucket it is in, and that every item the heap
holds is on a chain. `htab_add` puts one entry in front of one chain (`Rep.add`) and `htab_delete`
takes one out of one chain (`Rep.delete`), at its head or behind another item.

That the other chains are not touched needs no separate argument about sharing: an item on two
chains would hash to both buckets (`Rep.disjoint`).
-/

namespace Cab403
namespace Hashtable

open Function Lib

/-! ## Entries and chains -/

/-- What an item holds beside its pointer. -/
structure Entry where
  key : Chars
  value : Int32
  deriving DecidableEq, Repr

def Item.entry (i : Item) : Entry := ⟨i.key, i.value⟩

def Heap.cell (m : Heap) (a : Addr) : Option (Entry × Option Addr) :=
  (m.item a).map fun i => (i.entry, i.next)

/-- The entry is one of `key`'s. -/
def hasKey (key : Key) (e : Addr × Entry) : Bool := text e.2.key == key.chars

/-- The bucket of a key. -/
def slot (n : UInt64) (key : Chars) : UInt64 := djbHash key % n

/-- The chain of bucket `i`. -/
def Table.Chain (t : Table) (i : UInt64) (l : List (Addr × Entry)) : Prop :=
  ∃ buckets, t.h.buckets = some buckets ∧ Linked t.mem.cell (buckets i) l

theorem hasKey_iff {key : Key} {e : Addr × Entry} :
    hasKey key e = true ↔ text e.2.key = key.chars :=
  beq_iff_eq

/-- The comparison of `htab_delete`. -/
theorem strcmp_iff_hasKey {key : Key} {e : Addr × Entry} :
    strcmp e.2.key key.chars = 0 ↔ hasKey key e = true := by
  rw [strcmp_eq_zero, key.text_chars, hasKey_iff]

theorem slot_strncpy (n : UInt64) (key : Key) :
    slot n (strncpy 4 key.chars) = slot n key.chars := by
  unfold slot
  rw [← djbHash_text, key.text_strncpy]

theorem Heap.item_of_cell {m : Heap} {a : Addr} {e : Entry} {next : Option Addr}
    (h : m.cell a = some (e, next)) : m.item a = some ⟨e.key, e.value, next⟩ := by
  obtain ⟨i, hi, heq⟩ := Option.map_eq_some_iff.mp h
  obtain ⟨rfl, rfl⟩ := Prod.mk.inj heq
  exact hi

theorem Heap.cell_malloc (m : Heap) (a : Addr) (i : Item) :
    (m.malloc a i).cell = update m.cell a (some (i.entry, i.next)) := by
  funext b
  unfold Heap.cell Heap.malloc
  by_cases hb : b = a
  · subst hb
    simp
  · simp [update_of_ne hb]

theorem Heap.cell_free {m m' : Heap} {a : Addr} (h : m.free a = some m') :
    m'.cell = update m.cell a none ∧ m'.item = update m.item a none := by
  obtain ⟨i, _, rfl⟩ := Option.map_eq_some_iff.mp h
  refine ⟨?_, rfl⟩
  funext b
  by_cases hb : b = a
  · subst hb
    simp [Heap.cell]
  · simp [Heap.cell, update_of_ne hb]

theorem Heap.cell_setNext {m : Heap} {a : Addr} {i : Item} (hi : m.item a = some i)
    (next : Option Addr) : ∃ m', m.setNext a next = some m' ∧
      m'.cell = update m.cell a (some (i.entry, next)) ∧
      m'.item = update m.item a (some { i with next := next }) := by
  refine ⟨_, by rw [Heap.setNext, hi]; rfl, ?_, rfl⟩
  funext b
  by_cases hb : b = a
  · subst hb
    simp [Heap.cell, Item.entry]
  · simp [Heap.cell, update_of_ne hb]

/-- What is left after a `free` was there before, and is not what was freed. -/
theorem Heap.item_of_free {m m' : Heap} {a x : Addr} {i : Item} (h : m.free a = some m')
    (hx : m'.item x = some i) : x ≠ a ∧ m.item x = some i := by
  rw [(Heap.cell_free h).2] at hx
  by_cases hxa : x = a
  · rw [hxa, update_self] at hx
    cases hx
  · rw [update_of_ne hxa] at hx
    exact ⟨hxa, hx⟩

/-- Writing a pointer leaves every key. -/
theorem Heap.key_of_update {m m' : Heap} {a x : Addr} {i i₀ : Item} {next : Option Addr}
    (ha : m.item a = some i₀) (hm' : m'.item = update m.item a (some { i₀ with next := next }))
    (hx : m'.item x = some i) : ∃ i₀, m.item x = some i₀ ∧ i₀.key = i.key := by
  rw [hm'] at hx
  by_cases hxa : x = a
  · rw [hxa, update_self] at hx
    rw [hxa]
    exact ⟨_, ha, by rw [← Option.some.inj hx]⟩
  · rw [update_of_ne hxa] at hx
    exact ⟨i, hx, rfl⟩

/-! ## What a table stands for -/

/-- The table `t` of `n` buckets has the entries `chain i` in bucket `i`. -/
structure Rep (n : UInt64) (t : Table) (chain : UInt64 → List (Addr × Entry)) : Prop where
  size : t.h.size = n
  chains : ∃ buckets, t.h.buckets = some buckets ∧ ∀ i < n, Linked t.mem.cell (buckets i) (chain i)
  filed : ∀ i < n, ∀ e ∈ chain i, slot n e.2.key = i
  covers : ∀ a i, t.mem.item a = some i → a ∈ (chain (slot n i.key)).map Prod.fst

section Rep

variable {n : UInt64} {t : Table} {chain : UInt64 → List (Addr × Entry)}

theorem Rep.chainOf (h : Rep n t chain) {i : UInt64} (hi : i < n) : t.Chain i (chain i) := by
  obtain ⟨buckets, hbuckets, hlinked⟩ := h.chains
  exact ⟨buckets, hbuckets, hlinked i hi⟩

theorem Rep.chain_iff (h : Rep n t chain) {i : UInt64} (hi : i < n) {l : List (Addr × Entry)} :
    t.Chain i l ↔ l = chain i := by
  obtain ⟨buckets, hbuckets, hlinked⟩ := h.chains
  constructor
  · intro hl
    obtain ⟨buckets', hbuckets', hl⟩ := hl
    obtain rfl : buckets' = buckets := Option.some.inj (hbuckets'.symm.trans hbuckets)
    exact hl.unique (hlinked i hi)
  · intro hl
    subst hl
    exact h.chainOf hi

/-- An item is on one chain only. -/
theorem Rep.disjoint (h : Rep n t chain) {i j : UInt64} (hi : i < n) (hj : j < n) (hij : i ≠ j)
    {e : Addr × Entry} (he : e ∈ chain i) : e.1 ∉ (chain j).map Prod.fst := by
  intro hmem
  obtain ⟨d, hd, hde⟩ := List.mem_map.mp hmem
  obtain ⟨buckets, _, hlinked⟩ := h.chains
  obtain ⟨next, hcell⟩ := (hlinked i hi).cell_of_mem he
  obtain ⟨next', hcell'⟩ := (hlinked j hj).cell_of_mem hd
  rw [hde, hcell] at hcell'
  have hentry := (Prod.mk.inj (Option.some.inj hcell')).1
  rw [← h.filed i hi e he, ← h.filed j hj d hd, hentry] at hij
  exact hij rfl

theorem Rep.htabIndex (h : Rep n t chain) (hn : 0 < n) (key : Chars) :
    htabIndex t.h key = some (slot n key) := by
  have hne : t.h.size ≠ 0 := by
    rw [h.size]
    exact (UInt64.ne_of_lt hn).symm
  rw [Hashtable.htabIndex, if_neg hne, h.size]
  rfl

theorem slot_lt (hn : 0 < n) (key : Chars) : slot n key < n := UInt64.mod_lt _ hn

/-! ## Adding -/

/-- **`htab_add` puts an entry in front of the chain of its key's bucket.** -/
theorem Rep.add (h : Rep n t chain) (hn : 0 < n) {a : Addr} (hfresh : t.mem.item a = none)
    (key : Key) (value : Int32) : ∃ t', htabAdd (some a) t key.chars value = some (true, t') ∧
      Rep n t' (update chain (slot n key.chars)
        ((a, ⟨strncpy 4 key.chars, value⟩) :: chain (slot n key.chars))) := by
  have hindex := h.htabIndex hn key.chars
  have hslot := slot_lt hn key.chars
  obtain ⟨buckets, hbuckets, hlinked⟩ := h.chains
  generalize hs : slot n key.chars = s at hindex hslot
  refine ⟨⟨⟨some (update buckets s (some a)), t.h.size⟩,
    t.mem.malloc a ⟨strncpy 4 key.chars, value, buckets s⟩⟩, ?_, ?_⟩
  · simp only [htabAdd, hindex, hbuckets, Htab.setBucket, Option.bind_eq_bind, Option.bind_some,
      Option.map_some]
  have hnew : ∀ i < n, a ∉ (chain i).map Prod.fst := by
    intro i hi
    apply (hlinked i hi).not_mem_of_none
    rw [Heap.cell, hfresh]
    rfl
  refine ⟨h.size, ⟨_, rfl, ?_⟩, ?_, ?_⟩
  · intro i hi
    rw [Heap.cell_malloc]
    by_cases his : i = s
    · subst his
      rw [update_self, update_self]
      exact (hlinked i hi).push (hnew i hi) _
    · rw [update_of_ne his, update_of_ne his]
      exact (hlinked i hi).update_of_not_mem (hnew i hi) _
  · intro i hi e he
    by_cases his : i = s
    · subst his
      rw [update_self] at he
      rcases List.mem_cons.mp he with rfl | hmem
      · rw [← hs]
        exact slot_strncpy n key
      · exact h.filed i hi e hmem
    · rw [update_of_ne his] at he
      exact h.filed i hi e he
  · intro b i hi
    by_cases hb : b = a
    · subst hb
      have hkey : i.key = strncpy 4 key.chars := by
        have hi' : update t.mem.item b (some ⟨strncpy 4 key.chars, value, buckets s⟩) b =
            some i := hi
        rw [update_self] at hi'
        rw [← Option.some.inj hi']
      have hslot' : slot n i.key = s := by
        rw [hkey, ← hs]
        exact slot_strncpy n key
      rw [hslot', update_self]
      exact List.mem_cons_self
    · have hold : t.mem.item b = some i := by
        have hi' : update t.mem.item a _ b = some i := hi
        rwa [update_of_ne hb] at hi'
      have hmem := h.covers b i hold
      by_cases his : slot n i.key = s
      · rw [his, update_self]
        rw [his] at hmem
        exact List.mem_cons_of_mem _ hmem
      · rw [update_of_ne his]
        exact hmem

/-! ## Deleting -/

/-- One entry leaves the chain of bucket `s`; everything else about the table is as before, or a
pointer. -/
theorem Rep.without (h : Rep n t chain) {s : UInt64} {front back : List (Addr × Entry)} {a : Addr}
    {e : Entry} (hs : s < n) (hchain : chain s = front ++ (a, e) :: back) {t' : Table}
    {buckets buckets' : UInt64 → Option Addr} (hsize : t'.h.size = n)
    (hbuckets : t.h.buckets = some buckets) (hbuckets' : t'.h.buckets = some buckets')
    (hother : ∀ i, i ≠ s → buckets' i = buckets i)
    (hlinked : Linked t'.mem.cell (buckets' s) (front ++ back))
    (hcell : ∀ x, x ∉ (chain s).map Prod.fst → t'.mem.cell x = t.mem.cell x)
    (hitem : ∀ x i, t'.mem.item x = some i →
      x ≠ a ∧ ∃ i₀, t.mem.item x = some i₀ ∧ i₀.key = i.key) :
    Rep n t' (update chain s (front ++ back)) := by
  obtain ⟨buckets₀, hbuckets₀, hold⟩ := h.chains
  obtain rfl : buckets₀ = buckets := Option.some.inj (hbuckets₀.symm.trans hbuckets)
  refine ⟨hsize, ⟨buckets', hbuckets', ?_⟩, ?_, ?_⟩
  · intro i hi
    by_cases his : i = s
    · subst his
      rw [update_self]
      exact hlinked
    · rw [update_of_ne his, hother i his]
      refine (hold i hi).frame fun d hd => ?_
      exact hcell d.1 (h.disjoint hi hs his hd)
  · intro i hi d hd
    by_cases his : i = s
    · subst his
      rw [update_self] at hd
      refine h.filed i hi d ?_
      rw [hchain]
      rcases List.mem_append.mp hd with hfront | hback
      · exact List.mem_append_left _ hfront
      · exact List.mem_append_right _ (List.mem_cons_of_mem _ hback)
    · rw [update_of_ne his] at hd
      exact h.filed i hi d hd
  · intro x i hi
    obtain ⟨hxa, i₀, hi₀, hkey⟩ := hitem x i hi
    have hmem := h.covers x i₀ hi₀
    rw [hkey] at hmem
    by_cases his : slot n i.key = s
    · rw [his, update_self]
      rw [his, hchain, List.map_append, List.map_cons] at hmem
      rw [List.map_append]
      rcases List.mem_append.mp hmem with hfront | hback
      · exact List.mem_append_left _ hfront
      · exact List.mem_append_right _ ((List.mem_cons.mp hback).resolve_left hxa)
    · rw [update_of_ne his]
      exact hmem

/-- The found item is the first of its bucket. -/
theorem Rep.unlinkFirst (h : Rep n t chain) {s : UInt64} (hs : s < n) {key : Chars}
    (hindex : Hashtable.htabIndex t.h key = some s) {back : List (Addr × Entry)} {a : Addr}
    {e : Entry}
    (hchain : chain s = (a, e) :: back) {next : Option Addr}
    (hcell : t.mem.cell a = some (e, next)) :
    ∃ t', unlinkItem key none a next t = some t' ∧ Rep n t' (update chain s back) := by
  have hitem := Heap.item_of_cell hcell
  obtain ⟨buckets, hbuckets, hlinked⟩ := h.chains
  have hwhole := hlinked s hs
  rw [hchain] at hwhole
  have hnodup := hwhole.nodup
  have hmem : a ∈ (chain s).map Prod.fst := by
    rw [hchain]
    exact List.mem_cons_self
  obtain ⟨m, hfree⟩ : ∃ m, t.mem.free a = some m := ⟨_, by rw [Heap.free, hitem]; rfl⟩
  have hmcell := (Heap.cell_free hfree).1
  refine ⟨⟨⟨some (update buckets s next), t.h.size⟩, m⟩, ?_, ?_⟩
  · simp only [Hashtable.unlinkItem, hindex, hbuckets, Htab.setBucket, hfree,
      Option.bind_eq_bind, Option.bind_some, Option.map_some]
  · have hfront : chain s = [] ++ (a, e) :: back := hchain
    refine h.without hs hfront h.size hbuckets rfl (fun i hi => update_of_ne hi ..) ?_ ?_ ?_
    · rw [update_self]
      show Linked m.cell next back
      obtain ⟨_, next', hcell', hback⟩ := hwhole
      rw [hcell] at hcell'
      obtain ⟨_, rfl⟩ := Prod.mk.inj (Option.some.inj hcell')
      rw [hmcell]
      exact Linked.update_of_not_mem hback (List.nodup_cons.mp hnodup).1 _
    · intro x hx
      show m.cell x = _
      rw [hmcell, update_of_ne (ne_of_mem_of_not_mem hmem hx).symm]
    · intro x i hi
      obtain ⟨hxa, hold⟩ := Heap.item_of_free hfree hi
      exact ⟨hxa, i, hold, rfl⟩

/-- It is behind `p`, which is made to point past it. -/
theorem Rep.unlinkBehind (h : Rep n t chain) {s : UInt64} (hs : s < n) (key : Chars)
    {front back : List (Addr × Entry)} {p a : Addr} {u e : Entry}
    (hchain : chain s = front ++ [(p, u)] ++ (a, e) :: back) {next : Option Addr}
    (hcell : t.mem.cell a = some (e, next)) :
    ∃ t', unlinkItem key (some p) a next t = some t' ∧
      Rep n t' (update chain s (front ++ [(p, u)] ++ back)) := by
  have hitem := Heap.item_of_cell hcell
  obtain ⟨buckets, hbuckets, hlinked⟩ := h.chains
  have hwhole := hlinked s hs
  rw [hchain] at hwhole
  have hnodup := hwhole.nodup
  have hp : (p, u) ∈ front ++ [(p, u)] :=
    List.mem_append_right front (List.mem_singleton.mpr rfl)
  obtain ⟨nextp, hpcell⟩ := hwhole.cell_of_mem (List.mem_append_left _ hp)
  have hpitem := Heap.item_of_cell hpcell
  obtain ⟨m₁, hset, hm₁cell, hm₁item⟩ := Heap.cell_setNext hpitem next
  have hmem : a ∈ (chain s).map Prod.fst := by
    rw [hchain]
    exact List.mem_map_of_mem (f := Prod.fst) (List.mem_append_right _ List.mem_cons_self)
  have hpmem : p ∈ (chain s).map Prod.fst := by
    rw [hchain]
    exact List.mem_map_of_mem (f := Prod.fst) (List.mem_append_left _ hp)
  rw [List.map_append, List.map_cons] at hnodup
  obtain ⟨_, hback, hdisj⟩ := List.nodup_append.mp hnodup
  have hafront : a ∉ (front ++ [(p, u)]).map Prod.fst := fun hmem =>
    hdisj a hmem a List.mem_cons_self rfl
  have hpa : p ≠ a := by
    intro hpa
    apply hafront
    rw [← hpa]
    exact List.mem_map_of_mem (f := Prod.fst) hp
  obtain ⟨m, hfree⟩ : ∃ m, m₁.free a = some m :=
    ⟨_, by rw [Heap.free, hm₁item, update_of_ne hpa.symm, hitem]; rfl⟩
  have hmcell := (Heap.cell_free hfree).1
  refine ⟨⟨t.h, m⟩, ?_, ?_⟩
  · simp only [Hashtable.unlinkItem, hset, hfree, Option.bind_eq_bind, Option.bind_some]
  · refine h.without hs hchain h.size hbuckets hbuckets (fun _ _ => rfl) ?_ ?_ ?_
    · show Linked m.cell _ _
      rw [hmcell, hm₁cell]
      have hunlink := hwhole.unlink hcell
      refine hunlink.update_of_not_mem ?_ _
      rw [List.map_append]
      intro hmem
      rcases List.mem_append.mp hmem with hfront | hmemback
      · exact hafront hfront
      · exact (List.nodup_cons.mp hback).1 hmemback
    · intro x hx
      show m.cell x = _
      rw [hmcell, hm₁cell, update_of_ne (ne_of_mem_of_not_mem hmem hx).symm,
        update_of_ne (ne_of_mem_of_not_mem hpmem hx).symm]
    · intro x i hi
      obtain ⟨hxa, hold⟩ := Heap.item_of_free hfree hi
      exact ⟨hxa, Heap.key_of_update hpitem hm₁item hold⟩

/-- **The found item is unlinked from its chain**, at its head or behind the item before. -/
theorem Rep.unlinkItem (h : Rep n t chain) (hn : 0 < n) {key : Chars}
    {front back : List (Addr × Entry)} {a : Addr} {e : Entry}
    (hchain : chain (slot n key) = front ++ (a, e) :: back) {next : Option Addr}
    (hcell : t.mem.cell a = some (e, next)) :
    ∃ t', unlinkItem key (front.getLast?.map Prod.fst) a next t = some t' ∧
      Rep n t' (update chain (slot n key) (front ++ back)) := by
  have hslot := slot_lt hn key
  rcases List.eq_nil_or_concat front with rfl | ⟨front, ⟨p, u⟩, rfl⟩
  · exact h.unlinkFirst hslot (h.htabIndex hn key) hchain hcell
  · rw [List.concat_eq_append] at hchain ⊢
    rw [List.getLast?_append, List.getLast?_singleton, Option.some_or, Option.map_some]
    exact h.unlinkBehind hslot key hchain hcell

/-- **The loop of `htab_delete`.** `front` is behind it, without the key; it takes the first entry
with the key out of the rest of the chain, and comes to the end of a chain of any length. -/
theorem Rep.deleteLoop (h : Rep n t chain) (hn : 0 < n) {key : Key}
    {front rest : List (Addr × Entry)} {fuel : Nat} {current : Option Addr}
    (hchain : chain (slot n key.chars) = front ++ rest)
    (hfront : ∀ e ∈ front, hasKey key e = false) (hrest : Linked t.mem.cell current rest) :
    (∀ t', deleteLoop key.chars fuel (front.getLast?.map Prod.fst) current t = some t' →
      Rep n t' (update chain (slot n key.chars) (front ++ rest.eraseP (hasKey key)))) ∧
    (rest.length < fuel →
      ∃ t', deleteLoop key.chars fuel (front.getLast?.map Prod.fst) current t = some t') := by
  induction rest generalizing front fuel current with
  | nil =>
    obtain rfl : current = none := hrest
    cases fuel with
    | zero =>
      refine ⟨fun t' ht' => ?_, fun hlt => absurd hlt (Nat.not_lt_zero _)⟩
      cases ht'
    | succ fuel =>
      refine ⟨fun t' ht' => ?_, fun _ => ⟨t, rfl⟩⟩
      obtain rfl : t = t' := Option.some.inj ht'
      rw [List.eraseP_nil, ← hchain, update_eq_self]
      exact h
  | cons d rest ih =>
    obtain ⟨a, e⟩ := d
    obtain ⟨rfl, next, hcell, hnext⟩ := hrest
    have hitem := Heap.item_of_cell hcell
    cases fuel with
    | zero =>
      refine ⟨fun t' ht' => ?_, fun hlt => absurd hlt (Nat.not_lt_zero _)⟩
      cases ht'
    | succ fuel =>
      by_cases hkey : hasKey key (a, e) = true
      · -- found
        have hloop : Hashtable.deleteLoop key.chars (fuel + 1) (front.getLast?.map Prod.fst)
            (some a) t = Hashtable.unlinkItem key.chars (front.getLast?.map Prod.fst) a next t := by
          simp only [Hashtable.deleteLoop, hitem, Option.bind_eq_bind, Option.bind_some,
            if_pos (strcmp_iff_hasKey.mpr hkey)]
        obtain ⟨t₁, hunlink, hrep⟩ := h.unlinkItem hn hchain hcell
        rw [hloop, hunlink, List.eraseP_cons_of_pos hkey]
        refine ⟨fun t' ht' => ?_, fun _ => ⟨t₁, rfl⟩⟩
        obtain rfl : t₁ = t' := Option.some.inj ht'
        exact hrep
      · have hloop : Hashtable.deleteLoop key.chars (fuel + 1) (front.getLast?.map Prod.fst)
            (some a) t = Hashtable.deleteLoop key.chars fuel
              ((front ++ [(a, e)]).getLast?.map Prod.fst) next t := by
          simp only [Hashtable.deleteLoop, hitem, Option.bind_eq_bind, Option.bind_some,
            if_neg (fun hcmp => hkey (strcmp_iff_hasKey.mp hcmp)), List.getLast?_append,
            List.getLast?_singleton, Option.some_or, Option.map_some]
        have hchain' : chain (slot n key.chars) = front ++ [(a, e)] ++ rest := by
          rw [hchain, List.append_assoc]
          rfl
        have hfront' : ∀ d ∈ front ++ [(a, e)], hasKey key d = false := by
          intro d hd
          rcases List.mem_append.mp hd with hmem | hmem
          · exact hfront d hmem
          · rw [List.mem_singleton.mp hmem]
            exact Bool.eq_false_iff.mpr hkey
        have hstep := @ih (front ++ [(a, e)]) fuel next hchain' hfront' hnext
        rw [hloop, List.eraseP_cons_of_neg hkey, List.append_cons front (a, e) (rest.eraseP _)]
        exact ⟨hstep.1, fun hlt => hstep.2 (Nat.lt_of_succ_lt_succ hlt)⟩

/-- **`htab_delete` returns, with the first entry of the key gone.** -/
theorem Rep.delete (h : Rep n t chain) (hn : 0 < n) (key : Key) :
    (∀ fuel t', htabDelete fuel t key.chars = some t' → Rep n t'
      (update chain (slot n key.chars) ((chain (slot n key.chars)).eraseP (hasKey key)))) ∧
    ∃ fuel t', htabDelete fuel t key.chars = some t' := by
  obtain ⟨buckets, hbuckets, hlinked⟩ := h.chains
  have hdelete : ∀ fuel, htabDelete fuel t key.chars =
      Hashtable.deleteLoop key.chars fuel none (buckets (slot n key.chars)) t := by
    intro fuel
    simp only [htabDelete, htabBucket, hbuckets, h.htabIndex hn, Option.bind_eq_bind,
      Option.bind_some]
  have hloop := fun fuel => @Rep.deleteLoop n t chain h hn key [] _ fuel _
    (List.nil_append _).symm (fun e he => absurd he List.not_mem_nil)
    (hlinked _ (slot_lt hn key.chars))
  constructor
  · intro fuel t' ht'
    rw [hdelete] at ht'
    exact (hloop fuel).1 t' ht'
  · obtain ⟨t', ht'⟩ := (hloop ((chain (slot n key.chars)).length + 1)).2 (Nat.lt_succ_self _)
    exact ⟨_, t', (hdelete _).trans ht'⟩

end Rep

end Hashtable
end Cab403
