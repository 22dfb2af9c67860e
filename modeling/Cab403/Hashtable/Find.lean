import Cab403.Hashtable.Stacks

/-!
# Lookup

`htab_find` walks the chain of the key's bucket and returns at the first item for which
`strcmp(i->key, key)` is not `0`: at the first one that has *another* key. `Rep.finds_iff` says
what it is to find, in terms of the chains; `findLoop_linked` what it finds. On a chain of any items
at all the two differ, since an item with the key is not one without.
-/

namespace Cab403
namespace Hashtable

open Lib

/-! ## The function -/

/-- The loop of `htab_find`. -/
def findLoop (key : Chars) : Nat → Option Addr → Table → Option (Option Addr)
  | 0, _, _ => none
  | _ + 1, none, _ => some none
  | fuel + 1, some i, t => do
    let item ← t.mem.item i
    if strcmp item.key key ≠ 0 then some (some i) else findLoop key fuel item.next t

def htabFind (fuel : Nat) (t : Table) (key : Chars) : Option (Option Addr) := do
  let head ← htabBucket t.h key
  findLoop key fuel head t

/-- What `htab_find` is to return: `NULL` if no item has the key, and else the first of them in
the key's bucket. -/
structure Finds (t : Table) (key : Key) (r : Option Addr) : Prop where
  null : r = none ↔ ∀ a i, t.mem.item a = some i → text i.key ≠ key.chars
  first : ∀ a, r = some a → ∃ items, t.Items key items ∧ items.head?.map Prod.fst = some a

/-! ## What it finds -/

/-- Where the loop stops. -/
def firstOther (key : Key) (l : List (Addr × Entry)) : Option Addr :=
  (l.find? fun e => !hasKey key e).map Prod.fst

/-- **The loop of `htab_find`** stops at the first item with another key, and comes to the end of
a chain of any length. -/
theorem findLoop_linked {t : Table} {key : Key} {head : Option Addr} {l : List (Addr × Entry)}
    {fuel : Nat} (h : Linked t.mem.cell head l) :
    (∀ r, findLoop key.chars fuel head t = some r → r = firstOther key l) ∧
    (l.length < fuel → ∃ r, findLoop key.chars fuel head t = some r) := by
  induction l generalizing fuel head with
  | nil =>
    obtain rfl : head = none := h
    cases fuel with
    | zero => exact ⟨fun r hr => (by cases hr), fun hlt => absurd hlt (Nat.not_lt_zero _)⟩
    | succ fuel => exact ⟨fun r hr => (Option.some.inj hr).symm, fun _ => ⟨none, rfl⟩⟩
  | cons d l ih =>
    obtain ⟨a, e⟩ := d
    obtain ⟨rfl, next, hcell, hnext⟩ := h
    have hitem := Heap.item_of_cell hcell
    cases fuel with
    | zero => exact ⟨fun r hr => (by cases hr), fun hlt => absurd hlt (Nat.not_lt_zero _)⟩
    | succ fuel =>
      by_cases hkey : hasKey key (a, e) = true
      · -- the key is passed over
        have hloop : findLoop key.chars (fuel + 1) (some a) t =
            findLoop key.chars fuel next t := by
          simp only [findLoop, hitem, Option.bind_eq_bind, Option.bind_some, ne_eq,
            strcmp_iff_hasKey.mpr hkey, not_true_eq_false, if_false]
        have hother : firstOther key ((a, e) :: l) = firstOther key l := by
          rw [firstOther, List.find?_cons_of_neg (by simp [hkey])]
          rfl
        rw [hloop, hother]
        exact ⟨(ih hnext).1, fun hlt => (ih hnext).2 (Nat.lt_of_succ_lt_succ hlt)⟩
      · have hloop : findLoop key.chars (fuel + 1) (some a) t = some (some a) := by
          have hcmp : strcmp e.key key.chars ≠ 0 := fun hcmp => hkey (strcmp_iff_hasKey.mp hcmp)
          simp only [findLoop, hitem, Option.bind_eq_bind, Option.bind_some, if_pos hcmp]
        have hother : firstOther key ((a, e) :: l) = some a := by
          rw [firstOther, List.find?_cons_of_pos (by simp [hkey])]
          rfl
        rw [hloop, hother]
        exact ⟨fun r hr => (Option.some.inj hr).symm, fun _ => ⟨_, rfl⟩⟩

section Rep

variable {n : UInt64} {t : Table} {chain : UInt64 → List (Addr × Entry)}

/-- **`htab_find` returns**, and with what. -/
theorem Rep.find (h : Rep n t chain) (hn : 0 < n) (key : Key) :
    (∀ fuel r, htabFind fuel t key.chars = some r →
      r = firstOther key (chain (slot n key.chars))) ∧
    ∃ fuel r, htabFind fuel t key.chars = some r := by
  obtain ⟨buckets, hbuckets, hlinked⟩ := h.chains
  have hfind : ∀ fuel, htabFind fuel t key.chars =
      findLoop key.chars fuel (buckets (slot n key.chars)) t := by
    intro fuel
    simp only [htabFind, htabBucket, hbuckets, h.htabIndex hn, Option.bind_eq_bind,
      Option.bind_some]
  have hloop := fun fuel => @findLoop_linked t key _ _ fuel (hlinked _ (slot_lt hn key.chars))
  constructor
  · intro fuel r hr
    rw [hfind] at hr
    exact (hloop fuel).1 r hr
  · obtain ⟨r, hr⟩ := (hloop _).2 (Nat.lt_succ_self _)
    exact ⟨_, r, (hfind _).trans hr⟩

/-! ## What it should find -/

/-- The items of a key are the items it has anywhere. -/
theorem Rep.itemsOf_eq_nil_iff (h : Rep n t chain) (hn : 0 < n) {key : Key} :
    itemsOf n chain key = [] ↔ ∀ a i, t.mem.item a = some i → text i.key ≠ key.chars := by
  unfold itemsOf
  rw [List.filter_eq_nil_iff]
  constructor
  · intro hnone a i hi hkey
    obtain ⟨l, hl, hmem⟩ := (h.filedAll hn).stored a i hi
    have hslot : djbHash i.key % n = slot n key.chars := by
      rw [slot, ← hkey, djbHash_text]
    rw [hslot, h.chain_iff (slot_lt hn key.chars)] at hl
    subst hl
    exact hnone _ hmem (hasKey_iff.mpr hkey)
  · intro hnone e he hkey
    obtain ⟨buckets, _, hlinked⟩ := h.chains
    obtain ⟨next, hcell⟩ := (hlinked _ (slot_lt hn key.chars)).cell_of_mem he
    exact hnone _ _ (Heap.item_of_cell hcell) (hasKey_iff.mp hkey)

theorem Rep.finds_iff (h : Rep n t chain) (hn : 0 < n) {key : Key} {r : Option Addr} :
    Finds t key r ↔ r = (itemsOf n chain key).head?.map Prod.fst := by
  constructor
  · intro hfinds
    cases r with
    | none => rw [(h.itemsOf_eq_nil_iff hn).mpr (hfinds.null.mp rfl)]; rfl
    | some a =>
      obtain ⟨items, hitems, hhead⟩ := hfinds.first a rfl
      rw [← (h.items_iff hn).mp hitems, hhead]
  · intro hr
    refine ⟨?_, fun a ha => ⟨_, (h.items_iff hn).mpr rfl, ?_⟩⟩
    · rw [← h.itemsOf_eq_nil_iff hn, hr, Option.map_eq_none_iff, List.head?_eq_none_iff]
    · rw [← hr, ha]

/-! ## Where the two agree -/

/-- On a chain that passes each item once, only if there is none. -/
theorem firstOther_eq_iff (key : Key) {l : List (Addr × Entry)} (hl : (l.map Prod.fst).Nodup) :
    firstOther key l = (l.filter (hasKey key)).head?.map Prod.fst ↔ l = [] := by
  constructor
  · intro heq
    cases l with
    | nil => rfl
    | cons d l =>
      have hhead : ∀ e ∈ l, e.1 ≠ d.1 := by
        intro e he hed
        exact (List.nodup_cons.mp hl).1 (hed ▸ List.mem_map_of_mem he)
      unfold firstOther at heq
      by_cases hkey : hasKey key d = true
      · rw [List.find?_cons_of_neg (by simp [hkey]), List.filter_cons_of_pos hkey] at heq
        obtain ⟨e, he, hed⟩ := Option.map_eq_some_iff.mp heq
        exact absurd hed (hhead e (List.mem_of_find?_eq_some he))
      · rw [List.find?_cons_of_pos (by simp [hkey]), List.filter_cons_of_neg hkey] at heq
        obtain ⟨e, he, hed⟩ := Option.map_eq_some_iff.mp heq.symm
        have hmem : e ∈ l.filter (hasKey key) := List.mem_of_head? he
        exact absurd hed (hhead e (List.mem_filter.mp hmem).1)
  · intro hnil
    rw [hnil]
    rfl

theorem Rep.bucket_eq_none_iff (h : Rep n t chain) (hn : 0 < n) (key : Key) :
    htabBucket t.h key.chars = some none ↔ chain (slot n key.chars) = [] := by
  obtain ⟨buckets, hbuckets, hlinked⟩ := h.chains
  have hchain := hlinked _ (slot_lt hn key.chars)
  have hbucket : htabBucket t.h key.chars = some (buckets (slot n key.chars)) := by
    simp only [htabBucket, hbuckets, h.htabIndex hn, Option.bind_eq_bind, Option.bind_some]
  rw [hbucket, Option.some_inj]
  constructor
  · intro hnone
    rw [hnone] at hchain
    exact hchain.unique rfl
  · intro hnil
    rw [hnil] at hchain
    exact hchain

/-- **When `htab_find` finds what it should**: when the key's bucket is empty. -/
theorem Rep.find_iff (h : Rep n t chain) (hn : 0 < n) (key : Key) :
    (∃ fuel r, htabFind fuel t key.chars = some r ∧ Finds t key r) ↔
      htabBucket t.h key.chars = some none := by
  obtain ⟨buckets, _, hlinked⟩ := h.chains
  have hnodup := (hlinked _ (slot_lt hn key.chars)).nodup
  rw [h.bucket_eq_none_iff hn, ← firstOther_eq_iff key hnodup]
  constructor
  · intro hright
    obtain ⟨fuel, r, hfind, hfinds⟩ := hright
    rw [← (h.find hn key).1 fuel r hfind]
    exact (h.finds_iff hn).mp hfinds
  · intro heq
    obtain ⟨fuel, r, hfind⟩ := (h.find hn key).2
    refine ⟨fuel, r, hfind, (h.finds_iff hn).mpr ?_⟩
    rw [(h.find hn key).1 fuel r hfind]
    exact heq

end Rep

/-- **Lookup, in every table reached**: right for the keys of an empty bucket, and for no other
key. -/
theorem htab_find_iff {n : UInt64} (hn : 0 < n) {grant : Bool} {h : Htab}
    (hinit : htabInit grant n = (true, h)) {calls : List (Call × Table)}
    (hcalls : Trace Makes ⟨h, .empty⟩ calls) (key : Key) :
    (∃ fuel r, htabFind fuel (lastState ⟨h, .empty⟩ calls) key.chars = some r ∧
      Finds (lastState ⟨h, .empty⟩ calls) key r) ↔
    htabBucket (lastState ⟨h, .empty⟩ calls).h key.chars = some none := by
  obtain ⟨chain, hrep, _⟩ := (rep_init n hinit).run hn hcalls
  exact hrep.find_iff hn key

/-- One `add`, and the key of the other bucket is not found. -/
theorem htab_find_iff_other : ∃ calls : List (Call × Table),
    calls.map Prod.fst = [.add keyA 7 (some 0)] ∧
    ∃ fuel r, htabFind fuel (lastState ⟨(htabInit true 2).2, .empty⟩ calls) keyB.chars = some r ∧
      Finds (lastState ⟨(htabInit true 2).2, .empty⟩ calls) keyB r := by
  have hcalls := Trace.cons
    (.add (fun _ _ => rfl) rfl : Makes ⟨(htabInit true 2).2, .empty⟩ (.add keyA 7 (some 0)) _)
    (.nil _)
  have htwo : (0 : UInt64) < 2 := by decide
  have hinit : htabInit true 2 = (true, (htabInit true 2).2) := rfl
  exact ⟨_, rfl, (htab_find_iff htwo hinit hcalls keyB).mpr (by decide)⟩

/-- Nor is the key that was added. -/
theorem not_htab_find_added : ∃ calls : List (Call × Table),
    Trace Makes ⟨(htabInit true 2).2, .empty⟩ calls ∧
    calls.map Prod.fst = [.add keyA 7 (some 0)] ∧
    ¬ ∃ fuel r, htabFind fuel (lastState ⟨(htabInit true 2).2, .empty⟩ calls) keyA.chars = some r ∧
      Finds (lastState ⟨(htabInit true 2).2, .empty⟩ calls) keyA r := by
  have hcalls := Trace.cons
    (.add (fun _ _ => rfl) rfl : Makes ⟨(htabInit true 2).2, .empty⟩ (.add keyA 7 (some 0)) _)
    (.nil _)
  have htwo : (0 : UInt64) < 2 := by decide
  obtain ⟨chain, hrep, _⟩ := (rep_init 2 (rfl : htabInit true 2 = _)).run htwo hcalls
  refine ⟨_, hcalls, rfl, ?_⟩
  intro hfind
  exact absurd ((hrep.find_iff htwo keyA).mp hfind) (by decide)

end Hashtable
end Cab403
