import Cab403.Hashtable.Chains
import Cab403.Lib.Trace

/-!
# A hash table is a family of stacks

What the table is for: a stack of values for each key (`Stacks`), on which `htab_add` pushes and
from which `htab_delete` pops. The stacks of all the keys of a bucket are interleaved in its
chain. A call changes one chain by one entry (`Call.effect`), and that entry's key is the only
one whose stack it changes (`itemsOf_effect_of_ne`, `values_effect`).
-/

namespace Cab403
namespace Hashtable

open Function Lib

/-! ## Calls -/

inductive Call where
  | add (key : Key) (value : Int32) (answer : Option Addr)
  | delete (key : Key)

def Call.key : Call → Key
  | .add key _ _ => key
  | .delete key => key

/-- What `malloc` answers with, if it answers, is not in use. -/
def Call.Fresh (t : Table) : Call → Prop
  | .add _ _ answer => ∀ a, answer = some a → t.mem.item a = none
  | .delete _ => True

/-- The call is made and returns. -/
inductive Makes : Table → Call → Table → Prop
  | add {t t' : Table} {key : Key} {value : Int32} {answer : Option Addr}
      {ok : Bool} (hfresh : (Call.add key value answer).Fresh t)
      (h : htabAdd answer t key.chars value = some (ok, t')) :
      Makes t (.add key value answer) t'
  | delete {t t' : Table} {key : Key} {fuel : Nat} (h : htabDelete fuel t key.chars = some t') :
      Makes t (.delete key) t'

/-- What a call does to the chains. -/
def Call.effect (n : UInt64) (chain : UInt64 → List (Addr × Entry)) :
    Call → UInt64 → List (Addr × Entry)
  | .add _ _ none => chain
  | .add key value (some a) => update chain (slot n key.chars)
      ((a, ⟨strncpy 4 key.chars, value⟩) :: chain (slot n key.chars))
  | .delete key => update chain (slot n key.chars)
      ((chain (slot n key.chars)).eraseP (hasKey key))

theorem Rep.makes {n : UInt64} {t t' : Table} {chain : UInt64 → List (Addr × Entry)} {c : Call}
    (h : Rep n t chain) (hn : 0 < n) (hc : Makes t c t') : Rep n t' (c.effect n chain) := by
  cases hc with
  | @add _ key value answer ok hfresh hadd =>
    cases answer with
    | none =>
      obtain rfl : t = t' := (Prod.mk.inj (Option.some.inj hadd)).2
      exact h
    | some a =>
      obtain ⟨t₁, hadd₁, hrep⟩ := h.add hn (hfresh a rfl) key value
      obtain rfl : t₁ = t' := (Prod.mk.inj (Option.some.inj (hadd₁.symm.trans hadd))).2
      exact hrep
  | delete hdelete => exact (h.delete hn _).1 _ _ hdelete

/-- Every call returns. -/
theorem Rep.exists_makes {n : UInt64} {t : Table} {chain : UInt64 → List (Addr × Entry)}
    (h : Rep n t chain) (hn : 0 < n) {c : Call} (hc : c.Fresh t) : ∃ t', Makes t c t' := by
  cases c with
  | add key value answer =>
    cases answer with
    | none => exact ⟨t, .add hc rfl⟩
    | some a =>
      obtain ⟨t', hadd, _⟩ := h.add hn (hc a rfl) key value
      exact ⟨t', .add hc hadd⟩
  | delete key =>
    obtain ⟨fuel, t', hdelete⟩ := (h.delete hn key).2
    exact ⟨t', .delete hdelete⟩

/-! ## Stacks -/

abbrev Stacks := Key → List Int32

/-- What a call does to the stacks: a value is pushed if there was memory for it, and popped if
there is one. -/
def Call.spec (σ : Stacks) : Call → Stacks
  | .add _ _ none => σ
  | .add key value (some _) => update σ key (value :: σ key)
  | .delete key => update σ key (σ key).tail

theorem Call.spec_of_ne (σ : Stacks) {c : Call} {key : Key} (hne : key ≠ c.key) :
    c.spec σ key = σ key := by
  cases c with
  | add key' value answer =>
    cases answer with
    | none => rfl
    | some a => exact update_of_ne hne _ σ
  | delete key' => exact update_of_ne hne _ σ

/-- The items of a key, in list order. -/
def Table.Items (t : Table) (key : Key) (items : List (Addr × Entry)) : Prop :=
  ∃ l, t.Chain (slot t.h.size key.chars) l ∧ items = l.filter (hasKey key)

/-- The items of a key in the chains, likewise. -/
def itemsOf (n : UInt64) (chain : UInt64 → List (Addr × Entry)) (key : Key) :
    List (Addr × Entry) :=
  (chain (slot n key.chars)).filter (hasKey key)

def values (items : List (Addr × Entry)) : List Int32 := items.map fun e => e.2.value

theorem Rep.items_iff {n : UInt64} {t : Table} {chain : UInt64 → List (Addr × Entry)}
    (h : Rep n t chain) (hn : 0 < n) {key : Key} {items : List (Addr × Entry)} :
    t.Items key items ↔ items = itemsOf n chain key := by
  have hslot := slot_lt hn key.chars
  unfold Table.Items
  rw [h.size]
  constructor
  · intro hitems
    obtain ⟨l, hl, rfl⟩ := hitems
    rw [(h.chain_iff hslot).mp hl]
    rfl
  · intro hitems
    exact ⟨_, h.chainOf hslot, hitems⟩

theorem filter_eraseP_self {α : Type} (p : α → Bool) (l : List α) :
    (l.eraseP p).filter p = (l.filter p).tail := by
  have hself : (fun x => p x && p x) = p := by
    funext x
    exact Bool.and_self (p x)
  have hcomm := List.eraseP_filter (p := p) (f := p) (l := l)
  rw [hself] at hcomm
  rw [← hcomm]
  cases hl : l.filter p with
  | nil => rfl
  | cons x l' =>
    have hx : x ∈ l.filter p := by
      rw [hl]
      exact List.mem_cons_self
    rw [List.eraseP_cons_of_pos (List.mem_filter.mp hx).2]
    rfl

theorem filter_eraseP_other {α : Type} {p q : α → Bool} (hpq : ∀ x, p x = true → q x = false)
    (l : List α) : (l.eraseP p).filter q = l.filter q := by
  induction l with
  | nil => rfl
  | cons x l ih =>
    by_cases hx : p x = true
    · rw [List.eraseP_cons_of_pos hx,
        List.filter_cons_of_neg (by rw [hpq x hx]; exact Bool.false_ne_true)]
    · rw [List.eraseP_cons_of_neg hx, List.filter_cons, List.filter_cons, ih]

theorem hasKey_of_ne {key key' : Key} (hne : key' ≠ key) {e : Addr × Entry}
    (h : hasKey key e = true) : hasKey key' e = false := by
  apply Bool.eq_false_iff.mpr
  intro h'
  exact hne (Key.ext ((hasKey_iff.mp h').symm.trans (hasKey_iff.mp h)))

/-- **A call on one key leaves the items of every other key alone.** -/
theorem itemsOf_effect_of_ne (n : UInt64) (chain : UInt64 → List (Addr × Entry)) {c : Call}
    {key : Key} (hne : key ≠ c.key) :
    itemsOf n (c.effect n chain) key = itemsOf n chain key := by
  -- the chains of the call's bucket may differ, their items of `key` may not
  have hslot : ∀ {s : UInt64} {l : List (Addr × Entry)},
      l.filter (hasKey key) = (chain s).filter (hasKey key) →
      itemsOf n (update chain s l) key = itemsOf n chain key := by
    intro s l hl
    unfold itemsOf
    by_cases hs : slot n key.chars = s
    · rw [hs, update_self, hl]
    · rw [update_of_ne hs]
  cases c with
  | add key' value answer =>
    cases answer with
    | none => rfl
    | some a =>
      apply hslot
      have hnew : hasKey key' (a, ⟨strncpy 4 key'.chars, value⟩) = true :=
        hasKey_iff.mpr key'.text_strncpy
      rw [List.filter_cons_of_neg (by rw [hasKey_of_ne hne hnew]; exact Bool.false_ne_true)]
  | delete key' =>
    apply hslot
    exact filter_eraseP_other (fun e he => hasKey_of_ne hne he) _

/-- **A call works on its own key's stack, and on no other.** -/
theorem values_effect (n : UInt64) (chain : UInt64 → List (Addr × Entry)) (c : Call) (key : Key) :
    values (itemsOf n (c.effect n chain) key) =
      c.spec (fun key => values (itemsOf n chain key)) key := by
  by_cases hkey : key = c.key
  · subst hkey
    cases c with
    | add key value answer =>
      cases answer with
      | none => rfl
      | some a =>
        have hnew : hasKey key (a, ⟨strncpy 4 key.chars, value⟩) = true :=
          hasKey_iff.mpr key.text_strncpy
        simp only [Call.key, Call.effect, Call.spec, itemsOf, update_self, values,
          List.filter_cons_of_pos hnew, List.map_cons]
    | delete key =>
      simp only [Call.key, Call.effect, Call.spec, itemsOf, update_self, values,
        filter_eraseP_self, List.map_tail]
  · rw [itemsOf_effect_of_ne n chain hkey, Call.spec_of_ne _ hkey]

/-! ## Runs -/

/-- The stacks after the calls. -/
def stacksAfter (σ : Stacks) (calls : List Call) : Stacks := calls.foldl Call.spec σ

/-- Every item is in the bucket its key hashes to: the ones found on the chain of a bucket, and
all the ones there are. -/
structure Filed (n : UInt64) (t : Table) : Prop where
  found : ∀ i < n, ∃ l, t.Chain i l ∧ ∀ e ∈ l, djbHash e.2.key % n = i
  stored : ∀ a i, t.mem.item a = some i → ∃ l, t.Chain (djbHash i.key % n) l ∧ (a, i.entry) ∈ l

theorem Rep.filedAll {n : UInt64} {t : Table} {chain : UInt64 → List (Addr × Entry)}
    (h : Rep n t chain) (hn : 0 < n) : Filed n t := by
  refine ⟨fun i hi => ⟨_, h.chainOf hi, h.filed i hi⟩, fun a i hi => ?_⟩
  have hslot := slot_lt hn i.key
  refine ⟨_, h.chainOf hslot, ?_⟩
  obtain ⟨⟨b, e⟩, he, hb⟩ := List.mem_map.mp (h.covers a i hi)
  obtain rfl : b = a := hb
  obtain ⟨buckets, _, hlinked⟩ := h.chains
  obtain ⟨next, hcell⟩ := (hlinked _ hslot).cell_of_mem he
  have hitem := Heap.item_of_cell hcell
  rw [hi] at hitem
  rw [Option.some.inj hitem]
  rwa [Option.some.inj hitem] at he

theorem rep_init (n : UInt64) {grant : Bool} {h : Htab} (hinit : htabInit grant n = (true, h)) :
    Rep n ⟨h, .empty⟩ fun _ => [] := by
  cases grant with
  | false => cases hinit
  | true =>
    obtain rfl := (Prod.mk.inj hinit).2
    refine ⟨rfl, ⟨_, rfl, fun i _ => rfl⟩, fun i _ e he => ?_, fun a i hi => ?_⟩
    · cases he
    · cases hi

theorem Rep.run {n : UInt64} {t : Table} {chain : UInt64 → List (Addr × Entry)}
    {calls : List (Call × Table)} (h : Rep n t chain) (hn : 0 < n)
    (hcalls : Trace Makes t calls) : ∃ chain', Rep n (lastState t calls) chain' ∧
      ∀ key, values (itemsOf n chain' key) =
        stacksAfter (fun key => values (itemsOf n chain key)) (calls.map Prod.fst) key := by
  induction hcalls generalizing chain with
  | nil t => exact ⟨chain, h, fun key => rfl⟩
  | @cons t t' c calls hc _ ih =>
    obtain ⟨chain', hrep, hvalues⟩ := ih (h.makes hn hc)
    refine ⟨chain', hrep, fun key => ?_⟩
    have hstep : (fun key => values (itemsOf n (c.effect n chain) key)) =
        c.spec (fun key => values (itemsOf n chain key)) := by
      funext key
      exact values_effect n chain c key
    rw [hvalues, hstep]
    rfl

/-- **A hash table is a family of stacks.** After any calls, whatever `malloc` answers: every
item is in its bucket, the values of each key are those of its stack, no call has touched the
items of another key, and any next call returns. -/
theorem htab_stacks {n : UInt64} (hn : 0 < n) {grant : Bool} {h : Htab}
    (hinit : htabInit grant n = (true, h)) {calls : List (Call × Table)}
    (hcalls : Trace Makes ⟨h, .empty⟩ calls) :
    AllStates (Filed n) ⟨h, .empty⟩ calls ∧
    (∀ key, ∃ items, (lastState ⟨h, .empty⟩ calls).Items key items ∧
      values items = stacksAfter (fun _ => []) (calls.map Prod.fst) key) ∧
    AllSteps (fun s c t => ∀ key, key ≠ c.key → ∀ items, s.Items key items ↔ t.Items key items)
      ⟨h, .empty⟩ calls ∧
    ∀ c : Call, c.Fresh (lastState ⟨h, .empty⟩ calls) →
      ∃ t, Makes (lastState ⟨h, .empty⟩ calls) c t := by
  have hrep := rep_init n hinit
  obtain ⟨chain, hlast, hvalues⟩ := hrep.run hn hcalls
  refine ⟨?_, fun key => ⟨_, (hlast.items_iff hn).mpr rfl, hvalues key⟩, ?_, fun c hc => ?_⟩
  · have hall := hcalls.allStates (I := fun t => ∃ chain, Rep n t chain)
      (fun s c t hs hc => hs.imp' _ fun chain hs => hs.makes hn hc) ⟨_, hrep⟩
    exact hall.imp fun t ht => ht.elim fun chain ht => ht.filedAll hn
  · refine hcalls.allSteps (I := fun t => ∃ chain, Rep n t chain) ?_ ⟨_, hrep⟩
    intro s c t hs hc
    obtain ⟨chain, hs⟩ := hs
    have ht := hs.makes hn hc
    refine ⟨⟨_, ht⟩, fun key hkey items => ?_⟩
    rw [hs.items_iff hn, ht.items_iff hn, itemsOf_effect_of_ne n chain hkey]
  · exact hlast.exists_makes hn hc

def keyA : Key := ⟨[65], by decide, by decide⟩

def keyB : Key := ⟨[66], by decide, by decide⟩

/-- Two keys in one bucket: deleting the one leaves the other. -/
theorem htab_stacks_collision : ∃ calls : List (Call × Table),
    calls.map Prod.fst = [.add keyA 7 (some 0), .add keyB 8 (some 1), .delete keyA] ∧
    ∃ items, (lastState ⟨(htabInit true 1).2, .empty⟩ calls).Items keyB items ∧
      values items = [8] := by
  have hcalls := Trace.cons
    (.add (fun _ _ => rfl) rfl : Makes ⟨(htabInit true 1).2, .empty⟩ (.add keyA 7 (some 0)) _)
    (.cons (.add (fun _ h => by cases h; rfl) rfl : Makes _ (.add keyB 8 (some 1)) _)
      (.cons (@Makes.delete _ _ keyA 3 rfl) (.nil _)))
  have hone : (0 : UInt64) < 1 := by decide
  have hinit : htabInit true 1 = (true, (htabInit true 1).2) := rfl
  exact ⟨_, rfl, (htab_stacks hone hinit hcalls).2.1 keyB⟩

end Hashtable
end Cab403
