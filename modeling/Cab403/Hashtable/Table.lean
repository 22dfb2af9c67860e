import Cab403.Lib.Linked
import Mathlib.Data.List.TakeWhile

/-!
# The hash table

`hashtable_search.c`: a string table of chained buckets. A table is the caller's `htab_t` and the
heap its items are in. Three facts about C are kept:

* **Memory.** A pointer to an item is an address; the heap says what is allocated there. Using an
  item that is not allocated, a table whose bucket array is `NULL`, or one with no buckets, is
  undefined and ends a function without a result. What `malloc` answers is an argument, and the
  heap's log of what was allocated and released is ghost state that no function reads.
* **`char` is signed**, so the hash adds the sign extension of each character, in 64 bits.
* **A key is an array of 4 characters** in an item, and a string elsewhere; either is read up to
  its NUL.

The loop of `htab_delete` follows pointers for as long as there are any, so it is given fuel.
-/

namespace Cab403
namespace Hashtable

open Function Lib

/-! ## Strings -/

abbrev Chars := List Int8

/-- The string that begins where `s` does. -/
def text (s : Chars) : Chars := s.takeWhile (· != 0)

/-- `strncpy(dst, src, n)`: padded with NULs to `n` characters, or cut off there. -/
def strncpy (n : Nat) (src : Chars) : Chars := (text src ++ List.replicate n 0).take n

/-- The difference of the first characters that differ, as `unsigned char`s. -/
def strcmp : Chars → Chars → Int
  | [], [] => 0
  | a :: _, [] => a.toUInt8.toNat
  | [], b :: _ => -b.toUInt8.toNat
  | a :: s, b :: t =>
    if a = b ∧ a ≠ 0 then strcmp s t else (a.toUInt8.toNat : Int) - b.toUInt8.toNat

/-- `while ((c = *s++) != '\0') hash = ((hash << 5) + hash) + c;` -/
def djbLoop (hash : UInt64) : Chars → UInt64
  | [] => hash
  | c :: s => if c = 0 then hash else djbLoop (((hash <<< 5) + hash) + c.toInt64.toUInt64) s

def djbHash (s : Chars) : UInt64 := djbLoop 5381 s

/-! ## Items, tables and the heap -/

abbrev Addr := Nat

/-- `item_t` -/
structure Item where
  key : Chars
  value : Int32
  next : Option Addr
  deriving DecidableEq, Repr

inductive Event where
  | malloc (a : Addr)
  | free (a : Addr)
  deriving DecidableEq, Repr

structure Heap where
  item : Addr → Option Item
  log : List Event

/-- `htab_t` -/
structure Htab where
  buckets : Option (UInt64 → Option Addr)
  size : UInt64

structure Table where
  h : Htab
  mem : Heap

def Heap.empty : Heap := ⟨fun _ => none, []⟩

def Heap.malloc (m : Heap) (a : Addr) (i : Item) : Heap :=
  ⟨update m.item a (some i), .malloc a :: m.log⟩

def Heap.free (m : Heap) (a : Addr) : Option Heap :=
  (m.item a).map fun _ => ⟨update m.item a none, .free a :: m.log⟩

/-- `a->next = next` -/
def Heap.setNext (m : Heap) (a : Addr) (next : Option Addr) : Option Heap :=
  (m.item a).map fun i => { m with item := update m.item a (some { i with next := next }) }

/-- `h->buckets[i] = head` -/
def Htab.setBucket (h : Htab) (i : UInt64) (head : Option Addr) : Option Htab :=
  h.buckets.map fun buckets => { h with buckets := some (update buckets i head) }

/-! ## The functions -/

/-- What `htab_init` returns, and the table it prepares; `grant` is whether `calloc` succeeds. -/
def htabInit (grant : Bool) (n : UInt64) : Bool × Htab :=
  let buckets := if grant then some fun _ => none else none
  (buckets.isSome, ⟨buckets, n⟩)

def htabIndex (h : Htab) (key : Chars) : Option UInt64 :=
  if h.size = 0 then none else some (djbHash key % h.size)

def htabBucket (h : Htab) (key : Chars) : Option (Option Addr) := do
  let buckets ← h.buckets
  let index ← htabIndex h key
  some (buckets index)

/-- `answer` is what `malloc` returns. -/
def htabAdd (answer : Option Addr) (t : Table) (key : Chars) (value : Int32) :
    Option (Bool × Table) :=
  match answer with
  | none => some (false, t)
  | some newhead => do
    let bucket ← htabIndex t.h key
    let buckets ← t.h.buckets
    let mem := t.mem.malloc newhead ⟨strncpy 4 key, value, buckets bucket⟩
    let h ← t.h.setBucket bucket (some newhead)
    some (true, ⟨h, mem⟩)

/-- The branch of `htab_delete` that has found the key. -/
def unlinkItem (key : Chars) (previous : Option Addr) (current : Addr) (next : Option Addr)
    (t : Table) : Option Table :=
  match previous with
  | none => do
    let index ← htabIndex t.h key
    let h ← t.h.setBucket index next
    let mem ← t.mem.free current
    some ⟨h, mem⟩
  | some p => do
    let mem ← t.mem.setNext p next
    let mem ← mem.free current
    some ⟨t.h, mem⟩

/-- The loop of `htab_delete`. -/
def deleteLoop (key : Chars) : Nat → Option Addr → Option Addr → Table → Option Table
  | 0, _, _, _ => none
  | _ + 1, _, none, t => some t
  | fuel + 1, previous, some current, t => do
    let i ← t.mem.item current
    if strcmp i.key key = 0 then unlinkItem key previous current i.next t
    else deleteLoop key fuel (some current) i.next t

def htabDelete (fuel : Nat) (t : Table) (key : Chars) : Option Table := do
  let head ← htabBucket t.h key
  deleteLoop key fuel none head t

/-! ## Keys -/

/-- A string that fits in an item with its NUL. -/
structure Key where
  chars : Chars
  noNul : 0 ∉ chars
  short : chars.length ≤ 3
  deriving DecidableEq

theorem Key.ext {k k' : Key} (h : k.chars = k'.chars) : k = k' := by
  obtain ⟨chars, noNul, short⟩ := k
  obtain rfl : chars = k'.chars := h
  rfl

theorem text_cons (c : Int8) (s : Chars) : text (c :: s) = if c = 0 then [] else c :: text s := by
  unfold text
  by_cases hc : c = 0
  · rw [if_pos hc, List.takeWhile_cons_of_neg (by simp [hc])]
  · rw [if_neg hc, List.takeWhile_cons_of_pos (by simp [hc])]

theorem text_of_noNul {s : Chars} (h : 0 ∉ s) (z : Chars) : text (s ++ 0 :: z) = s := by
  unfold text
  rw [List.takeWhile_append_of_pos]
  · simp
  · intro c hc
    exact bne_iff_ne.mpr (ne_of_mem_of_not_mem hc h)

@[simp] theorem Key.text_chars (k : Key) : text k.chars = k.chars := by
  unfold text
  apply List.takeWhile_eq_self_iff.mpr
  intro c hc
  exact bne_iff_ne.mpr (ne_of_mem_of_not_mem hc k.noNul)

/-- An item's copy of a key is the key. -/
@[simp] theorem Key.text_strncpy (k : Key) : text (strncpy 4 k.chars) = k.chars := by
  obtain ⟨pad, hpad⟩ := Nat.exists_eq_add_of_le k.short
  have hcopy : strncpy 4 k.chars = k.chars ++ 0 :: List.replicate pad 0 := by
    unfold strncpy
    rw [k.text_chars, List.take_append, List.take_of_length_le (by omega), List.take_replicate,
      ← List.replicate_succ]
    congr 2
    omega
  rw [hcopy, text_of_noNul k.noNul]

theorem unsigned_inj {a b : Int8} (h : a.toUInt8.toNat = b.toUInt8.toNat) : a = b :=
  Int8.toBitVec_inj.mp (BitVec.eq_of_toNat_eq h)

theorem strcmp_eq_zero {s t : Chars} : strcmp s t = 0 ↔ text s = text t := by
  have hnul : ∀ {c : Int8}, c.toUInt8.toNat = 0 → c = 0 := fun h => unsigned_inj (b := 0) h
  induction s generalizing t with
  | nil =>
    cases t with
    | nil => simp [strcmp]
    | cons b t =>
      have hb : strcmp [] (b :: t) = 0 ↔ b = 0 := by
        simp only [strcmp]
        exact ⟨fun h => hnul (by omega), fun h => by rw [h]; rfl⟩
      rw [hb, text_cons]
      by_cases h0 : b = 0 <;> simp [h0, text]
  | cons a s ih =>
    cases t with
    | nil =>
      have ha : strcmp (a :: s) [] = 0 ↔ a = 0 := by
        simp only [strcmp]
        exact ⟨fun h => hnul (by omega), fun h => by rw [h]; rfl⟩
      rw [ha, text_cons]
      by_cases h0 : a = 0 <;> simp [h0, text]
    | cons b t =>
      rw [text_cons, text_cons]
      by_cases hab : a = b
      · subst hab
        by_cases h0 : a = 0
        · simp [strcmp, h0]
        · simp only [strcmp, h0, ne_eq, not_false_iff, and_self, if_true, if_false, ih,
            List.cons.injEq, true_and]
      · have hne : strcmp (a :: s) (b :: t) ≠ 0 := by
          simp only [strcmp, hab, false_and, if_false]
          intro h
          exact hab (unsigned_inj (by omega))
        refine iff_of_false hne ?_
        by_cases ha : a = 0 <;> by_cases hb : b = 0 <;> simp_all

/-- The hash of an array is the hash of the string in it. -/
theorem djbHash_text (s : Chars) : djbHash (text s) = djbHash s := by
  unfold djbHash
  generalize (5381 : UInt64) = hash
  induction s generalizing hash with
  | nil => rfl
  | cons c s ih =>
    rw [text_cons]
    by_cases hc : c = 0
    · subst hc
      rfl
    · rw [if_neg hc]
      simp only [djbLoop, if_neg hc]
      exact ih _

end Hashtable
end Cab403
