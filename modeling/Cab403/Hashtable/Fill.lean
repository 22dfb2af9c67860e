import Cab403.Hashtable.Scan
import Cab403.Hashtable.Stacks

/-!
# What a search finds

The whole of `main`, but for its missing joins: a table is filled, and four threads search it.

After any calls that add and delete, a key is printed as often as its stack holds the value that
is searched for (`printed_count`). `main` itself only adds, each time another key: the three
letters count in base 26, and ten thousand keys do not use them up. So what the threads print is,
each once, the keys that were given the value and for which there was memory (`main_prints`).
-/

namespace Cab403
namespace Hashtable

open Function Lib

/-! ## The buckets of a scan -/

/-- Bucket `s`, and those before it and after it. -/
theorem exists_split {s : UInt64} (hs : s < UInt64.ofNat BUCKETS) : ∃ pre post,
    List.range' 0 BUCKETS = pre ++ s.toNat :: post ∧
      ∀ i ∈ pre ++ post, i < BUCKETS ∧ UInt64.ofNat i ≠ s := by
  have hlt : s.toNat < BUCKETS := hs
  have hmem : s.toNat ∈ List.range' 0 BUCKETS := by
    rw [List.mem_range'_1]
    omega
  obtain ⟨pre, post, hsplit⟩ := List.append_of_mem hmem
  have hnodup : (pre ++ s.toNat :: post).Nodup := hsplit ▸ List.nodup_range'
  refine ⟨pre, post, hsplit, fun i hi => ?_⟩
  have hi' : i ∈ pre ++ s.toNat :: post := by
    rw [List.mem_append] at hi ⊢
    exact hi.imp_right (List.mem_cons_of_mem _)
  have hbound : i < BUCKETS := by
    have := (List.mem_range'_1.mp (hsplit ▸ hi' : i ∈ List.range' 0 BUCKETS)).2
    omega
  refine ⟨hbound, ?_⟩
  rintro rfl
  have hi64 : (UInt64.ofNat i).toNat = i := by
    apply UInt64.toNat_ofNat_of_lt'
    exact Nat.lt_trans hbound (by decide)
  rw [hi64] at hnodup
  exact (List.nodup_cons.mp (List.nodup_middle.mp hnodup)).1 hi

/-- The chains, bucket by bucket. -/
def chainsOf (chain : UInt64 → List (Addr × Entry)) (i : Nat) : List (Addr × Entry) :=
  chain (UInt64.ofNat i)

theorem ahead_table (chain : UInt64 → List (Addr × Entry)) :
    ahead (chainsOf chain) 0 BUCKETS = (List.range' 0 BUCKETS).flatMap (chainsOf chain) := rfl

theorem Rep.chainsOf {t : Table} {chain : UInt64 → List (Addr × Entry)}
    (h : Rep (UInt64.ofNat BUCKETS) t chain) :
    ∀ i < BUCKETS, t.Chain (UInt64.ofNat i) (Hashtable.chainsOf chain i) := by
  intro i hi
  apply h.chainOf
  show (UInt64.ofNat i).toNat < (UInt64.ofNat BUCKETS).toNat
  rw [UInt64.toNat_ofNat_of_lt' (Nat.lt_trans hi (by decide))]
  exact hi

/-! ## Any calls -/

/-- A chain's keys, by their entries. -/
theorem count_found (key : Key) (search : Int32) (entries : List (Addr × Entry)) :
    (found search entries).count key.chars =
      (values (entries.filter (hasKey key))).count search := by
  induction entries with
  | nil => rfl
  | cons e entries ih =>
    rw [found_cons, List.count_append, ih]
    by_cases hkey : hasKey key e = true
    · rw [List.filter_cons_of_pos hkey]
      have htext : text e.2.key = key.chars := hasKey_iff.mp hkey
      by_cases hvalue : e.2.value = search
      · simp [values, hvalue, htext, Nat.add_comm]
      · simp [values, hvalue]
    · rw [List.filter_cons_of_neg hkey]
      have htext : text e.2.key ≠ key.chars := fun h => hkey (hasKey_iff.mpr h)
      by_cases hvalue : e.2.value = search
      · simp [hvalue, htext]
      · simp [hvalue]

theorem found_append (search : Int32) (l l' : List (Addr × Entry)) :
    found search (l ++ l') = found search l ++ found search l' := by
  simp [found]

/-- Another bucket does not have the key. -/
theorem Rep.count_other {t : Table} {chain : UInt64 → List (Addr × Entry)}
    (h : Rep (UInt64.ofNat BUCKETS) t chain) (key : Key) (search : Int32) {is : List Nat}
    (his : ∀ i ∈ is, i < BUCKETS ∧ UInt64.ofNat i ≠ slot (UInt64.ofNat BUCKETS) key.chars) :
    (found search (is.flatMap (Hashtable.chainsOf chain))).count key.chars = 0 := by
  rw [count_found]
  have hnone : (is.flatMap (Hashtable.chainsOf chain)).filter (hasKey key) = [] := by
    rw [List.filter_eq_nil_iff]
    intro e he hkey
    obtain ⟨i, hi, he⟩ := List.mem_flatMap.mp he
    obtain ⟨hbound, hne⟩ := his i hi
    have hlt : UInt64.ofNat i < UInt64.ofNat BUCKETS := by
      show (UInt64.ofNat i).toNat < (UInt64.ofNat BUCKETS).toNat
      rw [UInt64.toNat_ofNat_of_lt' (Nat.lt_trans hbound (by decide))]
      exact hbound
    have hfiled : slot (UInt64.ofNat BUCKETS) e.2.key = UInt64.ofNat i := h.filed _ hlt e he
    apply hne
    rw [← hfiled]
    unfold slot
    rw [← djbHash_text e.2.key, hasKey_iff.mp hkey]
  rw [hnone]
  rfl

/-- A scan of the table finds each key as often as its bucket has it with the value. -/
theorem Rep.count_scan {t : Table} {chain : UInt64 → List (Addr × Entry)}
    (h : Rep (UInt64.ofNat BUCKETS) t chain) (key : Key) (search : Int32) :
    (found search (ahead (Hashtable.chainsOf chain) 0 BUCKETS)).count key.chars =
      (values (itemsOf (UInt64.ofNat BUCKETS) chain key)).count search := by
  have hslot := slot_lt (n := UInt64.ofNat BUCKETS) (by decide) key.chars
  obtain ⟨pre, post, hsplit, hothers⟩ := exists_split hslot
  have hself : UInt64.ofNat (slot (UInt64.ofNat BUCKETS) key.chars).toNat =
      slot (UInt64.ofNat BUCKETS) key.chars := UInt64.ofNat_toNat
  rw [ahead_table, hsplit, List.flatMap_append, List.flatMap_cons, found_append, found_append,
    List.count_append, List.count_append,
    h.count_other key search fun i hi => hothers i (List.mem_append_left _ hi),
    h.count_other key search fun i hi => hothers i (List.mem_append_right _ hi),
    count_found, Nat.zero_add, Nat.add_zero]
  unfold Hashtable.chainsOf itemsOf
  rw [hself]

/-- When the threads have returned, they have printed the scan. -/
theorem Rep.printedKeys {t : Table} {chain : UInt64 → List (Addr × Entry)}
    (h : Rep (UInt64.ofNat BUCKETS) t chain) {search : Int32} {tr : List (Fin THREADS × State)}
    (htr : Trace (Scans search) (created t) tr)
    (hall : ∀ k, ((lastState (created t) tr).thread k).pc = .returned) :
    Hashtable.printedKeys (lastState (created t) tr) =
      found search (ahead (Hashtable.chainsOf chain) 0 BUCKETS) := by
  obtain ⟨n, hcreated⟩ := @scanning_created search t (Hashtable.chainsOf chain)
  obtain ⟨m, _, hlast⟩ :=
    htr.lowers (fun s k u n hs hst => scanning_step h.chainsOf hs hst) hcreated
  exact printedKeys_of_returned hlast hall

/-- **A search finds what the stacks hold**: after any calls, and in any order of the threads'
steps, a key is printed once for each time that the value is in its stack. -/
theorem printed_count {grant : Bool} {h : Htab}
    (hinit : htabInit grant (UInt64.ofNat BUCKETS) = (true, h)) {calls : List (Call × Table)}
    (hcalls : Trace Makes ⟨h, .empty⟩ calls) {search : Int32} {tr : List (Fin THREADS × State)}
    (htr : Trace (Scans search) (created (lastState ⟨h, .empty⟩ calls)) tr)
    (hall : ∀ k, ((lastState (created (lastState ⟨h, .empty⟩ calls)) tr).thread k).pc = .returned)
    (key : Key) :
    (printedKeys (lastState (created (lastState ⟨h, .empty⟩ calls)) tr)).count key.chars =
      (stacksAfter (fun _ => []) (calls.map Prod.fst) key).count search := by
  obtain ⟨chain, hlast, hvalues⟩ := (rep_init _ hinit).run (by decide) hcalls
  rw [hlast.printedKeys htr hall, hlast.count_scan, hvalues]
  rfl

/-- The threads can always be brought to return. -/
theorem Rep.exists_search {t : Table} {chain : UInt64 → List (Addr × Entry)}
    (h : Rep (UInt64.ofNat BUCKETS) t chain) (search : Int32) : ∃ tr,
      Trace (Scans search) (created t) tr ∧
        ∀ k, ((lastState (created t) tr).thread k).pc = .returned := by
  obtain ⟨n, hcreated⟩ := @scanning_created search t (Hashtable.chainsOf chain)
  exact Trace.exists_finish (fun s k u n hs hst => scanning_step h.chainsOf hs hst)
    (fun s n hs => scanning_progress h.chainsOf hs) hcreated

/-- The table of `main` before its loop. -/
def initialised : Table := ⟨(htabInit true (UInt64.ofNat BUCKETS)).2, .empty⟩

theorem htabInit_initialised : htabInit true (UInt64.ofNat BUCKETS) = (true, initialised.h) := rfl

theorem rep_initialised : Rep (UInt64.ofNat BUCKETS) initialised fun _ => [] :=
  rep_init (UInt64.ofNat BUCKETS) htabInit_initialised

/-- Two keys with the value searched for, one of them deleted again. -/
theorem printed_count_deleted : ∃ (calls : List (Call × Table)) (tr : List (Fin THREADS × State)),
    calls.map Prod.fst = [.add keyA 7 (some 0), .add keyB 7 (some 1), .delete keyA] ∧
    Trace (Scans 7) (created (lastState initialised calls)) tr ∧
    (printedKeys (lastState (created (lastState initialised calls)) tr)).count keyB.chars = 1 ∧
    (printedKeys (lastState (created (lastState initialised calls)) tr)).count keyA.chars = 0 := by
  have hcalls := Trace.cons
    (.add (fun _ _ => rfl) rfl : Makes initialised (.add keyA 7 (some 0)) _)
    (.cons (.add (fun _ h => by cases h; rfl) rfl : Makes _ (.add keyB 7 (some 1)) _)
      (.cons (@Makes.delete _ _ keyA 3 rfl) (.nil _)))
  obtain ⟨chain, hlast, _⟩ := rep_initialised.run (by decide) hcalls
  obtain ⟨tr, htr, hall⟩ := hlast.exists_search 7
  have hcount := printed_count htabInit_initialised hcalls htr hall
  exact ⟨_, tr, rfl, htr, hcount keyB, hcount keyA⟩

/-! ## The keys of `main` -/

/-- `(i % 26) + 'A'` -/
def letter (i : Nat) : Int8 := Int8.ofNat (i % 26 + 65)

theorem letter_ne_zero (i : Nat) : letter i ≠ 0 := by
  have hall : ∀ r < 26, Int8.ofNat (r + 65) ≠ 0 := by decide
  exact hall _ (Nat.mod_lt i (by decide))

theorem letter_inj {i j : Nat} (h : letter i = letter j) : i % 26 = j % 26 := by
  have hall : ∀ r < 26, (Int8.ofNat (r + 65)).toInt = r + 65 := by decide
  have hi := hall _ (Nat.mod_lt i (by decide))
  have hj := hall _ (Nat.mod_lt j (by decide))
  unfold letter at h
  rw [h] at hi
  omega

/-- The key of item `i`. -/
def keyOf (i : Nat) : Key where
  chars := [letter i, letter (i / 26), letter (i / 676)]
  noNul := by
    intro hmem
    simp only [List.mem_cons, List.not_mem_nil, or_false] at hmem
    rcases hmem with h | h | h
    · exact letter_ne_zero _ h.symm
    · exact letter_ne_zero _ h.symm
    · exact letter_ne_zero _ h.symm
  short := Nat.le_refl 3

/-- **Three letters in base 26.** -/
theorem keyOf_inj {i j : Nat} (hi : i < 26 ^ 3) (hj : j < 26 ^ 3) (h : keyOf i = keyOf j) :
    i = j := by
  have hchars : [letter i, letter (i / 26), letter (i / 676)] =
    [letter j, letter (j / 26), letter (j / 676)] := congrArg Key.chars h
  simp only [List.cons.injEq, and_true] at hchars
  have h0 := letter_inj hchars.1
  have h1 := letter_inj hchars.2.1
  have h2 := letter_inj hchars.2.2
  omega

/-! ## Filling -/

/-- The calls of `main`'s loop: the values are whatever `rand` gives, the answers `malloc`'s. -/
def fill (value : Nat → Int32) (answer : Nat → Option Addr) (n : Nat) : List Call :=
  (List.range n).map fun i => .add (keyOf i) (value i) (answer i)

/-- The keys that a list of additions gives the value. -/
def given (search : Int32) (calls : List Call) : List Chars :=
  calls.filterMap fun
    | .add key value (some _) => if value = search then some key.chars else none
    | .add _ _ none => none
    | .delete _ => none

def Call.isAdd : Call → Bool
  | .add _ _ _ => true
  | .delete _ => false

/-- An entry in front of a chain is one more in the scan. -/
theorem scan_update (chain : UInt64 → List (Addr × Entry)) {s : UInt64}
    (hs : s < UInt64.ofNat BUCKETS) (e : Addr × Entry) :
    (ahead (chainsOf (update chain s (e :: chain s))) 0 BUCKETS).Perm
      (e :: ahead (chainsOf chain) 0 BUCKETS) := by
  obtain ⟨pre, post, hsplit, hothers⟩ := exists_split hs
  have hsame : ∀ is : List Nat, (∀ i ∈ is, i < BUCKETS ∧ UInt64.ofNat i ≠ s) →
      is.flatMap (chainsOf (update chain s (e :: chain s))) = is.flatMap (chainsOf chain) := by
    intro is his
    apply List.flatMap_congr
    intro i hi
    exact update_of_ne (his i hi).2 ..
  have hself : chainsOf (update chain s (e :: chain s)) s.toNat = e :: chainsOf chain s.toNat := by
    unfold chainsOf
    rw [UInt64.ofNat_toNat, update_self]
  rw [ahead_table, ahead_table, hsplit, List.flatMap_append, List.flatMap_append,
    List.flatMap_cons, List.flatMap_cons, hself,
    hsame pre fun i hi => hothers i (List.mem_append_left _ hi),
    hsame post fun i hi => hothers i (List.mem_append_right _ hi), List.cons_append]
  exact List.perm_middle

/-- **Additions only add to the scan.** -/
theorem Rep.fills {t : Table} {chain : UInt64 → List (Addr × Entry)} {calls : List (Call × Table)}
    (h : Rep (UInt64.ofNat BUCKETS) t chain) (hcalls : Trace Makes t calls)
    (hadds : ∀ c ∈ calls.map Prod.fst, c.isAdd = true) (search : Int32) :
    ∃ chain', Rep (UInt64.ofNat BUCKETS) (lastState t calls) chain' ∧
      (found search (ahead (Hashtable.chainsOf chain') 0 BUCKETS)).Perm
        (given search (calls.map Prod.fst) ++
          found search (ahead (Hashtable.chainsOf chain) 0 BUCKETS)) := by
  induction hcalls generalizing chain with
  | nil t => exact ⟨chain, h, .refl _⟩
  | @cons t t' c calls hc _ ih =>
    rw [List.map_cons, List.forall_mem_cons] at hadds
    have hmakes := h.makes (by decide) hc
    obtain ⟨chain', hrep, hperm⟩ := ih hmakes hadds.2
    refine ⟨chain', hrep, hperm.trans ?_⟩
    cases c with
    | delete key => cases hadds.1
    | add key value answer =>
      cases answer with
      | none => exact .refl _
      | some a =>
        have hscan := scan_update chain (slot_lt (by decide) key.chars)
          (a, ⟨strncpy 4 key.chars, value⟩)
        have hfound : (found search (ahead (Hashtable.chainsOf
            ((Call.add key value (some a)).effect (UInt64.ofNat BUCKETS) chain)) 0 BUCKETS)).Perm
            ((if value = search then [key.chars] else []) ++
              found search (ahead (Hashtable.chainsOf chain) 0 BUCKETS)) := by
          have hmap := (hscan.filter fun e => e.2.value = search).map fun e => text e.2.key
          refine hmap.trans (.of_eq ?_)
          refine (found_cons ..).trans ?_
          rw [key.text_strncpy]
        refine (hfound.append_left _).trans ?_
        rw [← List.append_assoc]
        refine List.Perm.append_right _ ?_
        by_cases hvalue : value = search
        · rw [if_pos hvalue]
          refine (List.perm_append_comm).trans (.of_eq ?_)
          simp [given, hvalue]
        · rw [if_neg hvalue, List.append_nil]
          exact .of_eq (by simp [given, hvalue])

theorem fill_isAdd (value : Nat → Int32) (answer : Nat → Option Addr) (n : Nat) :
    ∀ c ∈ fill value answer n, c.isAdd = true := by
  intro c hc
  obtain ⟨i, _, rfl⟩ := List.mem_map.mp hc
  rfl

theorem given_fill (search : Int32) (value : Nat → Int32) (answer : Nat → Option Addr) (n : Nat) :
    given search (fill value answer n) =
      ((List.range n).filter fun i => (answer i).isSome && value i == search).map fun i =>
        (keyOf i).chars := by
  unfold given fill
  rw [List.filterMap_map, ← List.filterMap_eq_map, List.filterMap_filter]
  apply List.filterMap_congr
  intro i _
  show (match Call.add (keyOf i) (value i) (answer i) with
    | .add key value (some _) => if value = search then some key.chars else none
    | .add _ _ none => none
    | .delete _ => none) = _
  cases answer i with
  | none => rfl
  | some a =>
    by_cases hvalue : value i = search
    · simp [hvalue]
    · simp [hvalue]

/-- `for (int i = 0; i < 10000; i++)` -/
def ITEMS : Nat := 10000

/-- **What the program prints**, were the threads left to finish: each once, the keys of the items
there was memory for whose value is the one searched for; whatever `rand` and `malloc` gave and
however the threads ran. -/
theorem main_prints {grant : Bool} {h : Htab}
    (hinit : htabInit grant (UInt64.ofNat BUCKETS) = (true, h)) {value : Nat → Int32}
    {answer : Nat → Option Addr} {calls : List (Call × Table)}
    (hcalls : Trace Makes ⟨h, .empty⟩ calls)
    (hfill : calls.map Prod.fst = fill value answer ITEMS) {search : Int32}
    {tr : List (Fin THREADS × State)}
    (htr : Trace (Scans search) (created (lastState ⟨h, .empty⟩ calls)) tr)
    (hall : ∀ k, ((lastState (created (lastState ⟨h, .empty⟩ calls)) tr).thread k).pc = .returned) :
    (printedKeys (lastState (created (lastState ⟨h, .empty⟩ calls)) tr)).Perm
        (((List.range ITEMS).filter fun i => (answer i).isSome && value i == search).map fun i =>
          (keyOf i).chars) ∧
      (printedKeys (lastState (created (lastState ⟨h, .empty⟩ calls)) tr)).Nodup := by
  obtain ⟨chain, hlast, hscan⟩ := (rep_init _ hinit).fills hcalls
    (by rw [hfill]; exact fill_isAdd value answer ITEMS) search
  have hempty : found search (ahead (chainsOf fun _ => []) 0 BUCKETS) = [] := by
    have hnil : (List.range' 0 BUCKETS).flatMap (chainsOf fun _ => []) = [] :=
      List.flatMap_eq_nil_iff.mpr fun _ _ => rfl
    rw [ahead_table, hnil]
    rfl
  rw [hempty, List.append_nil, hfill, given_fill, ← hlast.printedKeys htr hall] at hscan
  refine ⟨hscan, hscan.nodup_iff.mpr ?_⟩
  refine List.Nodup.map_on (fun i hi j hj hij => ?_) (List.nodup_range.filter _)
  have hsmall : ∀ k ∈ (List.range ITEMS).filter
      (fun i => (answer i).isSome && value i == search), k < 26 ^ 3 := by
    intro k hk
    have := List.mem_range.mp (List.mem_filter.mp hk).1
    unfold ITEMS at this
    omega
  exact keyOf_inj (hsmall i hi) (hsmall j hj) (Key.ext hij)

/-! ## A run -/

theorem Makes.item_of_ne {t t' : Table} {key : Key} {value : Int32} {a b : Addr}
    (h : Makes t (.add key value (some a)) t') (hb : b ≠ a) : t'.mem.item b = t.mem.item b := by
  cases h with
  | add hfresh hadd =>
    obtain ⟨bucket, _, hadd⟩ := Option.bind_eq_some_iff.mp hadd
    obtain ⟨buckets, _, hadd⟩ := Option.bind_eq_some_iff.mp hadd
    obtain ⟨h', _, hadd⟩ := Option.bind_eq_some_iff.mp hadd
    obtain rfl := (Prod.mk.inj (Option.some.inj hadd)).2
    exact update_of_ne hb ..

/-- With memory for every item, at the addresses from `0` on. -/
theorem exists_fill (value : Nat → Int32) (n : Nat) : ∃ calls, Trace Makes initialised calls ∧
    calls.map Prod.fst = fill value some n ∧
    ∀ a, n ≤ a → (lastState initialised calls).mem.item a = none := by
  induction n with
  | zero => exact ⟨[], .nil _, rfl, fun a _ => rfl⟩
  | succ n ih =>
    obtain ⟨calls, hcalls, hlabels, hfresh⟩ := ih
    obtain ⟨chain, hrep, _⟩ := rep_initialised.run (by decide) hcalls
    have hanswer : (Call.add (keyOf n) (value n) (some n)).Fresh (lastState initialised calls) := by
      intro a ha
      obtain rfl := Option.some.inj ha
      exact hfresh n (Nat.le_refl n)
    obtain ⟨t, ht⟩ := hrep.exists_makes (by decide) hanswer
    refine ⟨calls ++ [(_, t)], hcalls.append (.cons ht (.nil t)), ?_, fun a ha => ?_⟩
    · rw [List.map_append, hlabels, fill, fill, List.range_succ, List.map_append]
      rfl
    · rw [lastState_append]
      show t.mem.item a = none
      rw [ht.item_of_ne (Nat.ne_of_gt ha)]
      exact hfresh a (Nat.le_of_succ_le ha)

/-- With the values `0` to `99` in turn, a hundred keys have the value `7`. -/
theorem main_prints_hundred : ∃ (calls : List (Call × Table)) (tr : List (Fin THREADS × State)),
    calls.map Prod.fst = fill (fun i => Int32.ofNat (i % 100)) some ITEMS ∧
    Trace (Scans 7) (created (lastState initialised calls)) tr ∧
    (printedKeys (lastState (created (lastState initialised calls)) tr)).Perm
      (((List.range ITEMS).filter fun i => Int32.ofNat (i % 100) == 7).map fun i =>
        (keyOf i).chars) := by
  obtain ⟨calls, hcalls, hfill, _⟩ := exists_fill (fun i => Int32.ofNat (i % 100)) ITEMS
  obtain ⟨chain, hlast, _⟩ := rep_initialised.run (by decide) hcalls
  obtain ⟨tr, htr, hall⟩ := hlast.exists_search 7
  exact ⟨calls, tr, hfill, htr, (main_prints htabInit_initialised hcalls hfill htr hall).1⟩

end Hashtable
end Cab403
