import Cab403.Display.Floors
import Cab403.Lib.Linked
import Mathlib.Data.Finmap
import Mathlib.Data.List.Lex
import Mathlib.Data.Char
import Mathlib.Order.Lattice.Nat

/-!
# The list of cars on the display

`display-cars.c` keeps a node for each car it shows, on the list `cars`. Here are the walks along
it, one specification each, on any chain (`Lib.Linked`): the lookup by name, the marking, the
insertion and the cleaning up. `Display.Scan` puts them together.

A node is what is in its `struct carinfo`, its `next` apart. The name is copied into an array of
`128` bytes of which `strncpy` writes `127`: a name that fills them ends at what `malloc` left in
the last one, or it does not end in the array at all and a reader finds no name. Of `strcmp` only
the sign of its result is known.

A walk that passes more nodes than there are goes round for ever; that is no result, and neither
is a node that is not there.
-/

namespace Cab403
namespace Display

open Function Lib
open Car (CarSharedMem)

abbrev Addr := ℕ

structure Timeval where
  sec : Int64
  usec : Int64
  deriving DecidableEq, Repr

/-- `us_diff` -/
def usDiff (before after : Timeval) : Int64 :=
  (after.sec - before.sec) * 1000000 + (after.usec - before.usec)

/-- `struct carinfo`, without `next`. -/
structure CarInfo where
  name : Option CString
  delay : Int64
  statusTv : Timeval
  state : Char
  mem : CarSharedMem
  deriving DecidableEq, Repr

/-- `strncpy(c->name, name, 127)`, where the last byte of `c->name` is `last`. -/
def strncpyName (name : CString) (last : Char) : Option CString :=
  if name.length < 127 then some name
  else if last = '\x00' then some (name.take 127)
  else none

/-- What is known of `strcmp`. -/
structure Strcmp where
  result : CString → CString → Int32
  neg_iff : ∀ s t, result s t < 0 ↔ s < t
  zero_iff : ∀ s t, result s t = 0 ↔ s = t

instance : CoeFun Strcmp fun _ => CString → CString → Int32 := ⟨Strcmp.result⟩

abbrev Heap := Finmap fun _ : Addr => CarInfo × Option Addr

def Heap.cell (h : Heap) (a : Addr) : Option (CarInfo × Option Addr) := h.lookup a

/-- What `malloc` does at its `n`th call, with `used` the blocks in use: the block it returns, and
what is in the last byte of the name there. -/
structure Malloc where
  block : ℕ → Finset Addr → Addr
  last : ℕ → Char
  fresh : ∀ n used, block n used ∉ used

/-- The variables of the program, the heap, and how often `malloc` has been called. -/
structure Screen where
  cars : Option Addr
  heap : Heap
  highest : Int32
  lowest : Int32
  mallocs : ℕ

/-- Before the first scan. -/
def Screen.start : Screen := ⟨none, ∅, 1, 1, 0⟩

/-- A `strcmp` that returns `below` for every string below another. -/
def strcmpOf (below : Int32) (hbelow : below < 0) : Strcmp where
  result s t := if s < t then below else if s = t then 0 else 1
  neg_iff s t := by
    by_cases hlt : s < t
    · simp [hlt, hbelow]
    · by_cases heq : s = t <;> simp [hlt, heq]
  zero_iff s t := by
    by_cases hlt : s < t
    · have hne : below ≠ 0 := by
        rintro rfl
        exact absurd hbelow (by decide)
      simp [hlt, hne, ne_of_lt hlt]
    · by_cases heq : s = t <;> simp [hlt, heq]

/-- A `malloc` that returns the next block, and memory that is zeroed. -/
def mallocNext : Malloc where
  block _ used := used.sup id + 1
  last _ := '\x00'
  fresh _ _ hmem := Nat.not_succ_le_self _ (Finset.le_sup (f := id) hmem)

/-! ## The heap -/

variable {h : Heap} {head : Option Addr} {l : List (Addr × CarInfo)}

@[simp] theorem Heap.cell_insert (h : Heap) (a : Addr) (c : CarInfo × Option Addr) :
    Heap.cell (h.insert a c) = update h.cell a (some c) := by
  funext b
  by_cases hb : b = a
  · rw [hb, update_self]
    exact Finmap.lookup_insert h
  · rw [update_of_ne hb]
    exact Finmap.lookup_insert_of_ne h hb

@[simp] theorem Heap.cell_erase (h : Heap) (a : Addr) :
    Heap.cell (h.erase a) = update h.cell a none := by
  funext b
  by_cases hb : b = a
  · rw [hb, update_self]
    exact Finmap.lookup_erase a h
  · rw [update_of_ne hb]
    exact Finmap.lookup_erase_ne hb

theorem Heap.cell_of_not_mem {a : Addr} (ha : a ∉ h.keys) : h.cell a = none :=
  Finmap.lookup_eq_none.mpr fun hmem => ha (Finmap.mem_keys.mpr hmem)

theorem length_le_keys (hl : Linked h.cell head l) : l.length ≤ h.keys.card := by
  apply hl.length_le
  intro a hcell
  by_contra ha
  exact hcell (Heap.cell_of_not_mem ha)

theorem not_mem_of_fresh (hl : Linked h.cell head l) {a : Addr} (ha : a ∉ h.keys) :
    a ∉ l.map Prod.fst :=
  Segment.not_mem_of_none hl (Heap.cell_of_not_mem ha)

/-! ## The lookup -/

def getCarByNameFrom (strcmp : Strcmp) (name : CString) (h : Heap) :
    ℕ → Option Addr → Option (Option Addr)
  | 0, _ => none
  | _ + 1, none => some none
  | fuel + 1, some a => do
    let (c, next) ← h.lookup a
    let cName ← c.name
    if strcmp name cName = 0 then some (some a) else getCarByNameFrom strcmp name h fuel next

/-- `get_car_by_name` -/
def getCarByName (strcmp : Strcmp) (name : CString) (s : Screen) : Option (Option Addr) :=
  getCarByNameFrom strcmp name s.heap (s.heap.keys.card + 1) s.cars

/-- Every name ends in its array. -/
def Readable (l : List (Addr × CarInfo)) : Prop := ∀ e ∈ l, e.2.name ≠ none

theorem Readable.exists_name (h : Readable l) {a : Addr} {c : CarInfo} (he : (a, c) ∈ l) :
    ∃ n, c.name = some n :=
  Option.ne_none_iff_exists'.mp (h (a, c) he)

theorem Readable.tail {e : Addr × CarInfo} (h : Readable (e :: l)) : Readable l :=
  fun d hd => h d (List.mem_cons_of_mem e hd)

/-- A node has the name. -/
def Named (l : List (Addr × CarInfo)) (name : CString) : Prop := ∃ e ∈ l, e.2.name = some name

/-- **The lookup** finds a node with the name if there is one. -/
theorem getCarByNameFrom_spec (strcmp : Strcmp) (name : CString) (hl : Linked h.cell head l)
    (hread : Readable l) {fuel : ℕ} (hfuel : l.length < fuel) :
    (getCarByNameFrom strcmp name h fuel head = some none ∧ ¬ Named l name) ∨
      ∃ front a c back, getCarByNameFrom strcmp name h fuel head = some (some a) ∧
        l = front ++ (a, c) :: back ∧ c.name = some name := by
  induction l generalizing head fuel with
  | nil =>
    obtain rfl : head = none := hl
    cases fuel with
    | zero => exact absurd hfuel (Nat.not_lt_zero _)
    | succ fuel => exact .inl ⟨rfl, fun hnamed => by simp [Named] at hnamed⟩
  | cons e l ih =>
    obtain ⟨a, c⟩ := e
    obtain ⟨rfl, next, hcell, hrest⟩ := hl
    cases fuel with
    | zero => exact absurd hfuel (Nat.not_lt_zero _)
    | succ fuel =>
      obtain ⟨cName, hname⟩ := hread.exists_name List.mem_cons_self
      have hlookup : h.lookup a = some (c, next) := hcell
      by_cases heq : strcmp name cName = 0
      · obtain rfl := (strcmp.zero_iff _ _).mp heq
        refine .inr ⟨[], a, c, l, ?_, rfl, hname⟩
        simp [getCarByNameFrom, hlookup, hname, heq]
      · have hstep : getCarByNameFrom strcmp name h (fuel + 1) (some a) =
            getCarByNameFrom strcmp name h fuel next := by
          simp [getCarByNameFrom, hlookup, hname, heq]
        have hne : name ≠ cName := fun hname => heq ((strcmp.zero_iff _ _).mpr hname)
        rw [hstep]
        rcases ih hrest hread.tail (Nat.lt_of_succ_lt_succ hfuel) with
          ⟨hnone, hnot⟩ | ⟨front, b, d, back, hsome, hl, hd⟩
        · refine .inl ⟨hnone, ?_⟩
          rintro ⟨e, he, hename⟩
          rcases List.mem_cons.mp he with rfl | hmem
          · exact hne (Option.some.inj (hename.symm.trans hname))
          · exact hnot ⟨e, hmem, hename⟩
        · exact .inr ⟨(a, c) :: front, b, d, back, hsome, congrArg _ hl, hd⟩

theorem getCarByName_spec (strcmp : Strcmp) (name : CString) {s : Screen}
    (hl : Linked s.heap.cell s.cars l) (hread : Readable l) :
    (getCarByName strcmp name s = some none ∧ ¬ Named l name) ∨
      ∃ front a c back, getCarByName strcmp name s = some (some a) ∧
        l = front ++ (a, c) :: back ∧ c.name = some name :=
  getCarByNameFrom_spec strcmp name hl hread (Nat.lt_succ_of_le (length_le_keys hl))

/-! ## The marking -/

def CarInfo.mark (c : CarInfo) : CarInfo := if c.state = 'c' then { c with state := 'o' } else c

@[simp] theorem CarInfo.mark_name (c : CarInfo) : c.mark.name = c.name := by
  unfold CarInfo.mark
  split <;> rfl

def markFrom : ℕ → Option Addr → Heap → Option Heap
  | 0, _, _ => none
  | _ + 1, none, h => some h
  | fuel + 1, some a, h => do
    let (c, next) ← h.lookup a
    markFrom fuel next (h.insert a (c.mark, next))

/-- The first loop of `scan_cars`. -/
def mark (s : Screen) : Option Screen := do
  let heap ← markFrom (s.heap.keys.card + 1) s.cars s.heap
  return { s with heap }

def marked (l : List (Addr × CarInfo)) : List (Addr × CarInfo) := l.map fun e => (e.1, e.2.mark)

theorem markFrom_spec {front back : List (Addr × CarInfo)}
    (hl : Linked h.cell head (front ++ back)) {fuel : ℕ} (hfuel : back.length < fuel) :
    ∃ h', markFrom fuel (back.head?.map Prod.fst) h = some h' ∧
      Linked h'.cell head (front ++ marked back) := by
  induction back generalizing front h fuel with
  | nil =>
    cases fuel with
    | zero => exact absurd hfuel (Nat.not_lt_zero _)
    | succ fuel => exact ⟨h, rfl, hl⟩
  | cons e back ih =>
    obtain ⟨a, c⟩ := e
    cases fuel with
    | zero => exact absurd hfuel (Nat.not_lt_zero _)
    | succ fuel =>
      have hlookup : h.lookup a = some (c, back.head?.map Prod.fst) := hl.cell_eq
      have hset := hl.set c.mark
      rw [← Heap.cell_insert, List.append_cons] at hset
      obtain ⟨h', hrun, hlinked⟩ := ih hset (Nat.lt_of_succ_lt_succ hfuel)
      refine ⟨h', ?_, ?_⟩
      · simp only [List.head?_cons, Option.map_some, markFrom, hlookup, Option.bind_eq_bind,
          Option.bind_some, hrun]
      · show Linked h'.cell head (front ++ (a, c.mark) :: marked back)
        rw [List.append_cons]
        exact hlinked

theorem mark_spec {s : Screen} (hl : Linked s.heap.cell s.cars l) :
    ∃ heap, mark s = some { s with heap } ∧ Linked heap.cell s.cars (marked l) := by
  obtain ⟨heap, hrun, hlinked⟩ :=
    markFrom_spec (show Linked _ _ ([] ++ l) from hl) (Nat.lt_succ_of_le (length_le_keys hl))
  refine ⟨heap, ?_, hlinked⟩
  rw [← hl.head_eq] at hrun
  simp [mark, hrun]

/-! ## The insertion -/

/-- The loop that looks for the node to go behind, at the node `t`. -/
def insertBehind (strcmp : Strcmp) (name : CString) (a : Addr) (c : CarInfo) :
    ℕ → Addr → Heap → Option Heap
  | 0, _, _ => none
  | fuel + 1, t, h => do
    let (tc, next) ← h.lookup t
    match next with
    | none => some ((h.insert a (c, none)).insert t (tc, some a))
    | some b => do
      let (bc, _) ← h.lookup b
      let bName ← bc.name
      if strcmp name bName = -1 then some ((h.insert a (c, some b)).insert t (tc, some a))
      else insertBehind strcmp name a c fuel b h

/-- The node `c`, new at `a`, is inserted "in alphabetical order". -/
def insertCar (strcmp : Strcmp) (name : CString) (a : Addr) (c : CarInfo) (s : Screen) :
    Option Screen :=
  let inFront : Screen := { s with cars := some a, heap := s.heap.insert a (c, s.cars) }
  match s.cars with
  | none => some inFront
  | some t => do
    let (tc, _) ← s.heap.lookup t
    let tName ← tc.name
    if strcmp name tName = -1 then some inFront
    else do
      let heap ← insertBehind strcmp name a c s.heap.keys.card t s.heap
      return { s with heap }

/-- Where a node goes: in front of the first name for which `strcmp` returns `-1`. -/
structure StopsAt (strcmp : Strcmp) (name : CString) (front back : List (Addr × CarInfo)) :
    Prop where
  passed : ∀ e ∈ front, ∀ n, e.2.name = some n → strcmp name n ≠ -1
  stopped : ∀ e ∈ back.head?, ∀ n, e.2.name = some n → strcmp name n = -1

theorem insertBehind_spec (strcmp : Strcmp) (name : CString) {a t : Addr} (c tc : CarInfo)
    {front back : List (Addr × CarInfo)} (hl : Linked h.cell head (front ++ (t, tc) :: back))
    (hread : Readable back) (ha : a ∉ h.keys) {fuel : ℕ} (hfuel : back.length < fuel) :
    ∃ h' mid rest, insertBehind strcmp name a c fuel t h = some h' ∧ back = mid ++ rest ∧
      StopsAt strcmp name mid rest ∧
      Linked h'.cell head (front ++ (t, tc) :: (mid ++ (a, c) :: rest)) := by
  induction back generalizing front t tc fuel with
  | nil =>
    cases fuel with
    | zero => exact absurd hfuel (Nat.not_lt_zero _)
    | succ fuel =>
      have hlookup : h.lookup t = some (tc, none) := hl.cell_eq
      have hlink := hl.link (not_mem_of_fresh hl ha) c
      rw [← Heap.cell_insert, ← Heap.cell_insert] at hlink
      refine ⟨_, [], [], ?_, rfl, ⟨nofun, nofun⟩, hlink⟩
      simp [insertBehind, hlookup]
  | cons e back ih =>
    obtain ⟨b, bc⟩ := e
    cases fuel with
    | zero => exact absurd hfuel (Nat.not_lt_zero _)
    | succ fuel =>
      have hlookup : h.lookup t = some (tc, some b) := hl.cell_eq
      have hl' : Linked h.cell head (front ++ [(t, tc)] ++ (b, bc) :: back) := by
        rw [← List.append_cons]
        exact hl
      have hnext : h.lookup b = some (bc, back.head?.map Prod.fst) := hl'.cell_eq
      obtain ⟨bName, hname⟩ := hread.exists_name List.mem_cons_self
      by_cases hstop : strcmp name bName = -1
      -- the node goes between `t` and `b`
      · have hlink := hl.link (not_mem_of_fresh hl ha) c
        rw [← Heap.cell_insert, ← Heap.cell_insert] at hlink
        refine ⟨_, [], (b, bc) :: back, ?_, rfl, ⟨nofun, ?_⟩, hlink⟩
        · simp [insertBehind, hlookup, hnext, hname, hstop]
        · intro e he n hn
          cases he
          rw [← Option.some.inj (hname.symm.trans hn)]
          exact hstop
      · have hstep : insertBehind strcmp name a c (fuel + 1) t h =
            insertBehind strcmp name a c fuel b h := by
          simp [insertBehind, hlookup, hnext, hname, hstop]
        rw [hstep]
        obtain ⟨h', mid, rest, hrun, rfl, hstops, hlinked⟩ :=
          ih bc hl' hread.tail (Nat.lt_of_succ_lt_succ hfuel)
        refine ⟨h', (b, bc) :: mid, rest, hrun, rfl, ⟨?_, hstops.stopped⟩, ?_⟩
        · intro e he n hn
          rcases List.mem_cons.mp he with rfl | hmem
          · rw [← Option.some.inj (hname.symm.trans hn)]
            exact hstop
          · exact hstops.passed e hmem n hn
        · rw [← List.append_cons] at hlinked
          exact hlinked

/-- **The insertion** puts one node in, and leaves the others and their order. -/
theorem insertCar_spec (strcmp : Strcmp) (name : CString) {a : Addr} (c : CarInfo) {s : Screen}
    (hl : Linked s.heap.cell s.cars l) (hread : Readable l) (ha : a ∉ s.heap.keys) :
    ∃ cars heap front back, insertCar strcmp name a c s = some { s with cars, heap } ∧
      l = front ++ back ∧ StopsAt strcmp name front back ∧
      Linked heap.cell cars (front ++ (a, c) :: back) := by
  have hpush : Linked (Heap.cell (s.heap.insert a (c, s.cars))) (some a) ((a, c) :: l) := by
    rw [Heap.cell_insert]
    exact hl.push (not_mem_of_fresh hl ha) c
  cases l with
  | nil =>
    have hcars : s.cars = none := hl
    refine ⟨some a, s.heap.insert a (c, s.cars), [], [], ?_, rfl, ⟨nofun, nofun⟩, hpush⟩
    simp [insertCar, hcars]
  | cons e l =>
    obtain ⟨t, tc⟩ := e
    have hcars : s.cars = some t := hl.1
    have hlookup : s.heap.lookup t = some (tc, l.head?.map Prod.fst) :=
      Linked.cell_eq (show Linked _ _ ([] ++ (t, tc) :: l) from hl)
    obtain ⟨tName, hname⟩ := hread.exists_name List.mem_cons_self
    by_cases hstop : strcmp name tName = -1
    · refine ⟨some a, s.heap.insert a (c, s.cars), [], (t, tc) :: l, ?_, rfl, ⟨nofun, ?_⟩, hpush⟩
      · simp [insertCar, hcars, hlookup, hname, hstop]
      · intro e he n hn
        cases he
        rw [← Option.some.inj (hname.symm.trans hn)]
        exact hstop
    · have hlength : l.length < s.heap.keys.card := length_le_keys hl
      obtain ⟨h', mid, rest, hrun, rfl, hstops, hlinked⟩ :=
        insertBehind_spec strcmp name c tc (show Linked _ _ ([] ++ (t, tc) :: l) from hl)
          hread.tail ha hlength
      refine ⟨s.cars, h', (t, tc) :: mid, rest, ?_, rfl, ⟨?_, hstops.stopped⟩, hlinked⟩
      · simp [insertCar, hcars, hlookup, hname, hstop, hrun]
      · intro e he n hn
        rcases List.mem_cons.mp he with rfl | hmem
        · rw [← Option.some.inj (hname.symm.trans hn)]
          exact hstop
        · exact hstops.passed e hmem n hn

/-! ## The cleaning up -/

/-- The loop of `cleanup`, at `c`, with `prev` the last node it has kept. -/
def cleanupFrom : ℕ → Option Addr → Option Addr → Option Addr → Heap → Option (Option Addr × Heap)
  | 0, _, _, _, _ => none
  | _ + 1, cars, _, none, h => some (cars, h)
  | fuel + 1, cars, prev, some a, h => do
    let (c, next) ← h.lookup a
    if c.state = 'o' then
      match prev with
      | some p => do
        let (pc, _) ← h.lookup p
        cleanupFrom fuel cars prev next ((h.insert p (pc, next)).erase a)
      | none => cleanupFrom fuel next prev next (h.erase a)
    else cleanupFrom fuel cars (some a) next h

def cleanup (s : Screen) : Option Screen := do
  let (cars, heap) ← cleanupFrom (s.heap.keys.card + 1) s.cars none s.cars s.heap
  return { s with cars, heap }

/-- What is left of a list. -/
def kept (l : List (Addr × CarInfo)) : List (Addr × CarInfo) := l.filter fun e => e.2.state != 'o'

theorem cleanupFrom_spec {front back : List (Addr × CarInfo)}
    (hl : Linked h.cell head (front ++ back)) {fuel : ℕ} (hfuel : back.length < fuel) :
    ∃ cars heap, cleanupFrom fuel head (front.getLast?.map Prod.fst) (back.head?.map Prod.fst) h =
        some (cars, heap) ∧ Linked heap.cell cars (front ++ kept back) := by
  induction back generalizing front head h fuel with
  | nil =>
    cases fuel with
    | zero => exact absurd hfuel (Nat.not_lt_zero _)
    | succ fuel => exact ⟨head, h, rfl, hl⟩
  | cons e back ih =>
    obtain ⟨a, c⟩ := e
    cases fuel with
    | zero => exact absurd hfuel (Nat.not_lt_zero _)
    | succ fuel =>
      have hfuel' := Nat.lt_of_succ_lt_succ hfuel
      have hlookup : h.lookup a = some (c, back.head?.map Prod.fst) := hl.cell_eq
      by_cases hstate : c.state = 'o'
      · have hkept : kept ((a, c) :: back) = kept back := by simp [kept, hstate]
        have hgone : a ∉ (front ++ back).map Prod.fst := by
          have hnodup := hl.nodup
          rw [List.map_append, List.map_cons, List.nodup_middle] at hnodup
          rw [List.map_append]
          exact (List.nodup_cons.mp hnodup).1
        rw [hkept]
        rcases List.eq_nil_or_concat front with rfl | ⟨front, p, rfl⟩
        -- nothing is kept yet, so the list begins with the next node
        · have herase : Linked (Heap.cell (h.erase a)) (back.head?.map Prod.fst) back := by
            rw [Heap.cell_erase]
            exact (Linked.pop hl).update_of_not_mem hgone none
          obtain ⟨cars, heap, hrun, hlinked⟩ := 
            ih (show Linked _ _ ([] ++ back) from herase) hfuel'
          refine ⟨cars, heap, ?_, hlinked⟩
          simpa [cleanupFrom, hlookup, hstate] using hrun
        -- the last node that is kept is led past this one
        · obtain ⟨p, pc⟩ := p
          rw [List.concat_eq_append] at hl hgone ⊢
          have hunlink := hl.unlink hl.cell_eq
          obtain ⟨next, hlookup'⟩ : ∃ next, h.lookup p = some (pc, next) :=
            Segment.cell_of_mem hl (e := (p, pc)) (by simp)
          have herase : Linked (Heap.cell ((h.insert p (pc, back.head?.map Prod.fst)).erase a)) head
              (front ++ [(p, pc)] ++ back) := by
            rw [Heap.cell_erase, Heap.cell_insert]
            exact hunlink.update_of_not_mem hgone none
          obtain ⟨cars, heap, hrun, hlinked⟩ := ih herase hfuel'
          refine ⟨cars, heap, ?_, hlinked⟩
          simpa [cleanupFrom, hlookup, hstate, hlookup'] using hrun
      · have hkept : front ++ kept ((a, c) :: back) = front ++ [(a, c)] ++ kept back := by
          simp [kept, hstate]
        rw [List.append_cons] at hl
        obtain ⟨cars, heap, hrun, hlinked⟩ := ih hl hfuel'
        rw [hkept]
        refine ⟨cars, heap, ?_, hlinked⟩
        simpa [cleanupFrom, hlookup, hstate] using hrun

/-- **The cleaning up** takes out the nodes that are still marked. -/
theorem cleanup_spec {s : Screen} (hl : Linked s.heap.cell s.cars l) :
    ∃ cars heap, cleanup s = some { s with cars, heap } ∧ Linked heap.cell cars (kept l) := by
  obtain ⟨cars, heap, hrun, hlinked⟩ :=
    cleanupFrom_spec (show Linked _ _ ([] ++ l) from hl) (Nat.lt_succ_of_le (length_le_keys hl))
  refine ⟨cars, heap, ?_, hlinked⟩
  have hrun : cleanupFrom (s.heap.keys.card + 1) s.cars none s.cars s.heap = some (cars, heap) := by
    rw [← hl.head_eq] at hrun
    exact hrun
  simp [cleanup, hrun]

end Display
end Cab403
