import Cab403.Display.Cars

/-!
# Scanning for cars

`scan_cars` marks the nodes it has, reads the directory, and frees the nodes that are still marked.
An entry of a car that can be opened takes the mark from its node, or puts a new node on the list:
`scanEntry_spec` says what the list is then, and the invariants are derived from it. The first of
them: a scan leaves one node for each such entry, and no other (`scans_show`).

The record of a car is read once in a scan, where the program may read it while the car writes.
`shm_open` may fail; `mmap` and `malloc` do not.
-/

namespace Cab403
namespace Display

open Function Lib
open Car (CarSharedMem strBetween strOpening strOpen strClosing strClosed)

/-- A name in `/dev/shm`, and the record it is opened to, if it can be. -/
structure Entry where
  dName : CString
  shm : Option CarSharedMem
  deriving DecidableEq, Repr

/-- What a scan finds: the time, and the directory if it can be opened. -/
structure Scan where
  currentTv : Timeval
  dir : Option (List Entry)
  deriving DecidableEq, Repr

def carPrefix : CString := "car".toList

/-! ## A record -/

/-- Whether the car opens, opens its doors, closes them, or is at another floor. -/
def moved (strcmp : Strcmp) (old shm : CarSharedMem) : Bool :=
  strcmp old.status strBetween == 0 && strcmp shm.status strOpening == 0 ||
  strcmp old.status strBetween == 0 && strcmp shm.status strClosed == 0 ||
  strcmp old.status strOpening == 0 && strcmp shm.status strOpen == 0 ||
  strcmp old.status strClosing == 0 && strcmp shm.status strClosed == 0 ||
  strcmp old.currentFloor shm.currentFloor != 0

/-- What a node is after a scan that finds the record `shm`. -/
def refresh (strcmp : Strcmp) (currentTv : Timeval) (shm : CarSharedMem) (c : CarInfo) : CarInfo :=
  let c := { c with state := 'c' }
  let c :=
    if strcmp c.mem.status shm.status != 0 || strcmp c.mem.currentFloor shm.currentFloor != 0 then
      { c with
        delay := if moved strcmp c.mem shm then usDiff c.statusTv currentTv else c.delay
        statusTv := currentTv }
    else c
  { c with mem := shm }

def MAX (a b : Int32) : Int32 := if a > b then a else b
def MIN (a b : Int32) : Int32 := if a < b then a else b

/-- The window takes the floors of every car in. -/
def resize (shm : CarSharedMem) (s : Screen) : Screen :=
  let currFloor := fti shm.currentFloor
  let destFloor := fti shm.destinationFloor
  { s with
    highest := MAX (MAX s.highest currFloor) destFloor
    lowest := MIN (MIN s.lowest currFloor) destFloor }

/-! ## The scan -/

/-- A new node, on the list. -/
def newCar (strcmp : Strcmp) (m : Malloc) (currentTv : Timeval) (name : CString)
    (shm : CarSharedMem) (s : Screen) : Option (Addr × Screen) := do
  let a := m.block s.mallocs s.heap.keys
  let c : CarInfo :=
    { name := strncpyName name (m.last s.mallocs), delay := 1000000, statusTv := currentTv,
      state := 'c', mem := shm }
  let s ← insertCar strcmp name a c { s with mallocs := s.mallocs + 1 }
  return (a, s)

/-- The rest of the body, for the node at `a`. -/
def showCar (strcmp : Strcmp) (currentTv : Timeval) (shm : CarSharedMem) (a : Addr) (s : Screen) :
    Option Screen := do
  let (c, next) ← s.heap.lookup a
  return resize shm { s with heap := s.heap.insert a (refresh strcmp currentTv shm c, next) }

/-- The body of the loop over the directory. -/
def scanEntry (strcmp : Strcmp) (m : Malloc) (currentTv : Timeval) (s : Screen) (e : Entry) :
    Option Screen :=
  if carPrefix.isPrefixOf e.dName then do
    let found ← getCarByName strcmp e.dName s
    match e.shm with
    | none => some s
    | some shm => do
      let (a, s) ← match found with
        | some a => some (a, s)
        | none => newCar strcmp m currentTv e.dName shm s
      showCar strcmp currentTv shm a s
  else some s

/-- The names `readdir` returns, one after the other. -/
def scanEntries (strcmp : Strcmp) (m : Malloc) (currentTv : Timeval) :
    List Entry → Screen → Option Screen
  | [], s => some s
  | e :: es, s => do
    let s ← scanEntry strcmp m currentTv s e
    scanEntries strcmp m currentTv es s

def scanCars (strcmp : Strcmp) (m : Malloc) (scan : Scan) (s : Screen) : Option Screen := do
  let s ← mark s
  let s ← match scan.dir with
    | some entries => scanEntries strcmp m scan.currentTv entries s
    | none => some s
  cleanup s

/-- One scan after the other. -/
def scans (strcmp : Strcmp) (m : Malloc) : List Scan → Screen → Option Screen
  | [], s => some s
  | scan :: rest, s => do
    let s ← scanCars strcmp m scan s
    scans strcmp m rest s

/-! ## What an entry does -/

/-- An entry of a car that can be opened. -/
def Entry.shown (e : Entry) : Bool := carPrefix.isPrefixOf e.dName && e.shm.isSome

/-- The list before and after such an entry `name`: its node is found and keeps its place, or a new
node is put where the insertion stops. -/
inductive Entered (strcmp : Strcmp) (last : Char) (name : CString) :
    List (Addr × CarInfo) → List (Addr × CarInfo) → Prop
  | found {front back : List (Addr × CarInfo)} {a : Addr} {c c' : CarInfo}
      (hbefore : c.name = some name) (hname : c'.name = some name) (hstate : c'.state = 'c') :
      Entered strcmp last name (front ++ (a, c) :: back) (front ++ (a, c') :: back)
  | inserted {front back : List (Addr × CarInfo)} {a : Addr} {c' : CarInfo}
      (hnot : ¬ Named (front ++ back) name) (hname : c'.name = strncpyName name last)
      (hstate : c'.state = 'c') (hstops : StopsAt strcmp name front back) :
      Entered strcmp last name (front ++ back) (front ++ (a, c') :: back)

variable {strcmp : Strcmp} {currentTv : Timeval} {s : Screen} {l : List (Addr × CarInfo)}

@[simp] theorem refresh_name (shm : CarSharedMem) (c : CarInfo) :
    (refresh strcmp currentTv shm c).name = c.name := by
  unfold refresh
  dsimp only
  split <;> rfl

@[simp] theorem refresh_state (shm : CarSharedMem) (c : CarInfo) :
    (refresh strcmp currentTv shm c).state = 'c' := by
  unfold refresh
  dsimp only
  split <;> rfl

theorem showCar_spec (strcmp : Strcmp) (currentTv : Timeval) {front back : List (Addr × CarInfo)}
    {a : Addr} {c : CarInfo}
    (hl : Linked s.heap.cell s.cars (front ++ (a, c) :: back)) (shm : CarSharedMem) :
    ∃ s', showCar strcmp currentTv shm a s = some s' ∧
      Linked s'.heap.cell s'.cars (front ++ (a, refresh strcmp currentTv shm c) :: back) := by
  have hlookup : s.heap.lookup a = some (c, back.head?.map Prod.fst) := hl.cell_eq
  have hset := hl.set (refresh strcmp currentTv shm c)
  rw [← Heap.cell_insert] at hset
  refine ⟨resize shm { s with heap := s.heap.insert a (refresh strcmp currentTv shm c,
    back.head?.map Prod.fst) }, ?_, hset⟩
  simp [showCar, hlookup]

theorem newCar_spec (strcmp : Strcmp) (m : Malloc) (currentTv : Timeval)
    (hl : Linked s.heap.cell s.cars l) (hread : Readable l) (name : CString)
    (shm : CarSharedMem) :
    ∃ a c s' front back, newCar strcmp m currentTv name shm s = some (a, s') ∧
      l = front ++ back ∧ StopsAt strcmp name front back ∧
      c.name = strncpyName name (m.last s.mallocs) ∧
      Linked s'.heap.cell s'.cars (front ++ (a, c) :: back) := by
  have hfresh := m.fresh s.mallocs s.heap.keys
  obtain ⟨cars, heap, front, back, hrun, hsplit, hstops, hlinked⟩ :=
    insertCar_spec strcmp name
      { name := strncpyName name (m.last s.mallocs), delay := 1000000, statusTv := currentTv,
        state := 'c', mem := shm }
      (s := { s with mallocs := s.mallocs + 1 }) hl hread hfresh
  refine ⟨_, _, { s with cars, heap, mallocs := s.mallocs + 1 }, front, back, ?_, hsplit, hstops,
    rfl, hlinked⟩
  simp [newCar, hrun]

/-- **One entry.** -/
theorem scanEntry_spec (strcmp : Strcmp) (m : Malloc) (currentTv : Timeval)
    (hl : Linked s.heap.cell s.cars l) (hread : Readable l) (e : Entry) :
    (e.shown = false ∧ scanEntry strcmp m currentTv s e = some s) ∨
      (e.shown = true ∧ ∃ s' l', scanEntry strcmp m currentTv s e = some s' ∧
        Linked s'.heap.cell s'.cars l' ∧ Entered strcmp (m.last s.mallocs) e.dName l l') := by
  obtain ⟨name, shm⟩ := e
  cases hcar : carPrefix.isPrefixOf name with
  | false => exact .inl ⟨by simp [Entry.shown, hcar], by simp [scanEntry, hcar]⟩
  | true =>
    -- an entry that cannot be opened changes nothing, whether its node is found or not
    rcases getCarByName_spec strcmp name hl hread with
      ⟨hfound, hnot⟩ | ⟨front, a, c, back, hfound, rfl, hname⟩
    · cases shm with
      | none =>
        exact .inl ⟨by simp [Entry.shown], by simp [scanEntry, hcar, hfound]⟩
      | some shm =>
        obtain ⟨a, c, s', front, back, hnew, rfl, hstops, hname, hlinked⟩ :=
          newCar_spec strcmp m currentTv hl hread name shm
        obtain ⟨s'', hshow, hlinked'⟩ :=
          showCar_spec strcmp currentTv hlinked shm
        refine .inr ⟨by simp [Entry.shown, hcar], s'', _, ?_, hlinked', ?_⟩
        · simp [scanEntry, hcar, hfound, hnew, hshow]
        · exact .inserted hnot ((refresh_name shm c).trans hname) (refresh_state shm c) hstops
    · cases shm with
      | none =>
        exact .inl ⟨by simp [Entry.shown], by simp [scanEntry, hcar, hfound]⟩
      | some shm =>
        obtain ⟨s', hshow, hlinked⟩ :=
          showCar_spec strcmp currentTv hl shm
        refine .inr ⟨by simp [Entry.shown, hcar], s', _, ?_, hlinked, ?_⟩
        · simp [scanEntry, hcar, hfound, hshow]
        · exact .found hname ((refresh_name shm c).trans hname) (refresh_state shm c)

/-- What holds of every node holds of every node after an entry, if it does of the entry's. -/
theorem Entered.forall_mem {last : Char} {name : CString} {l' : List (Addr × CarInfo)}
    {P : CarInfo → Prop} (h : Entered strcmp last name l l') (hl : ∀ e ∈ l, P e.2)
    (hP : ∀ c : CarInfo, c.name = some name ∨ c.name = strncpyName name last →
      c.state = 'c' → P c) :
    ∀ e ∈ l', P e.2 := by
  cases h with
  | found _ hname hstate =>
    exact forall_mem_middle.mpr ⟨hP _ (.inl hname) hstate, (forall_mem_middle.mp hl).2⟩
  | inserted _ hname hstate _ => exact forall_mem_middle.mpr ⟨hP _ (.inr hname) hstate, hl⟩

/-! ## While the directory is read -/

/-- The list when the cars `names` have been seen: they are the nodes without a mark. -/
structure Reading (names : List CString) (l : List (Addr × CarInfo)) : Prop where
  readable : Readable l
  nodup : (l.map fun e => e.2.name).Nodup
  state : ∀ e ∈ l, e.2.state = 'c' ∨ e.2.state = 'o'
  current : ∀ n, (∃ e ∈ l, e.2.name = some n ∧ e.2.state = 'c') ↔ n ∈ names

/-- Every node is a car that is shown. -/
def AllCurrent (l : List (Addr × CarInfo)) : Prop := ∀ e ∈ l, e.2.state = 'c'

theorem reading_marked (hread : Readable l) (hnodup : (l.map fun e => e.2.name).Nodup)
    (hall : AllCurrent l) : Reading [] (marked l) := by
  have hmark : ∀ e ∈ l, e.2.mark.state = 'o' := by
    intro e he
    rw [CarInfo.mark, if_pos (hall e he)]
  have hmem : ∀ {P : Addr × CarInfo → Prop}, (∀ e ∈ l, P (e.1, e.2.mark)) →
      ∀ e ∈ marked l, P e := by
    intro P hP e he
    obtain ⟨d, hd, rfl⟩ := List.mem_map.mp he
    exact hP d hd
  constructor
  · refine hmem fun e he => ?_
    rw [CarInfo.mark_name]
    exact hread e he
  · have hnames : (marked l).map (fun e => e.2.name) = l.map fun e => e.2.name := by
      rw [marked, List.map_map]
      exact List.map_congr_left fun e _ => e.2.mark_name
    rw [hnames]
    exact hnodup
  · exact hmem fun e he => .inr (hmark e he)
  · intro n
    refine iff_of_false ?_ List.not_mem_nil
    rintro ⟨e, he, _, hstate⟩
    have hne : ∀ e ∈ marked l, e.2.state ≠ 'c' := hmem fun e he => by
      rw [hmark e he]
      decide
    exact hne e he hstate

section Others

variable {names : List CString} {name : CString} {front back : List (Addr × CarInfo)} {a : Addr}
  {c : CarInfo}

/-- A node that is put in, with a name that no other has. -/
theorem Reading.put (h : Reading names (front ++ back)) (hnot : ¬ Named (front ++ back) name)
    (hname : c.name = some name) (hstate : c.state = 'c') :
    Reading (names ++ [name]) (front ++ (a, c) :: back) := by
  have hperm : (front ++ (a, c) :: back).Perm ((a, c) :: (front ++ back)) := List.perm_middle
  have hmem : ∀ e, e ∈ front ++ (a, c) :: back ↔ e = (a, c) ∨ e ∈ front ++ back := by
    intro e
    rw [hperm.mem_iff, List.mem_cons]
  constructor
  · refine forall_mem_middle.mpr ⟨?_, h.readable⟩
    show c.name ≠ none
    rw [hname]
    exact Option.some_ne_none name
  · rw [(hperm.map _).nodup_iff, List.map_cons, List.nodup_cons]
    refine ⟨?_, h.nodup⟩
    intro hsame
    obtain ⟨e, he, hename⟩ := List.mem_map.mp hsame
    exact hnot ⟨e, he, hename.trans hname⟩
  · exact forall_mem_middle.mpr ⟨.inl hstate, h.state⟩
  · intro n
    rw [List.mem_append, List.mem_singleton]
    constructor
    · rintro ⟨e, he, hename, hestate⟩
      rcases (hmem e).mp he with rfl | hrest
      · exact .inr (Option.some.inj (hename.symm.trans hname))
      · exact .inl ((h.current n).mp ⟨e, hrest, hename, hestate⟩)
    · rintro (hn | rfl)
      · obtain ⟨e, he, hename, hestate⟩ := (h.current n).mpr hn
        exact ⟨e, (hmem e).mpr (.inr he), hename, hestate⟩
      · exact ⟨(a, c), (hmem _).mpr (.inl rfl), hname, hstate⟩

/-- The nodes besides one that has not been seen. -/
theorem Reading.others (h : Reading names (front ++ (a, c) :: back)) (hname : c.name = some name)
    (hnew : name ∉ names) :
    Reading names (front ++ back) ∧ ¬ Named (front ++ back) name := by
  have hperm : (front ++ (a, c) :: back).Perm ((a, c) :: (front ++ back)) := List.perm_middle
  have hsub : ∀ e ∈ front ++ back, e ∈ front ++ (a, c) :: back := by
    intro e he
    exact hperm.mem_iff.mpr (List.mem_cons_of_mem _ he)
  have hnodup := h.nodup
  rw [(hperm.map _).nodup_iff, List.map_cons, List.nodup_cons] at hnodup
  refine ⟨⟨(forall_mem_middle.mp h.readable).2, hnodup.2, (forall_mem_middle.mp h.state).2, ?_⟩, ?_⟩
  · intro n
    rw [← h.current n]
    constructor
    · rintro ⟨e, he, hestate⟩
      exact ⟨e, hsub e he, hestate⟩
    · rintro ⟨e, he, hename, hestate⟩
      rcases List.mem_cons.mp (hperm.mem_iff.mp he) with rfl | hrest
      · exact absurd ((h.current name).mp ⟨(a, c), he, hname, hestate⟩) hnew
      · exact ⟨e, hrest, hename, hestate⟩
  · rintro ⟨e, he, hename⟩
    exact hnodup.1 (List.mem_map.mpr ⟨e, he, hename.trans hname.symm⟩)

end Others

/-- **One entry** of a car not seen yet. -/
theorem Reading.entered {names : List CString} {l' : List (Addr × CarInfo)} {last : Char}
    {name : CString} (h : Reading names l) (hentered : Entered strcmp last name l l')
    (hfits : name.length < 127) (hnew : name ∉ names) : Reading (names ++ [name]) l' := by
  cases hentered with
  | found hbefore hname hstate =>
    obtain ⟨hothers, hnot⟩ := h.others hbefore hnew
    exact hothers.put hnot hname hstate
  | inserted hnot hname hstate hstops =>
    rw [strncpyName, if_pos hfits] at hname
    exact h.put hnot hname hstate

/-- The nodes that are left are those that have been seen. -/
theorem Reading.kept {names : List CString} (h : Reading names l) (hnodup : names.Nodup) :
    ((kept l).map fun e => e.2.name).Perm (names.map some) ∧ AllCurrent (kept l) := by
  have hsub : (Display.kept l).Sublist l := List.filter_sublist
  have hall : AllCurrent (Display.kept l) := by
    intro e he
    obtain ⟨hmem, hkept⟩ := List.mem_filter.mp he
    rcases h.state e hmem with hstate | hstate
    · exact hstate
    · simp [hstate] at hkept
  have hkept : ∀ e ∈ l, e.2.state = 'c' → e ∈ Display.kept l := by
    intro e he hstate
    exact List.mem_filter.mpr ⟨he, by simp [hstate]⟩
  refine ⟨?_, hall⟩
  apply (List.perm_ext_iff_of_nodup ((hsub.map _).nodup h.nodup)
    (hnodup.map (Option.some_injective _))).mpr
  intro x
  rw [List.mem_map, List.mem_map]
  constructor
  · rintro ⟨e, he, rfl⟩
    obtain ⟨n, hn⟩ := h.readable.exists_name (hsub.subset he)
    exact ⟨n, (h.current n).mp ⟨e, hsub.subset he, hn, hall e he⟩, hn.symm⟩
  · rintro ⟨n, hn, rfl⟩
    obtain ⟨e, he, hname, hstate⟩ := (h.current n).mpr hn
    exact ⟨e, hkept e he hstate, hname⟩

/-! ## Whole scans -/

theorem scanEntries_cons {m : Malloc} {e : Entry} {s₁ : Screen}
    (hrun : scanEntry strcmp m currentTv s e = some s₁) (entries : List Entry) :
    scanEntries strcmp m currentTv (e :: entries) s =
      scanEntries strcmp m currentTv entries s₁ := by
  simp [scanEntries, hrun]

/-- The cars of a directory that can be opened. -/
def shownNames (entries : List Entry) : List CString := (entries.filter Entry.shown).map Entry.dName

/-- **The loop over the directory.** -/
theorem scanEntries_spec (strcmp : Strcmp) (m : Malloc) (currentTv : Timeval)
    {names : List CString} {entries : List Entry}
    (hl : Linked s.heap.cell s.cars l) (h : Reading names l)
    (hfits : ∀ e ∈ entries, e.dName.length < 127)
    (hnodup : (names ++ shownNames entries).Nodup) :
    ∃ s' l', scanEntries strcmp m currentTv entries s = some s' ∧
      Linked s'.heap.cell s'.cars l' ∧ Reading (names ++ shownNames entries) l' := by
  induction entries generalizing s l names with
  | nil =>
    refine ⟨s, l, rfl, hl, ?_⟩
    simpa [shownNames] using h
  | cons e entries ih =>
    have hfits' : ∀ e ∈ entries, e.dName.length < 127 :=
      fun e he => hfits e (List.mem_cons_of_mem _ he)
    rcases scanEntry_spec strcmp m currentTv hl h.readable e with
      ⟨hshown, hrun⟩ | ⟨hshown, s₁, l₁, hrun, hl₁, hentered⟩
    · have hnames : shownNames (e :: entries) = shownNames entries := by
        simp [shownNames, hshown]
      rw [hnames] at hnodup ⊢
      rw [scanEntries_cons hrun]
      exact ih hl h hfits' hnodup
    · have hnames : names ++ shownNames (e :: entries) =
          names ++ [e.dName] ++ shownNames entries := by
        simp [shownNames, hshown]
      rw [hnames] at hnodup ⊢
      have hnew : e.dName ∉ names := by
        intro hmem
        have hfirst := (List.nodup_append.mp hnodup).1
        exact (List.nodup_append.mp hfirst).2.2 _ hmem _ (List.mem_singleton.mpr rfl) rfl
      have hreading := h.entered hentered (hfits e List.mem_cons_self) hnew
      rw [scanEntries_cons hrun]
      exact ih hl₁ hreading hfits' hnodup

/-- A directory that cannot be opened is an empty one. -/
theorem scanCars_eq {strcmp : Strcmp} {m : Malloc} {scan : Scan} {s s₁ : Screen}
    (hmark : mark s = some s₁) :
    scanCars strcmp m scan s =
      (scanEntries strcmp m scan.currentTv (scan.dir.getD []) s₁).bind cleanup := by
  cases hdir : scan.dir with
  | none => simp [scanCars, hmark, hdir, scanEntries]
  | some entries => simp [scanCars, hmark, hdir]

/-- What a scan may find: names that differ, and fit a node. -/
structure Scan.Listing (scan : Scan) : Prop where
  nodup : ((scan.dir.getD []).map Entry.dName).Nodup
  fits : ∀ e ∈ scan.dir.getD [], e.dName.length < 127

theorem Scan.Listing.nodup_shown {scan : Scan} (h : scan.Listing) :
    (shownNames (scan.dir.getD [])).Nodup :=
  (List.filter_sublist.map Entry.dName).nodup h.nodup

/-- The list of a screen has one node for each of `names`, and every node is a car that is shown. -/
def Showing (s : Screen) (names : List CString) : Prop :=
  ∃ l, Linked s.heap.cell s.cars l ∧ (l.map fun e => e.2.name).Perm (names.map some) ∧ AllCurrent l

/-- **One scan.** -/
theorem scanCars_spec (strcmp : Strcmp) (m : Malloc) {names : List CString} {scan : Scan}
    (hs : Showing s names) (hnodup : names.Nodup) (hscan : scan.Listing) :
    ∃ s', scanCars strcmp m scan s = some s' ∧ Showing s' (shownNames (scan.dir.getD [])) := by
  obtain ⟨l, hl, hnames, hall⟩ := hs
  have hread : Readable l := by
    intro e he hnone
    have hmem := hnames.mem_iff.mp (List.mem_map_of_mem (f := fun e => e.2.name) he)
    simp [hnone] at hmem
  have hnodup' : (l.map fun e => e.2.name).Nodup :=
    hnames.nodup_iff.mpr (hnodup.map (Option.some_injective _))
  obtain ⟨heap, hmark, hmarked⟩ := mark_spec hl
  have hshown := hscan.nodup_shown
  obtain ⟨s₁, l₁, hrun, hl₁, hreading⟩ := scanEntries_spec strcmp m scan.currentTv
    (s := { s with heap }) hmarked (reading_marked hread hnodup' hall) hscan.fits hshown
  obtain ⟨cars, heap', hclean, hkept⟩ := cleanup_spec hl₁
  obtain ⟨hperm, hcurrent⟩ := hreading.kept hshown
  refine ⟨{ s₁ with cars, heap := heap' }, ?_, kept l₁, hkept, hperm, hcurrent⟩
  rw [scanCars_eq hmark, hrun]
  exact hclean

/-- **After every sequence of scans** the list has one node for each car of the last directory that
can be opened, no other node, and every node is a car that is shown. -/
theorem scans_show (strcmp : Strcmp) (m : Malloc) {names : List CString} (hs : Showing s names)
    (hnodup : names.Nodup) {before : List Scan} {scan : Scan}
    (hscans : ∀ scan' ∈ before ++ [scan], scan'.Listing) :
    ∃ s', scans strcmp m (before ++ [scan]) s = some s' ∧
      Showing s' (shownNames (scan.dir.getD [])) := by
  induction before generalizing s names with
  | nil =>
    obtain ⟨s', hrun, hshow⟩ :=
      scanCars_spec strcmp m hs hnodup (hscans scan List.mem_cons_self)
    exact ⟨s', by simp [scans, hrun], hshow⟩
  | cons first before ih =>
    have hfirst : first.Listing := hscans first List.mem_cons_self
    obtain ⟨s₁, hrun, hshow⟩ := scanCars_spec strcmp m hs hnodup hfirst
    obtain ⟨s', hrest, hlast⟩ := ih hshow hfirst.nodup_shown
      fun scan' hscan' => hscans scan' (List.mem_cons_of_mem _ hscan')
    exact ⟨s', by simp [scans, hrun, hrest], hlast⟩

def closedAt1 : CarSharedMem :=
  ⟨"1".toList, "1".toList, strClosed, 0, 0, 0, 0, 0, 0, 0, 0⟩

def lastScan : Scan := ⟨⟨2, 0⟩, some [⟨"carA".toList, some closedAt1⟩]⟩

/-- Two cars, one that cannot be opened, and another file; then nothing, and one of the cars. -/
def threeScans : List Scan :=
  [⟨⟨0, 0⟩, some [⟨"carB".toList, some closedAt1⟩, ⟨"carC".toList, none⟩,
      ⟨"sem.x".toList, none⟩, ⟨"carA".toList, some closedAt1⟩]⟩,
    ⟨⟨1, 0⟩, none⟩, lastScan]

theorem showing_start : Showing Screen.start [] :=
  ⟨[], rfl, List.Perm.refl _, nofun⟩

theorem scans_show_threeScans :
    ∃ s', scans (strcmpOf (-1) (by decide)) mallocNext (threeScans.dropLast ++ [lastScan])
        Screen.start = some s' ∧ Showing s' ["carA".toList] := by
  refine scans_show _ _ showing_start List.nodup_nil ?_
  intro scan hscan
  have hall : ∀ scan ∈ threeScans, ((scan.dir.getD []).map Entry.dName).Nodup ∧
      ∀ e ∈ scan.dir.getD [], e.dName.length < 127 := by decide
  obtain ⟨hnodup, hfits⟩ := hall scan hscan
  exact ⟨hnodup, hfits⟩

end Display
end Cab403
