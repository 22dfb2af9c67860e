import Cab403.Display.Layout
import Cab403.Display.Order

/-!
# The floors on the display

`scan_cars` widens the window to the floors of every record it reads. So `highest` and `lowest`
are the highest and the lowest of the floors that any car has been at or has been on its way to, in
any scan, and of the two that the program is started with (`scans_tracked`); the window never
narrows. What is on a node has been read in some scan, so the floor numbers on the screen are
enough for every car on the list (`cars_labelled`).

The first part is about the blocks of the heap, whether they are on the list or not. The strings of
a record end in their arrays.
-/

namespace Cab403
namespace Display

open Lib Logged
open Car (CarSharedMem floorBytes)

/-! ## The blocks of the heap -/

/-- Every block holds a node `P`. -/
def Heap.All (P : CarInfo → Prop) (h : Heap) : Prop :=
  ∀ a c next, h.lookup a = some (c, next) → P c

section Blocks

variable {P : CarInfo → Prop} {h h' : Heap} {a : Addr} {c : CarInfo} {next : Option Addr}

theorem Heap.All.insert (hall : h.All P) (hc : P c) : Heap.All P (h.insert a (c, next)) := by
  intro b c' next' hb
  by_cases hba : b = a
  · subst hba
    rw [Finmap.lookup_insert] at hb
    cases hb
    exact hc
  · rw [Finmap.lookup_insert_of_ne h hba] at hb
    exact hall b c' next' hb

theorem Heap.All.erase (hall : h.All P) : Heap.All P (h.erase a) := by
  intro b c' next' hb
  by_cases hba : b = a
  · subst hba
    rw [Finmap.lookup_erase] at hb
    cases hb
  · rw [Finmap.lookup_erase_ne hba] at hb
    exact hall b c' next' hb

theorem Heap.All.imp {Q : CarInfo → Prop} (hall : h.All P) (himp : ∀ c, P c → Q c) : h.All Q :=
  fun a c next ha => himp c (hall a c next ha)

theorem Heap.All.markFrom (hmark : ∀ c, P c → P c.mark) {fuel : ℕ} {head : Option Addr}
    (hall : h.All P) (hrun : markFrom fuel head h = some h') : h'.All P := by
  induction fuel generalizing h head with
  | zero => cases hrun
  | succ fuel ih =>
    cases head with
    | none =>
      cases hrun
      exact hall
    | some a =>
      simp only [Display.markFrom, Option.bind_eq_bind, Option.bind_eq_some_iff] at hrun
      obtain ⟨⟨c, next⟩, hlookup, hrest⟩ := hrun
      exact ih (hall.insert (hmark c (hall a c next hlookup))) hrest

/-- The insertion moves links only. -/
theorem Heap.All.insertBehind {strcmp : Strcmp} {name : CString} {fuel : ℕ} {t : Addr} (hc : P c)
    (hall : h.All P) (hrun : insertBehind strcmp name a c fuel t h = some h') : h'.All P := by
  induction fuel generalizing t with
  | zero => cases hrun
  | succ fuel ih =>
    simp only [Display.insertBehind, Option.bind_eq_bind, Option.bind_eq_some_iff] at hrun
    obtain ⟨⟨tc, next⟩, hlookup, hrun⟩ := hrun
    have htc : P tc := hall t tc next hlookup
    cases next with
    | none =>
      cases hrun
      exact (hall.insert hc).insert htc
    | some b =>
      simp only [Option.bind_eq_some_iff] at hrun
      obtain ⟨⟨bc, _⟩, _, bName, _, hrun⟩ := hrun
      split at hrun
      · cases hrun
        exact (hall.insert hc).insert htc
      · exact ih hrun

theorem Heap.All.cleanupFrom {fuel : ℕ} {cars cars' prev head : Option Addr} (hall : h.All P)
    (hrun : cleanupFrom fuel cars prev head h = some (cars', h')) : h'.All P := by
  induction fuel generalizing h cars prev head with
  | zero => cases hrun
  | succ fuel ih =>
    cases head with
    | none =>
      cases hrun
      exact hall
    | some a =>
      simp only [Display.cleanupFrom, Option.bind_eq_bind, Option.bind_eq_some_iff] at hrun
      obtain ⟨⟨c, next⟩, _, hrun⟩ := hrun
      split at hrun
      · cases prev with
        | none => exact ih hall.erase hrun
        | some p =>
          simp only [Option.bind_eq_some_iff] at hrun
          obtain ⟨⟨pc, _⟩, hlookup, hrun⟩ := hrun
          exact ih (hall.insert (hall p pc _ hlookup)).erase hrun
      · exact ih hall hrun

end Blocks

/-! ## What has been seen -/

/-- The floors of a record. -/
def floors (mem : CarSharedMem) : List Int32 := [fti mem.currentFloor, fti mem.destinationFloor]

/-- The floors an entry of the directory adds. -/
def Entry.floors (e : Entry) : List Int32 :=
  if carPrefix.isPrefixOf e.dName then (e.shm.map Display.floors).getD [] else []

def Scan.floors (scan : Scan) : List Int32 := (scan.dir.getD []).flatMap Entry.floors

/-- `seen` are the floors the window has been widened to, and those of every node among them. -/
structure Tracked (s : Screen) (seen : List Int32) : Prop where
  highest : s.highest ∈ seen
  lowest : s.lowest ∈ seen
  bounds : ∀ f ∈ seen, s.lowest ≤ f ∧ f ≤ s.highest
  nodes : s.heap.All fun c => ∀ f ∈ floors c.mem, f ∈ seen

section Tracking

variable {strcmp : Strcmp} {m : Malloc} {currentTv : Timeval} {s s' : Screen} {seen : List Int32}

/-- The heap alone has changed. -/
theorem Tracked.with_heap (h : Tracked s seen) {cars : Option Addr} {heap : Heap}
    (hheap : heap.All fun c => ∀ f ∈ floors c.mem, f ∈ seen) (mallocs : ℕ) :
    Tracked { s with cars, heap, mallocs } seen :=
  ⟨h.highest, h.lowest, h.bounds, hheap⟩

theorem Tracked.mark (h : Tracked s seen) (hrun : Display.mark s = some s') : Tracked s' seen := by
  simp only [Display.mark, Option.bind_eq_bind, Option.bind_eq_some_iff] at hrun
  obtain ⟨heap, hheap, hs'⟩ := hrun
  cases hs'
  refine h.with_heap (h.nodes.markFrom (fun c hc => ?_) hheap) s.mallocs
  unfold CarInfo.mark
  split <;> exact hc

theorem Tracked.cleanup (h : Tracked s seen) (hrun : Display.cleanup s = some s') :
    Tracked s' seen := by
  simp only [Display.cleanup, Option.bind_eq_bind, Option.bind_eq_some_iff] at hrun
  obtain ⟨⟨cars, heap⟩, hheap, hs'⟩ := hrun
  cases hs'
  exact h.with_heap (h.nodes.cleanupFrom hheap) s.mallocs

/-! ## One entry -/

theorem MAX_cases (a b : Int32) : MAX a b = a ∧ b ≤ a ∨ MAX a b = b ∧ a ≤ b := by
  unfold MAX
  simp only [gt_iff_lt, Int32.lt_iff_toInt_lt, Int32.le_iff_toInt_le]
  split
  · exact .inl ⟨rfl, by omega⟩
  · exact .inr ⟨rfl, by omega⟩

theorem MIN_cases (a b : Int32) : MIN a b = a ∧ a ≤ b ∨ MIN a b = b ∧ b ≤ a := by
  unfold MIN
  simp only [Int32.lt_iff_toInt_lt, Int32.le_iff_toInt_le]
  split
  · exact .inl ⟨rfl, by omega⟩
  · exact .inr ⟨rfl, by omega⟩

/-- One floor more. -/
theorem widen {highest lowest : Int32} (hhigh : highest ∈ seen) (hlow : lowest ∈ seen)
    (hbounds : ∀ f ∈ seen, lowest ≤ f ∧ f ≤ highest) (g : Int32) :
    MAX highest g ∈ seen ++ [g] ∧ MIN lowest g ∈ seen ++ [g] ∧
      ∀ f ∈ seen ++ [g], MIN lowest g ≤ f ∧ f ≤ MAX highest g := by
  refine ⟨?_, ?_, fun f hf => ?_⟩
  · rcases MAX_cases highest g with ⟨hmax, _⟩ | ⟨hmax, _⟩ <;> rw [hmax] <;> simp [hhigh]
  · rcases MIN_cases lowest g with ⟨hmin, _⟩ | ⟨hmin, _⟩ <;> rw [hmin] <;> simp [hlow]
  · have hf' : (lowest ≤ f ∧ f ≤ highest) ∨ f = g := by
      rcases List.mem_append.mp hf with hmem | hlast
      · exact .inl (hbounds f hmem)
      · exact .inr (List.mem_singleton.mp hlast)
    rcases MAX_cases highest g with ⟨hmax, hle⟩ | ⟨hmax, hle⟩ <;>
      rcases MIN_cases lowest g with ⟨hmin, hle'⟩ | ⟨hmin, hle'⟩ <;> rw [hmax, hmin] <;>
      simp only [Int32.le_iff_toInt_le, ← Int32.toInt_inj] at * <;> omega

theorem Tracked.resize (h : Tracked s seen) (shm : CarSharedMem) {s₁ : Screen}
    (hhighest : s₁.highest = s.highest) (hlowest : s₁.lowest = s.lowest)
    (hheap : s₁.heap.All fun c => ∀ f ∈ floors c.mem, f ∈ seen ++ floors shm) :
    Tracked (Display.resize shm s₁) (seen ++ floors shm) := by
  obtain ⟨hhigh, hlow, hbounds⟩ := widen h.highest h.lowest h.bounds (fti shm.currentFloor)
  obtain ⟨hhigh, hlow, hbounds⟩ := widen hhigh hlow hbounds (fti shm.destinationFloor)
  rw [List.append_assoc, ← hhighest] at hhigh
  rw [List.append_assoc, ← hlowest] at hlow
  rw [List.append_assoc, ← hhighest, ← hlowest] at hbounds
  exact ⟨hhigh, hlow, hbounds, hheap⟩

/-- A node gets the record, and the window its floors. -/
theorem Tracked.showCar (h : Tracked s seen) {shm : CarSharedMem} {a : Addr} {s₁ : Screen}
    (hhighest : s₁.highest = s.highest) (hlowest : s₁.lowest = s.lowest)
    (hheap : s₁.heap.All fun c => ∀ f ∈ floors c.mem, f ∈ seen ++ floors shm)
    (hrun : Display.showCar strcmp currentTv shm a s₁ = some s') :
    Tracked s' (seen ++ floors shm) := by
  simp only [Display.showCar, Option.bind_eq_bind, Option.bind_eq_some_iff] at hrun
  obtain ⟨⟨c, next⟩, _, hs'⟩ := hrun
  cases hs'
  refine h.resize shm hhighest hlowest (hheap.insert fun f hf => ?_)
  exact List.mem_append_right _ hf

theorem insertCar_range {P : CarInfo → Prop} {name : CString} {a : Addr} {c : CarInfo}
    (hall : s.heap.All P) (hc : P c) (hrun : insertCar strcmp name a c s = some s') :
    s'.heap.All P ∧ s'.highest = s.highest ∧ s'.lowest = s.lowest := by
  unfold insertCar at hrun
  simp only at hrun
  split at hrun
  · cases hrun
    exact ⟨hall.insert hc, rfl, rfl⟩
  · simp only [Option.bind_eq_bind, Option.bind_eq_some_iff] at hrun
    obtain ⟨⟨tc, _⟩, _, tName, _, hrun⟩ := hrun
    split at hrun
    · cases hrun
      exact ⟨hall.insert hc, rfl, rfl⟩
    · simp only [Option.bind_eq_some_iff] at hrun
      obtain ⟨heap, hheap, hs'⟩ := hrun
      cases hs'
      exact ⟨hall.insertBehind hc hheap, rfl, rfl⟩

/-- The node is new, or found; either way it gets the record. -/
theorem Tracked.scanEntry (h : Tracked s seen) {e : Entry}
    (hrun : Display.scanEntry strcmp m currentTv s e = some s') :
    Tracked s' (seen ++ e.floors) := by
  obtain ⟨name, shm⟩ := e
  unfold Display.scanEntry at hrun
  unfold Entry.floors
  by_cases hcar : carPrefix.isPrefixOf name = true
  · simp only [hcar, if_true, Option.bind_eq_bind, Option.bind_eq_some_iff] at hrun ⊢
    obtain ⟨found, _, hrun⟩ := hrun
    cases shm with
    | none =>
      cases hrun
      simpa using h
    | some shm =>
      have hwider : s.heap.All fun c => ∀ f ∈ floors c.mem, f ∈ seen ++ floors shm :=
        h.nodes.imp fun c hc f hf => List.mem_append_left _ (hc f hf)
      cases found with
      | some a => exact h.showCar rfl rfl hwider hrun
      | none =>
        simp only [newCar, Option.bind_eq_bind, Option.bind_eq_some_iff] at hrun
        obtain ⟨⟨a, s₁⟩, ⟨s₂, hinsert, hs₁⟩, hshow⟩ := hrun
        cases hs₁
        obtain ⟨hall, hhighest, hlowest⟩ := insertCar_range
          (s := { s with mallocs := s.mallocs + 1 }) hwider
          (fun f hf => List.mem_append_right _ hf) hinsert
        exact h.showCar hhighest hlowest hall hshow
  · simp only [hcar] at hrun ⊢
    cases hrun
    simpa using h

theorem Tracked.scanEntries {es : List Entry} (h : Tracked s seen)
    (hrun : Display.scanEntries strcmp m currentTv es s = some s') :
    Tracked s' (seen ++ es.flatMap Entry.floors) := by
  induction es generalizing s seen with
  | nil =>
    cases hrun
    simpa using h
  | cons e es ih =>
    simp only [Display.scanEntries, Option.bind_eq_bind, Option.bind_eq_some_iff] at hrun
    obtain ⟨s₁, hentry, hrest⟩ := hrun
    have hall := ih (h.scanEntry hentry) hrest
    rwa [List.append_assoc, ← List.flatMap_cons] at hall

/-! ## Every run -/

theorem Tracked.scanCars {scan : Scan} (h : Tracked s seen)
    (hrun : Display.scanCars strcmp m scan s = some s') : Tracked s' (seen ++ scan.floors) := by
  cases hmark : Display.mark s with
  | none =>
    simp only [Display.scanCars, hmark, Option.bind_eq_bind, Option.bind_none] at hrun
    cases hrun
  | some s₁ =>
    rw [scanCars_eq hmark, Option.bind_eq_some_iff] at hrun
    obtain ⟨s₂, hentries, hcleanup⟩ := hrun
    exact ((h.mark hmark).scanEntries hentries).cleanup hcleanup

/-- **After every sequence of scans** the window reaches from the lowest floor seen to the highest,
and what is on the nodes has been seen. -/
theorem scans_tracked {ss : List Scan} (h : Tracked s seen)
    (hrun : scans strcmp m ss s = some s') : Tracked s' (seen ++ ss.flatMap Scan.floors) := by
  induction ss generalizing s seen with
  | nil =>
    cases hrun
    simpa using h
  | cons scan ss ih =>
    simp only [scans, Option.bind_eq_bind, Option.bind_eq_some_iff] at hrun
    obtain ⟨s₁, hscan, hrest⟩ := hrun
    have hall := ih (h.scanCars hscan) hrest
    rwa [List.append_assoc, ← List.flatMap_cons] at hall

end Tracking

/-! ## Labels for the cars -/

/-- With the range of floors of the command line, if there is one. -/
def Screen.given : Option (CString × CString) → Screen
  | none => Screen.start
  | some (low, high) => { Screen.start with lowest := fti low, highest := fti high }

/-- What the program starts with, if it goes on. -/
def Screen.starting (args : Option (CString × CString)) : Option Screen :=
  if (Screen.given args).highest < (Screen.given args).lowest then none
  else some (Screen.given args)

/-- The strings of every record that is read end in their arrays. -/
def Scan.Terminated (scan : Scan) : Prop :=
  ∀ e ∈ scan.dir.getD [], ∀ mem ∈ e.shm,
    mem.currentFloor.length < floorBytes ∧ mem.destinationFloor.length < floorBytes

theorem Scan.Terminated.writable {scan : Scan} (h : scan.Terminated) {f : Int32}
    (hf : f ∈ scan.floors) (hne : f ≠ -99) : Writable f := by
  obtain ⟨e, he, hf⟩ := List.mem_flatMap.mp hf
  unfold Entry.floors at hf
  split at hf
  · cases hshm : e.shm with
    | none => simp [hshm] at hf
    | some mem =>
      obtain ⟨hcurrent, hdestination⟩ := h e he mem hshm
      simp only [hshm, Option.map_some, Option.getD_some, Display.floors, List.mem_cons,
        List.not_mem_nil, or_false] at hf
      rcases hf with rfl | rfl
      · exact writable_fti hcurrent hne
      · exact writable_fti hdestination hne
  · cases hf

section Labelled

variable {args : Option (CString × CString)} {s : Screen}

theorem starting_spec (hstart : Screen.starting args = some s) :
    Showing s [] ∧ Tracked s [s.lowest, s.highest] := by
  have hempty : s.cars = none ∧ s.heap = ∅ ∧ s.lowest ≤ s.highest := by
    unfold Screen.starting at hstart
    split at hstart
    · cases hstart
    · rename_i hnot
      cases hstart
      rw [Int32.lt_iff_toInt_lt, not_lt] at hnot
      refine ⟨?_, ?_, Int32.le_iff_toInt_le.mpr hnot⟩ <;> cases args <;> rfl
  obtain ⟨hcars, hheap, hle⟩ := hempty
  refine ⟨⟨[], hcars, List.Perm.refl _, fun e he => absurd he List.not_mem_nil⟩, ?_⟩
  refine ⟨by simp, by simp, ?_, ?_⟩
  · intro f hf
    simp only [List.mem_cons, List.not_mem_nil, or_false] at hf
    rcases hf with rfl | rfl
    · exact ⟨Int32.le_refl _, hle⟩
    · exact ⟨hle, Int32.le_refl _⟩
  · intro a c next ha
    rw [hheap] at ha
    cases ha

/-- The numbers of the given floors and of those of the records fit `buf`. -/
theorem writable_of_scans (hlow : Writable s.lowest) (hhigh : Writable s.highest) {ss : List Scan}
    (hscans : ∀ scan ∈ ss, scan.Terminated ∧ ∀ f ∈ scan.floors, f ≠ -99) :
    ∀ f ∈ [s.lowest, s.highest] ++ ss.flatMap Scan.floors, Writable f := by
  intro f hf
  rcases List.mem_append.mp hf with hgiven | hread
  · simp only [List.mem_cons, List.not_mem_nil, or_false] at hgiven
    rcases hgiven with rfl | rfl
    · exact hlow
    · exact hhigh
  · obtain ⟨scan, hscan, hf⟩ := List.mem_flatMap.mp hread
    obtain ⟨hends, hne⟩ := hscans scan hscan
    exact hends.writable hf (hne f hf)

/-- **Every car is on the screen**: after every sequence of scans the window reaches from the lowest
to the highest floor that any car has been at or has been sent to, and for a car on the list the
number of the floor it is at, and that of the floor it goes to, are among the floor numbers, each
in its row. They fit `buf`, since the one floor of three characters that does not is `-99`. -/
theorem cars_labelled (strcmp : Strcmp) (m : Malloc) (hstart : Screen.starting args = some s)
    (hlow : Writable s.lowest) (hhigh : Writable s.highest) {before : List Scan} {scan : Scan}
    (hscans : ∀ scan' ∈ before ++ [scan],
      scan'.Listing ∧ scan'.Terminated ∧ ∀ f ∈ scan'.floors, f ≠ -99) {h : Int32}
    (hh : 0 < h.toInt) (hsmall : h.toInt < 2 ^ 16) :
    ∃ s' l labels, scans strcmp m (before ++ [scan]) s = some s' ∧
      Linked s'.heap.cell s'.cars l ∧
      (drawLabels h (s'.highest - s'.lowest + 1) s'.highest
        (s'.highest - s'.lowest + 1).toInt.toNat 0).value = some labels ∧
      IsGreatest {f | f ∈ [s.lowest, s.highest] ++ (before ++ [scan]).flatMap Scan.floors}
        s'.highest ∧
      IsLeast {f | f ∈ [s.lowest, s.highest] ++ (before ++ [scan]).flatMap Scan.floors}
        s'.lowest ∧
      (∀ label ∈ labels, label.text.length < 4) ∧
      ∀ e ∈ l, ∀ f ∈ floors e.2.mem,
        ∃ label ∈ labels, label.Of h.toInt.toNat s'.highest s'.lowest f := by
  obtain ⟨hshowing, htracked⟩ := starting_spec hstart
  obtain ⟨s', hrun, l, hl, _⟩ := scans_show strcmp m hshowing List.nodup_nil
    fun scan' hscan' => (hscans scan' hscan').1
  have h' := scans_tracked htracked hrun
  have hwritable := writable_of_scans hlow hhigh fun scan' hscan' => (hscans scan' hscan').2
  obtain ⟨hhighest, _⟩ := h'.bounds _ h'.highest
  have hlowest := hwritable _ h'.lowest
  have hhighest' := hwritable _ h'.highest
  -- eleven hundred floors at most, so that no product overflows
  have hfloors : s'.highest.toInt - s'.lowest.toInt + 1 ≤ 1100 := by
    have hlow := hlowest.1
    have hhigh := hhighest'.2
    omega
  obtain ⟨n, hn⟩ : ∃ n : ℕ, h.toInt = n := ⟨h.toInt.toNat, by omega⟩
  rw [hn, Int.toNat_natCast]
  have hfits : n * (s'.highest.toInt - s'.lowest.toInt + 1) < 2 ^ 30 := by
    have hle := Int.mul_le_mul_of_nonneg_left hfloors (Int.natCast_nonneg n)
    omega
  obtain ⟨labels, hlabels, hplaced⟩ :=
    placed_drawLabels (h := h) (by omega) hn hhighest hfits
  refine ⟨s', l, labels, hrun, hl, hlabels, ⟨h'.highest, fun f hf => (h'.bounds f hf).2⟩,
    ⟨h'.lowest, fun f hf => (h'.bounds f hf).1⟩, fun label hlabel => ?_, ?_⟩
  · obtain ⟨f, hf, htext, _⟩ := hplaced.fits hlowest hhighest' hlabel
    rw [htext]
    exact (length_itf_lt_iff hf.hasComplement).mpr hf
  · intro e he f hf
    obtain ⟨next, hcell⟩ := Segment.cell_of_mem hl he
    obtain ⟨hle, hge⟩ := h'.bounds f (h'.nodes e.1 e.2 next hcell f hf)
    exact hplaced.every f hle hge

end Labelled

/-- Car `carA` is at floor `3`, on its way to the second basement; then it is at the first floor. -/
def twoFloors : List Scan :=
  [⟨⟨0, 0⟩, some [⟨carA, some { closedAt1 with
      currentFloor := "3".toList, destinationFloor := "B2".toList }⟩]⟩,
    ⟨⟨1, 0⟩, some [closedCar carA]⟩]

theorem cars_labelled_twoFloors : ∃ s,
    scans (strcmpOf (-1) (by decide)) mallocNext twoFloors Screen.start = some s ∧
      s.highest = 3 ∧ s.lowest = -1 := by
  have hscans : ∀ scan ∈ twoFloors, ((scan.dir.getD []).map Entry.dName).Nodup ∧
      (∀ e ∈ scan.dir.getD [], e.dName.length < 127) ∧
      ∀ e ∈ scan.dir.getD [], ∀ mem ∈ e.shm,
        mem.currentFloor.length < floorBytes ∧ mem.destinationFloor.length < floorBytes := by
    decide
  have hfloors : twoFloors.flatMap Scan.floors = [3, -1, 1, 1] := by decide
  have hwritable : ∀ f ∈ ([3, -1, 1, 1] : List Int32), f ≠ -99 := by simp
  have hlisted : ∀ scan ∈ twoFloors.dropLast ++ [⟨⟨1, 0⟩, some [closedCar carA]⟩],
      scan.Listing ∧ scan.Terminated ∧ ∀ f ∈ scan.floors, f ≠ -99 := by
    intro scan hscan
    obtain ⟨hnodup, hfits, hends⟩ := hscans scan hscan
    refine ⟨⟨hnodup, hfits⟩, hends, fun f hf => hwritable f ?_⟩
    rw [← hfloors]
    exact List.mem_flatMap.mpr ⟨scan, hscan, hf⟩
  have hstart : Screen.starting none = some Screen.start := rfl
  obtain ⟨s, _, _, hrun, _, _, hgreatest, hleast, _⟩ :=
    cars_labelled (h := 24) (strcmpOf (-1) (by decide)) mallocNext hstart (by decide) (by decide)
      hlisted (by decide) (by decide)
  have hseen : [Screen.start.lowest, Screen.start.highest] ++ twoFloors.flatMap Scan.floors =
      [1, 1, 3, -1, 1, 1] := by
    rw [hfloors]
    rfl
  have hthree : (3 : Int32) ∈ [1, 1, 3, -1, 1, 1] := by decide
  have hbasement : (-1 : Int32) ∈ [1, 1, 3, -1, 1, 1] := by decide
  have hall : ∀ f ∈ ([1, 1, 3, -1, 1, 1] : List Int32), -1 ≤ f ∧ f ≤ 3 := by
    simp only [List.mem_cons, List.not_mem_nil, or_false]
    rintro f (rfl | rfl | rfl | rfl | rfl | rfl) <;> decide
  rw [← hseen] at hthree hbasement hall
  exact ⟨s, hrun, Int32.le_antisymm (hall _ hgreatest.1).2 (hgreatest.2 hthree),
    Int32.le_antisymm (hleast.2 hbasement) (hall _ hleast.1).1⟩

end Display
end Cab403
