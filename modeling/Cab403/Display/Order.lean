import Cab403.Display.Scan
import Mathlib.Data.Finset.Max

/-!
# The order of the cars

A new node is inserted "in alphabetical order": in front of the first name for which `strcmp`
returns `-1`. But `strcmp` may return any negative number for a name that comes first. Where it
returns another one for the name the node belongs in front of, the node goes too far behind, and
the list is out of order (`cars_out_of_order`).

`Entered.ordered_iff` says exactly when an entry keeps the order: the name that is stored is not on
the list, and `strcmp` returns `-1` for the least name above it, if there is one. The stored name
is the entry's unless that has `127` bytes or more. A scan in which every entry does so keeps the
order, since marking changes no name and cleaning up only takes nodes out (`cars_in_order`).
-/

namespace Cab403
namespace Display

open Lib

/-! ## An ordered list -/

def NameLt (d e : Addr × CarInfo) : Prop := ∃ m n, d.2.name = some m ∧ e.2.name = some n ∧ m < n

/-- Strictly increasing names, all of which end in their arrays. -/
structure Ordered (l : List (Addr × CarInfo)) : Prop where
  readable : Readable l
  pairwise : l.Pairwise NameLt

/-- The least of the names above `name`. -/
structure LeastAbove (name : CString) (l : List (Addr × CarInfo)) (g : CString) : Prop where
  named : Named l g
  above : name < g
  least : ∀ n, Named l n → name < n → g ≤ n

variable {l l' : List (Addr × CarInfo)} {strcmp : Strcmp} {last : Char} {name stored : CString}

theorem NameLt.lt {d e : Addr × CarInfo} {m n : CString} (h : NameLt d e) (hd : d.2.name = some m)
    (he : e.2.name = some n) : m < n := by
  obtain ⟨m', n', hm, hn, hlt⟩ := h
  rw [hd] at hm
  rw [he] at hn
  cases hm
  cases hn
  exact hlt

theorem Ordered.sublist (h : Ordered l) (hsub : l'.Sublist l) : Ordered l' :=
  ⟨fun e he => h.readable e (hsub.subset he), h.pairwise.sublist hsub⟩

theorem ordered_marked (h : Ordered l) : Ordered (marked l) := by
  constructor
  · intro e he
    obtain ⟨d, hd, rfl⟩ := List.mem_map.mp he
    show d.2.mark.name ≠ none
    rw [CarInfo.mark_name]
    exact h.readable d hd
  · refine List.pairwise_map.mpr (h.pairwise.imp ?_)
    rintro d e ⟨m, n, hm, hn, hlt⟩
    exact ⟨m, n, d.2.mark_name.trans hm, e.2.mark_name.trans hn, hlt⟩

theorem ordered_middle {front back : List (Addr × CarInfo)} {x : Addr × CarInfo} :
    Ordered (front ++ x :: back) ↔ Ordered (front ++ back) ∧ x.2.name ≠ none ∧
      (∀ d ∈ front, NameLt d x) ∧ ∀ e ∈ back, NameLt x e := by
  constructor
  · intro h
    obtain ⟨_, hback, hcross⟩ := List.pairwise_append.mp h.pairwise
    refine ⟨h.sublist ?_, h.readable x (by simp), ?_, (List.pairwise_cons.mp hback).1⟩
    · exact (List.sublist_cons_self x back).append_left front
    · intro d hd
      exact hcross d hd x List.mem_cons_self
  · rintro ⟨h, hx, hfront, hback⟩
    obtain ⟨hpfront, hpback, hcross⟩ := List.pairwise_append.mp h.pairwise
    constructor
    · exact forall_mem_middle.mpr ⟨hx, h.readable⟩
    · refine List.pairwise_append.mpr ⟨hpfront, List.pairwise_cons.mpr ⟨hback, hpback⟩, ?_⟩
      intro d hd e he
      rcases List.mem_cons.mp he with rfl | hmem
      · exact hfront d hd
      · exact hcross d hd e hmem

theorem exists_leastAbove {n : CString} (hnamed : Named l n) (hlt : name < n) :
    ∃ g, LeastAbove name l g ∧ g ≤ n := by
  have hmem : ∀ n, n ∈ (l.filterMap fun e => e.2.name).toFinset.filter (name < ·) ↔
      Named l n ∧ name < n := by
    intro n
    simp [Named]
  obtain ⟨g, hg, hmin⟩ :=
    Finset.exists_min_image _ id ⟨n, (hmem n).mpr ⟨hnamed, hlt⟩⟩
  obtain ⟨hgnamed, hgabove⟩ := (hmem g).mp hg
  refine ⟨g, ⟨hgnamed, hgabove, ?_⟩, hmin n ((hmem n).mpr ⟨hnamed, hlt⟩)⟩
  intro k hk hkabove
  exact hmin k ((hmem k).mpr ⟨hk, hkabove⟩)

/-! ## One entry -/

/-- When the entry `name` of a car keeps the order of the list `l`: it has its node, or the name
that is stored for it goes in front of the least name above. -/
def Meets (strcmp : Strcmp) (last : Char) (name : CString) (l : List (Addr × CarInfo)) : Prop :=
  Named l name ∨ ∃ stored, strncpyName name last = some stored ∧ ¬ Named l stored ∧
    ∀ g, LeastAbove stored l g → strcmp name g = -1

theorem Strcmp.lt_of_eq (strcmp : Strcmp) {s t : CString} (h : strcmp s t = -1) : s < t := by
  rw [← strcmp.neg_iff, h]
  decide

theorem stored_le (h : strncpyName name last = some stored) : stored ≤ name := by
  have hprefix : stored <+: name := by
    unfold strncpyName at h
    split at h
    · cases h
      exact List.prefix_rfl
    · split at h
      · cases h
        exact List.take_prefix 127 name
      · cases h
  have hnot : ¬ name < stored := hprefix.le
  exact not_lt.mp hnot

section Inserted

variable {front back : List (Addr × CarInfo)} {x d : Addr × CarInfo} {g n : CString}

/-- Another value with the same name in a node. -/
theorem Ordered.set {a : Addr} {c c' : CarInfo} (h : Ordered (front ++ (a, c) :: back))
    (hname : c'.name = c.name) : Ordered (front ++ (a, c') :: back) := by
  obtain ⟨hothers, hread, hfront, hback⟩ := ordered_middle.mp h
  refine ordered_middle.mpr ⟨hothers, ?_, ?_, ?_⟩
  · show c'.name ≠ none
    rw [hname]
    exact hread
  · intro d hd
    obtain ⟨m, n, hm, hn, hlt⟩ := hfront d hd
    exact ⟨m, n, hm, hname.trans hn, hlt⟩
  · intro e he
    obtain ⟨m, n, hm, hn, hlt⟩ := hback e he
    exact ⟨m, n, hname.trans hm, hn, hlt⟩

theorem Ordered.not_named (h : Ordered (front ++ x :: back)) (hx : x.2.name = some stored) :
    ¬ Named (front ++ back) stored := by
  obtain ⟨_, _, hfront, hback⟩ := ordered_middle.mp h
  rintro ⟨e, he, hename⟩
  rcases List.mem_append.mp he with hmem | hmem
  · exact lt_irrefl _ ((hfront e hmem).lt hename hx)
  · exact lt_irrefl _ ((hback e hmem).lt hx hename)

/-- The least name above an ordered node is that of the node behind it. -/
theorem Ordered.result_eq (h : Ordered (front ++ x :: back)) (hx : x.2.name = some stored)
    (hstops : StopsAt strcmp name front back) (hg : LeastAbove stored (front ++ back) g) :
    strcmp name g = -1 := by
  obtain ⟨hothers, _, hfront, hback⟩ := ordered_middle.mp h
  obtain ⟨_, hpback, _⟩ := List.pairwise_append.mp hothers.pairwise
  obtain ⟨⟨e, he, hename⟩, habove, hleast⟩ := hg
  have hmem : e ∈ back := by
    rcases List.mem_append.mp he with hmem | hmem
    · exact absurd ((hfront e hmem).lt hename hx) (lt_asymm habove)
    · exact hmem
  cases back with
  | nil => cases hmem
  | cons b back =>
    obtain ⟨k, hk⟩ := hothers.readable.exists_name (a := b.1) (c := b.2) (by simp)
    have hgk : g ≤ k := by
      refine hleast k ⟨b, by simp, hk⟩ ?_
      exact (hback b List.mem_cons_self).lt hx hk
    have hkg : k ≤ g := by
      rcases List.mem_cons.mp hmem with rfl | hrest
      · exact le_of_eq (Option.some.inj (hk.symm.trans hename))
      · exact le_of_lt (((List.pairwise_cons.mp hpback).1 e hrest).lt hk hename)
    rw [le_antisymm hgk hkg]
    exact hstops.stopped b rfl k hk

theorem lt_of_mem_front (hl : Ordered (front ++ back)) (hstops : StopsAt strcmp name front back)
    (hnew : ¬ Named (front ++ back) stored)
    (hleast : ∀ g, LeastAbove stored (front ++ back) g → strcmp name g = -1) (hd : d ∈ front)
    (hn : d.2.name = some n) : n < stored := by
  have hnamed : Named (front ++ back) n := ⟨d, List.mem_append_left _ hd, hn⟩
  rcases lt_trichotomy n stored with hlt | rfl | habove
  · exact hlt
  · exact absurd hnamed hnew
  · -- it would have stopped at the least name above, which is no farther than this one
    obtain ⟨g, hg, hgn⟩ := exists_leastAbove hnamed habove
    obtain ⟨e, he, hge⟩ := hg.named
    rcases List.mem_append.mp he with hmem | hmem
    · exact absurd (hleast g hg) (hstops.passed e hmem g hge)
    · have hcross := (List.pairwise_append.mp hl.pairwise).2.2
      exact absurd ((hcross d hd e hmem).lt hn hge) (not_lt.mpr hgn)

theorem lt_of_mem_back (hl : Ordered (front ++ back)) (hstops : StopsAt strcmp name front back)
    (hle : stored ≤ name) (hd : d ∈ back) (hn : d.2.name = some n) : stored < n := by
  obtain ⟨_, hpback, _⟩ := List.pairwise_append.mp hl.pairwise
  cases back with
  | nil => cases hd
  | cons b back =>
    obtain ⟨k, hk⟩ := hl.readable.exists_name (a := b.1) (c := b.2) (by simp)
    have habove : stored < k := lt_of_le_of_lt hle (strcmp.lt_of_eq (hstops.stopped b rfl k hk))
    rcases List.mem_cons.mp hd with rfl | hrest
    · rw [← Option.some.inj (hk.symm.trans hn)]
      exact habove
    · exact habove.trans (((List.pairwise_cons.mp hpback).1 d hrest).lt hk hn)

end Inserted

/-- **Exactly when an entry keeps the order.** -/
theorem Entered.ordered_iff (h : Entered strcmp last name l l') (hl : Ordered l) :
    Ordered l' ↔ Meets strcmp last name l := by
  cases h with
  | @found front back a c c' hbefore hname hstate =>
    have hnamed : Named (front ++ (a, c) :: back) name := ⟨(a, c), by simp, hbefore⟩
    exact iff_of_true (hl.set (hname.trans hbefore.symm)) (.inl hnamed)
  | @inserted front back a c' hnot hname hstate hstops =>
    constructor
    · intro hordered
      obtain ⟨stored, hstored⟩ :=
        Option.ne_none_iff_exists'.mp (ordered_middle.mp hordered).2.1
      refine .inr ⟨stored, hname.symm.trans hstored, hordered.not_named hstored, ?_⟩
      intro g hg
      exact hordered.result_eq hstored hstops hg
    · rintro (hnamed | ⟨stored, hstored, hnew, hleast⟩)
      · exact absurd hnamed hnot
      have hcname : c'.name = some stored := hname.trans hstored
      refine ordered_middle.mpr ⟨hl, ?_, ?_, ?_⟩
      · show c'.name ≠ none
        rw [hcname]
        exact Option.some_ne_none stored
      · intro d hd
        obtain ⟨n, hn⟩ := hl.readable.exists_name (List.mem_append_left _ hd)
        exact ⟨n, stored, hn, hcname, lt_of_mem_front hl hstops hnew hleast hd hn⟩
      · intro e he
        obtain ⟨n, hn⟩ := hl.readable.exists_name (List.mem_append_right _ he)
        exact ⟨stored, n, hcname, hn, lt_of_mem_back hl hstops (stored_le hstored) he hn⟩

/-! ## Runs -/

/-- The list of the screen is ordered. -/
def InOrder (s : Screen) : Prop := ∃ l, Linked s.heap.cell s.cars l ∧ Ordered l

def EntryMeets (strcmp : Strcmp) (m : Malloc) (s : Screen) (e : Entry) : Prop :=
  e.shown = true → ∀ l, Linked s.heap.cell s.cars l → Meets strcmp (m.last s.mallocs) e.dName l

/-- Every entry of a directory, in the state it finds. -/
def EntriesMeet (strcmp : Strcmp) (m : Malloc) (currentTv : Timeval) :
    List Entry → Screen → Prop
  | [], _ => True
  | e :: es, s => EntryMeets strcmp m s e ∧
    ∀ s', scanEntry strcmp m currentTv s e = some s' → EntriesMeet strcmp m currentTv es s'

def ScanMeets (strcmp : Strcmp) (m : Malloc) (scan : Scan) (s : Screen) : Prop :=
  ∀ s', mark s = some s' → EntriesMeet strcmp m scan.currentTv (scan.dir.getD []) s'

/-- Every entry of every scan. -/
def ScansMeet (strcmp : Strcmp) (m : Malloc) : List Scan → Screen → Prop
  | [], _ => True
  | scan :: rest, s => ScanMeets strcmp m scan s ∧
    ∀ s', scanCars strcmp m scan s = some s' → ScansMeet strcmp m rest s'

section Runs

variable {m : Malloc} {currentTv : Timeval} {s s₁ : Screen} {e : Entry} {entries : List Entry}
  {scan : Scan}

theorem entryMeets_of_not_shown (hshown : e.shown = false) : EntryMeets strcmp m s e := by
  intro hshown'
  rw [hshown] at hshown'
  cases hshown'

theorem entriesMeet_cons_iff (hrun : scanEntry strcmp m currentTv s e = some s₁) :
    EntriesMeet strcmp m currentTv (e :: entries) s ↔
      EntryMeets strcmp m s e ∧ EntriesMeet strcmp m currentTv entries s₁ := by
  simp [EntriesMeet, hrun]

theorem scanMeets_iff (hmark : mark s = some s₁) :
    ScanMeets strcmp m scan s ↔
      EntriesMeet strcmp m scan.currentTv (scan.dir.getD []) s₁ := by
  simp [ScanMeets, hmark]

theorem scansMeet_cons_iff {rest : List Scan} (hrun : scanCars strcmp m scan s = some s₁) :
    ScansMeet strcmp m (scan :: rest) s ↔
      ScanMeets strcmp m scan s ∧ ScansMeet strcmp m rest s₁ := by
  simp [ScansMeet, hrun]

/-- **One entry**, in the program. -/
theorem scanEntry_inOrder_iff (strcmp : Strcmp) (m : Malloc) (currentTv : Timeval)
    (hs : InOrder s) (e : Entry) :
    ∃ s', scanEntry strcmp m currentTv s e = some s' ∧
      (InOrder s' ↔ EntryMeets strcmp m s e) := by
  obtain ⟨l, hl, hordered⟩ := hs
  rcases scanEntry_spec strcmp m currentTv hl hordered.readable e with
    ⟨hshown, hrun⟩ | ⟨hshown, s', l', hrun, hl', hentered⟩
  · exact ⟨s, hrun, iff_of_true ⟨l, hl, hordered⟩ (entryMeets_of_not_shown hshown)⟩
  · refine ⟨s', hrun, ?_⟩
    constructor
    · rintro ⟨k', hk', horder⟩ _ k hk
      rw [hk.unique hl]
      rw [hk'.unique hl'] at horder
      exact (hentered.ordered_iff hordered).mp horder
    · intro hmeets
      exact ⟨l', hl', (hentered.ordered_iff hordered).mpr (hmeets hshown l hl)⟩

theorem scanEntries_inOrder (hs : InOrder s)
    (hmeets : EntriesMeet strcmp m currentTv entries s) :
    ∃ s', scanEntries strcmp m currentTv entries s = some s' ∧ InOrder s' := by
  induction entries generalizing s with
  | nil => exact ⟨s, rfl, hs⟩
  | cons e entries ih =>
    obtain ⟨s₁, hrun, hiff⟩ := scanEntry_inOrder_iff strcmp m currentTv hs e
    obtain ⟨hfirst, hrest⟩ := (entriesMeet_cons_iff hrun).mp hmeets
    rw [scanEntries_cons hrun]
    exact ih (hiff.mpr hfirst) hrest

theorem scanCars_inOrder (hs : InOrder s) (hmeets : ScanMeets strcmp m scan s) :
    ∃ s', scanCars strcmp m scan s = some s' ∧ InOrder s' := by
  obtain ⟨l, hl, hordered⟩ := hs
  obtain ⟨heap, hmark, hmarked⟩ := mark_spec hl
  obtain ⟨s₁, hrun, l₁, hl₁, hordered₁⟩ :=
    scanEntries_inOrder ⟨marked l, hmarked, ordered_marked hordered⟩
      ((scanMeets_iff hmark).mp hmeets)
  obtain ⟨cars, heap', hclean, hkept⟩ := cleanup_spec hl₁
  refine ⟨{ s₁ with cars, heap := heap' }, ?_, kept l₁, hkept, ?_⟩
  · rw [scanCars_eq hmark, hrun]
    exact hclean
  · exact hordered₁.sublist List.filter_sublist

/-- **A run** in which every entry meets the condition, up to any scan. -/
theorem scans_inOrder {before after : List Scan} (hs : InOrder s)
    (hmeets : ScansMeet strcmp m (before ++ after) s) :
    ∃ s', scans strcmp m before s = some s' ∧ InOrder s' := by
  induction before generalizing s with
  | nil => exact ⟨s, rfl, hs⟩
  | cons scan before ih =>
    obtain ⟨s₁, hrun, hs₁⟩ := scanCars_inOrder hs hmeets.1
    obtain ⟨_, hrest⟩ := (scansMeet_cons_iff hrun).mp hmeets
    obtain ⟨s', hrun', hs'⟩ := ih hs₁ hrest
    exact ⟨s', by simp [scans, hrun, hrun'], hs'⟩

theorem inOrder_start : InOrder Screen.start := ⟨[], rfl, nofun, List.Pairwise.nil⟩

/-! ## Names that fit, and what `strcmp` returns -/

/-- The name of a car, shorter than the array for it. -/
structure CarName (name : CString) : Prop where
  car : carPrefix.isPrefixOf name = true
  fits : name.length < 127

def OnlyCars (l : List (Addr × CarInfo)) : Prop := ∀ e ∈ l, ∃ n, e.2.name = some n ∧ CarName n

def Fit (entries : List Entry) : Prop := ∀ e ∈ entries, e.dName.length < 127

/-- `strcmp` returns `-1` for the name of a car below another. -/
def ReturnsMinusOne (strcmp : Strcmp) : Prop :=
  ∀ s t, CarName s → CarName t → s < t → strcmp s t = -1

theorem OnlyCars.readable (h : OnlyCars l) : Readable l := by
  intro e he
  obtain ⟨n, hn, _⟩ := h e he
  rw [hn]
  exact Option.some_ne_none n

theorem onlyCars_nil : OnlyCars [] := fun _ he => absurd he List.not_mem_nil

theorem Entry.carName {e : Entry} (hshown : e.shown = true) (hfits : e.dName.length < 127) :
    CarName e.dName := by
  rw [Entry.shown, Bool.and_eq_true] at hshown
  exact ⟨hshown.1, hfits⟩

theorem Entered.onlyCars (h : Entered strcmp last name l l') (honly : OnlyCars l)
    (hname : CarName name) : OnlyCars l' := by
  refine h.forall_mem (P := fun c => ∃ n, c.name = some n ∧ CarName n) honly ?_
  intro c hc _
  refine ⟨name, ?_, hname⟩
  rcases hc with hfound | hnew
  · exact hfound
  · rw [hnew, strncpyName, if_pos hname.fits]

theorem meets_of_returns (hreturns : ReturnsMinusOne strcmp) (honly : OnlyCars l)
    (hname : CarName name) : Meets strcmp last name l := by
  by_cases hnamed : Named l name
  · exact .inl hnamed
  · refine .inr ⟨name, by rw [strncpyName, if_pos hname.fits], hnamed, ?_⟩
    rintro g ⟨⟨e, he, hge⟩, habove, _⟩
    obtain ⟨n, hn, hcar⟩ := honly e he
    obtain rfl := Option.some.inj (hn.symm.trans hge)
    exact hreturns name n hname hcar habove

theorem entriesMeet_of_returns (m : Malloc) (currentTv : Timeval)
    (hreturns : ReturnsMinusOne strcmp)
    (hl : Linked s.heap.cell s.cars l) (honly : OnlyCars l) (hfit : Fit entries) :
    EntriesMeet strcmp m currentTv entries s ∧
      ∃ s' l', scanEntries strcmp m currentTv entries s = some s' ∧
        Linked s'.heap.cell s'.cars l' ∧ OnlyCars l' := by
  induction entries generalizing s l with
  | nil => exact ⟨trivial, s, l, rfl, hl, honly⟩
  | cons e entries ih =>
    have hfit' : Fit entries := fun e he => hfit e (List.mem_cons_of_mem _ he)
    rcases scanEntry_spec strcmp m currentTv hl honly.readable e with
      ⟨hshown, hrun⟩ | ⟨hshown, s₁, l₁, hrun, hl₁, hentered⟩
    · rw [entriesMeet_cons_iff hrun, scanEntries_cons hrun]
      obtain ⟨hmeets, hrest⟩ := ih hl honly hfit'
      exact ⟨⟨entryMeets_of_not_shown hshown, hmeets⟩, hrest⟩
    · have hname := Entry.carName hshown (hfit e List.mem_cons_self)
      rw [entriesMeet_cons_iff hrun, scanEntries_cons hrun]
      obtain ⟨hmeets, hrest⟩ := ih hl₁ (hentered.onlyCars honly hname) hfit'
      refine ⟨⟨?_, hmeets⟩, hrest⟩
      intro _ k hk
      rw [hk.unique hl]
      exact meets_of_returns hreturns honly hname

theorem onlyCars_marked (honly : OnlyCars l) : OnlyCars (marked l) := by
  intro e he
  obtain ⟨d, hd, rfl⟩ := List.mem_map.mp he
  obtain ⟨n, hn, hcar⟩ := honly d hd
  exact ⟨n, d.2.mark_name.trans hn, hcar⟩

theorem scansMeet_of_returns (hreturns : ReturnsMinusOne strcmp) {ss : List Scan}
    (hl : Linked s.heap.cell s.cars l) (honly : OnlyCars l)
    (hfit : ∀ scan ∈ ss, Fit (scan.dir.getD [])) : ScansMeet strcmp m ss s := by
  induction ss generalizing s l with
  | nil => trivial
  | cons scan ss ih =>
    obtain ⟨heap, hmark, hmarked⟩ := mark_spec hl
    obtain ⟨hmeets, s₁, l₁, hrun, hl₁, honly₁⟩ :=
      entriesMeet_of_returns m scan.currentTv hreturns (s := { s with heap }) hmarked
        (onlyCars_marked honly) (hfit scan List.mem_cons_self)
    obtain ⟨cars, heap', hclean, hkept⟩ := cleanup_spec hl₁
    have hscan : scanCars strcmp m scan s = some { s₁ with cars, heap := heap' } := by
      rw [scanCars_eq hmark, hrun]
      exact hclean
    rw [scansMeet_cons_iff hscan, scanMeets_iff hmark]
    refine ⟨hmeets, ih hkept ?_ ?_⟩
    · intro e he
      exact honly₁ e (List.mem_filter.mp he).1
    · intro scan' hscan'
      exact hfit scan' (List.mem_cons_of_mem _ hscan')

/-! ## A first scan

Nothing is marked in it, so nothing leaves the list, and what was once out of order stays so. -/

theorem Entered.ordered_of (h : Entered strcmp last name l l') (hl' : Ordered l') : Ordered l := by
  cases h with
  | found hbefore hname _ => exact hl'.set (hbefore.trans hname.symm)
  | inserted _ _ _ _ => exact (ordered_middle.mp hl').1

theorem Entered.allCurrent (h : Entered strcmp last name l l') (hall : AllCurrent l) :
    AllCurrent l' :=
  h.forall_mem (P := fun c => c.state = 'c') hall fun _ _ hstate => hstate

theorem kept_of_allCurrent (hall : AllCurrent l) : kept l = l := by
  refine List.filter_eq_self.mpr fun e he => ?_
  simp [hall e he]

theorem entriesMeet_of_ordered (strcmp : Strcmp) (m : Malloc) (currentTv : Timeval)
    (hl : Linked s.heap.cell s.cars l) (honly : OnlyCars l) (hall : AllCurrent l)
    (hfit : Fit entries) :
    ∃ s' l', scanEntries strcmp m currentTv entries s = some s' ∧
      Linked s'.heap.cell s'.cars l' ∧ AllCurrent l' ∧
      (Ordered l' → Ordered l ∧ EntriesMeet strcmp m currentTv entries s) := by
  induction entries generalizing s l with
  | nil => exact ⟨s, l, rfl, hl, hall, fun hordered => ⟨hordered, trivial⟩⟩
  | cons e entries ih =>
    have hfit' : Fit entries := fun e he => hfit e (List.mem_cons_of_mem _ he)
    rcases scanEntry_spec strcmp m currentTv hl honly.readable e with
      ⟨hshown, hrun⟩ | ⟨hshown, s₁, l₁, hrun, hl₁, hentered⟩
    · rw [scanEntries_cons hrun]
      obtain ⟨s', l', hrun', hl', hall', hback⟩ := ih hl honly hall hfit'
      refine ⟨s', l', hrun', hl', hall', fun hordered => ?_⟩
      obtain ⟨hbefore, hmeets⟩ := hback hordered
      exact ⟨hbefore, (entriesMeet_cons_iff hrun).mpr ⟨entryMeets_of_not_shown hshown, hmeets⟩⟩
    · have hname := Entry.carName hshown (hfit e List.mem_cons_self)
      rw [scanEntries_cons hrun]
      obtain ⟨s', l', hrun', hl', hall', hback⟩ :=
        ih hl₁ (hentered.onlyCars honly hname) (hentered.allCurrent hall) hfit'
      refine ⟨s', l', hrun', hl', hall', fun hordered => ?_⟩
      obtain ⟨hordered₁, hmeets⟩ := hback hordered
      have hbefore := hentered.ordered_of hordered₁
      refine ⟨hbefore, (entriesMeet_cons_iff hrun).mpr ⟨?_, hmeets⟩⟩
      intro _ k hk
      rw [hk.unique hl]
      exact (hentered.ordered_iff hbefore).mp hordered₁

/-- An ordered list after the first scan: every entry has met the condition. -/
theorem scanMeets_of_inOrder (hfit : Fit (scan.dir.getD [])) {s' : Screen}
    (hrun : scanCars strcmp m scan Screen.start = some s') (hs' : InOrder s') :
    ScanMeets strcmp m scan Screen.start := by
  have hstart : Linked Screen.start.heap.cell Screen.start.cars [] := rfl
  obtain ⟨heap, hmark, hmarked⟩ := mark_spec hstart
  obtain ⟨s₁, l₁, hrun₁, hl₁, hall₁, hback⟩ := entriesMeet_of_ordered strcmp m scan.currentTv
    (s := { Screen.start with heap }) hmarked nofun nofun hfit
  obtain ⟨cars, heap', hclean, hkept⟩ := cleanup_spec hl₁
  rw [scanCars_eq hmark, hrun₁] at hrun
  cases hclean.symm.trans hrun
  obtain ⟨l', hl', hordered⟩ := hs'
  rw [kept_of_allCurrent hall₁] at hkept
  rw [hl'.unique hkept] at hordered
  exact (scanMeets_iff hmark).mpr (hback hordered).2

theorem Entered.of_nil (h : Entered strcmp last name [] l') (hname : CarName name) :
    ∃ a c, l' = [(a, c)] ∧ c.name = some name := by
  generalize hnil : ([] : List (Addr × CarInfo)) = l at h
  cases h with
  | found _ _ _ => simp at hnil
  | inserted _ hname' _ _ =>
    obtain ⟨rfl, rfl⟩ := List.append_eq_nil_iff.mp hnil.symm
    rw [strncpyName, if_pos hname.fits] at hname'
    exact ⟨_, _, rfl, hname'⟩

def closedCar (name : CString) : Entry := ⟨name, some closedAt1⟩

/-- A directory with the two cars `t` and `s`, in this order. -/
def twoCars (s t : CString) : Scan := ⟨⟨0, 0⟩, some [closedCar t, closedCar s]⟩

theorem closedCar_shown (hname : CarName name) : (closedCar name).shown = true := by
  rw [Entry.shown, Bool.and_eq_true]
  exact ⟨hname.car, rfl⟩

theorem fit_twoCars {s t : CString} (hs : CarName s) (ht : CarName t) :
    Fit ((twoCars s t).dir.getD []) := by
  intro e he
  simp only [twoCars, Option.getD_some, List.mem_cons, List.not_mem_nil, or_false] at he
  rcases he with rfl | rfl
  · exact ht.fits
  · exact hs.fits

/-- The second of two cars goes in front of the first iff `strcmp` returns `-1`. -/
theorem returns_of_scanMeets {s t : CString} (hs : CarName s) (ht : CarName t) (hlt : s < t)
    (hmeets : ScanMeets strcmp m (twoCars s t) Screen.start) : strcmp s t = -1 := by
  have hstart : Linked Screen.start.heap.cell Screen.start.cars [] := rfl
  obtain ⟨heap, hmark, hmarked⟩ := mark_spec hstart
  have hentries := (scanMeets_iff hmark).mp hmeets
  rcases scanEntry_spec strcmp m ⟨0, 0⟩ (s := { Screen.start with heap }) hmarked nofun
    (closedCar t) with ⟨hshown, _⟩ | ⟨_, s₁, l₁, hrun, hl₁, hentered⟩
  · rw [closedCar_shown ht] at hshown
    cases hshown
  · obtain ⟨a, c, rfl, hname⟩ := hentered.of_nil ht
    have hname : c.name = some t := hname
    obtain ⟨hsecond, _⟩ := ((entriesMeet_cons_iff hrun).mp hentries).2
    have hnamed : ∀ n, Named [(a, c)] n ↔ n = t := by
      intro n
      simp [Named, hname, eq_comm]
    rcases hsecond (closedCar_shown hs) _ hl₁ with hsame | ⟨stored, hstored, _, hleast⟩
    · exact absurd ((hnamed s).mp hsame) (ne_of_lt hlt)
    · have hstored : strncpyName s (m.last s₁.mallocs) = some stored := hstored
      rw [strncpyName, if_pos hs.fits] at hstored
      cases hstored
      refine hleast t ⟨(hnamed t).mpr rfl, hlt, ?_⟩
      intro n hn _
      exact le_of_eq ((hnamed n).mp hn).symm

end Runs

/-- **In order, after every scan**, in every run whose entries all meet the condition. Where every
name fits, all of them do in every run iff `strcmp` returns `-1` for the name of a car below
another. -/
theorem cars_in_order (strcmp : Strcmp) (m : Malloc) :
    (∀ before after, ScansMeet strcmp m (before ++ after) Screen.start →
      ∃ s, scans strcmp m before Screen.start = some s ∧ InOrder s) ∧
    ((∀ ss : List Scan, (∀ scan ∈ ss, Fit (scan.dir.getD [])) →
        ∃ s, scans strcmp m ss Screen.start = some s ∧ InOrder s) ↔ ReturnsMinusOne strcmp) := by
  refine ⟨fun before after hmeets => scans_inOrder inOrder_start hmeets, ?_⟩
  constructor
  · intro hall s t hs ht hlt
    obtain ⟨s', hrun, hs'⟩ := hall [twoCars s t] (by
      intro scan hscan
      rw [List.mem_singleton.mp hscan]
      exact fit_twoCars hs ht)
    have hrun : scanCars strcmp m (twoCars s t) Screen.start = some s' := by
      simpa [scans] using hrun
    exact returns_of_scanMeets hs ht hlt (scanMeets_of_inOrder (fit_twoCars hs ht) hrun hs')
  · intro hreturns ss hfit
    have hmeets : ScansMeet strcmp m (ss ++ []) Screen.start := by
      rw [List.append_nil]
      exact scansMeet_of_returns hreturns (l := []) rfl onlyCars_nil hfit
    exact scans_inOrder inOrder_start hmeets

def carA : CString := "carA".toList
def carC : CString := "carC".toList

theorem carName_carA : CarName carA := ⟨by decide, by decide⟩
theorem carName_carC : CarName carC := ⟨by decide, by decide⟩

theorem cars_in_order_two : ∃ s,
    scans (strcmpOf (-1) (by decide)) mallocNext [twoCars carA carC] Screen.start = some s ∧
      InOrder s := by
  refine (cars_in_order _ _).2.mpr ?_ [twoCars carA carC] ?_
  · intro s t _ _ hlt
    simp [strcmpOf, hlt]
  · intro scan hscan
    rw [List.mem_singleton.mp hscan]
    exact fit_twoCars carName_carA carName_carC

/-- A `strcmp` that returns the difference of the first bytes that differ. -/
theorem cars_out_of_order : ∃ s,
    scans (strcmpOf (-2) (by decide)) mallocNext [twoCars carA carC] Screen.start = some s ∧
      ¬ InOrder s := by
  have hlt : carA < carC := by decide
  have hlisting : (twoCars carA carC).Listing := ⟨by decide, by decide⟩
  obtain ⟨s, hrun, _⟩ := scanCars_spec (strcmpOf (-2) (by decide)) mallocNext showing_start
    List.nodup_nil hlisting
  refine ⟨s, by simp [scans, hrun], fun hs => ?_⟩
  have hmeets := scanMeets_of_inOrder (fit_twoCars carName_carA carName_carC) hrun hs
  have hreturned := returns_of_scanMeets carName_carA carName_carC hlt hmeets
  have hresult : strcmpOf (-2) (by decide) carA carC = -2 := by simp [strcmpOf, hlt]
  rw [hresult] at hreturned
  exact absurd hreturned (by decide)

end Display
end Cab403
