import Cab403.Display.Scan
import Cab403.Lib.Keyed

/-!
# The history of a car on the display

What the list of cars is for: a map from names to what is known of the car with the name. A scan
does to it, at every name, what the record found under this name asks for and nothing else
(`track`), wherever the node is on the list and whatever the other cars do. So what is on a node
after any scans is the history of its own car (`scans_histories`), which starts over when the car
has been away for one scan.

`Dated` is what a history amounts to: the record is that of the last scan, and `status_tv` is the
time of the scan since when status and floor have been what they are.
-/

namespace Cab403
namespace Display

open Function Lib
open Car (CarSharedMem)

/-! ## Names and what is known of them -/

abbrev Shown := CString → Option CarInfo

/-- A node that is new. -/
def fresh (currentTv : Timeval) (name : CString) (shm : CarSharedMem) : CarInfo :=
  { name := some name, delay := 1000000, statusTv := currentTv, state := 'c', mem := shm }

/-- What is known of a car after a scan that finds the record `shm` of it, or none. -/
def track (strcmp : Strcmp) (currentTv : Timeval) (name : CString) (old : Option CarInfo)
    (shm : Option CarSharedMem) : Option CarInfo :=
  shm.map fun shm => refresh strcmp currentTv shm (old.getD (fresh currentTv name shm))

/-- The record of a car, if it can be opened. -/
def Entry.record (e : Entry) : Option CarSharedMem :=
  if carPrefix.isPrefixOf e.dName then e.shm else none

def recordOf (entries : List Entry) (name : CString) : Option CarSharedMem :=
  (entries.find? (·.dName == name)).bind Entry.record

def Scan.record (scan : Scan) (name : CString) : Option CarSharedMem :=
  recordOf (scan.dir.getD []) name

/-- What is known of the car `name` after these scans. -/
def history (strcmp : Strcmp) (name : CString) (old : Option CarInfo) (ss : List Scan) :
    Option CarInfo :=
  ss.foldl (fun old scan => track strcmp scan.currentTv name old (scan.record name)) old

/-- One entry of a directory. -/
def showEntry (strcmp : Strcmp) (currentTv : Timeval) (shown : Shown) (e : Entry) : Shown :=
  match e.record with
  | none => shown
  | some shm => update shown e.dName (track strcmp currentTv e.dName (shown e.dName) (some shm))

variable {strcmp : Strcmp} {m : Malloc} {currentTv : Timeval} {name : CString} {s : Screen}
  {l : List (Addr × CarInfo)} {shown : Shown} {e : Entry} {entries : List Entry} {scan : Scan}

theorem recordOf_cons :
    recordOf (e :: entries) name = if e.dName = name then e.record else recordOf entries name := by
  by_cases hname : e.dName = name <;> simp [recordOf, hname]

theorem recordOf_eq_none (hnot : name ∉ entries.map Entry.dName) :
    recordOf entries name = none := by
  have hfind : entries.find? (·.dName == name) = none := by
    apply List.find?_eq_none.mpr
    intro e he hname
    exact hnot (List.mem_map.mpr ⟨e, he, eq_of_beq hname⟩)
  rw [recordOf, hfind]
  rfl

/-- **A directory**, at each name. -/
theorem foldl_showEntry (hnodup : (entries.map Entry.dName).Nodup) (name : CString) :
    entries.foldl (showEntry strcmp currentTv) shown name =
      if (recordOf entries name).isSome then
        track strcmp currentTv name (shown name) (recordOf entries name)
      else shown name := by
  induction entries generalizing shown with
  | nil => rfl
  | cons e entries ih =>
    rw [List.map_cons, List.nodup_cons] at hnodup
    rw [List.foldl_cons, ih hnodup.2, recordOf_cons]
    by_cases hname : e.dName = name
    · subst hname
      rw [recordOf_eq_none hnodup.1, if_pos rfl]
      cases hrecord : e.record with
      | none => simp [showEntry, hrecord]
      | some shm => simp [showEntry, hrecord]
    · have hsame : showEntry strcmp currentTv shown e name = shown name := by
        unfold showEntry
        cases e.record with
        | none => rfl
        | some shm => exact update_of_ne (Ne.symm hname) _ _
      rw [if_neg hname, hsame]

/-! ## The list -/

def nodes (l : List (Addr × CarInfo)) : Shown := lookBy CarInfo.name (l.map Prod.snd)

/-- The list is this map. -/
structure Represents (l : List (Addr × CarInfo)) (shown : Shown) : Prop where
  readable : Readable l
  nodup : ((l.map Prod.snd).map CarInfo.name).Nodup
  nodes_eq : nodes l = shown

theorem nodes_eq_some_iff (hnodup : ((l.map Prod.snd).map CarInfo.name).Nodup) {c : CarInfo} :
    nodes l name = some c ↔ (∃ a, (a, c) ∈ l) ∧ c.name = some name := by
  rw [nodes, lookBy_eq_some_iff hnodup]
  simp

theorem nodes_eq_none_iff : nodes l name = none ↔ ¬ Named l name := by
  rw [nodes, lookBy_eq_none_iff]
  constructor
  · rintro hnone ⟨e, he, hename⟩
    exact hnone e.2 (List.mem_map_of_mem he) hename
  · intro hnot c hc hname
    obtain ⟨e, he, rfl⟩ := List.mem_map.mp hc
    exact hnot ⟨e, he, hname⟩

theorem nodes_middle {front back : List (Addr × CarInfo)} {a : Addr} {c : CarInfo}
    (hnodup : (((front ++ (a, c) :: back).map Prod.snd).map CarInfo.name).Nodup)
    (hname : c.name = some name) :
    nodes (front ++ (a, c) :: back) = update (nodes (front ++ back)) name (some c) := by
  unfold nodes
  rw [List.map_append, List.map_cons] at hnodup ⊢
  rw [lookBy_middle hnodup hname, List.map_append]

section Put

variable {front back : List (Addr × CarInfo)} {a : Addr} {c c' : CarInfo}

/-- Another value in the node of `name`. -/
theorem Represents.set (h : Represents (front ++ (a, c) :: back) shown) (hname : c.name = some name)
    (hname' : c'.name = some name) :
    Represents (front ++ (a, c') :: back) (update shown name (some c')) := by
  have hnames : ((front ++ (a, c') :: back).map Prod.snd).map CarInfo.name =
      ((front ++ (a, c) :: back).map Prod.snd).map CarInfo.name := by
    simp [hname, hname']
  have hnodup := h.nodup
  rw [← hnames] at hnodup
  refine ⟨?_, hnodup, ?_⟩
  · refine forall_mem_middle.mpr ⟨?_, (forall_mem_middle.mp h.readable).2⟩
    show c'.name ≠ none
    rw [hname']
    exact Option.some_ne_none name
  · rw [nodes_middle hnodup hname', ← h.nodes_eq, nodes_middle h.nodup hname, update_idem]

/-- A node with a new name. -/
theorem Represents.put (h : Represents (front ++ back) shown) (hnot : ¬ Named (front ++ back) name)
    (hname : c.name = some name) :
    Represents (front ++ (a, c) :: back) (update shown name (some c)) := by
  have hnodup : (((front ++ (a, c) :: back).map Prod.snd).map CarInfo.name).Nodup := by
    have hperm : (front ++ (a, c) :: back).Perm ((a, c) :: (front ++ back)) := List.perm_middle
    rw [((hperm.map Prod.snd).map CarInfo.name).nodup_iff, List.map_cons, List.map_cons,
      List.nodup_cons]
    refine ⟨?_, h.nodup⟩
    intro hmem
    obtain ⟨d, hd, hdname⟩ := List.mem_map.mp hmem
    obtain ⟨e, he, rfl⟩ := List.mem_map.mp hd
    exact hnot ⟨e, he, hdname.trans hname⟩
  refine ⟨?_, hnodup, ?_⟩
  · refine forall_mem_middle.mpr ⟨?_, h.readable⟩
    show c.name ≠ none
    rw [hname]
    exact Option.some_ne_none name
  · rw [nodes_middle hnodup hname, h.nodes_eq]

end Put

/-! ## One entry -/

theorem newCar_fresh (strcmp : Strcmp) (m : Malloc) (currentTv : Timeval)
    (hl : Linked s.heap.cell s.cars l) (hread : Readable l) (hfits : name.length < 127)
    (shm : CarSharedMem) :
    ∃ a s' front back, newCar strcmp m currentTv name shm s = some (a, s') ∧ l = front ++ back ∧
      Linked s'.heap.cell s'.cars (front ++ (a, fresh currentTv name shm) :: back) := by
  obtain ⟨cars, heap, front, back, hrun, hsplit, _, hlinked⟩ :=
    insertCar_spec strcmp name (fresh currentTv name shm)
      (s := { s with mallocs := s.mallocs + 1 }) hl hread (m.fresh s.mallocs s.heap.keys)
  refine ⟨_, { s with cars, heap, mallocs := s.mallocs + 1 }, front, back, ?_, hsplit, hlinked⟩
  have hname : strncpyName name (m.last s.mallocs) = some name := if_pos hfits
  have hnew : insertCar strcmp name (m.block s.mallocs s.heap.keys)
      { name := strncpyName name (m.last s.mallocs), delay := 1000000, statusTv := currentTv,
        state := 'c', mem := shm } { s with mallocs := s.mallocs + 1 } =
      some { s with cars, heap, mallocs := s.mallocs + 1 } := by
    rw [hname]
    exact hrun
  simp [newCar, hnew]

theorem Represents.scanEntry (h : Represents l shown) (strcmp : Strcmp) (m : Malloc)
    (currentTv : Timeval) (hl : Linked s.heap.cell s.cars l) (hfits : e.dName.length < 127) :
    ∃ s' l', Display.scanEntry strcmp m currentTv s e = some s' ∧
      Linked s'.heap.cell s'.cars l' ∧ Represents l' (showEntry strcmp currentTv shown e) := by
  obtain ⟨name, shm⟩ := e
  cases hcar : carPrefix.isPrefixOf name with
  | false =>
    refine ⟨s, l, by simp [Display.scanEntry, hcar], hl, ?_⟩
    simpa [showEntry, Entry.record, hcar] using h
  | true =>
    rcases getCarByName_spec strcmp name hl h.readable with
      ⟨hfound, hnot⟩ | ⟨front, a, c, back, hfound, rfl, hname⟩
    · cases shm with
      | none =>
        refine ⟨s, l, by simp [Display.scanEntry, hcar, hfound], hl, ?_⟩
        simpa [showEntry, Entry.record, hcar] using h
      | some shm =>
        obtain ⟨a, s', front, back, hnew, rfl, hlinked⟩ :=
          newCar_fresh strcmp m currentTv hl h.readable hfits shm
        obtain ⟨s'', hshow, hlinked'⟩ := showCar_spec strcmp currentTv hlinked shm
        have hunknown : shown name = none := by
          rw [← h.nodes_eq]
          exact nodes_eq_none_iff.mpr hnot
        refine ⟨s'', _, by simp [Display.scanEntry, hcar, hfound, hnew, hshow], hlinked', ?_⟩
        have hname : (refresh strcmp currentTv shm (fresh currentTv name shm)).name = some name :=
          refresh_name shm _
        have hput := h.put (a := a) hnot hname
        simpa [showEntry, Entry.record, hcar, track, hunknown] using hput
    · cases shm with
      | none =>
        refine ⟨s, _, by simp [Display.scanEntry, hcar, hfound], hl, ?_⟩
        simpa [showEntry, Entry.record, hcar] using h
      | some shm =>
        obtain ⟨s', hshow, hlinked⟩ := showCar_spec strcmp currentTv hl shm
        have hknown : shown name = some c := by
          rw [← h.nodes_eq]
          exact (nodes_eq_some_iff h.nodup).mpr ⟨⟨a, by simp⟩, hname⟩
        refine ⟨s', _, by simp [Display.scanEntry, hcar, hfound, hshow], hlinked, ?_⟩
        have hname' : (refresh strcmp currentTv shm c).name = some name :=
          (refresh_name shm c).trans hname
        have hset := h.set hname hname'
        simpa [showEntry, Entry.record, hcar, track, hknown] using hset

theorem Represents.scanEntries (h : Represents l shown) (strcmp : Strcmp) (m : Malloc)
    (currentTv : Timeval) (hl : Linked s.heap.cell s.cars l)
    (hfits : ∀ e ∈ entries, e.dName.length < 127) :
    ∃ s' l', Display.scanEntries strcmp m currentTv entries s = some s' ∧
      Linked s'.heap.cell s'.cars l' ∧
      Represents l' (entries.foldl (showEntry strcmp currentTv) shown) := by
  induction entries generalizing s l shown with
  | nil => exact ⟨s, l, rfl, hl, h⟩
  | cons e entries ih =>
    obtain ⟨s₁, l₁, hrun, hl₁, h₁⟩ :=
      h.scanEntry strcmp m currentTv hl (hfits e List.mem_cons_self)
    rw [scanEntries_cons hrun]
    exact ih h₁ hl₁ fun e he => hfits e (List.mem_cons_of_mem _ he)

/-! ## Whole scans -/

/-- What is marked is refreshed to the same. -/
theorem refresh_mark (shm : CarSharedMem) (c : CarInfo) :
    refresh strcmp currentTv shm c.mark = refresh strcmp currentTv shm c := by
  unfold CarInfo.mark
  split <;> rfl

theorem track_map_mark (old : Option CarInfo) (shm : Option CarSharedMem) :
    track strcmp currentTv name (old.map CarInfo.mark) shm =
      track strcmp currentTv name old shm := by
  cases old with
  | none => rfl
  | some c =>
    unfold track
    simp only [Option.map_some, Option.getD_some, refresh_mark]

theorem state_of_track {old : Option CarInfo} {shm : Option CarSharedMem} {c : CarInfo}
    (h : track strcmp currentTv name old shm = some c) : c.state = 'c' := by
  obtain ⟨shm, _, rfl⟩ := Option.map_eq_some_iff.mp h
  exact refresh_state shm _

theorem Represents.marked (h : Represents l shown) :
    Represents (marked l) fun name => (shown name).map CarInfo.mark := by
  have hnodes : (Display.marked l).map Prod.snd = (l.map Prod.snd).map CarInfo.mark := by
    rw [Display.marked, List.map_map, List.map_map]
    rfl
  constructor
  · intro e he
    obtain ⟨d, hd, rfl⟩ := List.mem_map.mp he
    show d.2.mark.name ≠ none
    rw [CarInfo.mark_name]
    exact h.readable d hd
  · have hnames : CarInfo.name ∘ CarInfo.mark = CarInfo.name := funext CarInfo.mark_name
    rw [hnodes, List.map_map, hnames]
    exact h.nodup
  · funext name
    rw [nodes, hnodes, lookBy_map CarInfo.mark CarInfo.mark_name, ← h.nodes_eq, nodes]

theorem Represents.kept (h : Represents l shown) :
    Represents (kept l) fun name => (shown name).filter (·.state != 'o') := by
  have hnodes : (Display.kept l).map Prod.snd = (l.map Prod.snd).filter (·.state != 'o') := by
    rw [Display.kept, List.filter_map]
    rfl
  have hsub : (Display.kept l).Sublist l := List.filter_sublist
  constructor
  · exact fun e he => h.readable e (hsub.subset he)
  · exact ((hsub.map Prod.snd).map CarInfo.name).nodup h.nodup
  · funext name
    rw [nodes, hnodes, lookBy_filter h.nodup, ← h.nodes_eq, nodes]

/-- The list of a screen is this map, and every node is a car that is shown. -/
def Shows (s : Screen) (shown : Shown) : Prop :=
  ∃ l, Linked s.heap.cell s.cars l ∧ Represents l shown ∧ AllCurrent l

/-- **One scan**, at every name. -/
theorem Shows.scanCars (h : Shows s shown) (strcmp : Strcmp) (m : Malloc) (hscan : scan.Listing) :
    ∃ s', Display.scanCars strcmp m scan s = some s' ∧
      Shows s' fun name => track strcmp scan.currentTv name (shown name) (scan.record name) := by
  obtain ⟨l, hl, hshown, hall⟩ := h
  obtain ⟨heap, hmark, hmarked⟩ := mark_spec hl
  obtain ⟨s₁, l₁, hrun, hl₁, h₁⟩ := hshown.marked.scanEntries strcmp m scan.currentTv
    (s := { s with heap }) hmarked hscan.fits
  obtain ⟨cars, heap', hclean, hkept⟩ := cleanup_spec hl₁
  have hstate : ∀ name c, shown name = some c → c.mark.state = 'o' := by
    intro name c hc
    rw [← hshown.nodes_eq, nodes_eq_some_iff hshown.nodup] at hc
    obtain ⟨⟨a, ha⟩, _⟩ := hc
    rw [CarInfo.mark, if_pos (hall _ ha)]
  have hmap : (fun name => ((scan.dir.getD []).foldl (showEntry strcmp scan.currentTv)
      (fun name => (shown name).map CarInfo.mark) name).filter (·.state != 'o')) =
      fun name => track strcmp scan.currentTv name (shown name) (scan.record name) := by
    funext name
    rw [foldl_showEntry hscan.nodup, track_map_mark]
    cases hrecord : recordOf (scan.dir.getD []) name with
    | none =>
      -- the node is still marked, if there is one
      have hgone : track strcmp scan.currentTv name (shown name) (scan.record name) = none := by
        rw [Scan.record, hrecord]
        rfl
      rw [hgone, Option.filter_eq_none_iff]
      intro c hc
      obtain ⟨d, hd, rfl⟩ := Option.map_eq_some_iff.mp hc
      simp [hstate name d hd]
    | some shm =>
      rw [Scan.record, hrecord, if_pos (Option.isSome_some (a := shm))]
      obtain ⟨c, hc⟩ : ∃ c, track strcmp scan.currentTv name (shown name) (some shm) = some c :=
        ⟨_, rfl⟩
      rw [hc]
      exact Option.filter_some_pos (by simp [state_of_track hc])
  have hcurrent := h₁.kept
  rw [hmap] at hcurrent
  refine ⟨{ s₁ with cars, heap := heap' }, ?_, kept l₁, hkept, hcurrent, ?_⟩
  · rw [scanCars_eq hmark, hrun]
    exact hclean
  · intro e he
    obtain ⟨name, hname⟩ := hcurrent.readable.exists_name he
    have hnode := (nodes_eq_some_iff hcurrent.nodup).mpr ⟨⟨e.1, he⟩, hname⟩
    rw [hcurrent.nodes_eq] at hnode
    exact state_of_track hnode

/-- **After every sequence of scans.** -/
theorem Shows.scans {ss : List Scan} (h : Shows s shown) (strcmp : Strcmp) (m : Malloc)
    (hscans : ∀ scan ∈ ss, scan.Listing) :
    ∃ s', Display.scans strcmp m ss s = some s' ∧
      Shows s' fun name => history strcmp name (shown name) ss := by
  induction ss generalizing s shown with
  | nil => exact ⟨s, rfl, h⟩
  | cons scan ss ih =>
    obtain ⟨s₁, hrun, h₁⟩ := h.scanCars strcmp m (hscans scan List.mem_cons_self)
    obtain ⟨s', hrest, h'⟩ := ih h₁ fun scan hscan => hscans scan (List.mem_cons_of_mem _ hscan)
    exact ⟨s', by simp [Display.scans, hrun, hrest], h'⟩

theorem shows_start : Shows Screen.start fun _ => none := by
  refine ⟨[], rfl, ⟨?_, List.nodup_nil, rfl⟩, ?_⟩ <;> exact fun e he => absurd he List.not_mem_nil

/-! ## What a history amounts to -/

/-- What the last scan found of a car. -/
def lastRecord (name : CString) (ss : List Scan) : Option CarSharedMem :=
  ss.getLast?.bind (·.record name)

def SameStatus (shm shm' : CarSharedMem) : Prop :=
  shm.status = shm'.status ∧ shm.currentFloor = shm'.currentFloor

/-- The node has the last record, and `status_tv` is the time of the first of the last scans that
found this status at this floor. -/
structure Dated (name : CString) (ss : List Scan) (c : CarInfo) : Prop where
  last : lastRecord name ss = some c.mem
  since : ∃ front scan back, ss = front ++ scan :: back ∧ scan.currentTv = c.statusTv ∧
    (∀ scan' ∈ scan :: back, ∃ shm, scan'.record name = some shm ∧ SameStatus shm c.mem) ∧
    ∀ shm, lastRecord name front = some shm → ¬ SameStatus shm c.mem

variable {ss : List Scan} {c : CarInfo} {shm : CarSharedMem}

theorem refresh_statusTv_of_same (hsame : SameStatus c.mem shm) :
    (refresh strcmp currentTv shm c).statusTv = c.statusTv := by
  have hstatus := (strcmp.zero_iff _ _).mpr hsame.1
  have hfloor := (strcmp.zero_iff _ _).mpr hsame.2
  simp [refresh, hstatus, hfloor]

theorem refresh_statusTv_of_not (hdiff : ¬ SameStatus c.mem shm) :
    (refresh strcmp currentTv shm c).statusTv = currentTv := by
  have hne : strcmp c.mem.status shm.status ≠ 0 ∨
      strcmp c.mem.currentFloor shm.currentFloor ≠ 0 := by
    rw [Ne, Ne, strcmp.zero_iff, strcmp.zero_iff]
    exact not_and_or.mp hdiff
  simp [refresh, hne]

theorem lastRecord_append (ss : List Scan) (scan : Scan) :
    lastRecord name (ss ++ [scan]) = scan.record name := by
  simp [lastRecord]

theorem history_append (ss : List Scan) (scan : Scan) (old : Option CarInfo) :
    history strcmp name old (ss ++ [scan]) =
      track strcmp scan.currentTv name (history strcmp name old ss) (scan.record name) := by
  simp [history]

theorem lastRecord_of_history (hnone : history strcmp name none ss = none) :
    lastRecord name ss = none := by
  induction ss using List.reverseRecOn with
  | nil => rfl
  | append_singleton ss scan _ =>
    rw [history_append, track, Option.map_eq_none_iff] at hnone
    rw [lastRecord_append, hnone]

/-- The scan that dates a node is the last one. -/
theorem dated_now (hrecord : scan.record name = some c.mem) (htime : scan.currentTv = c.statusTv)
    (hdiff : ∀ shm, lastRecord name ss = some shm → ¬ SameStatus shm c.mem) :
    Dated name (ss ++ [scan]) c := by
  refine ⟨(lastRecord_append ss scan).trans hrecord, ss, scan, [], rfl, htime, ?_, hdiff⟩
  intro scan' hscan'
  rw [List.mem_singleton] at hscan'
  subst hscan'
  exact ⟨c.mem, hrecord, rfl, rfl⟩

/-- One more scan finds what was found before. -/
theorem Dated.again {c' : CarInfo} (h : Dated name ss c) (hrecord : scan.record name = some c'.mem)
    (hsame : SameStatus c.mem c'.mem) (htime : c'.statusTv = c.statusTv) :
    Dated name (ss ++ [scan]) c' := by
  have hto : ∀ {shm}, SameStatus shm c.mem ↔ SameStatus shm c'.mem := by
    intro shm
    rw [SameStatus, SameStatus, hsame.1, hsame.2]
  obtain ⟨front, first, back, rfl, hfirst, hall, hdiff⟩ := h.since
  refine ⟨(lastRecord_append _ scan).trans hrecord, front, first, back ++ [scan], by simp,
    hfirst.trans htime.symm, ?_, fun shm hshm => hto.not.mp (hdiff shm hshm)⟩
  intro scan' hscan'
  rw [← List.cons_append, List.mem_append, List.mem_singleton] at hscan'
  rcases hscan' with hbefore | rfl
  · obtain ⟨shm, hshm, hsame'⟩ := hall scan' hbefore
    exact ⟨shm, hshm, hto.mp hsame'⟩
  · exact ⟨c'.mem, hrecord, rfl, rfl⟩

theorem dated_of_history (hc : history strcmp name none ss = some c) : Dated name ss c := by
  induction ss using List.reverseRecOn generalizing c with
  | nil => cases hc
  | append_singleton ss scan ih =>
    rw [history_append] at hc
    obtain ⟨shm, hrecord, rfl⟩ := Option.map_eq_some_iff.mp hc
    cases hold : history strcmp name none ss with
    | none =>
      -- the car is new, or has been away
      refine dated_now hrecord ?_ ?_
      · exact (refresh_statusTv_of_same (c := fresh scan.currentTv name shm) ⟨rfl, rfl⟩).symm
      · intro shm' hshm'
        rw [lastRecord_of_history hold] at hshm'
        cases hshm'
    | some old =>
      have hdated := ih hold
      by_cases hsame : SameStatus old.mem shm
      · exact hdated.again hrecord hsame (refresh_statusTv_of_same hsame)
      · refine dated_now hrecord (refresh_statusTv_of_not hsame).symm ?_
        intro shm' hshm'
        rw [hdated.last] at hshm'
        cases hshm'
        exact hsame

/-- **After every sequence of scans** the list is the map of the histories of all cars: a node for
each car with a history, one only, and on it what its own records made of it. -/
theorem scans_histories (strcmp : Strcmp) (m : Malloc) {ss : List Scan}
    (hscans : ∀ scan ∈ ss, scan.Listing) :
    ∃ s' l, scans strcmp m ss Screen.start = some s' ∧ Linked s'.heap.cell s'.cars l ∧
      Represents l (fun name => history strcmp name none ss) ∧
      ∀ e ∈ l, ∃ name, e.2.name = some name ∧ Dated name ss e.2 := by
  obtain ⟨s', hrun, l, hl, hhistory, _⟩ := shows_start.scans strcmp m hscans
  refine ⟨s', l, hrun, hl, hhistory, ?_⟩
  intro e he
  obtain ⟨name, hname⟩ := hhistory.readable.exists_name he
  have hnode := (nodes_eq_some_iff hhistory.nodup).mpr ⟨⟨e.1, he⟩, hname⟩
  rw [hhistory.nodes_eq] at hnode
  exact ⟨name, hname, dated_of_history hnode⟩

/-- Two cars, one that cannot be opened; then both, in the other order and one at another floor. -/
def twoScans : List Scan :=
  [⟨⟨0, 0⟩, some [⟨"carB".toList, some closedAt1⟩, ⟨"carC".toList, none⟩,
      ⟨"carA".toList, some closedAt1⟩]⟩,
    ⟨⟨1, 0⟩, some [⟨"carA".toList, some { closedAt1 with currentFloor := "2".toList }⟩,
      ⟨"carB".toList, some closedAt1⟩]⟩]

theorem scans_histories_twoScans :
    ∃ s' l, scans (strcmpOf (-1) (by decide)) mallocNext twoScans Screen.start = some s' ∧
      Linked s'.heap.cell s'.cars l ∧
      Represents l (fun name => history (strcmpOf (-1) (by decide)) name none twoScans) ∧
      ∀ e ∈ l, ∃ name, e.2.name = some name ∧ Dated name twoScans e.2 := by
  refine scans_histories _ _ ?_
  intro scan hscan
  have hall : ∀ scan ∈ twoScans, ((scan.dir.getD []).map Entry.dName).Nodup ∧
      ∀ e ∈ scan.dir.getD [], e.dName.length < 127 := by decide
  obtain ⟨hnodup, hfits⟩ := hall scan hscan
  exact ⟨hnodup, hfits⟩

end Display
end Cab403
