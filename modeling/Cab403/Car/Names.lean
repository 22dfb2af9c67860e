import Cab403.Lib.Namespace
import Mathlib.Data.List.Basic

/-!
# Which car a name leads to

Cars, safety systems and internal controls are processes of their own, any number of them, and all
they know of each other is a name: `car_init` removes what has the name, creates an object under it
and maps it, `car_kill` unmaps it and removes the name, and `safety` and `internal` map what the
name leads to. Every process may be gone at any time, and a car that is killed leaves its object
under its name, as did cars before the first process here.

The names are as everyone takes them to be (`Namespace.Agree`: the record of a car is what its name
leads to, no other car has it, and whoever has opened the name has no other) in a run exactly if no
car unlinks or opens its name while another car of the same name has its record, and none is
started again while a safety system or an internal control of the one before is there
(`agree_iff`). Nothing in the programs sees to either.

`car->name` is taken as long enough for the name, though no program allocates it.
-/

namespace Cab403
namespace Car
namespace Names

open Lib Lib.Namespace

/-! ## The programs -/

def str_car : String := "car"

/-- `strcpy(car->name, str_car)` and `strcat(car->name, name)` -/
def objectName (name : String) : String := str_car ++ name

/-- Before which call `main` of car.c is, with the object its `fd` or `data` leads to. -/
inductive CarAt where
  | shmUnlink
  | shmOpen
  | ftruncate (fd : Nat)
  | mmap (fd : Nat)
  | running (data : Nat)
  | shmUnlinkAgain
  | ended
  deriving DecidableEq, Repr

/-- `main` of safety.c and of internal.c. -/
inductive ToolAt where
  | shmOpen
  | mmap (fd : Nat)
  | mapped (data : Nat)
  | ended
  deriving DecidableEq, Repr

inductive Process where
  | car (name : String) (pt : CarAt)
  | tool (name : String) (pt : ToolAt)
  deriving DecidableEq, Repr

/-- A call, and whether it succeeds. With `exit` the process is gone: it returns, is killed by a
signal or cannot create a thread. -/
inductive Call where
  | shmUnlink
  | shmOpen (ok : Bool)
  | ftruncate (ok : Bool)
  | mmap (ok : Bool)
  | munmap
  | exit
  deriving DecidableEq, Repr

structure State (ι : Type*) where
  names : String → Option Nat
  created : Nat
  processes : ι → Process

section Programs

variable {ι : Type*} [DecidableEq ι]

def State.put (s : State ι) (i : ι) (p : Process) : State ι :=
  { s with processes := Function.update s.processes i p }

def State.point (s : State ι) (name : String) (o : Option Nat) : State ι :=
  { s with names := Function.update s.names (objectName name) o }

/-- `car_init`, the threads, and `car_kill` once they are joined. A call of `car_init` that fails
leaves `car->data` NULL or MAP_FAILED, and `main` writes through it. -/
def car (s : State ι) (i : ι) (name : String) : CarAt → Call → Option (State ι)
  | .shmUnlink, .shmUnlink => some ((s.point name none).put i (.car name .shmOpen))
  | .shmOpen, .shmOpen true =>
    match s.names (objectName name) with
    | some fd => some (s.put i (.car name (.ftruncate fd)))
    | none =>
      some ({ s.point name (some s.created) with created := s.created + 1 }.put i
        (.car name (.ftruncate s.created)))
  | .ftruncate fd, .ftruncate true => some (s.put i (.car name (.mmap fd)))
  | .mmap fd, .mmap true => some (s.put i (.car name (.running fd)))
  | .running _, .munmap => some (s.put i (.car name .shmUnlinkAgain))
  | .shmUnlinkAgain, .shmUnlink => some ((s.point name none).put i (.car name .ended))
  | .shmOpen, .shmOpen false | .ftruncate _, .ftruncate false | .mmap _, .mmap false
  | _, .exit => some (s.put i (.car name .ended))
  | _, _ => none

/-- Without `O_CREAT`, `shm_open` needs an object. -/
def tool (s : State ι) (i : ι) (name : String) : ToolAt → Call → Option (State ι)
  | .shmOpen, .shmOpen true =>
    (s.names (objectName name)).map fun fd => s.put i (.tool name (.mmap fd))
  | .mmap fd, .mmap true => some (s.put i (.tool name (.mapped fd)))
  | .shmOpen, .shmOpen false | .mmap _, .mmap false
  | _, .exit => some (s.put i (.tool name .ended))
  | _, _ => none

def callStep (l : ι × Call) (s : State ι) : Option (State ι) :=
  match s.processes l.1 with
  | .car name pt => car s l.1 name pt l.2
  | .tool name pt => tool s l.1 name pt l.2

def Step (s : State ι) (l : ι × Call) (t : State ι) : Prop := callStep l s = some t

end Programs

/-- No process has started. There may be objects of cars that have been killed. -/
def start {ι : Type*} (left : List String) (isCar : ι → Bool) (name : ι → String) : State ι where
  names n := if n ∈ left then some (left.idxOf n) else none
  created := left.length
  processes i := if isCar i then .car (name i) .shmUnlink else .tool (name i) .shmOpen

/-! ## Owners and clients -/

def CarAt.object : CarAt → Option Nat
  | .ftruncate o | .mmap o | .running o => some o
  | .shmUnlink | .shmOpen | .shmUnlinkAgain | .ended => none

def ToolAt.object : ToolAt → Option Nat
  | .mmap o | .mapped o => some o
  | .shmOpen | .ended => none

def Process.party : Process → Party String
  | .car name pt => ⟨objectName name, true, pt.object⟩
  | .tool name pt => ⟨objectName name, false, pt.object⟩

/-- A car owns its object, a tool is a client of it. -/
def State.shared {ι : Type*} (s : State ι) : Namespace ι String where
  names := s.names
  created := s.created
  parties i := (s.processes i).party

/-- What the call is to the name. -/
def Process.act : Process → Call → Option Act
  | .car _ .shmUnlink, .shmUnlink | .car _ .shmUnlinkAgain, .shmUnlink => some .unlink
  | .car _ .shmOpen, .shmOpen true => some .create
  | .tool _ .shmOpen, .shmOpen true => some .attach
  | _, .ftruncate true | _, .mmap true => none
  | _, _ => some .drop

/-- The condition on a call: a car unlinks and opens its name when no other car of the name has its
record, and opens it when no tool of the name has another object than it leads to. -/
def Clear {ι : Type*} (s : State ι) (l : ι × Call) : Prop :=
  match s.processes l.1, l.2 with
  | .car _ .shmUnlink, .shmUnlink | .car _ .shmUnlinkAgain, .shmUnlink => s.shared.Unowned l.1
  | .car _ .shmOpen, .shmOpen true => s.shared.Unowned l.1 ∧ s.shared.UpToDate l.1
  | _, _ => True

section Shared

variable {ι : Type*} [DecidableEq ι] {s t : State ι} {i : ι} {name : String} {pt pt' : CarAt}
  {c : Call} {l : ι × Call}

theorem shared_put {p : Process} (hname : p.party.name = (s.processes i).party.name)
    (howner : p.party.owner = (s.processes i).party.owner) :
    (s.put i p).shared = s.shared.give i p.party.object := by
  have hparty : p.party =
      ⟨(s.processes i).party.name, (s.processes i).party.owner, p.party.object⟩ := by
    rw [← hname, ← howner]
  unfold State.shared Namespace.give
  refine congrArg (Namespace.mk s.names s.created) (funext fun j => ?_)
  by_cases hji : j = i
  · subst hji
    simp only [State.put, Function.update_self]
    exact hparty
  · simp [State.put, hji]

theorem shared_put_car (hp : s.processes i = .car name pt) (pt' : CarAt) :
    (s.put i (.car name pt')).shared = s.shared.give i pt'.object := by
  apply shared_put <;> rw [hp] <;> rfl

theorem shared_put_tool {pt : ToolAt} (hp : s.processes i = .tool name pt) (pt' : ToolAt) :
    (s.put i (.tool name pt')).shared = s.shared.give i pt'.object := by
  apply shared_put <;> rw [hp] <;> rfl

/-- What leaves the object where it is. -/
theorem give_self {o : Option Nat} (h : (s.processes i).party.object = o) :
    s.shared.give i o = s.shared := by
  subst h
  exact congrArg (Namespace.mk s.names s.created) (Function.update_eq_self i s.shared.parties)

/-- A car's unlink, before it has an object and after. -/
theorem unlink_shared (hp : s.processes i = .car name pt) (hpt : pt.object = none)
    (hpt' : pt'.object = none) :
    Namespace.Step s.shared (i, .unlink) ((s.point name none).put i (.car name pt')).shared := by
  have hparty : s.shared.parties i = ⟨objectName name, true, none⟩ := by
    show (s.processes i).party = _
    rw [hp, ← hpt]
    rfl
  rw [shared_put_car (s := s.point name none) hp, hpt', give_self (s := s.point name none)]
  · have hst := Namespace.Step.unlink (s := s.shared) (i := i) (by rw [hparty])
    rw [hparty] at hst
    exact hst
  · exact congrArg Party.object hparty

/-- Its `shm_open` finds an object of the name or creates one. -/
theorem create_shared (hp : s.processes i = .car name .shmOpen)
    (hst : car s i name .shmOpen (.shmOpen true) = some t) :
    Namespace.Step s.shared (i, .create) t.shared := by
  have hparty : s.shared.parties i = ⟨objectName name, true, none⟩ := by
    show (s.processes i).party = _
    rw [hp]
    rfl
  have howner : (s.shared.parties i).owner = true := by rw [hparty]
  simp only [car] at hst
  split at hst
  · rename_i fd hname
    cases hst
    rw [shared_put_car hp]
    apply Namespace.Step.opened howner
    rw [hparty]
    exact hname
  · rename_i hname
    cases hst
    rw [shared_put_car (s := { s.point name (some s.created) with created := s.created + 1 }) hp]
    have hcreate := Namespace.Step.create howner (by rw [hparty]; exact hname)
    unfold Namespace.make at hcreate
    rw [hparty] at hcreate
    exact hcreate

theorem car_shared (hp : s.processes i = .car name pt) (hst : car s i name pt c = some t) :
    match (Process.car name pt).act c with
    | none => t.shared = s.shared
    | some a => Namespace.Step s.shared (i, a) t.shared := by
  have hobject : (s.processes i).party.object = pt.object := by
    rw [hp]
    rfl
  have hdrop : ∀ pt' : CarAt, pt'.object = none →
      Namespace.Step s.shared (i, .drop) (s.put i (.car name pt')).shared := by
    intro pt' hpt'
    rw [shared_put_car hp, hpt']
    exact .drop i
  unfold car at hst
  split at hst
  · cases hst
    exact unlink_shared hp rfl rfl
  · exact create_shared hp hst
  · cases hst
    exact (shared_put_car hp _).trans (give_self hobject)
  · cases hst
    exact (shared_put_car hp _).trans (give_self hobject)
  · cases hst
    exact hdrop _ rfl
  · cases hst
    exact unlink_shared hp rfl rfl
  · cases hst
    exact hdrop _ rfl
  · cases hst
    exact hdrop _ rfl
  · cases hst
    exact hdrop _ rfl
  · cases hst
    cases pt
    all_goals exact hdrop _ rfl
  · cases hst

theorem tool_shared {pt : ToolAt} (hp : s.processes i = .tool name pt)
    (hst : tool s i name pt c = some t) :
    match (Process.tool name pt).act c with
    | none => t.shared = s.shared
    | some a => Namespace.Step s.shared (i, a) t.shared := by
  have hparty : s.shared.parties i = ⟨objectName name, false, pt.object⟩ := by
    show (s.processes i).party = _
    rw [hp]
    rfl
  have hended : Namespace.Step s.shared (i, .drop) (s.put i (.tool name .ended)).shared := by
    rw [shared_put_tool hp]
    exact .drop i
  unfold tool at hst
  split at hst
  · obtain ⟨fd, hname, rfl⟩ := Option.map_eq_some_iff.mp hst
    rw [shared_put_tool hp]
    apply Namespace.Step.attach
    · rw [hparty]
    · rw [hparty]
      exact hname
  · cases hst
    exact (shared_put_tool hp _).trans (give_self (congrArg Party.object hparty))
  · cases hst
    exact hended
  · cases hst
    exact hended
  · cases hst
    cases pt
    all_goals exact hended
  · cases hst

/-- **Every call is a step of owners and clients**, or none. -/
theorem step_shared (hst : Step s l t) :
    match (s.processes l.1).act l.2 with
    | none => t.shared = s.shared
    | some a => Namespace.Step s.shared (l.1, a) t.shared := by
  obtain ⟨i, c⟩ := l
  unfold Step callStep at hst
  dsimp only at hst ⊢
  split at hst
  · rename_i name pt hp
    rw [hp]
    exact car_shared hp hst
  · rename_i name pt hp
    rw [hp]
    exact tool_shared hp hst

omit [DecidableEq ι] in
/-- A car that is to unlink has no object itself. -/
theorem unowned_iff_apart (hp : s.processes i = .car name pt) (hpt : pt.object = none) :
    s.shared.Unowned i ↔ s.shared.Apart (i, .unlink) := by
  have hnot : ∀ o, ¬ s.shared.Owns i o := by
    rintro o ⟨_, hobject⟩
    have hnone : (s.shared.parties i).object = none := by
      show (s.processes i).party.object = none
      rw [hp]
      exact hpt
    rw [hnone] at hobject
    cases hobject
  constructor
  · intro hunowned j o hj heq
    have hji := hunowned j o hj heq
    subst hji
    exact hnot o hj
  · intro hapart j o hj heq
    exact absurd heq (hapart j o hj)

omit [DecidableEq ι] in
/-- The condition on a call is that on the step it is. -/
theorem clear_iff (s : State ι) (l : ι × Call) :
    Clear s l ↔ ∀ a, (s.processes l.1).act l.2 = some a → s.shared.Apart (l.1, a) := by
  obtain ⟨i, c⟩ := l
  unfold Clear
  dsimp only
  split
  · rename_i hp
    simp only [hp, Process.act, Option.some.injEq, forall_eq']
    exact unowned_iff_apart hp rfl
  · rename_i hp
    simp only [hp, Process.act, Option.some.injEq, forall_eq']
    exact unowned_iff_apart hp rfl
  · rename_i hp
    simp only [hp, Process.act, Option.some.injEq, forall_eq']
    exact Iff.rfl
  · -- a tool's call, or one that lets go of the object
    rename_i hunlink hagain hopen
    refine iff_of_true trivial fun a ha => ?_
    unfold Process.act at ha
    split at ha
    all_goals cases ha
    · exact (hunlink _ (by assumption) rfl).elim
    · exact (hagain _ (by assumption) rfl).elim
    · exact (hopen _ (by assumption) rfl).elim
    · trivial
    · trivial

end Shared

/-! ## Every run -/

section Runs

variable {ι : Type*} [DecidableEq ι] {left : List String} {isCar : ι → Bool} {name : ι → String}

omit [DecidableEq ι] in
theorem object_start (i : ι) : ((start left isCar name).shared.parties i).object = none := by
  show ((start left isCar name).processes i).party.object = none
  unfold start
  dsimp only
  split <;> rfl

omit [DecidableEq ι] in
theorem sound_start : (start left isCar name).shared.Sound := by
  have hnames : ∀ n o, (start left isCar name).shared.names n = some o →
      n ∈ left ∧ left.idxOf n = o := by
    intro n o hn
    simpa [State.shared, start] using hn
  refine ⟨fun n m o hn hm => ?_, fun n o hn => ?_, fun i o hi => ?_⟩
  · obtain ⟨hmem, hn⟩ := hnames n o hn
    exact (List.idxOf_inj hmem).mp (hn.trans (hnames m o hm).2.symm)
  · obtain ⟨hmem, rfl⟩ := hnames n o hn
    exact List.idxOf_lt_length_of_mem hmem
  · rw [object_start] at hi
    cases hi

omit [DecidableEq ι] in
theorem agree_start : (start left isCar name).shared.Agree := by
  have hnot : ∀ i o, ¬ (start left isCar name).shared.Owns i o := by
    intro i o hi
    have hobject := hi.2
    rw [object_start] at hobject
    cases hobject
  exact ⟨fun i o hi => absurd hi (hnot i o), fun i _ o hi => absurd hi (hnot i o),
    fun i _ o _ hi => absurd hi (hnot i o)⟩

/-- **Every name leads to its car**, throughout a run, exactly if every call of the run is clear. -/
theorem agree_iff {tr : List ((ι × Call) × State ι)}
    (h : Trace Step (start left isCar name) tr) :
    AllStates (fun s => s.shared.Agree) (start left isCar name) tr ↔
      AllSteps (fun s l _ => Clear s l) (start left isCar name) tr := by
  refine h.allStates_iff (A := fun s => s.shared.Sound) ?_ ?_ sound_start agree_start
  · intro s l t hsound hst
    have hstep := step_shared hst
    split at hstep
    · rw [hstep]
      exact hsound
    · exact hsound.step hstep
  · intro s l t hsound hagree hst
    rw [clear_iff]
    have hstep := step_shared hst
    split at hstep
    · rename_i hact
      rw [hstep, hact]
      exact iff_of_true hagree nofun
    · rename_i a hact
      rw [hact, agree_step_iff hsound hagree hstep]
      simp

end Runs

/-- Car `A` over what an earlier one has left, with an internal control while it is there. -/
def visit : List (Bool × Call) :=
  [(true, .shmUnlink), (true, .shmOpen true), (true, .ftruncate true), (true, .mmap true),
    (false, .shmOpen true), (false, .mmap true), (true, .munmap), (true, .shmUnlink)]

def visited : List ((Bool × Call) × State Bool) :=
  follow callStep (start ["carA"] id fun _ => "A") visit

theorem agree_iff_visit :
    AllStates (fun s => s.shared.Agree) (start ["carA"] id fun _ => "A") visited := by
  refine (agree_iff (follow_trace callStep _ visit)).mpr ?_
  -- there is one car, and the tool has nothing when it opens
  refine ⟨?_, ⟨?_, ?_⟩, trivial, trivial, trivial, trivial, trivial, ?_, trivial⟩
  · exact unowned_of_only (by decide)
  · exact unowned_of_only (by decide)
  · exact upToDate_of_none (by decide)
  · exact unowned_of_only (by decide)

end Names
end Car
end Cab403
