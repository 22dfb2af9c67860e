import Cab403.Controller.Register
import Cab403.Lib.Linked

/-!
# The list of active cars

`link_car_node` walks the list from `car_head` for a node a new car can use. It locks every node it
comes to and unlocks the ones it passes, but of its three ways out only that one unlocks: a node
that is not in use is returned locked, and so is the tail left when a new node goes behind it.
Nobody unlocks them later. So the first registration leaves `car_head` locked, and the second never
returns (`second_blocks`); a list of any length whose nodes are all in use takes one more
registration and no second one (`registers_full`).

A call that waits for a mutex that is held never returns; that is no result. A new node is where
nothing was before, and initialised. The node that is returned has no name
(`linkCarNode_name`); where connect_car copies one, here it is given a place to be copied to.
-/

namespace Cab403
namespace Controller

open Function Lib

abbrev Heap := Addr → Option CarRegister

/-- What of a register the list turns on. -/
structure Use where
  locked : Bool
  named : Bool
  deriving DecidableEq, Repr

def CarRegister.use (car : CarRegister) : Use := ⟨car.locked, car.name.isSome⟩

def Heap.cell (h : Heap) (a : Addr) : Option (Use × Option Addr) :=
  (h a).map fun car => (car.use, car.next)

/-- `car_register_init` -/
def carRegisterInit (car : CarRegister) : CarRegister :=
  { car with locked := false, name := none, next := none }

/-- `link_car_node`, with what `malloc` would return should a new node be needed. -/
def linkCarNode (new : Addr) (raw : CarRegister) : Nat → Addr → Heap → Option (Addr × Heap)
  | 0, _, _ => none
  | fuel + 1, node, h => do
    let car ← h node
    if car.locked then none
    else if car.name.isNone then some (node, update h node (some { car with locked := true }))
    else match car.next with
      | none =>
        let h := update h new (some (carRegisterInit raw))
        some (new, update h node (some { car with locked := true, next := some new }))
      | some next =>
        linkCarNode new raw fuel next (update h node (some { car with locked := false }))

structure Registration where
  name : Storage
  new : Addr
  raw : CarRegister

/-- `connect_car`, as far as the name. -/
def register (fuel : Nat) (head : Addr) (r : Registration) (h : Heap) : Option (Addr × Heap) := do
  let (node, h) ← linkCarNode r.new r.raw fuel head h
  let car ← h node
  return (node, update h node (some { car with name := some r.name }))

def registers (fuel : Nat) (head : Addr) : List Registration → Heap → Option (List Addr × Heap)
  | [], h => some ([], h)
  | r :: rest, h => do
    let (node, h) ← register fuel head r h
    let (nodes, h) ← registers fuel head rest h
    return (node :: nodes, h)

/-- `main` leaves one node, initialised and not in use. -/
def initially (head : Addr) (raw : CarRegister) : Heap :=
  update (fun _ => none) head (some (carRegisterInit raw))

/-- What a sequence of registrations should leave: the nodes it returned, each of them once, are
the list, and none is locked. -/
structure Usable (head : Addr) (nodes : List Addr) (h : Heap) : Prop where
  distinct : nodes.Nodup
  list : ∃ l, Linked h.cell (some head) l ∧ ∀ a, a ∈ l.map Prod.fst ↔ a ∈ nodes
  unlocked : ∀ a car, h a = some car → car.locked = false

variable {h : Heap} {new a b head : Addr} {raw car : CarRegister} {fuel : Nat}

/-! ## One call -/

theorem linkCarNode_locked (hcar : h a = some car) (hlocked : car.locked = true) :
    linkCarNode new raw fuel a h = none := by
  cases fuel with
  | zero => rfl
  | succ fuel => simp [linkCarNode, hcar, hlocked]

theorem linkCarNode_unused (hcar : h a = some car) (hlocked : car.locked = false)
    (hname : car.name = none) :
    linkCarNode new raw (fuel + 1) a h =
      some (a, update h a (some { car with locked := true })) := by
  simp [linkCarNode, hcar, hlocked, hname]

theorem linkCarNode_tail (hcar : h a = some car) (hlocked : car.locked = false)
    (hname : car.name.isSome = true) (hnext : car.next = none) :
    linkCarNode new raw (fuel + 1) a h =
      some (new, update (update h new (some (carRegisterInit raw))) a
        (some { car with locked := true, next := some new })) := by
  obtain ⟨storage, hstorage⟩ := Option.isSome_iff_exists.mp hname
  simp [linkCarNode, hcar, hlocked, hstorage, hnext]

/-- A node that is passed is left as it was. -/
theorem linkCarNode_pass (hcar : h a = some car) (hlocked : car.locked = false)
    (hname : car.name.isSome = true) (hnext : car.next = some b) :
    linkCarNode new raw (fuel + 1) a h = linkCarNode new raw fuel b h := by
  obtain ⟨storage, hstorage⟩ := Option.isSome_iff_exists.mp hname
  have hsame : update h a (some { car with locked := false }) = h := by
    rw [← hlocked, ← hcar]
    exact update_eq_self a h
  simp only [linkCarNode, hcar, hlocked, hnext, Option.bind_eq_bind, Option.bind_some, hstorage,
    Option.isNone_some, Bool.false_eq_true, if_false]
  rw [← hstorage, ← hnext, hsame]

/-- **The three ways out** of a call that returns. -/
theorem linkCarNode_cases {result : Addr × Heap}
    (hrun : linkCarNode new raw (fuel + 1) a h = some result) :
    ∃ car, h a = some car ∧ car.locked = false ∧
      (car.name = none ∨
        car.name.isSome = true ∧ car.next = none ∧ result = (new,
          update (update h new (some (carRegisterInit raw))) a
            (some { car with locked := true, next := some new })) ∨
        ∃ b, car.name.isSome = true ∧ car.next = some b ∧
          linkCarNode new raw fuel b h = some result) := by
  cases hcar : h a with
  | none => simp [linkCarNode, hcar] at hrun
  | some car =>
    refine ⟨car, rfl, ?_⟩
    cases hlocked : car.locked with
    | true =>
      rw [linkCarNode_locked hcar hlocked] at hrun
      cases hrun
    | false =>
      refine ⟨rfl, ?_⟩
      by_cases hname : car.name = none
      · exact .inl hname
      have hsome : car.name.isSome = true := Option.isSome_iff_ne_none.mpr hname
      cases hnext : car.next with
      | none =>
        rw [linkCarNode_tail hcar hlocked hsome hnext] at hrun
        exact .inr (.inl ⟨hsome, rfl, (Option.some.inj hrun).symm⟩)
      | some b =>
        rw [linkCarNode_pass hcar hlocked hsome hnext] at hrun
        exact .inr (.inr ⟨b, hsome, rfl, hrun⟩)

/-- **The node to be used has no name**: `strcpy` is handed a `NULL`. -/
theorem linkCarNode_name {node : Addr} {h' : Heap} (hfresh : h new = none)
    (hrun : linkCarNode new raw fuel a h = some (node, h')) :
    ∃ car, h' node = some car ∧ car.name = none := by
  induction fuel generalizing a with
  | zero => cases hrun
  | succ fuel ih =>
    obtain ⟨car, hcar, hlocked, hunused | ⟨_, _, hresult⟩ | ⟨b, _, _, hrest⟩⟩ :=
      linkCarNode_cases hrun
    · rw [linkCarNode_unused hcar hlocked hunused] at hrun
      cases hrun
      exact ⟨_, update_self .., hunused⟩
    · cases hresult
      have hne : new ≠ a := by
        intro heq
        rw [heq, hcar] at hfresh
        cases hfresh
      refine ⟨carRegisterInit raw, ?_, rfl⟩
      rw [update_of_ne hne, update_self]
    · exact ih hrest

/-- So nothing is ever stored of a car, whatever it sends. -/
theorem connectCar_of_linkCarNode {node : Addr} {h' : Heap} (hfresh : h new = none)
    (hrun : linkCarNode new raw fuel a h = some (node, h')) :
    ∃ car, h' node = some car ∧
      ∀ buffer updates, Register.connectCar buffer updates car = none := by
  obtain ⟨car, hcar, hname⟩ := linkCarNode_name hfresh hrun
  exact ⟨car, hcar, Register.connectCar_of_null hname⟩

/-- More fuel changes nothing. -/
theorem linkCarNode_mono {result : Addr × Heap} (n : Nat)
    (hrun : linkCarNode new raw fuel a h = some result) :
    linkCarNode new raw (fuel + n) a h = some result := by
  induction fuel generalizing a with
  | zero => cases hrun
  | succ fuel ih =>
    rw [Nat.add_right_comm]
    obtain ⟨car, hcar, hlocked, hunused | ⟨hname, hnext, hresult⟩ | ⟨b, hname, hnext, hrest⟩⟩ :=
      linkCarNode_cases hrun
    · rw [linkCarNode_unused hcar hlocked hunused] at hrun ⊢
      exact hrun
    · rw [linkCarNode_tail hcar hlocked hname hnext, hresult]
    · rw [linkCarNode_pass hcar hlocked hname hnext]
      exact ih hrest

/-! ## A list in use -/

def idle : Use := ⟨false, true⟩

theorem Heap.car_of_cell {u : Use} {next : Option Addr} (hcell : h.cell a = some (u, next)) :
    ∃ car, h a = some car ∧ car.use = u ∧ car.next = next := by
  obtain ⟨car, hcar, heq⟩ := Option.map_eq_some_iff.mp hcell
  exact ⟨car, hcar, (Prod.mk.inj heq).1, (Prod.mk.inj heq).2⟩

theorem Heap.cell_update (h : Heap) (a : Addr) (car : CarRegister) :
    Heap.cell (update h a (some car)) = update h.cell a (some (car.use, car.next)) := by
  funext x
  by_cases hx : x = a
  · subst hx
    simp [Heap.cell]
  · simp [Heap.cell, update_of_ne hx]

/-- Nodes in use are passed, and left as they were. -/
theorem linkCarNode_front {front : List (Addr × Use)}
    (hfront : Segment h.cell (some a) front (some b)) (hidle : ∀ e ∈ front, e.2 = idle) :
    linkCarNode new raw (fuel + front.length) a h = linkCarNode new raw fuel b h := by
  induction front generalizing a with
  | nil =>
    obtain rfl : a = b := Option.some.inj hfront
    rfl
  | cons e front ih =>
    obtain ⟨x, u⟩ := e
    obtain ⟨hx, next, hcell, hrest⟩ := hfront
    obtain rfl : a = x := Option.some.inj hx
    obtain rfl : u = idle := hidle _ List.mem_cons_self
    obtain ⟨car, hcar, huse, hnext⟩ := Heap.car_of_cell hcell
    obtain ⟨hlocked, hname⟩ := Use.mk.inj huse
    cases next with
    | none =>
      cases front with
      | nil => cases hrest
      | cons e front => cases hrest.1
    | some c =>
      rw [List.length_cons, ← Nat.add_assoc, linkCarNode_pass hcar hlocked hname hnext]
      exact ih hrest fun e he => hidle e (List.mem_cons_of_mem _ he)

/-- A locked node behind nodes in use is waited for. -/
theorem linkCarNode_blocked {front : List (Addr × Use)}
    (hfront : Segment h.cell (some a) front (some b)) (hidle : ∀ e ∈ front, e.2 = idle)
    (hcar : h b = some car) (hlocked : car.locked = true) :
    linkCarNode new raw fuel a h = none := by
  cases hrun : linkCarNode new raw fuel a h with
  | none => rfl
  | some result =>
    have hmore := linkCarNode_mono front.length hrun
    rw [linkCarNode_front hfront hidle, linkCarNode_locked hcar hlocked] at hmore
    cases hmore

/-- **The new node goes behind the tail, and the tail stays locked.** -/
theorem linkCarNode_full {front : List (Addr × Use)} (fuel : Nat) (raw : CarRegister)
    (hlist : Linked h.cell (some a) (front ++ [(b, idle)])) (hidle : ∀ e ∈ front, e.2 = idle)
    (hfresh : h new = none) :
    ∃ h', linkCarNode new raw (fuel + 1 + front.length) a h = some (new, h') ∧
      Linked h'.cell (some a) (front ++ [(b, ⟨true, true⟩), (new, ⟨false, false⟩)]) := by
  obtain ⟨mid, hfront, hmid, next, hcell, hend⟩ := Segment.append_iff.mp hlist
  obtain rfl : mid = some b := hmid
  obtain rfl : next = none := hend
  obtain ⟨car, hcar, huse, hnext⟩ := Heap.car_of_cell hcell
  obtain ⟨hlocked, hname⟩ := Use.mk.inj huse
  have hnodup := hlist.nodup
  rw [List.map_append, List.nodup_append] at hnodup
  have hb : b ∉ front.map Prod.fst := by
    intro hmem
    exact hnodup.2.2 b hmem b List.mem_cons_self rfl
  have hnew : new ∉ (front ++ [(b, idle)]).map Prod.fst := by
    apply hlist.not_mem_of_none
    rw [Heap.cell, hfresh]
    rfl
  rw [List.map_append, List.mem_append, not_or] at hnew
  have hne : new ≠ b := by
    intro heq
    exact hnew.2 (by simp [heq])
  refine ⟨_, (linkCarNode_front hfront hidle).trans
    (linkCarNode_tail hcar hlocked hname hnext), ?_⟩
  rw [Heap.cell_update, Heap.cell_update]
  refine Segment.append_iff.mpr ⟨some b, ?_, rfl, some new, ?_, rfl, none, ?_, rfl⟩
  · exact (hfront.update_of_not_mem hnew.1 _).update_of_not_mem hb _
  · simp [CarRegister.use, hname]
  · simp [update_of_ne hne, carRegisterInit, CarRegister.use]

/-! ## The registrations -/

theorem registers_eq_none {r : Registration} {rest : List Registration}
    (hwait : linkCarNode r.new r.raw fuel head h = none) :
    registers fuel head (r :: rest) h = none := by
  simp [registers, register, hwait]

theorem register_initially (r : Registration) :
    register (fuel + 1) head r (initially head raw) =
      some (head, update (initially head raw) head
        (some { carRegisterInit raw with locked := true, name := some r.name })) := by
  have hcar : initially head raw head = some (carRegisterInit raw) := update_self ..
  simp [register, linkCarNode_unused hcar rfl rfl]

/-- **The second registration waits** for the mutex the first one left locked. -/
theorem second_blocks (r r' : Registration) (rest : List Registration) :
    registers fuel head (r :: r' :: rest) (initially head raw) = none := by
  cases fuel with
  | zero => rfl
  | succ fuel =>
    have hlocked : linkCarNode r'.new r'.raw (fuel + 1) head (update (initially head raw) head
        (some { carRegisterInit raw with locked := true, name := some r.name })) = none :=
      linkCarNode_locked (update_self ..) rfl
    rw [registers, register_initially]
    simp only [Option.bind_eq_bind, Option.bind_some, registers_eq_none hlocked, Option.bind_none]

/-- A list in use takes one registration, whatever its length. -/
theorem registers_full {front : List (Addr × Use)} {r r' : Registration}
    {rest : List Registration} (hlist : Linked h.cell (some head) (front ++ [(b, idle)]))
    (hidle : ∀ e ∈ front, e.2 = idle) (hfresh : h r.new = none) :
    registers fuel head (r :: r' :: rest) h = none := by
  cases hrun : linkCarNode r.new r.raw fuel head h with
  | none => exact registers_eq_none hrun
  | some result =>
    obtain ⟨h', hfull, hlist'⟩ := linkCarNode_full fuel r.raw hlist hidle hfresh
    have hmore := linkCarNode_mono (1 + front.length) hrun
    rw [← Nat.add_assoc, hfull] at hmore
    obtain rfl := Option.some.inj hmore
    obtain ⟨mid, hfront, hmid, next, hcell, hnext, last, hnew, _⟩ := Segment.append_iff.mp hlist'
    obtain rfl : mid = some b := hmid
    obtain rfl : next = some r.new := hnext
    obtain ⟨car, hcar, huse, _⟩ := Heap.car_of_cell hcell
    obtain ⟨hlocked, _⟩ := Use.mk.inj huse
    obtain ⟨node, hnode, _, _⟩ := Heap.car_of_cell hnew
    have hnodup := hlist'.nodup
    rw [List.map_append, List.nodup_append] at hnodup
    obtain ⟨_, hpair, hdisj⟩ := hnodup
    have hb : b ≠ r.new := by
      intro heq
      simp [heq] at hpair
    have hout : r.new ∉ front.map Prod.fst := by
      intro hmem
      exact hdisj r.new hmem r.new (by simp) rfl
    -- with a name written behind it, the old tail is still locked and still on the way
    let named := update h' r.new (some { node with name := some r.name })
    have hway : Segment (Heap.cell named) (some head) front (some b) := by
      rw [Heap.cell_update]
      exact hfront.update_of_not_mem hout _
    have hcar' : named b = some car := by
      rw [← hcar]
      exact update_of_ne hb _ _
    have hwait : linkCarNode r'.new r'.raw fuel head named = none :=
      linkCarNode_blocked hway hidle hcar' hlocked
    simp [registers, register, hrun, hnode, named, hwait]

theorem not_usable_cons {r : Registration} {rest : List Registration} {nodes : List Addr}
    (hrun : registers fuel head (r :: rest) (initially head raw) = some (nodes, h)) :
    ¬ Usable head nodes h := by
  intro husable
  cases rest with
  | cons r' rest =>
    rw [second_blocks] at hrun
    cases hrun
  | nil =>
    cases fuel with
    | zero => cases hrun
    | succ fuel =>
      rw [registers, register_initially] at hrun
      cases hrun
      have hopen := husable.unlocked head _ (update_self ..)
      cases hopen

/-- **No sequence of registrations goes as it should.** One leaves its node locked, and from the
second on none returns. Where there is none at all the list has the node that `main` initialises,
which nobody was given. -/
theorem registers_never_usable (head : Addr) (raw : CarRegister) (rs : List Registration) :
    ¬ ∃ fuel nodes h, registers fuel head rs (initially head raw) = some (nodes, h) ∧
      Usable head nodes h := by
  intro hrun
  obtain ⟨fuel, nodes, h, hrun, husable⟩ := hrun
  cases rs with
  | cons r rest => exact not_usable_cons hrun husable
  | nil =>
    cases hrun
    obtain ⟨l, hlist, hmem⟩ := husable.list
    obtain ⟨u, rest, rfl⟩ := hlist.exists_cons
    exact List.not_mem_nil ((hmem head).mp List.mem_cons_self)

/-- The registration of one car, `Alpha`. -/
def alpha : Registration := ⟨⟨16, ascii "Alpha"⟩, 1, Register.roomy⟩

theorem not_usable_alpha :
    ¬ ∃ fuel nodes h, registers fuel 0 [alpha] (initially 0 Register.roomy) = some (nodes, h) ∧
      Usable 0 nodes h := by
  intro hrun
  obtain ⟨fuel, nodes, h, hrun, husable⟩ := hrun
  exact not_usable_cons hrun husable

end Controller
end Cab403
