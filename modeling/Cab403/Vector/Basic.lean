import Cab403.Lib.Double
import Mathlib.Algebra.Group.Nat.Defs
import Mathlib.Algebra.Ring.Int.Defs
import Mathlib.Logic.Function.Basic

/-!
# `dbl_vector` — the growing array, as `A1/Vector/dbl_vector.c` writes it

The bottom layer: each `dv_*` function, under its own name, on the C struct's own three
fields. `double` is a type variable `α`, because nothing here computes with the values; the
only one the file makes itself, `NAN`, is a parameter of `dvLast`.

Four facts about C are modelled rather than assumed away, because the functions lean on them:

* **The block.** `data` points to a block of so many cells, or is `NULL`. A cell holds `none`
  until something is stored in it, so stale and indeterminate cells can be read and moved
  like any other.
* **`realloc`** keeps the old cells that fit, and is given a byte count computed modulo
  `2 ^ 64`. Whether a call is granted is an argument.
* **The loop counters are `int`** while `size` and `pos` are `size_t`: narrowing at the
  initialisation, widening in the comparison, and no value outside `int`'s range.
* **Undefined behaviour** (a counter past `INT_MAX`, an access through `NULL` or outside the
  block) ends the function without a result, so the functions that can meet it return an
  `Option`.

Two things are the machine's (`Machine`), an inferred argument of what depends on them: what the
product with `DV_GROWTH_FACTOR` comes to, and whether an access outside the block is what it is in
C, or one that leaves the cells of the block alone. `Machine.real` is the one the file is compiled
for; some results are about any machine on which the second holds, or the product is exact.

Every element access is also logged on the vector it is made through. The log is ghost
state: no function reads it.
-/

namespace Cab403
namespace DblVec

open Lib

variable {α : Type}

/-! ## The machine -/

class Machine where
  /-- `capacity * DV_GROWTH_FACTOR`, truncated to a `size_t`. -/
  grown : Nat → Nat
  grown_le : ∀ capacity, grown capacity ≤ 2 * capacity
  le_grown : ∀ capacity, 7 < capacity → 8 * capacity ≤ 7 * grown capacity
  /-- An access outside a block leaves the cells of the block as they are, and does no more. -/
  harmless : Bool

/-- `1.25` is a `double`, so the capacity is rounded to one and the product again. A quarter of a
number has as many significant bits as the number. -/
def grownDouble (capacity : Nat) : Nat := roundTo 53 (5 * roundTo 53 capacity) / 4

theorem grownDouble_le (capacity : Nat) : grownDouble capacity ≤ 2 * capacity := by
  have hconverted := roundTo_le (show 0 < 53 by decide) capacity
  have hproduct := roundTo_le (show 0 < 53 by decide) (5 * roundTo 53 capacity)
  unfold grownDouble
  omega

theorem le_grownDouble (capacity : Nat) (h : 7 < capacity) :
    8 * capacity ≤ 7 * grownDouble capacity := by
  have hconverted := le_roundTo (show 0 < 53 by decide) capacity
  have hproduct := le_roundTo (show 0 < 53 by decide) (5 * roundTo 53 capacity)
  unfold grownDouble
  omega

/-- The product is exact for every capacity whose fivefold has 53 bits. -/
theorem grownDouble_of_lt {capacity : Nat} (h : 5 * capacity < 2 ^ 53) :
    grownDouble capacity = 5 * capacity / 4 := by
  have hconverted : roundTo 53 capacity = capacity := roundTo_of_lt (by decide) (by omega)
  rw [grownDouble, hconverted, roundTo_of_lt (by decide) h]

/-- For the next capacity it is not. -/
example : grownDouble 1801439850948199 = 2251799813685249 ∧
    5 * 1801439850948199 / 4 = 2251799813685248 := by decide

/-- The machine as it is. -/
instance Machine.real : Machine := ⟨grownDouble, grownDouble_le, le_grownDouble, false⟩

/-- As it is but for stores that miss the block. -/
@[reducible]
def Machine.lenient : Machine := { Machine.real with harmless := true }

/-- With a product that is not rounded. -/
@[reducible]
def Machine.exact : Machine where
  grown capacity := 5 * capacity / 4
  grown_le := fun _ => by omega
  le_grown := fun _ _ => by omega
  harmless := true

variable [Machine]

/-! ## `int` and `size_t` -/

/-- The `size_t` an `int` is converted to before it is compared with one. -/
def sizeT (i : Int) : Nat := (i % 2 ^ 64).toNat

/-- The `int` a `size_t` is narrowed to. -/
def narrow (n : Nat) : Int := Int.bmod n (2 ^ 32)

/-- The value of a signed expression, where it has one. -/
def asInt (i : Int) : Option Int := if -2 ^ 31 ≤ i ∧ i < 2 ^ 31 then some i else none

/-- More iterations than a loop over an `int` that only moves one way can make. -/
def intSteps : Nat := 2 ^ 32

/-! ## Blocks -/

/-- A block of `len` cells of one `double` each. -/
structure Block (α : Type) where
  len : Nat
  cell : Nat → Option α

/-- `realloc(old, bytes)`: the cells that fit are kept, the others hold nothing yet. `NULL`
when the call is not granted. -/
def realloc (grant : Bool) (old : Option (Block α)) (bytes : Nat) : Option (Block α) :=
  if grant then
    some {
      len := bytes / 8
      cell := fun i => match old with
        | some b => if i < b.len ∧ i < bytes / 8 then b.cell i else none
        | none => none }
  else none

/-! ## The struct, and an access through it -/

/-- One evaluation of `data[index]`, with the capacity of the vector at that moment and, for
a read, whether the cell had been written. -/
inductive Access where
  | read (index : Int) (capacity : Nat) (written : Bool)
  | store (index : Int) (capacity : Nat)
  deriving DecidableEq, Repr

/-- `dbl_vector_t`, and the ghost log of the accesses made through it. -/
structure DblVector (α : Type) where
  size : Nat
  capacity : Nat
  data : Option (Block α)
  accesses : List Access

/-- The value of `data[i]`: what the cell holds inside the block, nothing outside it. -/
def Block.at (b : Block α) (i : Int) : Option α :=
  if 0 ≤ i ∧ i < b.len then b.cell i.toNat else none

/-- `data[i] = x` inside the block; outside it no cell of the block changes. -/
def Block.put (b : Block α) (i : Int) (x : Option α) : Block α :=
  if 0 ≤ i ∧ i < b.len then { b with cell := Function.update b.cell i.toNat x } else b

/-- The access is to a cell of the block, or does no harm. -/
def Block.Admits (b : Block α) (i : Int) : Prop :=
  0 ≤ i ∧ i < b.len ∨ Machine.harmless = true

instance (b : Block α) (i : Int) : Decidable (b.Admits i) :=
  inferInstanceAs (Decidable (_ ∨ _))

/-- Read `vec->data[i]`. -/
def DblVector.load (vec : DblVector α) (i : Int) : Option (Option α × DblVector α) :=
  vec.data.bind fun b =>
    if b.Admits i then
      some (b.at i,
        { vec with accesses := .read i vec.capacity (b.at i).isSome :: vec.accesses })
    else none

/-- Store to `vec->data[i]`. -/
def DblVector.store (vec : DblVector α) (i : Int) (x : Option α) : Option (DblVector α) :=
  vec.data.bind fun b =>
    if b.Admits i then
      some { vec with
        data := some (b.put i x), accesses := .store i vec.capacity :: vec.accesses }
    else none

/-! ## The functions -/

/-- `DV_INITIAL_CAPACITY` -/
def DV_INITIAL_CAPACITY : Nat := 4

def dvInit (grant : Bool) : DblVector α where
  capacity := DV_INITIAL_CAPACITY
  size := 0
  data := realloc grant none (DV_INITIAL_CAPACITY * 8)
  accesses := []

def dvEnsureCapacity (grant : Bool) (vec : DblVector α) (newSize : Nat) : DblVector α :=
  if vec.capacity < newSize then
    let newCapacity := Machine.grown vec.capacity
    let newCapacity := if newCapacity < newSize then newSize else newCapacity
    { vec with
      capacity := newCapacity
      data := realloc grant vec.data (newCapacity * 8 % 2 ^ 64) }
  else vec

/-- `for (int i = 0; i < vec->size; i++) dest->data[i] = vec->data[i];` -/
def copyLoop : Nat → Int → DblVector α → DblVector α → Option (DblVector α × DblVector α)
  | 0, _, _, _ => none
  | fuel + 1, i, vec, dest =>
    if sizeT i < vec.size then do
      let (x, vec) ← vec.load i
      let dest ← dest.store i x
      let i ← asInt (i + 1)
      copyLoop fuel i vec dest
    else some (vec, dest)

/-- The two vectors after `dv_copy(vec, dest)`. -/
def dvCopy (grant : Bool) (vec dest : DblVector α) : Option (DblVector α × DblVector α) :=
  let dest := { dest with size := vec.size }
  let dest := dvEnsureCapacity grant dest vec.size
  copyLoop intSteps 0 vec dest

def dvClear (vec : DblVector α) : DblVector α := { vec with size := 0 }

def dvPush (grant : Bool) (vec : DblVector α) (newItem : α) : Option (DblVector α) :=
  let oldSize := vec.size
  let vec := { vec with size := oldSize + 1 }
  let vec := dvEnsureCapacity grant vec vec.size
  vec.store oldSize (some newItem)

def dvPop (vec : DblVector α) : DblVector α :=
  let oldSize := vec.size
  if 0 < oldSize then { vec with size := oldSize - 1 } else vec

/-- The value `dv_last` returns; `nan` is the header's `NAN`. -/
def dvLast (nan : α) (vec : DblVector α) : Option (Option α × DblVector α) :=
  if 0 < vec.size then vec.load (vec.size - 1 : Nat) else some (some nan, vec)

/-- `for (int i = vec->size; i > pos; i--) vec->data[i] = vec->data[i - 1];` -/
def shiftUp (pos : Nat) : Nat → Int → DblVector α → Option (DblVector α)
  | 0, _, _ => none
  | fuel + 1, i, vec =>
    if pos < sizeT i then do
      let below ← asInt (i - 1)
      let (x, vec) ← vec.load below
      let vec ← vec.store i x
      shiftUp pos fuel below vec
    else some vec

def dvInsertAt (grant : Bool) (vec : DblVector α) (pos : Nat) (newItem : α) :
    Option (DblVector α) :=
  if vec.size < pos then dvPush grant vec newItem
  else do
    let oldSize := vec.size
    let vec := { vec with size := oldSize + 1 }
    let vec := dvEnsureCapacity grant vec (oldSize + 1)
    let vec ← shiftUp pos intSteps (narrow vec.size) vec
    vec.store pos (some newItem)

/-- `for (int i = pos; i < vec->size; i++) vec->data[i] = vec->data[i + 1];` -/
def shiftDown : Nat → Int → DblVector α → Option (DblVector α)
  | 0, _, _ => none
  | fuel + 1, i, vec =>
    if sizeT i < vec.size then do
      let above ← asInt (i + 1)
      let (x, vec) ← vec.load above
      let vec ← vec.store i x
      shiftDown fuel above vec
    else some vec

def dvRemoveAt (vec : DblVector α) (pos : Nat) : Option (DblVector α) :=
  let oldSize := vec.size
  if pos < oldSize then
    shiftDown intSteps (narrow pos) { vec with size := oldSize - 1 }
  else some vec

/-- `for (int i = 0; i < vec->size; i++) callback(vec->data[i], info);` — the callback is a
function on the data object behind `info`. -/
def foreachLoop {σ : Type} (callback : Option α → σ → σ) :
    Nat → Int → DblVector α → σ → Option (DblVector α × σ)
  | 0, _, _, _ => none
  | fuel + 1, i, vec, info =>
    if sizeT i < vec.size then do
      let (x, vec) ← vec.load i
      let info := callback x info
      let i ← asInt (i + 1)
      foreachLoop callback fuel i vec info
    else some (vec, info)

def dvForeach {σ : Type} (vec : DblVector α) (callback : Option α → σ → σ) (info : σ) :
    Option (DblVector α × σ) :=
  foreachLoop callback intSteps 0 vec info

/-! ## Sequences of calls

A caller holds any number of vectors. `dv_copy` is only ever given two different ones — the
header's `PRE: vec != dest` — so the operation carries that. -/

/-- One call on a family of vectors; `ensure_capacity`, like every growing call, asks for
storage at most once. -/
inductive Op (ι : Type) (α : Type) where
  | push (v : ι) (newItem : α)
  | pop (v : ι)
  | insertAt (v : ι) (pos : Nat) (newItem : α)
  | removeAt (v : ι) (pos : Nat)
  | clear (v : ι)
  | ensureCapacity (v : ι) (newSize : Nat)
  | copy (vec dest : ι) (ne : vec ≠ dest)

variable {ι : Type} [DecidableEq ι]

/-- The call's effect on the family, `grant` saying whether its `realloc` succeeds. -/
def Op.run (grant : Bool) (vs : ι → DblVector α) : Op ι α → Option (ι → DblVector α)
  | .push v x => (dvPush grant (vs v) x).map (Function.update vs v)
  | .pop v => some (Function.update vs v (dvPop (vs v)))
  | .insertAt v pos x => (dvInsertAt grant (vs v) pos x).map (Function.update vs v)
  | .removeAt v pos => (dvRemoveAt (vs v) pos).map (Function.update vs v)
  | .clear v => some (Function.update vs v (dvClear (vs v)))
  | .ensureCapacity v n => some (Function.update vs v (dvEnsureCapacity grant (vs v) n))
  | .copy a b _ => (dvCopy grant (vs a) (vs b)).map fun p =>
      Function.update (Function.update vs a p.1) b p.2

/-- The calls of a program in order, every allocation succeeding. -/
def runAll (vs : ι → DblVector α) : List (Op ι α) → Option (ι → DblVector α)
  | [] => some vs
  | op :: ops => (op.run true vs).bind fun vs => runAll vs ops

end DblVec
end Cab403
