import Cab403.Display.Scan
import Cab403.Lib.Logged

/-!
# Drawing the cars

The drawing loop of `main`, as far as it is about integers: the floor numbers down the side, the
columns of the cars, the direction a car moves in, and where its doors, its name and its status go.
Each integer division is noted with its divisor. A division by zero ends the program, and so in a
way does a node that is not current: the loop over the cars goes on with the same node for ever.

Nothing keeps a record from a status `Between` with one floor twice, and the direction is then
divided by zero; `divisions_sound_iff` says that this is all that can go wrong, but for a count of
cars past the end of an `int`.

The rows of a car and the width of its doors are computed with floating-point numbers, and no
integer is divided by them; they are not here. Integers wrap around.
-/

namespace Cab403
namespace Display

open Lib
open Car (CarSharedMem strBetween strOpen)

/-! ## Divisions -/

/-- What is divided: the height of the window, its width, the way to the next floor, or a length
that is halved. -/
inductive Quotient where
  | row
  | column
  | direction
  | half
  deriving DecidableEq, Repr

structure Division where
  quotient : Quotient
  divisor : Int
  deriving DecidableEq, Repr

/-- A divisor that is not zero, and a number of floors or of cars that is positive. -/
def Division.Sound (d : Division) : Prop :=
  match d.quotient with
  | .row | .column => 0 < d.divisor
  | .direction | .half => d.divisor ≠ 0

/-- `a / b` -/
def divide (quotient : Quotient) (a b : Int32) : Logged Division Int32 :=
  ⟨[⟨quotient, b.toInt⟩], if b = 0 then none else some (a / b)⟩

/-- `a / 2`, of a `size_t`. -/
def halve (a : UInt64) : Logged Division UInt64 := ⟨[⟨.half, 2⟩], some (a / 2)⟩

/-! ## The floor numbers -/

structure Label where
  row : Int32
  text : CString
  deriving DecidableEq, Repr

/-- The text is written to `char buf[4]` first, which has room for it only if the floor is
`Writable`. -/
def drawLabel (h height highest i : Int32) : Logged Division Label := do
  let y1 ← divide .row (h * i) height
  let q ← divide .row (h * (i + 1)) height
  let y2 := q - 1
  let row ← divide .half (y1 + y2) 2
  return ⟨row, itf (highest - i)⟩

/-- `n` more floors, from `i` on. -/
def drawLabels (h height highest : Int32) : ℕ → Int32 → Logged Division (List Label)
  | 0, _ => return []
  | n + 1, i => do
    let label ← drawLabel h height highest i
    let labels ← drawLabels h height highest n (i + 1)
    return label :: labels

/-! ## The cars -/

def abs (i : Int32) : Int32 := if i < 0 then -i else i

structure Box where
  x1 : Int32
  x2 : Int32
  dir : Int32
  doors : Int32
  nameX : Int32
  statusX : Int32
  deriving DecidableEq, Repr

/-- `numcars` -/
def countActive : List CarInfo → Int32 → Int32
  | [], numcars => numcars
  | c :: cs, numcars => countActive cs (if c.state = 'c' then numcars + 1 else numcars)

def strlen (s : CString) : UInt64 := UInt64.ofNat s.length

/-- An `int`, as a `size_t`. -/
def sizeOfInt (i : Int32) : UInt64 := i.toInt64.toUInt64

/-- `(width)/2 + x1`, of which `move` takes an `int`. -/
def centre (width : UInt64) (x1 : Int32) : Logged Division Int32 := do
  let q ← halve width
  return (q + sizeOfInt x1).toUInt32.toInt32

/-- The first and the last column of a car. -/
def drawColumns (w numcars carpos : Int32) : Logged Division (Int32 × Int32) := do
  let q1 ← divide .column ((w - 4) * carpos) numcars
  let q2 ← divide .column ((w - 4) * (carpos + 1)) numcars
  return (q1 + 4, q2 + 3)

def drawDirection (strcmp : Strcmp) (mem : CarSharedMem) : Logged Division Int32 :=
  let currentFloor := fti mem.currentFloor
  if strcmp mem.status strBetween = 0 then
    let destinationFloor := fti mem.destinationFloor
    divide .direction (destinationFloor - currentFloor) (abs (destinationFloor - currentFloor))
  else pure 0

/-- What the width of the doors is a part of. -/
def drawDoors (strcmp : Strcmp) (mem : CarSharedMem) (colwidth : Int32) :
    Logged Division Int32 :=
  if strcmp mem.status strOpen = 0 then pure 0 else divide .half (colwidth - 2) 2

/-- Where the doors, the name and the status go. A name that does not end in its array is taken for
an empty one. -/
def drawInsides (strcmp : Strcmp) (x1 colwidth : Int32) (c : CarInfo) :
    Logged Division (Int32 × Int32 × Int32) := do
  let doors ← drawDoors strcmp c.mem colwidth
  let name := (c.name.getD []).drop 3
  let nameX ← centre (sizeOfInt colwidth - strlen name - 4) x1
  let statusX ← centre (sizeOfInt colwidth - strlen c.mem.status) x1
  return (doors, nameX, statusX)

def drawCar (strcmp : Strcmp) (w numcars carpos : Int32) (c : CarInfo) :
    Logged Division Box := do
  let (x1, x2) ← drawColumns w numcars carpos
  let dir ← drawDirection strcmp c.mem
  let (doors, nameX, statusX) ← drawInsides strcmp x1 (x2 - x1 + 1) c
  return ⟨x1, x2, dir, doors, nameX, statusX⟩

def drawCars (strcmp : Strcmp) (w numcars : Int32) :
    List CarInfo → Int32 → Logged Division (List Box)
  | [], _ => return []
  | c :: cs, carpos =>
    -- `continue`, with `c` as it was
    if c.state ≠ 'c' then Logged.stop
    else do
      let box ← drawCar strcmp w numcars carpos c
      let boxes ← drawCars strcmp w numcars cs (carpos + 1)
      return box :: boxes

/-- One turn of the loop of `main`, on the nodes of `cars`. -/
def draw (strcmp : Strcmp) (w h highest lowest : Int32) (cars : List CarInfo) :
    Logged Division (List Label × List Box) := do
  let height := highest - lowest + 1
  let labels ← drawLabels h height highest height.toInt.toNat 0
  let boxes ← drawCars strcmp w (countActive cars 0) cars 0
  return (labels, boxes)

/-! ## What is divided -/

section Soundness

open Logged

variable {strcmp : Strcmp} {w h height highest lowest numcars carpos i : Int32} {c : CarInfo}
  {cars : List CarInfo}

/-- A car between a floor and the same floor. -/
def BetweenSame (c : CarInfo) : Prop :=
  c.mem.status = strBetween ∧ fti c.mem.destinationFloor = fti c.mem.currentFloor

theorem abs_eq_zero_iff (i : Int32) : abs i = 0 ↔ i = 0 := by
  unfold abs
  split
  · constructor
    · intro h
      exact Int32.neg_inj.mp (h.trans Int32.neg_zero.symm)
    · rintro rfl
      exact Int32.neg_zero
  · exact Iff.rfl

theorem Division.Sound.ne_zero {quotient : Quotient} {b : Int32}
    (h : Division.Sound ⟨quotient, b.toInt⟩) : b ≠ 0 := by
  rintro rfl
  cases quotient with
  | row => exact Int.lt_irrefl 0 h
  | column => exact Int.lt_irrefl 0 h
  | direction => exact absurd rfl h
  | half => exact absurd rfl h

theorem sub_eq_zero_iff (a b : Int32) : a - b = 0 ↔ a = b := by
  rw [Int32.sub_eq_iff_eq_add, Int32.zero_add]

theorem sound_direction_iff {i : Int32} :
    Division.Sound ⟨.direction, (abs i).toInt⟩ ↔ i ≠ 0 := by
  show (abs i).toInt ≠ 0 ↔ i ≠ 0
  rw [not_iff_not, ← Int32.toInt_zero, Int32.toInt_inj, abs_eq_zero_iff]

theorem sound_half : Division.Sound ⟨.half, (2 : Int32).toInt⟩ := by
  show (2 : Int32).toInt ≠ 0
  decide

/-! ## One division after the other -/

theorem onlyLogs_divide {quotient : Quotient} {a b : Int32} :
    OnlyLogs Division.Sound (divide quotient a b) ↔ Division.Sound ⟨quotient, b.toInt⟩ := by
  simp [OnlyLogs, divide]

theorem stopsOnly_divide (quotient : Quotient) (a b : Int32) :
    StopsOnly Division.Sound (divide quotient a b) := by
  intro hlogs
  exact ⟨a / b, if_neg (onlyLogs_divide.mp hlogs).ne_zero⟩

theorem onlyLogs_centre (width : UInt64) (x1 : Int32) :
    OnlyLogs Division.Sound (centre width x1) := by
  refine onlyLogs_bind.mpr ⟨?_, fun _ _ => onlyLogs_pure _⟩
  intro d hd
  rw [List.mem_singleton.mp hd]
  exact sound_half

theorem stopsOnly_centre (width : UInt64) (x1 : Int32) :
    StopsOnly Division.Sound (centre width x1) :=
  fun _ => ⟨_, rfl⟩

theorem onlyLogs_drawLabel (hheight : 0 < height.toInt) :
    OnlyLogs Division.Sound (drawLabel h height highest i) := by
  have hrow : Division.Sound ⟨.row, height.toInt⟩ := hheight
  refine onlyLogs_bind.mpr ⟨onlyLogs_divide.mpr hrow, fun _ _ => ?_⟩
  refine onlyLogs_bind.mpr ⟨onlyLogs_divide.mpr hrow, fun _ _ => ?_⟩
  exact onlyLogs_bind.mpr ⟨onlyLogs_divide.mpr sound_half, fun _ _ => onlyLogs_pure _⟩

theorem stopsOnly_drawLabel : StopsOnly Division.Sound (drawLabel h height highest i) := by
  refine (stopsOnly_divide _ _ _).bind fun _ => ?_
  refine (stopsOnly_divide _ _ _).bind fun _ => ?_
  exact (stopsOnly_divide _ _ _).bind fun _ => stopsOnly_pure _

theorem onlyLogs_drawLabels (hheight : 0 < height.toInt) (n : ℕ) :
    OnlyLogs Division.Sound (drawLabels h height highest n i) := by
  induction n generalizing i with
  | zero => exact onlyLogs_pure _
  | succ n ih =>
    refine onlyLogs_bind.mpr ⟨onlyLogs_drawLabel hheight, fun _ _ => ?_⟩
    exact onlyLogs_bind.mpr ⟨ih, fun _ _ => onlyLogs_pure _⟩

theorem stopsOnly_drawLabels (n : ℕ) :
    StopsOnly Division.Sound (drawLabels h height highest n i) := by
  induction n generalizing i with
  | zero => exact stopsOnly_pure _
  | succ n ih =>
    refine stopsOnly_drawLabel.bind fun _ => ?_
    exact ih.bind fun _ => stopsOnly_pure _

/-- **The floor numbers**: where one is written there is a floor, and the height is positive. -/
theorem drawLabels_sound (h height highest : Int32) :
    OnlyLogs Division.Sound (drawLabels h height highest height.toInt.toNat 0) := by
  by_cases hheight : 0 < height.toInt
  · exact onlyLogs_drawLabels hheight _
  -- the loop over the floors is not entered
  · rw [Int.toNat_of_nonpos (Int.not_lt.mp hheight)]
    exact onlyLogs_pure _

/-! ## The cars -/

theorem onlyLogs_drawColumns :
    OnlyLogs Division.Sound (drawColumns w numcars carpos) ↔ 0 < numcars.toInt := by
  have hsecond : ∀ q1 : Int32, OnlyLogs Division.Sound (do
      let q2 ← divide .column ((w - 4) * (carpos + 1)) numcars
      return (q1 + 4, q2 + 3)) ↔ 0 < numcars.toInt := by
    intro q1
    rw [(stopsOnly_divide _ _ _).onlyLogs_bind_iff fun _ => iff_of_true (onlyLogs_pure _) trivial,
      and_true]
    exact onlyLogs_divide
  unfold drawColumns
  rw [(stopsOnly_divide _ _ _).onlyLogs_bind_iff hsecond, onlyLogs_divide]
  exact and_self_iff

theorem stopsOnly_drawColumns : StopsOnly Division.Sound (drawColumns w numcars carpos) := by
  refine (stopsOnly_divide _ _ _).bind fun _ => ?_
  exact (stopsOnly_divide _ _ _).bind fun _ => stopsOnly_pure _

theorem onlyLogs_drawDirection :
    OnlyLogs Division.Sound (drawDirection strcmp c.mem) ↔ ¬ BetweenSame c := by
  have hbetween := strcmp.zero_iff c.mem.status strBetween
  unfold drawDirection
  by_cases hstatus : strcmp c.mem.status strBetween = 0
  · rw [if_pos hstatus, onlyLogs_divide, sound_direction_iff, Ne, sub_eq_zero_iff, BetweenSame,
      ← hbetween]
    simp [hstatus]
  · rw [if_neg hstatus, BetweenSame, ← hbetween]
    simp [hstatus]

theorem stopsOnly_drawDirection : StopsOnly Division.Sound (drawDirection strcmp c.mem) := by
  unfold drawDirection
  split
  · exact stopsOnly_divide _ _ _
  · exact stopsOnly_pure _

theorem onlyLogs_drawDoors {mem : CarSharedMem} {colwidth : Int32} :
    OnlyLogs Division.Sound (drawDoors strcmp mem colwidth) := by
  unfold drawDoors
  split
  · exact onlyLogs_pure _
  · exact onlyLogs_divide.mpr sound_half

theorem stopsOnly_drawDoors {mem : CarSharedMem} {colwidth : Int32} :
    StopsOnly Division.Sound (drawDoors strcmp mem colwidth) := by
  unfold drawDoors
  split
  · exact stopsOnly_pure _
  · exact stopsOnly_divide _ _ _

theorem onlyLogs_drawInsides {x1 colwidth : Int32} :
    OnlyLogs Division.Sound (drawInsides strcmp x1 colwidth c) := by
  refine onlyLogs_bind.mpr ⟨onlyLogs_drawDoors, fun _ _ => ?_⟩
  refine onlyLogs_bind.mpr ⟨onlyLogs_centre _ _, fun _ _ => ?_⟩
  exact onlyLogs_bind.mpr ⟨onlyLogs_centre _ _, fun _ _ => onlyLogs_pure _⟩

theorem stopsOnly_drawInsides {x1 colwidth : Int32} :
    StopsOnly Division.Sound (drawInsides strcmp x1 colwidth c) := by
  refine stopsOnly_drawDoors.bind fun _ => ?_
  refine (stopsOnly_centre _ _).bind fun _ => ?_
  exact (stopsOnly_centre _ _).bind fun _ => stopsOnly_pure _

/-- **One car.** -/
theorem onlyLogs_drawCar :
    OnlyLogs Division.Sound (drawCar strcmp w numcars carpos c) ↔
      0 < numcars.toInt ∧ ¬ BetweenSame c := by
  have hinsides : ∀ (x : Int32 × Int32) (dir : Int32), OnlyLogs Division.Sound (do
      let (doors, nameX, statusX) ← drawInsides strcmp x.1 (x.2 - x.1 + 1) c
      return (⟨x.1, x.2, dir, doors, nameX, statusX⟩ : Box)) := by
    intro x dir
    exact onlyLogs_bind.mpr ⟨onlyLogs_drawInsides, fun _ _ => onlyLogs_pure _⟩
  unfold drawCar
  rw [stopsOnly_drawColumns.onlyLogs_bind_iff, onlyLogs_drawColumns]
  intro x
  rw [stopsOnly_drawDirection.onlyLogs_bind_iff fun dir => iff_of_true (hinsides x dir) trivial,
    onlyLogs_drawDirection, and_true]

theorem stopsOnly_drawCar : StopsOnly Division.Sound (drawCar strcmp w numcars carpos c) := by
  refine stopsOnly_drawColumns.bind fun _ => ?_
  refine stopsOnly_drawDirection.bind fun _ => ?_
  exact stopsOnly_drawInsides.bind fun _ => stopsOnly_pure _

/-- The cars in front of the first node that is not current. -/
def reached (cars : List CarInfo) : List CarInfo := cars.takeWhile fun c => c.state == 'c'

theorem drawCars_cons (hstate : c.state = 'c') :
    drawCars strcmp w numcars (c :: cars) carpos = (do
      let box ← drawCar strcmp w numcars carpos c
      let boxes ← drawCars strcmp w numcars cars (carpos + 1)
      return box :: boxes) := by
  rw [drawCars, if_neg (not_not.mpr hstate)]

theorem onlyLogs_drawCars :
    OnlyLogs Division.Sound (drawCars strcmp w numcars cars carpos) ↔
      ∀ c ∈ reached cars, 0 < numcars.toInt ∧ ¬ BetweenSame c := by
  induction cars generalizing carpos with
  | nil => simp [drawCars, reached]
  | cons c cars ih =>
    by_cases hstate : c.state = 'c'
    · have hreached : reached (c :: cars) = c :: reached cars := by simp [reached, hstate]
      have hrest : ∀ box : Box, OnlyLogs Division.Sound (do
          let boxes ← drawCars strcmp w numcars cars (carpos + 1)
          return box :: boxes) ↔ ∀ c ∈ reached cars, 0 < numcars.toInt ∧ ¬ BetweenSame c := by
        intro box
        rw [onlyLogs_bind, ih]
        exact and_iff_left fun _ _ => onlyLogs_pure _
      rw [drawCars_cons hstate, stopsOnly_drawCar.onlyLogs_bind_iff hrest, onlyLogs_drawCar,
        hreached, List.forall_mem_cons]
    · simp [drawCars, reached, hstate]

theorem onlyLogs_draw :
    OnlyLogs Division.Sound (draw strcmp w h highest lowest cars) ↔
      ∀ c ∈ reached cars, 0 < (countActive cars 0).toInt ∧ ¬ BetweenSame c := by
  have hcars : ∀ labels : List Label, OnlyLogs Division.Sound (do
      let boxes ← drawCars strcmp w (countActive cars 0) cars 0
      return (labels, boxes)) ↔
        ∀ c ∈ reached cars, 0 < (countActive cars 0).toInt ∧ ¬ BetweenSame c := by
    intro labels
    rw [← onlyLogs_drawCars, onlyLogs_bind]
    exact and_iff_left fun _ _ => onlyLogs_pure _
  unfold draw
  rw [(stopsOnly_drawLabels _).onlyLogs_bind_iff hcars]
  exact and_iff_right (drawLabels_sound h _ highest)

/-- **Every integer division is sound**, whatever the window and the range of floors, iff where a
car is drawn the count of the active cars is a positive `int`, and no car that is reached is
between a floor and itself. -/
theorem divisions_sound_iff (strcmp : Strcmp) (w h highest lowest : Int32)
    (cars : List CarInfo) :
    (∀ d ∈ (draw strcmp w h highest lowest cars).log, d.Sound) ↔
      ∀ c ∈ reached cars, 0 < (countActive cars 0).toInt ∧ ¬ BetweenSame c :=
  onlyLogs_draw

/-- The record of a safety test, read while its status is `Between`. -/
def betweenFloor1 : CarInfo :=
  ⟨some "carTest".toList, 1000000, ⟨0, 0⟩, 'c', { closedAt1 with status := strBetween }⟩

theorem not_sound_betweenFloor1 :
    ¬ ∀ d ∈ (draw (strcmpOf (-1) (by decide)) 80 24 1 1 [betweenFloor1]).log, d.Sound := by
  intro hall
  have hmem : ⟨.direction, 0⟩ ∈
      (draw (strcmpOf (-1) (by decide)) 80 24 1 1 [betweenFloor1]).log := by
    decide
  exact absurd rfl (hall _ hmem)

/-! ## The count -/

theorem toInt_add_one {i : Int32} (hlow : 0 ≤ i.toInt) (hhigh : i.toInt + 1 < 2 ^ 31) :
    (i + 1).toInt = i.toInt + 1 := by
  rw [Int32.toInt_add, Int32.toInt_one]
  exact Int.bmod_eq_of_le (by omega) (by omega)

theorem toInt_countActive {n : ℕ} (hn : numcars.toInt = n) (hfew : n + cars.length < 2 ^ 31) :
    (countActive cars numcars).toInt = n + cars.countP (·.state == 'c') := by
  induction cars generalizing numcars n with
  | nil => exact hn
  | cons c cars ih =>
    rw [List.length_cons] at hfew
    by_cases hstate : c.state = 'c'
    · have hnext : (numcars + 1).toInt = (n + 1 : ℕ) := by
        rw [toInt_add_one (by omega) (by omega), hn]
        rfl
      rw [countActive, if_pos hstate, ih hnext (by omega),
        List.countP_cons_of_pos (by simp [hstate])]
      push_cast
      omega
    · rw [countActive, if_neg hstate, ih hn (by omega), List.countP_cons_of_neg (by simp [hstate])]

/-- In a list of fewer than `2 ^ 31` cars, one that is reached counts. -/
theorem countActive_pos (hfew : cars.length < 2 ^ 31) (hc : c ∈ reached cars) :
    0 < (countActive cars 0).toInt := by
  have hmem : c ∈ cars := (List.takeWhile_prefix _).subset hc
  have hstate : (c.state == 'c') = true :=
    List.mem_takeWhile_imp (p := fun c : CarInfo => c.state == 'c') hc
  have hcount : 0 < cars.countP (·.state == 'c') := List.countP_pos_iff.mpr ⟨c, hmem, hstate⟩
  rw [toInt_countActive (n := 0) rfl (by omega)]
  omega

/-! ## The cars on the list -/

/-- A list as a scan leaves it is drawn to its end. -/
theorem stopsOnly_drawCars (hall : ∀ c ∈ cars, c.state = 'c') :
    StopsOnly Division.Sound (drawCars strcmp w numcars cars carpos) := by
  induction cars generalizing carpos with
  | nil => exact stopsOnly_pure _
  | cons c cars ih =>
    rw [drawCars_cons (hall c List.mem_cons_self)]
    refine stopsOnly_drawCar.bind fun _ => ?_
    refine StopsOnly.bind ?_ fun _ => stopsOnly_pure _
    exact ih fun c hc => hall c (List.mem_cons_of_mem _ hc)

/-- **A screen that is drawn**: the loop comes to the last node, unless a car is between a floor and
itself. -/
theorem draw_of_showing {s : Screen} {names : List CString} (hs : Showing s names)
    (hfew : names.length < 2 ^ 31) :
    ∃ l, Linked s.heap.cell s.cars l ∧ ((∀ e ∈ l, ¬ BetweenSame e.2) →
      ∃ picture, (draw strcmp w h s.highest s.lowest (l.map Prod.snd)).value = some picture) := by
  obtain ⟨l, hl, hnames, hall⟩ := hs
  refine ⟨l, hl, fun hbetween => ?_⟩
  have hlength : (l.map Prod.snd).length < 2 ^ 31 := by
    have hsame := hnames.length_eq
    rw [List.length_map, List.length_map] at hsame
    rw [List.length_map, hsame]
    exact hfew
  have hcurrent : ∀ c ∈ l.map Prod.snd, c.state = 'c' := by
    intro c hc
    obtain ⟨e, he, rfl⟩ := List.mem_map.mp hc
    exact hall e he
  have hstops : StopsOnly Division.Sound (draw strcmp w h s.highest s.lowest (l.map Prod.snd)) := by
    refine (stopsOnly_drawLabels _).bind fun _ => ?_
    exact (stopsOnly_drawCars hcurrent).bind fun _ => stopsOnly_pure _
  apply hstops
  refine onlyLogs_draw.mpr fun c hc => ⟨countActive_pos hlength hc, ?_⟩
  obtain ⟨e, he, rfl⟩ := List.mem_map.mp ((List.takeWhile_prefix _).subset hc)
  exact hbetween e he

end Soundness

end Display
end Cab403
