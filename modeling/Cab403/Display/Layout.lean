import Cab403.Display.Drawing
import Cab403.Lib.Tiling

/-!
# The layout of the display

Where a turn of the drawing loop puts things, when it comes to its end. The columns right of the
floor numbers are cut into one part a car (`columns_tile`), the rows into one part a floor, with
its number in the middle (`labels_placed`): both are even tilings (`Lib.Tiling`), so a car, or a
floor, can be left without a place exactly where the window has fewer columns, or rows, than there
are of them.

The window is one whose sizes, times a number of cars or floors, fit an `int`, and the floors are
those whose numbers fit the four bytes they are written to.
-/

namespace Cab403
namespace Display

open Lib Logged
open Car (CarSharedMem)

/-! ## Integer arithmetic -/

section Arithmetic

variable {a b c : Int32} {n k i : ℕ}

theorem toInt_mul_nat (ha : a.toInt = n) (hb : b.toInt = i) (hfits : n * i < 2 ^ 31) :
    (a * b).toInt = (n * i : ℕ) := by
  rw [Int32.toInt_mul, ha, hb, ← Nat.cast_mul]
  exact Int.bmod_eq_of_le (by omega) (by omega)

theorem toInt_div_nat (ha : a.toInt = n) (hb : b.toInt = k) : (a / b).toInt = (n / k : ℕ) := by
  have hne : b ≠ -1 := by
    rintro rfl
    have hneg : (-1 : Int32).toInt = -1 := by decide
    omega
  rw [Int32.toInt_div_of_ne_right _ _ hne, ha, hb, Int.ofNat_tdiv]

/-- Where part `i` begins. -/
theorem toInt_cut (ha : a.toInt = n) (hb : b.toInt = k) (hc : c.toInt = i) (hi : i ≤ k)
    (hfits : n * k < 2 ^ 31) : (a * c / b).toInt = cut n k i := by
  have hle : n * i ≤ n * k := Nat.mul_le_mul_left n hi
  exact toInt_div_nat (toInt_mul_nat ha hc (by omega)) hb

theorem value_divide {quotient : Quotient} (hb : b ≠ 0) :
    (divide quotient a b).value = some (a / b) :=
  if_neg hb

theorem ne_zero_of_toInt (hb : b.toInt = k) (hk : 0 < k) : b ≠ 0 := by
  rintro rfl
  have hzero := Int32.toInt_zero
  omega

end Arithmetic

/-! ## The columns -/

section Columns

variable {strcmp : Strcmp} {w h highest lowest numcars carpos : Int32} {c : CarInfo}
  {cars : List CarInfo} {n k i : ℕ} {b : Box} {boxes : List Box}

/-- Of a window `n + 4` columns wide, car `i` of `k` has part `i`. -/
theorem value_drawColumns (hw : w.toInt = n + 4) (hnum : numcars.toInt = k)
    (hpos : carpos.toInt = i) (hi : i < k) (hfits : n * k < 2 ^ 31) :
    ∃ x1 x2 : Int32, (drawColumns w numcars carpos).value = some (x1, x2) ∧
      x1.toInt = cut n k i + 4 ∧ x2.toInt = cut n k (i + 1) + 3 := by
  have hk := Nat.zero_lt_of_lt hi
  have hlt := w.toInt_lt
  have hklt := numcars.toInt_lt
  have hfour : (w - 4).toInt = n := by
    have hvalue : (4 : Int32).toInt = 4 := by decide
    rw [Int32.toInt_sub, hw, hvalue, Int.add_sub_cancel]
    exact Int.bmod_eq_of_le (by omega) (by omega)
  have hnext : (carpos + 1).toInt = (i + 1 : ℕ) := by
    rw [toInt_add_one (by omega) (by omega), hpos]
    rfl
  have hfirst := toInt_cut hfour hnum hpos (Nat.le_of_lt hi) hfits
  have hlast := toInt_cut hfour hnum hnext hi hfits
  have hfirst_le : cut n k i ≤ n := cut_le hk (Nat.le_of_lt hi)
  have hlast_le : cut n k (i + 1) ≤ n := cut_le hk hi
  have hne := ne_zero_of_toInt hnum hk
  refine ⟨(w - 4) * carpos / numcars + 4, (w - 4) * (carpos + 1) / numcars + 3, ?_, ?_, ?_⟩
  · simp [drawColumns, value_divide hne]
  · have hvalue : (4 : Int32).toInt = 4 := by decide
    rw [Int32.toInt_add, hfirst, hvalue]
    exact Int.bmod_eq_of_le (by omega) (by omega)
  · have hvalue : (3 : Int32).toInt = 3 := by decide
    rw [Int32.toInt_add, hlast, hvalue]
    exact Int.bmod_eq_of_le (by omega) (by omega)

/-- The other divisions leave the columns as they are. -/
theorem columns_of_drawCar (hdraw : (drawCar strcmp w numcars carpos c).value = some b) :
    (drawColumns w numcars carpos).value = some (b.x1, b.x2) := by
  unfold drawCar at hdraw
  simp only [value_bind, Option.bind_eq_some_iff, value_pure, Option.some.injEq] at hdraw
  obtain ⟨x, hx, dir, _, insides, _, rfl⟩ := hdraw
  exact hx

/-- Box `j` of the list is that of car `i + j`. -/
theorem columns_of_drawCars (hw : w.toInt = n + 4) (hnum : numcars.toInt = k)
    (hpos : carpos.toInt = i) (hcars : i + cars.length ≤ k) (hfits : n * k < 2 ^ 31)
    (hdraw : (drawCars strcmp w numcars cars carpos).value = some boxes) :
    boxes.length = cars.length ∧ ∀ (j : ℕ) (b : Box), boxes[j]? = some b →
      b.x1.toInt = cut n k (i + j) + 4 ∧ b.x2.toInt = cut n k (i + j + 1) + 3 := by
  induction cars generalizing carpos i boxes with
  | nil =>
    cases hdraw
    exact ⟨rfl, fun j b hb => by simp at hb⟩
  | cons c cars ih =>
    rw [List.length_cons] at hcars
    by_cases hstate : c.state = 'c'
    · rw [drawCars_cons hstate] at hdraw
      simp only [value_bind, Option.bind_eq_some_iff, value_pure, Option.some.injEq] at hdraw
      obtain ⟨b, hb, rest, hrest, rfl⟩ := hdraw
      have hklt := numcars.toInt_lt
      have hnext : (carpos + 1).toInt = (i + 1 : ℕ) := by
        rw [toInt_add_one (by omega) (by omega), hpos]
        rfl
      obtain ⟨hlength, hboxes⟩ := ih hnext (by omega) hrest
      refine ⟨by rw [List.length_cons, hlength, List.length_cons], fun j b' hb' => ?_⟩
      cases j with
      | zero =>
        obtain rfl : b = b' := Option.some.inj hb'
        obtain ⟨x1, x2, hcolumns, hx1, hx2⟩ := value_drawColumns hw hnum hpos (by omega) hfits
        rw [columns_of_drawCar hb] at hcolumns
        cases hcolumns
        exact ⟨hx1, hx2⟩
      | succ j =>
        have hbox := hboxes j b' hb'
        rw [Nat.succ_add_eq_add_succ] at hbox
        exact hbox
    · rw [drawCars, if_pos hstate] at hdraw
      cases hdraw

/-- Where the boxes of `k` cars are, in a window `n + 4` columns wide. -/
structure Tiled (n k : ℕ) (boxes : List Box) : Prop where
  length : boxes.length = k
  x1 : ∀ (j : ℕ) (b : Box), boxes[j]? = some b → b.x1.toInt = cut n k j + 4
  x2 : ∀ (j : ℕ) (b : Box), boxes[j]? = some b → b.x2.toInt = cut n k (j + 1) + 3

theorem Tiled.inside (h : Tiled n k boxes) {j : ℕ} (hb : boxes[j]? = some b) :
    4 ≤ b.x1.toInt ∧ b.x2.toInt < n + 4 := by
  have hj : j < k := by
    rw [← h.length]
    exact (List.getElem?_eq_some_iff.mp hb).1
  have hlast : cut n k (j + 1) ≤ n := cut_le (Nat.zero_lt_of_lt hj) hj
  rw [h.x1 j b hb, h.x2 j b hb]
  omega

/-- **Every column is one car's.** -/
theorem Tiled.existsUnique (h : Tiled n k boxes) (hk : 0 < k) {x : ℤ} (hlow : 4 ≤ x)
    (hhigh : x < n + 4) :
    ∃! j : ℕ, ∃ b : Box, boxes[j]? = some b ∧ b.x1.toInt ≤ x ∧ x ≤ b.x2.toInt := by
  obtain ⟨m, rfl⟩ : ∃ m : ℕ, x = m + 4 := ⟨(x - 4).toNat, by omega⟩
  obtain ⟨j, ⟨hj, hpart⟩, hunique⟩ := existsUnique_part hk (show m < n by omega)
  have hj' : j < boxes.length := by rwa [h.length]
  refine ⟨j, ⟨boxes[j], List.getElem?_eq_getElem hj', ?_⟩, ?_⟩
  · rw [h.x1 j _ (List.getElem?_eq_getElem hj'), h.x2 j _ (List.getElem?_eq_getElem hj')]
    omega
  · rintro i ⟨b, hb, hx1, hx2⟩
    rw [h.x1 i b hb] at hx1
    rw [h.x2 i b hb] at hx2
    have hi : i < k := by
      rw [← h.length]
      exact (List.getElem?_eq_some_iff.mp hb).1
    exact hunique i ⟨hi, by omega⟩

theorem Tiled.even (h : Tiled n k boxes) {b b' : Box} (hb : b ∈ boxes) (hb' : b' ∈ boxes) :
    b.x2.toInt - b.x1.toInt ≤ b'.x2.toInt - b'.x1.toInt + 1 := by
  obtain ⟨i, hi⟩ := List.mem_iff_getElem?.mp hb
  obtain ⟨j, hj⟩ := List.mem_iff_getElem?.mp hb'
  have hk : 0 < k := by
    rw [← h.length]
    exact List.length_pos_of_mem hb
  have hlong := part_length n hk i
  have hshort := part_length n hk j
  rw [h.x1 i b hi, h.x2 i b hi, h.x1 j b' hj, h.x2 j b' hj]
  omega

/-- **Every car has a column** if there is one for each. -/
theorem Tiled.nonempty_iff (h : Tiled n k boxes) (hk : 0 < k) :
    (∀ b ∈ boxes, b.x1.toInt ≤ b.x2.toInt) ↔ k ≤ n := by
  rw [← parts_nonempty_iff hk]
  constructor
  · intro hall j hj
    have hj' : j < boxes.length := by rwa [h.length]
    have hle := hall boxes[j] (List.getElem_mem hj')
    rw [h.x1 j _ (List.getElem?_eq_getElem hj'), h.x2 j _ (List.getElem?_eq_getElem hj')] at hle
    omega
  · intro hall b hb
    obtain ⟨j, hj⟩ := List.mem_iff_getElem?.mp hb
    have hlt := hall j (h.length ▸ (List.getElem?_eq_some_iff.mp hj).1)
    rw [h.x1 j b hj, h.x2 j b hj]
    omega

/-- A picture shows current cars only, so it counts them all. -/
theorem current_of_drawCars (hdraw : (drawCars strcmp w numcars cars carpos).value = some boxes) :
    ∀ c ∈ cars, c.state = 'c' := by
  induction cars generalizing carpos boxes with
  | nil => exact fun c hc => absurd hc List.not_mem_nil
  | cons c cars ih =>
    by_cases hstate : c.state = 'c'
    · rw [drawCars_cons hstate] at hdraw
      simp only [value_bind, Option.bind_eq_some_iff] at hdraw
      obtain ⟨b, _, rest, hrest, _⟩ := hdraw
      exact List.forall_mem_cons.mpr ⟨hstate, ih hrest⟩
    · rw [drawCars, if_pos hstate] at hdraw
      cases hdraw

theorem tiled_of_drawCars (hw : w.toInt = n + 4) (hfits : n * cars.length < 2 ^ 31)
    (hfew : cars.length < 2 ^ 31)
    (hdraw : (drawCars strcmp w (countActive cars 0) cars 0).value = some boxes) :
    Tiled n cars.length boxes := by
  have hcount : cars.countP (·.state == 'c') = cars.length := by
    apply List.countP_eq_length.mpr
    intro c hc
    simp [current_of_drawCars hdraw c hc]
  have hnum : (countActive cars 0).toInt = cars.length := by
    rw [toInt_countActive (n := 0) rfl (by omega), hcount]
    omega
  obtain ⟨hlength, hboxes⟩ :=
    columns_of_drawCars hw hnum (i := 0) rfl (Nat.le_of_eq (Nat.zero_add _)) hfits hdraw
  refine ⟨hlength, fun j b hb => ?_, fun j b hb => ?_⟩
  · have hx1 := (hboxes j b hb).1
    rwa [Nat.zero_add] at hx1
  · have hx2 := (hboxes j b hb).2
    rwa [Nat.zero_add] at hx2

/-- **The columns of the cars**: every column right of the floor numbers is one car's, none is
outside, and no car has two more than another; each has one exactly if there are as many columns
as cars. -/
theorem columns_tile {labels : List Label} (hw : 4 ≤ w.toInt) (hcars : cars ≠ [])
    (hfew : cars.length < 2 ^ 31) (hfits : (w.toInt - 4) * cars.length < 2 ^ 31)
    (hdraw : (draw strcmp w h highest lowest cars).value = some (labels, boxes)) :
    (∀ x : ℤ, 4 ≤ x → x < w.toInt →
      ∃! j : ℕ, ∃ b : Box, boxes[j]? = some b ∧ b.x1.toInt ≤ x ∧ x ≤ b.x2.toInt) ∧
    (∀ b ∈ boxes, 4 ≤ b.x1.toInt ∧ b.x2.toInt < w.toInt) ∧
    (∀ b ∈ boxes, ∀ b' ∈ boxes,
      b.x2.toInt - b.x1.toInt ≤ b'.x2.toInt - b'.x1.toInt + 1) ∧
    ((∀ b ∈ boxes, b.x1.toInt ≤ b.x2.toInt) ↔ (cars.length : ℤ) ≤ w.toInt - 4) := by
  obtain ⟨n, hn⟩ : ∃ n : ℕ, w.toInt = n + 4 := ⟨(w.toInt - 4).toNat, by omega⟩
  have hk : 0 < cars.length := List.length_pos_iff.mpr hcars
  rw [hn, Int.add_sub_cancel] at hfits
  have hfits : n * cars.length < 2 ^ 31 := by exact_mod_cast hfits
  unfold draw at hdraw
  simp only [value_bind, Option.bind_eq_some_iff, value_pure, Option.some.injEq,
    Prod.mk.injEq] at hdraw
  obtain ⟨_, _, _, hboxes, _, rfl⟩ := hdraw
  have htiled := tiled_of_drawCars hn hfits hfew hboxes
  rw [hn, Int.add_sub_cancel]
  refine ⟨fun x hlow hhigh => htiled.existsUnique hk hlow hhigh, fun b hb => ?_,
    fun b hb b' hb' => htiled.even hb hb', ?_⟩
  · obtain ⟨j, hj⟩ := List.mem_iff_getElem?.mp hb
    exact htiled.inside hj
  · rw [htiled.nonempty_iff hk]
    exact Int.ofNat_le.symm

/-- Three cars in a window ten columns wide. -/
def threeCars : List CarInfo :=
  ["carA", "carB", "carC"].map fun name =>
    ⟨some name.toList, 1000000, ⟨0, 0⟩, 'c', closedAt1⟩

theorem columns_tile_threeCars : ∃ labels boxes,
    (draw (strcmpOf (-1) (by decide)) 10 24 1 1 threeCars).value = some (labels, boxes) ∧
      ∀ b ∈ boxes, b.x1.toInt ≤ b.x2.toInt := by
  have hdraw : ∃ p, (draw (strcmpOf (-1) (by decide)) 10 24 1 1 threeCars).value = some p :=
    Option.isSome_iff_exists.mp (by decide)
  obtain ⟨⟨labels, boxes⟩, hdraw⟩ := hdraw
  refine ⟨labels, boxes, hdraw, ?_⟩
  exact (columns_tile (by decide) (by decide) (by decide) (by decide) hdraw).2.2.2.mpr (by decide)

end Columns

/-! ## The floor numbers -/

section Labels

variable {h height highest lowest i : Int32} {n k m : ℕ} {labels : List Label}

theorem value_drawLabel (highest : Int32) (hh : h.toInt = n) (hheight : height.toInt = k)
    (hi : i.toInt = m) (hm : m < k) (hfits : n * k < 2 ^ 30) :
    ∃ row : Int32, (drawLabel h height highest i).value = some ⟨row, itf (highest - i)⟩ ∧
      row.toInt = middle n k m := by
  have hk := Nat.zero_lt_of_lt hm
  have hn : n ≤ n * k := Nat.le_mul_of_pos_right n hk
  have hklt := height.toInt_lt
  have hnext : (i + 1).toInt = (m + 1 : ℕ) := by
    rw [toInt_add_one (by omega) (by omega), hi]
    rfl
  have hfirst := toInt_cut hh hheight hi (Nat.le_of_lt hm) (by omega)
  have hlast := toInt_cut hh hheight hnext hm (by omega)
  have hfirst_le : cut n k m ≤ n := cut_le hk (Nat.le_of_lt hm)
  have hlast_le : cut n k (m + 1) ≤ n := cut_le hk hm
  have hne := ne_zero_of_toInt hheight hk
  have htwo : (2 : Int32).toInt = 2 := by decide
  refine ⟨(h * i / height + (h * (i + 1) / height - 1)) / 2, ?_, ?_⟩
  · have htwo_ne : (2 : Int32) ≠ 0 := by decide
    simp [drawLabel, value_divide hne, value_divide htwo_ne]
  · have hsum : (h * i / height + (h * (i + 1) / height - 1)).toInt =
        cut n k m + cut n k (m + 1) - 1 := by
      have hone : (h * (i + 1) / height - 1).toInt = cut n k (m + 1) - 1 := by
        rw [Int32.toInt_sub, hlast, Int32.toInt_one]
        exact Int.bmod_eq_of_le (by omega) (by omega)
      rw [Int32.toInt_add, hfirst, hone, Int.bmod_eq_of_le (by omega) (by omega)]
      omega
    rw [Int32.toInt_div_of_ne_right _ _ (by decide), hsum, htwo]
    unfold middle
    -- the quotient is rounded towards zero, also where there is no row at all
    rcases Nat.eq_zero_or_pos (cut n k m + cut n k (m + 1)) with hzero | hpos
    · have hnone : ((cut n k m : ℤ) + cut n k (m + 1) - 1) = -1 := by omega
      rw [hnone, hzero]
      rfl
    · have hcast : ((cut n k m : ℤ) + cut n k (m + 1) - 1) =
          (cut n k m + cut n k (m + 1) - 1 : ℕ) := by omega
      rw [hcast]
      exact Int.ofNat_tdiv _ 2

/-- Label `j` of the list is that of floor `highest - (i + j)`. -/
theorem value_drawLabels (highest : Int32) (hh : h.toInt = n) (hheight : height.toInt = k)
    (hi : i.toInt = m) (hfits : n * k < 2 ^ 30) {len : ℕ} (hlen : m + len ≤ k) :
    ∃ labels : List Label, (drawLabels h height highest len i).value = some labels ∧
      labels.length = len ∧ ∀ (j : ℕ) (label : Label), labels[j]? = some label →
        label.row.toInt = middle n k (m + j) ∧
          label.text = itf (highest - Int32.ofNat (m + j)) := by
  induction len generalizing i m with
  | zero => exact ⟨[], rfl, rfl, fun j label hlabel => by simp at hlabel⟩
  | succ len ih =>
    have hklt := height.toInt_lt
    have hnext : (i + 1).toInt = (m + 1 : ℕ) := by
      rw [toInt_add_one (by omega) (by omega), hi]
      rfl
    obtain ⟨row, hrow, hmiddle⟩ :=
      value_drawLabel highest hh hheight hi (by omega) hfits
    obtain ⟨rest, hrest, hlength, hlabels⟩ := ih hnext (by omega)
    refine ⟨⟨row, itf (highest - i)⟩ :: rest, ?_, by rw [List.length_cons, hlength], ?_⟩
    · simp [drawLabels, hrow, hrest]
    · intro j label hlabel
      cases j with
      | zero =>
        cases hlabel
        have hofNat : i = Int32.ofNat m := by
          rw [← Int32.toInt_inj, hi, Int32.toInt_ofNat_of_lt (by omega)]
        exact ⟨hmiddle, by rw [Nat.add_zero, ← hofNat]⟩
      | succ j =>
        have hlabel := hlabels j label hlabel
        rw [Nat.succ_add_eq_add_succ] at hlabel
        exact hlabel

/-- The row of floor `f`, in a window of `n`: floors are counted from the top, like rows. -/
def floorRow (n : ℕ) (highest lowest f : Int32) : ℕ :=
  middle n (highest.toInt - lowest.toInt + 1).toNat (highest.toInt - f.toInt).toNat

/-- A higher floor is in no lower row. -/
theorem floorRow_anti (n : ℕ) (highest lowest : Int32) {f g : Int32} (hfg : f ≤ g) :
    floorRow n highest lowest g ≤ floorRow n highest lowest f := by
  have hle := Int32.le_iff_toInt_le.mp hfg
  exact middle_mono n _ (by omega)

theorem floorRow_lt {f : Int32} (hn : 0 < n) (hlow : lowest ≤ f) (hhigh : f ≤ highest) :
    floorRow n highest lowest f < n := by
  have hlow := Int32.le_iff_toInt_le.mp hlow
  have hhigh := Int32.le_iff_toInt_le.mp hhigh
  exact middle_lt hn (by omega)

/-- A label of floor `f`, in its row. -/
def Label.Of (n : ℕ) (highest lowest f : Int32) (label : Label) : Prop :=
  label.text = itf f ∧ label.row.toInt = floorRow n highest lowest f

/-- One label for each floor from `highest` down to `lowest`, in a window of `n` rows. -/
structure Placed (n : ℕ) (highest lowest : Int32) (labels : List Label) : Prop where
  length : (labels.length : ℤ) = highest.toInt - lowest.toInt + 1
  every : ∀ f : Int32, lowest ≤ f → f ≤ highest → ∃ label ∈ labels, label.Of n highest lowest f
  floor : ∀ label ∈ labels, ∃ f : Int32, (lowest ≤ f ∧ f ≤ highest) ∧ label.Of n highest lowest f
  nodup_iff : (labels.map Label.row).Nodup ↔ highest.toInt - lowest.toInt + 1 ≤ n

/-- Every number fits `buf`. -/
theorem Placed.fits (hplaced : Placed n highest lowest labels) (hlow : Writable lowest)
    (hhigh : Writable highest) {label : Label} (hlabel : label ∈ labels) :
    ∃ f : Int32, Writable f ∧ label.Of n highest lowest f := by
  obtain ⟨f, ⟨hlow', hhigh'⟩, hof⟩ := hplaced.floor label hlabel
  have hlow' := Int32.le_iff_toInt_le.mp hlow'
  have hhigh' := Int32.le_iff_toInt_le.mp hhigh'
  exact ⟨f, ⟨hlow.1.trans hlow', hhigh'.trans hhigh.2⟩, hof⟩

/-- **Upright.** Of two numbers, that of the higher floor is in no lower row. -/
theorem Placed.upright (hplaced : Placed n highest lowest labels) (hlow : Writable lowest)
    (hhigh : Writable highest) {a b : Label} (ha : a ∈ labels) (hb : b ∈ labels)
    (hab : fti a.text ≤ fti b.text) : b.row.toInt ≤ a.row.toInt := by
  obtain ⟨f, hf, htext, hrow⟩ := hplaced.fits hlow hhigh ha
  obtain ⟨g, hg, htext', hrow'⟩ := hplaced.fits hlow hhigh hb
  rw [htext, htext', fti_itf hf.hasComplement, fti_itf hg.hasComplement] at hab
  rw [hrow, hrow']
  exact Int.ofNat_le.mpr (floorRow_anti n highest lowest hab)

theorem toInt_height (hle : lowest ≤ highest)
    (hfits : highest.toInt - lowest.toInt + 1 < 2 ^ 31) :
    (highest - lowest + 1).toInt = highest.toInt - lowest.toInt + 1 := by
  have hle := Int32.le_iff_toInt_le.mp hle
  have hsub : (highest - lowest).toInt = highest.toInt - lowest.toInt := by
    rw [Int32.toInt_sub]
    exact Int.bmod_eq_of_le (by omega) (by omega)
  rw [toInt_add_one (by omega) (by omega), hsub]

/-- Label `j` from the top is that of floor `highest - j`. -/
theorem label_of {f : Int32} {label : Label} (hk : highest.toInt - lowest.toInt + 1 = k)
    (hrow : label.row.toInt = middle n k m) (htext : label.text = itf (highest - Int32.ofNat m))
    (hm : m < 2 ^ 31) (hf : f.toInt = highest.toInt - m) : label.Of n highest lowest f := by
  have hfle := f.le_toInt
  have hflt := f.toInt_lt
  have hfloor : highest - Int32.ofNat m = f := by
    rw [← Int32.toInt_inj, Int32.toInt_sub, Int32.toInt_ofNat_of_lt hm,
      Int.bmod_eq_of_le (by omega) (by omega), hf]
  have hcount : (highest.toInt - f.toInt).toNat = m := by omega
  refine ⟨by rw [htext, hfloor], ?_⟩
  rw [hrow, floorRow, hk, hcount, Int.toNat_natCast]

/-- Labels in the middles of `k` parts of `n` rows are in rows of their own if there are as many. -/
theorem nodup_rows_iff (hn : 0 < n) (hlength : labels.length = k)
    (hat : ∀ {j : ℕ} (hj : j < labels.length), labels[j].row.toInt = middle n k j) :
    (labels.map Label.row).Nodup ↔ k ≤ n := by
  rw [← middles_iff hn, List.Nodup, List.pairwise_iff_getElem]
  simp only [List.length_map, List.getElem_map]
  constructor
  · intro hne i j hij hj
    have hi' : i < labels.length := by omega
    have hj' : j < labels.length := by omega
    refine lt_of_le_of_ne (middle_mono n k (Nat.le_of_lt hij)) fun heq => ?_
    apply hne i j hi' hj' hij
    rw [← Int32.toInt_inj, hat hi', hat hj', heq]
  · intro hlt i j hi hj hij heq
    have hmiddle := hlt i j hij (by omega)
    have htoInt := congrArg Int32.toInt heq
    rw [hat hi, hat hj] at htoInt
    omega

theorem placed_drawLabels (hn : 0 < n) (hh : h.toInt = n) (hle : lowest ≤ highest)
    (hfits : n * (highest.toInt - lowest.toInt + 1) < 2 ^ 30) :
    ∃ labels, (drawLabels h (highest - lowest + 1) highest
        (highest - lowest + 1).toInt.toNat 0).value = some labels ∧
      Placed n highest lowest labels := by
  have hle' := Int32.le_iff_toInt_le.mp hle
  obtain ⟨k, hk⟩ : ∃ k : ℕ, highest.toInt - lowest.toInt + 1 = k :=
    ⟨(highest.toInt - lowest.toInt + 1).toNat, by omega⟩
  rw [hk] at hfits
  have hfits : n * k < 2 ^ 30 := by exact_mod_cast hfits
  have hkn : k ≤ n * k := Nat.le_mul_of_pos_left k hn
  have hheight : (highest - lowest + 1).toInt = k := by
    rw [toInt_height hle (by omega), hk]
  obtain ⟨labels, hrun, hlength, hlabels⟩ := value_drawLabels (m := 0) highest hh hheight
    Int32.toInt_zero hfits (Nat.le_of_eq (Nat.zero_add k))
  simp only [Nat.zero_add] at hlabels
  have hat : ∀ {j : ℕ} (hj : j < labels.length), labels[j].row.toInt = middle n k j ∧
      labels[j].text = itf (highest - Int32.ofNat j) :=
    fun hj => hlabels _ _ (List.getElem?_eq_getElem hj)
  refine ⟨labels, by rw [hheight]; exact hrun, by omega, ?_, ?_, ?_⟩
  · intro f hlow hhigh
    have hlow := Int32.le_iff_toInt_le.mp hlow
    have hhigh := Int32.le_iff_toInt_le.mp hhigh
    have hj : (highest.toInt - f.toInt).toNat < labels.length := by omega
    obtain ⟨hrow, htext⟩ := hat hj
    exact ⟨_, List.getElem_mem hj, label_of hk hrow htext (by omega) (by omega)⟩
  · intro label hlabel
    obtain ⟨j, hj, rfl⟩ := List.mem_iff_getElem.mp hlabel
    obtain ⟨hrow, htext⟩ := hat hj
    have hfle := lowest.le_toInt
    have hflt := highest.toInt_lt
    have hf : (Int32.ofInt (highest.toInt - j)).toInt = highest.toInt - j :=
      Int32.toInt_ofInt_of_le (by omega) (by omega)
    refine ⟨_, ⟨?_, ?_⟩, label_of hk hrow htext (by omega) hf⟩
    · rw [Int32.le_iff_toInt_le, hf]
      omega
    · rw [Int32.le_iff_toInt_le, hf]
      omega
  · rw [hk, Int.ofNat_le]
    exact nodup_rows_iff hn hlength fun hj => (hat hj).1

/-- **The rows of the floor numbers**, for floors whose numbers fit `buf`: the loop comes to its end
with one label a floor, each in the row of its floor and that in the window; no number is below
that of a lower floor, and no two are in one row exactly if there are as many rows as floors. -/
theorem labels_placed (hh : 0 < h.toInt) (hle : lowest ≤ highest) (hlow : Writable lowest)
    (hhigh : Writable highest)
    (hfits : h.toInt * (highest.toInt - lowest.toInt + 1) < 2 ^ 30) :
    ∃ labels, (drawLabels h (highest - lowest + 1) highest
        (highest - lowest + 1).toInt.toNat 0).value = some labels ∧
      (∀ (strcmp : Strcmp) (w : Int32) (cars : List CarInfo) (picture : List Label × List Box),
        (draw strcmp w h highest lowest cars).value = some picture → picture.1 = labels) ∧
      (labels.length : ℤ) = highest.toInt - lowest.toInt + 1 ∧
      (∀ f : Int32, lowest ≤ f → f ≤ highest →
        ∃ label ∈ labels, label.Of h.toInt.toNat highest lowest f) ∧
      (∀ label ∈ labels,
        label.text.length < 4 ∧ 0 ≤ label.row.toInt ∧ label.row.toInt < h.toInt) ∧
      (∀ a ∈ labels, ∀ b ∈ labels, fti a.text ≤ fti b.text → b.row.toInt ≤ a.row.toInt) ∧
      ((labels.map Label.row).Nodup ↔ highest.toInt - lowest.toInt + 1 ≤ h.toInt) := by
  obtain ⟨n, hn⟩ : ∃ n : ℕ, h.toInt = n := ⟨h.toInt.toNat, by omega⟩
  rw [hn] at hfits ⊢
  obtain ⟨labels, hrun, hplaced⟩ := placed_drawLabels (h := h) (by omega) hn hle hfits
  refine ⟨labels, hrun, fun strcmp w cars picture hdraw => ?_, hplaced.length, hplaced.every,
    fun label hlabel => ?_, fun a ha b hb => hplaced.upright hlow hhigh ha hb, hplaced.nodup_iff⟩
  · unfold draw at hdraw
    simp only [value_bind, hrun, Option.bind_some, Option.bind_eq_some_iff, value_pure,
      Option.some.injEq] at hdraw
    obtain ⟨boxes, _, rfl⟩ := hdraw
    rfl
  · obtain ⟨f, ⟨hlow', hhigh'⟩, _, hrow⟩ := hplaced.floor label hlabel
    obtain ⟨g, hg, htext, _⟩ := hplaced.fits hlow hhigh hlabel
    have hlt := floorRow_lt (n := n) (by omega) hlow' hhigh'
    refine ⟨?_, by omega, by omega⟩
    rw [htext]
    exact (length_itf_lt_iff hg.hasComplement).mpr hg

/-- From the second basement to floor `3`, beside the three cars. -/
theorem labels_placed_threeCars : ∃ labels boxes,
    (draw (strcmpOf (-1) (by decide)) 10 24 3 (-1) threeCars).value = some (labels, boxes) ∧
      labels.length = 5 ∧ (labels.map Label.row).Nodup := by
  have hdraw : ∃ p, (draw (strcmpOf (-1) (by decide)) 10 24 3 (-1) threeCars).value = some p :=
    Option.isSome_iff_exists.mp (by decide)
  obtain ⟨⟨labels, boxes⟩, hdraw⟩ := hdraw
  obtain ⟨labels', _, hpicture, hlength, _, _, _, hnodup⟩ :=
    @labels_placed 24 3 (-1) (by decide) (by decide) (by decide) (by decide) (by decide)
  obtain rfl : labels = labels' := hpicture _ _ _ _ hdraw
  refine ⟨labels, boxes, hdraw, ?_, hnodup.mpr (by decide)⟩
  have hfive : (3 : Int32).toInt - (-1 : Int32).toInt + 1 = 5 := by decide
  omega

end Labels

end Display
end Cab403
