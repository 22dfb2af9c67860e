import Cab403.Vector.Capacity

/-!
# A `dbl_vector` stores a list

`Stores vec l` says that `vec` holds `l`, whatever its size: as many elements, on a block of
exactly `capacity` cells whose bytes can be counted, the first `size` of them the elements in
order. Nothing is said about the cells beyond `size` — they keep whatever a shift or a shrink left
there — nor about the log.

Every call makes of it what the header describes (`Op.run_stores`, one lemma per function), if it
meets a condition (`Op.Meets`): what it asks for is granted and can be counted, and its `int`
counter reaches what it has to move.
-/

namespace Cab403
namespace DblVec

open Function

variable {α : Type}

/-! ## The representation -/

/-- The block of a vector is the one its capacity says. -/
structure Backed (vec : DblVector α) (b : Block α) : Prop where
  data : vec.data = some b
  len : b.len = vec.capacity
  capacity_lt : vec.capacity < 2 ^ 61

/-- Whatever its size is set to. -/
theorem Backed.resize {vec : DblVector α} {b : Block α} (h : Backed vec b) (n : Nat) :
    Backed { vec with size := n } b :=
  ⟨h.data, h.len, h.capacity_lt⟩

/-- The vector holds the list, however long. -/
structure Stores (vec : DblVector α) (l : List α) : Prop where
  size : vec.size = l.length
  block : ∃ b, Backed vec b ∧ ∀ i < l.length, b.at i = l[i]?

/-- The log is not part of what is stored. -/
theorem Stores.relog {vec : DblVector α} {l : List α} (h : Stores vec l) (log : List Access) :
    Stores { vec with accesses := log } l := by
  obtain ⟨b, hb, hat⟩ := h.block
  exact ⟨h.size, b, ⟨hb.data, hb.len, hb.capacity_lt⟩, hat⟩

theorem Block.at_nat (b : Block α) (n : Nat) : b.at n = if n < b.len then b.cell n else none := by
  by_cases hn : n < b.len
  · rw [if_pos hn, b.at_natCast hn]
  · unfold Block.at
    rw [if_neg (by omega), if_neg hn]

theorem Block.lt_of_at {b : Block α} {n : Nat} {x : α} (h : b.at n = some x) : n < b.len := by
  by_contra hn
  rw [b.at_nat, if_neg hn] at h
  cases h

theorem Block.put_at (b : Block α) (n j : Nat) (x : Option α) :
    (b.put n x).at j = if j = n ∧ n < b.len then x else b.at j := by
  rw [Block.at_nat, Block.at_nat, Block.put_len, Block.put_cell]
  split_ifs <;> first | rfl | omega

/-- The elements are in the block. -/
theorem Block.length_le {b : Block α} {l : List α} (hb : ∀ i < l.length, b.at i = l[i]?) :
    l.length ≤ b.len := by
  cases hl : l.length with
  | zero => exact Nat.zero_le _
  | succ n =>
    have hlast := hb n (by omega)
    rw [List.getElem?_eq_getElem (by omega)] at hlast
    exact Block.lt_of_at hlast

/-- `data[0..size)`, cell by cell. -/
def DblVector.elements (vec : DblVector α) : List (Option α) :=
  (List.range vec.size).map fun k : Nat => vec.data.bind fun b => b.at k

theorem elements_eq_iff {vec : DblVector α} {b : Block α} (hdata : vec.data = some b) {l : List α} :
    vec.elements = l.map some ↔ vec.size = l.length ∧ ∀ i < l.length, b.at i = l[i]? := by
  unfold DblVector.elements
  rw [hdata]
  constructor
  · intro h
    have hsize : vec.size = l.length := by simpa using congrArg List.length h
    refine ⟨hsize, fun i hi => ?_⟩
    have hget := congrArg (·[i]?) h
    simpa [hsize, hi] using hget
  · intro h
    obtain ⟨hsize, hat⟩ := h
    refine List.ext_getElem (by simpa using hsize) fun i hi hi' => ?_
    rw [List.length_map] at hi'
    simpa [hi'] using hat i hi'

theorem Stores.elements_eq {vec : DblVector α} {l : List α} (h : Stores vec l) :
    vec.elements = l.map some := by
  obtain ⟨b, hb, hat⟩ := h.block
  exact (elements_eq_iff hb.data).mpr ⟨h.size, hat⟩

theorem stores_of_block {vec : DblVector α} {b : Block α} {l : List α} (hsize : vec.size = l.length)
    (hdata : vec.data = some b) (hlen : b.len = vec.capacity) (hlt : b.len < 2 ^ 61)
    (hat : ∀ i < l.length, b.at i = l[i]?) : Stores vec l :=
  ⟨hsize, b, ⟨hdata, hlen, hlen ▸ hlt⟩, hat⟩

theorem getElem?_inserted (l : List α) {pos j : Nat} (x : α) (hpos : pos ≤ l.length) :
    (l.insertIdx pos x)[j]? = if j = pos then some x else if pos < j then l[j - 1]? else l[j]? := by
  rw [List.getElem?_insertIdx]
  split_ifs <;> first | rfl | omega

/-! ## The functions that touch no element -/

theorem dvInit_stores : Stores (dvInit true : DblVector α) [] :=
  ⟨rfl, _, ⟨rfl, rfl, show 4 < 2 ^ 61 by decide⟩, fun i hi => absurd hi (Nat.not_lt_zero i)⟩

theorem dvPop_stores {vec : DblVector α} {l : List α} (h : Stores vec l) :
    Stores (dvPop vec) l.dropLast := by
  obtain ⟨hsize, b, hb, hat⟩ := h
  have hlength : l.dropLast.length = l.length - 1 := List.length_dropLast
  unfold dvPop
  by_cases hpos : 0 < vec.size
  · rw [if_pos hpos]
    refine ⟨by simp only; omega, b, ⟨hb.1, hb.2, hb.3⟩, fun i hi => ?_⟩
    rw [List.getElem?_dropLast, if_pos (by omega), hat i (by omega)]
  · rw [if_neg hpos]
    exact ⟨by omega, b, hb, fun i hi => absurd hi (by omega)⟩

theorem dvClear_stores {vec : DblVector α} {l : List α} (h : Stores vec l) :
    Stores (dvClear vec) [] := by
  obtain ⟨_, b, hb, _⟩ := h
  exact ⟨rfl, b, ⟨hb.1, hb.2, hb.3⟩, fun i hi => absurd hi (Nat.not_lt_zero i)⟩

/-! ## Narrowing -/

theorem narrow_eq (n : Nat) : narrow n =
    if n % 2 ^ 32 < 2 ^ 31 then ((n % 2 ^ 32 : Nat) : Int)
    else ((n % 2 ^ 32 : Nat) : Int) - 2 ^ 32 := by
  unfold narrow
  rw [Int.bmod_def]
  split_ifs <;> omega

/-- A narrowed size is itself, less than itself, or negative. -/
theorem narrow_cases (n : Nat) :
    (∃ r : Nat, narrow n = r ∧ r < 2 ^ 31 ∧ r ≤ n ∧ (n < 2 ^ 31 → r = n)) ∨
    narrow n < 0 ∧ -2 ^ 31 ≤ narrow n := by
  rw [narrow_eq]
  by_cases hn : n % 2 ^ 32 < 2 ^ 31
  · rw [if_pos hn]
    exact .inl ⟨_, rfl, hn, Nat.mod_le .., fun h => Nat.mod_eq_of_lt (by omega)⟩
  · rw [if_neg hn]
    exact .inr (by omega)

theorem sizeT_neg {i : Int} (hi : i < 0) (hmin : -2 ^ 31 ≤ i) : 2 ^ 63 ≤ sizeT i := by
  unfold sizeT
  omega

/-! ## Growing -/

variable [Machine]

/-- The storage a call asks for, if it does, is granted, and its bytes can be counted. -/
def Grows (grant : Bool) (vec : DblVector α) (n : Nat) : Prop :=
  vec.capacity < n → grant = true ∧ ensured vec.capacity n < 2 ^ 61

theorem dvEnsureCapacity_of_lt (grant : Bool) {vec : DblVector α} {n : Nat}
    (hgrow : vec.capacity < n) : dvEnsureCapacity grant vec n = { vec with
      capacity := ensured vec.capacity n
      data := realloc grant vec.data (ensured vec.capacity n * 8 % 2 ^ 64) } := by
  have hmax : (if Machine.grown vec.capacity < n then n else Machine.grown vec.capacity) =
      max (Machine.grown vec.capacity) n := by split <;> omega
  unfold dvEnsureCapacity ensured
  rw [if_pos hgrow, if_pos hgrow]
  simp only [hmax]

theorem dvEnsureCapacity_keeps {grant : Bool} {vec : DblVector α} {b : Block α} (hb : Backed vec b)
    {n : Nat} (hgrows : Grows grant vec n) :
    ∃ b', dvEnsureCapacity grant vec n = { vec with capacity := b'.len, data := some b' } ∧
      b'.len = ensured vec.capacity n ∧ n ≤ b'.len ∧ b'.len < 2 ^ 61 ∧
      ∀ i : Nat, b'.at i = b.at i := by
  obtain ⟨hdata, hlen, hcapacity⟩ := hb
  by_cases hgrow : vec.capacity < n
  · obtain ⟨rfl, hfits⟩ := hgrows hgrow
    have hmore : vec.capacity ≤ ensured vec.capacity n ∧ n ≤ ensured vec.capacity n := by
      unfold ensured
      rw [if_pos hgrow]
      omega
    rw [dvEnsureCapacity_of_lt true hgrow, realloc, if_pos rfl, hdata]
    generalize ensured vec.capacity n = c at hfits hmore
    have hbytes : c * 8 % 2 ^ 64 / 8 = c := by omega
    rw [hbytes]
    refine ⟨⟨c, _⟩, rfl, rfl, hmore.2, hfits, fun i => ?_⟩
    rw [Block.at_nat, Block.at_nat]
    simp only
    split_ifs <;> first | rfl | omega
  · have hkeep : ensured vec.capacity n = vec.capacity := if_neg hgrow
    unfold dvEnsureCapacity
    rw [if_neg hgrow, hkeep]
    exact ⟨b, by rw [hlen, ← hdata], hlen, by omega, by omega, fun _ => rfl⟩

/-! ## Insertion -/

/-- Nothing that the loop of `dv_insert_at` leaves where it was would have to move: it starts at
the new size, or what is above its start repeats the element before. -/
def InsertReaches (vec : DblVector α) (pos : Nat) : Prop :=
  vec.size < pos ∨ 0 ≤ narrow (vec.size + 1) ∧ ∀ b, vec.data = some b → ∀ j : Nat, pos < j →
    narrow (vec.size + 1) < j → j ≤ vec.size → b.at j = b.at (j - 1 : Nat)

/-- There is a cell to spare behind the new element, where the loop starts; or the store to it does
no harm. A loop that the narrowing has cut off starts inside the block. -/
def InsertFits (vec : DblVector α) (pos : Nat) : Prop :=
  vec.size < pos ∨ 2 ^ 31 ≤ vec.size + 1 ∨ vec.size + 1 < ensured vec.capacity (vec.size + 1) ∨
    Machine.harmless = true

theorem shiftUp_at {pos r fuel : Nat} {vec : DblVector α} {b : Block α} (hfuel : r < fuel)
    (hr : r < 2 ^ 31) (hadmits : b.Admits r) (hb : vec.data = some b) :
    ∃ b' log, shiftUp pos fuel r vec = some { vec with data := some b', accesses := log } ∧
      b'.len = b.len ∧ ∀ j : Nat, j < b.len →
        b'.at j = if pos < j ∧ j ≤ r then b.at (j - 1 : Nat) else b.at j := by
  by_cases hpos : pos < r
  · obtain ⟨n, rfl⟩ := Nat.exists_eq_add_of_le (Nat.le_of_lt hpos)
    obtain ⟨b', log, hrun, hlen, hcell⟩ :=
      shiftUp_cells pos n fuel vec b (by omega) hr (fun _ => hadmits) hb
    refine ⟨b', log, hrun, hlen, fun j hj => ?_⟩
    rw [Block.at_nat, Block.at_nat, Block.at_nat, hlen, hcell]
    split_ifs <;> first | rfl | omega
  · refine ⟨b, vec.accesses, ?_, rfl, fun j _ => by rw [if_neg (by omega)]⟩
    obtain ⟨fuel, rfl⟩ := Nat.exists_eq_add_of_lt hfuel
    rw [shiftUp, sizeT_natCast hr, if_neg hpos, ← hb]

theorem dvPush_stores {grant : Bool} {vec : DblVector α} {l : List α} (h : Stores vec l) (x : α)
    (hgrows : Grows grant vec (vec.size + 1)) :
    ∃ vec', dvPush grant vec x = some vec' ∧ Stores vec' (l ++ [x]) := by
  obtain ⟨hsize, b, hb, hat⟩ := h
  obtain ⟨b', hgrow, hlen, hroom, hlt, hkeep⟩ :=
    @dvEnsureCapacity_keeps _ _ grant _ b (hb.resize (vec.size + 1)) _ hgrows
  refine ⟨_, by rw [dvPush, hgrow, store_of_data rfl (Block.admits_of_lt hroom)],
    stores_of_block (b := b'.put vec.size x) (by simp [hsize]) rfl (by simp) (by simpa using hlt)
      fun i hi => ?_⟩
  rw [Block.put_at]
  rw [List.length_append, List.length_singleton] at hi
  by_cases hlast : i = vec.size
  · rw [if_pos ⟨hlast, hroom⟩, hlast, hsize, List.getElem?_concat_length]
  · rw [if_neg fun hc => hlast hc.1, hkeep, List.getElem?_append_left (by omega), hat i (by omega)]

/-- The loop starts inside the block, or where it does no harm. -/
theorem insert_admits {vec : DblVector α} {b : Block α} {pos r : Nat} (hpos : pos ≤ vec.size)
    (hfits : InsertFits vec pos) (hr : narrow (vec.size + 1) = r)
    (hlen : b.len = ensured vec.capacity (vec.size + 1)) (hroom : vec.size + 1 ≤ b.len) :
    b.Admits r := by
  obtain ⟨r', hr', hrlt, hrle, _⟩ :=
    (narrow_cases (vec.size + 1)).resolve_right fun hneg => by omega
  rcases hfits with habove | hcut | hspare | hharmless
  · exact absurd habove (Nat.not_lt_of_le hpos)
  · exact Block.admits_of_lt (by omega)
  · exact Block.admits_of_lt (by omega)
  · exact .inr hharmless

/-- **`dv_insert_at`, from a counter that is not negative**, below the size or at it. -/
theorem dvInsertAt_run {grant : Bool} {vec : DblVector α} {b : Block α} (hb : Backed vec b)
    {pos r : Nat} (x : α) (hgrows : Grows grant vec (vec.size + 1)) (hpos : pos ≤ vec.size)
    (hfits : InsertFits vec pos) (hr : narrow (vec.size + 1) = r) (hrlt : r < 2 ^ 31) :
    ∃ vec' b', dvInsertAt grant vec pos x = some vec' ∧ Backed vec' b' ∧ vec'.size = vec.size + 1 ∧
      ∀ j : Nat, j ≤ vec.size → b'.at j = if j = pos then some x
        else if pos < j ∧ j ≤ r then b.at (j - 1 : Nat) else b.at j := by
  obtain ⟨b₁, hgrow, hlen, hroom, hlt, hkeep⟩ :=
    @dvEnsureCapacity_keeps _ _ grant _ b (hb.resize (vec.size + 1)) _ hgrows
  obtain ⟨b₂, log, hrun, hlen₂, hat⟩ := @shiftUp_at _ _ pos r intSteps
    { vec with size := vec.size + 1, capacity := b₁.len, data := some b₁ } b₁
    (by unfold intSteps; omega) hrlt (insert_admits hpos hfits hr hlen hroom) rfl
  have hins : dvInsertAt grant vec pos x = some { vec with
      size := vec.size + 1, capacity := b₁.len, data := some (b₂.put pos (some x))
      accesses := .store pos b₁.len :: log } := by
    rw [dvInsertAt, if_neg (Nat.not_lt_of_le hpos)]
    simp only [hgrow, hr, hrun, Option.bind_eq_bind, Option.bind_some]
    exact store_of_data rfl (Block.admits_of_lt (by omega)) _
  refine ⟨_, _, hins, ⟨rfl, (b₂.put_len _ _).trans hlen₂, hlt⟩, rfl, fun j hj => ?_⟩
  rw [Block.put_at, hat j (by omega), hkeep, hkeep]
  split_ifs <;> first | rfl | omega

theorem dvInsertAt_stores {grant : Bool} {vec : DblVector α} {l : List α} (h : Stores vec l)
    {pos : Nat} (x : α) (hgrows : Grows grant vec (vec.size + 1)) (hreaches : InsertReaches vec pos)
    (hinside : InsertFits vec pos) : ∃ vec', dvInsertAt grant vec pos x = some vec' ∧
      Stores vec' (l.insertIdx (min pos l.length) x) := by
  by_cases hpos : vec.size < pos
  · obtain ⟨vec', hpush, hstores⟩ := dvPush_stores h x hgrows
    refine ⟨vec', by rw [dvInsertAt, if_pos hpos, hpush], ?_⟩
    have hsize := h.size
    rw [Nat.min_eq_right (by omega), List.insertIdx_length_self]
    exact hstores
  · obtain ⟨hstart, hsame⟩ := hreaches.resolve_left hpos
    obtain ⟨hsize, b, hb, hat⟩ := h
    rcases narrow_cases (vec.size + 1) with ⟨r, hr, hrlt, hrle, hself⟩ | ⟨hneg, _⟩
    · obtain ⟨vec', b', hrun, hb', hsize', hat'⟩ :=
        dvInsertAt_run hb x hgrows (Nat.le_of_not_lt hpos) hinside hr hrlt
      have hlength : (l.insertIdx pos x).length = l.length + 1 := by
        rw [List.length_insertIdx, if_pos (by omega)]
      rw [Nat.min_eq_left (by omega)]
      refine ⟨vec', hrun, by omega, b', hb', fun i hi => ?_⟩
      rw [hat' i (by omega), getElem?_inserted l x (by omega)]
      by_cases hipos : i = pos
      · rw [if_pos hipos, if_pos hipos]
      rw [if_neg hipos, if_neg hipos]
      by_cases habove : pos < i
      · rw [if_pos habove]
        by_cases hmoved : i ≤ r
        · rw [if_pos ⟨habove, hmoved⟩, hat (i - 1) (by omega)]
        · -- not moved, but the same as the one before
          rw [if_neg fun hc => hmoved hc.2, hsame b hb.data i habove (by omega) (by omega),
            hat (i - 1) (by omega)]
      · rw [if_neg fun hc => habove hc.1, if_neg habove, hat i (by omega)]
    · omega

/-! ## Removal -/

/-- Nothing that the loop of `dv_remove_at` leaves where it was would have to move: it comes to
the end, or it moves nothing, and from the position on all elements are the same. -/
def RemoveReaches (vec : DblVector α) (pos : Nat) : Prop :=
  vec.size ≤ pos ∨ vec.size ≤ 2 ^ 31 ∨ narrow pos < 0 ∧ ∀ b, vec.data = some b →
    ∀ j : Nat, pos ≤ j → j + 1 < vec.size → b.at (j + 1 : Nat) = b.at j

/-- The loop from a negative counter. -/
theorem dvRemoveAt_still {vec : DblVector α} {pos : Nat} (hpos : pos < vec.size)
    (hsize : vec.size < 2 ^ 63) (hneg : narrow pos < 0) (hmin : -2 ^ 31 ≤ narrow pos) :
    dvRemoveAt vec pos = some { vec with size := vec.size - 1 } := by
  have hstart := sizeT_neg hneg hmin
  obtain ⟨fuel, hfuel⟩ : ∃ fuel, intSteps = fuel + 1 := ⟨2 ^ 32 - 1, rfl⟩
  rw [dvRemoveAt, if_pos hpos, hfuel, shiftDown, if_neg]
  simp only
  omega

theorem dvRemoveAt_stores {vec : DblVector α} {l : List α} (h : Stores vec l) {pos : Nat}
    (hreaches : RemoveReaches vec pos) :
    ∃ vec', dvRemoveAt vec pos = some vec' ∧ Stores vec' (l.eraseIdx pos) := by
  by_cases hpos : pos < vec.size
  · obtain ⟨hsize, b, hb, hat⟩ := h
    have hfits := Block.length_le hat
    have hlen := hb.len
    have hcapacity := hb.capacity_lt
    have hlength : (l.eraseIdx pos).length = l.length - 1 := by
      rw [List.length_eraseIdx, if_pos (by omega)]
    rcases hreaches.resolve_left (Nat.not_le_of_lt hpos) with hsmall | ⟨hneg, hsame⟩
    · obtain ⟨n, hn⟩ := Nat.exists_eq_add_of_le (Nat.le_sub_one_of_lt hpos)
      obtain ⟨d, log, hrun, hdlen, hcell⟩ := shiftDown_cells n intSteps pos
        { vec with size := vec.size - 1 } b (by unfold intSteps; omega) hn
        (by simp only; omega) (by simp only; omega) hb.data
      refine ⟨_, by rw [dvRemoveAt, if_pos hpos, narrow_of_lt (by omega), hrun],
        stores_of_block (b := d) (by simp only; omega) rfl (by rw [hdlen, hlen]) (by omega)
          fun i hi => ?_⟩
      rw [Block.at_nat, if_pos (by omega), hcell, List.getElem?_eraseIdx]
      have hi₀ := hat i (by omega)
      rw [Block.at_nat, if_pos (by omega)] at hi₀
      by_cases hbelow : i < pos
      · rw [if_neg (by omega), if_pos hbelow, hi₀]
      · have hi₁ := hat (i + 1) (by omega)
        rw [Block.at_nat, if_pos (by omega)] at hi₁
        rw [if_pos (by omega), if_neg hbelow, hi₁]
    · have hmin : -2 ^ 31 ≤ narrow pos := by
        rcases narrow_cases pos with ⟨r, hr, _⟩ | ⟨_, hmin⟩
        · omega
        · exact hmin
      refine ⟨_, dvRemoveAt_still hpos (by omega) hneg hmin,
        stores_of_block (b := b) (by simp only; omega) hb.data hlen (by omega) fun i hi => ?_⟩
      rw [List.getElem?_eraseIdx]
      by_cases hbelow : i < pos
      · rw [if_pos hbelow, hat i (by omega)]
      · rw [if_neg hbelow, ← hsame b hb.data i (by omega) (by omega), hat (i + 1) (by omega)]
  · refine ⟨vec, by rw [dvRemoveAt, if_neg hpos], ?_⟩
    have hsize := h.size
    rw [List.eraseIdx_of_length_le (by omega)]
    exact h

/-! ## Copying and visiting -/

theorem dvCopy_stores {grant : Bool} {vec dest : DblVector α} {l m : List α} (h : Stores vec l)
    (h' : Stores dest m) (hsmall : vec.size < 2 ^ 31) (hgrows : Grows grant dest vec.size) :
    ∃ vec' dest', dvCopy grant vec dest = some (vec', dest') ∧ Stores vec' l ∧ Stores dest' l := by
  obtain ⟨hsize, b, hb, hat⟩ := h
  obtain ⟨_, d, hd, _⟩ := h'
  have hfits := Block.length_le hat
  obtain ⟨d', hgrow, _, hroom, hlt, _⟩ :=
    @dvEnsureCapacity_keeps _ _ grant _ d (hd.resize vec.size) _ hgrows
  obtain ⟨d₁, log, log', hrun, hlen₁, hcell⟩ := copyLoop_cells vec.size intSteps 0 vec
    { dest with size := vec.size, capacity := d'.len, data := some d' } b d'
    (by unfold intSteps; omega) (by omega) hsmall (by omega) hroom hb.data rfl
  have hcopy : dvCopy grant vec dest = some ({ vec with accesses := log }, { dest with
      size := vec.size, capacity := d'.len, data := some d₁, accesses := log' }) := by
    rw [dvCopy]
    simp only [hgrow]
    exact hrun
  refine ⟨_, _, hcopy, Stores.relog ⟨hsize, b, hb, hat⟩ log,
    stores_of_block hsize rfl hlen₁ (hlen₁ ▸ hlt) fun i hi => ?_⟩
  have hi₀ := hat i hi
  rw [Block.at_nat, if_pos (by omega)] at hi₀
  rw [Block.at_nat, if_pos (by omega), hcell, if_pos (by omega), hi₀]

theorem dvForeach_run {σ : Type} {vec : DblVector α} {l : List α} (h : Stores vec l)
    (hsmall : vec.size < 2 ^ 31) (callback : Option α → σ → σ) (info : σ) :
    ∃ log, dvForeach vec callback info = some ({ vec with accesses := log },
      l.foldl (fun info x => callback (some x) info) info) := by
  obtain ⟨hsize, b, hb, hat⟩ := h
  have hfits := Block.length_le hat
  obtain ⟨log, hrun⟩ := foreachLoop_fold callback vec.size intSteps 0 vec b info
    (by unfold intSteps; omega) (by omega) hsmall (by omega) hb.data
  have hcells : (List.range' 0 vec.size).map b.cell = l.map some := by
    refine List.ext_getElem (by simpa using hsize) fun i hi hi' => ?_
    rw [List.length_map] at hi'
    have hi₀ := hat i hi'
    rw [Block.at_nat, if_pos (by omega)] at hi₀
    simpa [hi'] using hi₀
  rw [hcells, List.foldl_map] at hrun
  exact ⟨log, hrun⟩

/-! ## The other functions -/

theorem dvEnsureCapacity_stores {grant : Bool} {vec : DblVector α} {l : List α} (h : Stores vec l)
    {n : Nat} (hgrows : Grows grant vec n) : Stores (dvEnsureCapacity grant vec n) l := by
  obtain ⟨hsize, b, hb, hat⟩ := h
  obtain ⟨b', hgrow, _, _, hlt, hkeep⟩ := dvEnsureCapacity_keeps hb hgrows
  rw [hgrow]
  exact stores_of_block hsize rfl rfl hlt fun i hi => (hkeep i).trans (hat i hi)

theorem dvLast_run {vec : DblVector α} {l : List α} (h : Stores vec l) (nan : α) :
    ∃ log, dvLast nan vec = some (some (l.getLastD nan), { vec with accesses := log }) := by
  obtain ⟨hsize, b, hb, hat⟩ := h
  unfold dvLast
  by_cases hpos : 0 < vec.size
  · have hlast : b.at (vec.size - 1 : Nat) = some (l.getLastD nan) := by
      rw [hat _ (by omega), List.getLastD_eq_getLast?, List.getLast?_eq_getElem?, hsize,
        List.getElem?_eq_getElem (by omega)]
      rfl
    rw [if_pos hpos, load_of_data hb.data (Block.admits_of_lt (Block.lt_of_at hlast)), hlast]
    exact ⟨_, rfl⟩
  · rw [if_neg hpos]
    obtain rfl : l = [] := List.eq_nil_of_length_eq_zero (by omega)
    exact ⟨vec.accesses, rfl⟩

/-! ## Families of vectors -/

variable {ι : Type} [DecidableEq ι]

/-- The list operation a call stands for. -/
def Op.spec (ls : ι → List α) : Op ι α → ι → List α
  | .push v x => Function.update ls v (ls v ++ [x])
  | .pop v => Function.update ls v (ls v).dropLast
  | .insertAt v pos x => Function.update ls v ((ls v).insertIdx (min pos (ls v).length) x)
  | .removeAt v pos =>
      Function.update ls v (if pos < (ls v).length then (ls v).eraseIdx pos else ls v)
  | .clear v => Function.update ls v []
  | .ensureCapacity _ _ => ls
  | .copy vec dest _ => Function.update ls dest (ls vec)

omit [Machine] in
theorem stores_update {vs : ι → DblVector α} {ls : ι → List α} (h : ∀ v, Stores (vs v) (ls v))
    {v : ι} {vec : DblVector α} {l : List α} (hv : Stores vec l) (w : ι) :
    Stores (update vs v vec w) (update ls v l w) := by
  by_cases hw : w = v
  · subst hw
    rw [update_self, update_self]
    exact hv
  · rw [update_of_ne hw, update_of_ne hw]
    exact h w

omit [Machine] in
theorem stores_update_same {vs : ι → DblVector α} {ls : ι → List α}
    (h : ∀ v, Stores (vs v) (ls v)) {v : ι} {vec : DblVector α} (hv : Stores vec (ls v)) (w : ι) :
    Stores (update vs v vec w) (ls w) := by
  have hw := stores_update (v := v) h hv w
  rwa [update_eq_self] at hw

/-- The call gets what it asks for, and its loop reaches what it has to move. -/
def Op.Meets (grant : Bool) (vs : ι → DblVector α) : Op ι α → Prop
  | .push v _ => Grows grant (vs v) ((vs v).size + 1)
  | .insertAt v pos _ =>
      Grows grant (vs v) ((vs v).size + 1) ∧ InsertReaches (vs v) pos ∧ InsertFits (vs v) pos
  | .removeAt v pos => RemoveReaches (vs v) pos
  | .ensureCapacity v newSize => Grows grant (vs v) newSize
  | .copy vec dest _ => (vs vec).size < 2 ^ 31 ∧ Grows grant (vs dest) (vs vec).size
  | .pop _ | .clear _ => True

/-- **The call does what it stands for.** -/
theorem Op.run_stores {grant : Bool} {vs : ι → DblVector α} {ls : ι → List α}
    (h : ∀ v, Stores (vs v) (ls v)) {op : Op ι α} (hmeets : op.Meets grant vs) :
    ∃ vs', op.run grant vs = some vs' ∧ ∀ v, Stores (vs' v) (op.spec ls v) := by
  cases op with
  | push v x =>
    obtain ⟨vec, hrun, hvec⟩ := dvPush_stores (h v) x hmeets
    exact ⟨_, by rw [Op.run, hrun]; rfl, stores_update h hvec⟩
  | pop v => exact ⟨_, rfl, stores_update h (dvPop_stores (h v))⟩
  | insertAt v pos x =>
    obtain ⟨vec, hrun, hvec⟩ := dvInsertAt_stores (h v) x hmeets.1 hmeets.2.1 hmeets.2.2
    exact ⟨_, by rw [Op.run, hrun]; rfl, stores_update h hvec⟩
  | removeAt v pos =>
    obtain ⟨vec, hrun, hvec⟩ := dvRemoveAt_stores (h v) hmeets
    refine ⟨_, by rw [Op.run, hrun]; rfl, stores_update h ?_⟩
    by_cases hpos : pos < (ls v).length
    · rwa [if_pos hpos]
    · rwa [if_neg hpos, ← List.eraseIdx_of_length_le (Nat.le_of_not_lt hpos)]
  | clear v => exact ⟨_, rfl, stores_update h (dvClear_stores (h v))⟩
  | ensureCapacity v n =>
    exact ⟨_, rfl, stores_update_same h (dvEnsureCapacity_stores (h v) hmeets)⟩
  | copy vec dest hne =>
    obtain ⟨vec', dest', hrun, hvec, hdest⟩ := dvCopy_stores (h vec) (h dest) hmeets.1 hmeets.2
    exact ⟨_, by rw [Op.run, hrun]; rfl, stores_update (stores_update_same h hvec) hdest⟩

end DblVec
end Cab403
