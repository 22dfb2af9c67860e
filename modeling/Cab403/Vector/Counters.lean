import Cab403.Vector.Stores

/-!
# `int` counters and `size_t` sizes

The loops of `dbl_vector` count in `int`s, and a vector's size is a `size_t`. Here a vector is any
whose block fits into memory, and each of the four functions with a loop is followed for every
size, beyond the conditions it can meet.

* A loop that counts up comes to the end of `int` before it comes to a size of `2 ^ 31`.
* `dv_insert_at` starts at the new size, narrowed. If that is negative, it counts down to the end
  of `int`; if not, the loop starts so far below the end as the narrowing has cut off.
* `dv_remove_at` starts at the position, narrowed. If that is negative, the comparison with the
  size is made with a very large number, and nothing is moved.

Where elements are not moved that should have been, this can be seen only if the elements differ.
So the conditions under which the functions keep their promises (`InsertReaches`, `RemoveReaches`)
speak of the elements as well.
-/

namespace Cab403
namespace DblVec

variable {α : Type}

/-! ## Loops that run out of `int` -/

theorem sizeT_nonneg {i : Int} (hi : 0 ≤ i) (hmax : i < 2 ^ 31) : sizeT i = i.toNat := by
  unfold sizeT
  omega

section Machines

variable [Machine]

/-- Counting down from below zero. -/
theorem shiftUp_none {pos fuel : Nat} {i : Int} {vec : DblVector α} (hpos : pos < 2 ^ 63)
    (hi : i < 0) (hmin : -2 ^ 31 ≤ i) : shiftUp pos fuel i vec = none := by
  induction fuel generalizing i vec with
  | zero => rfl
  | succ fuel ih =>
    unfold shiftUp
    rw [if_pos (Nat.lt_of_lt_of_le hpos (sizeT_neg hi hmin))]
    by_cases hend : i = -2 ^ 31
    · -- the last one
      subst hend
      rfl
    · rw [asInt_of_mem (by omega) (by omega)]
      simp only [Option.bind_eq_bind, Option.bind_some]
      cases vec.load (i - 1) with
      | none => rfl
      | some p =>
        rw [Option.bind_some]
        cases p.2.store i p.1 with
        | none => rfl
        | some vec' => exact ih (by omega) (by omega)

/-- Counting up to a size no `int` reaches. -/
theorem shiftDown_none {fuel : Nat} {i : Int} {vec : DblVector α} (hsize : 2 ^ 31 ≤ vec.size)
    (hi : 0 ≤ i) (hmax : i < 2 ^ 31) : shiftDown fuel i vec = none := by
  induction fuel generalizing i vec with
  | zero => rfl
  | succ fuel ih =>
    unfold shiftDown
    rw [sizeT_nonneg hi hmax, if_pos (by omega)]
    by_cases hend : i + 1 = 2 ^ 31
    · rw [hend]
      rfl
    · rw [asInt_of_mem (by omega) (by omega)]
      simp only [Option.bind_eq_bind, Option.bind_some]
      cases hload : vec.load (i + 1) with
      | none => rfl
      | some p =>
        rw [Option.bind_some]
        cases hstore : p.2.store i p.1 with
        | none => rfl
        | some vec' =>
          have hshape := (load_shape hload).trans (store_shape hstore)
          exact ih (hshape.size ▸ hsize) (by omega) (by omega)

theorem copyLoop_none {fuel : Nat} {i : Int} {vec dest : DblVector α} (hsize : 2 ^ 31 ≤ vec.size)
    (hi : 0 ≤ i) (hmax : i < 2 ^ 31) : copyLoop fuel i vec dest = none := by
  induction fuel generalizing i vec dest with
  | zero => rfl
  | succ fuel ih =>
    unfold copyLoop
    rw [sizeT_nonneg hi hmax, if_pos (by omega)]
    simp only [Option.bind_eq_bind]
    cases hload : vec.load i with
    | none => rfl
    | some p =>
      rw [Option.bind_some]
      cases dest.store i p.1 with
      | none => rfl
      | some dest' =>
        rw [Option.bind_some]
        by_cases hend : i + 1 = 2 ^ 31
        · rw [hend]
          rfl
        · rw [asInt_of_mem (by omega) (by omega), Option.bind_some]
          exact ih ((load_shape hload).size ▸ hsize) (by omega) (by omega)

theorem foreachLoop_none {σ : Type} {callback : Option α → σ → σ} {fuel : Nat} {i : Int}
    {vec : DblVector α} {info : σ} (hsize : 2 ^ 31 ≤ vec.size) (hi : 0 ≤ i) (hmax : i < 2 ^ 31) :
    foreachLoop callback fuel i vec info = none := by
  induction fuel generalizing i vec info with
  | zero => rfl
  | succ fuel ih =>
    unfold foreachLoop
    rw [sizeT_nonneg hi hmax, if_pos (by omega)]
    simp only [Option.bind_eq_bind]
    cases hload : vec.load i with
    | none => rfl
    | some p =>
      rw [Option.bind_some]
      by_cases hend : i + 1 = 2 ^ 31
      · rw [hend]
        rfl
      · rw [asInt_of_mem (by omega) (by omega), Option.bind_some]
        exact ih ((load_shape hload).size ▸ hsize) (by omega) (by omega)

/-! ## Storage refused -/

/-- Without the storage the vector has no block, or one that is too small. -/
theorem dvEnsureCapacity_fails {grant : Bool} {vec : DblVector α}
    (hcapacity : vec.capacity < 2 ^ 61)
    {n : Nat} (hgrows : ¬ Grows grant vec n) {b : Block α}
    (hb : (dvEnsureCapacity grant vec n).data = some b) :
    b.len < ensured vec.capacity n ∧ (n ≤ vec.capacity + 1 → b.len < n) := by
  obtain ⟨hgrow, hfails⟩ := Classical.not_imp.mp hgrows
  rw [dvEnsureCapacity_of_lt grant hgrow] at hb
  cases grant with
  | false => cases hb
  | true =>
    rw [realloc, if_pos rfl] at hb
    obtain rfl := Option.some.inj hb
    rw [eq_self, true_and] at hfails
    simp only
    refine ⟨by omega, fun hn => ?_⟩
    -- one more element than there was room for: the count wraps once
    have hmore : ensured vec.capacity n = max (Machine.grown vec.capacity) n := if_pos hgrow
    have htwice := Machine.grown_le vec.capacity
    have hwrap : ensured vec.capacity n * 8 % 2 ^ 64 / 8 = ensured vec.capacity n - 2 ^ 61 := by
      omega
    omega

/-! ## Insertion -/

/-- A vector that has grown to no avail does not hold one element more. -/
theorem grows_of_elements {grant : Bool} {vec vec' : DblVector α} {l l' : List α}
    (h : Stores vec l) (hlength : l'.length = l.length + 1)
    (hframe :
      SameShape (dvEnsureCapacity grant { vec with size := vec.size + 1 } (vec.size + 1)) vec')
    (helements : vec'.elements = l'.map some) : Grows grant vec (vec.size + 1) := by
  obtain ⟨hsize, b, hb, hat⟩ := h
  have hfits := Block.length_le hat
  have hlen := hb.len
  cases hdata : vec'.data with
  | none =>
    have hlast : vec'.elements[l.length]? = some none := by
      unfold DblVector.elements
      rw [hdata, hframe.size, (dvEnsureCapacity_shape grant _ _).1]
      simp [hsize]
    rw [helements] at hlast
    simp [hlength] at hlast
  | some b' =>
    obtain ⟨_, hat'⟩ := (elements_eq_iff hdata).mp helements
    have hfits' := Block.length_le hat'
    by_contra hgrows
    have hframelen := hframe.len
    rw [hdata] at hframelen
    obtain ⟨b₁, hb₁, hb₁len⟩ := Option.map_eq_some_iff.mp hframelen.symm
    have hfails :=
      @dvEnsureCapacity_fails _ _ grant { vec with size := vec.size + 1 } hb.capacity_lt _
      hgrows b₁ hb₁
    have hshort := hfails.2 (by simp only; omega)
    omega

/-- A loop that gets past its first iteration starts inside the block, or where it does no harm. -/
theorem shiftUp_admits {pos r fuel : Nat} {vec vec' : DblVector α} {b : Block α} (hpos : pos < r)
    (hr : r < 2 ^ 31) (hb : vec.data = some b) (hrun : shiftUp pos fuel r vec = some vec') :
    b.Admits r := by
  cases fuel with
  | zero => cases hrun
  | succ fuel =>
    rw [shiftUp, sizeT_natCast hr, if_pos hpos] at hrun
    obtain ⟨below, _, hrun⟩ := Option.bind_eq_some_iff.mp hrun
    obtain ⟨⟨x, vec₁⟩, hload, hrun⟩ := Option.bind_eq_some_iff.mp hrun
    obtain ⟨vec₂, hstore, _⟩ := Option.bind_eq_some_iff.mp hrun
    obtain ⟨_, _, _, rfl⟩ := load_some hload
    obtain ⟨b₁, hb₁, hadmits, _⟩ := store_some hstore
    obtain rfl : b = b₁ := Option.some.inj (hb.symm.trans hb₁)
    exact hadmits

theorem insertFits_of_run {grant : Bool} {vec vec' : DblVector α} {b : Block α} (hb : Backed vec b)
    {pos : Nat} {x : α} (hgrows : Grows grant vec (vec.size + 1))
    (hrun : dvInsertAt grant vec pos x = some vec') : InsertFits vec pos := by
  by_cases hpos : vec.size < pos
  · exact .inl hpos
  by_cases hcut : 2 ^ 31 ≤ vec.size + 1
  · exact .inr (.inl hcut)
  obtain ⟨b₁, hgrow, hlen, _⟩ :=
    @dvEnsureCapacity_keeps _ _ grant _ b (hb.resize (vec.size + 1)) _ hgrows
  rw [dvInsertAt, if_neg hpos] at hrun
  obtain ⟨vec₁, hshift, _⟩ := Option.bind_eq_some_iff.mp hrun
  simp only [hgrow] at hshift
  rw [narrow_of_lt (by omega)] at hshift
  rcases shiftUp_admits (by omega) (by omega) rfl hshift with hinside | hharmless
  · rw [hlen] at hinside
    exact .inr (.inr (.inl (Int.ofNat_lt.mp hinside.2)))
  · exact .inr (.inr (.inr hharmless))

/-- And without the condition it does not do as it should. -/
theorem insertReaches_of_elements {grant : Bool} {vec vec' : DblVector α} {l : List α}
    (h : Stores vec l) {pos : Nat} {x : α} (hrun : dvInsertAt grant vec pos x = some vec')
    (helements : vec'.elements = (l.insertIdx (min pos l.length) x).map some) :
    Grows grant vec (vec.size + 1) ∧ InsertReaches vec pos ∧ InsertFits vec pos := by
  have hlength : (l.insertIdx (min pos l.length) x).length = l.length + 1 := by
    rw [List.length_insertIdx, if_pos (Nat.min_le_right ..)]
  have hgrows := grows_of_elements h hlength (dvInsertAt_frame hrun) helements
  obtain ⟨hsize, b, hb, hat⟩ := h
  have hinside := insertFits_of_run hb hgrows hrun
  refine ⟨hgrows, ?_, hinside⟩
  by_cases hpos : vec.size < pos
  · exact .inl hpos
  have hfits := Block.length_le hat
  have hlen := hb.len
  have hcapacity := hb.capacity_lt
  rcases narrow_cases (vec.size + 1) with ⟨r, hr, hrlt, _⟩ | ⟨hneg, hmin⟩
  · refine .inr ⟨by omega, fun b' hb' j hposj hrj hj => ?_⟩
    obtain rfl : b = b' := Option.some.inj (hb.data.symm.trans hb')
    obtain ⟨vec₁, b₁, hrun₁, hb₁, _, hat₁⟩ :=
      dvInsertAt_run hb x hgrows (Nat.le_of_not_lt hpos) hinside hr hrlt
    obtain rfl : vec₁ = vec' := Option.some.inj (hrun₁.symm.trans hrun)
    obtain ⟨_, hinserted⟩ := (elements_eq_iff hb₁.data).mp helements
    have hj₁ := hinserted j (by omega)
    rw [hat₁ j hj, Nat.min_eq_left (by omega), getElem?_inserted l x (by omega),
      if_neg (by omega), if_neg (by omega), if_neg (by omega), if_pos hposj] at hj₁
    rw [hj₁, hat (j - 1) (by omega)]
  · -- the loop counts down to the end of `int`
    rw [dvInsertAt, if_neg hpos] at hrun
    obtain ⟨vec₁, hshift, _⟩ := Option.bind_eq_some_iff.mp hrun
    rw [(dvEnsureCapacity_shape grant _ _).1, shiftUp_none (by omega) hneg hmin] at hshift
    cases hshift

/-! ## Removal -/

theorem removeReaches_of_elements {vec vec' : DblVector α} {l : List α} (h : Stores vec l)
    {pos : Nat} (hrun : dvRemoveAt vec pos = some vec')
    (helements : vec'.elements = (l.eraseIdx pos).map some) : RemoveReaches vec pos := by
  by_cases hpos : pos < vec.size
  · obtain ⟨hsize, b, hb, hat⟩ := h
    have hfits := Block.length_le hat
    have hlen := hb.len
    have hcapacity := hb.capacity_lt
    by_cases hsmall : vec.size ≤ 2 ^ 31
    · exact .inr (.inl hsmall)
    rcases narrow_cases pos with ⟨r, hr, hrlt, _⟩ | ⟨hneg, hmin⟩
    · -- the loop counts up to the end of `int`
      rw [dvRemoveAt, if_pos hpos, hr, shiftDown_none (by simp only; omega) (by omega) (by omega)]
        at hrun
      cases hrun
    · refine .inr (.inr ⟨hneg, fun b' hb' j hposj hj => ?_⟩)
      obtain rfl : b = b' := Option.some.inj (hb.data.symm.trans hb')
      rw [dvRemoveAt_still hpos (by omega) hneg hmin] at hrun
      cases hrun
      obtain ⟨_, herased⟩ :=
        (@elements_eq_iff _ { vec with size := vec.size - 1 } b hb.data _).mp helements
      have hlength : (l.eraseIdx pos).length = l.length - 1 := by
        rw [List.length_eraseIdx, if_pos (by omega)]
      have hj₁ := herased j (by omega)
      rw [List.getElem?_eraseIdx, if_neg (by omega)] at hj₁
      rw [hj₁, hat (j + 1) (by omega)]
  · exact .inl (Nat.le_of_not_lt hpos)

/-! ## Copying and visiting -/

theorem small_of_copy {grant : Bool} {vec dest : DblVector α} {r : DblVector α × DblVector α}
    (hrun : dvCopy grant vec dest = some r) : vec.size < 2 ^ 31 := by
  by_contra hlarge
  rw [dvCopy, copyLoop_none (by omega) (by omega) (by omega)] at hrun
  cases hrun

theorem small_of_foreach {σ : Type} {vec : DblVector α} {callback : Option α → σ → σ} {info : σ}
    {r : DblVector α × σ} (hrun : dvForeach vec callback info = some r) : vec.size < 2 ^ 31 := by
  by_contra hlarge
  rw [dvForeach, foreachLoop_none (by omega) (by omega) (by omega)] at hrun
  cases hrun

end Machines

/-! ## The promises of the header

From here on the machine is the one the file is compiled for. -/

def InsertKept (vec : DblVector α) (l : List α) (pos : Nat) (x : α) : Prop :=
  ∃ vec', dvInsertAt true vec pos x = some vec' ∧
    vec'.elements = (l.insertIdx (min pos l.length) x).map some

def RemoveKept (vec : DblVector α) (l : List α) (pos : Nat) : Prop :=
  ∃ vec', dvRemoveAt vec pos = some vec' ∧ vec'.elements = (l.eraseIdx pos).map some

def CopyKept (vec dest : DblVector α) (l : List α) : Prop :=
  ∃ vec' dest', dvCopy true vec dest = some (vec', dest') ∧ vec'.elements = l.map some ∧
    dest'.elements = l.map some

def ForeachKept (vec : DblVector α) (l : List α) : Prop :=
  ∀ (σ : Type) (callback : Option α → σ → σ) (info : σ), ∃ vec',
    dvForeach vec callback info = some (vec', l.foldl (fun info x => callback (some x) info) info)

/-- **Exactly which vectors the four functions can handle**, of all that fit into memory. -/
theorem promises_kept_iff {vec dest : DblVector α} {l m : List α} (h : Stores vec l)
    (h' : Stores dest m) (pos : Nat) (x : α) :
    (InsertKept vec l pos x ↔
      Grows true vec (vec.size + 1) ∧ InsertReaches vec pos ∧ InsertFits vec pos) ∧
    (RemoveKept vec l pos ↔ RemoveReaches vec pos) ∧
    (CopyKept vec dest l ↔ vec.size < 2 ^ 31) ∧
    (ForeachKept vec l ↔ vec.size < 2 ^ 31) := by
  refine ⟨⟨?_, ?_⟩, ⟨?_, ?_⟩, ⟨?_, ?_⟩, ⟨?_, ?_⟩⟩
  · intro hkept
    obtain ⟨vec', hrun, helements⟩ := hkept
    exact insertReaches_of_elements h hrun helements
  · intro hreaches
    obtain ⟨vec', hrun, hstores⟩ := dvInsertAt_stores h x hreaches.1 hreaches.2.1 hreaches.2.2
    exact ⟨vec', hrun, hstores.elements_eq⟩
  · intro hkept
    obtain ⟨vec', hrun, helements⟩ := hkept
    exact removeReaches_of_elements h hrun helements
  · intro hreaches
    obtain ⟨vec', hrun, hstores⟩ := dvRemoveAt_stores h hreaches
    exact ⟨vec', hrun, hstores.elements_eq⟩
  · intro hkept
    obtain ⟨_, _, hrun, _⟩ := hkept
    exact small_of_copy hrun
  · intro hsmall
    have hgrows : Grows true dest vec.size := by
      intro hgrow
      have htwice := Machine.grown_le dest.capacity
      unfold ensured
      rw [if_pos hgrow]
      exact ⟨rfl, by omega⟩
    obtain ⟨vec', dest', hrun, hvec, hdest⟩ := dvCopy_stores h h' hsmall hgrows
    exact ⟨vec', dest', hrun, hvec.elements_eq, hdest.elements_eq⟩
  · intro hkept
    obtain ⟨_, hrun⟩ := hkept Unit (fun _ info => info) ()
    exact small_of_foreach hrun
  · intro hsmall σ callback info
    obtain ⟨log, hrun⟩ := dvForeach_run h hsmall callback info
    exact ⟨_, hrun⟩

/-- The vector `5 7`, as `dv_init` and two calls of `dv_push` leave it. -/
def fiveSeven : DblVector Int := ⟨2, 4, some ⟨4, fun i => [5, 7][i]?⟩, []⟩

theorem promises_kept_small : InsertKept fiveSeven [5, 7] 1 6 ∧ RemoveKept fiveSeven [5, 7] 0 ∧
    CopyKept fiveSeven fiveSeven [5, 7] ∧ ForeachKept fiveSeven [5, 7] := by
  have hstores : Stores fiveSeven [5, 7] := by
    refine ⟨rfl, _, ⟨rfl, rfl, by decide⟩, fun i hi => ?_⟩
    rw [Block.at_nat, if_pos (Nat.lt_of_lt_of_le hi (by decide))]
  have hiff := promises_kept_iff hstores hstores
  have hgrows : Grows true fiveSeven (fiveSeven.size + 1) :=
    fun hgrow => absurd hgrow (by decide)
  have hreaches : InsertReaches fiveSeven 1 := by
    refine .inr ⟨by decide, fun b hb j hpos hstart hj => ?_⟩
    have hthree : narrow (fiveSeven.size + 1) = 3 := by decide
    have htwo : fiveSeven.size = 2 := rfl
    omega
  have hfits : InsertFits fiveSeven 1 := .inr (.inr (.inl (by decide)))
  exact ⟨(hiff 1 6).1.mpr ⟨hgrows, hreaches, hfits⟩, (hiff 0 6).2.1.mpr (.inr (.inl (by decide))),
    (hiff 0 6).2.2.1.mpr (by decide), (hiff 0 6).2.2.2.mpr (by decide)⟩

/-- So many elements of `0`. -/
def zeros (n : Nat) : DblVector Int := ⟨n, n, some ⟨n, fun _ => some 0⟩, []⟩

theorem zeros_stores {n : Nat} (hn : n < 2 ^ 61) : Stores (zeros n) (List.replicate n 0) := by
  refine ⟨by simp [zeros], _, ⟨rfl, rfl, hn⟩, fun i hi => ?_⟩
  rw [List.length_replicate] at hi
  rw [Block.at_nat, if_pos hi, List.getElem?_replicate, if_pos hi]

/-- The first size that cannot be visited or copied; nothing can be put in front either. -/
theorem promises_broken : Stores (zeros (2 ^ 31)) (List.replicate (2 ^ 31) 0) ∧
    ¬ InsertKept (zeros (2 ^ 31)) (List.replicate (2 ^ 31) 0) 0 1 ∧
    ¬ CopyKept (zeros (2 ^ 31)) (zeros 0) (List.replicate (2 ^ 31) 0) ∧
    ¬ ForeachKept (zeros (2 ^ 31)) (List.replicate (2 ^ 31) 0) := by
  have hstores := zeros_stores (show 2 ^ 31 < 2 ^ 61 by decide)
  have hsize : (zeros (2 ^ 31)).size = 2 ^ 31 := rfl
  refine ⟨hstores, fun hkept => ?_, fun hkept => ?_, fun hkept => ?_⟩
  · obtain ⟨_, hrun, helements⟩ := hkept
    rcases (insertReaches_of_elements hstores hrun helements).2.1 with hpos | ⟨hstart, _⟩
    · exact Nat.not_lt_zero _ hpos
    · rw [hsize] at hstart
      exact absurd hstart (by decide)
  · obtain ⟨_, _, hrun, _⟩ := hkept
    exact Nat.lt_irrefl _ (small_of_copy hrun)
  · obtain ⟨_, hrun⟩ := hkept Unit (fun _ info => info) ()
    exact Nat.lt_irrefl _ (small_of_foreach hrun)

end DblVec
end Cab403
