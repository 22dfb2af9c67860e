import Cab403.Vector.Capacity

/-!
# What growing costs

When `dv_ensure_capacity` grows a block, `realloc` may have to move all of it. `DV_GROWTH_FACTOR`
is there so that this happens seldom: the new capacity is a quarter more, and the quarter is
truncated, so from a capacity of `7` it is one cell, whatever the machine makes of the product.
That is the worst case. A growth moves at most seven cells for each one it adds, and over a whole
run at most seven for each cell of the capacity (`moved_le`), whatever else is called in between.

Every call asks for room at most once, `Op.asked`, and what room it leaves is what
`dv_ensure_capacity` makes of that (`Op.run_room`): the loops write no more than cells.
-/

namespace Cab403
namespace DblVec

open Function Lib

variable {α : Type}

/-! ## Room -/

/-- The capacity is the same, and the block is as long. -/
structure SameRoom (vec vec' : DblVector α) : Prop where
  capacity : vec'.capacity = vec.capacity
  len : vec'.data.map Block.len = vec.data.map Block.len

theorem SameRoom.refl (vec : DblVector α) : SameRoom vec vec := ⟨rfl, rfl⟩

theorem SameRoom.trans {u v w : DblVector α} (h : SameRoom u v) (h' : SameRoom v w) :
    SameRoom u w :=
  ⟨h'.capacity.trans h.capacity, h'.len.trans h.len⟩

theorem SameShape.room {vec vec' : DblVector α} (h : SameShape vec vec') : SameRoom vec vec' :=
  ⟨h.capacity, h.len⟩

theorem dvPop_room (vec : DblVector α) : SameRoom vec (dvPop vec) := by
  unfold dvPop
  by_cases hpos : 0 < vec.size
  · rw [if_pos hpos]
    exact ⟨rfl, rfl⟩
  · rw [if_neg hpos]
    exact .refl vec

variable [Machine]

/-- The callers write the size before they ask for room. -/
theorem dvEnsureCapacity_resized (grant : Bool) (vec : DblVector α) (size newSize : Nat) :
    SameRoom (dvEnsureCapacity grant vec newSize)
      (dvEnsureCapacity grant { vec with size := size } newSize) := by
  unfold dvEnsureCapacity
  by_cases hgrow : vec.capacity < newSize
  · rw [if_pos hgrow, if_pos hgrow]
    exact ⟨rfl, rfl⟩
  · rw [if_neg hgrow, if_neg hgrow]
    exact ⟨rfl, rfl⟩

theorem dvEnsureCapacity_zero (grant : Bool) (vec : DblVector α) :
    dvEnsureCapacity grant vec 0 = vec :=
  if_neg (Nat.not_lt_zero _)

variable {ι : Type} [DecidableEq ι]

/-- What a call asks `dv_ensure_capacity` to make room for in the vector `w`; `0` if it does not
ask. -/
def Op.asked (vs : ι → DblVector α) : Op ι α → ι → Nat
  | .push v _, w | .insertAt v _ _, w => if w = v then (vs v).size + 1 else 0
  | .ensureCapacity v newSize, w => if w = v then newSize else 0
  | .copy vec dest _, w => if w = dest then (vs vec).size else 0
  | .pop _, _ | .removeAt _ _, _ | .clear _, _ => 0

theorem room_update {grant : Bool} {vs : ι → DblVector α} {v : ι} {vec : DblVector α} {n : Nat}
    (h : SameRoom (dvEnsureCapacity grant (vs v) n) vec) (w : ι) :
    SameRoom (dvEnsureCapacity grant (vs w) (if w = v then n else 0)) (update vs v vec w) := by
  by_cases hw : w = v
  · subst hw
    rw [if_pos rfl, update_self]
    exact h
  · rw [if_neg hw, update_of_ne hw, dvEnsureCapacity_zero]
    exact .refl _

/-- A call that does not ask leaves the room as it was. -/
theorem room_update_of_same {grant : Bool} {vs : ι → DblVector α} {v : ι} {vec : DblVector α}
    (h : SameRoom (vs v) vec) (w : ι) :
    SameRoom (dvEnsureCapacity grant (vs w) 0) (update vs v vec w) := by
  have hsame : SameRoom (dvEnsureCapacity grant (vs v) 0) vec := by
    rw [dvEnsureCapacity_zero]
    exact h
  have hroom := room_update hsame w
  rwa [ite_self] at hroom

theorem dvRemoveAt_room {vec vec' : DblVector α} {pos : Nat} (h : dvRemoveAt vec pos = some vec') :
    SameRoom vec vec' := by
  unfold dvRemoveAt at h
  by_cases hpos : pos < vec.size
  · rw [if_pos hpos] at h
    have hshape := shiftDown_shape h
    exact ⟨hshape.capacity, hshape.len⟩
  · rw [if_neg hpos] at h
    cases h
    exact .refl vec

/-- **The room a call leaves is the room it asked for.** -/
theorem Op.run_room {grant : Bool} {vs vs' : ι → DblVector α} {op : Op ι α}
    (h : op.run grant vs = some vs') (w : ι) :
    SameRoom (dvEnsureCapacity grant (vs w) (op.asked vs w)) (vs' w) := by
  cases op with
  | push v x =>
    obtain ⟨vec, hvec, rfl⟩ := Option.map_eq_some_iff.mp h
    exact room_update ((dvEnsureCapacity_resized ..).trans (dvPush_frame hvec).room) w
  | pop v =>
    cases h
    exact room_update_of_same (dvPop_room _) w
  | insertAt v pos x =>
    obtain ⟨vec, hvec, rfl⟩ := Option.map_eq_some_iff.mp h
    exact room_update ((dvEnsureCapacity_resized ..).trans (dvInsertAt_frame hvec).room) w
  | removeAt v pos =>
    obtain ⟨vec, hvec, rfl⟩ := Option.map_eq_some_iff.mp h
    exact room_update_of_same (dvRemoveAt_room hvec) w
  | clear v =>
    cases h
    have hclear : SameRoom (vs v) (dvClear (vs v)) := ⟨rfl, rfl⟩
    exact room_update_of_same hclear w
  | ensureCapacity v n =>
    cases h
    exact room_update (.refl _) w
  | copy vec dest hne =>
    obtain ⟨⟨vec', dest'⟩, hcopy, rfl⟩ := Option.map_eq_some_iff.mp h
    obtain ⟨hvec, hdest⟩ := copyLoop_shape hcopy
    have hresized : SameRoom (dvEnsureCapacity grant (vs dest) (vs vec).size) dest' :=
      (dvEnsureCapacity_resized ..).trans hdest.room
    have hroom := room_update hresized w
    by_cases hw : w = dest
    · subst hw
      rwa [update_self] at hroom ⊢
    · rw [update_of_ne hw] at hroom ⊢
      refine hroom.trans ?_
      by_cases hsrc : w = vec
      · subst hsrc
        rw [update_self]
        exact hvec.room
      · rw [update_of_ne hsrc]
        exact .refl _

/-! ## Moving -/

/-- The cells that `dv_ensure_capacity(vec, new_size)` hands to `realloc`. -/
def moved (vec : DblVector α) (newSize : Nat) : Nat :=
  if vec.capacity < newSize then (vec.data.map Block.len).getD 0 else 0

/-- The block is no longer than the capacity says. -/
def Fits (vec : DblVector α) : Prop := ∀ len ∈ vec.data.map Block.len, len ≤ vec.capacity

omit [Machine] in
theorem SameRoom.fits {vec vec' : DblVector α} (h : SameRoom vec vec') (hfits : Fits vec) :
    Fits vec' := by
  unfold Fits
  rw [h.len, h.capacity]
  exact hfits

omit [Machine] in
/-- A byte count modulo `2 ^ 64` is no more than was asked for. -/
theorem len_realloc_le {grant : Bool} {old : Option (Block α)} {c len : Nat}
    (h : len ∈ (realloc grant old (c * 8 % 2 ^ 64)).map Block.len) : len ≤ c := by
  cases grant with
  | false => cases h
  | true =>
    obtain rfl : c * 8 % 2 ^ 64 / 8 = len := Option.some.inj h
    omega

theorem fits_ensured {vec : DblVector α} (h : Fits vec) (grant : Bool) (n : Nat) :
    Fits (dvEnsureCapacity grant vec n) := by
  unfold dvEnsureCapacity
  by_cases hgrow : vec.capacity < n
  · rw [if_pos hgrow]
    intro len hlen
    exact len_realloc_le hlen
  · rw [if_neg hgrow]
    exact h

omit [Machine] in
/-- A growth moves no more than there is room for. -/
theorem moved_le_capacity {vec : DblVector α} (h : Fits vec) (n : Nat) :
    moved vec n ≤ vec.capacity := by
  unfold moved
  split
  · cases hdata : vec.data.map Block.len with
    | none => exact Nat.zero_le _
    | some len => exact h len hdata
  · exact Nat.zero_le _

/-- **Seven cells for one.** From a capacity of `7` the quarter more is one, and from a larger one a
seventh at least, rounded or not. -/
theorem ensured_ge {c n : Nat} (hgrow : c < n) : 8 * c ≤ 7 * ensured c n := by
  unfold ensured
  rw [if_pos hgrow]
  rcases Nat.lt_or_ge 7 c with hlarge | hsmall
  · have hgrown := Machine.le_grown c hlarge
    omega
  · omega

/-- What seven times over pays for the moves: the capacity, as far as the sizes account for it. -/
def paid (s : Watched ι α) (v : ι) : Nat :=
  7 * max DV_INITIAL_CAPACITY (min (s.vecs v).capacity (5 * s.peak v / 4))

/-- A call pays for what it moves. -/
theorem Performs.pays {s t : Watched ι α} {op : Op ι α} (h : Performs s op t) {v : ι}
    (hfits : Fits (s.vecs v)) (hcapacity : DV_INITIAL_CAPACITY ≤ (s.vecs v).capacity) :
    (Fits (t.vecs v) ∧ DV_INITIAL_CAPACITY ≤ (t.vecs v).capacity) ∧
      moved (s.vecs v) (op.asked s.vecs v) + paid s v ≤ paid t v := by
  have hroom := Op.run_room h.run v
  have hgrown := hroom.capacity.trans (dvEnsureCapacity_shape true (s.vecs v) _).2
  obtain ⟨asked, hasked, hshape, _⟩ := Op.run_shape h.run v
  have hpeak := h.peak v
  have hmoved := moved_le_capacity hfits (op.asked s.vecs v)
  unfold paid DV_INITIAL_CAPACITY at *
  by_cases hgrow : (s.vecs v).capacity < op.asked s.vecs v
  · have hmore := ensured_ge hgrow
    -- so large a size has now been asked for
    have hlarge : (s.vecs v).capacity < asked := by
      by_contra hless
      have hkept : ensured (s.vecs v).capacity asked = (s.vecs v).capacity := if_neg hless
      omega
    exact ⟨⟨hroom.fits (fits_ensured hfits _ _), by omega⟩, by omega⟩
  · have hsame : ensured (s.vecs v).capacity (op.asked s.vecs v) = (s.vecs v).capacity :=
      if_neg hgrow
    have hnone : moved (s.vecs v) (op.asked s.vecs v) = 0 := if_neg hgrow
    exact ⟨⟨hroom.fits (fits_ensured hfits _ _), by omega⟩, by omega⟩

/-- **The cells moved over a run**, of each vector: never more than seven times what its capacity
has grown by, and never more than seven times the largest capacity the sizes asked for account
for. -/
theorem moved_le {tr : List (Op ι α × Watched ι α)} (htr : Trace Performs prepared tr) (v : ι) :
    total (fun s op _ => moved (s.vecs v) (op.asked s.vecs v)) prepared tr ≤
        7 * (((lastState prepared tr).vecs v).capacity - DV_INITIAL_CAPACITY) ∧
      total (fun s op _ => moved (s.vecs v) (op.asked s.vecs v)) prepared tr ≤
        7 * (5 * (lastState prepared tr).peak v / 4 - DV_INITIAL_CAPACITY) := by
  have hstart : Fits ((prepared : Watched ι α).vecs v) := by
    intro len hlen
    obtain rfl : DV_INITIAL_CAPACITY * 8 / 8 = len := Option.some.inj hlen
    exact Nat.le_refl _
  have hstep : ∀ (s : Watched ι α) op t,
      (Fits (s.vecs v) ∧ DV_INITIAL_CAPACITY ≤ (s.vecs v).capacity) → Performs s op t →
        (Fits (t.vecs v) ∧ DV_INITIAL_CAPACITY ≤ (t.vecs v).capacity) ∧
          moved (s.vecs v) (op.asked s.vecs v) + paid s v ≤ paid t v :=
    fun s op t hs hst => hst.pays hs.1 hs.2
  have htotal := htr.total_le hstep ⟨hstart, Nat.le_refl _⟩
  have hfour : paid (prepared : Watched ι α) v = 7 * DV_INITIAL_CAPACITY := by
    simp [paid, prepared, dvInit]
  rw [hfour] at htotal
  unfold paid at htotal
  omega

attribute [local instance] Machine.exact

omit [Machine] in
/-- Asked to hold 5 and then 6: `realloc` is handed four cells and then five. -/
theorem moved_le_six : ∃ tr : List (Op Unit Int × Watched Unit Int),
    tr.map Prod.fst = [.ensureCapacity () 5, .ensureCapacity () 6] ∧
    total (fun s op _ => moved (s.vecs ()) (op.asked s.vecs ())) prepared tr = 9 ∧
    9 ≤ 7 * (((lastState prepared tr).vecs ()).capacity - DV_INITIAL_CAPACITY) := by
  have htr := Trace.cons
    (⟨rfl, fun _ => rfl⟩ : Performs prepared (.ensureCapacity () 5) ⟨_, fun _ => _⟩)
    (.cons (⟨rfl, fun _ => rfl⟩ :
      Performs _ (.ensureCapacity () 6 : Op Unit Int) ⟨_, fun _ => _⟩) (.nil _))
  exact ⟨_, rfl, rfl, (moved_le htr ()).1⟩

end DblVec
end Cab403
