import Cab403.Lib.Trace
import Cab403.Vector.Loops

/-!
# The capacity of a `dbl_vector`

Two fields of the struct, `size` and `capacity`, over whole runs. Only `dv_ensure_capacity` writes
a capacity, and it writes a larger one than it found: a quarter more, or what was asked for. It
writes none unless more was asked for than there was. So the capacity is never more than a
quarter above the most that was ever asked for, where no product is rounded (`capacity_bounds`).

The loops do not matter here: they write neither field (`shiftUp_shape` and the rest).
-/

namespace Cab403
namespace DblVec

open Function Lib

variable {α : Type}

/-! ## One call -/

/-- The two fields are the same, and the block is as long. -/
structure SameShape (vec vec' : DblVector α) : Prop where
  size : vec'.size = vec.size
  capacity : vec'.capacity = vec.capacity
  len : vec'.data.map Block.len = vec.data.map Block.len

theorem SameShape.refl (vec : DblVector α) : SameShape vec vec := ⟨rfl, rfl, rfl⟩

theorem SameShape.trans {u v w : DblVector α} (h : SameShape u v) (h' : SameShape v w) :
    SameShape u w :=
  ⟨h'.size.trans h.size, h'.capacity.trans h.capacity, h'.len.trans h.len⟩

variable [Machine]

theorem load_shape {vec vec' : DblVector α} {i : Int} {x : Option α}
    (h : vec.load i = some (x, vec')) : SameShape vec vec' := by
  obtain ⟨b, _, _, rfl⟩ := load_some h
  exact ⟨rfl, rfl, rfl⟩

theorem store_shape {vec vec' : DblVector α} {i : Int} {x : Option α}
    (h : vec.store i x = some vec') : SameShape vec vec' := by
  obtain ⟨b, hb, _, rfl⟩ := store_some h
  refine ⟨rfl, rfl, ?_⟩
  rw [hb]
  exact congrArg some (b.put_len i x)

theorem shiftUp_shape {pos fuel : Nat} {i : Int} {vec vec' : DblVector α}
    (h : shiftUp pos fuel i vec = some vec') : SameShape vec vec' := by
  induction fuel generalizing i vec with
  | zero => cases h
  | succ fuel ih =>
    unfold shiftUp at h
    split at h
    · obtain ⟨below, _, h⟩ := Option.bind_eq_some_iff.mp h
      obtain ⟨⟨x, vec₁⟩, hload, h⟩ := Option.bind_eq_some_iff.mp h
      obtain ⟨vec₂, hstore, h⟩ := Option.bind_eq_some_iff.mp h
      exact (load_shape hload).trans ((store_shape hstore).trans (ih h))
    · cases h
      exact .refl _

theorem shiftDown_shape {fuel : Nat} {i : Int} {vec vec' : DblVector α}
    (h : shiftDown fuel i vec = some vec') : SameShape vec vec' := by
  induction fuel generalizing i vec with
  | zero => cases h
  | succ fuel ih =>
    unfold shiftDown at h
    split at h
    · obtain ⟨above, _, h⟩ := Option.bind_eq_some_iff.mp h
      obtain ⟨⟨x, vec₁⟩, hload, h⟩ := Option.bind_eq_some_iff.mp h
      obtain ⟨vec₂, hstore, h⟩ := Option.bind_eq_some_iff.mp h
      exact (load_shape hload).trans ((store_shape hstore).trans (ih h))
    · cases h
      exact .refl _

theorem copyLoop_shape {fuel : Nat} {i : Int} {vec dest vec' dest' : DblVector α}
    (h : copyLoop fuel i vec dest = some (vec', dest')) :
    SameShape vec vec' ∧ SameShape dest dest' := by
  induction fuel generalizing i vec dest with
  | zero => cases h
  | succ fuel ih =>
    unfold copyLoop at h
    split at h
    · obtain ⟨⟨x, vec₁⟩, hload, h⟩ := Option.bind_eq_some_iff.mp h
      obtain ⟨dest₁, hstore, h⟩ := Option.bind_eq_some_iff.mp h
      obtain ⟨i', _, h⟩ := Option.bind_eq_some_iff.mp h
      obtain ⟨hvec, hdest⟩ := ih h
      exact ⟨(load_shape hload).trans hvec, (store_shape hstore).trans hdest⟩
    · cases h
      exact ⟨.refl _, .refl _⟩

/-- The capacity `dv_ensure_capacity` leaves, of a vector of capacity `c`. -/
def ensured (c newSize : Nat) : Nat := if c < newSize then max (Machine.grown c) newSize else c

theorem dvEnsureCapacity_shape (grant : Bool) (vec : DblVector α) (n : Nat) :
    (dvEnsureCapacity grant vec n).size = vec.size ∧
      (dvEnsureCapacity grant vec n).capacity = ensured vec.capacity n := by
  unfold dvEnsureCapacity ensured
  by_cases hgrow : vec.capacity < n
  · rw [if_pos hgrow, if_pos hgrow]
    refine ⟨rfl, ?_⟩
    show (if Machine.grown vec.capacity < n then n else Machine.grown vec.capacity) = _
    split <;> omega
  · rw [if_neg hgrow, if_neg hgrow]
    exact ⟨rfl, rfl⟩

/-- The vector is as big as before or smaller, or it has been made to hold `asked` elements. -/
structure Reshaped (vec vec' : DblVector α) (asked : Nat) : Prop where
  capacity : vec'.capacity = ensured vec.capacity asked
  size : vec'.size ≤ vec.size ∨ vec'.size ≤ asked

theorem SameShape.reshaped {vec vec' : DblVector α} (h : SameShape vec vec') :
    Reshaped vec vec' 0 :=
  ⟨h.capacity, .inl (Nat.le_of_eq h.size)⟩

/-- After it has grown, an insertion writes no more than cells. -/
theorem dvPush_frame {grant : Bool} {vec vec' : DblVector α} {x : α}
    (h : dvPush grant vec x = some vec') :
    SameShape (dvEnsureCapacity grant { vec with size := vec.size + 1 } (vec.size + 1)) vec' :=
  store_shape h

theorem dvInsertAt_frame {grant : Bool} {vec vec' : DblVector α} {pos : Nat} {x : α}
    (h : dvInsertAt grant vec pos x = some vec') :
    SameShape (dvEnsureCapacity grant { vec with size := vec.size + 1 } (vec.size + 1)) vec' := by
  unfold dvInsertAt at h
  by_cases hpos : vec.size < pos
  · rw [if_pos hpos] at h
    exact dvPush_frame h
  · rw [if_neg hpos] at h
    obtain ⟨vec₁, hshift, hstore⟩ := Option.bind_eq_some_iff.mp h
    exact (shiftUp_shape hshift).trans (store_shape hstore)

/-- So it leaves a vector of one element more. -/
theorem inserted_shape {grant : Bool} {vec vec' : DblVector α}
    (h : SameShape (dvEnsureCapacity grant { vec with size := vec.size + 1 } (vec.size + 1)) vec') :
    Reshaped vec vec' (vec.size + 1) ∧ vec'.size = vec.size + 1 := by
  have hensured := dvEnsureCapacity_shape grant { vec with size := vec.size + 1 } (vec.size + 1)
  have hsize := h.size.trans hensured.1
  exact ⟨⟨h.capacity.trans hensured.2, .inr (Nat.le_of_eq hsize)⟩, hsize⟩

theorem dvRemoveAt_shape {vec vec' : DblVector α} {pos : Nat} (h : dvRemoveAt vec pos = some vec') :
    Reshaped vec vec' 0 := by
  unfold dvRemoveAt at h
  by_cases hpos : pos < vec.size
  · rw [if_pos hpos] at h
    obtain ⟨hsize, hcapacity, _⟩ := shiftDown_shape h
    exact ⟨hcapacity, .inl (Nat.le_trans (Nat.le_of_eq hsize) (Nat.sub_le ..))⟩
  · rw [if_neg hpos] at h
    cases h
    exact (SameShape.refl _).reshaped

theorem dvPop_shape (vec : DblVector α) : Reshaped vec (dvPop vec) 0 := by
  unfold dvPop
  by_cases hpos : 0 < vec.size
  · rw [if_pos hpos]
    exact ⟨rfl, .inl (Nat.sub_le ..)⟩
  · rw [if_neg hpos]
    exact (SameShape.refl _).reshaped

theorem dvCopy_shape {grant : Bool} {vec dest vec' dest' : DblVector α}
    (h : dvCopy grant vec dest = some (vec', dest')) :
    SameShape vec vec' ∧ Reshaped dest dest' vec.size ∧ dest'.size = vec.size := by
  obtain ⟨hvec, hsize, hcapacity, _⟩ := copyLoop_shape h
  have hensured := dvEnsureCapacity_shape grant { dest with size := vec.size } vec.size
  rw [hensured.1] at hsize
  rw [hensured.2] at hcapacity
  exact ⟨hvec, ⟨hcapacity, .inr (Nat.le_of_eq hsize)⟩, hsize⟩

/-! ## Runs -/

variable {ι : Type} [DecidableEq ι]

/-- The capacity a call asks for by name. -/
def Op.request : Op ι α → ι → Nat
  | .ensureCapacity v newSize, w => if w = v then newSize else 0
  | _, _ => 0

theorem reshaped_update {vs : ι → DblVector α} {op : Op ι α} {v : ι} {vec : DblVector α}
    {asked : Nat} (h : Reshaped (vs v) vec asked) (hasked : asked ≤ max vec.size (op.request v))
    (w : ι) : ∃ asked ≤ max (update vs v vec w).size (op.request w),
      Reshaped (vs w) (update vs v vec w) asked := by
  by_cases hw : w = v
  · subst hw
    rw [update_self]
    exact ⟨asked, hasked, h⟩
  · rw [update_of_ne hw]
    exact ⟨0, Nat.zero_le _, (SameShape.refl _).reshaped⟩

/-- **What a call does to the two fields** of each vector: it asks for no more than the size it
leaves, or than it was told to. -/
theorem Op.run_shape {grant : Bool} {vs vs' : ι → DblVector α} {op : Op ι α}
    (h : op.run grant vs = some vs') (w : ι) :
    ∃ asked ≤ max (vs' w).size (op.request w), Reshaped (vs w) (vs' w) asked := by
  cases op with
  | push v x =>
    obtain ⟨vec, hvec, rfl⟩ := Option.map_eq_some_iff.mp h
    obtain ⟨hshape, hsize⟩ := inserted_shape (dvPush_frame hvec)
    exact reshaped_update hshape (hsize ▸ Nat.le_max_left ..) w
  | pop v =>
    cases h
    exact reshaped_update (dvPop_shape _) (Nat.zero_le _) w
  | insertAt v pos x =>
    obtain ⟨vec, hvec, rfl⟩ := Option.map_eq_some_iff.mp h
    obtain ⟨hshape, hsize⟩ := inserted_shape (dvInsertAt_frame hvec)
    exact reshaped_update hshape (hsize ▸ Nat.le_max_left ..) w
  | removeAt v pos =>
    obtain ⟨vec, hvec, rfl⟩ := Option.map_eq_some_iff.mp h
    exact reshaped_update (dvRemoveAt_shape hvec) (Nat.zero_le _) w
  | clear v =>
    cases h
    exact reshaped_update ⟨rfl, .inl (Nat.zero_le _)⟩ (Nat.zero_le _) w
  | ensureCapacity v n =>
    cases h
    have hshape := dvEnsureCapacity_shape grant (vs v) n
    have hreq : n = (Op.ensureCapacity v n : Op ι α).request v := (if_pos rfl).symm
    refine reshaped_update ⟨hshape.2, .inl (Nat.le_of_eq hshape.1)⟩ ?_ w
    exact Nat.le_trans (Nat.le_of_eq hreq) (Nat.le_max_right ..)
  | copy a b hne =>
    obtain ⟨⟨vec, dest⟩, hcopy, rfl⟩ := Option.map_eq_some_iff.mp h
    obtain ⟨hvec, hdest, hsize⟩ := dvCopy_shape hcopy
    by_cases hw : w = b
    · subst hw
      simp only [update_self]
      exact ⟨_, hsize ▸ Nat.le_max_left .., hdest⟩
    · rw [update_of_ne hw]
      exact reshaped_update hvec.reshaped (Nat.zero_le _) w

/-- The vectors of a program, each with the largest size it has had or was asked to hold. -/
structure Watched (ι α : Type) where
  vecs : ι → DblVector α
  peak : ι → Nat

/-- A call, every allocation succeeding, that returns. -/
structure Performs (s : Watched ι α) (op : Op ι α) (t : Watched ι α) : Prop where
  run : op.run true s.vecs = some t.vecs
  peak : ∀ v, t.peak v = max (s.peak v) (max (t.vecs v).size (op.request v))

def prepared : Watched ι α := ⟨fun _ => dvInit true, fun _ => 0⟩

structure CapacityBounds (s : Watched ι α) (v : ι) : Prop where
  lower : max DV_INITIAL_CAPACITY (s.vecs v).size ≤ (s.vecs v).capacity
  upper : (s.vecs v).capacity ≤ max DV_INITIAL_CAPACITY (5 * s.peak v / 4)

theorem CapacityBounds.step (hexact : ∀ c, Machine.grown c = 5 * c / 4) {s t : Watched ι α}
    {op : Op ι α} (hst : Performs s op t) {v : ι} (h : CapacityBounds s v) :
    CapacityBounds t v ∧ (s.vecs v).capacity ≤ (t.vecs v).capacity := by
  obtain ⟨asked, hasked, hcapacity, hsize⟩ := Op.run_shape hst.run v
  obtain ⟨hlower, hupper⟩ := h
  have hpeak := hst.peak v
  unfold ensured at hcapacity
  rw [hexact] at hcapacity
  refine ⟨⟨?_, ?_⟩, ?_⟩
  all_goals
    split at hcapacity <;> omega

/-- **The capacity is the size's and no more than a quarter above the peak.** With exact products,
after every call of every run each vector has a capacity of at least 4 and of at least its size, and
of at most a quarter more than the largest size or capacity it was ever asked for; no call lowers
it. -/
theorem capacity_bounds (hexact : ∀ c, Machine.grown c = 5 * c / 4)
    {tr : List (Op ι α × Watched ι α)} (htr : Trace Performs prepared tr) :
    AllStates (fun s => ∀ v, CapacityBounds s v) prepared tr ∧
    AllSteps (fun s _ t => ∀ v, (s.vecs v).capacity ≤ (t.vecs v).capacity) prepared tr := by
  have hstart : ∀ v, CapacityBounds (prepared : Watched ι α) v :=
    fun v => ⟨Nat.le_refl _, Nat.le_max_left ..⟩
  refine ⟨htr.allStates (fun s op t hs hst v => ((hs v).step hexact hst).1) hstart, ?_⟩
  refine htr.allSteps (I := fun s => ∀ v, CapacityBounds s v) (fun s op t hs hst => ?_) hstart
  exact ⟨fun v => ((hs v).step hexact hst).1, fun v => ((hs v).step hexact hst).2⟩

attribute [local instance] Machine.exact

omit [Machine] in
/-- Asked to hold 9, then given one element: the capacity is 9. -/
theorem capacity_bounds_asked : ∃ tr : List (Op Unit Int × Watched Unit Int),
    tr.map Prod.fst = [.ensureCapacity () 9, .push () 7] ∧
    (lastState prepared tr).peak () = 9 ∧ CapacityBounds (lastState prepared tr) () := by
  have htr := Trace.cons
    (⟨rfl, fun _ => rfl⟩ : Performs prepared (.ensureCapacity () 9) ⟨_, fun _ => _⟩)
    (.cons (⟨rfl, fun _ => rfl⟩ : Performs _ (.push () (7 : Int)) ⟨_, fun _ => _⟩) (.nil _))
  exact ⟨_, rfl, rfl, (capacity_bounds (fun _ => rfl) htr).1.last ()⟩

end DblVec
end Cab403
