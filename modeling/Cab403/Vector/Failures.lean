import Cab403.Vector.Accesses
import Cab403.Vector.Counters

/-!
# When `realloc` fails

`dv_ensure_capacity` writes the capacity before it has the storage, and puts what `realloc` returns
where the block was. If that is `NULL`, or a block for a byte count that has wrapped, the vector
is neither as it was nor as it should be, and the callers have written the size already.

`Kept` is what a sequence of calls should do: each returns, and has either done what it stands for
or changed nothing. `kept_iff` says which sequences do: those in which whatever is asked for is
granted and can be counted, and the loops can count too (`Op.Meets`).
-/

namespace Cab403
namespace DblVec

open Function

variable {α σ ι : Type} [DecidableEq ι]

/-- The struct is as it was. -/
structure Unchanged (vec vec' : DblVector α) : Prop where
  size : vec'.size = vec.size
  capacity : vec'.capacity = vec.capacity
  data : vec'.data = vec.data

theorem Unchanged.stores {vec vec' : DblVector α} {l : List α} (h : Unchanged vec vec')
    (hstores : Stores vec l) : Stores vec' l := by
  obtain ⟨hsize, b, ⟨hdata, hlen, hlt⟩, hat⟩ := hstores
  exact ⟨h.size.trans hsize, b,
    ⟨h.data.trans hdata, hlen.trans h.capacity.symm, h.capacity ▸ hlt⟩, hat⟩

/-- The call's effect on the family, its allocation granted or refused. -/
def Call.attempt (nan : α) (grant : Bool) (vs : ι → DblVector α) :
    Call ι α σ → Option (ι → DblVector α)
  | .op o => o.run grant vs
  | .last v => (dvLast nan (vs v)).map fun p => update vs v p.2
  | .foreach v callback info => (dvForeach (vs v) callback info).map fun p => update vs v p.1

/-- The observers leave the lists alone. -/
def Call.spec (ls : ι → List α) : Call ι α σ → ι → List α
  | .op o => o.spec ls
  | .last _ | .foreach _ _ _ => ls

/-- Each call, its `realloc` granted or refused, returns; the vectors then hold their lists as the
call says, or are as before. -/
def Kept (nan : α) (vs : ι → DblVector α) (ls : ι → List α) : List (Bool × Call ι α σ) → Prop
  | [] => True
  | (grant, c) :: rest => ∃ vs', c.attempt nan grant vs = some vs' ∧
      ((∀ v, Stores (vs' v) (c.spec ls v)) ∧ Kept nan vs' (c.spec ls) rest ∨
        (∀ v, Unchanged (vs v) (vs' v)) ∧ Kept nan vs' ls rest)

/-- An observer asks for nothing; visiting the elements takes a loop. -/
def Call.Meets (grant : Bool) (vs : ι → DblVector α) : Call ι α σ → Prop
  | .op o => o.Meets grant vs
  | .last _ => True
  | .foreach v _ _ => (vs v).size < 2 ^ 31

/-- Every call of the sequence does, on the vectors it finds. -/
def AllMeet (nan : α) (vs : ι → DblVector α) : List (Bool × Call ι α σ) → Prop
  | [] => True
  | (grant, c) :: rest => c.Meets grant vs ∧
      ∀ vs', c.attempt nan grant vs = some vs' → AllMeet nan vs' rest

/-! ## A call that does not meet the condition -/

theorem ensured_of_lt {c n : Nat} (h : c < n) : c < ensured c n := by
  unfold ensured
  rw [if_pos h]
  omega

/-- A vector that has asked for storage in vain is not as before, and does not hold a list. -/
theorem grows_of_kept {grant : Bool} {vec vec' : DblVector α} {n : Nat}
    (hcapacity : vec.capacity < 2 ^ 61) (hframe : SameShape (dvEnsureCapacity grant vec n) vec')
    (hkept : (∃ l, Stores vec' l) ∨ vec'.capacity = vec.capacity) : Grows grant vec n := by
  have hensured := hframe.capacity.trans (dvEnsureCapacity_shape grant vec n).2
  rcases hkept with ⟨l, _, b, hb, _⟩ | hsame
  · by_contra hgrows
    have hlen := hframe.len
    rw [hb.data] at hlen
    obtain ⟨b₁, hb₁, hb₁len⟩ := Option.map_eq_some_iff.mp hlen.symm
    have hshort := (dvEnsureCapacity_fails hcapacity hgrows hb₁).1
    have hfull := hb.len
    omega
  · intro hgrow
    have hmore := ensured_of_lt hgrow
    omega

theorem removeReaches_of_kept {vec vec' : DblVector α} {l : List α} (h : Stores vec l) {pos : Nat}
    (hrun : dvRemoveAt vec pos = some vec')
    (hkept : Stores vec' (if pos < l.length then l.eraseIdx pos else l) ∨ vec'.size = vec.size) :
    RemoveReaches vec pos := by
  rcases hkept with hstores | hsame
  · refine removeReaches_of_elements h hrun ?_
    rw [hstores.elements_eq]
    by_cases hpos : pos < l.length
    · rw [if_pos hpos]
    · rw [if_neg hpos, List.eraseIdx_of_length_le (Nat.le_of_not_lt hpos)]
  · by_cases hpos : pos < vec.size
    · rw [dvRemoveAt, if_pos hpos] at hrun
      have hsize : vec'.size = vec.size - 1 := (shiftDown_shape hrun).size
      omega
    · exact .inl (Nat.le_of_not_lt hpos)

/-- **And no other call does, or changes nothing.** -/
theorem Op.meets_of_run {grant : Bool} {vs vs' : ι → DblVector α} {ls : ι → List α}
    (h : ∀ v, Stores (vs v) (ls v)) {op : Op ι α} (hrun : op.run grant vs = some vs')
    (hkept : (∀ v, Stores (vs' v) (op.spec ls v)) ∨ ∀ v, Unchanged (vs v) (vs' v)) :
    op.Meets grant vs := by
  have hcapacity : ∀ v, (vs v).capacity < 2 ^ 61 := by
    intro v
    obtain ⟨_, b, hb, _⟩ := h v
    exact hb.capacity_lt
  have hkept' : ∀ v, (∃ l, Stores (vs' v) l) ∨ (vs' v).capacity = (vs v).capacity :=
    fun v => hkept.imp (fun hs => ⟨_, hs v⟩) fun hs => (hs v).capacity
  cases op with
  | push v x =>
    obtain ⟨vec, hvec, rfl⟩ := Option.map_eq_some_iff.mp hrun
    have hv := hkept' v
    rw [update_self] at hv
    exact @grows_of_kept _ _ { vs v with size := (vs v).size + 1 } _ _ (hcapacity v)
      (dvPush_frame hvec) hv
  | pop v => trivial
  | insertAt v pos x =>
    obtain ⟨vec, hvec, rfl⟩ := Option.map_eq_some_iff.mp hrun
    have hv := hkept' v
    rw [update_self] at hv
    refine ⟨@grows_of_kept _ _ { vs v with size := (vs v).size + 1 } _ _ (hcapacity v)
      (dvInsertAt_frame hvec) hv, ?_⟩
    rcases hkept with hstores | hsame
    · have hinserted := (hstores v).elements_eq
      rw [Op.spec, update_self, update_self] at hinserted
      exact (insertReaches_of_elements (h v) hvec hinserted).2
    · have hsize := (hsame v).size
      rw [update_self, (inserted_shape (dvInsertAt_frame hvec)).2] at hsize
      omega
  | removeAt v pos =>
    obtain ⟨vec, hvec, rfl⟩ := Option.map_eq_some_iff.mp hrun
    refine removeReaches_of_kept (h v) hvec ?_
    rcases hkept with hstores | hsame
    · have hv := hstores v
      rw [Op.spec, update_self, update_self] at hv
      exact .inl hv
    · have hv := (hsame v).size
      rw [update_self] at hv
      exact .inr hv
  | clear v => trivial
  | ensureCapacity v n =>
    cases hrun
    have hv := hkept' v
    rw [update_self] at hv
    exact grows_of_kept (hcapacity v) (.refl _) hv
  | copy vec dest hne =>
    obtain ⟨⟨vec', dest'⟩, hcopy, rfl⟩ := Option.map_eq_some_iff.mp hrun
    have hdest := hkept' dest
    simp only [update_self] at hdest
    exact ⟨small_of_copy hcopy, @grows_of_kept _ _ { vs dest with size := (vs vec).size } _ _
      (hcapacity dest) (copyLoop_shape hcopy).2 hdest⟩

/-! ## Sequences -/

theorem Call.run_stores (nan : α) {grant : Bool} {vs : ι → DblVector α} {ls : ι → List α}
    (h : ∀ v, Stores (vs v) (ls v)) {c : Call ι α σ} (hmeets : c.Meets grant vs) :
    ∃ vs', c.attempt nan grant vs = some vs' ∧ ∀ v, Stores (vs' v) (c.spec ls v) := by
  cases c with
  | op o => exact o.run_stores h hmeets
  | last v =>
    obtain ⟨log, hrun⟩ := dvLast_run (h v) nan
    exact ⟨_, by rw [Call.attempt, hrun]; rfl, stores_update_same h ((h v).relog log)⟩
  | foreach v callback info =>
    obtain ⟨log, hrun⟩ := dvForeach_run (h v) hmeets callback info
    exact ⟨_, by rw [Call.attempt, hrun]; rfl, stores_update_same h ((h v).relog log)⟩

theorem Call.meets_of_run {nan : α} {grant : Bool} {vs vs' : ι → DblVector α} {ls : ι → List α}
    (h : ∀ v, Stores (vs v) (ls v)) {c : Call ι α σ} (hrun : c.attempt nan grant vs = some vs')
    (hkept : (∀ v, Stores (vs' v) (c.spec ls v)) ∨ ∀ v, Unchanged (vs v) (vs' v)) :
    c.Meets grant vs := by
  cases c with
  | op o => exact o.meets_of_run h hrun hkept
  | last v => trivial
  | foreach v callback info =>
    obtain ⟨r, hforeach, _⟩ := Option.map_eq_some_iff.mp hrun
    exact small_of_foreach hforeach

theorem kept_iff_of_stores {nan : α} {vs : ι → DblVector α} {ls : ι → List α}
    {calls : List (Bool × Call ι α σ)} (h : ∀ v, Stores (vs v) (ls v)) :
    Kept nan vs ls calls ↔ AllMeet nan vs calls := by
  induction calls generalizing vs ls with
  | nil => exact Iff.rfl
  | cons call rest ih =>
    obtain ⟨grant, c⟩ := call
    constructor
    · intro hkept
      obtain ⟨vs', hrun, ⟨hstores, hrest⟩ | ⟨hsame, hrest⟩⟩ := hkept
      · refine ⟨c.meets_of_run h hrun (.inl hstores), fun vs₁ hrun₁ => ?_⟩
        obtain rfl := Option.some.inj (hrun.symm.trans hrun₁)
        exact (ih hstores).mp hrest
      · refine ⟨c.meets_of_run h hrun (.inr hsame), fun vs₁ hrun₁ => ?_⟩
        obtain rfl := Option.some.inj (hrun.symm.trans hrun₁)
        exact (ih fun v => (hsame v).stores (h v)).mp hrest
    · intro hmeets
      obtain ⟨vs', hrun, hstores⟩ := c.run_stores nan h hmeets.1
      exact ⟨vs', hrun, .inl ⟨hstores, (ih hstores).mpr (hmeets.2 vs' hrun)⟩⟩

/-- **Exactly the sequences in which no growth fails**, and no loop. -/
theorem kept_iff (nan : α) (calls : List (Bool × Call ι α σ)) :
    Kept nan (fun _ => dvInit true) (fun _ => []) calls ↔
      AllMeet nan (fun _ => dvInit true) calls :=
  kept_iff_of_stores fun _ => dvInit_stores

/-- Room for a fifth element, refused; and so much room that its bytes are `0` modulo `2 ^ 64`. -/
theorem not_kept_refused :
    ¬ Kept (σ := Unit) 0 (fun _ : Unit => (dvInit true : DblVector Int)) (fun _ => [])
      [(false, .op (.ensureCapacity () 5))] ∧
    ¬ Kept (σ := Unit) 0 (fun _ : Unit => (dvInit true : DblVector Int)) (fun _ => [])
      [(true, .op (.ensureCapacity () (2 ^ 61)))] := by
  have hstart : ∀ _ : Unit, Stores (dvInit true : DblVector Int) [] := fun _ => dvInit_stores
  rw [kept_iff_of_stores hstart, kept_iff_of_stores hstart]
  refine ⟨fun hmeet => ?_, fun hmeet => ?_⟩
  · have hgranted := (hmeet.1 (by decide)).1
    cases hgranted
  · have hcounted := (hmeet.1 (by decide)).2
    exact absurd hcounted (by decide)

end DblVec
end Cab403
