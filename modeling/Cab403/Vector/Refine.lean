import Cab403.Vector.Stores

/-!
# A `dbl_vector` is the list of its elements

The calls of a program, every allocation succeeding. `Rep vec l` says that `vec` stores `l` and
that both are small: then no byte count wraps and the `int` counters reach every element, so that
every call meets its condition (`Op.Small.meets`) and leaves the vectors small again, if the store
that an insertion makes past the end fits into the block or does no harm (`Op.Fits`).

So every call is the list operation the header describes (`run_rep`), and every program the program
of these (`runAll_rep`). The side condition is the one the `int` counters need: sizes, and the
sizes asked for, stay below `2 ^ 31`. In `runAll_rep` the machine is one on which a store that
misses the block does no harm; what it makes of the products does not matter.
-/

namespace Cab403
namespace DblVec

variable {α : Type}

/-! ## The representation -/

/-- `vec` stores exactly the list `l`. -/
structure Rep (vec : DblVector α) (l : List α) : Prop where
  size_eq : vec.size = l.length
  size_lt : l.length < 2 ^ 31
  fits : l.length ≤ vec.capacity
  capacity_lt : vec.capacity < 2 ^ 32
  block : ∃ b, vec.data = some b ∧ b.len = vec.capacity ∧ ∀ i < l.length, b.cell i = l[i]?

/-- A small vector that stores a list. -/
theorem rep_iff {vec : DblVector α} {l : List α} :
    Rep vec l ↔ Stores vec l ∧ l.length < 2 ^ 31 ∧ vec.capacity < 2 ^ 32 := by
  constructor
  · intro h
    obtain ⟨b, hb, hlen, hcell⟩ := h.block
    have hfits := h.fits
    have hcap := h.capacity_lt
    refine ⟨stores_of_block h.size_eq hb hlen (by omega) fun i hi => ?_, h.size_lt, hcap⟩
    rw [b.at_natCast (by omega), hcell i hi]
  · intro h
    obtain ⟨⟨hsize, b, hb, hat⟩, hlt, hcap⟩ := h
    have hfits := Block.length_le hat
    refine ⟨hsize, hlt, hb.len ▸ hfits, hcap, b, hb.data, hb.len, fun i hi => ?_⟩
    rw [← b.at_natCast (by omega), hat i hi]

theorem Rep.stores {vec : DblVector α} {l : List α} (h : Rep vec l) : Stores vec l :=
  (rep_iff.mp h).1

/-- The log is not part of what is represented. -/
theorem Rep.relog {vec : DblVector α} {l : List α} (h : Rep vec l) (log : List Access) :
    Rep { vec with accesses := log } l :=
  ⟨h.size_eq, h.size_lt, h.fits, h.capacity_lt, h.block⟩

theorem dvInit_rep : Rep (dvInit true : DblVector α) [] :=
  rep_iff.mpr ⟨dvInit_stores, by simp, show 4 < 2 ^ 32 by decide⟩

/-- An `int` that starts at the new size starts at the top. -/
theorem Rep.insertReaches {vec : DblVector α} {l : List α} (h : Rep vec l)
    (hsmall : l.length + 1 < 2 ^ 31) (pos : Nat) : InsertReaches vec pos := by
  have hsize := h.size_eq
  rw [InsertReaches, narrow_of_lt (by omega)]
  exact .inr ⟨Int.natCast_nonneg _, fun b _ j _ hstart hj => by omega⟩

section Machines

variable [Machine]

/-- Below `2 ^ 31` the byte count cannot wrap: the new capacity is the size asked for, or a product
of one that was smaller than it. -/
theorem ensured_lt {c n : Nat} (hc : c < 2 ^ 32) (hn : n ≤ 2 ^ 31) : ensured c n < 2 ^ 32 := by
  have htwice := Machine.grown_le c
  unfold ensured
  split <;> omega

theorem Rep.grows {vec : DblVector α} {l : List α} (h : Rep vec l) {n : Nat} (hn : n ≤ 2 ^ 31) :
    Grows true vec n :=
  fun _ => ⟨rfl, Nat.lt_trans (ensured_lt h.capacity_lt hn) (by decide)⟩

/-! ## Programs

`Small` is the condition under which the `int` counters can follow a call, and `specAll` what a
program means for the lists. -/

variable {ι : Type} [DecidableEq ι]

def specAll (ls : ι → List α) : List (Op ι α) → ι → List α
  | [] => ls
  | op :: ops => specAll (op.spec ls) ops

/-- The size the call makes, or asks for, is below `2 ^ 31`. -/
def Op.Small (ls : ι → List α) : Op ι α → Prop
  | .push v _ | .insertAt v _ _ => (ls v).length + 1 < 2 ^ 31
  | .ensureCapacity _ newSize => newSize < 2 ^ 31
  | _ => True

def AllSmall (ls : ι → List α) : List (Op ι α) → Prop
  | [] => True
  | op :: ops => op.Small ls ∧ AllSmall (op.spec ls) ops

instance Op.decidableSmall (ls : ι → List α) : (op : Op ι α) → Decidable (op.Small ls)
  | .push v _ | .insertAt v _ _ => inferInstanceAs (Decidable ((ls v).length + 1 < 2 ^ 31))
  | .ensureCapacity _ newSize => inferInstanceAs (Decidable (newSize < 2 ^ 31))
  | .pop _ | .removeAt _ _ | .clear _ | .copy _ _ _ => inferInstanceAs (Decidable True)

instance AllSmall.decidable : (ls : ι → List α) → (ops : List (Op ι α)) →
    Decidable (AllSmall ls ops)
  | _, [] => inferInstanceAs (Decidable True)
  | ls, op :: ops =>
    have := AllSmall.decidable (op.spec ls) ops
    inferInstanceAs (Decidable (op.Small ls ∧ AllSmall (op.spec ls) ops))

/-- An insertion starts inside the block, or where it does no harm. -/
def Op.Fits (vs : ι → DblVector α) : Op ι α → Prop
  | .insertAt v pos _ => InsertFits (vs v) pos
  | _ => True

omit [DecidableEq ι] in
theorem Op.fits_of_harmless (hharmless : Machine.harmless = true) (vs : ι → DblVector α)
    (op : Op ι α) : op.Fits vs := by
  cases op with
  | insertAt v pos x => exact .inr (.inr (.inr hharmless))
  | _ => trivial

omit [DecidableEq ι] in
theorem Op.Small.meets {vs : ι → DblVector α} {ls : ι → List α} {op : Op ι α} (hs : op.Small ls)
    (h : ∀ i, Rep (vs i) (ls i)) (hfits : op.Fits vs) : op.Meets true vs := by
  have hsize : ∀ i, (vs i).size = (ls i).length := fun i => (h i).size_eq
  have hlt : ∀ i, (ls i).length < 2 ^ 31 := fun i => (h i).size_lt
  cases op with
  | push v x =>
    rw [Op.Meets, hsize]
    exact (h v).grows (hlt v)
  | pop v => trivial
  | insertAt v pos x =>
    refine ⟨?_, (h v).insertReaches hs pos, hfits⟩
    rw [hsize]
    exact (h v).grows (hlt v)
  | removeAt v pos =>
    rw [Op.Meets, RemoveReaches, hsize]
    exact .inr (.inl (Nat.le_of_lt (hlt v)))
  | clear v => trivial
  | ensureCapacity v n => exact (h v).grows (Nat.le_of_lt hs)
  | copy vec dest ne =>
    rw [Op.Meets, hsize]
    exact ⟨hlt vec, (h dest).grows (Nat.le_of_lt (hlt vec))⟩

omit [Machine] in
/-- A small call leaves short lists. -/
theorem Op.Small.length_lt {ls : ι → List α} {op : Op ι α} (hs : op.Small ls)
    (hlt : ∀ i, (ls i).length < 2 ^ 31) (i : ι) : (op.spec ls i).length < 2 ^ 31 := by
  have hupdate : ∀ {v : ι} {l : List α}, l.length < 2 ^ 31 →
      (Function.update ls v l i).length < 2 ^ 31 := by
    intro v l hl
    by_cases hi : i = v
    · rwa [hi, Function.update_self]
    · rw [Function.update_of_ne hi]
      exact hlt i
  cases op with
  | push v x =>
    apply hupdate
    rw [List.length_append]
    exact hs
  | pop v =>
    apply hupdate
    rw [List.length_dropLast]
    exact Nat.lt_of_le_of_lt (Nat.sub_le ..) (hlt v)
  | insertAt v pos x =>
    apply hupdate
    rw [List.length_insertIdx, if_pos (Nat.min_le_right ..)]
    exact hs
  | removeAt v pos =>
    apply hupdate
    split
    · exact Nat.lt_of_le_of_lt (List.length_eraseIdx_le ..) (hlt v)
    · exact hlt v
  | clear v =>
    apply hupdate
    simp
  | ensureCapacity v n => exact hlt i
  | copy vec dest ne => exact hupdate (hlt vec)

omit [Machine] in
theorem Op.Small.request_lt {ls : ι → List α} {op : Op ι α} (hs : op.Small ls) (i : ι) :
    op.request i < 2 ^ 31 := by
  cases op with
  | ensureCapacity v n =>
    rw [Op.request]
    split
    · exact hs
    · decide
  | _ => exact (by decide : 0 < 2 ^ 31)

/-- **Each call is its list operation.** -/
theorem run_rep {vs : ι → DblVector α} {ls : ι → List α} (h : ∀ i, Rep (vs i) (ls i))
    (op : Op ι α) (hs : op.Small ls) (hfits : op.Fits vs) :
    ∃ vs', op.run true vs = some vs' ∧ ∀ i, Rep (vs' i) (op.spec ls i) := by
  obtain ⟨vs', hrun, hstores⟩ := op.run_stores (fun i => (h i).stores) (hs.meets h hfits)
  refine ⟨vs', hrun, fun i => ?_⟩
  have hlt := hs.length_lt (fun i => (h i).size_lt) i
  obtain ⟨asked, hasked, hshape⟩ := Op.run_shape hrun i
  have hsize := (hstores i).size
  have hrequest := hs.request_lt i
  refine rep_iff.mpr ⟨hstores i, hlt, ?_⟩
  rw [hshape.capacity]
  exact ensured_lt (h i).capacity_lt (by omega)

theorem runAll_rep (hharmless : Machine.harmless = true) :
    ∀ (ops : List (Op ι α)) {vs : ι → DblVector α} {ls : ι → List α},
    (∀ i, Rep (vs i) (ls i)) → AllSmall ls ops →
    ∃ vs', runAll vs ops = some vs' ∧ ∀ i, Rep (vs' i) (specAll ls ops i)
  | [], vs, _, h, _ => ⟨vs, rfl, h⟩
  | op :: ops, vs, ls, h, hs => by
    obtain ⟨vs₁, hrun, h₁⟩ := run_rep h op hs.1 (op.fits_of_harmless hharmless vs)
    obtain ⟨vs₂, hruns, h₂⟩ := runAll_rep hharmless ops h₁ hs.2
    exact ⟨vs₂, by rw [runAll, hrun, Option.bind_some, hruns], h₂⟩

/-- **A family of vectors is the family of its lists**, after any program whatever, and its
two observers see exactly those lists. -/
theorem vectors_refine_lists (hharmless : Machine.harmless = true) (nan : α)
    (ops : List (Op ι α)) (hs : AllSmall (fun _ => []) ops) :
    ∃ vs, runAll (fun _ => dvInit true) ops = some vs ∧
      ∀ i, (vs i).elements = (specAll (fun _ => []) ops i).map some ∧
        (∃ vec, dvLast nan (vs i)
          = some (some ((specAll (fun _ => []) ops i).getLastD nan), vec)) ∧
        ∀ (σ : Type) (callback : Option α → σ → σ) (info : σ),
          ∃ vec, dvForeach (vs i) callback info
            = some (vec, (specAll (fun _ => []) ops i).foldl
                (fun info x => callback (some x) info) info) := by
  obtain ⟨vs, hrun, h⟩ := runAll_rep hharmless ops (fun _ => dvInit_rep) hs
  refine ⟨vs, hrun, fun i => ⟨(h i).stores.elements_eq, ?_, fun σ callback info => ?_⟩⟩
  · obtain ⟨log, hlast⟩ := dvLast_run (h i).stores nan
    exact ⟨_, hlast⟩
  · have hsmall : (vs i).size < 2 ^ 31 := (h i).size_eq ▸ (h i).size_lt
    obtain ⟨log, heach⟩ := dvForeach_run (h i).stores hsmall callback info
    exact ⟨_, heach⟩

end Machines

attribute [local instance] Machine.lenient

/-- Two vectors, one copied into the other between an insertion and a removal. -/
theorem vectors_refine_lists_pair :
    ∃ vs, runAll (fun _ => dvInit true) [Op.push false (7 : Int), .insertAt false 0 5,
        .copy false true (by decide), .removeAt false 1, .ensureCapacity true 9] = some vs ∧
      (vs false).elements = [some 5] ∧ (vs true).elements = [some 5, some 7] := by
  obtain ⟨vs, hrun, h⟩ := vectors_refine_lists rfl (0 : Int)
    [Op.push false (7 : Int), .insertAt false 0 5, .copy false true (by decide),
      .removeAt false 1, .ensureCapacity true 9]
    (by decide)
  exact ⟨vs, hrun, (h false).1, (h true).1⟩

end DblVec
end Cab403
