import Cab403.Vector.Growth
import Cab403.Vector.Refine
import Mathlib.Tactic.NormNum

/-!
# Destroyed, and used again

`dv_destroy` clears the two sizes, frees the block and leaves `NULL` in its place. The header
says that the vector is not fit for further use. It is: no function touches an element that is
not there, and the first growth has `realloc` allocate, as for any `NULL`. A destroyed vector is
an empty one of capacity `0`.

The proof puts an empty block in the place of each `NULL` (`Fills`). That makes no difference to
any call (`Op.run_fills`), and with it the vector stores the empty list, so that what is known of
vectors with a block (`run_rep`) is known of these.
-/

namespace Cab403
namespace DblVec

open Function

variable {α : Type}

def dvDestroy (vec : DblVector α) : DblVector α :=
  { vec with capacity := 0, size := 0, data := none }

/-! ## An empty block -/

def emptyBlock : Block α := ⟨0, fun _ => none⟩

/-- What `dv_destroy` leaves. -/
structure Destroyed (vec : DblVector α) : Prop where
  size : vec.size = 0
  capacity : vec.capacity = 0
  data : vec.data = none

def filled (vec : DblVector α) : DblVector α := { vec with data := some emptyBlock }

/-- The second is the first, with an empty block if it has been destroyed. -/
def Fills (vec vec' : DblVector α) : Prop := vec' = vec ∨ Destroyed vec ∧ vec' = filled vec

theorem Destroyed.fills {vec : DblVector α} (h : Destroyed vec) : Fills vec (filled vec) :=
  .inr ⟨h, rfl⟩

theorem Fills.size {vec vec' : DblVector α} (h : Fills vec vec') : vec'.size = vec.size := by
  rcases h with rfl | ⟨_, rfl⟩
  · rfl
  · rfl

theorem destroyed_dvDestroy (vec : DblVector α) : Destroyed (dvDestroy vec) := ⟨rfl, rfl, rfl⟩

theorem Destroyed.rep {vec : DblVector α} (h : Destroyed vec) : Rep (filled vec) [] := by
  refine ⟨h.size, by simp, Nat.zero_le _, ?_, emptyBlock, rfl, h.capacity.symm, fun i hi => ?_⟩
  · rw [filled, h.capacity]
    decide
  · cases hi

/-! ## What such a vector holds -/

/-- With an empty block where it has none, the vector stores the list. -/
def Holds (vec : DblVector α) (l : List α) : Prop := ∃ vec', Fills vec vec' ∧ Rep vec' l

theorem Rep.holds {vec : DblVector α} {l : List α} (h : Rep vec l) : Holds vec l :=
  ⟨vec, .inl rfl, h⟩

theorem Destroyed.holds {vec : DblVector α} (h : Destroyed vec) : Holds vec [] :=
  ⟨filled vec, h.fills, h.rep⟩

theorem Destroyed.elements {vec : DblVector α} (h : Destroyed vec) : vec.elements = [] := by
  unfold DblVector.elements
  rw [h.size]
  rfl

theorem Holds.elements {vec : DblVector α} {l : List α} (h : Holds vec l) :
    vec.elements = l.map some := by
  obtain ⟨vec', rfl | ⟨hdestroyed, rfl⟩, hrep⟩ := h
  · exact hrep.stores.elements_eq
  · have hnil : l = [] := List.eq_nil_of_length_eq_zero (hrep.size_eq.symm.trans hdestroyed.size)
    rw [hdestroyed.elements, hnil]
    rfl

/-! ## Each call -/

theorem realloc_empty (grant : Bool) (bytes : Nat) :
    realloc grant (some emptyBlock : Option (Block α)) bytes = realloc grant none bytes := by
  cases grant with
  | false => rfl
  | true =>
    refine congrArg some (congrArg (Block.mk _) (funext fun i => ?_))
    exact if_neg fun hi => Nat.not_lt_zero i hi.1

theorem dvPop_fills {vec vec' : DblVector α} (h : Fills vec vec') :
    Fills (dvPop vec) (dvPop vec') := by
  rcases h with rfl | ⟨hdestroyed, rfl⟩
  · exact .inl rfl
  · have hnone : ¬ 0 < vec.size := by
      rw [hdestroyed.size]
      exact Nat.lt_irrefl 0
    unfold dvPop
    rw [if_neg hnone, if_neg (show ¬ 0 < (filled vec).size from hnone)]
    exact hdestroyed.fills

theorem dvClear_fills {vec vec' : DblVector α} (h : Fills vec vec') :
    Fills (dvClear vec) (dvClear vec') := by
  rcases h with rfl | ⟨hdestroyed, rfl⟩
  · exact .inl rfl
  · exact .inr ⟨⟨rfl, hdestroyed.capacity, hdestroyed.data⟩, rfl⟩

theorem intSteps_eq_succ : ∃ n, intSteps = n + 1 := ⟨2 ^ 32 - 1, by norm_num [intSteps]⟩

section Machines

variable [Machine]

/-- Room for an element has `realloc` allocate. -/
theorem ensure_filled {vec : DblVector α} (h : vec.data = none) (grant : Bool) {n : Nat}
    (hn : vec.capacity < n) :
    dvEnsureCapacity grant (filled vec) n = dvEnsureCapacity grant vec n := by
  have hfilled : (filled vec).capacity < n := hn
  rw [dvEnsureCapacity_of_lt grant hn, dvEnsureCapacity_of_lt grant hfilled, h]
  show ({ vec with
    capacity := _
    data := realloc grant (some emptyBlock) _ } : DblVector α) = _
  rw [realloc_empty]
  rfl

/-- As the insertions ask for it, having written the size. -/
theorem ensure_filled_succ {vec : DblVector α} (h : Destroyed vec) (grant : Bool) :
    dvEnsureCapacity grant { filled vec with size := (filled vec).size + 1 }
        ((filled vec).size + 1) =
      dvEnsureCapacity grant { vec with size := vec.size + 1 } (vec.size + 1) := by
  have hroom : ({ vec with size := vec.size + 1 } : DblVector α).capacity < vec.size + 1 := by
    show vec.capacity < vec.size + 1
    rw [h.capacity]
    exact Nat.succ_pos _
  have hdata : ({ vec with size := vec.size + 1 } : DblVector α).data = none := h.data
  exact ensure_filled hdata grant hroom

theorem dvPush_filled {vec : DblVector α} (h : Destroyed vec) (grant : Bool) (x : α) :
    dvPush grant (filled vec) x = dvPush grant vec x := by
  unfold dvPush
  dsimp only
  rw [ensure_filled_succ h]
  rfl

theorem dvInsertAt_filled {vec : DblVector α} (h : Destroyed vec) (grant : Bool) (pos : Nat)
    (x : α) : dvInsertAt grant (filled vec) pos x = dvInsertAt grant vec pos x := by
  unfold dvInsertAt
  dsimp only
  rw [ensure_filled_succ h, dvPush_filled h]
  rfl

theorem dvRemoveAt_fills {vec vec' : DblVector α} (h : Fills vec vec') {pos : Nat}
    {out' : DblVector α} (hrun : dvRemoveAt vec' pos = some out') :
    ∃ out, dvRemoveAt vec pos = some out ∧ Fills out out' := by
  rcases h with rfl | ⟨hdestroyed, rfl⟩
  · exact ⟨out', hrun, .inl rfl⟩
  · have hnone : ¬ pos < vec.size := by
      rw [hdestroyed.size]
      exact Nat.not_lt_zero pos
    unfold dvRemoveAt at hrun ⊢
    rw [if_neg (show ¬ pos < (filled vec).size from hnone)] at hrun
    cases hrun
    rw [if_neg hnone]
    exact ⟨vec, rfl, hdestroyed.fills⟩

theorem dvEnsureCapacity_fills {vec vec' : DblVector α} (h : Fills vec vec') (n : Nat) :
    Fills (dvEnsureCapacity true vec n) (dvEnsureCapacity true vec' n) := by
  rcases h with rfl | ⟨hdestroyed, rfl⟩
  · exact .inl rfl
  · by_cases hn : vec.capacity < n
    · exact .inl (ensure_filled hdestroyed.data true hn)
    · unfold dvEnsureCapacity
      rw [if_neg hn, if_neg (show ¬ (filled vec).capacity < n from hn)]
      exact hdestroyed.fills

/-- From an empty vector nothing is copied. -/
theorem dvCopy_of_empty {vec : DblVector α} (h : vec.size = 0) (grant : Bool)
    (dest : DblVector α) : dvCopy grant vec dest = some (vec, { dest with size := 0 }) := by
  obtain ⟨n, hn⟩ := intSteps_eq_succ
  unfold dvCopy
  dsimp only
  rw [hn, h, dvEnsureCapacity_zero, copyLoop, h, if_neg (Nat.not_lt_zero _)]

theorem dvCopy_fills {vec vec' dest dest' : DblVector α} (hvec : Fills vec vec')
    (hdest : Fills dest dest') {out' : DblVector α × DblVector α}
    (hrun : dvCopy true vec' dest' = some out') :
    ∃ out, dvCopy true vec dest = some out ∧ Fills out.1 out'.1 ∧ Fills out.2 out'.2 := by
  by_cases hsize : vec.size = 0
  · rw [dvCopy_of_empty (hvec.size.trans hsize)] at hrun
    cases hrun
    refine ⟨_, dvCopy_of_empty hsize true dest, hvec, ?_⟩
    rcases hdest with rfl | ⟨hdestroyed, rfl⟩
    · exact .inl rfl
    · exact .inr ⟨⟨rfl, hdestroyed.capacity, hdestroyed.data⟩, rfl⟩
  · -- there is something to copy, so a destroyed destination grows
    obtain rfl : vec' = vec := hvec.resolve_right fun h => hsize h.1.size
    rcases hdest with rfl | ⟨hdestroyed, rfl⟩
    · exact ⟨out', hrun, .inl rfl, .inl rfl⟩
    · have hroom : ({ dest with size := vec'.size } : DblVector α).capacity < vec'.size := by
        show dest.capacity < vec'.size
        rw [hdestroyed.capacity]
        exact Nat.pos_of_ne_zero hsize
      have hdata : ({ dest with size := vec'.size } : DblVector α).data = none := hdestroyed.data
      have hensure := ensure_filled hdata true hroom
      refine ⟨out', ?_, .inl rfl, .inl rfl⟩
      rw [← hrun]
      unfold dvCopy
      dsimp only
      exact congrArg (copyLoop intSteps 0 vec') hensure.symm

/-! ## Programs -/

variable {ι : Type} [DecidableEq ι]

omit [Machine] in
theorem fills_update {vs vs' : ι → DblVector α} (h : ∀ i, Fills (vs i) (vs' i)) {v : ι}
    {vec vec' : DblVector α} (hv : Fills vec vec') (i : ι) :
    Fills (update vs v vec i) (update vs' v vec' i) := by
  by_cases hi : i = v
  · subst hi
    rw [update_self, update_self]
    exact hv
  · rw [update_of_ne hi, update_of_ne hi]
    exact h i

/-- **An empty block makes no difference to a call.** -/
theorem Op.run_fills {vs vs' : ι → DblVector α} (h : ∀ i, Fills (vs i) (vs' i)) {op : Op ι α}
    {ws' : ι → DblVector α} (hrun : op.run true vs' = some ws') :
    ∃ ws, op.run true vs = some ws ∧ ∀ i, Fills (ws i) (ws' i) := by
  cases op with
  | push v x =>
    obtain ⟨vec, hvec, rfl⟩ := Option.map_eq_some_iff.mp hrun
    have hsame : dvPush true (vs v) x = some vec := by
      rcases h v with heq | ⟨hdestroyed, heq⟩
      · rw [← heq, hvec]
      · rw [← hvec, heq, dvPush_filled hdestroyed]
    exact ⟨_, by rw [Op.run, hsame]; rfl, fills_update h (.inl rfl)⟩
  | pop v =>
    cases hrun
    exact ⟨_, rfl, fills_update h (dvPop_fills (h v))⟩
  | insertAt v pos x =>
    obtain ⟨vec, hvec, rfl⟩ := Option.map_eq_some_iff.mp hrun
    have hsame : dvInsertAt true (vs v) pos x = some vec := by
      rcases h v with heq | ⟨hdestroyed, heq⟩
      · rw [← heq, hvec]
      · rw [← hvec, heq, dvInsertAt_filled hdestroyed]
    exact ⟨_, by rw [Op.run, hsame]; rfl, fills_update h (.inl rfl)⟩
  | removeAt v pos =>
    obtain ⟨vec, hvec, rfl⟩ := Option.map_eq_some_iff.mp hrun
    obtain ⟨out, hout, hfills⟩ := dvRemoveAt_fills (h v) hvec
    exact ⟨_, by rw [Op.run, hout]; rfl, fills_update h hfills⟩
  | clear v =>
    cases hrun
    exact ⟨_, rfl, fills_update h (dvClear_fills (h v))⟩
  | ensureCapacity v n =>
    cases hrun
    exact ⟨_, rfl, fills_update h (dvEnsureCapacity_fills (h v) n)⟩
  | copy vec dest hne =>
    obtain ⟨out', hout', rfl⟩ := Option.map_eq_some_iff.mp hrun
    obtain ⟨out, hout, hvec, hdest⟩ := dvCopy_fills (h vec) (h dest) hout'
    exact ⟨_, by rw [Op.run, hout]; rfl, fills_update (fills_update h hvec) hdest⟩

/-- What a program does with its vectors. -/
inductive Act (ι α : Type) where
  | init (v : ι)
  | destroy (v : ι)
  | op (o : Op ι α)

def Act.run (vs : ι → DblVector α) : Act ι α → Option (ι → DblVector α)
  | .init v => some (update vs v (dvInit true))
  | .destroy v => some (update vs v (dvDestroy (vs v)))
  | .op o => o.run true vs

/-- A vector is empty once it is prepared, and once it is destroyed. -/
def Act.spec (ls : ι → List α) : Act ι α → ι → List α
  | .init v | .destroy v => update ls v []
  | .op o => o.spec ls

def Act.Small (ls : ι → List α) : Act ι α → Prop
  | .init _ | .destroy _ => True
  | .op o => o.Small ls

instance Act.decidableSmall (ls : ι → List α) : (a : Act ι α) → Decidable (a.Small ls)
  | .init _ | .destroy _ => inferInstanceAs (Decidable True)
  | .op o => inferInstanceAs (Decidable (o.Small ls))

def runActs (vs : ι → DblVector α) : List (Act ι α) → Option (ι → DblVector α)
  | [] => some vs
  | a :: acts => (a.run vs).bind fun vs => runActs vs acts

def specActs (ls : ι → List α) : List (Act ι α) → ι → List α
  | [] => ls
  | a :: acts => specActs (a.spec ls) acts

def ActsSmall (ls : ι → List α) : List (Act ι α) → Prop
  | [] => True
  | a :: acts => a.Small ls ∧ ActsSmall (a.spec ls) acts

omit [Machine] in
theorem holds_update {vs : ι → DblVector α} {ls : ι → List α} (h : ∀ i, Holds (vs i) (ls i))
    {v : ι} {vec : DblVector α} {l : List α} (hv : Holds vec l) (i : ι) :
    Holds (update vs v vec i) (update ls v l i) := by
  by_cases hi : i = v
  · subst hi
    rw [update_self, update_self]
    exact hv
  · rw [update_of_ne hi, update_of_ne hi]
    exact h i

theorem Act.run_holds (hharmless : Machine.harmless = true) {vs : ι → DblVector α}
    {ls : ι → List α} (h : ∀ i, Holds (vs i) (ls i)) (a : Act ι α) (hs : a.Small ls) :
    ∃ vs', a.run vs = some vs' ∧ ∀ i, Holds (vs' i) (a.spec ls i) := by
  cases a with
  | init v => exact ⟨_, rfl, holds_update h dvInit_rep.holds⟩
  | destroy v => exact ⟨_, rfl, holds_update h (destroyed_dvDestroy _).holds⟩
  | op o =>
    choose blocks hfills hrep using h
    obtain ⟨ws', hrun', hrep'⟩ := run_rep hrep o hs (o.fits_of_harmless hharmless blocks)
    obtain ⟨ws, hrun, hfills'⟩ := Op.run_fills hfills hrun'
    exact ⟨ws, hrun, fun i => ⟨ws' i, hfills' i, hrep' i⟩⟩

theorem runActs_holds (hharmless : Machine.harmless = true) {vs : ι → DblVector α}
    {ls : ι → List α} (h : ∀ i, Holds (vs i) (ls i)) {acts : List (Act ι α)}
    (hs : ActsSmall ls acts) :
    ∃ vs', runActs vs acts = some vs' ∧ ∀ i, Holds (vs' i) (specActs ls acts i) := by
  induction acts generalizing vs ls with
  | nil => exact ⟨vs, rfl, h⟩
  | cons a acts ih =>
    obtain ⟨vs₁, hrun, h₁⟩ := a.run_holds hharmless h hs.1
    obtain ⟨vs₂, hruns, h₂⟩ := ih h₁ hs.2
    exact ⟨vs₂, by rw [runActs, hrun, Option.bind_some, hruns], h₂⟩

/-! ## What the observers see -/

theorem Holds.last {vec : DblVector α} {l : List α} (h : Holds vec l) (nan : α) :
    ∃ vec', dvLast nan vec = some (some (l.getLastD nan), vec') := by
  obtain ⟨vec', rfl | ⟨hdestroyed, rfl⟩, hrep⟩ := h
  · obtain ⟨log, hlast⟩ := dvLast_run hrep.stores nan
    exact ⟨_, hlast⟩
  · have hnil : l = [] := List.eq_nil_of_length_eq_zero (hrep.size_eq.symm.trans hdestroyed.size)
    refine ⟨vec, ?_⟩
    rw [dvLast, if_neg (by rw [hdestroyed.size]; exact Nat.lt_irrefl 0), hnil]
    rfl

theorem Holds.foreach {vec : DblVector α} {l : List α} (h : Holds vec l) {σ : Type}
    (callback : Option α → σ → σ) (info : σ) :
    ∃ vec', dvForeach vec callback info =
      some (vec', l.foldl (fun info x => callback (some x) info) info) := by
  obtain ⟨vec', rfl | ⟨hdestroyed, rfl⟩, hrep⟩ := h
  · obtain ⟨log, heach⟩ := dvForeach_run hrep.stores (hrep.size_eq ▸ hrep.size_lt) callback info
    exact ⟨_, heach⟩
  · have hnil : l = [] := List.eq_nil_of_length_eq_zero (hrep.size_eq.symm.trans hdestroyed.size)
    obtain ⟨n, hn⟩ := intSteps_eq_succ
    refine ⟨vec, ?_⟩
    rw [dvForeach, hn, foreachLoop, hdestroyed.size, if_neg (Nat.not_lt_zero _), hnil]
    rfl

/-- **A destroyed vector is an empty one**, over every program that prepares, uses and destroys
its vectors in any order, where a store that misses the block does no harm: every call returns, and
the elements, the last one and what a callback makes of them are those of the lists the program
stands for. -/
theorem acts_refine_lists (hharmless : Machine.harmless = true) (nan : α)
    (acts : List (Act ι α)) (hs : ActsSmall (fun _ => []) acts) :
    ∃ vs, runActs (fun _ => dvInit true) acts = some vs ∧
      ∀ i, (vs i).elements = (specActs (fun _ => []) acts i).map some ∧
        (∃ vec, dvLast nan (vs i) =
          some (some ((specActs (fun _ => []) acts i).getLastD nan), vec)) ∧
        ∀ (σ : Type) (callback : Option α → σ → σ) (info : σ),
          ∃ vec, dvForeach (vs i) callback info =
            some (vec, (specActs (fun _ => []) acts i).foldl
              (fun info x => callback (some x) info) info) := by
  obtain ⟨vs, hrun, h⟩ := runActs_holds hharmless (fun _ => dvInit_rep.holds) hs
  exact ⟨vs, hrun, fun i => ⟨(h i).elements, (h i).last nan, fun σ => (h i).foreach⟩⟩

end Machines

attribute [local instance] Machine.lenient

/-- Destroyed, given an element, copied from a destroyed one, and prepared again. -/
theorem acts_refine_lists_again :
    ∃ vs, runActs (fun _ => dvInit true) [.destroy true, .op (.push true (7 : Int)),
        .op (.push false 5), .destroy false, .op (.copy true false (by decide)),
        .op (.insertAt false 0 3), .init true] = some vs ∧
      (vs false).elements = [some 3, some 7] ∧ (vs true).elements = [] := by
  obtain ⟨vs, hrun, h⟩ := acts_refine_lists rfl (0 : Int)
    [.destroy true, .op (.push true 7), .op (.push false 5), .destroy false,
      .op (.copy true false (by decide)), .op (.insertAt false 0 3), .init true]
    ⟨trivial, by decide, by decide, trivial, trivial, by decide, trivial, trivial⟩
  exact ⟨vs, hrun, (h false).1, (h true).1⟩

end DblVec
end Cab403
