import Cab403.Vector.Basic
import Mathlib.Tactic.SplitIfs

/-!
# The element loops of `dbl_vector`, cell by cell

What the four `for` loops leave in the block, for counters below `2 ^ 31` — where an `int` and
a `size_t` agree — and for any block, however long. Nothing here mentions lists.
-/

namespace Cab403
namespace DblVec

variable {α : Type}

/-! ## The integers below `2 ^ 31` -/

theorem sizeT_natCast {n : Nat} (h : n < 2 ^ 31) : sizeT (n : Int) = n := by
  unfold sizeT
  omega

theorem narrow_of_lt {n : Nat} (h : n < 2 ^ 31) : narrow n = n := by
  unfold narrow
  exact Int.bmod_eq_of_le_mul_two (by omega) (by omega)

theorem asInt_of_mem {i : Int} (h₁ : -2 ^ 31 ≤ i) (h₂ : i < 2 ^ 31) : asInt i = some i := by
  unfold asInt
  rw [if_pos ⟨h₁, h₂⟩]

theorem asInt_natCast {n : Nat} (h : n < 2 ^ 31) : asInt (n : Int) = some (n : Int) :=
  asInt_of_mem (by omega) (by omega)

/-! ## Cells -/

theorem Block.at_natCast (b : Block α) {n : Nat} (h : n < b.len) : b.at n = b.cell n := by
  unfold Block.at
  rw [if_pos (by omega), Int.toNat_natCast]

@[simp] theorem Block.put_len (b : Block α) (i : Int) (x : Option α) :
    (b.put i x).len = b.len := by
  unfold Block.put
  split <;> rfl

theorem Block.put_cell (b : Block α) (n j : Nat) (x : Option α) :
    (b.put n x).cell j = if j = n ∧ n < b.len then x else b.cell j := by
  unfold Block.put
  by_cases hn : n < b.len
  · rw [if_pos (by omega)]
    by_cases hj : j = n
    · subst hj; simp [hn]
    · simp [hj]
  · rw [if_neg (by omega), if_neg (by omega)]

variable [Machine]

theorem Block.admits_of_lt {b : Block α} {n : Nat} (h : n < b.len) : b.Admits n :=
  .inl ⟨Int.natCast_nonneg n, Int.ofNat_lt.mpr h⟩

theorem Block.admits_put {b : Block α} {i j : Int} {x : Option α} :
    (b.put i x).Admits j ↔ b.Admits j := by
  unfold Block.Admits
  rw [Block.put_len]

theorem load_of_data {vec : DblVector α} {b : Block α} (hb : vec.data = some b) {i : Int}
    (hi : b.Admits i) : vec.load i = some (b.at i,
      { vec with accesses := .read i vec.capacity (b.at i).isSome :: vec.accesses }) := by
  rw [DblVector.load, hb, Option.bind_some, if_pos hi]

theorem store_of_data {vec : DblVector α} {b : Block α} (hb : vec.data = some b) {i : Int}
    (hi : b.Admits i) (x : Option α) :
    vec.store i x = some { vec with
      data := some (b.put i x), accesses := .store i vec.capacity :: vec.accesses } := by
  rw [DblVector.store, hb, Option.bind_some, if_pos hi]

/-- A read that has a result. -/
theorem load_some {vec vec' : DblVector α} {i : Int} {x : Option α}
    (h : vec.load i = some (x, vec')) : ∃ b, vec.data = some b ∧ b.Admits i ∧
      vec' = { vec with accesses := .read i vec.capacity (b.at i).isSome :: vec.accesses } := by
  obtain ⟨b, hb, hread⟩ := Option.bind_eq_some_iff.mp h
  obtain ⟨hi, heq⟩ := Option.ite_none_right_eq_some.mp hread
  exact ⟨b, hb, hi, (Prod.mk.inj (Option.some.inj heq)).2.symm⟩

theorem store_some {vec vec' : DblVector α} {i : Int} {x : Option α}
    (h : vec.store i x = some vec') : ∃ b, vec.data = some b ∧ b.Admits i ∧
      vec' = { vec with
        data := some (b.put i x), accesses := .store i vec.capacity :: vec.accesses } := by
  obtain ⟨b, hb, hstore⟩ := Option.bind_eq_some_iff.mp h
  obtain ⟨hi, heq⟩ := Option.ite_none_right_eq_some.mp hstore
  exact ⟨b, hb, hi, (Option.some.inj heq).symm⟩

/-! ## The three element loops

Each lemma describes the block the loop leaves, cell by cell. A cell at or past the end of
the block is not there to be changed, which is why every right-hand side is guarded by
`j < b.len`. -/

/-- The upward shift of `dv_insert_at`, by induction on how far `i` is above `pos`. -/
theorem shiftUp_cells (pos : Nat) : ∀ (n fuel : Nat) (vec : DblVector α) (b : Block α),
    n < fuel → pos + n < 2 ^ 31 → (0 < n → b.Admits (pos + n : Nat)) → vec.data = some b →
    ∃ b' log, shiftUp pos fuel (pos + n : Nat) vec
        = some { vec with data := some b', accesses := log } ∧ b'.len = b.len ∧
      ∀ j, b'.cell j = if pos < j ∧ j ≤ pos + n ∧ j < b.len then b.cell (j - 1) else b.cell j
  | _, 0, _, _, hf, _, _, _ => absurd hf (by omega)
  | 0, fuel + 1, vec, b, _, hlt, _, hb => by
    refine ⟨b, vec.accesses, ?_, rfl, fun j => by rw [if_neg (by omega)]⟩
    unfold shiftUp
    rw [sizeT_natCast hlt, if_neg (by omega), ← hb]
  | n + 1, fuel + 1, vec, b, hf, hlt, hadmits, hb => by
    have hbelow : ((pos + (n + 1) : Nat) : Int) - 1 = (pos + n : Nat) := by omega
    have htop : b.Admits (pos + (n + 1) : Nat) := hadmits (Nat.succ_pos n)
    have hread : b.Admits (pos + n : Nat) := htop.imp_left fun h => by omega
    obtain ⟨b', log, hrun, hlen, hcell⟩ :=
      shiftUp_cells pos n fuel
        { vec with
          data := some (b.put (pos + (n + 1) : Nat) (b.at (pos + n : Nat)))
          accesses := .store (pos + (n + 1) : Nat) vec.capacity ::
            .read (pos + n : Nat) vec.capacity (b.at (pos + n : Nat)).isSome :: vec.accesses }
        _ (by omega) (by omega) (fun _ => Block.admits_put.mpr hread) rfl
    refine ⟨b', log, ?_, by rw [hlen, Block.put_len], fun j => ?_⟩
    · unfold shiftUp
      rw [sizeT_natCast hlt, if_pos (by omega), hbelow, asInt_natCast (by omega)]
      simp only [Option.bind_eq_bind, Option.bind_some, load_of_data hb hread]
      rw [store_of_data (b := b) (by exact hb) htop]
      exact hrun
    · rw [hcell, Block.put_len, Block.put_cell, Block.put_cell]
      by_cases htop : j = pos + (n + 1) ∧ j < b.len
      · obtain ⟨rfl, hj⟩ := htop
        rw [if_neg (by omega), if_pos (by omega), if_pos (by omega),
          Block.at_natCast b (by omega)]
        congr 1
      · split_ifs <;> first | rfl | omega

/-- The downward shift of `dv_remove_at`, by induction on how far `i` is below the new size. -/
theorem shiftDown_cells : ∀ (n fuel pos : Nat) (vec : DblVector α) (b : Block α),
    n < fuel → vec.size = pos + n → vec.size < 2 ^ 31 → vec.size < b.len →
    vec.data = some b →
    ∃ b' log, shiftDown fuel (pos : Nat) vec
        = some { vec with data := some b', accesses := log } ∧ b'.len = b.len ∧
      ∀ j, b'.cell j = if pos ≤ j ∧ j < pos + n then b.cell (j + 1) else b.cell j
  | _, 0, _, _, _, hf, _, _, _, _ => absurd hf (by omega)
  | 0, fuel + 1, pos, vec, b, _, hsz, hlt, _, hb => by
    refine ⟨b, vec.accesses, ?_, rfl, fun j => by rw [if_neg (by omega)]⟩
    unfold shiftDown
    rw [sizeT_natCast (by omega), if_neg (by omega), ← hb]
  | n + 1, fuel + 1, pos, vec, b, hf, hsz, hlt, hlen, hb => by
    have habove : (pos : Int) + 1 = (pos + 1 : Nat) := by omega
    have habove_lt : b.Admits (pos + 1 : Nat) := Block.admits_of_lt (by omega)
    obtain ⟨b', log, hrun, hlen', hcell⟩ :=
      shiftDown_cells n fuel (pos + 1)
        { vec with
          data := some (b.put pos (b.at (pos + 1 : Nat)))
          accesses := .store pos vec.capacity ::
            .read (pos + 1 : Nat) vec.capacity (b.at (pos + 1 : Nat)).isSome :: vec.accesses }
        (b.put pos (b.at (pos + 1 : Nat)))
        (by omega) (by simp only; omega) hlt (by rw [Block.put_len]; exact hlen) rfl
    refine ⟨b', log, ?_, by rw [hlen', Block.put_len], fun j => ?_⟩
    · unfold shiftDown
      rw [sizeT_natCast (by omega), if_pos (by omega), habove, asInt_natCast (by omega)]
      simp only [Option.bind_eq_bind, Option.bind_some, load_of_data hb habove_lt]
      rw [store_of_data (b := b) (by exact hb) (Block.admits_of_lt (by omega))]
      exact hrun
    · rw [hcell, Block.put_cell, Block.put_cell]
      by_cases hj : j = pos
      · subst hj
        rw [if_neg (by omega), if_pos (by omega), if_pos (by omega),
          Block.at_natCast b (by omega)]
      · split_ifs <;> first | rfl | omega

/-- The element loop of `dv_copy`, by induction on how many elements are still to copy. -/
theorem copyLoop_cells : ∀ (n fuel pos : Nat) (vec dest : DblVector α) (b d : Block α),
    n < fuel → vec.size = pos + n → vec.size < 2 ^ 31 → vec.size ≤ b.len → vec.size ≤ d.len →
    vec.data = some b → dest.data = some d →
    ∃ d' log log', copyLoop fuel (pos : Nat) vec dest
        = some ({ vec with accesses := log },
            { dest with data := some d', accesses := log' }) ∧ d'.len = d.len ∧
      ∀ j, d'.cell j = if pos ≤ j ∧ j < pos + n then b.cell j else d.cell j
  | _, 0, _, _, _, _, _, hf, _, _, _, _, _, _ => absurd hf (by omega)
  | 0, fuel + 1, pos, vec, dest, b, d, _, hsz, hlt, _, _, hb, hd => by
    refine ⟨d, vec.accesses, dest.accesses, ?_, rfl, fun j => by rw [if_neg (by omega)]⟩
    unfold copyLoop
    rw [sizeT_natCast (by omega), if_neg (by omega), ← hd]
  | n + 1, fuel + 1, pos, vec, dest, b, d, hf, hsz, hlt, hbl, hdl, hb, hd => by
    have hnext : (pos : Int) + 1 = (pos + 1 : Nat) := by omega
    obtain ⟨d', log, log', hrun, hlen, hcell⟩ :=
      copyLoop_cells n fuel (pos + 1)
        { vec with accesses := .read pos vec.capacity (b.at pos).isSome :: vec.accesses }
        { dest with
          data := some (d.put pos (b.at pos))
          accesses := .store pos dest.capacity :: dest.accesses }
        b (d.put pos (b.at pos))
        (by omega) (by simp only; omega) hlt hbl (by rw [Block.put_len]; exact hdl) hb rfl
    refine ⟨d', log, log', ?_, by rw [hlen, Block.put_len], fun j => ?_⟩
    · unfold copyLoop
      rw [sizeT_natCast (by omega), if_pos (by omega)]
      simp only [Option.bind_eq_bind, Option.bind_some,
        load_of_data hb (Block.admits_of_lt (show pos < b.len by omega)),
        store_of_data hd (Block.admits_of_lt (show pos < d.len by omega)),
        hnext, asInt_natCast (show pos + 1 < 2 ^ 31 by omega)]
      exact hrun
    · rw [hcell, Block.put_cell]
      by_cases hj : j = pos
      · subst hj
        rw [if_neg (by omega), if_pos (by omega), if_pos (by omega),
          Block.at_natCast b (by omega)]
      · split_ifs <;> first | rfl | omega

/-- `dv_foreach` calls back on the cells from `pos` on, in order. -/
theorem foreachLoop_fold {σ : Type} (callback : Option α → σ → σ) :
    ∀ (n fuel pos : Nat) (vec : DblVector α) (b : Block α) (info : σ),
    n < fuel → vec.size = pos + n → vec.size < 2 ^ 31 → vec.size ≤ b.len →
    vec.data = some b →
    ∃ log, foreachLoop callback fuel (pos : Nat) vec info
        = some ({ vec with accesses := log },
            ((List.range' pos n).map b.cell).foldl (fun info x => callback x info) info)
  | _, 0, _, _, _, _, hf, _, _, _, _ => absurd hf (by omega)
  | 0, fuel + 1, pos, vec, b, info, _, hsz, hlt, _, hb => by
    refine ⟨vec.accesses, ?_⟩
    unfold foreachLoop
    rw [sizeT_natCast (by omega), if_neg (by omega)]
    rfl
  | n + 1, fuel + 1, pos, vec, b, info, hf, hsz, hlt, hbl, hb => by
    have hnext : (pos : Int) + 1 = (pos + 1 : Nat) := by omega
    obtain ⟨log, hrun⟩ :=
      foreachLoop_fold callback n fuel (pos + 1)
        { vec with accesses := .read pos vec.capacity (b.at pos).isSome :: vec.accesses }
        b (callback (b.at pos) info) (by omega) (by simp only; omega) hlt hbl hb
    refine ⟨log, ?_⟩
    unfold foreachLoop
    rw [sizeT_natCast (by omega), if_pos (by omega)]
    simp only [Option.bind_eq_bind, Option.bind_some,
      load_of_data hb (Block.admits_of_lt (show pos < b.len by omega)), hnext,
      asInt_natCast (show pos + 1 < 2 ^ 31 by omega)]
    rw [hrun, List.range'_succ, List.map_cons, List.foldl_cons, Block.at_natCast b (by omega)]

end DblVec
end Cab403
