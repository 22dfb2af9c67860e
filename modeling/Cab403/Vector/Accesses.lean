import Cab403.Vector.Counters
import Cab403.Vector.Refine

/-!
# The accesses of `dbl_vector`

The log of a vector says of each `data[i]` evaluated which index it was, how many cells the block
had, and, for a read, whether the cell had been written. `Within` is what each of them should be:
inside the block, and of a cell that something was stored in.

All the functions keep to that but one. The loop of `dv_insert_at` begins at the new size, one
past the last element, so it reads the cell behind the old elements and stores to the one behind
that. Whether this is harmless depends on what came before: there must be two cells to spare, and
the first of them must have held an element once. `Call.Apt` is that condition, on the vector
before the call; a call grown for is never apt.

The machine is any: the one the file is compiled for, on which a run that comes to an access outside
a block has no result, or one on which such an access does no harm and is logged.
-/

namespace Cab403
namespace DblVec

variable {α σ : Type}

/-- The access is to a cell of the block, one that was written if it is read. -/
def Access.Within : Access → Prop
  | .read index capacity written => 0 ≤ index ∧ index < capacity ∧ written = true
  | .store index capacity => 0 ≤ index ∧ index < capacity

def DblVector.Within (vec : DblVector α) : Prop := ∀ a ∈ vec.accesses, a.Within

theorem within_cons {vec : DblVector α} {a : Access} {log : List Access}
    (h : vec.accesses = a :: log) :
    vec.Within ↔ a.Within ∧ ∀ b ∈ log, b.Within := by
  unfold DblVector.Within
  rw [h]
  exact List.forall_mem_cons

theorem within_read {n cap : Nat} {w : Bool} :
    (Access.read n cap w).Within ↔ n < cap ∧ w = true := by
  simp [Access.Within]

theorem within_store {n cap : Nat} : (Access.store n cap).Within ↔ n < cap := by
  simp [Access.Within]

theorem Block.put_at_of_ne (b : Block α) {n j : Nat} (hj : j ≠ n) (x : Option α) :
    (b.put n x).at j = b.at j := by
  rw [Block.put_at, if_neg fun h => hj h.1]

/-- Something was stored in `data[i]`. -/
def DblVector.written (vec : DblVector α) (i : Nat) : Bool :=
  (vec.data.bind fun b => b.at i).isSome

/-- The elements of a vector are in cells of its block, and were stored there. -/
theorem Rep.element {vec : DblVector α} {l : List α} (h : Rep vec l) {b : Block α}
    (hb : vec.data = some b) {i : Nat} (hi : i < l.length) :
    i < vec.capacity ∧ (b.at i).isSome := by
  obtain ⟨_, b', hb', hat⟩ := h.stores
  obtain rfl : b = b' := Option.some.inj (hb.symm.trans hb'.data)
  refine ⟨Nat.lt_of_lt_of_le hi h.fits, ?_⟩
  rw [hat i hi, List.getElem?_eq_getElem hi]
  rfl

theorem dvPop_accesses (vec : DblVector α) : (dvPop vec).accesses = vec.accesses := by
  simp only [dvPop]
  split <;> rfl

section Machines

variable [Machine]

/-- A read that has a result, of a block. -/
theorem eq_of_load {vec : DblVector α} {b : Block α} (hb : vec.data = some b) {i : Int}
    {p : Option α × DblVector α} (h : vec.load i = some p) : p = (b.at i,
      { vec with accesses := .read i vec.capacity (b.at i).isSome :: vec.accesses }) := by
  obtain ⟨b', hb', hi, _⟩ := load_some h
  obtain rfl : b = b' := Option.some.inj (hb.symm.trans hb')
  rw [load_of_data hb hi] at h
  exact (Option.some.inj h).symm

theorem eq_of_store {vec vec' : DblVector α} {b : Block α} (hb : vec.data = some b) {i : Int}
    {x : Option α} (h : vec.store i x = some vec') : vec' = { vec with
      data := some (b.put i x), accesses := .store i vec.capacity :: vec.accesses } := by
  obtain ⟨b', hb', _, heq⟩ := store_some h
  obtain rfl : b = b' := Option.some.inj (hb.symm.trans hb')
  exact heq

/-! ## The loops

What a loop reads lies ahead of what it has stored, so every cell it reads is as the block had it
before. -/

/-- The upward shift, by induction on how far `i` is above `pos`. -/
theorem shiftUp_within (pos : Nat) : ∀ (n fuel : Nat) (vec vec' : DblVector α) (b : Block α),
    pos + n < 2 ^ 31 → vec.data = some b → shiftUp pos fuel (pos + n : Nat) vec = some vec' →
    (vec'.Within ↔ vec.Within ∧
      ∀ i, pos ≤ i → i < pos + n → i + 1 < vec.capacity ∧ (b.at i).isSome)
  | _, 0, _, _, _, _, _, hrun => by
    unfold shiftUp at hrun
    cases hrun
  | 0, fuel + 1, vec, vec', b, hlt, hb, hrun => by
    unfold shiftUp at hrun
    rw [sizeT_natCast hlt, if_neg (by omega)] at hrun
    obtain rfl : vec = vec' := Option.some.inj hrun
    exact ⟨fun h => ⟨h, fun i hlow hhigh => by omega⟩, fun h => h.1⟩
  | n + 1, fuel + 1, vec, vec', b, hlt, hb, hrun => by
    have hbelow : ((pos + (n + 1) : Nat) : Int) - 1 = (pos + n : Nat) := by omega
    unfold shiftUp at hrun
    rw [sizeT_natCast hlt, if_pos (by omega), hbelow, asInt_natCast (by omega)] at hrun
    simp only [Option.bind_eq_bind, Option.bind_some] at hrun
    obtain ⟨p, hload, hrun⟩ := Option.bind_eq_some_iff.mp hrun
    obtain rfl := eq_of_load hb hload
    obtain ⟨vec₂, hstore, hrun⟩ := Option.bind_eq_some_iff.mp hrun
    obtain rfl := eq_of_store (b := b) (by exact hb) hstore
    rw [shiftUp_within pos n fuel _ vec' _ (by omega) rfl hrun, within_cons rfl,
      List.forall_mem_cons, within_store, within_read]
    constructor
    · intro h
      obtain ⟨⟨hstore, hread, hold⟩, hrest⟩ := h
      refine ⟨hold, fun i hlow hhigh => ?_⟩
      by_cases htop : i = pos + n
      · subst htop
        exact ⟨hstore, hread.2⟩
      · have hi := hrest i hlow (by omega)
        rwa [Block.put_at_of_ne b (by omega)] at hi
    · intro h
      obtain ⟨hold, hall⟩ := h
      obtain ⟨hstore, hread⟩ := hall (pos + n) (by omega) (by omega)
      refine ⟨⟨hstore, ⟨by omega, hread⟩, hold⟩, fun i hlow hhigh => ?_⟩
      rw [Block.put_at_of_ne b (by omega)]
      exact hall i hlow (by omega)

/-- The downward shift, by induction on how far `i` is below the new size. -/
theorem shiftDown_within : ∀ (n fuel pos : Nat) (vec vec' : DblVector α) (b : Block α),
    vec.size = pos + n → vec.size < 2 ^ 31 - 1 → vec.data = some b →
    shiftDown fuel (pos : Nat) vec = some vec' →
    (∀ i, pos ≤ i → i < pos + n → i + 1 < vec.capacity ∧ (b.at (i + 1 : Nat)).isSome) →
    (vec'.Within ↔ vec.Within)
  | _, 0, _, _, _, _, _, _, _, hrun, _ => by
    unfold shiftDown at hrun
    cases hrun
  | 0, fuel + 1, pos, vec, vec', b, hsz, hlt, hb, hrun, _ => by
    unfold shiftDown at hrun
    rw [sizeT_natCast (by omega), if_neg (by omega)] at hrun
    obtain rfl : vec = vec' := Option.some.inj hrun
    exact Iff.rfl
  | n + 1, fuel + 1, pos, vec, vec', b, hsz, hlt, hb, hrun, hall => by
    have habove : (pos : Int) + 1 = (pos + 1 : Nat) := by omega
    unfold shiftDown at hrun
    rw [sizeT_natCast (by omega), if_pos (by omega), habove, asInt_natCast (by omega)] at hrun
    simp only [Option.bind_eq_bind, Option.bind_some] at hrun
    obtain ⟨p, hload, hrun⟩ := Option.bind_eq_some_iff.mp hrun
    obtain rfl := eq_of_load hb hload
    obtain ⟨vec₂, hstore, hrun⟩ := Option.bind_eq_some_iff.mp hrun
    obtain rfl := eq_of_store (b := b) (by exact hb) hstore
    obtain ⟨hcap, hread⟩ := hall pos (by omega) (by omega)
    have hrest := shiftDown_within n fuel (pos + 1) _ vec' _ (by simp only; omega) (by exact hlt)
      rfl hrun (fun i hlow hhigh => by
        rw [Block.put_at_of_ne b (by omega)]
        exact hall i (by omega) (by omega))
    rw [hrest, within_cons rfl, List.forall_mem_cons, within_store, within_read]
    exact ⟨fun h => h.2.2, fun h => ⟨Nat.lt_of_succ_lt hcap, ⟨hcap, hread⟩, h⟩⟩

/-- The loop of `dv_copy`, by induction on how many elements are still to copy. -/
theorem copyLoop_within : ∀ (n fuel pos : Nat) (vec dest vec' dest' : DblVector α) (b d : Block α),
    vec.size = pos + n → vec.size < 2 ^ 31 → vec.data = some b → dest.data = some d →
    copyLoop fuel (pos : Nat) vec dest = some (vec', dest') →
    (∀ i, pos ≤ i → i < pos + n →
      i < vec.capacity ∧ i < dest.capacity ∧ (b.at i).isSome) →
    (vec'.Within ↔ vec.Within) ∧ (dest'.Within ↔ dest.Within)
  | _, 0, _, _, _, _, _, _, _, _, _, _, _, hrun, _ => by
    unfold copyLoop at hrun
    cases hrun
  | 0, fuel + 1, pos, vec, dest, vec', dest', b, d, hsz, hlt, _, _, hrun, _ => by
    unfold copyLoop at hrun
    rw [sizeT_natCast (by omega), if_neg (by omega)] at hrun
    obtain ⟨rfl, rfl⟩ := Prod.mk.inj (Option.some.inj hrun)
    exact ⟨Iff.rfl, Iff.rfl⟩
  | n + 1, fuel + 1, pos, vec, dest, vec', dest', b, d, hsz, hlt, hb, hd, hrun, hall => by
    have hnext : (pos : Int) + 1 = (pos + 1 : Nat) := by omega
    unfold copyLoop at hrun
    rw [sizeT_natCast (by omega), if_pos (by omega)] at hrun
    obtain ⟨p, hload, hrun⟩ := Option.bind_eq_some_iff.mp hrun
    obtain rfl := eq_of_load hb hload
    obtain ⟨dest₂, hput, hrun⟩ := Option.bind_eq_some_iff.mp hrun
    obtain rfl := eq_of_store hd hput
    simp only [hnext, asInt_natCast (show pos + 1 < 2 ^ 31 by omega), Option.bind_eq_bind,
      Option.bind_some] at hrun
    obtain ⟨hread, hstore, hwritten⟩ := hall pos (by omega) (by omega)
    obtain ⟨hvec, hdest⟩ := copyLoop_within n fuel (pos + 1) _ _ vec' dest' b _
      (by simp only; omega) (by exact hlt) (by exact hb) rfl hrun
      (fun i hlow hhigh => hall i (by omega) (by omega))
    constructor
    · rw [hvec, within_cons rfl, within_read]
      exact ⟨fun h => h.2, fun h => ⟨⟨hread, hwritten⟩, h⟩⟩
    · rw [hdest, within_cons rfl, within_store]
      exact ⟨fun h => h.2, fun h => ⟨hstore, h⟩⟩

/-- The loop of `dv_foreach`, likewise. -/
theorem foreachLoop_within (callback : Option α → σ → σ) :
    ∀ (n fuel pos : Nat) (vec vec' : DblVector α) (b : Block α) (info info' : σ),
    vec.size = pos + n → vec.size < 2 ^ 31 → vec.data = some b →
    foreachLoop callback fuel (pos : Nat) vec info = some (vec', info') →
    (∀ i, pos ≤ i → i < pos + n → i < vec.capacity ∧ (b.at i).isSome) →
    (vec'.Within ↔ vec.Within)
  | _, 0, _, _, _, _, _, _, _, _, _, hrun, _ => by
    unfold foreachLoop at hrun
    cases hrun
  | 0, fuel + 1, pos, vec, vec', b, info, info', hsz, hlt, _, hrun, _ => by
    unfold foreachLoop at hrun
    rw [sizeT_natCast (by omega), if_neg (by omega)] at hrun
    obtain ⟨rfl, _⟩ := Prod.mk.inj (Option.some.inj hrun)
    exact Iff.rfl
  | n + 1, fuel + 1, pos, vec, vec', b, info, info', hsz, hlt, hb, hrun, hall => by
    have hnext : (pos : Int) + 1 = (pos + 1 : Nat) := by omega
    unfold foreachLoop at hrun
    rw [sizeT_natCast (by omega), if_pos (by omega)] at hrun
    obtain ⟨p, hload, hrun⟩ := Option.bind_eq_some_iff.mp hrun
    obtain rfl := eq_of_load hb hload
    simp only [hnext, asInt_natCast (show pos + 1 < 2 ^ 31 by omega), Option.bind_eq_bind,
      Option.bind_some] at hrun
    obtain ⟨hread, hwritten⟩ := hall pos (by omega) (by omega)
    have hrest := foreachLoop_within callback n fuel (pos + 1) _ vec' b _ info'
      (by simp only; omega) (by exact hlt) (by exact hb) hrun
      (fun i hlow hhigh => hall i (by omega) (by omega))
    rw [hrest, within_cons rfl, within_read]
    exact ⟨fun h => h.2, fun h => ⟨⟨hread, hwritten⟩, h⟩⟩

/-! ## The functions -/

theorem dvEnsureCapacity_of_le {vec : DblVector α} {n : Nat} (h : n ≤ vec.capacity) :
    dvEnsureCapacity true vec n = vec :=
  if_neg (Nat.not_lt.mpr h)

theorem dvEnsureCapacity_accesses (vec : DblVector α) (n : Nat) :
    (dvEnsureCapacity true vec n).accesses = vec.accesses := by
  unfold dvEnsureCapacity
  split <;> rfl

/-- The cells a block is grown by hold nothing. -/
theorem dvEnsureCapacity_fresh {vec : DblVector α} {n : Nat} (h : vec.capacity < n) {b : Block α}
    (hb : vec.data = some b) (hlen : b.len = vec.capacity) {b' : Block α}
    (hb' : (dvEnsureCapacity true vec n).data = some b') {i : Nat} (hi : vec.capacity ≤ i) :
    b'.cell i = none := by
  unfold dvEnsureCapacity at hb'
  rw [if_pos h] at hb'
  simp only [realloc, if_true, hb, Option.some.injEq] at hb'
  subst hb'
  simp only
  rw [if_neg (by omega)]

theorem dvPush_within {vec vec' : DblVector α} {l : List α} (h : Rep vec l) {x : α}
    (hsmall : l.length + 1 < 2 ^ 31) (hrun : dvPush true vec x = some vec') :
    vec'.Within ↔ vec.Within := by
  have hsize := h.size_eq
  obtain ⟨_, b, hb, _⟩ := h.stores
  obtain ⟨b', hgrow, _, hroom, _⟩ :=
    dvEnsureCapacity_keeps (hb.resize (vec.size + 1)) (h.grows (n := vec.size + 1) (by omega))
  simp only [dvPush, hgrow] at hrun
  rw [store_of_data (b := b') rfl (Block.admits_of_lt hroom)] at hrun
  obtain rfl := Option.some.inj hrun
  rw [within_cons rfl, within_store]
  exact ⟨fun h => h.2, fun h => ⟨hroom, h⟩⟩

/-- An insertion that is no append reads each cell from `pos` to the one behind the elements, and
stores to the next. -/
theorem dvInsertAt_reads {vec vec' : DblVector α} {l : List α} (h : Rep vec l) {pos : Nat} {x : α}
    (hsmall : l.length + 1 < 2 ^ 31) (hpos : pos ≤ vec.size)
    (hrun : dvInsertAt true vec pos x = some vec') :
    ∃ b', dvEnsureCapacity true { vec with size := vec.size + 1 } (vec.size + 1) =
        { vec with size := vec.size + 1, capacity := b'.len, data := some b' } ∧
      (vec'.Within ↔ vec.Within ∧
        ∀ i, pos ≤ i → i ≤ vec.size → i + 1 < b'.len ∧ (b'.at i).isSome) := by
  have hsize := h.size_eq
  obtain ⟨_, b, hb, _⟩ := h.stores
  obtain ⟨b', hgrow, _, hroom, _⟩ := dvEnsureCapacity_keeps (hb.resize (vec.size + 1))
    (h.grows (n := vec.size + 1) (by omega))
  unfold dvInsertAt at hrun
  rw [if_neg (Nat.not_lt_of_le hpos)] at hrun
  simp only [hgrow, narrow_of_lt (show vec.size + 1 < 2 ^ 31 by omega)] at hrun
  obtain ⟨n, hn⟩ : ∃ n, pos + n = vec.size + 1 := ⟨vec.size + 1 - pos, by omega⟩
  rw [← hn] at hrun
  obtain ⟨shifted, hshift, hstore⟩ := Option.bind_eq_some_iff.mp hrun
  have hloop : shifted.Within ↔ vec.Within ∧
      ∀ i, pos ≤ i → i < pos + n → i + 1 < b'.len ∧ (b'.at i).isSome :=
    shiftUp_within pos n intSteps _ shifted b' (by omega) rfl hshift
  have hcapacity : shifted.capacity = b'.len := (shiftUp_shape hshift).capacity
  obtain ⟨d, _, _, rfl⟩ := store_some hstore
  refine ⟨b', hgrow, ?_⟩
  rw [within_cons rfl, within_store, hcapacity]
  change _ ∧ shifted.Within ↔ _
  rw [hloop, hn]
  constructor
  · intro hall
    exact ⟨hall.2.1, fun i hlow hhigh => hall.2.2 i hlow (Nat.lt_succ_of_le hhigh)⟩
  · intro hall
    refine ⟨Nat.lt_of_le_of_lt hpos hroom, hall.1, ?_⟩
    exact fun i hlow hhigh => hall.2 i hlow (Nat.le_of_lt_succ hhigh)

/-- **The shift of `dv_insert_at` needs two cells to spare, the first one written.** -/
theorem dvInsertAt_within {vec vec' : DblVector α} {l : List α} (h₀ : Rep vec l) {pos : Nat} {x : α}
    (hsmall : l.length + 1 < 2 ^ 31) (hrun : dvInsertAt true vec pos x = some vec') :
    vec'.Within ↔ vec.Within ∧
      (pos ≤ vec.size → vec.size + 1 < vec.capacity ∧ vec.written vec.size = true) := by
  by_cases happend : vec.size < pos
  · rw [dvInsertAt, if_pos happend] at hrun
    rw [dvPush_within h₀ hsmall hrun]
    exact ⟨fun h => ⟨h, fun hpos => absurd hpos (Nat.not_le_of_lt happend)⟩, fun h => h.1⟩
  have hpos := Nat.le_of_not_lt happend
  obtain ⟨b', hgrow, hreads⟩ := dvInsertAt_reads h₀ hsmall hpos hrun
  obtain ⟨hsize, b, hbacked, _⟩ := h₀.stores
  have hb := hbacked.data
  rw [hreads]
  by_cases hfull : vec.capacity < vec.size + 1
  · -- the block was grown by one cell at most where the loop begins, and that cell is new
    have hnew : b'.cell vec.size = none :=
      @dvEnsureCapacity_fresh α _ { vec with size := vec.size + 1 } (vec.size + 1) hfull b hb
        hbacked.len b' (by rw [hgrow]) vec.size (Nat.le_of_lt_succ hfull)
    refine iff_of_false (fun h => ?_) (fun h => ?_)
    · obtain ⟨hroom, hread⟩ := h.2 vec.size hpos (Nat.le_refl _)
      rw [Block.at_natCast b' (Nat.lt_of_succ_lt hroom), hnew] at hread
      cases hread
    · have hroom := (h.2 hpos).1
      omega
  · have hsame : b' = b := by
      rw [dvEnsureCapacity_of_le (by simp only; omega)] at hgrow
      have hdata := congrArg DblVector.data hgrow
      exact (Option.some.inj (hb.symm.trans hdata)).symm
    subst hsame
    have hwritten : vec.written vec.size = (b'.at vec.size).isSome := by
      unfold DblVector.written
      rw [hb, Option.bind_some]
    rw [hwritten, ← hbacked.len]
    constructor
    · intro h
      exact ⟨h.1, fun _ => h.2 vec.size hpos (Nat.le_refl _)⟩
    · intro h
      obtain ⟨hspare, htop⟩ := h.2 hpos
      refine ⟨h.1, fun i hlow hhigh => ⟨by omega, ?_⟩⟩
      by_cases hi : i = vec.size
      · subst hi
        exact htop
      · exact (h₀.element hb (by omega)).2

theorem dvRemoveAt_within {vec vec' : DblVector α} {l : List α} (h : Rep vec l) {pos : Nat}
    (hrun : dvRemoveAt vec pos = some vec') : vec'.Within ↔ vec.Within := by
  unfold dvRemoveAt at hrun
  by_cases hin : pos < vec.size
  · rw [if_pos hin] at hrun
    obtain ⟨b, hb, _, _⟩ := h.block
    have hsize := h.size_eq
    have hlt := h.size_lt
    obtain ⟨n, hn⟩ : ∃ n, vec.size - 1 = pos + n := ⟨vec.size - 1 - pos, by omega⟩
    rw [narrow_of_lt (by omega)] at hrun
    refine shiftDown_within n intSteps pos { vec with size := vec.size - 1 } vec' b hn
      (by simp only; omega) hb hrun ?_
    intro i hlow hhigh
    exact h.element hb (by omega)
  · rw [if_neg hin] at hrun
    obtain rfl := Option.some.inj hrun
    exact Iff.rfl

theorem dvCopy_within {vec dest vec' dest' : DblVector α} {l m : List α} (h : Rep vec l)
    (h' : Rep dest m) (hrun : dvCopy true vec dest = some (vec', dest')) :
    (vec'.Within ↔ vec.Within) ∧ (dest'.Within ↔ dest.Within) := by
  obtain ⟨b, hb, _, _⟩ := h.block
  obtain ⟨_, d, hd, _⟩ := h'.stores
  have hsize := h.size_eq
  have hlt := h.size_lt
  obtain ⟨d', hgrow, _, hroom, _⟩ :=
    dvEnsureCapacity_keeps (hd.resize vec.size) (h'.grows (n := vec.size) (by omega))
  simp only [dvCopy, hgrow] at hrun
  refine copyLoop_within vec.size intSteps 0 vec
    { dest with size := vec.size, capacity := d'.len, data := some d' } vec' dest' b d'
    (by omega) (by omega) hb rfl hrun ?_
  intro i _ hi
  have helement := h.element hb (i := i) (by omega)
  exact ⟨helement.1, by simp only; omega, helement.2⟩

theorem dvLast_within {vec vec' : DblVector α} {l : List α} (h : Rep vec l) {nan : α}
    {x : Option α} (hrun : dvLast nan vec = some (x, vec')) : vec'.Within ↔ vec.Within := by
  unfold dvLast at hrun
  by_cases hpos : 0 < vec.size
  · obtain ⟨b, hb, _, _⟩ := h.block
    have hsize := h.size_eq
    rw [if_pos hpos] at hrun
    obtain ⟨rfl, rfl⟩ := Prod.mk.inj (eq_of_load hb hrun)
    rw [within_cons rfl, within_read]
    exact ⟨fun h => h.2, fun hold => ⟨h.element hb (by omega), hold⟩⟩
  · rw [if_neg hpos] at hrun
    obtain ⟨_, rfl⟩ := Prod.mk.inj (Option.some.inj hrun)
    exact Iff.rfl

theorem dvForeach_within {vec vec' : DblVector α} {l : List α} (h : Rep vec l)
    {callback : Option α → σ → σ} {info info' : σ}
    (hrun : dvForeach vec callback info = some (vec', info')) : vec'.Within ↔ vec.Within := by
  obtain ⟨b, hb, _, _⟩ := h.block
  have hsize := h.size_eq
  have hlt := h.size_lt
  refine foreachLoop_within callback vec.size intSteps 0 vec vec' b info info'
    (by omega) (by omega) hb hrun ?_
  intro i _ hi
  exact h.element hb (by omega)

/-! ## Sequences of calls -/

variable {ι : Type} [DecidableEq ι]

/-- A call of any function but `dv_init` and `dv_destroy`; the two observers are calls too. -/
inductive Call (ι α σ : Type) where
  | op (o : Op ι α)
  | last (v : ι)
  | foreach (v : ι) (callback : Option α → σ → σ) (info : σ)

/-- The call's effect on the family, every allocation succeeding. -/
def Call.run (nan : α) (vs : ι → DblVector α) : Call ι α σ → Option (ι → DblVector α)
  | .op o => o.run true vs
  | .last v => (dvLast nan (vs v)).map fun p => Function.update vs v p.2
  | .foreach v callback info =>
      (dvForeach (vs v) callback info).map fun p => Function.update vs v p.1

def runCalls (nan : α) (vs : ι → DblVector α) : List (Call ι α σ) → Option (ι → DblVector α)
  | [] => some vs
  | c :: cs => (c.run nan vs).bind fun vs => runCalls nan vs cs

/-- The calls that change a vector. -/
def Call.ops : List (Call ι α σ) → List (Op ι α)
  | [] => []
  | .op o :: cs => o :: ops cs
  | _ :: cs => ops cs

/-- The call goes right: if it shifts elements up there are two cells to spare, and the first of
them was written. -/
def Call.Apt (vs : ι → DblVector α) : Call ι α σ → Prop
  | .op (.insertAt v pos _) => pos ≤ (vs v).size →
      (vs v).size + 1 < (vs v).capacity ∧ (vs v).written (vs v).size = true
  | _ => True

/-- Every call of the sequence does, made when it is its turn. -/
def AllApt (nan : α) (vs : ι → DblVector α) : List (Call ι α σ) → Prop
  | [] => True
  | c :: cs => c.Apt vs ∧ ∀ vs', c.run nan vs = some vs' → AllApt nan vs' cs

/-- All the accesses so far. -/
def AllWithin (vs : ι → DblVector α) : Prop := ∀ v, (vs v).Within

omit [Machine] in
theorem allWithin_update {vs : ι → DblVector α} {v : ι} {vec : DblVector α} {c : Prop}
    (h : vec.Within ↔ (vs v).Within ∧ c) :
    AllWithin (Function.update vs v vec) ↔ AllWithin vs ∧ c := by
  constructor
  · intro hall
    have hv := hall v
    rw [Function.update_self, h] at hv
    refine ⟨fun w => ?_, hv.2⟩
    by_cases hw : w = v
    · subst hw
      exact hv.1
    · have hold := hall w
      rwa [Function.update_of_ne hw] at hold
  · intro hall w
    by_cases hw : w = v
    · subst hw
      rw [Function.update_self, h]
      exact ⟨hall.1 w, hall.2⟩
    · rw [Function.update_of_ne hw]
      exact hall.1 w

omit [Machine] in
theorem allWithin_update_same {vs : ι → DblVector α} {v : ι} {vec : DblVector α}
    (h : vec.Within ↔ (vs v).Within) : AllWithin (Function.update vs v vec) ↔ AllWithin vs := by
  have hupdate := allWithin_update (h.trans (and_iff_left trivial).symm)
  exact hupdate.trans (and_iff_left trivial)

omit [DecidableEq ι] [Machine] in
theorem allWithin_init : AllWithin (fun _ : ι => (dvInit true : DblVector α)) := by
  intro v a ha
  cases ha

omit [Machine] in
/-- An observer writes to the log of its vector. -/
theorem rep_relog {vs : ι → DblVector α} {ls : ι → List α} (h : ∀ i, Rep (vs i) (ls i)) (v : ι)
    (log : List Access) (i : ι) :
    Rep (Function.update vs v { vs v with accesses := log } i) (ls i) := by
  by_cases hi : i = v
  · subst hi
    rw [Function.update_self]
    exact (h i).relog log
  · rw [Function.update_of_ne hi]
    exact h i

/-! ## Which insertions fit -/

/-- The call of an operation fits as that does. -/
def Call.Fits (vs : ι → DblVector α) : Call ι α σ → Prop
  | .op o => o.Fits vs
  | _ => True

omit [DecidableEq ι] in
/-- An apt insertion does not grow the vector, and starts in the last cell it has at the latest. -/
theorem Call.fits_of_apt {vs : ι → DblVector α} {c : Call ι α σ} (h : c.Apt vs) : c.Fits vs := by
  cases c with
  | op o =>
    cases o with
    | insertAt v pos x =>
      by_cases hpos : pos ≤ (vs v).size
      · have hspare := (h hpos).1
        have hsame : ensured (vs v).capacity ((vs v).size + 1) = (vs v).capacity :=
          if_neg (by omega)
        exact .inr (.inr (.inl (by omega)))
      · exact .inl (Nat.lt_of_not_le hpos)
    | _ => trivial
  | _ => trivial

/-- So does one that has a result. -/
theorem Call.fits_of_run {nan : α} {vs vs' : ι → DblVector α} {ls : ι → List α}
    (h : ∀ i, Rep (vs i) (ls i)) {c : Call ι α σ} (hrun : c.run nan vs = some vs') :
    c.Fits vs := by
  cases c with
  | op o =>
    cases o with
    | insertAt v pos x =>
      obtain ⟨vec, hvec, _⟩ := Option.map_eq_some_iff.mp hrun
      obtain ⟨_, b, hb, _⟩ := (h v).stores
      have hsize := (h v).size_eq
      have hlt := (h v).size_lt
      exact insertFits_of_run hb ((h v).grows (by omega)) hvec
    | _ => trivial
  | _ => trivial

/-! ## Runs -/

/-- **A call's accesses are within bounds exactly when it is apt.** -/
theorem Op.run_within {vs vs' : ι → DblVector α} {ls : ι → List α} (h : ∀ i, Rep (vs i) (ls i))
    {o : Op ι α} (hs : o.Small ls) (hrun : o.run true vs = some vs') :
    AllWithin vs' ↔ AllWithin vs ∧ (Call.op o : Call ι α σ).Apt vs := by
  cases o with
  | push v x =>
    obtain ⟨vec, hvec, rfl⟩ := Option.map_eq_some_iff.mp hrun
    rw [allWithin_update_same (dvPush_within (h v) hs hvec)]
    exact (and_iff_left trivial).symm
  | pop v =>
    obtain rfl := Option.some.inj hrun
    have hsame : (dvPop (vs v)).Within ↔ (vs v).Within := by
      unfold DblVector.Within
      rw [dvPop_accesses]
    rw [allWithin_update_same hsame]
    exact (and_iff_left trivial).symm
  | insertAt v pos x =>
    obtain ⟨vec, hvec, rfl⟩ := Option.map_eq_some_iff.mp hrun
    exact allWithin_update (dvInsertAt_within (h v) hs hvec)
  | removeAt v pos =>
    obtain ⟨vec, hvec, rfl⟩ := Option.map_eq_some_iff.mp hrun
    rw [allWithin_update_same (dvRemoveAt_within (h v) hvec)]
    exact (and_iff_left trivial).symm
  | clear v =>
    obtain rfl := Option.some.inj hrun
    have hsame : (dvClear (vs v)).Within ↔ (vs v).Within := Iff.rfl
    rw [allWithin_update_same hsame]
    exact (and_iff_left trivial).symm
  | ensureCapacity v n =>
    obtain rfl := Option.some.inj hrun
    have hsame : (dvEnsureCapacity true (vs v) n).Within ↔ (vs v).Within := by
      unfold DblVector.Within
      rw [dvEnsureCapacity_accesses]
    rw [allWithin_update_same hsame]
    exact (and_iff_left trivial).symm
  | copy vec dest ne =>
    obtain ⟨⟨a, b⟩, hcopy, rfl⟩ := Option.map_eq_some_iff.mp hrun
    obtain ⟨ha, hb⟩ := dvCopy_within (h vec) (h dest) hcopy
    rw [allWithin_update_same (by rwa [Function.update_of_ne ne.symm]), allWithin_update_same ha]
    exact (and_iff_left trivial).symm

theorem Call.step (nan : α) {vs : ι → DblVector α} {ls : ι → List α}
    (h : ∀ i, Rep (vs i) (ls i)) {c : Call ι α σ} {cs : List (Call ι α σ)}
    (hs : AllSmall ls (Call.ops (c :: cs))) (hfits : c.Fits vs) :
    ∃ vs' ls', c.run nan vs = some vs' ∧ (∀ i, Rep (vs' i) (ls' i)) ∧
      AllSmall ls' (Call.ops cs) ∧ (AllWithin vs' ↔ AllWithin vs ∧ c.Apt vs) := by
  cases c with
  | op o =>
    obtain ⟨vs', hrun, hrep⟩ := run_rep h o hs.1 hfits
    exact ⟨vs', _, hrun, hrep, hs.2, Op.run_within h hs.1 hrun⟩
  | last v =>
    obtain ⟨log, hlast⟩ := dvLast_run (h v).stores nan
    refine ⟨_, ls, by rw [Call.run, hlast]; rfl, rep_relog h v log, hs, ?_⟩
    rw [allWithin_update_same (dvLast_within (h v) hlast)]
    exact (and_iff_left trivial).symm
  | foreach v callback info =>
    have hsmall : (vs v).size < 2 ^ 31 := (h v).size_eq ▸ (h v).size_lt
    obtain ⟨log, heach⟩ := dvForeach_run (h v).stores hsmall callback info
    refine ⟨_, ls, by rw [Call.run, heach]; rfl, rep_relog h v log, hs, ?_⟩
    rw [allWithin_update_same (dvForeach_within (h v) heach)]
    exact (and_iff_left trivial).symm

/-- **A run has a result, with its accesses within bounds, exactly when its calls are apt.** -/
theorem runCalls_within (nan : α) {cs : List (Call ι α σ)} {vs : ι → DblVector α} {ls : ι → List α}
    (h : ∀ i, Rep (vs i) (ls i)) (hs : AllSmall ls (Call.ops cs)) :
    (∃ vs', runCalls nan vs cs = some vs' ∧ AllWithin vs') ↔
      AllWithin vs ∧ AllApt nan vs cs := by
  induction cs generalizing vs ls with
  | nil =>
    constructor
    · intro hruns
      obtain ⟨vs', hrun, hwithin⟩ := hruns
      obtain rfl := Option.some.inj hrun
      exact ⟨hwithin, trivial⟩
    · intro hwithin
      exact ⟨vs, rfl, hwithin.1⟩
  | cons c cs ih =>
    constructor
    · intro hruns
      obtain ⟨vs₂, hruns, hwithin⟩ := hruns
      obtain ⟨vs₁, hrun, hrest⟩ := Option.bind_eq_some_iff.mp hruns
      obtain ⟨_, ls₁, hrun₁, h₁, hs₁, hc⟩ := Call.step nan h hs (Call.fits_of_run h hrun)
      obtain rfl := Option.some.inj (hrun.symm.trans hrun₁)
      obtain ⟨hbefore, hrest₁⟩ := (ih h₁ hs₁).mp ⟨vs₂, hrest, hwithin⟩
      refine ⟨(hc.mp hbefore).1, (hc.mp hbefore).2, fun vs' hvs' => ?_⟩
      obtain rfl := Option.some.inj (hrun.symm.trans hvs')
      exact hrest₁
    · intro hall
      obtain ⟨hwithin, hapt, hrest⟩ := hall
      obtain ⟨vs₁, ls₁, hrun, h₁, hs₁, hc⟩ := Call.step nan h hs (Call.fits_of_apt hapt)
      obtain ⟨vs₂, hruns, hwithin₂⟩ :=
        (ih h₁ hs₁).mpr ⟨hc.mpr ⟨hwithin, hapt⟩, hrest vs₁ hrun⟩
      exact ⟨vs₂, by rw [runCalls, hrun, Option.bind_some, hruns], hwithin₂⟩

/-- Where a store outside a block does no harm every run comes to its end. -/
theorem exists_runCalls (hharmless : Machine.harmless = true) (nan : α) {cs : List (Call ι α σ)}
    {vs : ι → DblVector α} {ls : ι → List α} (h : ∀ i, Rep (vs i) (ls i))
    (hs : AllSmall ls (Call.ops cs)) : ∃ vs', runCalls nan vs cs = some vs' := by
  induction cs generalizing vs ls with
  | nil => exact ⟨vs, rfl⟩
  | cons c cs ih =>
    have hfits : c.Fits vs := by
      cases c with
      | op o => exact o.fits_of_harmless hharmless vs
      | _ => trivial
    obtain ⟨vs₁, ls₁, hrun, h₁, hs₁, _⟩ := Call.step nan h hs hfits
    obtain ⟨vs₂, hruns⟩ := ih h₁ hs₁
    exact ⟨vs₂, by rw [runCalls, hrun, Option.bind_some, hruns]⟩

/-- **Every access is to a cell of its block, and every read is of one that was written, exactly
when every insertion is apt.** Where an access outside a block does no harm, the calls return
whether they are apt or not. -/
theorem accesses_within (nan : α) (cs : List (Call ι α σ))
    (hs : AllSmall (fun _ => []) (Call.ops cs)) :
    ((∃ vs, runCalls nan (fun _ => dvInit true) cs = some vs ∧
        ∀ v, ∀ a ∈ (vs v).accesses, a.Within) ↔ AllApt nan (fun _ => dvInit true) cs) ∧
      (Machine.harmless = true → ∃ vs, runCalls nan (fun _ => dvInit true) cs = some vs) := by
  refine ⟨?_, fun hharmless => exists_runCalls hharmless nan (fun _ => dvInit_rep) hs⟩
  exact (runCalls_within nan (fun _ => dvInit_rep) hs).trans (and_iff_right allWithin_init)

end Machines

/-- An element was removed before, and its cell is where the shift begins. -/
theorem accesses_within_refilled : ∃ vs, runCalls 0 (fun _ => dvInit true)
      ([.op (.push () 1), .op (.push () 2), .op (.pop ()), .op (.insertAt () 0 9), .last (),
        .foreach () (fun _ n => n + 1) 0] : List (Call Unit Int Nat)) = some vs ∧
    ∀ v, ∀ a ∈ (vs v).accesses, a.Within := by
  have hiff := (accesses_within (0 : Int)
    [.op (.push () 1), .op (.push () 2), .op (.pop ()), .op (.insertAt () 0 9), .last (),
      .foreach () (fun _ n => n + 1) (0 : Nat)] (by decide)).1
  refine hiff.mpr ⟨trivial, fun vs₁ h₁ => ⟨trivial, fun vs₂ h₂ => ⟨trivial,
    fun vs₃ h₃ => ⟨fun _ => ?_, fun _ _ => ⟨trivial, fun _ _ => ⟨trivial, fun _ _ => trivial⟩⟩⟩⟩⟩⟩
  obtain rfl := Option.some.inj h₁
  obtain rfl := Option.some.inj h₂
  obtain rfl := Option.some.inj h₃
  exact ⟨by decide, rfl⟩

attribute [local instance] Machine.lenient

/-- Three elements and four cells: the shift stores behind the block. -/
theorem accesses_within_fails : ¬ ∀ cs : List (Call Unit Int Unit),
    AllSmall (fun _ => []) (Call.ops cs) →
    ∃ vs, runCalls 0 (fun _ => dvInit true) cs = some vs ∧
      ∀ v, ∀ a ∈ (vs v).accesses, a.Within := by
  intro hall
  have hsmall : AllSmall (fun _ => []) (Call.ops ([.op (.push () 1), .op (.push () 2),
      .op (.push () 3), .op (.insertAt () 0 9)] : List (Call Unit Int Unit))) := by decide
  have hapt := ((runCalls_within 0 (fun _ => dvInit_rep) hsmall).mp (hall _ hsmall)).2
  have hlast := (((hapt.2 _ rfl).2 _ rfl).2 _ rfl).1 (Nat.zero_le 3)
  exact absurd hlast.1 (by decide)

end DblVec
end Cab403
