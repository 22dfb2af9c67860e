import Cab403.Lib.Arena
import Cab403.Vector.Destroy

/-!
# What vectors hold of memory

The `data` pointer as an address. `dv_init` hands it what `malloc` returns, `dv_ensure_capacity`
what `realloc` makes of it, and `dv_destroy` frees it and clears it; no other function touches it.
Any of the allocations may be refused. The machine is the one the file is compiled for, so a call
that then stores through `NULL`, or one whose access misses its block, has no step here.

However vectors are prepared, used and destroyed, each holds a block that is allocated and no
other's, so that no call frees or moves one twice (`memory_safe`). Blocks are lost in just two
ways: `dv_init` on a vector that has one, which its contract excludes, and a `realloc` that fails,
whose `NULL` overwrites the one pointer to the old block (`tight_iff`). A `realloc` whose byte count
has wrapped to `0` returns `NULL` too, but has freed the block.
-/

namespace Cab403
namespace DblVec

open Function Lib

variable {α : Type} {ι : Type} [DecidableEq ι]

/-! ## The block after a call -/

theorem dvInit_isSome (grant : Bool) : (dvInit grant : DblVector α).data.isSome = grant := by
  cases grant with
  | false => rfl
  | true => rfl

/-- Growing leaves a block if it is granted one. -/
theorem isSome_ensured {grant : Bool} {vec : DblVector α} {n : Nat} (h : vec.capacity < n) :
    (dvEnsureCapacity grant vec n).data.isSome = grant := by
  rw [dvEnsureCapacity_of_lt grant h]
  cases grant with
  | false => rfl
  | true => rfl

theorem SameRoom.isSome {vec vec' : DblVector α} (h : SameRoom vec vec') :
    vec'.data.isSome = vec.data.isSome := by
  rw [← Option.isSome_map (f := Block.len), h.len, Option.isSome_map]

/-- No other vector than the one that grows is asked for room. -/
theorem Op.asked_unique {vs : ι → DblVector α} {op : Op ι α} {v w : ι} (hv : 0 < op.asked vs v)
    (hw : 0 < op.asked vs w) : w = v := by
  have hite : ∀ {u : ι} {n : Nat} {x : ι}, 0 < (if x = u then n else 0) → x = u := by
    intro u n x h
    by_contra hne
    rw [if_neg hne] at h
    exact Nat.lt_irrefl 0 h
  cases op with
  | push u x => exact (hite hw).trans (hite hv).symm
  | insertAt u pos x => exact (hite hw).trans (hite hv).symm
  | ensureCapacity u n => exact (hite hw).trans (hite hv).symm
  | copy vec dest hne => exact (hite hw).trans (hite hv).symm
  | pop u => cases hv
  | removeAt u pos => cases hv
  | clear u => cases hv

/-! ## Steps -/

structure Memory (ι α : Type) where
  vecs : ι → DblVector α
  ptr : ι → Option Nat
  blocks : Finset Nat

/-- Nothing allocated, every vector as `dv_destroy` leaves it. -/
def Memory.start : Memory ι α := ⟨fun _ => ⟨0, 0, none, []⟩, fun _ => none, ∅⟩

/-- The bytes `dv_ensure_capacity(vec, new_size)` asks for, when it does. -/
def bytesAsked (vec : DblVector α) (newSize : Nat) : Nat :=
  ensured vec.capacity newSize * 8 % 2 ^ 64

/-- The call has the vector grow, and the product is one that a `size_t` can be. -/
structure Growing (s : Memory ι α) (o : Op ι α) (v : ι) : Prop where
  room : (s.vecs v).capacity < o.asked s.vecs v
  product : Machine.grown (s.vecs v).capacity < 2 ^ 64

inductive Memory.Step : Memory ι α → Act ι α → Memory ι α → Prop
  | init {s : Memory ι α} {v : ι} {p : Option Nat} {t : Finset Nat}
    (h : Malloc s.blocks p t) :
    Step s (.init v) ⟨update s.vecs v (dvInit p.isSome), update s.ptr v p, t⟩
  | destroy {s : Memory ι α} {v : ι} {t : Finset Nat} (h : Free s.blocks (s.ptr v) t) :
    Step s (.destroy v) ⟨update s.vecs v (dvDestroy (s.vecs v)), update s.ptr v none, t⟩
  | stays {s : Memory ι α} {o : Op ι α} {vs : ι → DblVector α}
    (hroom : ∀ v, o.asked s.vecs v ≤ (s.vecs v).capacity) (hrun : o.run true s.vecs = some vs) :
    Step s (.op o) ⟨vs, s.ptr, s.blocks⟩
  | grows {s : Memory ι α} {o : Op ι α} {v : ι} {p : Option Nat} {t : Finset Nat}
    {vs : ι → DblVector α} (hgrowing : Growing s o v)
    (hbytes : bytesAsked (s.vecs v) (o.asked s.vecs v) ≠ 0)
    (h : Realloc s.blocks (s.ptr v) p t) (hrun : o.run p.isSome s.vecs = some vs) :
    Step s (.op o) ⟨vs, update s.ptr v p, t⟩
  | wraps {s : Memory ι α} {o : Op ι α} {v : ι} {p : Option Nat} {t : Finset Nat}
    {vs : ι → DblVector α} (hgrowing : Growing s o v)
    (hbytes : bytesAsked (s.vecs v) (o.asked s.vecs v) = 0)
    (h : ReallocZero s.blocks (s.ptr v) p t) (hrun : o.run p.isSome s.vecs = some vs) :
    Step s (.op o) ⟨vs, update s.ptr v p, t⟩

/-- Each vector has a block where it has an address, an allocated one of its own. -/
structure Sound (s : Memory ι α) : Prop where
  owned : Owned s.ptr s.blocks
  agrees : ∀ v, (s.ptr v).isSome = (s.vecs v).data.isSome

omit [DecidableEq ι] in
theorem sound_start : Sound (Memory.start : Memory ι α) := ⟨owned_empty, fun _ => rfl⟩

theorem agrees_update {ptr : ι → Option Nat} {vs : ι → DblVector α}
    (h : ∀ v, (ptr v).isSome = (vs v).data.isSome) {v : ι} {p : Option Nat} {vec : DblVector α}
    (hv : p.isSome = vec.data.isSome) (w : ι) :
    (update ptr v p w).isSome = (update vs v vec w).data.isSome := by
  by_cases hw : w = v
  · subst hw
    rw [update_self, update_self]
    exact hv
  · rw [update_of_ne hw, update_of_ne hw]
    exact h w

/-- A vector that is not asked for more room than it has keeps its block. -/
theorem Op.isSome_of_room {grant : Bool} {vs vs' : ι → DblVector α} {o : Op ι α}
    (hrun : o.run grant vs = some vs') {v : ι} (hroom : o.asked vs v ≤ (vs v).capacity) :
    (vs' v).data.isSome = (vs v).data.isSome := by
  have hsame : dvEnsureCapacity grant (vs v) (o.asked vs v) = vs v := if_neg (Nat.not_lt.mpr hroom)
  rw [(Op.run_room hrun v).isSome, hsame]

/-- A vector that grows has the block that it is handed, and the others keep theirs. -/
theorem Growing.agrees {s : Memory ι α} {o : Op ι α} {v : ι} (h : Growing s o v)
    (hs : ∀ w, (s.ptr w).isSome = (s.vecs w).data.isSome) {p : Option Nat} {vs : ι → DblVector α}
    (hrun : o.run p.isSome s.vecs = some vs) (w : ι) :
    (update s.ptr v p w).isSome = (vs w).data.isSome := by
  by_cases hw : w = v
  · subst hw
    rw [update_self, (Op.run_room hrun w).isSome, isSome_ensured h.room]
  · have hquiet : o.asked s.vecs w ≤ (s.vecs w).capacity := by
      by_contra hasked
      exact hw (Op.asked_unique (Nat.zero_lt_of_lt h.room)
        (Nat.zero_lt_of_lt (Nat.lt_of_not_le hasked)))
    rw [update_of_ne hw, Op.isSome_of_room hrun hquiet]
    exact hs w

theorem sound_step {s t : Memory ι α} {a : Act ι α} (hs : Sound s) (h : Memory.Step s a t) :
    Sound t := by
  cases h with
  | init h =>
    exact ⟨hs.owned.malloc h _, agrees_update hs.agrees (dvInit_isSome _).symm⟩
  | destroy h => exact ⟨hs.owned.free h, agrees_update hs.agrees rfl⟩
  | stays hroom hrun =>
    exact ⟨hs.owned, fun v => by rw [Op.isSome_of_room hrun (hroom v)]; exact hs.agrees v⟩
  | grows hgrowing hbytes h hrun =>
    exact ⟨hs.owned.realloc h, hgrowing.agrees hs.agrees hrun⟩
  | wraps hgrowing hbytes h hrun =>
    exact ⟨hs.owned.reallocZero h, hgrowing.agrees hs.agrees hrun⟩

/-- **No block is freed twice, moved once it is free, or shared**: in every state of every run each
vector with a block has an allocated one of its own, and whatever it holds may be handed to `free`
and to `realloc`. -/
theorem memory_safe {tr : List (Act ι α × Memory ι α)}
    (h : Trace Memory.Step Memory.start tr) :
    AllStates (fun s => Sound s ∧ ∀ v, (∃ t, Free s.blocks (s.ptr v) t) ∧
      ∃ a t, Realloc s.blocks (s.ptr v) (some a) t) Memory.start tr := by
  have hsound := h.allStates (fun _ _ _ hs hst => sound_step hs hst) sound_start
  exact hsound.imp fun s hs =>
    ⟨hs, fun v => ⟨hs.owned.exists_free v, hs.owned.exists_realloc v⟩⟩

/-- Prepared, grown to where `realloc` puts it, and destroyed. -/
def briefly : List (Act Unit Int) := [.init (), .op (.ensureCapacity () 5), .destroy ()]

theorem memory_safe_briefly : ∃ tr : List (Act Unit Int × Memory Unit Int),
    tr.map Prod.fst = briefly ∧ Trace Memory.Step Memory.start tr ∧
    AllStates (fun s => Sound s ∧ ∀ v, (∃ t, Free s.blocks (s.ptr v) t) ∧
      ∃ a t, Realloc s.blocks (s.ptr v) (some a) t) Memory.start tr := by
  have htr : ∃ tr, Trace Memory.Step Memory.start tr ∧ tr.map Prod.fst = briefly := by
    exact ⟨_, .cons (.init (v := ()) (.block (a := 8) (by decide))) <|
      .cons (.grows (v := ()) ⟨by decide, by decide⟩ (by decide)
        (.block (a := 16) (.block (by decide)) (by decide)) rfl) <|
      .cons (.destroy (v := ()) (.block (by decide))) <| .nil _, rfl⟩
  obtain ⟨tr, htr, hacts⟩ := htr
  exact ⟨tr, hacts, htr, memory_safe htr⟩

/-! ## Leaks -/

/-- The call prepares a vector that has a block, or leaves one without that had it, for which it
asked for more than no bytes. -/
def Leaks (s : Memory ι α) (a : Act ι α) (t : Memory ι α) : Prop :=
  match a with
  | .init v => (s.vecs v).data.isSome = true
  | .destroy _ => False
  | .op o => ∃ v, (s.vecs v).data.isSome = true ∧ (t.vecs v).data.isSome = false ∧
      bytesAsked (s.vecs v) (o.asked s.vecs v) ≠ 0

/-- The vector that loses its block is the one that grows. -/
theorem Growing.emptied {s : Memory ι α} {o : Op ι α} {v w : ι} (h : Growing s o v)
    (hs : ∀ w, (s.ptr w).isSome = (s.vecs w).data.isSome) {p : Option Nat} {vs : ι → DblVector α}
    (hrun : o.run p.isSome s.vecs = some vs) (hbefore : (s.vecs w).data.isSome = true)
    (hafter : (vs w).data.isSome = false) : w = v ∧ p = none := by
  have hnow : (update s.ptr v p w).isSome = false := (h.agrees hs hrun w).trans hafter
  by_cases hw : w = v
  · subst hw
    rw [update_self, Option.isSome_eq_false_iff, Option.isNone_iff_eq_none] at hnow
    exact ⟨rfl, hnow⟩
  · rw [update_of_ne hw, hs w, hbefore] at hnow
    cases hnow

theorem tight_step {s t : Memory ι α} {a : Act ι α} (hs : Sound s) (htight : Tight s.ptr s.blocks)
    (h : Memory.Step s a t) : Tight t.ptr t.blocks ↔ ¬ Leaks s a t := by
  have hnone : ∀ v, s.ptr v = none ↔ ¬ (s.vecs v).data.isSome = true := by
    intro v
    rw [← hs.agrees v, Option.not_isSome_iff_eq_none]
  cases h with
  | init h =>
    rw [hs.owned.tight_malloc_iff htight h, hnone]
    exact Iff.rfl
  | destroy h => exact iff_of_true (htight.free h) id
  | stays hroom hrun =>
    refine iff_of_true htight ?_
    rintro ⟨v, hbefore, hafter, _⟩
    rw [Op.isSome_of_room hrun (hroom v), hbefore] at hafter
    cases hafter
  | @grows o v p t vs hgrowing hbytes h hrun =>
    have hagrees := hgrowing.agrees hs.agrees hrun
    rw [hs.owned.tight_realloc_iff htight h]
    constructor
    · rintro hkept ⟨w, hbefore, hafter, _⟩
      obtain ⟨rfl, hnow⟩ := hgrowing.emptied hs.agrees hrun hbefore hafter
      exact (hnone w).mp (hkept hnow) hbefore
    · intro hleaks hp
      rw [hnone v]
      intro hbefore
      have hnow := hagrees v
      rw [update_self, hp] at hnow
      exact hleaks ⟨v, hbefore, hnow.symm, hbytes⟩
  | wraps hgrowing hbytes h hrun =>
    refine iff_of_true (hs.owned.tight_reallocZero htight h) ?_
    rintro ⟨w, hbefore, hafter, hasked⟩
    obtain ⟨rfl, _⟩ := hgrowing.emptied hs.agrees hrun hbefore hafter
    exact hasked hbytes

/-- **A run loses no block exactly if no call of it leaks**; and when it then ends with every vector
destroyed, everything has been freed. -/
theorem tight_iff {tr : List (Act ι α × Memory ι α)} (h : Trace Memory.Step Memory.start tr) :
    (AllStates (fun s => Tight s.ptr s.blocks) Memory.start tr ↔
      AllSteps (fun s a t => ¬ Leaks s a t) Memory.start tr) ∧
    (AllSteps (fun s a t => ¬ Leaks s a t) Memory.start tr →
      (∀ v, Destroyed ((lastState Memory.start tr).vecs v)) →
        (lastState Memory.start tr).blocks = ∅) := by
  have hiff : AllStates (fun s => Tight s.ptr s.blocks) Memory.start tr ↔
      AllSteps (fun s a t => ¬ Leaks s a t) Memory.start tr :=
    h.allStates_iff (A := Sound) (fun _ _ _ hs hst => sound_step hs hst)
      (fun _ _ _ hs htight hst => tight_step hs htight hst) sound_start tight_empty
  refine ⟨hiff, fun hsteps hdestroyed => ?_⟩
  have hlast := (h.allStates (fun _ _ _ hs hst => sound_step hs hst) sound_start).last
  refine (hiff.mpr hsteps).last.eq_empty fun v => ?_
  rw [← Option.not_isSome_iff_eq_none, hlast.agrees v, (hdestroyed v).data]
  exact Bool.false_ne_true

theorem tight_iff_briefly : ∃ tr : List (Act Unit Int × Memory Unit Int),
    tr.map Prod.fst = briefly ∧ Trace Memory.Step Memory.start tr ∧
    AllStates (fun s => Tight s.ptr s.blocks) Memory.start tr ∧
    (lastState Memory.start tr).blocks = ∅ := by
  have htr : ∃ tr, Trace Memory.Step Memory.start tr ∧ tr.map Prod.fst = briefly ∧
      AllSteps (fun s a t => ¬ Leaks s a t) Memory.start tr ∧
      ∀ v, Destroyed ((lastState Memory.start tr).vecs v) := by
    refine ⟨_, .cons (.init (v := ()) (.block (a := 8) (by decide))) <|
      .cons (.grows (v := ()) ⟨by decide, by decide⟩ (by decide)
        (.block (a := 16) (.block (by decide)) (by decide)) rfl) <|
      .cons (.destroy (v := ()) (.block (by decide))) <| .nil _, rfl, ⟨?_, ?_, id, trivial⟩,
      fun v => destroyed_dvDestroy _⟩
    · exact Bool.false_ne_true
    · rintro ⟨_, _, hafter, _⟩
      cases hafter
  obtain ⟨tr, htr, hacts, hsteps, hdestroyed⟩ := htr
  obtain ⟨hiff, hempty⟩ := tight_iff htr
  exact ⟨tr, hacts, htr, hiff.mpr hsteps, hempty hsteps hdestroyed⟩

end DblVec
end Cab403
