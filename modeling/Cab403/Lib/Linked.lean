import Mathlib.Data.Finset.Card
import Mathlib.Data.List.Nodup
import Mathlib.Logic.Function.Basic

/-!
# Linked cells

A memory of cells, each holding a value and a pointer to the next cell or to none: `cell a` is
what is at `a`, if anything is. `Segment cell head l last` reads the cells `l` off it, from the
pointer `head` up to the pointer `last`; a segment that ends in no pointer is a whole chain,
`Linked cell head l`. Each cell is listed with its value and without its pointer, so an update
that only relinks cells takes entries out of the list, or puts them in, and leaves the other
entries as they are.

A chain is determined by the memory (`Linked.unique`), and therefore never comes back to a cell
(`Linked.nodup`): the chain from there on would be its own proper tail. A finite memory bounds its
length (`Linked.length_le`).
-/

namespace Cab403
namespace Lib

open Function

variable {A V : Type*}

/-- What holds of every entry holds of one and of those on its two sides. -/
theorem forall_mem_middle {α : Type*} {P : α → Prop} {front back : List α} {x : α} :
    (∀ e ∈ front ++ x :: back, P e) ↔ P x ∧ ∀ e ∈ front ++ back, P e := by
  simp only [List.perm_middle.mem_iff, List.forall_mem_cons]

/-- The cells from `head` to where the pointer is `last`. -/
def Segment (cell : A → Option (V × Option A)) :
    Option A → List (A × V) → Option A → Prop
  | head, [], last => head = last
  | head, (a, v) :: l, last =>
    head = some a ∧ ∃ next, cell a = some (v, next) ∧ Segment cell next l last

/-- The cells from `head` on. -/
def Linked (cell : A → Option (V × Option A)) (head : Option A) (l : List (A × V)) : Prop :=
  Segment cell head l none

variable {cell : A → Option (V × Option A)} {head last : Option A} {l : List (A × V)}

theorem Segment.append_iff {front back : List (A × V)} :
    Segment cell head (front ++ back) last ↔
      ∃ mid, Segment cell head front mid ∧ Segment cell mid back last := by
  induction front generalizing head with
  | nil =>
    constructor
    · intro h
      exact ⟨head, rfl, h⟩
    · intro h
      obtain ⟨mid, hmid, h⟩ := h
      obtain rfl : head = mid := hmid
      exact h
  | cons e front ih =>
    constructor
    · intro h
      obtain ⟨hhead, next, hcell, hrest⟩ := h
      obtain ⟨mid, hfront, hback⟩ := ih.mp hrest
      exact ⟨mid, ⟨hhead, next, hcell, hfront⟩, hback⟩
    · intro h
      obtain ⟨mid, ⟨hhead, next, hcell, hfront⟩, hback⟩ := h
      exact ⟨hhead, next, hcell, ih.mpr ⟨mid, hfront, hback⟩⟩

/-- Only the cells of the segment matter. -/
theorem Segment.frame {cell' : A → Option (V × Option A)} (h : Segment cell head l last)
    (hsame : ∀ e ∈ l, cell' e.1 = cell e.1) : Segment cell' head l last := by
  induction l generalizing head with
  | nil => exact h
  | cons e l ih =>
    obtain ⟨hhead, next, hcell, hrest⟩ := h
    refine ⟨hhead, next, ?_, ih hrest fun d hd => hsame d (List.mem_cons_of_mem e hd)⟩
    rw [hsame e List.mem_cons_self]
    exact hcell

theorem Segment.cell_of_mem (h : Segment cell head l last) {e : A × V} (he : e ∈ l) :
    ∃ next, cell e.1 = some (e.2, next) := by
  induction l generalizing head with
  | nil => cases he
  | cons d l ih =>
    obtain ⟨_, next, hcell, hrest⟩ := h
    rcases List.mem_cons.mp he with rfl | hmem
    · exact ⟨next, hcell⟩
    · exact ih hrest hmem

/-- Where there is no cell, nothing is linked. -/
theorem Segment.not_mem_of_none (h : Segment cell head l last) {a : A} (ha : cell a = none) :
    a ∉ l.map Prod.fst := by
  intro hmem
  obtain ⟨e, he, rfl⟩ := List.mem_map.mp hmem
  obtain ⟨next, hcell⟩ := h.cell_of_mem he
  rw [ha] at hcell
  cases hcell

theorem Linked.frame {cell' : A → Option (V × Option A)} (h : Linked cell head l)
    (hsame : ∀ e ∈ l, cell' e.1 = cell e.1) : Linked cell' head l :=
  Segment.frame h hsame

theorem Linked.unique {l' : List (A × V)} (h : Linked cell head l) (h' : Linked cell head l') :
    l = l' := by
  induction l generalizing head l' with
  | nil =>
    obtain rfl : head = none := h
    cases l' with
    | nil => rfl
    | cons e l' => cases h'.1
  | cons e l ih =>
    obtain ⟨a, v⟩ := e
    obtain ⟨hhead, next, hcell, hrest⟩ := h
    cases l' with
    | nil =>
      obtain rfl : head = none := h'
      cases hhead
    | cons e' l' =>
      obtain ⟨a', v'⟩ := e'
      obtain ⟨hhead', next', hcell', hrest'⟩ := h'
      obtain rfl : a = a' := Option.some.inj (hhead.symm.trans hhead')
      rw [hcell] at hcell'
      obtain ⟨rfl, rfl⟩ := Prod.mk.inj (Option.some.inj hcell')
      rw [ih hrest hrest']

/-- A chain from a cell begins with it. -/
theorem Linked.exists_cons {a : A} (h : Linked cell (some a) l) : ∃ v l', l = (a, v) :: l' := by
  cases l with
  | nil => cases h
  | cons e l =>
    obtain ⟨b, v⟩ := e
    obtain rfl : a = b := Option.some.inj h.1
    exact ⟨v, l, rfl⟩

/-- **A chain passes each cell once.** -/
theorem Linked.nodup (h : Linked cell head l) : (l.map Prod.fst).Nodup := by
  induction l generalizing head with
  | nil => exact List.nodup_nil
  | cons e l ih =>
    obtain ⟨a, v⟩ := e
    have hwhole : Linked cell (some a) ((a, v) :: l) := ⟨rfl, h.2⟩
    obtain ⟨_, next, hcell, hrest⟩ := h
    refine List.nodup_cons.mpr ⟨?_, ih hrest⟩
    intro hmem
    obtain ⟨⟨b, w⟩, hbw, hb⟩ := List.mem_map.mp hmem
    obtain rfl : b = a := hb
    obtain ⟨front, back, rfl⟩ := List.append_of_mem hbw
    obtain ⟨mid, _, hback⟩ := Segment.append_iff.mp hrest
    -- met again, the cell would begin a chain shorter than the one it begins
    have hagain : Linked cell (some b) ((b, w) :: back) := ⟨rfl, hback.2⟩
    have heq := hwhole.unique hagain
    have hlen := congrArg List.length heq
    simp only [List.length_cons, List.length_append] at hlen
    omega

/-- The pointer a chain is read from. -/
theorem Linked.head_eq (h : Linked cell head l) : head = l.head?.map Prod.fst := by
  cases l with
  | nil => exact h
  | cons e l => exact h.1

/-- What is in a cell of a chain: its value, and where the chain goes on. -/
theorem Linked.cell_eq {front back : List (A × V)} {a : A} {v : V}
    (h : Linked cell head (front ++ (a, v) :: back)) :
    cell a = some (v, back.head?.map Prod.fst) := by
  obtain ⟨mid, _, _, next, hcell, hback⟩ := Segment.append_iff.mp h
  rw [hcell, Linked.head_eq hback]

/-- The cell a chain begins with is taken out by beginning with the next. -/
theorem Linked.pop {back : List (A × V)} {a : A} {v : V}
    (h : Linked cell head ((a, v) :: back)) : Linked cell (back.head?.map Prod.fst) back := by
  obtain ⟨_, next, _, hback⟩ := h
  rw [Linked.head_eq hback] at hback
  exact hback

/-- No longer than there are cells. -/
theorem Linked.length_le (h : Linked cell head l) {cells : Finset A}
    (hcells : ∀ a, cell a ≠ none → a ∈ cells) : l.length ≤ cells.card := by
  classical
  have hsub : (l.map Prod.fst).toFinset ⊆ cells := by
    intro a ha
    obtain ⟨e, he, rfl⟩ := List.mem_map.mp (List.mem_toFinset.mp ha)
    obtain ⟨next, hcell⟩ := Segment.cell_of_mem h he
    apply hcells
    rw [hcell]
    exact Option.some_ne_none _
  have hcard := Finset.card_le_card hsub
  rw [List.toFinset_card_of_nodup h.nodup, List.length_map] at hcard
  exact hcard

/-! ## Linking and unlinking -/

variable [DecidableEq A]

theorem Segment.update_of_not_mem (h : Segment cell head l last) {a : A}
    (ha : a ∉ l.map Prod.fst) (n : Option (V × Option A)) :
    Segment (update cell a n) head l last := by
  apply h.frame
  intro e he
  exact update_of_ne (ne_of_mem_of_not_mem (List.mem_map_of_mem he) ha) n cell

theorem Linked.update_of_not_mem (h : Linked cell head l) {a : A} (ha : a ∉ l.map Prod.fst)
    (n : Option (V × Option A)) : Linked (update cell a n) head l :=
  Segment.update_of_not_mem h ha n

/-- A new cell in front. -/
theorem Linked.push (h : Linked cell head l) {a : A} (ha : a ∉ l.map Prod.fst) (v : V) :
    Linked (update cell a (some (v, head))) (some a) ((a, v) :: l) :=
  ⟨rfl, head, update_self .., h.update_of_not_mem ha _⟩

/-- The last cell of a segment is the one to write to lead it elsewhere. -/
theorem Segment.redirect {p : A} {u : V} (h : Segment cell head (l ++ [(p, u)]) last)
    (hp : p ∉ l.map Prod.fst) (last' : Option A) :
    Segment (update cell p (some (u, last'))) head (l ++ [(p, u)]) last' := by
  obtain ⟨mid, hfront, hmid, next, hcell, hnext⟩ := Segment.append_iff.mp h
  refine Segment.append_iff.mpr ⟨mid, hfront.update_of_not_mem hp _, hmid, last', ?_, rfl⟩
  exact update_self ..

/-- **Unlinking.** The cell after `p` is taken out of the chain by leading `p` past it. -/
theorem Linked.unlink {front back : List (A × V)} {p a : A} {u v : V} {next : Option A}
    (h : Linked cell head (front ++ [(p, u)] ++ (a, v) :: back)) (ha : cell a = some (v, next)) :
    Linked (update cell p (some (u, next))) head (front ++ [(p, u)] ++ back) := by
  have hnodup := h.nodup
  rw [List.map_append, List.map_append] at hnodup
  obtain ⟨hfirst, _, hdisj⟩ := List.nodup_append.mp hnodup
  obtain ⟨mid, hfront, _, next', hcell, hback⟩ := Segment.append_iff.mp h
  obtain rfl : next = next' := by
    rw [ha] at hcell
    exact (Prod.mk.inj (Option.some.inj hcell)).2
  have hp : p ∉ front.map Prod.fst := by
    intro hmem
    exact (List.nodup_append.mp hfirst).2.2 p hmem p (List.mem_singleton.mpr rfl) rfl
  have hp' : p ∉ back.map Prod.fst := by
    intro hmem
    exact hdisj p (List.mem_append_right _ (List.mem_singleton.mpr rfl)) p
      (List.mem_cons_of_mem a hmem) rfl
  exact Segment.append_iff.mpr ⟨next, hfront.redirect hp next, hback.update_of_not_mem hp' _⟩

/-- Another value in a cell of the chain. -/
theorem Linked.set {front back : List (A × V)} {a : A} {v : V}
    (h : Linked cell head (front ++ (a, v) :: back)) (v' : V) :
    Linked (update cell a (some (v', back.head?.map Prod.fst))) head
      (front ++ (a, v') :: back) := by
  have hnodup := h.nodup
  rw [List.map_append, List.map_cons] at hnodup
  obtain ⟨_, hback', hdisj⟩ := List.nodup_append.mp hnodup
  obtain ⟨mid, hfront, hmid, next, _, hback⟩ := Segment.append_iff.mp h
  have ha : a ∉ front.map Prod.fst := fun hmem => hdisj a hmem a List.mem_cons_self rfl
  refine Segment.append_iff.mpr ⟨mid, hfront.update_of_not_mem ha _, hmid, next, ?_,
    hback.update_of_not_mem (List.nodup_cons.mp hback').1 _⟩
  rw [update_self, Linked.head_eq hback]

/-- **Linking.** A new cell is put behind `p`, and leads to where `p` led. -/
theorem Linked.link {front back : List (A × V)} {p a : A} {u : V}
    (h : Linked cell head (front ++ (p, u) :: back))
    (ha : a ∉ (front ++ (p, u) :: back).map Prod.fst) (v : V) :
    Linked (update (update cell a (some (v, back.head?.map Prod.fst))) p (some (u, some a))) head
      (front ++ (p, u) :: (a, v) :: back) := by
  have hnodup := h.nodup
  rw [List.map_append, List.map_cons] at hnodup ha
  obtain ⟨_, hback', hdisj⟩ := List.nodup_append.mp hnodup
  have hp : p ∉ front.map Prod.fst := fun hmem => hdisj p hmem p List.mem_cons_self rfl
  have hp' : p ∉ back.map Prod.fst := (List.nodup_cons.mp hback').1
  have ha' : a ∉ front.map Prod.fst := fun hmem => ha (List.mem_append_left _ hmem)
  have hpa : a ≠ p := by
    rintro rfl
    exact ha (List.mem_append_right _ List.mem_cons_self)
  have haback : a ∉ back.map Prod.fst := by
    intro hmem
    exact ha (List.mem_append_right _ (List.mem_cons_of_mem p hmem))
  obtain ⟨mid, hfront, hmid, next, _, hback⟩ := Segment.append_iff.mp h
  obtain rfl := Linked.head_eq hback
  refine Segment.append_iff.mpr ⟨mid, ?_, hmid, some a, update_self .., rfl,
    back.head?.map Prod.fst, ?_, ?_⟩
  · exact (hfront.update_of_not_mem ha' _).update_of_not_mem hp _
  · rw [update_of_ne hpa, update_self]
  · exact (hback.update_of_not_mem haback _).update_of_not_mem hp' _

end Lib
end Cab403
