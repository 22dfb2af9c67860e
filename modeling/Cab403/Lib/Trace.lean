import Mathlib.Logic.Relation

/-!
# Traces of a labelled transition system

The vocabulary every concurrent program of this development is stated in. A system is a step
relation `step : σ → ℓ → σ → Prop` — in state, label, out state; the label says who moves. A
`Trace` is a finite run from a given state, kept as the labels and the states they lead to, so
that a statement can speak of every state reached (`AllStates`) and of every step taken
(`AllSteps`), and not only of the state a run ends in.

The rules, one per shape of statement:

* `Trace.allStates` — an inductive invariant holds in every state of every trace;
* `Trace.allSteps` — and so does, of every step, whatever the invariant lets a step do;
* `Trace.restrict` — a run all of whose steps meet a condition is a run of the system that has
  the condition for a guard, to which the two rules above then apply;
* `Trace.lowers` and `Trace.exists_finish` — a measure that every step lowers bounds the length of
  a run, and if a run that is not done always has a step, it can be brought to its end;
* `Trace.total_le` — a potential that pays for every step pays for the run;
* `Reaches` — some run leads there: what two systems are compared by;
* `Trace.allStates_iff` and `Trace.allSteps_iff` — the *exactness* rules. Where a property is
  not an invariant, but each step from a state that has it leads to one that has it **iff** some
  condition on the step holds, a trace keeps the property throughout iff all its steps meet the
  condition.
-/

namespace Cab403
namespace Lib

variable {σ ℓ : Type*} {step : σ → ℓ → σ → Prop}

/-- A finite run from a state: the labels taken, each with the state it leads to. -/
inductive Trace (step : σ → ℓ → σ → Prop) : σ → List (ℓ × σ) → Prop
  | nil (s : σ) : Trace step s []
  | cons {s t : σ} {l : ℓ} {tr : List (ℓ × σ)} :
      step s l t → Trace step t tr → Trace step s ((l, t) :: tr)

/-- `P` holds in the first state and in every state the run reaches. -/
def AllStates (P : σ → Prop) : σ → List (ℓ × σ) → Prop
  | s, [] => P s
  | s, (_, t) :: tr => P s ∧ AllStates P t tr

/-- `C` holds of every step of the run. -/
def AllSteps (C : σ → ℓ → σ → Prop) : σ → List (ℓ × σ) → Prop
  | _, [] => True
  | s, (l, t) :: tr => C s l t ∧ AllSteps C t tr

/-- The state a run ends in. -/
def lastState : σ → List (ℓ × σ) → σ
  | s, [] => s
  | _, (_, t) :: tr => lastState t tr

theorem AllStates.head {P : σ → Prop} {s : σ} {tr : List (ℓ × σ)} (h : AllStates P s tr) :
    P s := by
  cases tr with
  | nil => exact h
  | cons p tr => exact h.1

theorem AllStates.last {P : σ → Prop} {s : σ} {tr : List (ℓ × σ)} (h : AllStates P s tr) :
    P (lastState s tr) := by
  induction tr generalizing s with
  | nil => exact h
  | cons p tr ih => exact ih h.2

theorem AllStates.imp {P Q : σ → Prop} (hpq : ∀ s, P s → Q s) {s : σ} {tr : List (ℓ × σ)}
    (h : AllStates P s tr) : AllStates Q s tr := by
  induction tr generalizing s with
  | nil => exact hpq s h
  | cons p tr ih => exact ⟨hpq s h.1, ih h.2⟩

/-- **Invariance.** -/
theorem Trace.allStates {I : σ → Prop} (hstep : ∀ s l t, I s → step s l t → I t) {s : σ}
    {tr : List (ℓ × σ)} (h : Trace step s tr) (hs : I s) : AllStates I s tr := by
  induction h with
  | nil s => exact hs
  | cons hst _ ih => exact ⟨hs, ih (hstep _ _ _ hs hst)⟩

/-- **What an invariant lets a step do, every step does.** -/
theorem Trace.allSteps {I : σ → Prop} {C : σ → ℓ → σ → Prop}
    (hstep : ∀ s l t, I s → step s l t → I t ∧ C s l t) {s : σ} {tr : List (ℓ × σ)}
    (h : Trace step s tr) (hs : I s) : AllSteps C s tr := by
  induction h with
  | nil s => trivial
  | cons hst _ ih =>
    obtain ⟨hnext, hC⟩ := hstep _ _ _ hs hst
    exact ⟨hC, ih hnext⟩

/-- **Restriction.** A run whose steps all meet `C` is a run of the system guarded by `C`. -/
theorem Trace.restrict {C : σ → ℓ → σ → Prop} {s : σ} {tr : List (ℓ × σ)}
    (h : Trace step s tr) (hC : AllSteps C s tr) :
    Trace (fun s l t => step s l t ∧ C s l t) s tr := by
  induction h with
  | nil s => exact .nil s
  | cons hst _ ih => exact .cons ⟨hst, hC.1⟩ (ih hC.2)

/-- **Exactness, for steps.** From a state with `P` a step does what it should exactly when it
meets `C`, and leads to a state with `P` if it does. -/
theorem Trace.allSteps_iff {P : σ → Prop} {Q C : σ → ℓ → σ → Prop}
    (hQC : ∀ s l t, P s → step s l t → (Q s l t ↔ C s l t))
    (hP : ∀ s l t, P s → step s l t → Q s l t → P t) {s : σ} {tr : List (ℓ × σ)}
    (h : Trace step s tr) (hs : P s) : AllSteps Q s tr ↔ AllSteps C s tr := by
  induction h with
  | nil s => exact Iff.rfl
  | cons hst _ ih =>
    have hiff := hQC _ _ _ hs hst
    constructor
    · intro hall
      exact ⟨hiff.mp hall.1, (ih (hP _ _ _ hs hst hall.1)).mp hall.2⟩
    · intro hall
      have hq := hiff.mpr hall.1
      exact ⟨hq, (ih (hP _ _ _ hs hst hq)).mpr hall.2⟩

theorem AllStates.iff_allSteps {P : σ → Prop} {s : σ} {tr : List (ℓ × σ)} (hs : P s) :
    AllStates P s tr ↔ AllSteps (fun _ _ t => P t) s tr := by
  induction tr generalizing s with
  | nil => exact iff_of_true hs trivial
  | cons p tr ih =>
    constructor
    · intro h
      exact ⟨h.2.head, (ih h.2.head).mp h.2⟩
    · intro h
      exact ⟨hs, (ih h.1).mpr h.2⟩

/-- **Exactness, for states.** `A` is an ambient invariant; from a state with `P` a step reaches
a state with `P` exactly when it meets `C`. -/
theorem Trace.allStates_iff {A P : σ → Prop} {C : σ → ℓ → σ → Prop}
    (hA : ∀ s l t, A s → step s l t → A t)
    (hP : ∀ s l t, A s → P s → step s l t → (P t ↔ C s l t)) {s : σ} {tr : List (ℓ × σ)}
    (h : Trace step s tr) (ha : A s) (hs : P s) : AllStates P s tr ↔ AllSteps C s tr := by
  rw [AllStates.iff_allSteps hs]
  exact h.allSteps_iff (P := fun s => A s ∧ P s) (fun s l t hs hst => hP s l t hs.1 hs.2 hst)
    (fun s l t hs hst ht => ⟨hA s l t hs.1 hst, ht⟩) ⟨ha, hs⟩

/-! ## Runs that end

`I s n` is an invariant with a measure: from `s` at most `n` steps are left. -/

theorem lastState_append (s : σ) (tr tr' : List (ℓ × σ)) :
    lastState s (tr ++ tr') = lastState (lastState s tr) tr' := by
  induction tr generalizing s with
  | nil => rfl
  | cons p tr ih => exact ih p.2

theorem Trace.imp {step' : σ → ℓ → σ → Prop} (himp : ∀ s l t, step s l t → step' s l t) {s : σ}
    {tr : List (ℓ × σ)} (h : Trace step s tr) : Trace step' s tr := by
  induction h with
  | nil s => exact .nil s
  | cons hst _ ih => exact .cons (himp _ _ _ hst) ih

theorem Trace.append {s : σ} {tr tr' : List (ℓ × σ)} (h : Trace step s tr)
    (h' : Trace step (lastState s tr) tr') : Trace step s (tr ++ tr') := by
  induction h with
  | nil s => exact h'
  | cons hst _ ih => exact .cons hst (ih h')

theorem Trace.lowers {I : σ → Nat → Prop}
    (hstep : ∀ s l t n, I s n → step s l t → ∃ m, m < n ∧ I t m) {s : σ} {tr : List (ℓ × σ)}
    (h : Trace step s tr) {n : Nat} (hs : I s n) :
    ∃ m, tr.length + m ≤ n ∧ I (lastState s tr) m := by
  induction h generalizing n with
  | nil s => exact ⟨n, Nat.le_of_eq (Nat.zero_add n), hs⟩
  | @cons s t l tr hst _ ih =>
    obtain ⟨m, hmn, ht⟩ := hstep _ _ _ _ hs hst
    obtain ⟨m', hlength, hlast⟩ := ih ht
    refine ⟨m', ?_, hlast⟩
    rw [List.length_cons]
    omega

/-- **Termination.** -/
theorem Trace.exists_finish {I : σ → Nat → Prop} {Done : σ → Prop}
    (hstep : ∀ s l t n, I s n → step s l t → ∃ m, m < n ∧ I t m)
    (hprogress : ∀ s n, I s n → Done s ∨ ∃ l t, step s l t) {s : σ} {n : Nat} (hs : I s n) :
    ∃ tr, Trace step s tr ∧ Done (lastState s tr) := by
  induction n using Nat.strongRecOn generalizing s with
  | ind n ih =>
    rcases hprogress s n hs with hdone | ⟨l, t, hst⟩
    · exact ⟨[], .nil s, hdone⟩
    · obtain ⟨m, hmn, ht⟩ := hstep _ _ _ _ hs hst
      obtain ⟨tr, htr, hdone⟩ := ih m hmn ht
      exact ⟨(l, t) :: tr, .cons hst htr, hdone⟩

/-! ## What a run leads to -/

/-- A run from `s` ends in `t`. -/
def Reaches (step : σ → ℓ → σ → Prop) (s t : σ) : Prop :=
  ∃ tr, Trace step s tr ∧ lastState s tr = t

theorem Reaches.refl (s : σ) : Reaches step s s := ⟨[], .nil s, rfl⟩

theorem Reaches.cons {s t u : σ} {l : ℓ} (hst : step s l t) (h : Reaches step t u) :
    Reaches step s u := by
  obtain ⟨tr, htr, hlast⟩ := h
  exact ⟨(l, t) :: tr, .cons hst htr, hlast⟩

theorem Reaches.trans {s t u : σ} (h : Reaches step s t) (h' : Reaches step t u) :
    Reaches step s u := by
  obtain ⟨tr, htr, rfl⟩ := h
  obtain ⟨tr', htr', hlast⟩ := h'
  exact ⟨tr ++ tr', htr.append htr', (lastState_append s tr tr').trans hlast⟩

theorem reaches_iff_reflTransGen {s t : σ} :
    Reaches step s t ↔ Relation.ReflTransGen (fun s t => ∃ l, step s l t) s t := by
  constructor
  · rintro ⟨tr, htr, rfl⟩
    induction htr with
    | nil s => exact .refl
    | cons hst _ ih => exact .head ⟨_, hst⟩ ih
  · intro h
    induction h using Relation.ReflTransGen.head_induction_on with
    | refl => exact .refl t
    | head hst _ ih =>
      obtain ⟨l, hst⟩ := hst
      exact .cons hst ih

/-! ## What a run costs -/

/-- What the steps of a run cost together. -/
def total (cost : σ → ℓ → σ → Nat) : σ → List (ℓ × σ) → Nat
  | _, [] => 0
  | s, (l, t) :: tr => cost s l t + total cost t tr

/-- **Amortisation.** Where a rise of the potential pays for every step, it pays for the run. -/
theorem Trace.total_le {I : σ → Prop} {cost : σ → ℓ → σ → Nat} {potential : σ → Nat}
    (hstep : ∀ s l t, I s → step s l t → I t ∧ cost s l t + potential s ≤ potential t) {s : σ}
    {tr : List (ℓ × σ)} (h : Trace step s tr) (hs : I s) :
    total cost s tr + potential s ≤ potential (lastState s tr) := by
  induction h with
  | nil s => exact Nat.le_of_eq (Nat.zero_add _)
  | @cons s t l tr hst _ ih =>
    obtain ⟨ht, hpaid⟩ := hstep _ _ _ hs hst
    have hrest := ih ht
    show cost s l t + total cost t tr + potential s ≤ potential (lastState t tr)
    omega

/-! ## The order of events

Where a state keeps the labels taken so far, a condition can speak of their order. -/

/-- `a` comes before `b`. -/
def Precedes (a b : ℓ) (ls : List ℓ) : Prop := [a, b].Sublist ls

instance [DecidableEq ℓ] (a b : ℓ) (ls : List ℓ) : Decidable (Precedes a b ls) :=
  inferInstanceAs (Decidable ([a, b].Sublist ls))

theorem precedes_concat {a b c : ℓ} {ls : List ℓ} :
    Precedes a b (ls ++ [c]) ↔ Precedes a b ls ∨ b = c ∧ a ∈ ls := by
  have hreverse : ∀ ls : List ℓ, Precedes a b ls ↔ [b, a].Sublist ls.reverse :=
    fun ls => List.reverse_sublist.symm
  rw [hreverse, hreverse, List.reverse_append]
  simp [List.sublist_cons_iff, and_assoc]

theorem Precedes.mem {a b : ℓ} {ls : List ℓ} (h : Precedes a b ls) : b ∈ ls :=
  h.subset (List.mem_cons_of_mem _ List.mem_cons_self)

/-! ## Schedules

Where each label's step is a function, a list of labels is a schedule: following it, with a label
that has no step skipped, yields a trace. -/

/-- The steps a schedule takes. -/
def follow (f : ℓ → σ → Option σ) : σ → List ℓ → List (ℓ × σ)
  | _, [] => []
  | s, l :: ls =>
    match f l s with
    | none => follow f s ls
    | some t => (l, t) :: follow f t ls

theorem follow_trace (f : ℓ → σ → Option σ) (s : σ) (ls : List ℓ) :
    Trace (fun s l t => f l s = some t) s (follow f s ls) := by
  induction ls generalizing s with
  | nil => exact .nil s
  | cons l ls ih =>
    unfold follow
    cases h : f l s with
    | none => exact ih s
    | some t => exact .cons h (ih t)

end Lib
end Cab403
