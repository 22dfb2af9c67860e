import Cab403.Lib.Monitor
import Mathlib.Data.List.Induction

/-!
# The paths of a program, and the discipline of its lock

`Code.Path` follows a program to one of its exits, whatever the loads on the way find, and keeps
what is done to the lock and to the record. `Disciplined` is what is asked of that: the lock is
given back as often as it is taken; what is written is written under it, and signalled before it
is given back; and a path that fails has written nothing.

The discipline is checked by an automaton with three phases (`Phase.after`): outside the lock,
inside with nothing to signal, and inside with something written and not yet signalled. What
gets through it keeps the discipline (`Phase.run_guarded`, `Phase.run_balanced`). `Code.Obeys`
runs it over the program, statement by statement, instead of over one path.
-/

namespace Cab403
namespace Lib

variable {κ S : Type}

/-! ## Paths -/

inductive Act (κ : Type) where
  | lock
  | store
  | signal (v : κ)
  | unlock
  deriving DecidableEq, Repr

/-- A path to an exit, and whether it succeeds. A load may find anything: other threads write. -/
inductive Code.Path : Code κ S → List (Act κ) → Bool → Prop
  | exit (ok : Bool) : Path (.exit ok) [] ok
  | print {message : String} {next : Code κ S} {acts : List (Act κ)} {ok : Bool}
      (h : Path next acts ok) : Path (.print message next) acts ok
  | load {next : S → Code κ S} {acts : List (Act κ)} {ok : Bool} (s : S)
      (h : Path (next s) acts ok) : Path (.load next) acts ok
  | lock {next : Code κ S} {acts : List (Act κ)} {ok : Bool} (h : Path next acts ok) :
      Path (.lock next) (.lock :: acts) ok
  | store {f : S → S} {next : Code κ S} {acts : List (Act κ)} {ok : Bool} (h : Path next acts ok) :
      Path (.store f next) (.store :: acts) ok
  | signal {v : κ} {next : Code κ S} {acts : List (Act κ)} {ok : Bool} (h : Path next acts ok) :
      Path (.signal v next) (.signal v :: acts) ok
  | await {v : κ} {c : S → Bool} {next : Code κ S} {acts : List (Act κ)} {ok : Bool}
      (h : Path next acts ok) : Path (.await v c next) acts ok
  | sleep {v : κ} {c : S → Bool} {next : Code κ S} {acts : List (Act κ)} {ok : Bool}
      (h : Path (.await v c next) acts ok) : Path (.await v c next) (.unlock :: .lock :: acts) ok
  | unlock {next : Code κ S} {acts : List (Act κ)} {ok : Bool} (h : Path next acts ok) :
      Path (.unlock next) (.unlock :: acts) ok

/-- What a program that runs alone does. -/
def Code.acts : Code κ S → S → List (Act κ)
  | .exit _, _ => []
  | .print _ next, s => next.acts s
  | .load next, s => (next s).acts s
  | .lock next, s => .lock :: next.acts s
  | .store f next, s => .store :: next.acts (f s)
  | .signal v next, s => .signal v :: next.acts s
  | .await _ c next, s => if c s then [] else next.acts s
  | .unlock next, s => .unlock :: next.acts s

/-- A program that runs alone follows one of its paths. -/
theorem Code.path_of_exec {c : Code κ S} {s : S} {o : Outcome S} (h : c.exec s = some o) :
    c.Path (c.acts s) o.ok := by
  induction c generalizing s o with
  | exit ok =>
    obtain rfl := Option.some.inj h
    exact .exit ok
  | print message next ih =>
    obtain ⟨o', hexec, rfl⟩ := Option.map_eq_some_iff.mp h
    have hpath := ih hexec
    exact .print hpath
  | load next ih => exact .load s (ih s h)
  | lock next ih => exact .lock (ih h)
  | store f next ih => exact .store (ih h)
  | signal v next ih => exact .signal (ih h)
  | await v c next ih =>
    simp only [Code.exec] at h
    by_cases hc : c s = true
    · rw [if_pos hc] at h
      cases h
    · rw [if_neg hc] at h
      simp only [Code.acts, if_neg hc]
      exact .await (ih h)
  | unlock next ih => exact .unlock (ih h)

/-! ## The discipline -/

/-- The lock was taken and has not been given back. -/
def HoldsLock (acts : List (Act κ)) : Prop :=
  ∃ before since, acts = before ++ Act.lock :: since ∧ Act.unlock ∉ since

/-- There is a signal before the lock is next given back. -/
def SignalsFirst (acts : List (Act κ)) : Prop :=
  ∃ before v rest, acts = before ++ Act.signal v :: rest ∧ Act.unlock ∉ before ∧ Act.unlock ∈ rest

structure Disciplined [DecidableEq κ] (acts : List (Act κ)) (ok : Bool) : Prop where
  balanced : acts.count Act.lock = acts.count Act.unlock
  guarded : ∀ before rest, acts = before ++ Act.store :: rest → HoldsLock before ∧ SignalsFirst rest
  failed : ok = false → Act.store ∉ acts

theorem HoldsLock.concat {acts : List (Act κ)} (h : HoldsLock acts) {a : Act κ}
    (ha : a ≠ Act.unlock) : HoldsLock (acts ++ [a]) := by
  obtain ⟨before, since, rfl, hsince⟩ := h
  refine ⟨before, since ++ [a], by simp, ?_⟩
  simp [hsince, ha.symm]

theorem SignalsFirst.cons {acts : List (Act κ)} (h : SignalsFirst acts) {a : Act κ}
    (ha : a ≠ Act.unlock) : SignalsFirst (a :: acts) := by
  obtain ⟨before, v, rest, rfl, hbefore, hrest⟩ := h
  refine ⟨a :: before, v, rest, rfl, ?_, hrest⟩
  simp [hbefore, ha.symm]

/-! ## The automaton -/

inductive Phase where
  | outside
  | clean
  | dirty
  deriving DecidableEq, Repr

/-- The phase after an act, if it is allowed. -/
def Phase.after : Phase → Act κ → Option Phase
  | .outside, .lock => some .clean
  | .outside, .signal _ => some .outside
  | .clean, .store => some .dirty
  | .dirty, .store => some .dirty
  | .clean, .signal _ => some .clean
  | .dirty, .signal _ => some .clean
  | .clean, .unlock => some .outside
  | _, _ => none

def Phase.run : Phase → List (Act κ) → Option Phase
  | p, [] => some p
  | p, a :: acts => (p.after a).bind fun q => q.run acts

theorem Phase.run_cons {p r : Phase} {a : Act κ} {acts : List (Act κ)} :
    p.run (a :: acts) = some r ↔ ∃ q, p.after a = some q ∧ q.run acts = some r :=
  Option.bind_eq_some_iff

theorem Phase.run_append {p r : Phase} {acts rest : List (Act κ)} :
    p.run (acts ++ rest) = some r ↔ ∃ q, p.run acts = some q ∧ q.run rest = some r := by
  induction acts generalizing p with
  | nil => simp [Phase.run]
  | cons a acts ih =>
    rw [List.cons_append, Phase.run_cons]
    constructor
    · rintro ⟨q, hafter, hrun⟩
      obtain ⟨q', hacts, hrest⟩ := ih.mp hrun
      exact ⟨q', Phase.run_cons.mpr ⟨q, hafter, hacts⟩, hrest⟩
    · rintro ⟨q', hacts, hrest⟩
      obtain ⟨q, hafter, hrun⟩ := Phase.run_cons.mp hacts
      exact ⟨q, hafter, ih.mpr ⟨q', hrun, hrest⟩⟩

/-- How often the lock is held. -/
def Phase.held : Phase → Nat
  | .outside => 0
  | _ => 1

theorem Phase.run_balanced [DecidableEq κ] {p : Phase} {acts : List (Act κ)}
    (h : p.run acts = some .outside) :
    p.held + acts.count Act.lock = acts.count Act.unlock := by
  induction acts generalizing p with
  | nil =>
    obtain rfl := Option.some.inj h
    rfl
  | cons a acts ih =>
    obtain ⟨q, hafter, hrun⟩ := Phase.run_cons.mp h
    have hcount := ih hrun
    cases p <;> cases a <;> cases hafter <;> simp_all [Phase.held]
    all_goals omega

theorem Phase.unlock_mem {p : Phase} {acts : List (Act κ)} (h : p.run acts = some .outside)
    (hp : p ≠ .outside) : Act.unlock ∈ acts := by
  induction acts generalizing p with
  | nil => exact absurd (Option.some.inj h) hp
  | cons a acts ih =>
    obtain ⟨q, hafter, hrun⟩ := Phase.run_cons.mp h
    by_cases hq : q = .outside
    · -- the lock is given back here
      subst hq
      cases p <;> cases a <;> cases hafter
      · exact absurd rfl hp
      · exact List.mem_cons_self
    · exact List.mem_cons_of_mem a (ih hrun hq)

theorem Phase.signalsFirst {acts : List (Act κ)} (h : Phase.dirty.run acts = some .outside) :
    SignalsFirst acts := by
  induction acts with
  | nil => cases h
  | cons a acts ih =>
    obtain ⟨q, hafter, hrun⟩ := Phase.run_cons.mp h
    cases a with
    | lock => cases hafter
    | store =>
      cases hafter
      exact (ih hrun).cons nofun
    | signal v =>
      cases hafter
      exact ⟨[], v, acts, rfl, List.not_mem_nil, Phase.unlock_mem hrun nofun⟩
    | unlock => cases hafter

theorem Phase.holdsLock {q : Phase} {acts : List (Act κ)} (h : Phase.outside.run acts = some q)
    (hq : q ≠ .outside) : HoldsLock acts := by
  induction acts using List.reverseRecOn generalizing q with
  | nil => exact absurd (Option.some.inj h).symm hq
  | append_singleton acts a ih =>
    obtain ⟨p, hacts, hlast⟩ := Phase.run_append.mp h
    obtain ⟨r, hafter, hr⟩ := Phase.run_cons.mp hlast
    obtain rfl := Option.some.inj hr
    by_cases hp : p = .outside
    · -- only taking the lock leads inside
      subst hp
      cases a with
      | lock => exact ⟨acts, [], rfl, List.not_mem_nil⟩
      | signal v =>
        cases hafter
        exact absurd rfl hq
      | store => cases hafter
      | unlock => cases hafter
    · refine (ih hacts hp).concat ?_
      rintro rfl
      cases p <;> cases hafter
      exact absurd rfl hq

/-- **What gets through writes under the lock, and signals what it has written.** -/
theorem Phase.run_guarded {before rest : List (Act κ)}
    (h : Phase.outside.run (before ++ Act.store :: rest) = some .outside) :
    HoldsLock before ∧ SignalsFirst rest := by
  obtain ⟨q, hbefore, hstore⟩ := Phase.run_append.mp h
  obtain ⟨r, hafter, hrest⟩ := Phase.run_cons.mp hstore
  have hr : q ≠ .outside ∧ r = .dirty := by
    cases q <;> cases hafter <;> exact ⟨nofun, rfl⟩
  obtain ⟨hq, rfl⟩ := hr
  exact ⟨Phase.holdsLock hbefore hq, Phase.signalsFirst hrest⟩

/-! ## Programs -/

/-- The automaton over a program that never waits, in a phase and with something stored already
or not. -/
def Code.Obeys : Code κ S → Phase → Bool → Prop
  | .exit ok, p, stored => p = .outside ∧ (ok = false → stored = false)
  | .print _ next, p, stored => next.Obeys p stored
  | .load next, p, stored => ∀ s, (next s).Obeys p stored
  | .lock next, p, stored => ∃ q, p.after (Act.lock (κ := κ)) = some q ∧ next.Obeys q stored
  | .store _ next, p, _ => ∃ q, p.after (Act.store (κ := κ)) = some q ∧ next.Obeys q true
  | .signal v next, p, stored => ∃ q, p.after (Act.signal v) = some q ∧ next.Obeys q stored
  | .await _ _ _, _, _ => False
  | .unlock next, p, stored => ∃ q, p.after (Act.unlock (κ := κ)) = some q ∧ next.Obeys q stored

theorem Code.obeys_ite {c : Prop} [Decidable c] {a b : Code κ S} {p : Phase} {stored : Bool}
    (ha : a.Obeys p stored) (hb : b.Obeys p stored) : (if c then a else b).Obeys p stored := by
  by_cases hc : c
  · rw [if_pos hc]
    exact ha
  · rw [if_neg hc]
    exact hb

/-- It comes to an exit. -/
theorem Code.Obeys.exec {c : Code κ S} {p : Phase} {stored : Bool} (h : c.Obeys p stored) (s : S) :
    ∃ o, c.exec s = some o := by
  induction c generalizing p stored s with
  | exit ok => exact ⟨_, rfl⟩
  | print message next ih =>
    obtain ⟨o, hexec⟩ := ih h s
    exact ⟨_, Option.map_eq_some_iff.mpr ⟨o, hexec, rfl⟩⟩
  | load next ih => exact ih s (h s) s
  | lock next ih =>
    obtain ⟨q, _, hnext⟩ := h
    exact ih hnext s
  | store f next ih =>
    obtain ⟨q, _, hnext⟩ := h
    exact ih hnext (f s)
  | signal v next ih =>
    obtain ⟨q, _, hnext⟩ := h
    exact ih hnext s
  | await v c next ih => cases h
  | unlock next ih =>
    obtain ⟨q, _, hnext⟩ := h
    exact ih hnext s

/-- Every path gets through, and one that fails stores nothing. -/
theorem Code.Obeys.path {c : Code κ S} {acts : List (Act κ)} {ok : Bool} (h : c.Path acts ok)
    {p : Phase} {stored : Bool} (hc : c.Obeys p stored) :
    p.run acts = some .outside ∧ (ok = false → stored = false ∧ Act.store ∉ acts) := by
  induction h generalizing p stored with
  | exit ok =>
    obtain ⟨rfl, hok⟩ := hc
    exact ⟨rfl, fun hfail => ⟨hok hfail, List.not_mem_nil⟩⟩
  | print _ ih => exact ih hc
  | load s _ ih => exact ih (hc s)
  | lock _ ih =>
    obtain ⟨q, hafter, hnext⟩ := hc
    obtain ⟨hrun, hfail⟩ := ih hnext
    refine ⟨Phase.run_cons.mpr ⟨q, hafter, hrun⟩, fun hok => ⟨(hfail hok).1, ?_⟩⟩
    simpa using (hfail hok).2
  | store _ ih =>
    obtain ⟨q, hafter, hnext⟩ := hc
    obtain ⟨hrun, hfail⟩ := ih hnext
    refine ⟨Phase.run_cons.mpr ⟨q, hafter, hrun⟩, fun hok => ?_⟩
    -- something is stored: the exit is not a failure
    exact absurd (hfail hok).1 nofun
  | signal _ ih =>
    obtain ⟨q, hafter, hnext⟩ := hc
    obtain ⟨hrun, hfail⟩ := ih hnext
    refine ⟨Phase.run_cons.mpr ⟨q, hafter, hrun⟩, fun hok => ⟨(hfail hok).1, ?_⟩⟩
    simpa using (hfail hok).2
  | await _ _ => cases hc
  | sleep _ _ => cases hc
  | unlock _ ih =>
    obtain ⟨q, hafter, hnext⟩ := hc
    obtain ⟨hrun, hfail⟩ := ih hnext
    refine ⟨Phase.run_cons.mpr ⟨q, hafter, hrun⟩, fun hok => ⟨(hfail hok).1, ?_⟩⟩
    simpa using (hfail hok).2

/-- **The discipline from the program**: checked once, it holds on every path. -/
theorem Code.Obeys.disciplined [DecidableEq κ] {c : Code κ S} (hc : c.Obeys .outside false)
    {acts : List (Act κ)} {ok : Bool} (h : c.Path acts ok) : Disciplined acts ok := by
  obtain ⟨hrun, hfail⟩ := hc.path h
  refine ⟨?_, ?_, fun hok => (hfail hok).2⟩
  · have hbalanced := Phase.run_balanced hrun
    rwa [Phase.held, Nat.zero_add] at hbalanced
  · intro before rest hacts
    rw [hacts] at hrun
    exact Phase.run_guarded hrun

end Lib
end Cab403
