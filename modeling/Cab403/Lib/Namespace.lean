import Cab403.Lib.Trace
import Mathlib.Logic.Function.Basic

/-!
# Names for shared objects

Objects are found by name. An owner takes its name off whatever has it (`unlink`), and opens the
name, which creates an object unless there is one (`create`); a client opens the name if it leads
to anything (`attach`). To have an object is not to keep its name: the name can be taken away and
given to another object, and whoever had the first one has it still. Any party may let go of its
object, or be gone, at any time (`drop`).

`Agree` is what owners and clients want of this: the object an owner has is the one its name leads
to, it is nobody else's, and the clients of the name have no other. A step from a state in which
they agree keeps it so exactly if no owner unlinks or creates while another has an object under
the name, nor creates while a client has an object the name does not lead to (`agree_step_iff`).
-/

namespace Cab403
namespace Lib

variable {ι ν : Type*}

/-- A process, with the name it uses and the object it has. -/
structure Party (ν : Type*) where
  name : ν
  owner : Bool
  object : Option Nat

/-- Objects are numbered as they are created. -/
structure Namespace (ι ν : Type*) where
  names : ν → Option Nat
  created : Nat
  parties : ι → Party ν

namespace Namespace

inductive Act where
  | unlink
  | create
  | attach
  | drop
  deriving DecidableEq, Repr

section System

def give [DecidableEq ι] (s : Namespace ι ν) (i : ι) (o : Option Nat) : Namespace ι ν :=
  { s with parties := Function.update s.parties i { s.parties i with object := o } }

def point [DecidableEq ν] (s : Namespace ι ν) (n : ν) (o : Option Nat) : Namespace ι ν :=
  { s with names := Function.update s.names n o }

variable [DecidableEq ι] [DecidableEq ν]

/-- A new object, under the name of `i`. -/
def make (s : Namespace ι ν) (i : ι) : Namespace ι ν :=
  { (s.point (s.parties i).name (some s.created)).give i (some s.created) with
    created := s.created + 1 }

inductive Step (s : Namespace ι ν) : ι × Act → Namespace ι ν → Prop
  | unlink {i : ι} (howner : (s.parties i).owner = true) :
      Step s (i, .unlink) (s.point (s.parties i).name none)
  | opened {i : ι} {o : Nat} (howner : (s.parties i).owner = true)
      (hname : s.names (s.parties i).name = some o) : Step s (i, .create) (s.give i (some o))
  | create {i : ι} (howner : (s.parties i).owner = true)
      (hname : s.names (s.parties i).name = none) : Step s (i, .create) (s.make i)
  | attach {i : ι} {o : Nat} (hclient : (s.parties i).owner = false)
      (hname : s.names (s.parties i).name = some o) : Step s (i, .attach) (s.give i (some o))
  | drop (i : ι) : Step s (i, .drop) (s.give i none)

end System

/-! ## What is wanted -/

/-- Owner `i` has the object `o`. -/
def Owns (s : Namespace ι ν) (i : ι) (o : Nat) : Prop :=
  (s.parties i).owner = true ∧ (s.parties i).object = some o

/-- Client `i` has the object `o`. -/
def Uses (s : Namespace ι ν) (i : ι) (o : Nat) : Prop :=
  (s.parties i).owner = false ∧ (s.parties i).object = some o

structure Agree (s : Namespace ι ν) : Prop where
  leads : ∀ i o, s.Owns i o → s.names (s.parties i).name = some o
  alone : ∀ i j o, s.Owns i o → s.Owns j o → i = j
  clients : ∀ i j o o', s.Owns i o → s.Uses j o' → (s.parties j).name = (s.parties i).name → o' = o

/-- No owner but `i` has an object under the name of `i`. -/
def Unowned (s : Namespace ι ν) (i : ι) : Prop :=
  ∀ j o, s.Owns j o → (s.parties j).name = (s.parties i).name → j = i

/-- What a client of the name has, the name leads to. -/
def UpToDate (s : Namespace ι ν) (i : ι) : Prop :=
  ∀ j o, s.Uses j o → (s.parties j).name = (s.parties i).name → s.names (s.parties i).name = some o

/-- The condition on a step. -/
def Apart (s : Namespace ι ν) : ι × Act → Prop
  | (i, .unlink) => ∀ j o, s.Owns j o → (s.parties j).name ≠ (s.parties i).name
  | (i, .create) => s.Unowned i ∧ s.UpToDate i
  | (_, .attach) | (_, .drop) => True

/-! ## Who has what after a step -/

theorem unowned_of_only {s : Namespace ι ν} {i : ι}
    (h : ∀ j, (s.parties j).owner = true → j = i) : s.Unowned i :=
  fun j _ hj _ => h j hj.1

theorem upToDate_of_none {s : Namespace ι ν} {i : ι}
    (h : ∀ j, (s.parties j).owner = false → (s.parties j).object = none) : s.UpToDate i := by
  intro j o hj _
  have hobject := hj.2
  rw [h j hj.1] at hobject
  cases hobject

section Give

variable [DecidableEq ι] {s : Namespace ι ν} {i j : ι} {o : Nat} {x : Option Nat}

@[simp] theorem name_give : ((s.give i x).parties j).name = (s.parties j).name := by
  by_cases h : j = i
  · subst h
    simp [give]
  · simp [give, h]

theorem owns_give : (s.give i x).Owns j o ↔
    (j = i ∧ (s.parties i).owner = true ∧ x = some o) ∨ (j ≠ i ∧ s.Owns j o) := by
  by_cases h : j = i
  · subst h
    simp [give, Owns]
  · simp [give, Owns, h]

theorem uses_give : (s.give i x).Uses j o ↔
    (j = i ∧ (s.parties i).owner = false ∧ x = some o) ∨ (j ≠ i ∧ s.Uses j o) := by
  by_cases h : j = i
  · subst h
    simp [give, Uses]
  · simp [give, Uses, h]

end Give

/-! ## What is true of every run -/

/-- An object has one name, and its number has been given out. -/
structure Sound (s : Namespace ι ν) : Prop where
  injective : ∀ n m o, s.names n = some o → s.names m = some o → n = m
  named : ∀ n o, s.names n = some o → o < s.created
  had : ∀ i o, (s.parties i).object = some o → o < s.created

theorem Sound.give [DecidableEq ι] {s : Namespace ι ν} {i : ι} {x : Option Nat} (h : s.Sound)
    (hx : ∀ o, x = some o → o < s.created) : (s.give i x).Sound := by
  refine ⟨h.injective, h.named, fun j o hj => ?_⟩
  by_cases hji : j = i
  · subst hji
    simp only [Namespace.give, Function.update_self] at hj
    exact hx o hj
  · simp only [Namespace.give, Function.update_of_ne hji] at hj
    exact h.had j o hj

theorem Sound.unlink [DecidableEq ν] {s : Namespace ι ν} (h : s.Sound) (n : ν) :
    (s.point n none).Sound := by
  have hold : ∀ m o, (s.point n none).names m = some o → s.names m = some o := by
    intro m o hm
    by_cases hmn : m = n
    · subst hmn
      simp [point] at hm
    · simpa [point, hmn] using hm
  exact ⟨fun m m' o hm hm' => h.injective m m' o (hold m o hm) (hold m' o hm'),
    fun m o hm => h.named m o (hold m o hm), h.had⟩

/-- A new object, under a name that led to nothing. -/
theorem Sound.point [DecidableEq ν] {s : Namespace ι ν} (h : s.Sound) (n : ν) :
    Sound { s.point n (some s.created) with created := s.created + 1 } := by
  have hcases : ∀ m o, (s.point n (some s.created)).names m = some o →
      m = n ∧ o = s.created ∨ m ≠ n ∧ s.names m = some o := by
    intro m o hm
    by_cases hmn : m = n
    · subst hmn
      simp only [Namespace.point, Function.update_self] at hm
      exact .inl ⟨rfl, (Option.some.inj hm).symm⟩
    · simp only [Namespace.point, Function.update_of_ne hmn] at hm
      exact .inr ⟨hmn, hm⟩
  refine ⟨fun m m' o hm hm' => ?_, fun m o hm => ?_, fun j o hj => ?_⟩
  · rcases hcases m o hm with ⟨rfl, rfl⟩ | ⟨_, hold⟩
    · rcases hcases m' _ hm' with ⟨rfl, _⟩ | ⟨_, hold'⟩
      · rfl
      · exact absurd (h.named _ _ hold') (Nat.lt_irrefl _)
    · rcases hcases m' o hm' with ⟨rfl, rfl⟩ | ⟨_, hold'⟩
      · exact absurd (h.named _ _ hold) (Nat.lt_irrefl _)
      · exact h.injective m m' o hold hold'
  · rcases hcases m o hm with ⟨_, rfl⟩ | ⟨_, hold⟩
    · exact Nat.lt_succ_self _
    · exact Nat.lt_succ_of_lt (h.named m o hold)
  · exact Nat.lt_succ_of_lt (h.had j o hj)

/-! ## One step -/

theorem Agree.unlink_iff [DecidableEq ν] {s : Namespace ι ν} {i : ι} (h : s.Agree) :
    (s.point (s.parties i).name none).Agree ↔ s.Apart (i, .unlink) := by
  constructor
  · intro hagree j o hj heq
    have hleads := hagree.leads j o hj
    simp [Namespace.point, heq] at hleads
  · intro hother
    refine ⟨fun j o hj => ?_, h.alone, h.clients⟩
    simp only [Namespace.point, Function.update_of_ne (hother j o hj)]
    exact h.leads j o hj

section Give

variable [DecidableEq ι] {s : Namespace ι ν} {i : ι} {o : Nat}

/-- **An owner gets an object**, and its name leads to it, as another name may not. -/
theorem Agree.give_iff (h : s.Agree) (howner : (s.parties i).owner = true)
    (hown : ∀ j, s.Owns j o → (s.parties j).name = (s.parties i).name) {names : ν → Option Nat}
    (hname : names (s.parties i).name = some o)
    (hnames : ∀ n, n ≠ (s.parties i).name → names n = s.names n) (created : Nat) :
    (Namespace.give ⟨names, created, s.parties⟩ i (some o)).Agree ↔
      s.Unowned i ∧ ∀ j o', s.Uses j o' → (s.parties j).name = (s.parties i).name → o' = o := by
  have howns : ∀ j o', (Namespace.give ⟨names, created, s.parties⟩ i (some o)).Owns j o' ↔
      (j = i ∧ o' = o) ∨ (j ≠ i ∧ s.Owns j o') := by
    intro j o'
    refine owns_give.trans ?_
    show (j = i ∧ (s.parties i).owner = true ∧ some o = some o') ∨ (j ≠ i ∧ s.Owns j o') ↔ _
    simp only [howner, true_and, Option.some.injEq, @eq_comm _ o]
  have huses : ∀ j o', (Namespace.give ⟨names, created, s.parties⟩ i (some o)).Uses j o' ↔
      s.Uses j o' := by
    intro j o'
    rw [uses_give]
    constructor
    · rintro (⟨_, hclient, _⟩ | ⟨_, hj⟩)
      · exact absurd (howner.symm.trans hclient) (by decide)
      · exact hj
    · intro hj
      refine .inr ⟨?_, hj⟩
      rintro rfl
      exact absurd (howner.symm.trans hj.1) (by decide)
  constructor
  · rintro ⟨hleads, halone, hclients⟩
    simp only [howns, huses, name_give] at hleads halone hclients
    constructor
    · intro j o' hj heq
      by_contra hji
      have ho := hleads j o' (.inr ⟨hji, hj⟩)
      simp only [Namespace.give, heq, hname, Option.some.injEq] at ho
      exact hji (halone j i o (.inr ⟨hji, ho ▸ hj⟩) (.inl ⟨rfl, rfl⟩))
    · intro j o' hj heq
      exact hclients i j o o' (.inl ⟨rfl, rfl⟩) hj heq
  · rintro ⟨hunowned, hclients⟩
    constructor
    all_goals simp only [howns, huses, name_give]
    · rintro j o' (⟨rfl, rfl⟩ | ⟨hji, hj⟩)
      · exact hname
      · have hne : (s.parties j).name ≠ (s.parties i).name := fun heq => hji (hunowned j o' hj heq)
        exact (hnames _ hne).trans (h.leads j o' hj)
    · -- nobody else has `o`: it would be an owner under this name
      have hshares : ∀ k, s.Owns k o → k = i := fun k hk => hunowned k o hk (hown k hk)
      rintro j k o' (⟨rfl, rfl⟩ | ⟨hji, hj⟩) (⟨rfl, ho⟩ | ⟨hki, hk⟩)
      · rfl
      · exact absurd (hshares k hk) hki
      · exact absurd (hshares j (ho ▸ hj)) hji
      · exact h.alone j k o' hj hk
    · rintro j k o' o'' (⟨rfl, rfl⟩ | ⟨hji, hj⟩) hk heq
      · exact hclients k o'' hk heq
      · exact h.clients j k o' o'' hj hk heq

/-- A client finds what the owner of the name has. -/
theorem Agree.attach (h : s.Agree) (hclient : (s.parties i).owner = false)
    (hname : s.names (s.parties i).name = some o) : (s.give i (some o)).Agree := by
  have howns : ∀ j o', (s.give i (some o)).Owns j o' → s.Owns j o' := by
    intro j o' hj
    rcases owns_give.mp hj with ⟨_, howner, _⟩ | ⟨_, hj⟩
    · exact absurd (hclient.symm.trans howner) (by decide)
    · exact hj
  refine ⟨fun j o' hj => ?_, fun j k o' hj hk => ?_, fun j k o' o'' hj hk heq => ?_⟩
  · rw [name_give]
    exact h.leads j o' (howns j o' hj)
  · exact h.alone j k o' (howns j o' hj) (howns k o' hk)
  · rw [name_give, name_give] at heq
    rcases uses_give.mp hk with ⟨rfl, _, ho⟩ | ⟨_, hk⟩
    · have hleads := h.leads j o' (howns j o' hj)
      rw [← heq, hname, ho] at hleads
      exact Option.some.inj hleads
    · exact h.clients j k o' o'' (howns j o' hj) hk heq

theorem Agree.drop (h : s.Agree) (i : ι) : (s.give i none).Agree := by
  have howns : ∀ j o', (s.give i none).Owns j o' → s.Owns j o' := by
    intro j o' hj
    rcases owns_give.mp hj with ⟨_, _, ho⟩ | ⟨_, hj⟩
    · cases ho
    · exact hj
  refine ⟨fun j o' hj => ?_, fun j k o' hj hk => ?_, fun j k o' o'' hj hk heq => ?_⟩
  · rw [name_give]
    exact h.leads j o' (howns j o' hj)
  · exact h.alone j k o' (howns j o' hj) (howns k o' hk)
  · rw [name_give, name_give] at heq
    rcases uses_give.mp hk with ⟨_, _, ho⟩ | ⟨_, hk⟩
    · cases ho
    · exact h.clients j k o' o'' (howns j o' hj) hk heq

end Give

/-! ## Every run -/

section Rules

variable [DecidableEq ι] [DecidableEq ν] {s t : Namespace ι ν} {l : ι × Act}

theorem Sound.step (h : s.Sound) (hst : Step s l t) : t.Sound := by
  cases hst with
  | unlink howner => exact h.unlink _
  | opened howner hname | attach hclient hname =>
    refine h.give fun o ho => ?_
    rw [← Option.some.inj ho]
    exact h.named _ _ hname
  | create howner hname =>
    refine (h.point _).give fun o ho => ?_
    rw [← Option.some.inj ho]
    exact Nat.lt_succ_self _
  | drop i => exact h.give fun o ho => nomatch ho

/-- **Exactly the steps that keep them agreed.** -/
theorem agree_step_iff (hsound : s.Sound) (h : s.Agree) (hst : Step s l t) :
    t.Agree ↔ s.Apart l := by
  cases hst with
  | unlink howner => exact h.unlink_iff
  | @opened i o howner hname =>
    have hown : ∀ j, s.Owns j o → (s.parties j).name = (s.parties i).name :=
      fun j hj => hsound.injective _ _ _ (h.leads j o hj) hname
    refine (h.give_iff howner hown hname (fun _ _ => rfl) s.created).trans ?_
    simp only [Apart, UpToDate, hname, Option.some.injEq, eq_comm]
  | @create i howner hname =>
    have hown : ∀ j, s.Owns j s.created → (s.parties j).name = (s.parties i).name :=
      fun j hj => absurd (hsound.had j _ hj.2) (Nat.lt_irrefl _)
    refine (h.give_iff howner hown (Function.update_self ..)
      (fun n hn => Function.update_of_ne hn ..) (s.created + 1)).trans (and_congr_right' ?_)
    -- a client has no object that is yet to be created
    refine forall₄_congr fun j o hj heq => iff_of_false (fun ho => ?_) fun hleads => ?_
    · subst ho
      exact absurd (hsound.had j _ hj.2) (Nat.lt_irrefl _)
    · rw [hname] at hleads
      cases hleads
  | attach hclient hname => exact iff_of_true (h.attach hclient hname) trivial
  | drop i => exact iff_of_true (h.drop i) trivial

end Rules

end Namespace
end Lib
end Cab403
