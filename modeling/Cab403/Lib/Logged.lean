import Mathlib.Logic.Basic

/-!
# Computations with a log

A computation that notes what it does, in order, and has a value unless it stops on the way. What
it has noted before it stops is in the log all the same, so a property of everything it does,
`OnlyLogs`, is one of every run, finished or not.

Where a computation only stops at something it should not have done (`StopsOnly`), everything that
follows is done, and what it logs is a conjunction (`StopsOnly.onlyLogs_bind_iff`).
-/

namespace Cab403
namespace Lib

variable {ε α β : Type}

structure Logged (ε α : Type) where
  log : List ε
  value : Option α

namespace Logged

instance : Monad (Logged ε) where
  pure a := ⟨[], some a⟩
  bind m f :=
    match m.value with
    | none => ⟨m.log, none⟩
    | some a => ⟨m.log ++ (f a).log, (f a).value⟩

/-- The run ends here, or goes on for ever and does nothing. -/
def stop : Logged ε α := ⟨[], none⟩

/-- Everything it does is something `P`. -/
def OnlyLogs (P : ε → Prop) (m : Logged ε α) : Prop := ∀ e ∈ m.log, P e

variable {P : ε → Prop} {m : Logged ε α} {f : α → Logged ε β}

@[simp] theorem value_pure (a : α) : (pure a : Logged ε α).value = some a := rfl

@[simp] theorem value_stop : (stop : Logged ε α).value = none := rfl

@[simp] theorem value_bind : (m >>= f).value = m.value.bind fun a => (f a).value := by
  obtain ⟨log, value⟩ := m
  cases value <;> rfl

@[simp] theorem onlyLogs_pure (a : α) : OnlyLogs P (pure a : Logged ε α) := nofun

@[simp] theorem onlyLogs_stop : OnlyLogs P (stop : Logged ε α) := nofun

/-- **One after the other.** -/
theorem onlyLogs_bind :
    OnlyLogs P (m >>= f) ↔ OnlyLogs P m ∧ ∀ a, m.value = some a → OnlyLogs P (f a) := by
  obtain ⟨log, value⟩ := m
  cases value with
  | none =>
    constructor
    · intro h
      exact ⟨h, nofun⟩
    · intro h
      exact h.1
  | some a =>
    constructor
    · intro h
      refine ⟨fun e he => h e (List.mem_append_left _ he), ?_⟩
      intro a' ha' e he
      cases ha'
      exact h e (List.mem_append_right _ he)
    · intro h e he
      rcases List.mem_append.mp he with hmem | hmem
      · exact h.1 e hmem
      · exact h.2 a rfl e hmem

/-- As long as it does nothing but `P`, it does not stop. -/
def StopsOnly (P : ε → Prop) (m : Logged ε α) : Prop := OnlyLogs P m → ∃ a, m.value = some a

theorem stopsOnly_pure (a : α) : StopsOnly P (pure a : Logged ε α) := fun _ => ⟨a, rfl⟩

theorem StopsOnly.bind (hm : StopsOnly P m) (hf : ∀ a, StopsOnly P (f a)) :
    StopsOnly P (m >>= f) := by
  intro hlogs
  obtain ⟨hfirst, hrest⟩ := onlyLogs_bind.mp hlogs
  obtain ⟨a, ha⟩ := hm hfirst
  obtain ⟨b, hb⟩ := hf a (hrest a ha)
  exact ⟨b, by rw [value_bind, ha]; exact hb⟩

theorem StopsOnly.onlyLogs_bind_iff {Q : Prop} (hm : StopsOnly P m)
    (hf : ∀ a, OnlyLogs P (f a) ↔ Q) : OnlyLogs P (m >>= f) ↔ OnlyLogs P m ∧ Q := by
  rw [onlyLogs_bind]
  refine and_congr_right fun hlogs => ?_
  obtain ⟨a, ha⟩ := hm hlogs
  constructor
  · intro h
    exact (hf a).mp (h a ha)
  · intro hQ b _
    exact (hf b).mpr hQ

end Logged
end Lib
end Cab403
