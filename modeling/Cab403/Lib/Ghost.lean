import Cab403.Lib.Monitor

/-!
# Ghost state

A program can be written over a state that holds more than the record: its locals, or a history
kept for the sake of a proof. `Code.Over` says that one program is another with such a state
added, and `Code.Over.exec` that it does then what the other does.
-/

namespace Cab403
namespace Lib

variable {κ S T : Type}

/-- `c` is `d` over a larger state, of which `part` is what `d` works on. Its own stores are
*silent*: they leave that part alone. -/
inductive Code.Over (part : T → S) : Code κ T → Code κ S → Prop
  | exit (ok : Bool) : Over part (.exit ok) (.exit ok)
  | print {message : String} {c : Code κ T} {d : Code κ S} (h : Over part c d) :
      Over part (.print message c) (.print message d)
  | load {c : T → Code κ T} {d : S → Code κ S} (h : ∀ t, Over part (c t) (d (part t))) :
      Over part (.load c) (.load d)
  | lock {c : Code κ T} {d : Code κ S} (h : Over part c d) : Over part (.lock c) (.lock d)
  | store {f : T → T} {g : S → S} {c : Code κ T} {d : Code κ S}
      (hf : ∀ t, part (f t) = g (part t)) (h : Over part c d) : Over part (.store f c) (.store g d)
  | silent {f : T → T} {c : Code κ T} {d : Code κ S} (hf : ∀ t, part (f t) = part t)
      (h : Over part c d) : Over part (.store f c) d
  | signal {v : κ} {c : Code κ T} {d : Code κ S} (h : Over part c d) :
      Over part (.signal v c) (.signal v d)
  | unlock {c : Code κ T} {d : Code κ S} (h : Over part c d) : Over part (.unlock c) (.unlock d)

def Outcome.part (part : T → S) (o : Outcome T) : Outcome S := ⟨o.ok, part o.mem, o.output⟩

theorem Code.Over.ite {part : T → S} {p : Prop} [Decidable p] {c c' : Code κ T} {d d' : Code κ S}
    (h : c.Over part d) (h' : c'.Over part d') :
    (if p then c else c').Over part (if p then d else d') := by
  by_cases hp : p
  · rw [if_pos hp, if_pos hp]
    exact h
  · rw [if_neg hp, if_neg hp]
    exact h'

/-- **Erasing the ghost state**: what is left of a run is the other program's run. -/
theorem Code.Over.exec {part : T → S} {c : Code κ T} {d : Code κ S} (h : c.Over part d) (t : T) :
    d.exec (part t) = (c.exec t).map (Outcome.part part) := by
  induction h generalizing t with
  | exit ok => rfl
  | @print message c d _ ih =>
    show (d.exec (part t)).map _ = ((c.exec t).map _).map _
    rw [ih, Option.map_map, Option.map_map]
    rfl
  | load _ ih => exact ih t t
  | lock _ ih => exact ih t
  | @store f g c d hf _ ih =>
    show d.exec (g (part t)) = (c.exec (f t)).map _
    rw [← hf]
    exact ih (f t)
  | @silent f c d hf _ ih =>
    show d.exec (part t) = (c.exec (f t)).map _
    rw [← hf]
    exact ih (f t)
  | signal _ ih => exact ih t
  | unlock _ ih => exact ih t

end Lib
end Cab403
