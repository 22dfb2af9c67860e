import Mathlib.Data.List.Basic

/-!
# A loop that serves

A server takes one request after the other. A round of its loop answers the request and goes on with
what it keeps, or it ends the loop. What is kept is of no account if every round does the same
whatever is kept (`Answers`); then a run is a matter of the requests alone: each is answered as if
it were the only one, up to the first that is not served (`Answers.serve_eq`).
-/

namespace Cab403
namespace Lib

/-- What one round comes to. -/
inductive Round (σ ω η : Type*) where
  | answers (answer : ω) (kept : σ)
  | ends (how : η)

variable {σ ε ω η : Type*}

/-- The answers, and how the loop has ended, if it has. -/
def serve (round : σ → ε → Round σ ω η) : σ → List ε → List ω × Option η
  | _, [] => ([], none)
  | kept, e :: es =>
    match round kept e with
    | .answers a kept =>
      let (answers, how) := serve round kept es
      (a :: answers, how)
    | .ends how => ([], some how)

/-- A round answers the requests that are `served`, and ends with the others, whatever it has kept
with `Inv`. -/
structure Answers (Inv : σ → Prop) (round : σ → ε → Round σ ω η) (served : ε → Bool)
    (answer : ε → ω) (ending : ε → η) : Prop where
  answers : ∀ kept e, Inv kept → served e = true →
    ∃ kept', round kept e = .answers (answer e) kept' ∧ Inv kept'
  ends : ∀ kept e, Inv kept → served e = false → round kept e = .ends (ending e)

/-- **Every run.** -/
theorem Answers.serve_eq {Inv : σ → Prop} {round : σ → ε → Round σ ω η} {served : ε → Bool}
    {answer : ε → ω} {ending : ε → η} (h : Answers Inv round served answer ending) {kept : σ}
    (hkept : Inv kept) (es : List ε) :
    serve round kept es =
      ((es.takeWhile served).map answer, (es.dropWhile served).head?.map ending) := by
  induction es generalizing kept with
  | nil => rfl
  | cons e es ih =>
    cases hserved : served e with
    | true =>
      obtain ⟨kept', hround, hkept'⟩ := h.answers kept e hkept hserved
      simp only [serve, hround, ih hkept', List.takeWhile_cons_of_pos hserved, List.map_cons,
        List.dropWhile_cons_of_pos hserved]
    | false =>
      have hnot : ¬ served e = true := by simp [hserved]
      simp only [serve, h.ends kept e hkept hserved, List.takeWhile_cons_of_neg hnot,
        List.map_nil, List.dropWhile_cons_of_neg hnot, List.head?_cons, Option.map_some]

end Lib
end Cab403
