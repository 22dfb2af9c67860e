import Mathlib.Data.List.Infix

/-!
# Frames

A stream cut into frames, each a header of a fixed length that says how long the body behind it is.
`Format.frames n s` is what `n` reads of a frame make of `s`: the bodies of at most `n` frames and
what is behind them. `Format.Cut s bodies behind` says the same of a stream that may go on, as a
derivation: that is what a reader that is handed the stream piece by piece keeps, and `Cut.frames`
is the way back.
-/

namespace Cab403
namespace Lib

variable {α : Type*}

/-- The length of a header, and the length of the body that a header announces. -/
structure Format (α : Type*) where
  header : ℕ
  size : List α → ℕ

namespace Format

variable {f : Format α} {s t body behind : List α} {bodies : List (List α)}

/-- The body of the first frame and what is behind it, if the whole frame is there. -/
def next (f : Format α) (s : List α) : Option (List α × List α) :=
  let len := f.size (s.take f.header)
  if f.header + len ≤ s.length then
    some ((s.drop f.header).take len, s.drop (f.header + len))
  else none

def frames (f : Format α) : ℕ → List α → List (List α) × List α
  | 0, s => ([], s)
  | n + 1, s =>
    match f.next s with
    | none => ([], s)
    | some (body, behind) => (body :: (frames f n behind).1, (frames f n behind).2)

/-- `s` is frames with these bodies, and `behind` is behind them. -/
inductive Cut (f : Format α) : List α → List (List α) → List α → Prop
  | nil (s : List α) : Cut f s [] s
  | cons {head body s behind : List α} {bodies : List (List α)} (hhead : head.length = f.header)
      (hbody : body.length = f.size head) :
      Cut f s bodies behind → Cut f (head ++ (body ++ s)) (body :: bodies) behind

/-! ## One frame -/

theorem next_append {head : List α} (hhead : head.length = f.header)
    (hbody : body.length = f.size head) (s : List α) :
    f.next (head ++ (body ++ s)) = some (body, s) := by
  have htake : (head ++ (body ++ s)).take f.header = head := by
    rw [← hhead, List.take_left]
  have hdrop : (head ++ (body ++ s)).drop f.header = body ++ s := by
    rw [← hhead, List.drop_left]
  unfold next
  simp only [htake, ← List.drop_drop, hdrop]
  rw [if_pos, ← hbody, List.take_left, List.drop_left]
  simp only [List.length_append, hhead, hbody]
  omega

/-- Some of the header is missing. -/
theorem next_of_header (h : s.length < f.header) : f.next s = none :=
  if_neg fun hwhole => absurd (Nat.le_trans (Nat.le_add_right _ _) hwhole) (Nat.not_le.mpr h)

/-- Some of the body is missing. -/
theorem next_of_body {head : List α} (hhead : head.length = f.header)
    (hbody : body.length < f.size head) : f.next (head ++ body) = none := by
  have htake : (head ++ body).take f.header = head := by
    rw [← hhead, List.take_left]
  unfold next
  simp only [htake]
  apply if_neg
  rw [List.length_append]
  omega

theorem frames_of_next_none (h : f.next s = none) (n : ℕ) : f.frames n s = ([], s) := by
  cases n with
  | zero => rfl
  | succ n => simp only [frames, h]

/-! ## Many -/

namespace Cut

theorem append (h : f.Cut s bodies behind) (t : List α) : f.Cut (s ++ t) bodies (behind ++ t) := by
  induction h with
  | nil s => exact .nil (s ++ t)
  | cons hhead hbody _ ih =>
    rw [List.append_assoc, List.append_assoc]
    exact .cons hhead hbody ih

/-- One more frame, at the end of all there is. -/
theorem concat {head : List α} (h : f.Cut s bodies (head ++ body)) (hhead : head.length = f.header)
    (hbody : body.length = f.size head) : f.Cut s (bodies ++ [body]) [] := by
  generalize hbehind : head ++ body = behind at h
  induction h with
  | nil s =>
    subst hbehind
    have hcut := Cut.cons hhead hbody (.nil [])
    rwa [List.append_nil] at hcut
  | cons hhead' hbody' _ ih => exact .cons hhead' hbody' (ih hbehind)

/-- **Reading on.** After the frames that are cut off, `n` more are read behind them. -/
theorem frames (h : f.Cut s bodies behind) (n : ℕ) :
    f.frames (bodies.length + n) s =
      (bodies ++ (f.frames n behind).1, (f.frames n behind).2) := by
  induction h with
  | nil s =>
    rw [List.length_nil, Nat.zero_add]
    rfl
  | @cons head body s behind bodies hhead hbody _ ih =>
    rw [List.length_cons, Nat.succ_add, Nat.succ_eq_add_one, Format.frames,
      next_append hhead hbody]
    simp only [ih, List.cons_append]

end Cut

end Format

end Lib
end Cab403
