import Cab403.Lib.CString
import Mathlib.Data.List.Infix

/-!
# Basic regular expressions

What `regcomp` reads when its flags are `0`, and what `regexec` then answers. In the basic
syntax `*` repeats the one-character expression before it, `^` and `$` anchor at the two ends,
and every other character stands for itself: `?`, `+`, `{` and `(` too, which are operators of
the extended syntax only.

The fragment is the one without groups, intervals and character classes; a pattern that has one
of them does not compile here.

There are two readings of a compiled pattern. `regexec` runs it on a string; `Denotes` says which
strings its pieces stand for. `regexec_iff` is their agreement.
-/

namespace Cab403
namespace Lib

/-! ## Patterns -/

/-- A one-character expression. -/
inductive Atom where
  | char (c : Char)
  | any
  | bracket (negated : Bool) (ranges : List (Char × Char))
  deriving DecidableEq, Repr

def Atom.admits : Atom → Char → Bool
  | .char c, d => d == c
  | .any, _ => true
  | .bracket negated ranges, d => ranges.any (fun r => r.1 ≤ d && d ≤ r.2) != negated

/-- A one-character expression, once or any number of times. -/
structure Piece where
  atom : Atom
  star : Bool
  deriving DecidableEq, Repr

structure Regex where
  atStart : Bool
  pieces : List Piece
  atEnd : Bool
  deriving DecidableEq, Repr

/-! ## Compiling -/

/-- What stands between `[` and `]`: characters and ranges. -/
def ranges : CString → List (Char × Char)
  | c :: '-' :: d :: cs => (c, d) :: ranges cs
  | c :: cs => (c, c) :: ranges cs
  | [] => []

/-- The bracket expression behind `[`, and what follows its `]`. A `]` that comes first is a
member. -/
def bracketAtom (s : CString) : Option (Atom × CString) :=
  let (negated, s) := if s.head? = some '^' then (true, s.drop 1) else (false, s)
  let first := s.take 1
  let inner := (s.drop 1).takeWhile (· ≠ ']')
  match (s.drop 1).dropWhile (· ≠ ']') with
  | ']' :: rest => if '[' ∈ first ++ inner then none
    else some (.bracket negated (ranges (first ++ inner)), rest)
  | _ => none

/-- The expression a pattern starts with, and what follows it. -/
def atom : CString → Option (Atom × CString)
  | '[' :: s => bracketAtom s
  | '\\' :: c :: s => if c ∈ ".[\\*^$".toList then some (.char c, s) else none
  | '\\' :: [] => none
  | '.' :: s => some (.any, s)
  | c :: s => some (.char c, s)
  | [] => none

/-- The pieces of a pattern, and whether a `$` ends it. `fuel` bounds the number of pieces. -/
def pieces : Nat → CString → Option (List Piece × Bool)
  | _, [] => some ([], false)
  | _, ['$'] => some ([], true)
  | 0, _ => none
  | fuel + 1, s => do
    let (a, s) ← atom s
    let (ps, atEnd) ← pieces fuel (s.dropWhile (· = '*'))
    return (⟨a, s.head? = some '*'⟩ :: ps, atEnd)

/-- `regcomp(&r, pattern, 0)` -/
def regcomp (pattern : CString) : Option Regex := do
  let (atStart, s) := if pattern.head? = some '^' then (true, pattern.drop 1) else (false, pattern)
  let (ps, atEnd) ← pieces s.length s
  return ⟨atStart, ps, atEnd⟩

/-! ## Matching -/

/-- As many characters as the star wants, then the rest of the pattern. -/
def matchStar (a : Atom) (next : CString → Bool) : CString → Bool
  | [] => next []
  | c :: cs => next (c :: cs) || (a.admits c && matchStar a next cs)

def matchOne (a : Atom) (next : CString → Bool) : CString → Bool
  | [] => false
  | c :: cs => a.admits c && next cs

/-- Do the pieces match here? -/
def matchHere (atEnd : Bool) : List Piece → CString → Bool
  | [], s => !atEnd || s.isEmpty
  | p :: ps, s =>
    if p.star then matchStar p.atom (matchHere atEnd ps) s
    else matchOne p.atom (matchHere atEnd ps) s

/-- `regexec(&r, s, 0, NULL, 0) == 0` -/
def regexec (r : Regex) (s : CString) : Bool :=
  if r.atStart then matchHere r.atEnd r.pieces s
  else s.tails.any (matchHere r.atEnd r.pieces)

/-! ## What a pattern stands for -/

def Piece.Denotes (p : Piece) (s : CString) : Prop :=
  (∀ c ∈ s, p.atom.admits c = true) ∧ (p.star = true ∨ s.length = 1)

/-- One string for each piece, one after the other. -/
def Denotes : List Piece → CString → Prop
  | [], s => s = []
  | p :: ps, s => ∃ u v, s = u ++ v ∧ p.Denotes u ∧ Denotes ps v

theorem denotes_cons {p : Piece} {ps : List Piece} {s : CString} :
    Denotes (p :: ps) s ↔ ∃ u v, s = u ++ v ∧ p.Denotes u ∧ Denotes ps v :=
  Iff.rfl

theorem Piece.denotes_one {a : Atom} {s : CString} :
    (Piece.mk a false).Denotes s ↔ ∃ c, s = [c] ∧ a.admits c = true := by
  constructor
  · intro h
    obtain ⟨hadmits, hstar | hlength⟩ := h
    · cases hstar
    · obtain ⟨c, rfl⟩ := List.length_eq_one_iff.mp hlength
      exact ⟨c, rfl, hadmits c List.mem_cons_self⟩
  · intro h
    obtain ⟨c, rfl, hc⟩ := h
    refine ⟨?_, .inr rfl⟩
    simpa using hc

theorem Piece.denotes_star {a : Atom} {s : CString} :
    (Piece.mk a true).Denotes s ↔ ∀ c ∈ s, a.admits c = true :=
  ⟨fun h => h.1, fun h => ⟨h, .inl rfl⟩⟩

theorem matchStar_iff {a : Atom} {next : CString → Bool} {s : CString} :
    matchStar a next s = true ↔
      ∃ u v, s = u ++ v ∧ (Piece.mk a true).Denotes u ∧ next v = true := by
  simp only [Piece.denotes_star]
  induction s with
  | nil =>
    constructor
    · intro h
      exact ⟨[], [], rfl, by simp, h⟩
    · intro h
      obtain ⟨u, v, happ, _, hnext⟩ := h
      obtain ⟨rfl, rfl⟩ := List.append_eq_nil_iff.mp happ.symm
      exact hnext
  | cons c cs ih =>
    simp only [matchStar, Bool.or_eq_true, Bool.and_eq_true, ih]
    constructor
    · intro h
      rcases h with hnext | ⟨hc, u, v, rfl, hu, hnext⟩
      · exact ⟨[], c :: cs, rfl, by simp, hnext⟩
      · exact ⟨c :: u, v, rfl, by simpa [hc] using hu, hnext⟩
    · intro h
      obtain ⟨u, v, happ, hu, hnext⟩ := h
      cases u with
      | nil => exact .inl (happ ▸ hnext)
      | cons d u =>
        obtain ⟨rfl, rfl⟩ := List.cons.inj happ
        refine .inr ⟨hu c List.mem_cons_self, u, v, rfl, ?_, hnext⟩
        intro d hd
        exact hu d (List.mem_cons_of_mem _ hd)

theorem matchOne_iff {a : Atom} {next : CString → Bool} {s : CString} :
    matchOne a next s = true ↔
      ∃ u v, s = u ++ v ∧ (Piece.mk a false).Denotes u ∧ next v = true := by
  simp only [Piece.denotes_one]
  cases s with
  | nil => simp [matchOne]
  | cons c cs =>
    simp only [matchOne, Bool.and_eq_true]
    constructor
    · intro h
      exact ⟨[c], cs, rfl, ⟨c, rfl, h.1⟩, h.2⟩
    · intro h
      obtain ⟨u, v, happ, ⟨d, rfl, hd⟩, hnext⟩ := h
      obtain ⟨rfl, rfl⟩ := List.cons.inj happ
      exact ⟨hd, hnext⟩

theorem matchHere_iff {atEnd : Bool} {ps : List Piece} {s : CString} :
    matchHere atEnd ps s = true ↔
      ∃ u v, s = u ++ v ∧ Denotes ps u ∧ (atEnd = true → v = []) := by
  induction ps generalizing s with
  | nil =>
    have hend : matchHere atEnd [] s = true ↔ (atEnd = true → s = []) := by
      cases atEnd <;> simp [matchHere]
    rw [hend]
    constructor
    · intro h
      exact ⟨[], s, rfl, rfl, h⟩
    · intro h
      obtain ⟨u, v, rfl, rfl, hv⟩ := h
      exact hv
  | cons p ps ih =>
    obtain ⟨a, star⟩ := p
    have hpiece : matchHere atEnd (⟨a, star⟩ :: ps) s = true ↔
        ∃ u v, s = u ++ v ∧ (Piece.mk a star).Denotes u ∧ matchHere atEnd ps v = true := by
      cases star with
      | true => exact matchStar_iff
      | false => exact matchOne_iff
    rw [hpiece]
    constructor
    · intro h
      obtain ⟨u, v, rfl, hu, hv⟩ := h
      obtain ⟨w, x, rfl, hw, hx⟩ := ih.mp hv
      exact ⟨u ++ w, x, (List.append_assoc u w x).symm, ⟨u, w, rfl, hu, hw⟩, hx⟩
    · intro h
      obtain ⟨_, x, rfl, ⟨u, w, rfl, hu, hw⟩, hx⟩ := h
      exact ⟨u, w ++ x, List.append_assoc u w x, hu, ih.mpr ⟨w, x, rfl, hw, hx⟩⟩

/-- **The matcher finds what the pattern stands for**: somewhere in the string, and at the ends
it is anchored to. -/
theorem regexec_iff {r : Regex} {s : CString} :
    regexec r s = true ↔ ∃ w u v, s = w ++ (u ++ v) ∧ (r.atStart = true → w = []) ∧
      Denotes r.pieces u ∧ (r.atEnd = true → v = []) := by
  obtain ⟨atStart, ps, atEnd⟩ := r
  cases atStart with
  | true =>
    show matchHere atEnd ps s = true ↔ _
    rw [matchHere_iff]
    constructor
    · intro h
      obtain ⟨u, v, hs, hu, hv⟩ := h
      exact ⟨[], u, v, hs, fun _ => rfl, hu, hv⟩
    · intro h
      obtain ⟨w, u, v, hs, hw, hu, hv⟩ := h
      rw [hw rfl] at hs
      exact ⟨u, v, hs, hu, hv⟩
  | false =>
    show s.tails.any (matchHere atEnd ps) = true ↔ _
    simp only [List.any_eq_true, List.mem_tails, matchHere_iff]
    constructor
    · intro h
      obtain ⟨_, ⟨w, hs⟩, u, v, rfl, hu, hv⟩ := h
      exact ⟨w, u, v, hs.symm, nofun, hu, hv⟩
    · intro h
      obtain ⟨w, u, v, hs, _, hu, hv⟩ := h
      exact ⟨u ++ v, ⟨w, hs.symm⟩, u, v, rfl, hu, hv⟩

end Lib
end Cab403
