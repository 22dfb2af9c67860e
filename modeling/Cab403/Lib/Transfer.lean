import Cab403.Lib.Trace
import Mathlib.Data.List.Basic

/-!
# Looped transfers

A writer hands a list of buffers to a stream and a reader takes from it what it wants, each in a
loop around a system call that moves at least one element and at most what it is asked to. Nothing
relates the counts of the two sides, and they may move in any order.

The writer is its calls: what is left of the current one, and those behind it. The reader is any
machine, `Reader`, that says how much its current call asks for and what it does with what it gets.
`Feeds I s` says that the reader is where it should be with what has not reached it yet, in terms
of a predicate `I` of the instance; if `I` is kept by handing over any part of what is wanted
(`Reader.Feeding`), it is kept by every step, and a run that cannot go on has handed over
everything (`Feeds.of_stuck`). The length of every run is bounded (`Feeds.length_le`).
-/

namespace Cab403
namespace Lib
namespace Transfer

variable {α σ : Type*}

/-! ## The system -/

/-- How much the reader asks for, nothing if it does not read, and what it does with elements. -/
structure Reader (α σ : Type*) where
  wants : σ → Nat
  takes : σ → List α → σ

structure State (α σ : Type*) where
  calls : List (List α)
  stream : List α
  reader : σ

/-- A call with nothing left to write is over. -/
def pending (calls : List (List α)) : List (List α) := calls.dropWhile List.isEmpty

inductive Label where
  | write (n : Nat)
  | read (n : Nat)
  deriving DecidableEq, Repr

/-- One system call. -/
inductive Step (r : Reader α σ) (s : State α σ) : Label → State α σ → Prop
  | write {buf : List α} {calls : List (List α)} {n : Nat} (hcall : s.calls = buf :: calls)
      (hpos : 0 < n) (hle : n ≤ buf.length) :
      Step r s (.write n)
        { s with calls := pending (buf.drop n :: calls), stream := s.stream ++ buf.take n }
  | read {n : Nat} (hpos : 0 < n) (hwants : n ≤ r.wants s.reader) (hle : n ≤ s.stream.length) :
      Step r s (.read n)
        { s with stream := s.stream.drop n, reader := r.takes s.reader (s.stream.take n) }

theorem Step.of_eq {r : Reader α σ} {s t t' : State α σ} {l : Label} (h : Step r s l t)
    (ht : t = t') : Step r s l t' :=
  ht ▸ h

/-- Before the first call. -/
def start (calls : List (List α)) (reader : σ) : State α σ := ⟨pending calls, [], reader⟩

/-- What has not reached the reader. -/
def State.unread (s : State α σ) : List α := s.stream ++ s.calls.flatten

/-! ## What is kept -/

/-- `I s l`: in state `s` the reader is to be handed `l`, and nothing after it. -/
structure Reader.Feeding (r : Reader α σ) (I : σ → List α → Prop) : Prop where
  takes : ∀ s front back, I s (front ++ back) → front ≠ [] → front.length ≤ r.wants s →
    I (r.takes s front) back
  wants : ∀ s l, I s l → l ≠ [] → 0 < r.wants s

/-- The first half alone. A reader may then leave some of what it is to be handed where it is. -/
def Reader.Keeps (r : Reader α σ) (I : σ → List α → Prop) : Prop :=
  ∀ s front back, I s (front ++ back) → front ≠ [] → front.length ≤ r.wants s →
    I (r.takes s front) back

/-- The reader is to be handed what has not reached it, and no call of the writer is over. -/
structure Feeds (I : σ → List α → Prop) (s : State α σ) : Prop where
  reader : I s.reader s.unread
  head : ∀ buf ∈ s.calls.head?, buf ≠ []

theorem flatten_pending (calls : List (List α)) : (pending calls).flatten = calls.flatten := by
  induction calls with
  | nil => rfl
  | cons buf calls ih =>
    cases buf with
    | nil => exact ih
    | cons a buf => rfl

theorem head_pending (calls : List (List α)) : ∀ buf ∈ (pending calls).head?, buf ≠ [] := by
  induction calls with
  | nil => nofun
  | cons buf calls ih =>
    cases buf with
    | nil => exact ih
    | cons a buf =>
      intro buf' hbuf
      obtain rfl := Option.some.inj hbuf
      exact List.cons_ne_nil a buf

section Rules

variable {r : Reader α σ} {I : σ → List α → Prop} {s t : State α σ} {l : Label}

theorem feeds_start {calls : List (List α)} {reader : σ} (h : I reader calls.flatten) :
    Feeds I (start calls reader) := by
  refine ⟨?_, head_pending calls⟩
  show I reader ([] ++ (pending calls).flatten)
  rw [List.nil_append, flatten_pending]
  exact h

/-- A write leaves what is unread as it is. -/
theorem unread_write {buf : List α} {calls : List (List α)} {n : Nat}
    (hcall : s.calls = buf :: calls) :
    State.unread { s with calls := pending (buf.drop n :: calls), stream := s.stream ++ buf.take n }
      = s.unread := by
  show s.stream ++ buf.take n ++ (pending (buf.drop n :: calls)).flatten = s.stream ++ _
  rw [flatten_pending, hcall, List.flatten_cons, List.flatten_cons, List.append_assoc,
    ← List.append_assoc (buf.take n), List.take_append_drop]

/-- **One step.** -/
theorem Feeds.step_of_keeps (hr : r.Keeps I) (h : Feeds I s) (hst : Step r s l t) : Feeds I t := by
  cases hst with
  | write hcall hpos hle =>
    refine ⟨?_, head_pending _⟩
    rw [unread_write hcall]
    exact h.reader
  | @read n hpos hwants hle =>
    refine ⟨?_, h.head⟩
    refine hr s.reader _ _ ?_ ?_ ?_
    · show I s.reader (s.stream.take n ++ (s.stream.drop n ++ s.calls.flatten))
      rw [← List.append_assoc, List.take_append_drop]
      exact h.reader
    · intro hnil
      have hlength := congrArg List.length hnil
      rw [List.length_take, List.length_nil] at hlength
      omega
    · rw [List.length_take]
      omega

/-- Steps that may still be taken: an element is written, and read. -/
def State.left (s : State α σ) : Nat := 2 * s.calls.flatten.length + s.stream.length

theorem left_step (hst : Step r s l t) : t.left < s.left := by
  unfold State.left
  cases hst with
  | write hcall hpos hle =>
    simp only [flatten_pending, hcall, List.flatten_cons, List.length_append, List.length_take,
      List.length_drop]
    omega
  | read hpos hwants hle =>
    simp only [List.length_drop]
    omega

theorem Feeds.trace_of_keeps (hr : r.Keeps I) {tr : List (Label × State α σ)}
    (htr : Trace (Step r) s tr) (h : Feeds I s) : Feeds I (lastState s tr) :=
  (htr.allStates (fun _ _ _ hs hst => hs.step_of_keeps hr hst) h).last

theorem Feeds.trace (hr : r.Feeding I) {tr : List (Label × State α σ)}
    (htr : Trace (Step r) s tr) (h : Feeds I s) : Feeds I (lastState s tr) :=
  h.trace_of_keeps hr.takes htr

theorem length_le {tr : List (Label × State α σ)} (htr : Trace (Step r) s tr) :
    tr.length ≤ s.left := by
  have hlower : ∀ (s : State α σ) (l : Label) (t : State α σ) (n : Nat),
      s.left ≤ n → Step r s l t → ∃ m, m < n ∧ t.left ≤ m := by
    intro s l t n hs hst
    exact ⟨t.left, Nat.lt_of_lt_of_le (left_step hst) hs, Nat.le_refl _⟩
  obtain ⟨m, hlength, _⟩ := htr.lowers (I := fun s n => s.left ≤ n) hlower (Nat.le_refl s.left)
  omega

/-- A writer that cannot go on has written everything. -/
theorem Feeds.calls_of_stuck (h : Feeds I s) (hstuck : ∀ l t, ¬ Step r s l t) : s.calls = [] := by
  cases hcall : s.calls with
  | nil => rfl
  | cons buf calls =>
    have hbuf : buf ≠ [] := h.head buf (by rw [hcall]; rfl)
    exact absurd (.write hcall Nat.one_pos (List.length_pos_iff.mpr hbuf)) (hstuck (.write 1) _)

/-- A reader that cannot go on has nothing left to take, or wants nothing more. -/
theorem stream_of_stuck (hstuck : ∀ l t, ¬ Step r s l t) (hwants : 0 < r.wants s.reader) :
    s.stream = [] := by
  by_contra hne
  exact hstuck (.read 1) _ (.read Nat.one_pos hwants (List.length_pos_iff.mpr hne))

/-- Nothing to write and nothing to read. -/
theorem stuck_of_drained (hcalls : s.calls = []) (hstream : s.stream = []) :
    ∀ l t, ¬ Step r s l t := by
  intro l t hst
  cases hst with
  | write hcall hpos hle =>
    rw [hcalls] at hcall
    cases hcall
  | read hpos hwants hle =>
    rw [hstream] at hle
    exact absurd hle (Nat.not_le.mpr hpos)

/-- **A run that cannot go on** has handed over everything. -/
theorem Feeds.of_stuck (hr : r.Feeding I) (h : Feeds I s) (hstuck : ∀ l t, ¬ Step r s l t) :
    s.calls = [] ∧ s.stream = [] ∧ I s.reader [] := by
  have hcalls := h.calls_of_stuck hstuck
  have hreader := h.reader
  rw [State.unread, hcalls, List.flatten_nil, List.append_nil] at hreader
  have hstream : s.stream = [] := by
    by_contra hne
    exact hne (stream_of_stuck hstuck (hr.wants _ _ hreader hne))
  rw [hstream] at hreader
  exact ⟨hcalls, hstream, hreader⟩

end Rules

end Transfer
end Lib
end Cab403
