import Cab403.Lib.Monitor
import Cab403.Lib.Tally

/-!
# Pools that come to rest

A program of `Monitor` has no loop but that of its `await`, so by itself it takes finitely many
steps. But what it signals has other threads take more: a sleeper that is woken tests its condition
again, and may go back to sleep. So a signal is charged to the thread that sends it, as one step of
whoever it wakes.

`Within n` is that account: `n` pays for every step the thread takes by itself and for every signal
it sends. No step of a pool creates anything (`Step.lowers`), so the accounts of its threads bound
the length of every run, and a run that cannot go on has left every thread asleep or returned
(`comes_to_rest`).
-/

namespace Cab403
namespace Lib

open Function

variable {κ S : Type}

/-! ## What a program costs -/

/-- `n` is enough. What a section loads and prints is no step of its own, and is paid for all the
same. -/
def Code.Within : Code κ S → Nat → Prop
  | .exit _, _ => True
  | .print _ next, n => ∃ m < n, next.Within m
  | .load next, n => ∃ m < n, ∀ s, (next s).Within m
  | .lock next, n => ∃ m < n, next.Within m
  | .store _ next, n => next.Within n
  | .signal _ next, n => ∃ m < n, next.Within m
  | .await _ _ next, n => next.Within n
  | .unlock next, n => next.Within n

/-- A thread that has been woken still has its section before it. -/
def Thread.Within : Thread κ S → Nat → Prop
  | .run c, n => c.Within n
  | .asleep _ c, n => c.Within n
  | .woken c, n => ∃ m < n, c.Within m

theorem Code.Within.mono {c : Code κ S} {m n : Nat} (h : c.Within m) (hmn : m ≤ n) :
    c.Within n := by
  induction c generalizing m n with
  | exit ok => trivial
  | print message next ih =>
    obtain ⟨k, hk, hnext⟩ := h
    exact ⟨k, Nat.lt_of_lt_of_le hk hmn, hnext⟩
  | load next ih =>
    obtain ⟨k, hk, hnext⟩ := h
    exact ⟨k, Nat.lt_of_lt_of_le hk hmn, hnext⟩
  | lock next ih =>
    obtain ⟨k, hk, hnext⟩ := h
    exact ⟨k, Nat.lt_of_lt_of_le hk hmn, hnext⟩
  | store f next ih => exact ih h hmn
  | signal v next ih =>
    obtain ⟨k, hk, hnext⟩ := h
    exact ⟨k, Nat.lt_of_lt_of_le hk hmn, hnext⟩
  | await v c next ih => exact ih h hmn
  | unlock next ih => exact ih h hmn

theorem Code.within_ite {p : Prop} [Decidable p] {c d : Code κ S} {n : Nat} (hc : c.Within n)
    (hd : d.Within n) : (if p then c else d).Within n := by
  by_cases hp : p
  · rw [if_pos hp]
    exact hc
  · rw [if_neg hp]
    exact hd

/-- A branch costs its test, and its body. -/
theorem Code.within_branch {c : S → Bool} {body : Code κ S → Code κ S} {b n : Nat}
    (hbody : ∀ k : Code κ S, k.Within n → (body k).Within (n + b)) {next : Code κ S}
    (hnext : next.Within n) : (Code.branch c body next).Within (n + b + 1) := by
  refine ⟨n + b, Nat.lt_succ_self _, fun s => ?_⟩
  exact within_ite (hbody next hnext) (hnext.mono (Nat.le_add_right n b))

/-- **A section pays for its signals**, and for what its thread still has to do. -/
theorem Code.Within.locked {c : Code κ S} {n : Nat} (h : c.Within n) {s : S} {sent : List κ}
    {out : Section κ S} (hout : c.locked sent s = some out) :
    ∃ m, out.next.Within m ∧ out.signals.length + m ≤ sent.length + n := by
  induction c generalizing n s sent with
  | exit ok => cases hout
  | print message next ih =>
    obtain ⟨k, hk, hnext⟩ := h
    obtain ⟨m, hm, hle⟩ := ih hnext hout
    exact ⟨m, hm, by omega⟩
  | load next ih =>
    obtain ⟨k, hk, hnext⟩ := h
    obtain ⟨m, hm, hle⟩ := ih s (hnext s) hout
    exact ⟨m, hm, by omega⟩
  | lock next ih => cases hout
  | store f next ih => exact ih h hout
  | signal v next ih =>
    obtain ⟨k, hk, hnext⟩ := h
    obtain ⟨m, hm, hle⟩ := ih hnext hout
    rw [List.length_append, List.length_singleton] at hle
    exact ⟨m, hm, by omega⟩
  | await v c next ih =>
    unfold Code.locked at hout
    split at hout
    · cases hout
      exact ⟨n, h, Nat.le_refl _⟩
    · exact ih h hout
  | unlock next ih =>
    cases hout
    exact ⟨n, h, Nat.le_refl _⟩

/-- What a thread that waits for the lock costs behind it. -/
theorem Thread.Within.entry {t : Thread κ S} {n : Nat} (h : t.Within n) {c : Code κ S}
    (hc : t.entry = some c) : ∃ m < n, c.Within m := by
  cases t with
  | run d =>
    cases d with
    | lock d =>
      cases hc
      exact h
    | _ => cases hc
  | asleep v d => cases hc
  | woken d =>
    cases hc
    exact h

/-! ## What a pool costs -/

section Pool

variable {ι : Type*} [DecidableEq ι] [Fintype ι]

/-- The threads' accounts come to `n`. -/
def Pool.Within (p : Pool κ S ι) (n : Nat) : Prop :=
  ∃ b : ι → Nat, (∀ i, (p.thread i).Within (b i)) ∧ tally id b = n

/-- One signal is one step of the thread it wakes. -/
theorem Wakes.within {vs : List κ} {th th' : ι → Thread κ S} (h : Wakes vs th th') {b : ι → Nat}
    (hb : ∀ i, (th i).Within (b i)) :
    ∃ b', (∀ i, (th' i).Within (b' i)) ∧ (∀ i, b i ≤ b' i) ∧
      tally id b' ≤ tally id b + vs.length := by
  induction h generalizing b with
  | done th => exact ⟨b, hb, fun i => Nat.le_refl _, Nat.le_refl _⟩
  | @wake v vs th th' j c hj rest ih =>
    have hc : c.Within (b j) := by
      have hbj := hb j
      rw [hj] at hbj
      exact hbj
    have hwoken : ∀ i, (update th j (.woken c) i).Within (update b j (b j + 1) i) := by
      intro i
      by_cases hi : i = j
      · subst hi
        rw [update_self, update_self]
        exact ⟨b i, Nat.lt_succ_self _, hc⟩
      · rw [update_of_ne hi, update_of_ne hi]
        exact hb i
    obtain ⟨b', hb', hle, htally⟩ := ih hwoken
    have hupdate := tally_update id b j (b j + 1)
    simp only [id_eq] at hupdate
    refine ⟨b', hb', fun i => ?_, ?_⟩
    · refine Nat.le_trans ?_ (hle i)
      by_cases hi : i = j
      · subst hi
        rw [update_self]
        exact Nat.le_succ _
      · rw [update_of_ne hi]
    · rw [List.length_cons]
      omega
  | lost hnone rest ih =>
    obtain ⟨b', hb', hle, htally⟩ := ih hb
    refine ⟨b', hb', hle, ?_⟩
    rw [List.length_cons]
    omega

/-- A thread that moves on pays for it. -/
theorem within_update {th : ι → Thread κ S} {b : ι → Nat} (hb : ∀ i, (th i).Within (b i)) {i : ι}
    {t : Thread κ S} {m : Nat} (ht : t.Within m) :
    (∀ j, (update th i t j).Within (update b i m j)) ∧
      tally id (update b i m) + b i = tally id b + m := by
  refine ⟨fun j => ?_, tally_update id b i m⟩
  by_cases hj : j = i
  · subst hj
    rw [update_self, update_self]
    exact ht
  · rw [update_of_ne hj, update_of_ne hj]
    exact hb j

/-- **Every step is paid for.** -/
theorem Step.lowers {p q : Pool κ S ι} {i : ι} (h : Step p i q) {n : Nat} (hp : p.Within n) :
    ∃ m < n, q.Within m := by
  obtain ⟨b, hb, rfl⟩ := hp
  have hi := hb i
  cases h with
  | print hrun =>
    rw [hrun] at hi
    obtain ⟨m, hm, hc⟩ := hi
    obtain ⟨hupdate, htally⟩ := within_update hb (i := i) (t := .run _) hc
    exact ⟨_, by omega, _, hupdate, rfl⟩
  | load hrun =>
    rw [hrun] at hi
    obtain ⟨m, hm, hc⟩ := hi
    obtain ⟨hupdate, htally⟩ := within_update hb (i := i) (t := .run _) (hc p.mem)
    exact ⟨_, by omega, _, hupdate, rfl⟩
  | @locked c out th hentry hout hwakes =>
    obtain ⟨m, hm, hc⟩ := hi.entry hentry
    obtain ⟨m', hnext, hsignals⟩ := hc.locked hout
    obtain ⟨b', hb', hle, hwoken⟩ := hwakes.within hb
    obtain ⟨hupdate, htally⟩ := within_update hb' (i := i) hnext
    have hbi := hle i
    rw [List.length_nil] at hsignals
    exact ⟨_, by omega, _, hupdate, rfl⟩

/-! ## Rest -/

/-- A thread that is through, or sleeps. -/
def Thread.isResting (t : Thread κ S) : Bool := t.isAsleep || t.isReturned

omit [Fintype ι] in
/-- A thread that keeps a contract rests, or can move. -/
theorem Thread.Keeps.rests_or_moves {R : S → Section κ S → Prop} {p : Pool κ S ι} {i : ι}
    (h : (p.thread i).Keeps R) : (p.thread i).isResting = true ∨ ∃ q, Step p i q := by
  cases ht : p.thread i with
  | run c =>
    rw [ht] at h
    cases c with
    | exit ok => exact .inl rfl
    | print message next => exact .inr ⟨_, .print ht⟩
    | load next => exact .inr ⟨_, .load ht⟩
    | lock next =>
      have hkeeps : (p.thread i).Keeps R := by
        rw [ht]
        exact h
      exact .inr (hkeeps.exists_step (c := next) (by rw [ht]; rfl))
    | store f next => cases h
    | signal v next => cases h
    | await v c next => cases h
    | unlock next => cases h
  | asleep v c => exact .inl rfl
  | woken c => exact .inr (h.exists_step (c := c) (by rw [ht]; rfl))

/-- **A pool comes to rest.** No run is longer than what its threads cost; and every run can be
taken to where no thread can move, each asleep or returned. -/
theorem Pool.comes_to_rest {R : ι → S → Section κ S → Prop} {p : Pool κ S ι} {n : Nat}
    (hkeeps : ∀ j, (p.thread j).Keeps (R j)) (hn : p.Within n) {tr : List (ι × Pool κ S ι)}
    (htr : Trace Step p tr) :
    tr.length ≤ n ∧ ∃ more, Trace Step (lastState p tr) more ∧
      ∀ i, ((lastState p (tr ++ more)).thread i).isResting = true := by
  have hlowers : ∀ (p : Pool κ S ι) (i : ι) (q : Pool κ S ι) (n : Nat),
      (∀ j, (p.thread j).Keeps (R j)) ∧ p.Within n → Step p i q →
      ∃ m, m < n ∧ (∀ j, (q.thread j).Keeps (R j)) ∧ q.Within m := by
    intro p i q n hp hst
    obtain ⟨m, hm, hq⟩ := hst.lowers hp.2
    exact ⟨m, hm, (hst.keeps hp.1).1, hq⟩
  have hprogress : ∀ (p : Pool κ S ι) (n : Nat), (∀ j, (p.thread j).Keeps (R j)) ∧ p.Within n →
      (∀ i, (p.thread i).isResting = true) ∨ ∃ i q, Step p i q := by
    intro p n hp
    by_cases hall : ∀ i, (p.thread i).isResting = true
    · exact .inl hall
    · obtain ⟨i, hi⟩ := not_forall.mp hall
      obtain ⟨q, hq⟩ := (hp.1 i).rests_or_moves.resolve_left hi
      exact .inr ⟨i, q, hq⟩
  obtain ⟨m, hlength, hlast⟩ := htr.lowers hlowers ⟨hkeeps, hn⟩
  obtain ⟨more, hmore, hrest⟩ := Trace.exists_finish hlowers hprogress hlast
  refine ⟨by omega, more, hmore, ?_⟩
  rw [lastState_append]
  exact hrest

end Pool

end Lib
end Cab403
