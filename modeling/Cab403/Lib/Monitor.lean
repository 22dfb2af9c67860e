import Cab403.Lib.Trace
import Mathlib.Logic.Function.Basic

/-!
# Threads over one lock and its condition variables

A program that shares a record under a mutex is a `Code`: what it prints, loads, locks, stores,
signals, awaits and unlocks, statement by statement, each load's value handed to the rest of the
program. `while (c) pthread_cond_wait(&v, &m)` is one constructor, since that loop is the only
way such a program waits.

There are two readings. `Code.exec` runs one program alone. `Step` runs any number of threads:
outside the lock a statement is a step, and from `lock` to `unlock`, or to falling asleep, is
*one* step, because no other section can fall in between. Such a step is computed by
`Code.locked`; the waiters it signals are then chosen by `Wakes`, one for each signal, any that
sleeps on that variable. A woken thread takes the lock again when it is its turn, and tests the
condition again; nobody wakes unsignalled.

`Code.Keeps R` is the contract rule. `R` relates the record before a locked section to what the
section leaves; `Keeps` walks the program once and collects what has to be shown, and
`Step.keeps` hands it back for every step of every run.
-/

namespace Cab403
namespace Lib

open Function

/-! ## Programs -/

inductive Code (κ S : Type) where
  | exit (ok : Bool)
  | print (message : String) (next : Code κ S)
  | load (next : S → Code κ S)
  | lock (next : Code κ S)
  | store (f : S → S) (next : Code κ S)
  | signal (v : κ) (next : Code κ S)
  | await (v : κ) (c : S → Bool) (next : Code κ S)
  | unlock (next : Code κ S)

variable {κ S : Type}

/-- `if (c) { body }`, then the rest. -/
def Code.branch (c : S → Bool) (body : Code κ S → Code κ S) (next : Code κ S) : Code κ S :=
  .load fun s => if c s then body next else next

/-- What a branch whose body only writes does to the record. -/
def onlyIf (c : S → Bool) (f : S → S) (s : S) : S := if c s then f s else s

theorem onlyIf_pos {c : S → Bool} {f : S → S} {s : S} (h : c s = true) : onlyIf c f s = f s :=
  if_pos h

theorem onlyIf_neg {c : S → Bool} {f : S → S} {s : S} (h : c s = false) : onlyIf c f s = s :=
  if_neg (Bool.eq_false_iff.mp h)

/-- And to the signals sent, if it ends with one. -/
def alsoIf (c : S → Bool) (v : κ) (s : S) (sent : List κ) : List κ :=
  if c s then sent ++ [v] else sent

/-! ## One program alone -/

structure Outcome (S : Type) where
  ok : Bool
  mem : S
  output : List String

/-- `none` if the program waits, with nobody to wake it. -/
def Code.exec : Code κ S → S → Option (Outcome S)
  | .exit ok, s => some ⟨ok, s, []⟩
  | .print message next, s =>
    (next.exec s).map fun o => { o with output := message :: o.output }
  | .load next, s => (next s).exec s
  | .lock next, s => next.exec s
  | .store f next, s => next.exec (f s)
  | .signal _ next, s => next.exec s
  | .await _ c next, s => if c s then none else next.exec s
  | .unlock next, s => next.exec s

theorem Code.mem_exec_print {message : String} {next : Code κ S} {s : S} :
    ((Code.print message next).exec s).map Outcome.mem = (next.exec s).map Outcome.mem :=
  Option.map_map ..

/-- A branch that only prints, writes and signals writes what `onlyIf` says. -/
theorem Code.mem_exec_branch {c : S → Bool} {f : S → S} {body : Code κ S → Code κ S} {s : S}
    (hbody : ∀ k, ((body k).exec s).map Outcome.mem = (k.exec (f s)).map Outcome.mem)
    {next : Code κ S} : ((Code.branch c body next).exec s).map Outcome.mem =
      (next.exec (onlyIf c f s)).map Outcome.mem := by
  unfold onlyIf
  show ((if c s then body next else next).exec s).map Outcome.mem = _
  by_cases hc : c s = true
  · rw [if_pos hc, if_pos hc]
    exact hbody next
  · rw [if_neg hc, if_neg hc]

/-- A branch not taken. -/
theorem Code.exec_branch_neg {c : S → Bool} {body : Code κ S → Code κ S} {next : Code κ S} {s : S}
    (h : c s = false) : (Code.branch c body next).exec s = next.exec s := by
  show (if c s then body next else next).exec s = _
  rw [if_neg (Bool.eq_false_iff.mp h)]

/-! ## Many threads -/

/-- A thread runs, or sleeps in `pthread_cond_wait`, or has been woken and waits for the lock. -/
inductive Thread (κ S : Type) where
  | run (c : Code κ S)
  | asleep (v : κ) (c : Code κ S)
  | woken (c : Code κ S)

/-- What a locked section leaves: the record, the signals it sent, and where its thread stands. -/
structure Section (κ S : Type) where
  mem : S
  signals : List κ
  next : Thread κ S

/-- The section from inside the lock on, `sent` signalled already; `none` if it never gives the
lock back. -/
def Code.locked (sent : List κ) : Code κ S → S → Option (Section κ S)
  | .exit _, _ => none
  | .print _ next, s => next.locked sent s
  | .load next, s => (next s).locked sent s
  | .lock _, _ => none
  | .store f next, s => next.locked sent (f s)
  | .signal v next, s => next.locked (sent ++ [v]) s
  | .await v c next, s =>
    if c s then some ⟨s, sent, .asleep v (.await v c next)⟩ else next.locked sent s
  | .unlock next, s => some ⟨s, sent, .run next⟩

theorem Code.locked_branch_neg {c : S → Bool} {body : Code κ S → Code κ S} {next : Code κ S}
    {s : S} {sent : List κ} (h : c s = false) :
    (Code.branch c body next).locked sent s = next.locked sent s := by
  show (if c s then body next else next).locked sent s = _
  rw [if_neg (Bool.eq_false_iff.mp h)]

/-- The code a thread runs once it gets the lock it is waiting for. -/
def Thread.entry : Thread κ S → Option (Code κ S)
  | .run (.lock c) => some c
  | .woken c => some c
  | _ => none

/-- A thread about to print or to load, outside the lock. -/
def Thread.isOutside : Thread κ S → Bool
  | .run (.print _ _) => true
  | .run (.load _) => true
  | _ => false

section Pool

variable {ι : Type*} [DecidableEq ι]

/-- Each signal wakes one thread that sleeps on its variable, whichever, if there is one. -/
inductive Wakes : List κ → (ι → Thread κ S) → (ι → Thread κ S) → Prop
  | done (th : ι → Thread κ S) : Wakes [] th th
  | wake {v : κ} {vs : List κ} {th th' : ι → Thread κ S} {j : ι} {c : Code κ S}
      (h : th j = .asleep v c) (rest : Wakes vs (update th j (.woken c)) th') :
      Wakes (v :: vs) th th'
  | lost {v : κ} {vs : List κ} {th th' : ι → Thread κ S} (h : ∀ j c, th j ≠ .asleep v c)
      (rest : Wakes vs th th') : Wakes (v :: vs) th th'

structure Pool (κ S : Type) (ι : Type*) where
  mem : S
  thread : ι → Thread κ S

/-- One step of thread `i`. -/
inductive Step : Pool κ S ι → ι → Pool κ S ι → Prop
  | print {p : Pool κ S ι} {i : ι} {message : String} {c : Code κ S}
      (h : p.thread i = .run (.print message c)) :
      Step p i ⟨p.mem, update p.thread i (.run c)⟩
  | load {p : Pool κ S ι} {i : ι} {f : S → Code κ S} (h : p.thread i = .run (.load f)) :
      Step p i ⟨p.mem, update p.thread i (.run (f p.mem))⟩
  | locked {p : Pool κ S ι} {i : ι} {c : Code κ S} {out : Section κ S} {th : ι → Thread κ S}
      (h : (p.thread i).entry = some c) (hout : c.locked [] p.mem = some out)
      (hwakes : Wakes out.signals p.thread th) :
      Step p i ⟨out.mem, update th i out.next⟩

/-! ## Waking -/

def Thread.isAsleep : Thread κ S → Bool
  | .asleep _ _ => true
  | _ => false

def Thread.isWoken : Thread κ S → Bool
  | .woken _ => true
  | _ => false

def Thread.isReturned : Thread κ S → Bool
  | .run (.exit _) => true
  | _ => false

/-- `pthread_cond_broadcast` wakes a thread that sleeps, and leaves any other. -/
def Thread.awaken : Thread κ S → Thread κ S
  | .asleep _ c => .woken c
  | t => t

theorem Thread.isAsleep_awaken (t : Thread κ S) : t.awaken.isAsleep = false := by
  cases t <;> rfl

theorem Thread.isReturned_awaken (t : Thread κ S) : t.awaken.isReturned = t.isReturned := by
  cases t <;> rfl

/-- A signal is lost if nobody sleeps. -/
theorem Wakes.lose {v : κ} {vs : List κ} {th th' : ι → Thread κ S}
    (h : ∀ j, (th j).isAsleep = false) (rest : Wakes vs th th') : Wakes (v :: vs) th th' := by
  refine .lost (fun j c hj => ?_) rest
  have hj' := h j
  rw [hj] at hj'
  cases hj'

theorem Wakes.nil {th th' : ι → Thread κ S} (h : Wakes [] th th') : th' = th := by
  cases h
  rfl

/-- Waking changes a thread only from asleep to woken. -/
theorem Wakes.thread {vs : List κ} {th th' : ι → Thread κ S} (h : Wakes vs th th') (j : ι) :
    th' j = th j ∨ ∃ v c, th j = .asleep v c ∧ th' j = .woken c := by
  induction h with
  | done th => exact .inl rfl
  | @wake v vs th th' k c hk rest ih =>
    by_cases hjk : j = k
    · subst hjk
      rcases ih with heq | ⟨v', c', hasleep, _⟩
      · exact .inr ⟨v, c, hk, by rw [heq, update_self]⟩
      · rw [update_self] at hasleep
        cases hasleep
    · rw [update_of_ne hjk] at ih
      exact ih
  | lost _ _ ih => exact ih

/-- What waking a thread keeps, signals keep. -/
theorem Wakes.keeps {P : Thread κ S → Prop} (hP : ∀ t, P t → P t.awaken) {vs : List κ}
    {th th' : ι → Thread κ S} (h : Wakes vs th th') {j : ι} (hj : P (th j)) : P (th' j) := by
  rcases h.thread j with heq | ⟨v, c, hasleep, hwoken⟩
  · rw [heq]
    exact hj
  · have hawaken := hP _ hj
    rw [hasleep] at hawaken
    rw [hwoken]
    exact hawaken

theorem Wakes.woken {vs : List κ} {th th' : ι → Thread κ S} (h : Wakes vs th th') {j : ι}
    (hj : (th j).isWoken = true) : (th' j).isWoken = true := by
  refine h.keeps (P := fun t => t.isWoken = true) (fun t ht => ?_) hj
  cases t with
  | woken c => rfl
  | _ => cases ht

theorem Wakes.isReturned {vs : List κ} {th th' : ι → Thread κ S} (h : Wakes vs th th') (j : ι) :
    (th' j).isReturned = (th j).isReturned := by
  rcases h.thread j with heq | ⟨v, c, hasleep, hwoken⟩
  · rw [heq]
  · rw [hasleep, hwoken]
    rfl

theorem Wakes.isAsleep {vs : List κ} {th th' : ι → Thread κ S} (h : Wakes vs th th') {j : ι}
    (hj : (th' j).isAsleep = true) : (th j).isAsleep = true := by
  rcases h.thread j with heq | ⟨v, c, hasleep, hwoken⟩
  · rw [← heq]
    exact hj
  · rw [hasleep]
    rfl

/-- A signal on a variable somebody sleeps on wakes somebody. -/
theorem Wakes.exists_woken {vs : List κ} {th th' : ι → Thread κ S} (h : Wakes vs th th')
    {v : κ} (hv : v ∈ vs) {j : ι} {c : Code κ S} (hj : th j = .asleep v c) :
    ∃ k, (th k).isAsleep = true ∧ (th' k).isWoken = true := by
  induction h with
  | done th => cases hv
  | @wake w ws th th' k d hk rest ih =>
    refine ⟨k, by rw [hk]; rfl, rest.woken ?_⟩
    rw [update_self]
    rfl
  | @lost w ws th th' hnone rest ih =>
    rcases List.mem_cons.mp hv with rfl | hmem
    · exact absurd hj (hnone j c)
    · exact ih hmem hj

/-- One signal wakes one of the sleepers, or there was none. -/
theorem Wakes.one {v : κ} {th th' : ι → Thread κ S} (h : Wakes [v] th th') :
    (∃ k c, th k = .asleep v c ∧ th' = update th k (.woken c)) ∨
      (th' = th ∧ ∀ k c, th k ≠ .asleep v c) := by
  cases h with
  | wake hk rest => exact .inl ⟨_, _, hk, rest.nil⟩
  | lost hnone rest => exact .inr ⟨rest.nil, hnone⟩

/-- Whoever sleeps, the signals go somewhere. -/
theorem Wakes.exists_of : ∀ (vs : List κ) (th : ι → Thread κ S), ∃ th', Wakes vs th th'
  | [], th => ⟨th, .done th⟩
  | v :: vs, th => by
    by_cases h : ∃ j c, th j = .asleep v c
    · obtain ⟨j, c, hj⟩ := h
      obtain ⟨th', hrest⟩ := Wakes.exists_of vs (update th j (.woken c))
      exact ⟨th', .wake hj hrest⟩
    · obtain ⟨th', hrest⟩ := Wakes.exists_of vs th
      exact ⟨th', .lost (fun j c hj => h ⟨j, c, hj⟩) hrest⟩

/-- A thread that sleeps or has returned takes no step. -/
theorem Step.isActive {p q : Pool κ S ι} {i : ι} (h : Step p i q) :
    (p.thread i).isAsleep = false ∧ (p.thread i).isReturned = false := by
  cases h with
  | print hrun =>
    rw [hrun]
    exact ⟨rfl, rfl⟩
  | load hrun =>
    rw [hrun]
    exact ⟨rfl, rfl⟩
  | locked hentry hout hwakes =>
    cases ht : p.thread i with
    | run c =>
      rw [ht] at hentry
      cases c with
      | exit ok => cases hentry
      | _ => exact ⟨rfl, rfl⟩
    | asleep v c =>
      rw [ht] at hentry
      cases hentry
    | woken c => exact ⟨rfl, rfl⟩

/-! ## One running thread -/

/-- What a step makes of the record, and of a thread that runs `c`. -/
def Code.Next : Code κ S → S → S → Thread κ S → Prop
  | .print _ next, s, s', t => s' = s ∧ t = .run next
  | .load f, s, s', t => s' = s ∧ t = .run (f s)
  | .lock next, s, s', t => ∃ out, next.locked [] s = some out ∧ s' = out.mem ∧ t = out.next
  | _, _, _, _ => False

theorem Step.next {p q : Pool κ S ι} {i : ι} {c : Code κ S} (h : Step p i q)
    (hc : p.thread i = .run c) : c.Next p.mem q.mem (q.thread i) := by
  cases h with
  | print hrun =>
    obtain rfl := Thread.run.inj (hc.symm.trans hrun)
    exact ⟨rfl, update_self ..⟩
  | load hrun =>
    obtain rfl := Thread.run.inj (hc.symm.trans hrun)
    exact ⟨rfl, update_self ..⟩
  | locked hentry hout hwakes =>
    rw [hc] at hentry
    cases c with
    | lock c =>
      cases hentry
      exact ⟨_, hout, rfl, update_self ..⟩
    | _ => cases hentry

/-- A thread that runs is left alone by the steps of the others. -/
theorem Step.run_of_ne {p q : Pool κ S ι} {i j : ι} {c : Code κ S} (h : Step p j q) (hij : i ≠ j)
    (hc : p.thread i = .run c) : q.thread i = .run c := by
  cases h with
  | print hrun => exact (update_of_ne hij ..).trans hc
  | load hrun => exact (update_of_ne hij ..).trans hc
  | locked hentry hout hwakes =>
    refine (update_of_ne hij ..).trans ?_
    rcases hwakes.thread i with heq | ⟨v, d, hasleep, _⟩
    · exact heq.trans hc
    · rw [hc] at hasleep
      cases hasleep

/-- The records the stores of a section find, from inside the lock on. -/
def Code.found : Code κ S → S → List S
  | .exit _, _ => []
  | .print _ next, s => next.found s
  | .load next, s => (next s).found s
  | .lock _, _ => []
  | .store f next, s => s :: next.found (f s)
  | .signal _ next, s => next.found s
  | .await _ c next, s => if c s then [] else next.found s
  | .unlock _, _ => []

/-! ## Contracts -/

/-- Every locked section the program comes to, whatever it loads and whenever it is woken, meets
`R`. The second argument is `none` outside the lock and, inside, the record the section began
with, the record now, and the signals sent. -/
def Code.Keeps (R : S → Section κ S → Prop) : Code κ S → Option (S × S × List κ) → Prop
  | .exit _, none => True
  | .print _ next, at? => next.Keeps R at?
  | .load next, none => ∀ s, (next s).Keeps R none
  | .load next, some (pre, s, sent) => (next s).Keeps R (some (pre, s, sent))
  | .lock next, none => ∀ s, next.Keeps R (some (s, s, []))
  | .store f next, some (pre, s, sent) => next.Keeps R (some (pre, f s, sent))
  | .signal v next, some (pre, s, sent) => next.Keeps R (some (pre, s, sent ++ [v]))
  | .await v c next, some (pre, s, sent) =>
    (if c s then R pre ⟨s, sent, .asleep v (.await v c next)⟩
      else next.Keeps R (some (pre, s, sent))) ∧
    ∀ s', if c s' then R s' ⟨s', [], .asleep v (.await v c next)⟩
      else next.Keeps R (some (s', s', []))
  | .unlock next, some (pre, s, sent) => R pre ⟨s, sent, .run next⟩ ∧ next.Keeps R none
  | _, _ => False

def Thread.Keeps (R : S → Section κ S → Prop) : Thread κ S → Prop
  | .run c => c.Keeps R none
  | .asleep _ c => ∀ s, c.Keeps R (some (s, s, []))
  | .woken c => ∀ s, c.Keeps R (some (s, s, []))

theorem Code.keeps_unlock {R : S → Section κ S → Prop} {next : Code κ S} {pre s : S}
    {sent : List κ} : (Code.unlock next).Keeps R (some (pre, s, sent)) ↔
      R pre ⟨s, sent, .run next⟩ ∧ next.Keeps R none :=
  Iff.rfl

theorem Code.keeps_ite {R : S → Section κ S → Prop} {c : Prop} [Decidable c]
    {a b : Code κ S} {at? : Option (S × S × List κ)} (ha : c → a.Keeps R at?)
    (hb : ¬ c → b.Keeps R at?) : (if c then a else b).Keeps R at? := by
  by_cases hc : c
  · rw [if_pos hc]
    exact ha hc
  · rw [if_neg hc]
    exact hb hc

theorem Code.keeps_branch {R : S → Section κ S → Prop} {c : S → Bool} {f : S → S} {v : κ}
    {body : Code κ S → Code κ S} {pre s : S} {sent : List κ}
    (hbody : ∀ k, (body k).Keeps R (some (pre, s, sent)) ↔
      k.Keeps R (some (pre, f s, sent ++ [v]))) (next : Code κ S) :
    (Code.branch c body next).Keeps R (some (pre, s, sent)) ↔
      next.Keeps R (some (pre, onlyIf c f s, alsoIf c v s sent)) := by
  unfold onlyIf alsoIf
  show (if c s then body next else next).Keeps R (some (pre, s, sent)) ↔ _
  by_cases hc : c s = true
  · rw [if_pos hc, if_pos hc, if_pos hc]
    exact hbody next
  · rw [if_neg hc, if_neg hc, if_neg hc]

theorem Code.Keeps.locked {R : S → Section κ S → Prop} {c : Code κ S} {pre s : S}
    {sent : List κ} (h : c.Keeps R (some (pre, s, sent))) :
    ∃ out, c.locked sent s = some out ∧ R pre out ∧ out.next.Keeps R := by
  induction c generalizing s sent with
  | exit ok => cases h
  | print message next ih => exact ih h
  | load next ih => exact ih s h
  | lock next ih => cases h
  | store f next ih => exact ih h
  | signal v next ih => exact ih h
  | await v c next ih =>
    obtain ⟨hnow, hlater⟩ := h
    by_cases hc : c s = true
    · rw [if_pos hc] at hnow
      exact ⟨_, if_pos hc, hnow, fun s' => ⟨hlater s', hlater⟩⟩
    · rw [if_neg hc] at hnow
      obtain ⟨out, hout, hR, hnext⟩ := ih hnow
      exact ⟨out, (if_neg hc).trans hout, hR, hnext⟩
  | unlock next ih => exact ⟨_, rfl, h.1, h.2⟩

theorem Thread.Keeps.entry {R : S → Section κ S → Prop} {t : Thread κ S} (h : t.Keeps R)
    {c : Code κ S} (hc : t.entry = some c) (s : S) : c.Keeps R (some (s, s, [])) := by
  cases t with
  | run d =>
    cases d with
    | lock d =>
      cases hc
      exact h s
    | _ => cases hc
  | asleep v d => cases hc
  | woken d =>
    cases hc
    exact h s

/-- A thread that keeps a contract is never stuck waiting for the lock. -/
theorem Thread.Keeps.exists_step {R : S → Section κ S → Prop} {p : Pool κ S ι} {i : ι}
    (h : (p.thread i).Keeps R) {c : Code κ S} (hc : (p.thread i).entry = some c) :
    ∃ q, Step p i q := by
  obtain ⟨out, hout, _, _⟩ := (h.entry hc p.mem).locked
  obtain ⟨th, hwakes⟩ := Wakes.exists_of out.signals p.thread
  exact ⟨_, .locked hc hout hwakes⟩

theorem Thread.Keeps.awaken {R : S → Section κ S → Prop} {t : Thread κ S} (h : t.Keeps R) :
    t.awaken.Keeps R := by
  cases t with
  | run c => exact h
  | asleep v c => exact h
  | woken c => exact h

/-- **What a contract says of a step.** The thread that moves keeps its contract; so does every
other, whatever it does; and either the record is left alone and nobody is woken, or a section
that meets the contract has run. -/
theorem Step.keeps {R : ι → S → Section κ S → Prop} {p q : Pool κ S ι} {i : ι}
    (h : Step p i q) (hp : ∀ j, (p.thread j).Keeps (R j)) :
    (∀ j, (q.thread j).Keeps (R j)) ∧
    (((p.thread i).isOutside = true ∧ q.mem = p.mem ∧ ∃ d, q.thread = update p.thread i (.run d)) ∨
      ∃ c out th, (p.thread i).entry = some c ∧ c.locked [] p.mem = some out ∧
        R i p.mem out ∧ q.mem = out.mem ∧ Wakes out.signals p.thread th ∧
        q.thread = update th i out.next) := by
  -- moving on keeps the others as they were
  have hquiet : ∀ {d}, d.Keeps (R i) none →
      ∀ j, (update p.thread i (Thread.run d) j).Keeps (R j) := by
    intro d hd
    exact (forall_update_iff p.thread fun j t => t.Keeps (R j)).mpr ⟨hd, fun j _ => hp j⟩
  have hi := hp i
  cases h with
  | print hrun =>
    rw [hrun] at hi ⊢
    exact ⟨hquiet hi, .inl ⟨rfl, rfl, _, rfl⟩⟩
  | load hrun =>
    rw [hrun] at hi ⊢
    exact ⟨hquiet (hi p.mem), .inl ⟨rfl, rfl, _, rfl⟩⟩
  | @locked c out th hentry hout hwakes =>
    obtain ⟨out', hout', hR, hnext⟩ := (hi.entry hentry p.mem).locked
    obtain rfl : out = out' := Option.some.inj (hout.symm.trans hout')
    refine ⟨?_, .inr ⟨c, out, th, hentry, hout, hR, rfl, hwakes, rfl⟩⟩
    exact (forall_update_iff th fun j t => t.Keeps (R j)).mpr
      ⟨hnext, fun j _ => hwakes.keeps (P := Thread.Keeps (R j)) (fun _ => .awaken) (hp j)⟩

end Pool

end Lib
end Cab403
