import Cab403.Lib.Monitor

/-!
# Threads that take turns

`for (;;)` around one locked section: wait for a condition, work, signal. A pool of such threads
takes the steps of `Monitor`; a thread that has come to its end begins again; and if the threads
are to be correct with any `pthread_cond_wait`, a sleeper may wake that nobody signalled.

A thread of this kind only ever stands at one of four points (`Stands`), so a move is either a
section, of which the contract is known (`Turn.stands`), or leaves the record alone.
-/

namespace Cab403
namespace Lib

open Function

variable {κ S : Type}

/-- A section that does its work, or sleeps on `v` until it can; either way it meets `R`. -/
def TakesTurns (R : S → Section κ S → Prop) (v : κ) (body : Code κ S) : Prop :=
  ∀ s, ∃ out, body.locked [] s = some out ∧ R s out ∧
    (out.next = .asleep v body ∨ out.next = .run (.exit true))

/-- Where a thread can stand that takes turns with `body`. -/
inductive Stands (v : κ) (body : Code κ S) : Thread κ S → Prop
  | start : Stands v body (.run (.lock body))
  | asleep : Stands v body (.asleep v body)
  | woken : Stands v body (.woken body)
  | done : Stands v body (.run (.exit true))

theorem Stands.entry {v : κ} {body : Code κ S} {t : Thread κ S} (h : Stands v body t)
    {c : Code κ S} (hc : t.entry = some c) : c = body := by
  cases h with
  | start => exact (Option.some.inj hc).symm
  | asleep => cases hc
  | woken => exact (Option.some.inj hc).symm
  | done => cases hc

theorem Stands.not_outside {v : κ} {body : Code κ S} {t : Thread κ S} (h : Stands v body t) :
    t.isOutside = false := by
  cases h <;> rfl

theorem Stands.awaken {v : κ} {body : Code κ S} {t : Thread κ S} (h : Stands v body t) :
    Stands v body t.awaken := by
  cases h with
  | start => exact .start
  | asleep => exact .woken
  | woken => exact .woken
  | done => exact .done

theorem Stands.eq_asleep {v : κ} {body : Code κ S} {t : Thread κ S} (h : Stands v body t)
    (ht : t.isAsleep = true) : t = .asleep v body := by
  cases h with
  | asleep => rfl
  | _ => cases ht

section Pool

variable {ι : Type*}

inductive Move (ι : Type*) where
  | step (i : ι)
  | again (i : ι)
  | spurious (i : ι)

/-- Every thread at the beginning of its turn. -/
def Pool.start (body : ι → Code κ S) (s : S) : Pool κ S ι := ⟨s, fun i => .run (.lock (body i))⟩

variable [DecidableEq ι]

/-- One move of a pool in which thread `i` takes turns with `body i`. -/
inductive Turn (body : ι → Code κ S) (wakeups : Bool) : Pool κ S ι → Move ι → Pool κ S ι → Prop
  | step {p q : Pool κ S ι} {i : ι} (h : Step p i q) : Turn body wakeups p (.step i) q
  | again {p : Pool κ S ι} {i : ι} {ok : Bool} (h : p.thread i = .run (.exit ok)) :
      Turn body wakeups p (.again i) ⟨p.mem, update p.thread i (.run (.lock (body i)))⟩
  | spurious {p : Pool κ S ι} {i : ι} {v : κ} {c : Code κ S} (hallowed : wakeups = true)
      (h : p.thread i = .asleep v c) :
      Turn body wakeups p (.spurious i) ⟨p.mem, update p.thread i (.woken c)⟩

/-- The move is a section of `i`, and leaves what `out` says. -/
structure Runs (p : Pool κ S ι) (i : ι) (out : Section κ S) (q : Pool κ S ι) : Prop where
  mem : q.mem = out.mem
  thread : ∃ th, Wakes out.signals p.thread th ∧ q.thread = update th i out.next

/-- The move leaves the record alone, and the threads but for one that is not asleep then. -/
structure Idles (p : Pool κ S ι) (i : ι) (q : Pool κ S ι) : Prop where
  mem : q.mem = p.mem
  thread : ∃ t, t.isAsleep = false ∧ q.thread = update p.thread i t

variable {R : ι → S → Section κ S → Prop} {v : ι → κ} {body : ι → Code κ S} {wakeups : Bool}
  {p q : Pool κ S ι} {m : Move ι}

theorem stands_update {th : ι → Thread κ S} (h : ∀ j, Stands (v j) (body j) (th j)) {i : ι}
    {t : Thread κ S} (ht : Stands (v i) (body i) t) :
    ∀ j, Stands (v j) (body j) (update th i t j) :=
  (forall_update_iff th fun j => Stands (v j) (body j)).mpr ⟨ht, fun j _ => h j⟩

theorem stands_wakes {vs : List κ} {th th' : ι → Thread κ S} (hwakes : Wakes vs th th')
    (h : ∀ j, Stands (v j) (body j) (th j)) (j : ι) : Stands (v j) (body j) (th' j) :=
  hwakes.keeps (P := Stands (v j) (body j)) (fun _ => .awaken) (h j)

/-- **What a move does.** Every thread stands where it can afterwards; a step is a section that
meets its contract, and any other move is none. -/
theorem Turn.stands (h : Turn body wakeups p m q) (hbody : ∀ i, TakesTurns (R i) (v i) (body i))
    (hp : ∀ j, Stands (v j) (body j) (p.thread j)) :
    (∀ j, Stands (v j) (body j) (q.thread j)) ∧
    match m with
    | .step i => ∃ out, R i p.mem out ∧ Runs p i out q ∧
        (out.next = .asleep (v i) (body i) ∨ out.next = .run (.exit true))
    | .again i => Idles p i q ∧ (p.thread i).isAsleep = false
    | .spurious i => Idles p i q ∧ wakeups = true := by
  cases h with
  | @step _ i hstep =>
    cases hstep with
    | print hrun =>
      have hout := (hp i).not_outside
      rw [hrun] at hout
      cases hout
    | load hrun =>
      have hout := (hp i).not_outside
      rw [hrun] at hout
      cases hout
    | locked hentry hlocked hwakes =>
      obtain rfl := (hp i).entry hentry
      obtain ⟨out, hout, hR, hnext⟩ := hbody i p.mem
      obtain rfl := Option.some.inj (hlocked.symm.trans hout)
      refine ⟨stands_update (stands_wakes hwakes hp) ?_, _, hR, ⟨rfl, _, hwakes, rfl⟩, hnext⟩
      rcases hnext with hnext | hnext
      · rw [hnext]
        exact .asleep
      · rw [hnext]
        exact .done
  | @again i ok hexit =>
    refine ⟨stands_update hp .start, ⟨rfl, _, rfl, rfl⟩, ?_⟩
    rw [hexit]
    rfl
  | @spurious i w c hallowed hsleep =>
    have hi := hp i
    rw [hsleep] at hi
    cases hi with
    | asleep => exact ⟨stands_update hp .woken, ⟨rfl, _, rfl, rfl⟩, hallowed⟩

end Pool

end Lib
end Cab403
