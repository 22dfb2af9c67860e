import Cab403.Lib.Monitor

/-!
# Statement by statement

`Step` takes a locked section in one step. The lock alone does not give that: it keeps the other
threads out of their sections, but what they read without it they may read between any two
statements of this one. Here every statement is a step, and a state says who has the lock.

The two agree wherever the lock is free (`Statement.reaches_iff`), if the reads without the lock
see of the record no more than some `obs` shows, and no section changes that more than once
(`Code.Reads`). The store that changes it is where the section *commits*. What another thread reads
before the commit it would have read before the section, and what it reads afterwards it would have
read after it. So a run is turned into one of whole sections from its end (`Runs`): a section that
has committed is done at once, and the rest of the run put behind it; of one that has not, what the
others do is put before it.
-/

namespace Cab403
namespace Lib

open Function Relation

variable {κ S O : Type} {obs : S → O}

/-! ## What is read without the lock -/

/-- Loads outside the lock depend on `obs` alone, and a section changes it at most once. The second
argument is `none` outside the lock and, inside, whether it may still be changed, and the record
now. -/
def Code.Reads (obs : S → O) : Code κ S → Option (Bool × S) → Prop
  | .exit _, none => True
  | .print _ next, at? => next.Reads obs at?
  | .load next, none =>
    (∀ s s', obs s = obs s' → next s = next s') ∧ ∀ s, (next s).Reads obs none
  | .load next, some (may, s) => (next s).Reads obs (some (may, s))
  | .lock next, none => ∀ s, next.Reads obs (some (true, s))
  | .store f next, some (may, s) =>
    (obs (f s) = obs s ∧ next.Reads obs (some (may, f s))) ∨
      (may = true ∧ next.Reads obs (some (false, f s)))
  | .signal _ next, some (may, s) => next.Reads obs (some (may, s))
  | .await _ c next, some (may, s) =>
    (c s = false → next.Reads obs (some (may, s))) ∧
      ∀ s', c s' = false → next.Reads obs (some (true, s'))
  | .unlock next, some _ => next.Reads obs none
  | _, _ => False

def Thread.Reads (obs : S → O) : Thread κ S → Prop
  | .run c => c.Reads obs none
  | .asleep _ c => ∀ s, c.Reads obs (some (true, s))
  | .woken c => ∀ s, c.Reads obs (some (true, s))

theorem Code.reads_ite {c : Prop} [Decidable c] {a b : Code κ S} {at? : Option (Bool × S)}
    (ha : c → a.Reads obs at?) (hb : ¬ c → b.Reads obs at?) :
    (if c then a else b).Reads obs at? := by
  by_cases hc : c
  · rw [if_pos hc]
    exact ha hc
  · rw [if_neg hc]
    exact hb hc

theorem Code.reads_branch {c : S → Bool} {body : Code κ S → Code κ S} {next : Code κ S}
    {may : Bool}
    (hbody : ∀ k : Code κ S, (∀ s, k.Reads obs (some (may, s))) →
      ∀ s, (body k).Reads obs (some (may, s)))
    (hnext : ∀ s, next.Reads obs (some (may, s))) (s : S) :
    (Code.branch c body next).Reads obs (some (may, s)) :=
  Code.reads_ite (fun _ => hbody next hnext s) fun _ => hnext s

/-- A branch whose body commits. -/
theorem Code.reads_branch_commit {c : S → Bool} {body : Code κ S → Code κ S} {next : Code κ S}
    (hbody : ∀ k : Code κ S, (∀ s, k.Reads obs (some (false, s))) →
      ∀ s, (body k).Reads obs (some (true, s)))
    (hnext : ∀ may s, next.Reads obs (some (may, s))) (s : S) :
    (Code.branch c body next).Reads obs (some (true, s)) :=
  Code.reads_ite (fun _ => hbody next (hnext false) s) fun _ => hnext true s

theorem Thread.Reads.entry {t : Thread κ S} (h : t.Reads obs) {c : Code κ S}
    (hc : t.entry = some c) (s : S) : c.Reads obs (some (true, s)) := by
  cases t with
  | run d =>
    cases d with
    | lock d =>
      cases hc
      exact h s
    | _ => cases hc
  | asleep v d => cases hc
  | woken d =>
    cases hc
    exact h s

theorem Thread.Reads.awaken {t : Thread κ S} (h : t.Reads obs) : t.awaken.Reads obs := by
  cases t with
  | run c => exact h
  | asleep v c => exact h
  | woken c => exact h

theorem Thread.isAsleep_of_entry {t : Thread κ S} {c : Code κ S} (h : t.entry = some c) :
    t.isAsleep = false := by
  cases t with
  | run d => rfl
  | asleep v d => cases h
  | woken d => rfl

/-- Such a section gives the lock back. -/
theorem Code.Reads.locked {c : Code κ S} {may : Bool} {s : S} (h : c.Reads obs (some (may, s)))
    (sent : List κ) : ∃ out, c.locked sent s = some out := by
  induction c generalizing may s sent with
  | exit ok => cases h
  | print message next ih => exact ih h sent
  | load next ih => exact ih s h sent
  | lock next ih => cases h
  | store f next ih =>
    rcases h with ⟨_, h⟩ | ⟨_, h⟩
    · exact ih h sent
    · exact ih h sent
  | signal v next ih => exact ih h (sent ++ [v])
  | await v c next ih =>
    cases hc : c s with
    | true => exact ⟨_, if_pos hc⟩
    | false =>
      obtain ⟨out, hout⟩ := ih (h.1 hc) sent
      exact ⟨out, by simp [Code.locked, hc, hout]⟩
  | unlock next ih => exact ⟨_, rfl⟩

/-- What was signalled before is only put in front. -/
theorem Code.locked_sent (c : Code κ S) (s : S) (sent : List κ) :
    c.locked sent s =
      (c.locked [] s).map fun out => { out with signals := sent ++ out.signals } := by
  induction c generalizing s sent with
  | exit ok => rfl
  | print message next ih => exact ih s sent
  | load next ih => exact ih s s sent
  | lock next ih => rfl
  | store f next ih => exact ih (f s) sent
  | signal v next ih =>
    show next.locked (sent ++ [v]) s = (next.locked ([] ++ [v]) s).map _
    rw [ih s (sent ++ [v]), ih s ([] ++ [v]), Option.map_map]
    congr 1
    funext out
    simp
  | await v c next ih =>
    cases hc : c s with
    | true => simp [Code.locked, hc]
    | false => simpa [Code.locked, hc] using ih s sent
  | unlock next ih => simp [Code.locked]

/-! ## Signals, and a thread that does not sleep -/

section Wakes

variable {ι : Type*} [DecidableEq ι] {th th' th₁ : ι → Thread κ S} {vs ws : List κ} {i : ι}
  {t : Thread κ S}

theorem Wakes.append (h : Wakes vs th th₁) (h' : Wakes ws th₁ th') : Wakes (vs ++ ws) th th' := by
  induction h with
  | done th => exact h'
  | wake hj _ ih => exact .wake hj (ih h')
  | lost hnone _ ih => exact .lost hnone (ih h')

theorem Wakes.of_append (h : Wakes (vs ++ ws) th th') :
    ∃ th₁, Wakes vs th th₁ ∧ Wakes ws th₁ th' := by
  induction vs generalizing th with
  | nil => exact ⟨th, .done th, h⟩
  | cons v vs ih =>
    cases h with
    | wake hj rest =>
      obtain ⟨th₁, h₁, h₂⟩ := ih rest
      exact ⟨th₁, .wake hj h₁, h₂⟩
    | lost hnone rest =>
      obtain ⟨th₁, h₁, h₂⟩ := ih rest
      exact ⟨th₁, .lost hnone h₁, h₂⟩

/-- Who is woken does not depend on where such a thread stands. -/
theorem Wakes.put (h : Wakes vs th th') (hi : (th i).isAsleep = false) (ht : t.isAsleep = false) :
    Wakes vs (update th i t) (update th' i t) := by
  induction h with
  | done th => exact .done _
  | @wake v vs th th' j c hj _ ih =>
    have hji : j ≠ i := by
      rintro rfl
      rw [hj] at hi
      cases hi
    refine .wake ((update_of_ne hji ..).trans hj) ?_
    rw [update_comm hji.symm]
    exact ih ((congrArg Thread.isAsleep (update_of_ne hji.symm ..)).trans hi)
  | lost hnone _ ih =>
    refine .lost (fun j c hj => ?_) (ih hi)
    by_cases hji : j = i
    · subst hji
      rw [update_self] at hj
      rw [hj] at ht
      cases ht
    · rw [update_of_ne hji] at hj
      exact hnone j c hj

theorem Wakes.eq_of_not_asleep (h : Wakes vs th th') (hi : (th i).isAsleep = false) :
    th' i = th i := by
  rcases h.thread i with heq | ⟨v, c, hasleep, _⟩
  · exact heq
  · rw [hasleep] at hi
    cases hi

/-- More signals, when the thread that sends them has moved from `t`. -/
theorem Wakes.compose (h : Wakes vs th (update th₁ i t)) (h' : Wakes ws th₁ th')
    (hi : (th₁ i).isAsleep = false) (ht : t.isAsleep = false) :
    Wakes (vs ++ ws) th (update th' i t) :=
  h.append (h'.put hi ht)

end Wakes

/-! ## The steps -/

namespace Statement

variable {ι : Type*} [DecidableEq ι]

structure State (κ S : Type) (ι : Type*) extends Pool κ S ι where
  /-- Who has the lock. -/
  holder : Option ι

/-- One statement of thread `i`. -/
inductive Step : State κ S ι → ι → State κ S ι → Prop
  | print {s : State κ S ι} {i : ι} {message : String} {c : Code κ S}
      (h : s.thread i = .run (.print message c)) :
      Step s i ⟨⟨s.mem, update s.thread i (.run c)⟩, s.holder⟩
  | load {s : State κ S ι} {i : ι} {f : S → Code κ S} (h : s.thread i = .run (.load f)) :
      Step s i ⟨⟨s.mem, update s.thread i (.run (f s.mem))⟩, s.holder⟩
  | enter {s : State κ S ι} {i : ι} {c : Code κ S} (h : (s.thread i).entry = some c)
      (hfree : s.holder = none) : Step s i ⟨⟨s.mem, update s.thread i (.run c)⟩, some i⟩
  | store {s : State κ S ι} {i : ι} {f : S → S} {c : Code κ S}
      (h : s.thread i = .run (.store f c)) :
      Step s i ⟨⟨f s.mem, update s.thread i (.run c)⟩, s.holder⟩
  | signal {s : State κ S ι} {i : ι} {v : κ} {c : Code κ S} {th : ι → Thread κ S}
      (h : s.thread i = .run (.signal v c)) (hwakes : Wakes [v] s.thread th) :
      Step s i ⟨⟨s.mem, update th i (.run c)⟩, s.holder⟩
  | goOn {s : State κ S ι} {i : ι} {v : κ} {c : S → Bool} {d : Code κ S}
      (h : s.thread i = .run (.await v c d)) (hc : c s.mem = false) :
      Step s i ⟨⟨s.mem, update s.thread i (.run d)⟩, s.holder⟩
  | sleep {s : State κ S ι} {i : ι} {v : κ} {c : S → Bool} {d : Code κ S}
      (h : s.thread i = .run (.await v c d)) (hc : c s.mem = true) :
      Step s i ⟨⟨s.mem, update s.thread i (.asleep v (.await v c d))⟩, none⟩
  | unlock {s : State κ S ι} {i : ι} {c : Code κ S} (h : s.thread i = .run (.unlock c)) :
      Step s i ⟨⟨s.mem, update s.thread i (.run c)⟩, none⟩

variable {s t : State κ S ι} {p q : Pool κ S ι} {i j : ι} {c : Code κ S} {may : Bool}
  {M : Pool κ S ι → Pool κ S ι → Prop}

/-- Thread `i` has the lock and is at `c`. -/
structure Inside (obs : S → O) (s : State κ S ι) (i : ι) (c : Code κ S) (may : Bool) : Prop where
  holder : s.holder = some i
  code : s.thread i = .run c
  reads : c.Reads obs (some (may, s.mem))
  others : ∀ j, j ≠ i → (s.thread j).Reads obs

/-- A step outside the lock. It is a move of the pool, on any record that shows the same. -/
def Outside (obs : S → O) (M : Pool κ S ι → Pool κ S ι → Prop) (s : State κ S ι) (j : ι)
    (t : State κ S ι) : Prop :=
  ∃ d d', s.thread j = .run d ∧ d'.Reads obs none ∧
    t = ⟨⟨s.mem, update s.thread j (.run d')⟩, s.holder⟩ ∧
    ∀ p : Pool κ S ι, p.thread j = .run d → obs p.mem = obs s.mem →
      M p ⟨p.mem, update p.thread j (.run d')⟩

/-- **A step of a thread without the lock** is outside it, or takes it. -/
theorem Step.outside (hM : ∀ {p i q}, Lib.Step p i q → M p q) (h : Step s j t)
    (hj : (s.thread j).Reads obs) :
    Outside obs M s j t ∨ ∃ c, (s.thread j).entry = some c ∧ s.holder = none ∧
      t = ⟨⟨s.mem, update s.thread j (.run c)⟩, some j⟩ := by
  cases h with
  | @print message c hrun =>
    rw [hrun] at hj
    exact .inl ⟨_, c, hrun, hj, rfl, fun p hp _ => hM (.print hp)⟩
  | @load f hrun =>
    rw [hrun] at hj
    refine .inl ⟨_, f s.mem, hrun, hj.2 s.mem, rfl, fun p hp hsame => ?_⟩
    rw [hj.1 s.mem p.mem hsame.symm]
    exact hM (.load hp)
  | enter hentry hfree => exact .inr ⟨_, hentry, hfree, rfl⟩
  | store hrun =>
    rw [hrun] at hj
    cases hj
  | signal hrun _ =>
    rw [hrun] at hj
    cases hj
  | goOn hrun _ =>
    rw [hrun] at hj
    cases hj
  | sleep hrun _ =>
    rw [hrun] at hj
    cases hj
  | unlock hrun =>
    rw [hrun] at hj
    cases hj

theorem Outside.inside (h : Inside obs s i c may) (hij : j ≠ i) (hout : Outside obs M s j t) :
    Inside obs t i c may := by
  obtain ⟨d, d', hd, hreads, rfl, _⟩ := hout
  refine ⟨h.holder, (update_of_ne hij.symm ..).trans h.code, h.reads, ?_⟩
  exact (forall_update_iff s.thread fun k t => k ≠ i → t.Reads obs).mpr
    ⟨fun _ => hreads, fun k _ hk => h.others k hk⟩

/-- What the thread with the lock does next: it goes on, and the section it is in comes to the same
end, or it gives the lock back. -/
structure GoesOn (obs : S → O) (s : State κ S ι) (i : ι) (c : Code κ S) (may : Bool)
    (t : State κ S ι) (c' : Code κ S) (may' : Bool) (vs : List κ) : Prop where
  inside : Inside obs t i c' may'
  wakes : ∀ u : Thread κ S, u.isAsleep = false →
    Wakes vs (update s.thread i u) (update t.thread i u)
  locked : ∀ sent, c.locked sent s.mem = c'.locked (sent ++ vs) t.mem
  commits : (may' = may ∧ obs t.mem = obs s.mem) ∨ (may = true ∧ may' = false)

structure Leaves (obs : S → O) (s : State κ S ι) (i : ι) (c : Code κ S) (t : State κ S ι)
    (next : Thread κ S) : Prop where
  reads : next.Reads obs
  state_eq : t = ⟨⟨s.mem, update s.thread i next⟩, none⟩
  locked : ∀ sent, c.locked sent s.mem = some ⟨s.mem, sent, next⟩

/-- It goes on with nobody woken. -/
theorem Inside.goesOn {c' : Code κ S} {may' : Bool} {m : S} (h : Inside obs s i c may)
    (hreads : c'.Reads obs (some (may', m)))
    (hlocked : ∀ sent, c.locked sent s.mem = c'.locked sent m)
    (hcommits : (may' = may ∧ obs m = obs s.mem) ∨ (may = true ∧ may' = false)) :
    GoesOn obs s i c may ⟨⟨m, update s.thread i (.run c')⟩, s.holder⟩ c' may' [] := by
  refine ⟨⟨h.holder, update_self .., hreads, ?_⟩, ?_, ?_, hcommits⟩
  · exact (forall_update_iff s.thread fun k t => k ≠ i → t.Reads obs).mpr
      ⟨fun hne => absurd rfl hne, fun k _ hk => h.others k hk⟩
  · intro u _
    rw [update_idem]
    exact .done _
  · intro sent
    rw [List.append_nil]
    exact hlocked sent

/-- **A step of the thread with the lock.** -/
theorem Inside.step (h : Inside obs s i c may) (hst : Step s i t) :
    (∃ c' may' vs, GoesOn obs s i c may t c' may' vs) ∨ ∃ next, Leaves obs s i c t next := by
  have hreads := h.reads
  have hcode : ∀ {d}, s.thread i = .run d → c = d := fun hd =>
    Thread.run.inj (h.code.symm.trans hd)
  cases hst with
  | print hrun =>
    obtain rfl := hcode hrun
    exact .inl ⟨_, _, _, h.goesOn hreads (fun _ => rfl) (.inl ⟨rfl, rfl⟩)⟩
  | load hrun =>
    obtain rfl := hcode hrun
    exact .inl ⟨_, _, _, h.goesOn hreads (fun _ => rfl) (.inl ⟨rfl, rfl⟩)⟩
  | enter _ hfree =>
    rw [h.holder] at hfree
    cases hfree
  | store hrun =>
    obtain rfl := hcode hrun
    rcases hreads with ⟨hsame, hrest⟩ | ⟨hmay, hrest⟩
    · exact .inl ⟨_, _, _, h.goesOn hrest (fun _ => rfl) (.inl ⟨rfl, hsame⟩)⟩
    · exact .inl ⟨_, _, _, h.goesOn hrest (fun _ => rfl) (.inr ⟨hmay, rfl⟩)⟩
  | @signal v c' th hrun hwakes =>
    obtain rfl := hcode hrun
    have hi : (s.thread i).isAsleep = false := by
      rw [hrun]
      rfl
    refine .inl ⟨c', may, [v], ⟨h.holder, update_self .., hreads, ?_⟩, ?_, fun _ => rfl,
      .inl ⟨rfl, rfl⟩⟩
    · exact (forall_update_iff th fun k t => k ≠ i → t.Reads obs).mpr
        ⟨fun hne => absurd rfl hne, fun k _ hk =>
          hwakes.keeps (P := Thread.Reads obs) (fun _ => .awaken) (h.others k hk)⟩
    · intro u hu
      show Wakes [v] (update s.thread i u) (update (update th i (.run c')) i u)
      rw [update_idem]
      exact hwakes.put hi hu
  | goOn hrun hc =>
    obtain rfl := hcode hrun
    exact .inl ⟨_, _, _, h.goesOn (hreads.1 hc) (fun _ => by simp [Code.locked, hc])
      (.inl ⟨rfl, rfl⟩)⟩
  | sleep hrun hc =>
    obtain rfl := hcode hrun
    refine .inr ⟨_, ?_, rfl, fun _ => if_pos hc⟩
    exact fun s' => ⟨fun hc' => hreads.2 s' hc', hreads.2⟩
  | unlock hrun =>
    obtain rfl := hcode hrun
    exact .inr ⟨.run _, hreads, rfl, fun _ => rfl⟩

/-! ## Where a run stands -/

/-- The lock is free, or its holder is inside a section. -/
def Placed (obs : S → O) (s : State κ S ι) : Prop :=
  (s.holder = none ∧ ∀ j, (s.thread j).Reads obs) ∨ ∃ i c may, Inside obs s i c may

omit [DecidableEq ι] in
theorem Placed.reads (hs : Placed obs s) (hj : s.holder ≠ some j) : (s.thread j).Reads obs := by
  rcases hs with ⟨_, hreads⟩ | ⟨i, c, may, hs⟩
  · exact hreads j
  · refine hs.others j ?_
    rintro rfl
    exact hj hs.holder

omit [DecidableEq ι] in
theorem Placed.inside (hs : Placed obs s) (hj : s.holder = some j) :
    ∃ c may, Inside obs s j c may := by
  rcases hs with ⟨hfree, _⟩ | ⟨i, c, may, hs⟩
  · rw [hfree] at hj
    cases hj
  · obtain rfl := Option.some.inj (hs.holder.symm.trans hj)
    exact ⟨c, may, hs⟩

theorem reads_update {th : ι → Thread κ S} {t : Thread κ S} (hth : ∀ k, k ≠ i → (th k).Reads obs)
    (ht : t.Reads obs) : ∀ k, (update th i t k).Reads obs :=
  (forall_update_iff th fun _ t => t.Reads obs).mpr ⟨ht, hth⟩

/-- A thread that takes the lock. -/
theorem inside_enter (hreads : ∀ k, (s.thread k).Reads obs) (hentry : (s.thread j).entry = some c) :
    Inside obs ⟨⟨s.mem, update s.thread j (.run c)⟩, some j⟩ j c true := by
  refine ⟨rfl, update_self .., (hreads j).entry hentry s.mem, ?_⟩
  exact (forall_update_iff s.thread fun k t => k ≠ j → t.Reads obs).mpr
    ⟨fun hne => absurd rfl hne, fun k _ _ => hreads k⟩

theorem Placed.outside (hs : Placed obs s) (hj : s.holder ≠ some j)
    (hout : Outside obs M s j t) : Placed obs t := by
  rcases hs with ⟨hfree, hreads⟩ | ⟨i, c, may, hs⟩
  · obtain ⟨d, d', _, hd', rfl, _⟩ := hout
    exact .inl ⟨hfree, reads_update (fun k _ => hreads k) hd'⟩
  · have hji : j ≠ i := by
      rintro rfl
      exact hj hs.holder
    exact .inr ⟨i, c, may, hout.inside hs hji⟩

theorem Leaves.placed {next : Thread κ S} (h : Leaves obs s i c t next)
    (hs : Inside obs s i c may) : t.holder = none ∧ Placed obs t := by
  rw [h.state_eq]
  exact ⟨rfl, .inl ⟨rfl, reads_update hs.others h.reads⟩⟩

theorem placed_step (hs : Placed obs s) (hst : Step s j t) : Placed obs t := by
  by_cases hj : s.holder = some j
  · obtain ⟨c, may, hs⟩ := hs.inside hj
    rcases hs.step hst with ⟨c', may', vs, hgo⟩ | ⟨next, hleaves⟩
    · exact .inr ⟨j, c', may', hgo.inside⟩
    · exact (hleaves.placed hs).2
  · rcases hst.outside (M := fun _ _ => True) (fun _ => trivial) (hs.reads hj) with
      hout | ⟨c, hentry, hfree, rfl⟩
    · exact hs.outside hj hout
    · have hreads : ∀ k, (s.thread k).Reads obs := fun k => hs.reads (by rw [hfree]; nofun)
      exact .inr ⟨j, c, true, inside_enter hreads hentry⟩

/-! ## Whole sections -/

/-- Before the commit, `p` is the pool in which the section has not begun. -/
structure Before (obs : S → O) (s : State κ S ι) (i : ι) (c : Code κ S) (p : Pool κ S ι) :
    Prop where
  inside : Inside obs s i c true
  obs_eq : obs p.mem = obs s.mem
  begun : ∃ c₀ sent, (p.thread i).entry = some c₀ ∧
    c₀.locked [] p.mem = c.locked sent s.mem ∧
    Wakes sent p.thread (update s.thread i (p.thread i))

/-- After the commit, `p` is a pool in which the section is done. -/
def After (obs : S → O) (s : State κ S ι) (i : ι) (c : Code κ S) (p : Pool κ S ι) : Prop :=
  ∃ out th, c.locked [] s.mem = some out ∧ obs out.mem = obs s.mem ∧
    Wakes out.signals s.thread th ∧ p = ⟨out.mem, update th i out.next⟩

/-- What the moves `M` of a pool make of a run from `s` to `q`. -/
structure Runs (obs : S → O) (M : Pool κ S ι → Pool κ S ι → Prop) (s : State κ S ι)
    (q : Pool κ S ι) : Prop where
  free : s.holder = none → ReflTransGen M s.toPool q
  before : ∀ {i c p}, Before obs s i c p → ReflTransGen M p q
  after : ∀ {i c}, Inside obs s i c false → ∃ p, After obs s i c p ∧ ReflTransGen M p q

theorem runs_refl (q : Pool κ S ι) : Runs obs M ⟨q, none⟩ q := by
  refine ⟨fun _ => .refl, fun hs => ?_, fun hs => ?_⟩
  · cases hs.inside.holder
  · cases hs.holder

omit [DecidableEq ι] in
theorem Inside.isAsleep (h : Inside obs s i c may) : (s.thread i).isAsleep = false := by
  rw [h.code]
  rfl

/-! ### The thread with the lock -/

/-- The section goes on, and has not committed. -/
theorem Before.goesOn {c' : Code κ S} {vs : List κ} (h : Before obs s i c p)
    (hgo : GoesOn obs s i c true t c' true vs) (hsame : obs t.mem = obs s.mem) :
    Before obs t i c' p := by
  obtain ⟨c₀, sent, hentry, hlocked, hwakes⟩ := h.begun
  refine ⟨hgo.inside, h.obs_eq.trans hsame.symm, c₀, sent ++ vs, hentry, ?_, ?_⟩
  · rw [hlocked, hgo.locked]
  · exact hwakes.append (hgo.wakes _ (Thread.isAsleep_of_entry hentry))

/-- **The commit.** What is left of the section is done at once. -/
theorem Before.commit {c' : Code κ S} {vs : List κ} {p' : Pool κ S ι} (h : Before obs s i c p)
    (hgo : GoesOn obs s i c true t c' false vs) (hafter : After obs t i c' p') :
    Lib.Step p i p' := by
  obtain ⟨c₀, sent, hentry, hlocked, hwakes⟩ := h.begun
  obtain ⟨out, th, hout, _, hrest, rfl⟩ := hafter
  have hasleep := Thread.isAsleep_of_entry hentry
  have hall : c₀.locked [] p.mem =
      some { out with signals := sent ++ vs ++ out.signals } := by
    rw [hlocked, hgo.locked, Code.locked_sent, hout]
    rfl
  have hstep := Lib.Step.locked hentry hall
    ((hwakes.append (hgo.wakes _ hasleep)).compose hrest hgo.inside.isAsleep hasleep)
  rw [update_idem] at hstep
  exact hstep

/-- A section that ends without one. -/
theorem Before.leaves {next : Thread κ S} (h : Before obs s i c p)
    (hleaves : Leaves obs s i c t next) : Lib.Step p i t.toPool := by
  obtain ⟨c₀, sent, hentry, hlocked, hwakes⟩ := h.begun
  have hstep := Lib.Step.locked hentry (hlocked.trans (hleaves.locked sent)) hwakes
  rw [update_idem] at hstep
  rw [hleaves.state_eq]
  exact hstep

/-- The section goes on, and has committed. -/
theorem After.goesOn {c' : Code κ S} {vs : List κ} (h : After obs t i c' p)
    (hs : Inside obs s i c false) (hgo : GoesOn obs s i c false t c' false vs)
    (hsame : obs t.mem = obs s.mem) : After obs s i c p := by
  obtain ⟨out, th, hlocked, hobs, hwakes, rfl⟩ := h
  have hfirst := hgo.wakes (s.thread i) hs.isAsleep
  rw [update_eq_self] at hfirst
  refine ⟨{ out with signals := vs ++ out.signals }, update th i (s.thread i), ?_,
    hobs.trans hsame, hfirst.compose hwakes hgo.inside.isAsleep hs.isAsleep, ?_⟩
  · rw [hgo.locked, Code.locked_sent, hlocked]
    rfl
  · rw [update_idem]

theorem Leaves.after {next : Thread κ S} (h : Leaves obs s i c t next) :
    After obs s i c t.toPool := by
  rw [h.state_eq]
  exact ⟨_, s.thread, h.locked [], rfl, .done _, rfl⟩

theorem Runs.own (h : Runs obs M t q) (hM : ∀ {p i q}, Lib.Step p i q → M p q)
    (hj : s.holder = some j) (hst : Step s j t) : Runs obs M s q := by
  have heq : ∀ {i c may}, Inside obs s i c may → i = j :=
    fun hs => Option.some.inj (hs.holder.symm.trans hj)
  refine ⟨fun hfree => ?_, fun hs => ?_, fun hs => ?_⟩
  · rw [hfree] at hj
    cases hj
  · obtain rfl := heq hs.inside
    rcases hs.inside.step hst with ⟨c', may', vs, hgo⟩ | ⟨next, hleaves⟩
    · rcases hgo.commits with ⟨rfl, hsame⟩ | ⟨_, rfl⟩
      · exact h.before (hs.goesOn hgo hsame)
      · obtain ⟨p', hafter, hrun⟩ := h.after hgo.inside
        exact .head (hM (hs.commit hgo hafter)) hrun
    · exact .head (hM (hs.leaves hleaves)) (h.free (hleaves.placed hs.inside).1)
  · obtain rfl := heq hs
    rcases hs.step hst with ⟨c', may', vs, hgo⟩ | ⟨next, hleaves⟩
    · rcases hgo.commits with ⟨rfl, hsame⟩ | ⟨hmay, _⟩
      · obtain ⟨p, hafter, hrun⟩ := h.after hgo.inside
        exact ⟨p, hafter.goesOn hs hgo hsame, hrun⟩
      · cases hmay
    · exact ⟨_, hleaves.after, h.free (hleaves.placed hs).1⟩

/-! ### The others -/

theorem Runs.enter (h : Runs obs M ⟨⟨s.mem, update s.thread j (.run c)⟩, some j⟩ q)
    (hreads : ∀ k, (s.thread k).Reads obs) (hentry : (s.thread j).entry = some c)
    (hfree : s.holder = none) : Runs obs M s q := by
  refine ⟨fun _ => ?_, fun hs => ?_, fun hs => ?_⟩
  · refine h.before ⟨inside_enter hreads hentry, rfl, c, [], hentry, rfl, ?_⟩
    show Wakes [] s.thread (update (update s.thread j (.run c)) j (s.thread j))
    rw [update_idem, update_eq_self]
    exact .done _
  · cases hfree.symm.trans hs.inside.holder
  · cases hfree.symm.trans hs.holder

/-- What another thread does before the commit is done before the section. -/
theorem Before.other (h : Before obs s i c p) (hij : j ≠ i) (hout : Outside obs M s j t) :
    ∃ p', M p p' ∧ Before obs t i c p' := by
  have hinside := hout.inside h.inside hij
  obtain ⟨d, d', hd, _, rfl, hstep⟩ := hout
  obtain ⟨c₀, sent, hentry, hlocked, hwakes⟩ := h.begun
  have hj : p.thread j = .run d := by
    rcases hwakes.thread j with heq | ⟨v, e, _, hwoken⟩
    · rw [update_of_ne hij, hd] at heq
      exact heq.symm
    · rw [update_of_ne hij, hd] at hwoken
      cases hwoken
  refine ⟨_, hstep p hj h.obs_eq, hinside, h.obs_eq, c₀, sent, ?_, hlocked, ?_⟩
  · exact (congrArg Thread.entry (update_of_ne hij.symm ..)).trans hentry
  · show Wakes sent (update p.thread j (.run d'))
      (update (update s.thread j (.run d')) i (update p.thread j (.run d') i))
    rw [update_of_ne hij.symm, update_comm hij]
    refine hwakes.put ?_ rfl
    rw [hj]
    rfl

/-- What another thread does after the commit is done after the section. -/
theorem After.other (h : After obs t i c p) (hij : j ≠ i) (hout : Outside obs M s j t) :
    ∃ p', After obs s i c p' ∧ M p' p := by
  obtain ⟨d, d', hd, _, rfl, hstep⟩ := hout
  obtain ⟨out, th, hlocked, hobs, hwakes, rfl⟩ := h
  have hj : th j = .run d' := (hwakes.eq_of_not_asleep (i := j) (by simp [Thread.isAsleep])).trans
    (update_self ..)
  have hback : Wakes out.signals s.thread (update th j (.run d)) := by
    have hput := hwakes.put (i := j) (t := .run d) (by simp [Thread.isAsleep]) rfl
    rw [update_idem, ← hd, update_eq_self] at hput
    rw [← hd]
    exact hput
  refine ⟨_, ⟨out, _, hlocked, hobs, hback, rfl⟩, ?_⟩
  have hthis := hstep ⟨out.mem, update (update th j (.run d)) i out.next⟩ (by simp [hij]) hobs
  have hthreads : update (update (update th j (Thread.run d)) i out.next) j (.run d') =
      update th i out.next := by
    rw [update_comm hij.symm, update_idem, ← hj, update_eq_self]
  rwa [hthreads] at hthis

theorem Runs.outside (h : Runs obs M t q) (hj : s.holder ≠ some j)
    (hout : Outside obs M s j t) : Runs obs M s q := by
  have hne : ∀ {i c may}, Inside obs s i c may → j ≠ i := by
    rintro i c may hs rfl
    exact hj hs.holder
  refine ⟨fun hfree => ?_, fun hs => ?_, fun hs => ?_⟩
  · obtain ⟨d, d', hd, _, rfl, hstep⟩ := hout
    exact .head (hstep s.toPool hd rfl) (h.free hfree)
  · obtain ⟨p', hmove, hbefore⟩ := hs.other (hne hs.inside) hout
    exact .head hmove (h.before hbefore)
  · obtain ⟨p, hafter, hrun⟩ := h.after (hout.inside hs (hne hs))
    obtain ⟨p', hafter', hmove⟩ := hafter.other (hne hs) hout
    exact ⟨p', hafter', .head hmove hrun⟩

theorem Runs.cons (h : Runs obs M t q) (hM : ∀ {p i q}, Lib.Step p i q → M p q)
    (hs : Placed obs s) (hst : Step s j t) : Runs obs M s q := by
  by_cases hj : s.holder = some j
  · exact h.own hM hj hst
  · rcases hst.outside hM (hs.reads hj) with hout | ⟨c, hentry, hfree, rfl⟩
    · exact h.outside hj hout
    · exact h.enter (fun k => hs.reads (by rw [hfree]; nofun)) hentry hfree

theorem runs {tr : List (ι × State κ S ι)} (h : Trace Step s tr) (hs : Placed obs s)
    (hlast : lastState s tr = ⟨q, none⟩) : Runs obs (fun p q => ∃ i, Lib.Step p i q) s q := by
  induction h with
  | nil s =>
    subst hlast
    exact runs_refl q
  | cons hst _ ih => exact (ih (placed_step hs hst) hlast).cons (fun hstep => ⟨_, hstep⟩) hs hst

/-! ## And back -/

/-- The thread with the lock can bring its section to its end. -/
theorem reaches_end {out : Section κ S} {th : ι → Thread κ S} (hcode : s.thread i = .run c)
    (hlocked : c.locked [] s.mem = some out) (hwakes : Wakes out.signals s.thread th) :
    Reaches Step s ⟨⟨out.mem, update th i out.next⟩, none⟩ := by
  have hi : (s.thread i).isAsleep = false := by
    rw [hcode]
    rfl
  -- what the thread has come to does not matter for who is woken, nor for the end
  have hput : ∀ {vs : List κ} {th₁ th' : ι → Thread κ S} (d : Code κ S),
      (th₁ i).isAsleep = false → Wakes vs th₁ th' →
      Wakes vs (update th₁ i (.run d)) (update th' i (.run d)) :=
    fun d hth₁ hvs => hvs.put hth₁ rfl
  induction c generalizing s out th with
  | exit ok => cases hlocked
  | print message next ih =>
    have hrest := ih (s := ⟨⟨s.mem, update s.thread i (.run next)⟩, s.holder⟩) (update_self ..)
      hlocked (hput next hi hwakes) (by simp [Thread.isAsleep])
    rw [update_idem] at hrest
    exact .cons (.print hcode) hrest
  | load next ih =>
    have hrest := ih s.mem (s := ⟨⟨s.mem, update s.thread i (.run (next s.mem))⟩, s.holder⟩)
      (update_self ..) hlocked (hput _ hi hwakes) (by simp [Thread.isAsleep])
    rw [update_idem] at hrest
    exact .cons (.load hcode) hrest
  | lock next ih => cases hlocked
  | store f next ih =>
    have hrest := ih (s := ⟨⟨f s.mem, update s.thread i (.run next)⟩, s.holder⟩)
      (update_self ..) hlocked (hput next hi hwakes) (by simp [Thread.isAsleep])
    rw [update_idem] at hrest
    exact .cons (.store hcode) hrest
  | signal v next ih =>
    have hnext : next.locked [v] s.mem = some out := hlocked
    rw [Code.locked_sent] at hnext
    obtain ⟨out', hout', rfl⟩ := Option.map_eq_some_iff.mp hnext
    obtain ⟨th₁, hone, hothers⟩ : ∃ th₁, Wakes [v] s.thread th₁ ∧ Wakes out'.signals th₁ th :=
      Wakes.of_append hwakes
    have hi₁ : (th₁ i).isAsleep = false := by
      rw [hone.eq_of_not_asleep hi]
      exact hi
    have hrest := ih (s := ⟨⟨s.mem, update th₁ i (.run next)⟩, s.holder⟩)
      (update_self ..) hout' (hput next hi₁ hothers) (by simp [Thread.isAsleep])
    rw [update_idem] at hrest
    exact .cons (.signal hcode hone) hrest
  | await v c next ih =>
    cases hc : c s.mem with
    | true =>
      simp only [Code.locked, hc, if_true, Option.some.injEq] at hlocked
      subst hlocked
      obtain rfl := hwakes.nil
      exact .cons (.sleep hcode hc) (.refl _)
    | false =>
      have hnext : next.locked [] s.mem = some out := by simpa [Code.locked, hc] using hlocked
      have hrest := ih (s := ⟨⟨s.mem, update s.thread i (.run next)⟩, s.holder⟩)
        (update_self ..) hnext (hput next hi hwakes) (by simp [Thread.isAsleep])
      rw [update_idem] at hrest
      exact .cons (.goOn hcode hc) hrest
  | unlock next ih =>
    cases hlocked
    obtain rfl := hwakes.nil
    exact .cons (.unlock hcode) (.refl _)

theorem reaches_of_step (h : Lib.Step p i q) :
    Reaches Step (⟨p, none⟩ : State κ S ι) ⟨q, none⟩ := by
  cases h with
  | print hrun => exact .cons (.print hrun) (.refl _)
  | load hrun => exact .cons (.load hrun) (.refl _)
  | @locked c out th hentry hout hwakes =>
    have hend := reaches_end (s := (⟨⟨p.mem, update p.thread i (.run c)⟩, some i⟩ : State κ S ι))
      (update_self ..) hout (hwakes.put (t := .run c) (Thread.isAsleep_of_entry hentry) rfl)
    rw [update_idem] at hend
    exact .cons (.enter hentry rfl) hend

theorem reaches_of_sections (h : Reaches Lib.Step p q) :
    Reaches Step (⟨p, none⟩ : State κ S ι) ⟨q, none⟩ := by
  obtain ⟨tr, htr, rfl⟩ := h
  induction htr with
  | nil p => exact .refl _
  | cons hst _ ih => exact (reaches_of_step hst).trans ih

/-- **Reduction.** Where the lock is free, single statements lead to what whole sections lead to,
and to nothing else. -/
theorem reaches_iff (hp : ∀ j, (p.thread j).Reads obs) :
    Reaches Step (⟨p, none⟩ : State κ S ι) ⟨q, none⟩ ↔ Reaches Lib.Step p q := by
  constructor
  · rintro ⟨tr, htr, hlast⟩
    exact reaches_iff_reflTransGen.mpr ((runs htr (.inl ⟨rfl, hp⟩) hlast).free rfl)
  · exact reaches_of_sections

/-- **No section is stuck.** -/
theorem Placed.exists_free (hs : Placed obs s) : ∃ q, Reaches Step s ⟨q, none⟩ := by
  obtain ⟨⟨m, th⟩, holder⟩ := s
  rcases hs with ⟨rfl, _⟩ | ⟨i, c, may, hs⟩
  · exact ⟨⟨m, th⟩, .refl _⟩
  · obtain ⟨out, hout⟩ := hs.reads.locked []
    obtain ⟨th', hwakes⟩ := Wakes.exists_of out.signals th
    exact ⟨_, reaches_end hs.code hout hwakes⟩

/-- Wherever a run stands, the lock can be given back. -/
theorem exists_free (hp : ∀ j, (p.thread j).Reads obs)
    (hs : Reaches Step (⟨p, none⟩ : State κ S ι) s) : ∃ q, Reaches Step s ⟨q, none⟩ := by
  obtain ⟨tr, htr, rfl⟩ := hs
  have hplaced : Placed obs (lastState (⟨p, none⟩ : State κ S ι) tr) :=
    (htr.allStates (fun _ _ _ => placed_step) (.inl ⟨rfl, hp⟩)).last
  exact hplaced.exists_free

end Statement

/-! ## What is stored -/

/-- Whatever the program stores, `R` has the record before it and the one after. -/
def Code.Stores (R : S → S → Prop) : Code κ S → Prop
  | .exit _ => True
  | .print _ next => next.Stores R
  | .load next => ∀ s, (next s).Stores R
  | .lock next => next.Stores R
  | .store f next => (∀ s, R s (f s)) ∧ next.Stores R
  | .signal _ next => next.Stores R
  | .await _ _ next => next.Stores R
  | .unlock next => next.Stores R

def Thread.Stores (R : S → S → Prop) : Thread κ S → Prop
  | .run c => c.Stores R
  | .asleep _ c => c.Stores R
  | .woken c => c.Stores R

theorem Code.stores_ite {R : S → S → Prop} {c : Prop} [Decidable c] {a b : Code κ S}
    (ha : a.Stores R) (hb : b.Stores R) : (if c then a else b).Stores R := by
  split
  · exact ha
  · exact hb

theorem Code.stores_branch {R : S → S → Prop} {c : S → Bool} {body : Code κ S → Code κ S}
    {next : Code κ S} (hbody : next.Stores R → (body next).Stores R) (hnext : next.Stores R) :
    (Code.branch c body next).Stores R :=
  fun _ => Code.stores_ite (hbody hnext) hnext

theorem Thread.Stores.awaken {R : S → S → Prop} {t : Thread κ S} (h : t.Stores R) :
    t.awaken.Stores R := by
  cases t with
  | run c => exact h
  | asleep v c => exact h
  | woken c => exact h

theorem Thread.Stores.entry {R : S → S → Prop} {t : Thread κ S} (h : t.Stores R) {c : Code κ S}
    (hc : t.entry = some c) : c.Stores R := by
  cases t with
  | run d =>
    cases d with
    | lock d =>
      cases hc
      exact h
    | _ => cases hc
  | asleep v d => cases hc
  | woken d =>
    cases hc
    exact h

/-- **A statement changes the record as its program may**, or not at all, and leaves every thread
with a program that may do no more than before. -/
theorem Statement.Step.stores {ι : Type*} [DecidableEq ι] {R : ι → S → S → Prop}
    {s t : Statement.State κ S ι} {i : ι} (h : Statement.Step s i t)
    (hs : ∀ j, (s.thread j).Stores (R j)) :
    (∀ j, (t.thread j).Stores (R j)) ∧ (t.mem = s.mem ∨ R i s.mem t.mem) := by
  have hput : ∀ {th : ι → Thread κ S} {u : Thread κ S}, (∀ j, (th j).Stores (R j)) →
      u.Stores (R i) → ∀ j, (update th i u j).Stores (R j) := fun hth hu =>
    (forall_update_iff _ fun j (t : Thread κ S) => t.Stores (R j)).mpr ⟨hu, fun j _ => hth j⟩
  have hi := hs i
  cases h with
  | print hrun =>
    rw [hrun] at hi
    exact ⟨hput hs hi, .inl rfl⟩
  | load hrun =>
    rw [hrun] at hi
    exact ⟨hput hs (hi s.mem), .inl rfl⟩
  | enter hentry _ => exact ⟨hput hs (hi.entry hentry), .inl rfl⟩
  | store hrun =>
    rw [hrun] at hi
    exact ⟨hput hs hi.2, .inr (hi.1 s.mem)⟩
  | signal hrun hwakes =>
    rw [hrun] at hi
    exact ⟨hput (fun j => hwakes.keeps (P := Thread.Stores (R j)) (fun _ => .awaken) (hs j)) hi,
      .inl rfl⟩
  | goOn hrun _ =>
    rw [hrun] at hi
    exact ⟨hput hs hi, .inl rfl⟩
  | sleep hrun _ =>
    rw [hrun] at hi
    exact ⟨hput hs hi, .inl rfl⟩
  | unlock hrun =>
    rw [hrun] at hi
    exact ⟨hput hs hi, .inl rfl⟩

end Lib
end Cab403
