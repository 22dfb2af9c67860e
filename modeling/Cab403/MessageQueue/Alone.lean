import Cab403.MessageQueue.Updates

/-!
# How many threads the message queue bears

`msgq` takes the numbers of its producers and consumers from the command line. A producer alone
keeps the queue in order: it sees itself that the buffer is full before it stores again
(`Pc.Alone`). With anyone beside it the code cannot be scheduled safely. A consumer that comes
first takes a message from below the buffer. Of two producers one can pass its wait loop while the
other fills the last slot, and then stores past the end.
-/

namespace Cab403
namespace MessageQueue

open Function Lib

/-! ## One producer -/

/-- What a producer that is alone knows of the queue. -/
def Pc.Alone (m : Queue) : Pc → Prop
  | .prodLoop | .prodWait _ => m.isRoom = true → m.position < BUFFER_SIZE
  | .prodLoad _ => m.position < BUFFER_SIZE
  | .prodUpdate _ p | .prodMove p => p < BUFFER_SIZE
  | .prodStore _ _ | .prodReport | .prodTest => m.position ≤ BUFFER_SIZE
  | .prodFull | .returned => True
  | _ => False

theorem alone_advance {m m' : Queue} {p p' : Pc} {time : Int} {accessFirst : Bool}
    (h : p.Alone m) (hstep : advance time accessFirst m p = some (m', p')) : p'.Alone m' := by
  cases p with
  | prodLoop =>
    cases hstep
    cases m.keepRunning with
    | true => exact h
    | false => trivial
  | prodWait message =>
    cases hstep
    cases hroom : m.isRoom with
    | true => exact h hroom
    | false => exact h
  | prodLoad message =>
    cases hstep
    exact h
  | prodUpdate message p =>
    cases accessFirst with
    | true =>
      cases hstep
      exact h
    | false =>
      cases hstep
      exact Int.add_one_le_of_lt h
  | prodMove p =>
    cases hstep
    exact Int.add_one_le_of_lt h
  | prodStore message p | prodReport =>
    cases hstep
    exact h
  | prodTest =>
    cases hstep
    by_cases hfull : m.position = BUFFER_SIZE
    · rw [if_pos hfull]
      trivial
    · rw [if_neg hfull]
      exact fun _ => Int.lt_iff_le_and_ne.mpr ⟨h, hfull⟩
  | prodFull =>
    cases hstep
    exact nofun
  | returned => cases hstep
  | _ => exact absurd h id

/-- The update of a producer that is alone can be made. -/
theorem Pc.Alone.canUpdate {m : Queue} {p : Pc} (h : p.Alone m) (hbegins : p.Begins) :
    p.CanUpdate m ∧ ¬ p.InUpdate := by
  cases p with
  | prodLoad message => exact ⟨h, id⟩
  | consLoad => exact absurd h id
  | _ => exact absurd hbegins id

section Run

variable {ι : Type*} [DecidableEq ι] {role : ι → Role} {s t : State ι} {e : Event ι}

theorem alone_step (hone : ∀ i j : ι, i = j) (hs : ∀ i, (s.pc i).Alone s.queue)
    (hst : Step s e t) : (∀ i, (t.pc i).Alone t.queue) ∧ Guarded s e t := by
  cases e with
  | stop =>
    obtain ⟨_, rfl⟩ := step_stop hst
    refine ⟨fun i => ?_, trivial⟩
    have hi := hs i
    show (s.pc i).Alone _
    cases hpc : s.pc i with
    | _ =>
      rw [hpc] at hi
      exact hi
  | thread i time accessFirst =>
    obtain ⟨m, p, hadv, rfl⟩ := step_thread hst
    refine ⟨fun j => ?_, fun hbegins => ?_⟩
    · obtain rfl := hone i j
      show (update s.pc i p i).Alone m
      rw [update_self]
      exact alone_advance (hs i) hadv
    · obtain ⟨hcan, hnot⟩ := (hs i).canUpdate hbegins
      refine ⟨hcan, fun j => ?_⟩
      obtain rfl := hone i j
      exact hnot

theorem safe_alone (hproducer : ∀ i, role i = .producer) (hone : ∀ i j : ι, i = j)
    (buffer : Int → Int) {tr : List (Event ι × State ι)}
    (h : Trace Step (initial role buffer) tr) :
    AllStates (fun s => Safe s.queue) (initial role buffer) tr := by
  have hstart : ∀ i, ((initial role buffer).pc i).Alone (initial role buffer).queue := by
    intro i
    show (role i).start.Alone _
    rw [hproducer i]
    have hempty : (0 : Int) < BUFFER_SIZE := by decide
    exact fun _ => hempty
  have hguard := h.allSteps (fun _ _ _ => alone_step hone) hstart
  exact ((h.restrict hguard).allStates (I := Inv)
    (fun _ _ _ hs hst => inv_step hs hst.1 hst.2) (inv_initial role buffer)).imp
    fun _ hs => hs.safe

/-! ## Runs of one thread -/

/-- A step of a thread nobody interferes with. -/
def Solo (x : Queue × Pc) (l : Int × Bool) (y : Queue × Pc) : Prop :=
  advance l.1 l.2 x.1 x.2 = some y

theorem reaches_solo {i : ι} {m m' : Queue} {p p' : Pc} (h : Reaches Solo (m, p) (m', p'))
    (hqueue : s.queue = m) (hpc : s.pc i = p) :
    ∃ t, Reaches Step s t ∧ t.queue = m' ∧ t.pc i = p' ∧ ∀ j, j ≠ i → t.pc j = s.pc j := by
  obtain ⟨tr, htr, hlast⟩ := h
  generalize hx : (m, p) = x at htr hlast
  induction htr generalizing s m p with
  | nil x =>
    obtain ⟨rfl, rfl⟩ := Prod.mk.inj (hx.trans hlast)
    exact ⟨s, .refl s, hqueue, hpc, fun _ _ => rfl⟩
  | @cons x y l tr hst _ ih =>
    subst hx hqueue hpc
    have hstep : Step s (.thread i l.1 l.2) ⟨y.1, s.main, update s.pc i y.2⟩ := by
      have hadv : advance l.1 l.2 s.queue (s.pc i) = some y := hst
      simp [Step, State.step, hadv]
    obtain ⟨t, hrest, hqueue, hpc, hothers⟩ :=
      ih (s := ⟨y.1, s.main, update s.pc i y.2⟩) rfl (update_self ..) rfl hlast
    refine ⟨t, .cons hstep hrest, hqueue, hpc, fun j hj => ?_⟩
    exact (hothers j hj).trans (update_of_ne hj ..)

/-- Past the wait loop. -/
theorem solo_load {m : Queue} (hrun : m.keepRunning = true) (hroom : m.isRoom = true) :
    Reaches Solo (m, .prodLoop) (m, .prodLoad 0) := by
  have hloop : Solo (m, .prodLoop) (0, true) (m, .prodWait 0) := by simp [Solo, advance, hrun]
  have hwait : Solo (m, .prodWait 0) (0, true) (m, .prodLoad 0) := by simp [Solo, advance, hroom]
  exact .cons hloop (.cons hwait (.refl _))

/-- What a producer makes of the queue. -/
def Queue.pushed (m : Queue) : Queue := { m.store m.position 0 with position := m.position + 1 }

theorem solo_update (m : Queue) : Reaches Solo (m, .prodLoad 0) (m.pushed, .prodReport) := by
  have hload : Solo (m, .prodLoad 0) (0, true) (m, .prodUpdate 0 m.position) := rfl
  have hstore : Solo (m, .prodUpdate 0 m.position) (0, true)
      (m.store m.position 0, .prodMove m.position) := rfl
  have hmove : Solo (m.store m.position 0, .prodMove m.position) (0, true)
      (m.pushed, .prodReport) := rfl
  exact .cons hload (.cons hstore (.cons hmove (.refl _)))

theorem solo_push {m : Queue} (hrun : m.keepRunning = true) (hroom : m.isRoom = true)
    (hmore : m.position + 1 ≠ BUFFER_SIZE) :
    Reaches Solo (m, .prodLoop) (m.pushed, .prodLoop) := by
  have hreport : Solo (m.pushed, .prodReport) (0, true) (m.pushed, .prodTest) := rfl
  have htest : Solo (m.pushed, .prodTest) (0, true) (m.pushed, .prodLoop) := by
    have hne : ¬ m.pushed.position = BUFFER_SIZE := hmore
    simp [Solo, advance, hne]
  exact (solo_load hrun hroom).trans
    ((solo_update m).trans (.cons hreport (.cons htest (.refl _))))

theorem solo_fill {m : Queue} (hrun : m.keepRunning = true) (hroom : m.isRoom = true)
    (hempty : m.position = 0) (n : Nat) (hn : (n : Int) < BUFFER_SIZE) :
    ∃ m', Reaches Solo (m, .prodLoop) (m', .prodLoop) ∧ m'.position = n ∧
      m'.keepRunning = true ∧ m'.isRoom = true := by
  induction n with
  | zero => exact ⟨m, .refl _, hempty, hrun, hroom⟩
  | succ n ih =>
    obtain ⟨m', hfill, hposition, hrun', hroom'⟩ := ih (by omega)
    refine ⟨m'.pushed, hfill.trans (solo_push hrun' hroom' ?_), ?_, hrun', hroom'⟩
    · omega
    · show m'.position + 1 = _
      rw [hposition]
      rfl

/-! ## Anyone beside it -/

/-- Every access of the buffer is within it. -/
def InBuffer (s : State ι) : Prop := ∀ k ∈ s.queue.accessed, 0 ≤ k ∧ k < BUFFER_SIZE

theorem reaches_below {i : ι} (hi : role i = .consumer) (buffer : Int → Int) :
    ∃ s, Reaches Step (initial role buffer) s ∧ ¬ InBuffer s := by
  have hstart : (initial role buffer).pc i = .consLoop := congrArg Role.start hi
  generalize hm : (initial role buffer).queue = m
  obtain ⟨hrun, hempty⟩ : m.keepRunning = true ∧ m.position = 0 := by
    subst hm
    exact ⟨rfl, rfl⟩
  have hloop : Solo (m, .consLoop) (0, true) (m, .consWait) := by simp [Solo, advance, hrun]
  have hwait : Solo (m, .consWait) (0, true) (m, .consLoad) := by simp [Solo, advance, hempty]
  have hload : Solo (m, .consLoad) (0, true) (m, .consUpdate 0) := by simp [Solo, advance, hempty]
  have htake : Solo (m, .consUpdate 0) (0, true) (m.take (-1), .consMove 0 (m.buffer (-1))) := rfl
  obtain ⟨s, hs, hqueue, _⟩ :=
    reaches_solo (.cons hloop (.cons hwait (.cons hload (.cons htake (.refl _))))) hm hstart
  refine ⟨s, hs, fun hin => ?_⟩
  have hmem : -1 ∈ s.queue.accessed := by
    rw [hqueue]
    exact List.mem_append_right _ (List.mem_singleton.mpr rfl)
  exact absurd (hin (-1) hmem).1 (by decide)

theorem reaches_above {i j : ι} (hij : i ≠ j) (hi : role i = .producer) (hj : role j = .producer)
    (buffer : Int → Int) : ∃ s, Reaches Step (initial role buffer) s ∧ ¬ InBuffer s := by
  have hstart : ∀ {k}, role k = .producer → (initial role buffer).pc k = .prodLoop :=
    congrArg Role.start
  -- `i` fills all slots but one; `j` passes its wait loop; `i` fills the last, and `j` goes on
  obtain ⟨m, hfill, hposition, hrun, hroom⟩ :=
    solo_fill (m := (initial role buffer).queue) rfl rfl rfl 4 (by decide)
  have hload := solo_load hrun hroom
  obtain ⟨s₁, h₁, hqueue₁, hi₁, hothers₁⟩ := reaches_solo hfill rfl (hstart hi)
  obtain ⟨s₂, h₂, hqueue₂, hj₂, hothers₂⟩ :=
    reaches_solo hload hqueue₁ ((hothers₁ j hij.symm).trans (hstart hj))
  obtain ⟨s₃, h₃, hqueue₃, _, hothers₃⟩ :=
    reaches_solo (hload.trans (solo_update m)) hqueue₂ ((hothers₂ i hij).trans hi₁)
  obtain ⟨s₄, h₄, hqueue₄, _⟩ :=
    reaches_solo (solo_update m.pushed) hqueue₃ ((hothers₃ j hij.symm).trans hj₂)
  refine ⟨s₄, h₁.trans (h₂.trans (h₃.trans h₄)), fun hin => ?_⟩
  have hmem : m.position + 1 ∈ s₄.queue.accessed := by
    rw [hqueue₄]
    exact List.mem_append_right _ (List.mem_singleton.mpr rfl)
  have habove := (hin _ hmem).2
  rw [hposition] at habove
  exact absurd habove (by decide)

/-- **How many threads it bears.** In every run the queue is what it is to be, and in every run
its accesses are within the buffer, exactly with no consumer and at most one producer. -/
theorem safe_iff_alone (role : ι → Role) (buffer : Int → Int) :
    ((∀ tr, Trace Step (initial role buffer) tr →
        AllStates (fun s => Safe s.queue) (initial role buffer) tr) ↔
      (∀ i, role i = .producer) ∧ ∀ i j : ι, i = j) ∧
    ((∀ tr, Trace Step (initial role buffer) tr →
        AllStates InBuffer (initial role buffer) tr) ↔
      (∀ i, role i = .producer) ∧ ∀ i j : ι, i = j) := by
  have hsafe : (∀ i, role i = .producer) ∧ (∀ i j : ι, i = j) →
      ∀ tr, Trace Step (initial role buffer) tr →
        AllStates (fun s => Safe s.queue) (initial role buffer) tr :=
    fun halone tr htr => safe_alone halone.1 halone.2 buffer htr
  have hwithin : (∀ tr, Trace Step (initial role buffer) tr →
        AllStates (fun s => Safe s.queue) (initial role buffer) tr) →
      ∀ tr, Trace Step (initial role buffer) tr →
        AllStates InBuffer (initial role buffer) tr :=
    fun hall tr htr => (hall tr htr).imp fun _ hs => hs.accessed
  have halone : (∀ tr, Trace Step (initial role buffer) tr →
        AllStates InBuffer (initial role buffer) tr) →
      (∀ i, role i = .producer) ∧ ∀ i j : ι, i = j := by
    intro hall
    have hreach : ∀ {s}, Reaches Step (initial role buffer) s → InBuffer s := by
      rintro s ⟨tr, htr, rfl⟩
      exact (hall tr htr).last
    have hproducer : ∀ i, role i = .producer := by
      intro i
      cases hi : role i with
      | producer => rfl
      | consumer =>
        obtain ⟨s, hs, hout⟩ := reaches_below hi buffer
        exact absurd (hreach hs) hout
    refine ⟨hproducer, fun i j => ?_⟩
    by_contra hij
    obtain ⟨s, hs, hout⟩ := reaches_above hij (hproducer i) (hproducer j) buffer
    exact hout (hreach hs)
  exact ⟨⟨fun hall => halone (hwithin hall), hsafe⟩, halone, fun h => hwithin (hsafe h)⟩

end Run

end MessageQueue
end Cab403
