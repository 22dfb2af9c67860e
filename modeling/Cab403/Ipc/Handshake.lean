import Cab403.Ipc.SharedMemory

/-!
# The handshake hands every answer back

The invariant goes by the controller's program point, since that is what decides whose turn it
is. Away from its wait both semaphores are at zero and the worker is *at rest*: at its own wait,
or, once it has been given a request it has no answer to, on its way out. At its wait the
controller is in one of three situations (`Exchange`): it has asked and the worker has not taken
the request up, the worker is in the middle of `do_work`, or the worker has posted back.
-/

namespace Cab403
namespace Ipc

open Lib

variable {V : Type*}

/-! ## What a request asks for -/

/-- The value an arithmetic request is to be answered with: its operation on its own operands.
The other requests have none. -/
def Request.answer (ar : Arith V) (r : Request V) : Option V :=
  match r.op with
  | .op_add => some (ar.add r.lhs r.rhs)
  | .op_sub => some (ar.sub r.lhs r.rhs)
  | .op_mul => some (ar.mul r.lhs r.rhs)
  | .op_div => some (ar.div r.lhs r.rhs)
  | .op_quit => none
  | .other _ => none

theorem dispatch_some {ar : Arith V} {r : Request V} {v : V} (h : r.answer ar = some v) :
    dispatch ar r.op r.lhs r.rhs = .writeResult v := by
  obtain ⟨op, lhs, rhs⟩ := r
  cases op <;> simp_all [Request.answer, dispatch]

theorem dispatch_none {ar : Arith V} {r : Request V} (h : r.answer ar = none) :
    dispatch ar r.op r.lhs r.rhs = .post false := by
  obtain ⟨op, lhs, rhs⟩ := r
  cases op <;> simp_all [Request.answer, dispatch]

/-! ## The phases -/

def Quiet (b : SharedData V) : Prop := b.controllerSemaphore = 0 ∧ b.workerSemaphore = 0

def Holds (b : SharedData V) (r : Request V) : Prop :=
  b.operation = r.op ∧ b.lhs = r.lhs ∧ b.rhs = r.rhs

/-- The worker has left its loop. -/
def Gone : Worker V → Prop
  | .munmap | .clearFd | .clearData | .finished => True
  | _ => False

/-- The worker has served the requests and no other: it waits for the next one, unless one of
them had no answer. -/
def AtRest (ar : Arith V) (served : List (Request V)) (w : Worker V) : Prop :=
  ((∀ r ∈ served, r.answer ar ≠ none) ∧ w = .wait) ∨ ((∃ r ∈ served, r.answer ar = none) ∧ Gone w)

/-- The worker is between its wait and its post, serving `r`. -/
def Working (ar : Arith V) (r : Request V) (b : SharedData V) : Worker V → Prop
  | .readLhs => True
  | .readRhs x => x = r.lhs
  | .readOperation x y => x = r.lhs ∧ y = r.rhs
  | .writeResult v => r.answer ar = some v
  | .post true => r.answer ar = some b.result
  | .post false => r.answer ar = none
  | _ => False

/-- The result in the block is the answer to `r`, if `r` has one. -/
def Answered (ar : Arith V) (r : Request V) (result : V) : Prop :=
  ∀ v, r.answer ar = some v → result = v

/-- The situations of a controller that waits for the answer to `r`. -/
inductive Exchange (ar : Arith V) (served : List (Request V)) (r : Request V)
    (b : SharedData V) (w : Worker V) : Prop
  | asked (hc : b.controllerSemaphore = 1) (hw : b.workerSemaphore = 0)
      (rest : AtRest ar served w)
  | working (quiet : Quiet b) (all : ∀ r ∈ served, r.answer ar ≠ none)
      (working : Working ar r b w)
  | replied (hc : b.controllerSemaphore = 0) (hw : b.workerSemaphore = 1)
      (rest : AtRest ar (served ++ [r]) w) (answered : Answered ar r b.result)

def served (s : State V) : List (Request V) := s.calls.map Call.request

def Phase (ar : Arith V) (s : State V) : Prop :=
  match s.controller with
  | .wait r => Holds s.shared r ∧ Exchange ar (served s) r s.shared s.worker
  | .readResult r =>
    Quiet s.shared ∧ AtRest ar (served s ++ [r]) s.worker ∧ Answered ar r s.shared.result
  | .writeLhs r =>
    s.shared.operation = r.op ∧ Quiet s.shared ∧ AtRest ar (served s) s.worker
  | .writeRhs r =>
    (s.shared.operation = r.op ∧ s.shared.lhs = r.lhs) ∧
      Quiet s.shared ∧ AtRest ar (served s) s.worker
  | .post r => Holds s.shared r ∧ Quiet s.shared ∧ AtRest ar (served s) s.worker
  | _ => Quiet s.shared ∧ AtRest ar (served s) s.worker

/-- The request the controller is busy with. -/
def current : Controller V → List (Request V)
  | .writeOperation r | .writeLhs r | .writeRhs r | .post r | .wait r | .readResult r => [r]
  | _ => []

structure Inv (ar : Arith V) (script : List (Request V)) (s : State V) : Prop where
  script_eq : served s ++ current s.controller ++ s.todo = script
  answered : ∀ c ∈ s.calls, Answered ar c.request c.returned
  phase : Phase ar s

theorem inv_initial (ar : Arith V) (script : List (Request V)) (block : SharedData V)
    (cfd wfd : Int) : Inv ar script (initial script block cfd wfd) := by
  refine ⟨rfl, ?_, ?_⟩
  · intro c hc
    cases hc
  · refine ⟨⟨rfl, rfl⟩, .inl ⟨?_, rfl⟩⟩
    intro r hr
    cases hr

/-! ## Steps of the worker -/

/-- **The worker never touches a request**, nor anything of the controller's. -/
theorem workerStep_frame {ar : Arith V} {s t : State V} (h : workerStep ar s = some t) :
    (t.shared.operation = s.shared.operation ∧ t.shared.lhs = s.shared.lhs ∧
      t.shared.rhs = s.shared.rhs) ∧
    t.controller = s.controller ∧ t.todo = s.todo ∧ t.calls = s.calls := by
  obtain ⟨b, c, cm, w, wm, linked, todo, calls⟩ := s
  cases w with
  | wait =>
    simp only [workerStep] at h
    split at h
    · cases h
      exact ⟨⟨rfl, rfl, rfl⟩, rfl, rfl, rfl⟩
    · cases h
  | finished => cases h
  | _ =>
    cases h
    exact ⟨⟨rfl, rfl, rfl⟩, rfl, rfl, rfl⟩

theorem Gone.workerStep {ar : Arith V} {s t : State V} (hg : Gone s.worker)
    (h : workerStep ar s = some t) : t.shared = s.shared ∧ Gone t.worker := by
  obtain ⟨b, c, cm, w, wm, linked, todo, calls⟩ := s
  cases w with
  | munmap | clearFd | clearData =>
    cases h
    exact ⟨rfl, trivial⟩
  | finished => cases h
  | _ => exact absurd hg id

/-- A worker at rest takes nothing up unless it is asked. -/
theorem AtRest.workerStep {ar : Arith V} {l : List (Request V)} {s t : State V}
    (hr : AtRest ar l s.worker) (hc : s.shared.controllerSemaphore = 0)
    (h : workerStep ar s = some t) : t.shared = s.shared ∧ AtRest ar l t.worker := by
  rcases hr with ⟨_, hw⟩ | ⟨hquit, hgone⟩
  · simp only [Ipc.workerStep, hw] at h
    rw [if_neg (by omega)] at h
    cases h
  · obtain ⟨hshared, hgone'⟩ := hgone.workerStep h
    exact ⟨hshared, .inr ⟨hquit, hgone'⟩⟩

/-- Inside `do_work` a step leads to the next program point, or posts the answer back. -/
theorem Working.workerStep {ar : Arith V} {l : List (Request V)} {r : Request V} {s t : State V}
    (hs : Holds s.shared r) (hq : Quiet s.shared) (hall : ∀ r ∈ l, r.answer ar ≠ none)
    (hw : Working ar r s.shared s.worker) (h : workerStep ar s = some t) :
    Exchange ar l r t.shared t.worker := by
  obtain ⟨b, c, cm, w, wm, linked, todo, calls⟩ := s
  obtain ⟨hop, hlhs, hrhs⟩ := hs
  cases w with
  | readLhs =>
    cases h
    exact .working hq hall hlhs
  | readRhs x =>
    cases h
    exact .working hq hall ⟨hw, hrhs⟩
  | readOperation x y =>
    cases h
    obtain ⟨rfl, rfl⟩ := hw
    refine .working hq hall ?_
    -- the one read of `operation`: which branch of the switch the request takes
    rw [show b.operation = r.op from hop]
    cases ha : r.answer ar with
    | some v =>
      rw [dispatch_some ha]
      exact ha
    | none =>
      rw [dispatch_none ha]
      exact ha
  | writeResult v =>
    cases h
    exact .working hq hall hw
  | post retVal =>
    cases h
    cases retVal with
    | true =>
      refine .replied hq.1 (congrArg (· + 1) hq.2) (.inl ⟨?_, rfl⟩) ?_
      · intro r' hr'
        rcases List.mem_append.mp hr' with hold | hnew
        · exact hall r' hold
        · rw [List.mem_singleton.mp hnew]
          intro hnone
          rw [show r.answer ar = some b.result from hw] at hnone
          cases hnone
      · intro v hv
        rw [show r.answer ar = some b.result from hw] at hv
        exact Option.some.inj hv
    | false =>
      refine .replied hq.1 (congrArg (· + 1) hq.2) (.inr ⟨⟨r, by simp, hw⟩, trivial⟩) ?_
      intro v hv
      rw [show r.answer ar = none from hw] at hv
      cases hv
  | _ => exact absurd hw id

theorem Exchange.workerStep {ar : Arith V} {l : List (Request V)} {r : Request V}
    {s t : State V} (hs : Holds s.shared r) (hx : Exchange ar l r s.shared s.worker)
    (h : workerStep ar s = some t) : Exchange ar l r t.shared t.worker := by
  cases hx with
  | asked hc hw rest =>
    rcases rest with ⟨hall, hwait⟩ | ⟨hquit, hgone⟩
    · simp only [Ipc.workerStep, hwait] at h
      rw [if_pos (by omega)] at h
      cases h
      refine .working ⟨?_, hw⟩ hall trivial
      show s.shared.controllerSemaphore - 1 = 0
      omega
    · obtain ⟨hshared, hgone'⟩ := hgone.workerStep h
      rw [← hshared] at hc hw
      exact .asked hc hw (.inr ⟨hquit, hgone'⟩)
  | working quiet all working => exact working.workerStep hs quiet all h
  | replied hc hw rest answered =>
    obtain ⟨hshared, hrest⟩ := rest.workerStep hc h
    rw [← hshared] at hc hw answered
    exact .replied hc hw hrest answered

theorem phase_workerStep {ar : Arith V} {s t : State V} (hp : Phase ar s)
    (h : workerStep ar s = some t) : Phase ar t := by
  obtain ⟨⟨hop, hlhs, hrhs⟩, hctl, _, hcalls⟩ := workerStep_frame h
  have hserved : served t = served s := congrArg (List.map Call.request) hcalls
  -- away from its wait the controller sees a worker at rest
  have hrest : ∀ {l}, Quiet s.shared → AtRest ar l s.worker →
      t.shared = s.shared ∧ Quiet t.shared ∧ AtRest ar l t.worker := by
    intro l hq hr
    obtain ⟨hshared, hr'⟩ := hr.workerStep hq.1 h
    exact ⟨hshared, hshared ▸ hq, hr'⟩
  unfold Phase at hp ⊢
  rw [hctl, hserved]
  cases hc : s.controller with
  | wait r =>
    rw [hc] at hp
    refine ⟨?_, hp.2.workerStep hp.1 h⟩
    unfold Holds
    rw [hop, hlhs, hrhs]
    exact hp.1
  | readResult r =>
    rw [hc] at hp
    obtain ⟨hshared, hq, hr⟩ := hrest hp.1 hp.2.1
    exact ⟨hq, hr, hshared ▸ hp.2.2⟩
  | writeLhs r =>
    rw [hc] at hp
    exact ⟨hop ▸ hp.1, (hrest hp.2.1 hp.2.2).2⟩
  | writeRhs r =>
    rw [hc] at hp
    exact ⟨⟨hop ▸ hp.1.1, hlhs ▸ hp.1.2⟩, (hrest hp.2.1 hp.2.2).2⟩
  | post r =>
    rw [hc] at hp
    obtain ⟨hshared, hq, hr⟩ := hrest hp.2.1 hp.2.2
    exact ⟨hshared ▸ hp.1, hq, hr⟩
  | _ =>
    rw [hc] at hp
    exact (hrest hp.1 hp.2).2

/-! ## Steps of the controller -/

theorem phase_controllerStep {ar : Arith V} {s t : State V} (hp : Phase ar s)
    (h : controllerStep s = some t) : Phase ar t := by
  obtain ⟨b, c, cm, w, wm, linked, todo, calls⟩ := s
  cases c with
  | next =>
    cases todo with
    | nil =>
      cases h
      exact hp
    | cons r rest =>
      cases h
      exact hp
  | writeOperation r =>
    cases h
    exact ⟨rfl, hp⟩
  | writeLhs r =>
    cases h
    exact ⟨⟨hp.1, rfl⟩, hp.2⟩
  | writeRhs r =>
    cases h
    exact ⟨⟨hp.1.1, hp.1.2, rfl⟩, hp.2⟩
  | post r =>
    cases h
    obtain ⟨hholds, hquiet, hrest⟩ := hp
    exact ⟨hholds, .asked (congrArg (· + 1) hquiet.1) hquiet.2 hrest⟩
  | wait r =>
    simp only [controllerStep] at h
    split at h
    · rename_i hpos
      cases h
      obtain ⟨_, hx⟩ := hp
      -- the semaphore is up only after the worker's post
      cases hx with
      | asked hc hw rest => exact absurd hw (Nat.ne_of_gt hpos)
      | working quiet all working => exact absurd quiet.2 (Nat.ne_of_gt hpos)
      | replied hc hw rest answered =>
        refine ⟨⟨hc, ?_⟩, rest, answered⟩
        exact congrArg (· - 1) hw
    · cases h
  | readResult r =>
    cases h
    obtain ⟨hquiet, hrest, _⟩ := hp
    refine ⟨hquiet, ?_⟩
    simpa only [served, List.map_append, List.map_cons, List.map_nil] using hrest
  | finished => cases h
  | _ =>
    cases h
    exact hp

theorem script_controllerStep {s t : State V} (h : controllerStep s = some t) :
    served t ++ current t.controller ++ t.todo = served s ++ current s.controller ++ s.todo := by
  obtain ⟨b, c, cm, w, wm, linked, todo, calls⟩ := s
  cases c with
  | next =>
    cases todo with
    | nil => cases h; rfl
    | cons r rest => cases h; simp [served, current]
  | wait r =>
    simp only [controllerStep] at h
    split at h
    · cases h; rfl
    · cases h
  | readResult r => cases h; simp [served, current]
  | finished => cases h
  | _ => cases h; rfl

theorem answered_controllerStep {ar : Arith V} {s t : State V} (hp : Phase ar s)
    (hs : ∀ c ∈ s.calls, Answered ar c.request c.returned) (h : controllerStep s = some t) :
    ∀ c ∈ t.calls, Answered ar c.request c.returned := by
  obtain ⟨b, c, cm, w, wm, linked, todo, calls⟩ := s
  cases c with
  | next =>
    cases todo with
    | nil => cases h; exact hs
    | cons r rest => cases h; exact hs
  | wait r =>
    simp only [controllerStep] at h
    split at h
    · cases h; exact hs
    · cases h
  | readResult r =>
    cases h
    intro call hcall
    rcases List.mem_append.mp hcall with hold | hnew
    · exact hs call hold
    · rw [List.mem_singleton.mp hnew]
      exact hp.2.2
  | finished => cases h
  | _ => cases h; exact hs

/-! ## Every run -/

theorem inv_step (ar : Arith V) (script : List (Request V)) (s : State V) (p : Party)
    (t : State V) (hs : Inv ar script s) (h : Step ar s p t) : Inv ar script t := by
  cases p with
  | controller =>
    exact ⟨(script_controllerStep h).trans hs.script_eq,
      answered_controllerStep hs.phase hs.answered h, phase_controllerStep hs.phase h⟩
  | worker =>
    obtain ⟨_, hctl, htodo, hcalls⟩ := workerStep_frame h
    refine ⟨?_, ?_, phase_workerStep hs.phase h⟩
    · rw [served, hctl, htodo, hcalls]
      exact hs.script_eq
    · rw [hcalls]
      exact hs.answered

theorem Phase.atMostOne {ar : Arith V} {s : State V} (hp : Phase ar s) :
    s.shared.controllerSemaphore + s.shared.workerSemaphore ≤ 1 := by
  have hquiet : Quiet s.shared →
      s.shared.controllerSemaphore + s.shared.workerSemaphore ≤ 1 := by
    rintro ⟨hc, hw⟩
    omega
  unfold Phase at hp
  cases hc : s.controller with
  | wait r =>
    rw [hc] at hp
    cases hp.2 with
    | asked hc hw rest => omega
    | working quiet all working => exact hquiet quiet
    | replied hc hw rest answered => omega
  | readResult r => rw [hc] at hp; exact hquiet hp.1
  | writeLhs r => rw [hc] at hp; exact hquiet hp.2.1
  | writeRhs r => rw [hc] at hp; exact hquiet hp.2.1
  | post r => rw [hc] at hp; exact hquiet hp.2.1
  | _ => rw [hc] at hp; exact hquiet hp.1

/-- What the exchange is for: the calls that have returned are the first requests of the script,
each once and in order, each arithmetic one with its own answer. -/
structure Faithful (ar : Arith V) (script : List (Request V)) (s : State V) : Prop where
  inOrder : s.calls.map Call.request <+: script
  answered : ∀ c ∈ s.calls, ∀ v, c.request.answer ar = some v → c.returned = v
  atMostOne : s.shared.controllerSemaphore + s.shared.workerSemaphore ≤ 1

/-- A step that leaves the request in the block alone, if it is the worker's. -/
def KeepsRequest (s : State V) (p : Party) (t : State V) : Prop :=
  p = .worker → t.shared.operation = s.shared.operation ∧ t.shared.lhs = s.shared.lhs ∧
    t.shared.rhs = s.shared.rhs

theorem Inv.faithful {ar : Arith V} {script : List (Request V)} {s : State V}
    (h : Inv ar script s) : Faithful ar script s := by
  refine ⟨?_, h.answered, h.phase.atMostOne⟩
  rw [← h.script_eq, List.append_assoc]
  exact List.prefix_append _ _

/-- **Every call gets the answer to its own request**, in every interleaving. -/
theorem requests_answered {ar : Arith V} {requests : List (Request V)} {zero : V}
    {block : SharedData V} {cfd wfd : Int} {tr : List (Party × State V)}
    (h : Trace (Step ar) (initial (controllerMain requests zero) block cfd wfd) tr) :
    AllStates (Faithful ar (controllerMain requests zero))
        (initial (controllerMain requests zero) block cfd wfd) tr ∧
      AllSteps KeepsRequest (initial (controllerMain requests zero) block cfd wfd) tr := by
  have hinv := inv_initial ar (controllerMain requests zero) block cfd wfd
  constructor
  · exact (h.allStates (inv_step ar _) hinv).imp fun _ => Inv.faithful
  · refine h.allSteps ?_ hinv
    intro s p t hs hst
    refine ⟨inv_step ar _ s p t hs hst, ?_⟩
    rintro rfl
    exact (workerStep_frame hst).1

def intArith : Arith Int := ⟨Int.add, Int.sub, Int.mul, Int.tdiv⟩

/-- The script that asks for `2 + 3` and `7 - 3`. -/
def twoRequests : List (Request Int) :=
  controllerMain [⟨.op_add, 2, 3⟩, ⟨.op_sub, 7, 3⟩] 0

def twoRequestsStart : State Int := initial twoRequests ⟨0, 0, .op_quit, 0, 0, 9⟩ 3 3

/-- Both are answered, the worker taking its steps as late as it can. -/
theorem requests_answered_twice :
    ∃ tr : List (Party × State Int), Trace (Step intArith) twoRequestsStart tr ∧
      (lastState twoRequestsStart tr).calls.map Call.returned = [5, 4] ∧
      AllStates (Faithful intArith twoRequests) twoRequestsStart tr := by
  have htr := follow_trace (partyStep intArith) twoRequestsStart
    (List.flatten (List.replicate 2
      (List.replicate 6 .controller ++ List.replicate 6 .worker ++ List.replicate 2 .controller)))
  exact ⟨_, htr, by decide, (requests_answered htr).1⟩

end Ipc
end Cab403
