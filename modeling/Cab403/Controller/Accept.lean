import Cab403.Controller.Receive
import Cab403.Lib.Trace

/-!
# Whose descriptor

The accept loop keeps the descriptor it got in one variable, and hands every thread it creates
the *address* of that variable. A handler looks there each time it receives, and once more when it
closes the socket. So it works on whatever was accepted last.

`served_by_own_iff` has the two conditions this comes to: a run in which every handler works on
its own descriptor is one in which, at each look, the last descriptor accepted is the handler's
own; if no descriptor is handed out twice, one in which nothing has been accepted since, and then
each descriptor has one handler.
-/

namespace Cab403
namespace Controller

open Lib

/-! ## The accept loop and its handlers -/

inductive MainPc where
  | accepting
  | creating
  | returned
  deriving DecidableEq, Repr

inductive HandlerPc where
  /-- At the `get_client_data` of `handle_connection`. -/
  | starting
  /-- At the `get_client_data` of `connect_car`. -/
  | connected
  /-- At `close(*fd)`. -/
  | closing
  | returned
  deriving DecidableEq, Repr

/-- Where a `get_client_data` leaves a handler. -/
def HandlerPc.receive (received : Bytes) : HandlerPc → Option HandlerPc
  | .starting => some (if isCar (clientData received) then .connected else .returned)
  | .connected => some (if leaves (clientData received) then .closing else .connected)
  | .closing | .returned => none

def HandlerPc.close : HandlerPc → Option HandlerPc
  | .closing => some .returned
  | .starting | .connected | .returned => none

/-- The handlers are in order of creation. Two books are kept beside the program: what `accept`
has returned, in order, and each handler's looks at the descriptor, with what it found. -/
structure State where
  main : MainPc
  clientfd : Int
  handlers : List HandlerPc
  accepted : List Int
  uses : List (ℕ × Int)
  deriving DecidableEq, Repr

/-- `clientfd` is not initialised. -/
def start (clientfd : Int) : State := ⟨.accepting, clientfd, [], [], []⟩

inductive Action where
  /-- `accept` returns. -/
  | accept (fd : Int)
  /-- `pthread_create` returns. -/
  | create (ok : Bool)
  /-- Handler `k` looks for its descriptor and calls `recv`, which gets it `received`. -/
  | receive (k : ℕ) (received : Bytes)
  | close (k : ℕ)
  deriving DecidableEq, Repr

/-- The handler that looks for its descriptor. -/
def Action.user : Action → Option ℕ
  | .accept _ | .create _ => none
  | .receive k _ | .close k => some k

/-- Handler `k` uses the descriptor it finds, and moves on. When `main` has returned there are no
threads any more. -/
def State.use (s : State) (k : ℕ) (next : HandlerPc → Option HandlerPc) : Option State :=
  if s.main = .returned then none
  else do
    let pc ← s.handlers[k]?
    let pc' ← next pc
    return { s with handlers := s.handlers.set k pc', uses := s.uses ++ [(k, s.clientfd)] }

def step : Action → State → Option State
  | .accept fd, s =>
    if s.main = .accepting then
      if fd = -1 then some { s with clientfd := fd, main := .returned }
      else some { s with clientfd := fd, accepted := s.accepted ++ [fd], main := .creating }
    else none
  | .create ok, s =>
    if s.main = .creating then
      if ok then some { s with handlers := s.handlers ++ [.starting], main := .accepting }
      else some { s with main := .returned }
    else none
  | .receive k received, s => s.use k (HandlerPc.receive received)
  | .close k, s => s.use k HandlerPc.close

abbrev Moves (s : State) (a : Action) (t : State) : Prop := step a s = some t

/-- Every look of a handler, so far, was at the descriptor accepted for it. -/
def ServedByOwn (s : State) : Prop := ∀ k fd, (k, fd) ∈ s.uses → s.accepted[k]? = some fd

/-- Each descriptor accepted has its handler, but for one that `main` is about to create, and no
two handlers have looked at one descriptor. -/
structure OneHandlerEach (s : State) : Prop where
  accepting : s.main = .accepting → s.handlers.length = s.accepted.length
  creating : s.main = .creating → s.handlers.length + 1 = s.accepted.length
  only : ∀ j k fd, (j, fd) ∈ s.uses → (k, fd) ∈ s.uses → j = k

/-- The last descriptor accepted is the handler's own. -/
def OwnIsLast (s : State) (a : Action) : Prop :=
  ∀ k, a.user = some k → s.accepted[k]? = s.accepted.getLast?

/-- Nothing has been accepted since the handler's own. -/
def NotOvertaken (s : State) (a : Action) : Prop :=
  ∀ k, a.user = some k → s.accepted.length = k + 1

/-! ## One step -/

section Steps

variable {s t : State} {a : Action}

/-- What a step can be. -/
inductive Acts (s : State) (a : Action) (t : State) : Prop
  | accepts (fd : Int) (hmain : s.main = .accepting) (huser : a.user = none)
      (ht : t = { s with clientfd := fd, accepted := s.accepted ++ [fd], main := .creating })
  | creates (hmain : s.main = .creating) (huser : a.user = none)
      (ht : t = { s with handlers := s.handlers ++ [.starting], main := .accepting })
  | returns (fd : Int) (huser : a.user = none)
      (ht : t = { s with clientfd := fd, main := .returned })
  | uses (k : ℕ) (pc : HandlerPc) (hmain : s.main ≠ .returned) (hk : k < s.handlers.length)
      (huser : a.user = some k)
      (ht : t = { s with handlers := s.handlers.set k pc, uses := s.uses ++ [(k, s.clientfd)] })

theorem State.use_eq_some {k : ℕ} {next : HandlerPc → Option HandlerPc}
    (h : s.use k next = some t) : s.main ≠ .returned ∧ k < s.handlers.length ∧ ∃ pc,
      t = { s with handlers := s.handlers.set k pc, uses := s.uses ++ [(k, s.clientfd)] } := by
  unfold State.use at h
  by_cases hmain : s.main = .returned
  · rw [if_pos hmain] at h
    cases h
  · rw [if_neg hmain] at h
    obtain ⟨pc, hpc, hrest⟩ := Option.bind_eq_some_iff.mp h
    obtain ⟨pc', _, ht⟩ := Option.bind_eq_some_iff.mp hrest
    exact ⟨hmain, (List.getElem?_eq_some_iff.mp hpc).1, pc', (Option.some.inj ht).symm⟩

theorem step_acts (h : Moves s a t) : Acts s a t := by
  cases a with
  | accept fd =>
    simp only [Moves, step] at h
    split at h
    · rename_i hmain
      split at h
      · exact .returns fd rfl (Option.some.inj h).symm
      · exact .accepts fd hmain rfl (Option.some.inj h).symm
    · cases h
  | create ok =>
    simp only [Moves, step] at h
    split at h
    · rename_i hmain
      split at h
      · exact .creates hmain rfl (Option.some.inj h).symm
      · exact .returns s.clientfd rfl (Option.some.inj h).symm
    · cases h
  | receive k received =>
    obtain ⟨hmain, hk, pc, ht⟩ := State.use_eq_some h
    exact .uses k pc hmain hk rfl ht
  | close k =>
    obtain ⟨hmain, hk, pc, ht⟩ := State.use_eq_some h
    exact .uses k pc hmain hk rfl ht

/-- **One handler a descriptor.** Handler `k` is created for the descriptor accepted as number
`k`, and what every handler finds is the descriptor accepted last. -/
structure Inv (s : State) : Prop where
  accepting : s.main = .accepting → s.handlers.length = s.accepted.length
  creating : s.main = .creating → s.handlers.length + 1 = s.accepted.length
  clientfd : s.main ≠ .returned → s.accepted ≠ [] → s.accepted.getLast? = some s.clientfd

theorem inv_start (clientfd : Int) : Inv (start clientfd) :=
  ⟨fun _ => rfl, fun h => (nomatch h), fun _ h => absurd rfl h⟩

theorem inv_step (hs : Inv s) (h : Moves s a t) : Inv t := by
  cases step_acts h with
  | accepts fd hmain huser ht =>
    subst ht
    refine ⟨fun h => (nomatch h), fun _ => ?_, fun _ _ => List.getLast?_concat⟩
    rw [hs.accepting hmain, List.length_append]
    rfl
  | creates hmain huser ht =>
    subst ht
    refine ⟨fun _ => ?_, fun h => (nomatch h), fun _ => hs.clientfd (by rw [hmain]; decide)⟩
    rw [List.length_append]
    exact hs.creating hmain
  | returns fd huser ht =>
    subst ht
    exact ⟨fun h => (nomatch h), fun h => (nomatch h), fun h => absurd rfl h⟩
  | uses k pc hmain hk huser ht =>
    subst ht
    refine ⟨fun h => ?_, fun h => ?_, hs.clientfd⟩
    · rw [List.length_set]
      exact hs.accepting h
    · rw [List.length_set]
      exact hs.creating h

/-- A handler that still runs was created for something that was accepted. -/
theorem Inv.accepted_of_handler (hs : Inv s) (hmain : s.main ≠ .returned) {k : ℕ}
    (hk : k < s.handlers.length) : k < s.accepted.length := by
  cases hm : s.main with
  | accepting => exact hk.trans_eq (hs.accepting hm)
  | creating => exact (Nat.lt_succ_of_lt hk).trans_eq (hs.creating hm)
  | returned => exact absurd hm hmain

theorem accepted_step (h : Moves s a t) : s.accepted <+: t.accepted := by
  cases step_acts h with
  | accepts fd hmain huser ht =>
    subst ht
    exact List.prefix_append _ _
  | creates hmain huser ht =>
    subst ht
    exact List.prefix_rfl
  | returns fd huser ht =>
    subst ht
    exact List.prefix_rfl
  | uses k pc hmain hk huser ht =>
    subst ht
    exact List.prefix_rfl

/-- **A look is at the handler's own descriptor iff that is the last one accepted.** -/
theorem servedByOwn_step (hs : Inv s) (hown : ServedByOwn s) (h : Moves s a t) :
    ServedByOwn t ↔ OwnIsLast s a := by
  have hother : a.user = none → OwnIsLast s a := fun hnone k hk => nomatch hnone.symm.trans hk
  cases step_acts h with
  | accepts fd hmain huser ht =>
    subst ht
    refine iff_of_true (fun k fd' hmem => ?_) (hother huser)
    have hold := hown k fd' hmem
    rw [List.getElem?_append_left (List.getElem?_eq_some_iff.mp hold).1]
    exact hold
  | creates hmain huser ht =>
    subst ht
    exact iff_of_true hown (hother huser)
  | returns fd huser ht =>
    subst ht
    exact iff_of_true hown (hother huser)
  | uses k pc hmain hk huser ht =>
    subst ht
    have haccepted := hs.accepted_of_handler hmain hk
    have hlast := hs.clientfd hmain (List.ne_nil_of_length_pos (Nat.zero_lt_of_lt haccepted))
    constructor
    · intro ht k' hk'
      obtain rfl : k = k' := Option.some.inj (huser.symm.trans hk')
      rw [hlast]
      exact ht k s.clientfd (List.mem_append_right _ List.mem_cons_self)
    · intro hcond k' fd' hmem
      rcases List.mem_append.mp hmem with hold | hnew
      · exact hown k' fd' hold
      · obtain ⟨rfl, rfl⟩ := Prod.mk.inj (List.mem_singleton.mp hnew)
        rw [← hlast]
        exact hcond k' huser

/-- With no descriptor handed out twice, the last one accepted is known by its number. -/
theorem ownIsLast_iff (hs : Inv s) (hdup : s.accepted.Nodup) (h : Moves s a t) :
    OwnIsLast s a ↔ NotOvertaken s a := by
  cases step_acts h with
  | uses k pc hmain hk huser ht =>
    have haccepted := hs.accepted_of_handler hmain hk
    refine forall_congr' fun k' => imp_congr_right fun hk' => ?_
    obtain rfl : k = k' := Option.some.inj (huser.symm.trans hk')
    rw [List.getLast?_eq_getElem?]
    constructor
    · intro heq
      have hnumber := (List.getElem?_inj haccepted hdup).mp heq
      omega
    · intro hlength
      rw [hlength, Nat.add_sub_cancel]
  | accepts fd hmain huser ht => simp [OwnIsLast, NotOvertaken, huser]
  | creates hmain huser ht => simp [OwnIsLast, NotOvertaken, huser]
  | returns fd huser ht => simp [OwnIsLast, NotOvertaken, huser]

end Steps

/-! ## Every run -/

section Runs

variable {s : State} {tr : List (Action × State)}

theorem accepted_grows (h : Trace Moves s tr) : s.accepted <+: (lastState s tr).accepted := by
  induction h with
  | nil s => exact List.prefix_rfl
  | cons hstep _ ih => exact (accepted_step hstep).trans ih

theorem allSteps_ownIsLast_iff (h : Trace Moves s tr) (hs : Inv s)
    (hdup : (lastState s tr).accepted.Nodup) :
    AllSteps (fun s a _ => OwnIsLast s a) s tr ↔ AllSteps (fun s a _ => NotOvertaken s a) s tr := by
  induction h with
  | nil s => exact Iff.rfl
  | @cons s t a tr hstep htr ih =>
    have hdup_s : s.accepted.Nodup :=
      ((accepted_step hstep).trans (accepted_grows htr)).sublist.nodup hdup
    exact and_congr (ownIsLast_iff hs hdup_s hstep) (ih (inv_step hs hstep) hdup)

/-- With no descriptor handed out twice, nobody else's is anybody's own. -/
theorem ServedByOwn.oneHandlerEach (h : ServedByOwn s) (hs : Inv s) (hdup : s.accepted.Nodup) :
    OneHandlerEach s := by
  refine ⟨hs.accepting, hs.creating, ?_⟩
  intro j k fd hj hk
  have hown := h j fd hj
  exact (List.getElem?_inj (List.getElem?_eq_some_iff.mp hown).1 hdup).mp
    (hown.trans (h k fd hk).symm)

theorem inv_last (h : Trace Moves s tr) (hs : Inv s) : Inv (lastState s tr) :=
  (h.allStates (fun _ _ _ hs hst => inv_step hs hst) hs).last

/-- **When handlers work on their own descriptors.** -/
theorem served_by_own_iff {clientfd : Int} (h : Trace Moves (start clientfd) tr) :
    (AllStates ServedByOwn (start clientfd) tr ↔
      AllSteps (fun s a _ => OwnIsLast s a) (start clientfd) tr) ∧
    ((lastState (start clientfd) tr).accepted.Nodup →
      (AllStates ServedByOwn (start clientfd) tr ↔
        AllSteps (fun s a _ => NotOvertaken s a) (start clientfd) tr) ∧
      (AllStates ServedByOwn (start clientfd) tr →
        OneHandlerEach (lastState (start clientfd) tr))) := by
  have hiff : AllStates ServedByOwn (start clientfd) tr ↔
      AllSteps (fun s a _ => OwnIsLast s a) (start clientfd) tr :=
    h.allStates_iff (fun _ _ _ hs hst => inv_step hs hst)
      (fun _ _ _ hs hown hst => servedByOwn_step hs hown hst) (inv_start clientfd)
      fun _ _ hmem => nomatch hmem
  refine ⟨hiff, fun hdup => ⟨?_, fun hall => ?_⟩⟩
  · exact hiff.trans (allSteps_ownIsLast_iff h (inv_start clientfd) hdup)
  · exact hall.last.oneHandlerEach (inv_last h (inv_start clientfd)) hdup

end Runs

/-- A car comes and goes, and then there is a call. -/
theorem served_by_own_iff_in_turn :
    ∃ tr, Trace Moves (start 0) tr ∧
      (lastState (start 0) tr).uses = [(0, 4), (0, 4), (0, 4), (1, 5)] ∧
      AllStates ServedByOwn (start 0) tr := by
  have hrun : ∃ tr, Trace Moves (start 0) tr ∧
      (lastState (start 0) tr).uses = [(0, 4), (0, 4), (0, 4), (1, 5)] ∧
      (lastState (start 0) tr).accepted.Nodup ∧
      AllSteps (fun s a _ => NotOvertaken s a) (start 0) tr := by
    refine ⟨_, .cons (l := .accept 4) rfl <| .cons (l := .create true) rfl <|
      .cons (l := .receive 0 (ascii "CAR Alpha B1 4")) rfl <|
      .cons (l := .receive 0 (ascii "EMERGENCY")) rfl <| .cons (l := .close 0) rfl <|
      .cons (l := .accept 5) rfl <| .cons (l := .create true) rfl <|
      .cons (l := .receive 1 (ascii "CALL 1 2")) rfl <| .nil _, rfl, by decide, ?_⟩
    have hnone : ∀ {s : State} {a : Action}, a.user = none → NotOvertaken s a :=
      fun h k hk => nomatch h.symm.trans hk
    refine ⟨hnone rfl, hnone rfl, ?_, ?_, ?_, hnone rfl, hnone rfl, ?_, trivial⟩
    all_goals
      intro k hk
      cases hk
      rfl
  obtain ⟨tr, htr, huses, hdup, hsteps⟩ := hrun
  exact ⟨tr, htr, huses, ((served_by_own_iff htr).2 hdup).1.mpr hsteps⟩

/-- The second connection is accepted before the first handler has looked. -/
theorem not_served_by_own :
    ∃ tr, Trace Moves (start 0) tr ∧ ¬ AllStates ServedByOwn (start 0) tr := by
  have hrun : ∃ tr, Trace Moves (start 0) tr ∧ (lastState (start 0) tr).accepted = [4, 5] ∧
      (lastState (start 0) tr).uses = [(0, 5)] :=
    ⟨_, .cons (l := .accept 4) rfl <| .cons (l := .create true) rfl <|
      .cons (l := .accept 5) rfl <| .cons (l := .receive 0 (ascii "CALL 1 2")) rfl <| .nil _,
      rfl, rfl⟩
  obtain ⟨tr, htr, haccepted, huses⟩ := hrun
  refine ⟨tr, htr, fun hall => ?_⟩
  have hbad := hall.last 0 5 (by rw [huses]; exact List.mem_cons_self)
  rw [haccepted] at hbad
  exact absurd hbad (by decide)

end Controller
end Cab403
