import Cab403.Car.Ladder

/-!
# The dispatch of the internal controls

`internal` is to choose its branch by the characters of the operation. `Operation` lists the seven
words it knows, `Operation.Asks` what each asks for, and `Dispatched` says it of any string. With
characters compared `internal` does just that (`internal_dispatched`). As it is written it
compares addresses, and then no word is any of the seven: every operation is refused as invalid,
which is right for the strings that are none of them.
-/

namespace Cab403
namespace Car

open Lib

/-! ## The seven words -/

inductive Operation where
  | openDoors
  | closeDoors
  | stop
  | serviceOn
  | serviceOff
  | move (d : Direction)
  deriving DecidableEq, Repr

def Operation.word : Operation → CString
  | .openDoors => "open".toList
  | .closeDoors => "close".toList
  | .stop => "stop".toList
  | .serviceOn => "service_on".toList
  | .serviceOff => "service_off".toList
  | .move d => d.operation

def operations : List Operation :=
  [.openDoors, .closeDoors, .stop, .serviceOn, .serviceOff, .move .up, .move .down]

/-- `up` and `down` from where the car has been found to be fit to move. -/
def floorComputation (eq : Compare) (operation : CString) : Program :=
  .load fun m =>
  let B := m.currentFloor.head? == some 'B'
  .load fun m => moveFrom eq operation B (readLevel B m)

/-- The two refusals of `up` and `down`, each with its own message, and else the computation of
the floor, whatever that compares. -/
def MoveAsked (d : Direction) (m : CarSharedMem) (o : Outcome CarSharedMem) : Prop :=
  if m.individualServiceMode ≠ 1 then
    o = ⟨false, m, ["\nOperation only allowed in service mode.\n"]⟩
  else if m.status ∈ [strOpen, strOpening, strClosing] then
    o = ⟨false, m, ["\nOperation not allowed while doors are open.\n"]⟩
  else if m.status = strBetween then
    o = ⟨false, m, ["\nOperation not allowed while elevator is moving.\n"]⟩
  else ∃ eq, (floorComputation eq d.operation).exec m = some o

/-- What a word asks for: a success that changes this and nothing else, or a move. -/
def Operation.Asks (m : CarSharedMem) (o : Outcome CarSharedMem) : Operation → Prop
  | .openDoors => o.ok = true ∧ o.mem = { m with openButton := 1 }
  | .closeDoors => o.ok = true ∧ o.mem = { m with closeButton := 1 }
  | .stop => o.ok = true ∧ o.mem = { m with emergencyStop := 1 }
  | .serviceOn => o.ok = true ∧ o.mem = { m with individualServiceMode := 1, emergencyMode := 0 }
  | .serviceOff => o.ok = true ∧ o.mem = { m with individualServiceMode := 0 }
  | .move d => MoveAsked d m o

/-- The law of the dispatch. -/
def Dispatched (operation : CString) (m : CarSharedMem) (o : Outcome CarSharedMem) : Prop :=
  (∀ w : Operation, operation = w.word → w.Asks m o) ∧
    ((∀ w : Operation, operation ≠ w.word) → o.ok = false ∧ o.mem = m)

theorem mem_operations (w : Operation) : w ∈ operations := by
  cases w with
  | move d => cases d <;> decide
  | _ => decide

/-! ## By characters -/

theorem exec_refuseAt_self {str : CString} {next : Program} {m : CarSharedMem} {text : String}
    (h : m.status = str) :
    (refuseAt strEq str text next).exec m = some ⟨false, m, [text]⟩ := by
  have heq : strEq m.status str = true := beq_iff_eq.mpr h
  simp only [refuseAt, Code.exec, if_pos heq]
  rfl

/-- Whatever it compares, the computation of the floor returns, and what it may print is not the
message for an invalid operation. -/
theorem moveFrom_returns (eq : Compare) (operation : CString) (B : Bool) (lvl : UInt8)
    (m : CarSharedMem) : ∃ o, (moveFrom eq operation B lvl).exec m = some o ∧
      o.output ≠ ["\nInvalid operation.\n"] := by
  have hwrite : ∀ lvl (m : CarSharedMem), ∃ o, (writeNextFloor B lvl).exec m = some o ∧
      o.output ≠ ["\nInvalid operation.\n"] :=
    fun lvl m => ⟨_, exec_writeNextFloor B lvl m, by simp⟩
  -- the shape both directions have: the boundary floor, the end of the ladder, or the next floor
  have hbranch : ∀ (next : UInt8) (floor : CString) (bound : Nat) (text : String),
      text ≠ "\nInvalid operation.\n" → ∃ o,
        (if next = 0 then writeLocked (·.storeDestination floor) (writeNextFloor B next)
          else if next.toNat > bound then refuse text else writeNextFloor B next).exec m =
        some o ∧ o.output ≠ ["\nInvalid operation.\n"] := by
    intro next floor bound text htext
    split
    · exact hwrite next (m.storeDestination floor)
    · split
      · exact ⟨_, rfl, by simpa using htext⟩
      · exact hwrite next m
  unfold moveFrom
  split
  · exact hbranch _ _ _ _ (by decide)
  · split
    · exact hbranch _ _ _ _ (by decide)
    · exact hwrite lvl m

theorem floorComputation_returns (eq : Compare) (operation : CString) (m : CarSharedMem) :
    ∃ o, (floorComputation eq operation).exec m = some o ∧
      o.output ≠ ["\nInvalid operation.\n"] :=
  moveFrom_returns eq operation _ _ m

theorem moveFloor_asked (d : Direction) (m : CarSharedMem) :
    ∃ o, (moveFloor strEq d.operation).exec m = some o ∧ MoveAsked d m o := by
  by_cases hmode : m.individualServiceMode = 1
  · have hserviced : ¬ m.individualServiceMode ≠ 1 := not_not.mpr hmode
    have hentry : (moveFloor strEq d.operation).exec m =
        (refuseAt strEq strOpen "\nOperation not allowed while doors are open.\n"
          (refuseAt strEq strOpening "\nOperation not allowed while doors are open.\n"
            (refuseAt strEq strClosing "\nOperation not allowed while doors are open.\n"
              (refuseAt strEq strBetween "\nOperation not allowed while elevator is moving.\n"
                (floorComputation strEq d.operation))))).exec m := by
      simp only [moveFloor, Code.exec, if_neg hserviced]
      rfl
    rw [hentry]
    by_cases hopen : m.status = strOpen
    · refine ⟨_, exec_refuseAt_self hopen, ?_⟩
      rw [MoveAsked, if_neg hserviced, if_pos (by simp [hopen])]
    rw [exec_refuseAt hopen]
    by_cases hopening : m.status = strOpening
    · refine ⟨_, exec_refuseAt_self hopening, ?_⟩
      rw [MoveAsked, if_neg hserviced, if_pos (by simp [hopening])]
    rw [exec_refuseAt hopening]
    by_cases hclosing : m.status = strClosing
    · refine ⟨_, exec_refuseAt_self hclosing, ?_⟩
      rw [MoveAsked, if_neg hserviced, if_pos (by simp [hclosing])]
    rw [exec_refuseAt hclosing]
    have hdoors : m.status ∉ [strOpen, strOpening, strClosing] := by
      simp [hopen, hopening, hclosing]
    by_cases hbetween : m.status = strBetween
    · refine ⟨_, exec_refuseAt_self hbetween, ?_⟩
      rw [MoveAsked, if_neg hserviced, if_neg hdoors, if_pos hbetween]
    · obtain ⟨o, ho, _⟩ := floorComputation_returns strEq d.operation m
      refine ⟨o, (exec_refuseAt hbetween).trans ho, ?_⟩
      rw [MoveAsked, if_neg hserviced, if_neg hdoors, if_neg hbetween]
      exact ⟨strEq, ho⟩
  · refine ⟨⟨false, m, ["\nOperation only allowed in service mode.\n"]⟩, ?_, ?_⟩
    · simp only [moveFloor, Code.exec, if_pos hmode]
      rfl
    · rw [MoveAsked, if_pos hmode]

theorem Operation.word_injective {w w' : Operation} (h : w.word = w'.word) : w = w' := by
  have hall : ∀ w ∈ operations, ∀ w' ∈ operations, w.word = w'.word → w = w' := by decide
  exact hall w (mem_operations w) w' (mem_operations w') h

theorem dispatched_word {w : Operation} {m : CarSharedMem} {o : Outcome CarSharedMem} :
    Dispatched w.word m o ↔ w.Asks m o := by
  constructor
  · intro h
    exact h.1 w rfl
  · intro h
    refine ⟨?_, fun hnone => absurd rfl (hnone w)⟩
    intro w' hw
    rw [← Operation.word_injective hw]
    exact h

/-- **With characters compared, every string is dispatched as it should be.** -/
theorem internal_dispatched (operation : CString) (m : CarSharedMem) :
    ∃ o, (internal strEq operation).exec m = some o ∧ Dispatched operation m o := by
  by_cases hword : ∃ w : Operation, operation = w.word
  · obtain ⟨w, rfl⟩ := hword
    simp only [dispatched_word]
    cases w with
    | openDoors => exact ⟨⟨true, { m with openButton := 1 }, []⟩, rfl, rfl, rfl⟩
    | closeDoors => exact ⟨⟨true, { m with closeButton := 1 }, []⟩, rfl, rfl, rfl⟩
    | stop => exact ⟨⟨true, { m with emergencyStop := 1 }, []⟩, rfl, rfl, rfl⟩
    | serviceOn =>
      exact ⟨⟨true, { m with individualServiceMode := 1, emergencyMode := 0 }, []⟩, rfl, rfl, rfl⟩
    | serviceOff => exact ⟨⟨true, { m with individualServiceMode := 0 }, []⟩, rfl, rfl, rfl⟩
    | move d =>
      obtain ⟨o, hexec, hasked⟩ := moveFloor_asked d m
      have hbranch : internal strEq d.operation = moveFloor strEq d.operation := by
        cases d <;> rfl
      exact ⟨o, (congrArg (Code.exec · m) hbranch).trans hexec, hasked⟩
  · have hne : ∀ w : Operation, operation ≠ w.word := fun w hw => hword ⟨w, hw⟩
    have hfalse : ∀ w : Operation, ¬ strEq operation w.word = true :=
      fun w heq => hne w (beq_iff_eq.mp heq)
    have hmove : ¬ (strEq operation "up".toList || strEq operation "down".toList) = true := by
      rw [Bool.or_eq_true]
      exact not_or.mpr ⟨hfalse (.move .up), hfalse (.move .down)⟩
    have hsplit : internal strEq operation = refuse "\nInvalid operation.\n" :=
      (if_neg (hfalse .openDoors)).trans <| (if_neg (hfalse .closeDoors)).trans <|
        (if_neg (hfalse .stop)).trans <| (if_neg (hfalse .serviceOn)).trans <|
        (if_neg (hfalse .serviceOff)).trans <| if_neg hmove
    rw [hsplit]
    exact ⟨_, rfl, fun w hw => absurd hw (hne w), fun _ => ⟨rfl, rfl⟩⟩

/-! ## By addresses -/

/-- A word asks for anything but the refusal of an invalid operation. -/
theorem Operation.not_asks_invalid (w : Operation) (m : CarSharedMem) :
    ¬ w.Asks m ⟨false, m, ["\nInvalid operation.\n"]⟩ := by
  intro h
  cases w with
  | move d =>
    have hasked : MoveAsked d m ⟨false, m, ["\nInvalid operation.\n"]⟩ := h
    unfold MoveAsked at hasked
    split at hasked
    · simp at hasked
    split at hasked
    · simp at hasked
    split at hasked
    · simp at hasked
    · obtain ⟨eq, hexec⟩ := hasked
      obtain ⟨o, hreturns, houtput⟩ := floorComputation_returns eq d.operation m
      obtain rfl := Option.some.inj (hreturns.symm.trans hexec)
      exact houtput rfl
  | _ => exact absurd h.1 Bool.false_ne_true

/-- **When `internal` dispatches as it should**: on the strings that are no operation. -/
theorem internal_dispatched_iff (operation : CString) (m : CarSharedMem) :
    (∃ o, (internal addrEq operation).exec m = some o ∧ Dispatched operation m o) ↔
      ∀ w : Operation, operation ≠ w.word := by
  rw [internal_addrEq]
  constructor
  · intro h w hw
    obtain ⟨o, hexec, hdispatched⟩ := h
    obtain rfl := Option.some.inj hexec
    subst hw
    exact w.not_asks_invalid m (dispatched_word.mp hdispatched)
  · intro h
    exact ⟨_, rfl, fun w hw => absurd hw (h w), fun _ => ⟨rfl, rfl⟩⟩

/-- `open` at floor `5`. -/
theorem not_dispatched_open :
    ¬ ∃ o, (internal addrEq "open".toList).exec (inService "5".toList) = some o ∧
      Dispatched "open".toList (inService "5".toList) o := by
  intro h
  obtain ⟨o, hexec, hdispatched⟩ := h
  obtain rfl := Option.some.inj hexec
  exact absurd (hdispatched.1 .openDoors rfl).1 Bool.false_ne_true

end Car
end Cab403
