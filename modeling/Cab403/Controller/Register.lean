import Cab403.Car.Consistency
import Cab403.Controller.Receive
import Cab403.Lib.Strtok

/-!
# What the controller writes down about a car

`connect_car` takes a registration message apart with `strtok` and copies the pieces into a
`car_register`; so it does with every status update. Two things are known of a copy: an array has
so much room, and a pointer may be `NULL`. Beyond them `strcpy` is undefined, and the run has no
result.

The first token of a message is its keyword, and the code stores it as if it were the first field.
So the name becomes `CAR`, the lowest floor the name, and the highest floor the lowest one
(`registerCar_eq`). A status update asks for the first token three times over, and the keyword does
not fit a floor (`statusUpdate_eq_none`). Nor is there room for the name: the pointer is `NULL` in
a register that has just been initialised (`connectCar_of_null`).

The delimiter, `' '` in the source, is read as the string `" "`.
-/

namespace Cab403
namespace Controller

open Lib Car

/-! ## The register -/

abbrev Addr := Nat

/-- What a `char*` points to: room for `size` characters, and the string there. -/
structure Storage where
  size : Nat
  text : Bytes
  deriving DecidableEq, Repr

/-- `car_register`. Of its mutex it is known whether it is locked. -/
structure CarRegister where
  locked : Bool
  name : Option Storage
  minFloor : Bytes
  maxFloor : Bytes
  currentFloor : Bytes
  destinationFloor : Bytes
  status : Bytes
  next : Option Addr
  deriving DecidableEq, Repr

/-- `char min_floor[4]`, and the other floors. -/
def floorSize : Nat := 4

/-- `char status[8]` -/
def statusSize : Nat := 8

/-- `strcpy` into an array of `size` characters. -/
def strcpy (size : Nat) (s : Bytes) : Option Bytes := if s.length < size then some s else none

/-- `strcpy(car->name, s)` -/
def CarRegister.copyName (car : CarRegister) (s : Bytes) : Option CarRegister := do
  let storage ← car.name
  let text ← strcpy storage.size s
  return { car with name := some { storage with text := text } }

/-! ## The connection -/

namespace Register

def space : Bytes := ascii " "

/-- `connect_car` before its loop. -/
def registerCar (buffer : Bytes) (car : CarRegister) : Option CarRegister := do
  let t ← strtok space buffer 0
  let car ← car.copyName t.text
  let t ← strtok space t.buffer t.cursor
  let minFloor ← strcpy floorSize t.text
  let car := { car with minFloor := minFloor }
  let t ← strtok space t.buffer t.cursor
  let maxFloor ← strcpy floorSize t.text
  return { car with maxFloor := maxFloor }

/-- The body of `if (strstr(buffer, "STATUS") != NULL)`. -/
def copyStatus (buffer : Bytes) (car : CarRegister) : Option (CarRegister × Bytes) := do
  let t ← strtok space buffer 0
  let status ← strcpy statusSize t.text
  let car := { car with status := status }
  let t ← strtok space t.buffer 0
  let currentFloor ← strcpy floorSize t.text
  let car := { car with currentFloor := currentFloor }
  let t ← strtok space t.buffer 0
  let destinationFloor ← strcpy floorSize t.text
  return ({ car with destinationFloor := destinationFloor }, t.buffer)

def statusUpdate (buffer : Bytes) (car : CarRegister) : Option (CarRegister × Bytes) :=
  if strstr (cString buffer) (ascii "STATUS") then copyStatus buffer car else some (car, buffer)

/-- Service mode or an emergency ends the connection. -/
def terminates (buffer : Bytes) : Bool :=
  strstr (cString buffer) (ascii "INDIVIDUAL SERVICE") ||
    strstr (cString buffer) (ascii "EMERGENCY")

/-- The loop of `connect_car`, on the buffers it is handed. -/
def receiveLoop : List Bytes → CarRegister → Option CarRegister
  | [], car => some car
  | buffer :: rest, car => do
    let (car, buffer) ← statusUpdate buffer car
    if terminates buffer then some car else receiveLoop rest car

def connectCar (buffer : Bytes) (updates : List Bytes) (car : CarRegister) :
    Option CarRegister := do
  let car ← registerCar buffer car
  receiveLoop updates car

/-! ## The messages -/

/-- The bytes of a floor name. -/
def IsFloor (b : Bytes) : Prop :=
  ∃ s : CString, FloorName s ∧ b = s.map fun c => UInt8.ofNat c.toNat

/-- `CAR {name} {lowest floor} {highest floor}` -/
structure CarMessage where
  name : Bytes
  minFloor : Bytes
  maxFloor : Bytes
  name_token : IsToken space name
  min_floor : IsFloor minFloor
  max_floor : IsFloor maxFloor

/-- `STATUS {status} {current floor} {destination floor}` -/
structure StatusMessage where
  status : Bytes
  currentFloor : Bytes
  destinationFloor : Bytes
  status_token : IsToken space status
  current_token : IsToken space currentFloor
  destination_token : IsToken space destinationFloor
  status_length : status.length ≤ 7
  current_length : currentFloor.length ≤ 3
  destination_length : destinationFloor.length ≤ 3

/-- In the buffer, with its terminator. -/
def CarMessage.buffer (m : CarMessage) : Bytes :=
  ascii "CAR" ++ space ++ m.name ++ space ++ m.minFloor ++ space ++ m.maxFloor ++ [0]

def StatusMessage.buffer (u : StatusMessage) : Bytes :=
  ascii "STATUS" ++ space ++ u.status ++ space ++ u.currentFloor ++ space ++ u.destinationFloor ++
    [0]

/-- What the register should hold after the registration and the updates. -/
structure Holds (m : CarMessage) (updates : List StatusMessage) (car : CarRegister) : Prop where
  name : car.name.map Storage.text = some m.name
  minFloor : car.minFloor = m.minFloor
  maxFloor : car.maxFloor = m.maxFloor
  last : ∀ u, updates.getLast? = some u → car.status = u.status ∧
    car.currentFloor = u.currentFloor ∧ car.destinationFloor = u.destinationFloor

/-! ## Tokens -/

theorem space_eq : space = [32] := by decide

theorem mem_space : (32 : UInt8) ∈ space := by decide

theorem isToken_car : IsToken space (ascii "CAR") := by decide

theorem isToken_status : IsToken space (ascii "STATUS") := by decide

theorem byte_of_isDigit {c : Char} (h : c.isDigit = true) :
    UInt8.ofNat c.toNat ∉ space ∧ UInt8.ofNat c.toNat ≠ 0 ∧ UInt8.ofNat c.toNat ≠ 67 := by
  simp only [Char.isDigit, Bool.and_eq_true, decide_eq_true_eq, ge_iff_le,
    UInt32.le_iff_toNat_le] at h
  obtain ⟨hlow, hhigh⟩ := h
  have hlow : 48 ≤ c.toNat := hlow
  have hhigh : c.toNat ≤ 57 := hhigh
  rw [space_eq, List.mem_singleton]
  refine ⟨?_, ?_, ?_⟩ <;>
  · intro heq
    have hnat := congrArg UInt8.toNat heq
    rw [UInt8.toNat_ofNat', Nat.mod_eq_of_lt (by omega)] at hnat
    simp only [UInt8.toNat_ofNat] at hnat
    omega

/-- A floor name is a token, and begins with no `C`. -/
theorem IsFloor.bytes {b : Bytes} (h : IsFloor b) :
    b ≠ [] ∧ ∀ c ∈ b, c ∉ space ∧ c ≠ 0 ∧ c ≠ 67 := by
  obtain ⟨s, hname, rfl⟩ := h
  have hdigits : ∀ n, ∀ c ∈ (decimal n).map fun c => UInt8.ofNat c.toNat,
      c ∉ space ∧ c ≠ 0 ∧ c ≠ 67 := by
    intro n c hc
    obtain ⟨d, hd, rfl⟩ := List.mem_map.mp hc
    exact byte_of_isDigit (isDigit_of_mem_decimal hd)
  rcases hname with ⟨n, _, _, rfl⟩ | ⟨n, _, _, rfl⟩
  · refine ⟨List.cons_ne_nil _ _, ?_⟩
    intro c hc
    rcases List.mem_cons.mp hc with rfl | hmem
    · decide
    · exact hdigits n c hmem
  · refine ⟨?_, hdigits n⟩
    intro hnil
    exact Nat.toDigits_ne_nil (List.map_eq_nil_iff.mp hnil)

theorem IsFloor.token {b : Bytes} (h : IsFloor b) : IsToken space b :=
  ⟨h.bytes.1, fun c hc => ⟨(h.bytes.2 c hc).1, (h.bytes.2 c hc).2.1⟩⟩

theorem IsFloor.ne_car {b : Bytes} (h : IsFloor b) : b ≠ ascii "CAR" := by
  rintro rfl
  exact (h.bytes.2 67 (by decide)).2.2 rfl

/-! ## What the register holds -/

/-- **One field too early**: what the registration stores, where there is room for it. -/
theorem registerCar_eq (m : CarMessage) (car : CarRegister) :
    registerCar m.buffer car = do
      let car ← car.copyName (ascii "CAR")
      let minFloor ← strcpy floorSize m.name
      let maxFloor ← strcpy floorSize m.minFloor
      return { car with minFloor := minFloor, maxFloor := maxFloor } := by
  let floors := m.minFloor ++ 32 :: (m.maxFloor ++ [0])
  have hbuffer : m.buffer = [] ++ (ascii "CAR" ++ 32 :: (m.name ++ 32 :: floors)) := by
    simp [CarMessage.buffer, space_eq, floors]
  have hkeyword : strtok space m.buffer 0 =
      some ⟨ascii "CAR", (ascii "CAR" ++ [0]) ++ (m.name ++ 32 :: floors),
        (ascii "CAR" ++ [0]).length⟩ := by
    rw [hbuffer]
    refine (strtok_delimited isToken_car mem_space (by simp)).trans ?_
    simp
  have hname : strtok space ((ascii "CAR" ++ [0]) ++ (m.name ++ 32 :: floors))
      (ascii "CAR" ++ [0]).length =
      some ⟨m.name, (ascii "CAR" ++ [0] ++ (m.name ++ [0])) ++ floors,
        (ascii "CAR" ++ [0] ++ (m.name ++ [0])).length⟩ := by
    refine (strtok_delimited m.name_token mem_space (by simp)).trans ?_
    simp
  obtain ⟨buffer, cursor, hfloor⟩ : ∃ buffer cursor,
      strtok space ((ascii "CAR" ++ [0] ++ (m.name ++ [0])) ++ floors)
        (ascii "CAR" ++ [0] ++ (m.name ++ [0])).length = some ⟨m.minFloor, buffer, cursor⟩ :=
    ⟨_, _, strtok_delimited m.min_floor.token mem_space (by simp)⟩
  unfold registerCar
  simp only [hkeyword, hname, hfloor, Option.bind_eq_bind, Option.bind_some]

/-- **Too long for a floor**: the second field of a status update is its keyword again. -/
theorem statusUpdate_eq_none (u : StatusMessage) (car : CarRegister) :
    statusUpdate u.buffer car = none := by
  let fields := u.status ++ space ++ u.currentFloor ++ space ++ u.destinationFloor ++ [0]
  have hbuffer : u.buffer = [] ++ (ascii "STATUS" ++ 32 :: fields) := by
    simp [StatusMessage.buffer, space_eq, fields]
  obtain ⟨cursor, hfirst⟩ : ∃ cursor, strtok space u.buffer 0 =
      some ⟨ascii "STATUS", [] ++ (ascii "STATUS" ++ 0 :: fields), cursor⟩ := by
    rw [hbuffer]
    exact ⟨_, strtok_delimited isToken_status mem_space (by simp)⟩
  obtain ⟨cursor', hagain⟩ : ∃ cursor',
      strtok space ([] ++ (ascii "STATUS" ++ 0 :: fields)) 0 =
        some ⟨ascii "STATUS", [] ++ (ascii "STATUS" ++ 0 :: fields), cursor'⟩ :=
    ⟨_, strtok_last isToken_status⟩
  have hroom : strcpy floorSize (ascii "STATUS") = none := by decide
  have hkeyword : strstr (cString u.buffer) (ascii "STATUS") = true := by
    rw [hbuffer, List.nil_append, cString_append fun c hc => (isToken_status.clean c hc).2]
    exact decide_eq_true (List.prefix_append _ _).isInfix
  rw [statusUpdate, if_pos hkeyword, copyStatus, hfirst]
  simp only [Option.bind_eq_bind, Option.bind_some, hagain, hroom, Option.bind_none,
    Option.bind_fun_none]

theorem strtok_leaves {buffer : Bytes} {t : Token} (h : strtok space buffer 0 = some t) :
    cString t.buffer = strtokLeaves (cString buffer) := by
  have hdelimiter : ∀ c, space.contains c = (c == UInt8.ofNat ' '.toNat) := by
    intro c
    simp [space_eq]
    rfl
  rw [cString_strtok h]
  simp only [hdelimiter]
  rfl

/-- What the next test of the loop reads, where the update had a place. -/
theorem statusUpdate_leaves {buffer left : Bytes} {car car' : CarRegister}
    (h : statusUpdate buffer car = some (car', left)) :
    cString left = Controller.statusUpdate (cString buffer) := by
  unfold statusUpdate at h
  unfold Controller.statusUpdate
  split at h
  · rename_i hkeyword
    simp only [copyStatus, Option.bind_eq_bind, Option.bind_eq_some_iff, Option.some.injEq,
      Prod.mk.injEq, Option.pure_def] at h
    obtain ⟨t₁, h₁, _, _, t₂, h₂, _, _, t₃, h₃, _, _, _, rfl⟩ := h
    rw [if_pos hkeyword, strtok_leaves h₃, strtok_leaves h₂, strtok_leaves h₁]
  · rename_i hkeyword
    cases h
    rw [if_neg hkeyword]

/-- **No name to write to**: in a register that has just been initialised the pointer is `NULL`. -/
theorem connectCar_of_null {car : CarRegister} (hname : car.name = none) (buffer : Bytes)
    (updates : List Bytes) : connectCar buffer updates car = none := by
  have hcopy : ∀ s, car.copyName s = none := by
    intro s
    simp [CarRegister.copyName, hname]
  simp [connectCar, registerCar, hcopy]

/-- The updates leave the registration alone. -/
theorem statusUpdate_frame {buffer buffer' : Bytes} {car car' : CarRegister}
    (h : statusUpdate buffer car = some (car', buffer')) :
    car'.name = car.name ∧ car'.minFloor = car.minFloor ∧ car'.maxFloor = car.maxFloor := by
  unfold statusUpdate at h
  split at h
  · simp only [copyStatus, Option.bind_eq_bind, Option.bind_eq_some_iff, Option.some.injEq,
      Prod.mk.injEq, Option.pure_def] at h
    obtain ⟨_, _, _, _, _, _, _, _, _, _, _, _, rfl, _⟩ := h
    exact ⟨rfl, rfl, rfl⟩
  · cases h
    exact ⟨rfl, rfl, rfl⟩

theorem receiveLoop_frame {updates : List Bytes} {car car' : CarRegister}
    (h : receiveLoop updates car = some car') :
    car'.name = car.name ∧ car'.minFloor = car.minFloor ∧ car'.maxFloor = car.maxFloor := by
  induction updates generalizing car with
  | nil =>
    cases h
    exact ⟨rfl, rfl, rfl⟩
  | cons buffer rest ih =>
    simp only [receiveLoop, Option.bind_eq_bind, Option.bind_eq_some_iff] at h
    obtain ⟨⟨car₁, left⟩, hupdate, hrest⟩ := h
    have hframe := statusUpdate_frame hupdate
    split at hrest
    · cases hrest
      exact hframe
    · obtain ⟨hname, hmin, hmax⟩ := ih hrest
      exact ⟨hname.trans hframe.1, hmin.trans hframe.2.1, hmax.trans hframe.2.2⟩

/-- **The keyword for the name, the name for the floor**, whenever there is a result at all. -/
theorem connectCar_stores {m : CarMessage} {updates : List Bytes} {car car' : CarRegister}
    (h : connectCar m.buffer updates car = some car') :
    car'.name.map Storage.text = some (ascii "CAR") ∧ car'.minFloor = m.name ∧
      car'.maxFloor = m.minFloor := by
  unfold connectCar at h
  rw [registerCar_eq] at h
  simp only [CarRegister.copyName, strcpy, Option.bind_eq_bind, Option.bind_eq_some_iff,
    Option.pure_def, Option.ite_none_right_eq_some, Option.some.injEq] at h
  obtain ⟨stored, ⟨_, ⟨storage, _, text, ⟨_, rfl⟩, rfl⟩, _, ⟨_, rfl⟩, _, ⟨_, rfl⟩, rfl⟩, hloop⟩ := h
  obtain ⟨hname, hmin, hmax⟩ := receiveLoop_frame hloop
  simp [hname, hmin, hmax]

/-- **No message is registered as it says**: the first floor would have to be the keyword. -/
theorem connectCar_never_holds (m : CarMessage) (updates : List StatusMessage)
    (car : CarRegister) :
    ¬ ∃ car', connectCar m.buffer (updates.map StatusMessage.buffer) car = some car' ∧
      Holds m updates car' := by
  intro hholds
  obtain ⟨car', hrun, hcar⟩ := hholds
  obtain ⟨hname, hmin, _⟩ := connectCar_stores hrun
  have hkeyword : m.name = ascii "CAR" := by
    simpa [hcar.name] using hname
  have hfloor : m.minFloor = ascii "CAR" := by
    rw [← hcar.minFloor, hmin, hkeyword]
  exact m.min_floor.ne_car hfloor

/-! ## One car -/

/-- `CAR A1 B1 4` -/
def carA1 : CarMessage where
  name := ascii "A1"
  minFloor := ascii "B1"
  maxFloor := ascii "4"
  name_token := by decide
  min_floor := ⟨['B', '1'], .inl ⟨1, by decide, by decide, by decide⟩, by decide⟩
  max_floor := ⟨['4'], .inr ⟨4, by decide, by decide, by decide⟩, by decide⟩

/-- A register whose name has a place of its own. -/
def roomy : CarRegister where
  locked := true
  name := some ⟨16, []⟩
  minFloor := []
  maxFloor := []
  currentFloor := []
  destinationFloor := []
  status := []
  next := none

theorem not_holds_carA1 :
    ¬ ∃ car, connectCar carA1.buffer [] roomy = some car ∧ Holds carA1 [] car := by
  intro hholds
  obtain ⟨car, hrun, hcar⟩ := hholds
  have hstored : connectCar carA1.buffer [] roomy =
      some { roomy with
        name := some ⟨16, ascii "CAR"⟩, minFloor := ascii "A1", maxFloor := ascii "B1" } := by
    decide
  rw [hstored] at hrun
  cases hrun
  exact absurd hcar.minFloor (by decide)

end Register

end Controller
end Cab403
