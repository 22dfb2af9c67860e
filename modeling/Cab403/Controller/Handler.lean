import Cab403.Controller.Register
import Cab403.Servers.Terminator

/-!
# What a handler is handed

`get_client_data` does three things whose outcome C leaves open, or makes undefined.

* It hands `recv` its pointer for a descriptor. What `recv` replies is then what it replies on the
  descriptor of that number, whatever it is, and need not be a piece of the client's stream.
* It puts a NUL behind what it has received, which is outside the buffer when `recv` fails or fills
  it (`getClientData_isSome_iff`).
* It returns the address of its own array, and the array is gone when the caller reads it.

`strtok(buffer, ' ')` takes the number of the character for the address of a string of delimiters,
and nothing is there. A run that comes to something undefined has no result. `Mended` says what of
the source is taken for what it was meant to be: the array, the delimiter. As the source is written
neither is, so a handler is handed nothing as soon as a `recv` returns.

Mended, the handler still takes what one `recv` returns for a message, length and all. A message is
read back only by accident, and the length of a message shorter than 256 bytes starts with a NUL:
what is read is the empty string, the controller takes it for neither a car nor a call, and the
connection is dropped (`short_message_lost`). `handed_iff` has both.

When there is no further reply `recv` waits.
-/

namespace Cab403
namespace Controller
namespace Handler

open Lib Servers

/-! ## The source -/

/-- What is taken for what it was meant to be. -/
structure Mended where
  /-- `static char buffer[BUFFERLEN];` -/
  array : Bool
  /-- `" "` for `' '` -/
  delimiter : Bool
  deriving DecidableEq, Repr

def asWritten : Mended := ⟨false, false⟩

/-- `get_client_data`, up to the NUL, where its caller can read it. -/
def getClientData (m : Mended) : Reply → Option Bytes
  | .error => none
  | .bytes received =>
    if received.length < bufferLen ∧ m.array = true then some (received ++ [0]) else none

/-- A status update of the car's node, and what it leaves of the buffer. -/
def statusUpdate (m : Mended) (buffer : Bytes) (car : CarRegister) :
    Option (CarRegister × Bytes) :=
  if strstr (cString buffer) (ascii "STATUS") && !m.delimiter then none
  else Register.statusUpdate buffer car

/-- An iteration of the loop of `connect_car`: what it is handed, the car's node after it, and
whether it breaks. -/
def iteration (m : Mended) (reply : Reply) (car : CarRegister) :
    Option (Bytes × CarRegister × Bool) := do
  let buffer ← getClientData m reply
  let (car, left) ← statusUpdate m buffer car
  return (cString buffer, car, Register.terminates left)

/-- The strings that the loop is handed. -/
def receiveLoop (m : Mended) : List Reply → CarRegister → Option (List Bytes)
  | [], _ => some []
  | reply :: rest, car => do
    let (text, car, breaks) ← iteration m reply car
    if breaks then return [text]
    let texts ← receiveLoop m rest car
    return text :: texts

/-- The same of `connect_car`, on the node that `link_car_node` returns. -/
def connectCar (m : Mended) (buffer : Bytes) (car : CarRegister) (replies : List Reply) :
    Option (List Bytes) := do
  if !m.delimiter then none
  let car ← Register.registerCar buffer car
  receiveLoop m replies car

/-- And of `handle_connection`. -/
def handleConnection (m : Mended) (car : CarRegister) : List Reply → Option (List Bytes)
  | [] => some []
  | reply :: rest => do
    let buffer ← getClientData m reply
    let text := cString buffer
    if isCar text then
      let texts ← connectCar m buffer car rest
      return text :: texts
    else return [text]

/-! ## One reply -/

variable {m : Mended} {received : Bytes} {car : CarRegister}

/-- **What a caller can read**: the array, if it is there, has the NUL in it. -/
theorem getClientData_isSome_iff (m : Mended) (reply : Reply) (buffer : Bytes) :
    (getClientData m reply).isSome = true ↔
      m.array = true ∧ Servers.getClientData.Inside reply buffer := by
  cases reply with
  | error =>
    rw [Receiver.inside_error]
    exact iff_of_false Bool.false_ne_true fun h => Bool.false_ne_true h.2
  | bytes received =>
    rw [Receiver.inside_bytes, getClientData]
    show _ ↔ m.array = true ∧ received.length < bufferLen
    by_cases h : received.length < bufferLen ∧ m.array = true
    · rw [if_pos h]
      exact iff_of_true rfl h.symm
    · rw [if_neg h]
      exact iff_of_false Bool.false_ne_true fun h' => h h'.symm

theorem getClientData_asWritten (reply : Reply) : getClientData asWritten reply = none := by
  cases reply with
  | error => rfl
  | bytes received => exact if_neg fun h => Bool.false_ne_true h.2

theorem getClientData_of_lt (harray : m.array = true) (hlt : received.length < bufferLen) :
    getClientData m (.bytes received) = some (received ++ [0]) :=
  if_pos ⟨hlt, harray⟩

/-- With a reply there is something to be handed, or no result. -/
theorem handleConnection_cons {reply : Reply} {rest : List Reply} {texts : List Bytes}
    (h : handleConnection m car (reply :: rest) = some texts) :
    ∃ buffer, getClientData m reply = some buffer ∧ texts.head? = some (cString buffer) ∧
      (isCar (cString buffer) = false → texts = [cString buffer]) := by
  obtain ⟨buffer, hbuffer, h⟩ := Option.bind_eq_some_iff.mp h
  refine ⟨buffer, hbuffer, ?_⟩
  simp only at h
  split at h
  · rename_i hcar
    obtain ⟨texts', _, h⟩ := Option.bind_eq_some_iff.mp h
    cases h
    exact ⟨rfl, fun hcall => absurd hcar (Bool.eq_false_iff.mp hcall)⟩
  · cases h
    exact ⟨rfl, fun _ => rfl⟩

theorem handleConnection_of_not_car {buffer : Bytes} {reply : Reply} (rest : List Reply)
    (hbuffer : getClientData m reply = some buffer) (hcar : isCar (cString buffer) = false) :
    handleConnection m car (reply :: rest) = some [cString buffer] := by
  rw [handleConnection, hbuffer, Option.bind_eq_bind, Option.bind_some, if_neg]
  · rfl
  · exact Bool.eq_false_iff.mp hcar

/-- **A short message is lost**, and its connection with it, however much is mended: whatever the
pieces of the stream, the handler reads the empty string and returns. -/
theorem short_message_lost (harray : m.array = true) {msg : Bytes} (hshort : msg.length < 256)
    {ms pieces : List Bytes} (h : Splits bufferLen (sendMessages (msg :: ms)) pieces)
    (hroom : ∀ piece ∈ pieces, piece.length < bufferLen) :
    handleConnection m car (pieces.map .bytes) = some [[]] := by
  obtain ⟨piece, rest, rfl, hne, hstarts⟩ := h.first (sendMessages_ne_nil msg ms)
  rw [sendMessages_cons, sendMessage, htons_small hshort] at hstarts
  have hempty : cString (piece ++ [0]) = [] := by
    rw [cString_append_nul]
    cases piece with
    | nil => exact absurd rfl hne
    | cons c piece =>
      have hnul : c = 0 := (List.cons_prefix_cons.mp hstarts).1
      rw [hnul]
      rfl
  have hread := getClientData_of_lt harray (hroom piece List.mem_cons_self)
  have hcar : isCar (cString (piece ++ [0])) = false := by
    rw [hempty]
    decide
  rw [List.map_cons, handleConnection_of_not_car _ hread hcar, hempty]

/-! ## Messages that are read back -/

/-- The message is its own length over and over, and the first `recv` returns as many bytes. -/
structure ReadsBack (msg : Bytes) (pieces : List Bytes) : Prop where
  repeats : msg <+: sendMessage msg
  first : pieces.head?.map List.length = some msg.length

theorem not_car_of_repeats {msg : Bytes} (h : msg <+: sendMessage msg) : isCar msg = false :=
  decide_eq_false (not_infix_of_repeats h (by decide))

/-- Such a message, short or long, has no NUL in front of it either. -/
theorem no_nul_of_repeats {msg : Bytes} (hmsg : IsMessage msg) (h : msg <+: sendMessage msg) :
    0 ∉ sendMessage msg := by
  have hlong : 256 ≤ msg.length := by
    by_contra hshort
    rw [sendMessage, htons_small (Nat.lt_of_not_le hshort)] at h
    cases msg with
    | nil => exact hmsg.ne_nil rfl
    | cons c msg =>
      have hnul : c = 0 := (List.cons_prefix_cons.mp h).1
      exact hmsg.no_nul (hnul ▸ List.mem_cons_self)
  -- the message is longer than its own length, so it has both its bytes
  have htwo : htons (UInt16.ofNat msg.length) <+: msg :=
    List.prefix_of_prefix_length_le (List.prefix_append _ _) h (by simp [htons]; omega)
  intro hmem
  rcases List.mem_append.mp hmem with hlength | hbody
  · exact hmsg.no_nul (htwo.subset hlength)
  · exact hmsg.no_nul hbody

/-- As it is written, a handler is handed nothing as soon as a `recv` returns. -/
theorem asWritten_handed_iff {msgs : List Bytes} (car : CarRegister) (replies : List Reply) :
    handleConnection asWritten car replies = some msgs ↔ msgs = [] ∧ replies = [] := by
  cases replies with
  | nil =>
    constructor
    · intro h
      cases h
      exact ⟨rfl, rfl⟩
    · intro h
      rw [h.1]
      rfl
  | cons reply rest =>
    refine iff_of_false (fun h => ?_) fun h => ?_
    · obtain ⟨buffer, hbuffer, _⟩ := handleConnection_cons h
      rw [getClientData_asWritten] at hbuffer
      cases hbuffer
    · cases h.2

/-- The first piece of a message that is handed on is the message. -/
theorem readsBack_of_handed {msg piece : Bytes} {ms rest : List Bytes} (hmsg : IsMessage msg)
    (hstarts : piece <+: sendMessages (msg :: ms))
    (hhanded : handleConnection m car ((piece :: rest).map .bytes) = some (msg :: ms)) :
    m.array = true ∧ ms = [] ∧ ReadsBack msg (piece :: rest) ∧ msg.length < bufferLen := by
  obtain ⟨buffer, hbuffer, hhead, hrest⟩ := handleConnection_cons hhanded
  obtain ⟨⟨hlt, harray⟩, hbuf⟩ := Option.ite_none_right_eq_some.mp hbuffer
  obtain rfl := Option.some.inj hbuf
  have hread : cString piece = msg := by
    rw [← cString_append_nul piece []]
    exact (Option.some.inj hhead).symm
  -- what is read is a part of the first piece, so of what the stream starts with
  have hcut : msg <+: piece := by
    rw [← hread]
    exact List.takeWhile_prefix _
  have hrepeats : msg <+: sendMessage msg := by
    refine List.prefix_of_prefix_length_le (hcut.trans hstarts) ?_ ?_
    · rw [sendMessages_cons]
      exact List.prefix_append _ _
    · simp [sendMessage]
  rw [cString_append_nul, hread] at hrest
  obtain ⟨_, rfl⟩ := List.cons.inj (hrest (not_car_of_repeats hrepeats))
  rw [sendMessages_cons, sendMessages, List.flatMap_nil, List.append_nil] at hstarts
  -- nothing of the piece was left out
  have hwhole : cString piece = piece :=
    cString_eq_self fun hmem => no_nul_of_repeats hmsg hrepeats (hstarts.subset hmem)
  have hsame : piece = msg := hwhole.symm.trans hread
  subst hsame
  exact ⟨harray, rfl, ⟨hrepeats, rfl⟩, hlt⟩

/-- **Exactly when the handler is handed what was sent.** As the source is written, when nothing is
sent and `recv` waits. With the array mended, and `recv` asked for the client's bytes, also when
one message is sent that is its own length over and over, and received alone. -/
theorem handed_iff {msgs pieces : List Bytes} (hmsgs : ∀ msg ∈ msgs, IsMessage msg)
    (h : Splits bufferLen (sendMessages msgs) pieces) (m : Mended) (car : CarRegister) :
    (∀ replies, handleConnection asWritten car replies = some msgs ↔ msgs = [] ∧ replies = []) ∧
    (handleConnection m car (pieces.map .bytes) = some msgs ↔ msgs = [] ∨
      m.array = true ∧ ∃ msg, msgs = [msg] ∧ ReadsBack msg pieces ∧ msg.length < bufferLen) := by
  refine ⟨asWritten_handed_iff car, ?_⟩
  cases msgs with
  | nil =>
    rw [h.nil]
    exact iff_of_true rfl (.inl rfl)
  | cons msg ms =>
    obtain ⟨piece, rest, rfl, hne, hstarts⟩ := h.first (sendMessages_ne_nil msg ms)
    have hmsg := hmsgs msg List.mem_cons_self
    constructor
    · intro hhanded
      obtain ⟨harray, rfl, hreads, hlt⟩ := readsBack_of_handed hmsg hstarts hhanded
      exact .inr ⟨harray, msg, rfl, hreads, hlt⟩
    · rintro (hnil | ⟨harray, msg', hone, ⟨hrepeats, hlength⟩, hlt⟩)
      · cases hnil
      · obtain ⟨rfl, rfl⟩ := List.cons.inj hone
        rw [sendMessages_cons, sendMessages, List.flatMap_nil, List.append_nil] at hstarts
        have hpiece : piece = msg := by
          have hlen : piece.length = msg.length := Option.some.inj hlength
          exact (List.prefix_of_prefix_length_le hstarts hrepeats hlen.le).eq_of_length hlen
        subst hpiece
        have hread : cString (piece ++ [0]) = piece := by
          rw [cString_append_nul, cString_eq_self hmsg.no_nul]
        rw [List.map_cons, handleConnection_of_not_car _ (getClientData_of_lt harray hlt), hread]
        rw [hread]
        exact not_car_of_repeats hrepeats

/-- 257 times the byte 1, which is the length 257 on the wire, and two bytes to spare. -/
theorem handed_iff_ones :
    handleConnection ⟨true, false⟩ Register.roomy
        [.bytes (List.replicate 257 1), .bytes (List.replicate 2 1)] =
      some [List.replicate 257 1] := by
  have hmessage : IsMessage (List.replicate 257 1) :=
    ⟨List.cons_ne_nil 1 (List.replicate 256 1),
      fun h => absurd (List.eq_of_mem_replicate h) (by decide)⟩
  have hsent : sendMessage (List.replicate 257 1) =
      List.replicate 257 1 ++ List.replicate 2 1 := by
    rw [sendMessage, List.length_replicate]
    show List.replicate 2 1 ++ List.replicate 257 1 = _
    rw [List.replicate_append_replicate, List.replicate_append_replicate]
  have hsplits : Splits bufferLen (sendMessages [List.replicate 257 1])
      [List.replicate 257 1, List.replicate 2 1] := by
    refine ⟨?_, fun piece hpiece => ?_, fun piece hpiece => ?_⟩
    · rw [sendMessages, List.flatMap_singleton, hsent]
      rfl
    · rcases List.mem_pair.mp hpiece with rfl | rfl
      · exact hmessage.ne_nil
      · exact List.cons_ne_nil _ _
    · rcases List.mem_pair.mp hpiece with rfl | rfl
      · rw [List.length_replicate]
        decide
      · decide
  have hmsgs : ∀ msg ∈ [List.replicate 257 (1 : UInt8)], IsMessage msg := by
    intro msg hmsg
    rw [List.mem_singleton.mp hmsg]
    exact hmessage
  refine (handed_iff hmsgs hsplits ⟨true, false⟩ Register.roomy).2.mpr
    (.inr ⟨rfl, _, rfl, ⟨?_, rfl⟩, ?_⟩)
  · rw [hsent]
    exact List.prefix_append _ _
  · rw [List.length_replicate]
    decide

/-- The first two messages of a car, in one piece: nothing of them is handed on, and with the array
mended the empty string. -/
theorem not_handed_car :
    ∃ pieces, Splits bufferLen
        (sendMessages [ascii "CAR Alpha B1 4", ascii "STATUS Closed B1 B1"]) pieces ∧
      handleConnection asWritten Register.roomy (pieces.map .bytes) = none ∧
      handleConnection ⟨true, true⟩ Register.roomy (pieces.map .bytes) = some [[]] := by
  refine ⟨[sendMessages [ascii "CAR Alpha B1 4", ascii "STATUS Closed B1 B1"]], ⟨?_, ?_, ?_⟩,
    ?_, ?_⟩
    <;> decide

end Handler
end Controller
end Cab403
