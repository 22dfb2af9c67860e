import Cab403.Controller.Receive

/-!
# The terminator

Three programs receive into a buffer and store a NUL behind what they have received: the
controller, the TCP server and the UDP server. All three ask for as many bytes as the buffer has,
so a receive call that fills the buffer leaves no byte for the NUL; and where the call fails, the
NUL of the controller and of the UDP server goes in front of the buffer. `terminator_inside_iff`
says that these are the only ways to store it outside.

A stream socket returns some of what was sent, a datagram socket the datagram, cut off where the
buffer ends.
-/

namespace Cab403
namespace Servers

open Lib

/-! ## Receiving -/

/-- What a receive call returns: `-1`, or the number of bytes that it has put into the buffer. -/
inductive Reply where
  | error
  | bytes (received : Bytes)
  deriving DecidableEq, Repr

def Reply.value : Reply → Int
  | .error => -1
  | .bytes received => received.length

@[simp] theorem Reply.value_bytes (received : Bytes) :
    (Reply.bytes received).value = received.length := rfl

/-- The buffer after the call. -/
def Reply.fill : Reply → Bytes → Bytes
  | .error, buffer => buffer
  | .bytes received, buffer => received ++ buffer.drop received.length

/-- A receive path: how long the buffer is, how many bytes the call is asked for, whether the
program returns when the call does not succeed, and the type of the socket. -/
structure Receiver where
  bufferSize : ℕ
  asked : ℕ
  leavesOnError : Bool
  datagram : Bool

/-- What the call may return when the client has sent `msg`. -/
def Receiver.Returns (p : Receiver) (msg : Bytes) : Reply → Prop
  | .error => True
  | .bytes received =>
    if p.datagram then received = msg.take p.asked
    else received <+: msg ∧ received.length ≤ p.asked

inductive Outcome where
  | left
  | terminated (buffer : Bytes)
  | outside (index : Int)
  deriving DecidableEq, Repr

/-- `buffer[bytesrcv] = '\0';` -/
def Receiver.receive (p : Receiver) (r : Reply) (buffer : Bytes) : Outcome :=
  let bytesrcv := r.value
  if bytesrcv = -1 ∧ p.leavesOnError then .left
  else if 0 ≤ bytesrcv ∧ bytesrcv < p.bufferSize then
    .terminated ((r.fill buffer).set bytesrcv.toNat 0)
  else .outside bytesrcv

/-- `get_client_data` -/
def getClientData : Receiver where
  bufferSize := Controller.bufferLen
  asked := Controller.bufferLen
  leavesOnError := false
  datagram := false

/-- `BUFFER_SIZE` of both servers. -/
def BUFFER_SIZE : ℕ := 1023

/-- `main` of the TCP server. -/
def tcpServer : Receiver where
  bufferSize := BUFFER_SIZE
  asked := 1023
  leavesOnError := true
  datagram := false

/-- `main` of the UDP server. -/
def udpServer : Receiver where
  bufferSize := BUFFER_SIZE
  asked := BUFFER_SIZE
  leavesOnError := false
  datagram := true

/-- The NUL, if there is one, is stored inside the buffer. -/
def Receiver.Inside (p : Receiver) (r : Reply) (buffer : Bytes) : Prop :=
  ∀ index, p.receive r buffer ≠ .outside index

/-! ## Where the NUL is -/

variable {p : Receiver} {msg received buffer : Bytes} {r : Reply}

theorem Receiver.inside_error :
    p.Inside .error buffer ↔ p.leavesOnError = true := by
  unfold Receiver.Inside Receiver.receive
  cases p.leavesOnError <;> simp [Reply.value]

/-- With `received` to store behind, the index is its length. -/
theorem Receiver.receive_bytes : p.receive (.bytes received) buffer =
    if received.length < p.bufferSize then
      .terminated ((received ++ buffer.drop received.length).set received.length 0)
    else .outside received.length := by
  have hvalue := Reply.value_bytes received
  have hcalled : ¬ ((Reply.bytes received).value = -1 ∧ p.leavesOnError = true) := by omega
  unfold Receiver.receive
  dsimp only
  rw [if_neg hcalled]
  by_cases hfits : received.length < p.bufferSize
  · rw [if_pos (by omega), if_pos hfits]
    rfl
  · rw [if_neg (by omega), if_neg hfits]
    rfl

theorem Receiver.inside_bytes :
    p.Inside (.bytes received) buffer ↔ received.length < p.bufferSize := by
  unfold Receiver.Inside
  rw [Receiver.receive_bytes]
  by_cases hfits : received.length < p.bufferSize
  · rw [if_pos hfits]
    exact iff_of_true (fun _ => nofun) hfits
  · rw [if_neg hfits]
    exact iff_of_false (fun h => h _ rfl) hfits

theorem Receiver.Returns.length_le (h : p.Returns msg (.bytes received)) :
    received.length ≤ p.asked := by
  have hreturns : if p.datagram then received = msg.take p.asked
    else received <+: msg ∧ received.length ≤ p.asked := h
  split at hreturns
  · rw [hreturns]
    exact List.length_take_le ..
  · exact hreturns.2

/-- A path that asks for as many bytes as its buffer has is right up to the last of them. -/
theorem Receiver.inside_returned (hasked : p.asked = p.bufferSize)
    (h : p.Returns msg (.bytes received)) :
    p.Inside (.bytes received) buffer ↔ received.length ≠ p.bufferSize := by
  have hle := h.length_le
  rw [Receiver.inside_bytes]
  omega

/-- **The NUL is stored inside the buffer** iff the call does not fill it and, in two of the three
programs, does not fail. -/
theorem terminator_inside_iff (msg : Bytes) (r : Reply) (buffer : Bytes) :
    (getClientData.Returns msg r →
      (getClientData.Inside r buffer ↔ ∃ received, r = .bytes received ∧ received.length ≠ 1023)) ∧
    (tcpServer.Returns msg r →
      (tcpServer.Inside r buffer ↔ ∀ received, r = .bytes received → received.length ≠ 1023)) ∧
    (udpServer.Returns msg r →
      (udpServer.Inside r buffer ↔ r ≠ .error ∧ msg.length < 1023)) := by
  cases r with
  | error =>
    refine ⟨fun _ => ?_, fun _ => ?_, fun _ => ?_⟩ <;> rw [Receiver.inside_error]
    · exact iff_of_false nofun nofun
    · exact iff_of_true rfl nofun
    · exact iff_of_false nofun fun h => h.1 rfl
  | bytes received =>
    refine ⟨fun h => ?_, fun h => ?_, fun h => ?_⟩
    · rw [Receiver.inside_returned rfl h]
      simp [getClientData, Controller.bufferLen]
    · rw [Receiver.inside_returned rfl h]
      simp [tcpServer, BUFFER_SIZE]
    · have hcut : received = msg.take 1023 := h
      rw [Receiver.inside_bytes, hcut, List.length_take]
      show min 1023 msg.length < 1023 ↔ _ ∧ msg.length < 1023
      have hmin : min 1023 msg.length < 1023 ↔ msg.length < 1023 := by omega
      rw [hmin, and_iff_right nofun]

/-- Five bytes, from any of the three sockets. -/
theorem terminator_inside_iff_hello :
    getClientData.Inside (.bytes (ascii "hello")) (List.replicate 1023 1) ∧
    tcpServer.Inside (.bytes (ascii "hello")) (List.replicate 1023 1) ∧
    udpServer.Inside (.bytes (ascii "hello")) (List.replicate 1023 1) := by
  obtain ⟨hcontroller, htcp, hudp⟩ :=
    terminator_inside_iff (ascii "hello") (.bytes (ascii "hello")) (List.replicate 1023 1)
  refine ⟨(hcontroller ?_).mpr ⟨_, rfl, by decide⟩, (htcp ?_).mpr ?_, (hudp ?_).mpr ⟨nofun, ?_⟩⟩
  · exact ⟨List.prefix_rfl, by decide⟩
  · exact ⟨List.prefix_rfl, by decide⟩
  · intro received hreceived
    cases hreceived
    decide
  · show ascii "hello" = (ascii "hello").take 1023
    decide
  · decide

theorem Receiver.not_inside_full {full : Bytes} (hfull : full.length = 1023)
    (hsize : p.bufferSize = 1023) (hasked : p.asked = 1023) (buffer : Bytes) :
    p.Returns full (.bytes full) ∧ ¬ p.Inside (.bytes full) buffer := by
  constructor
  · show if p.datagram then _ else _
    rw [hasked]
    split
    · rw [List.take_of_length_le (Nat.le_of_eq hfull)]
    · exact ⟨List.prefix_rfl, Nat.le_of_eq hfull⟩
  · rw [Receiver.inside_bytes, hsize, hfull]
    exact Nat.lt_irrefl _

/-- 1023 bytes. -/
def fullMessage : Bytes := List.replicate 1023 97

/-- A message of 1023 bytes, received whole. -/
theorem not_inside_fullMessage :
    (getClientData.Returns fullMessage (.bytes fullMessage) ∧
      ¬ getClientData.Inside (.bytes fullMessage) fullMessage) ∧
    (tcpServer.Returns fullMessage (.bytes fullMessage) ∧
      ¬ tcpServer.Inside (.bytes fullMessage) fullMessage) ∧
    (udpServer.Returns fullMessage (.bytes fullMessage) ∧
      ¬ udpServer.Inside (.bytes fullMessage) fullMessage) := by
  have hfull : fullMessage.length = 1023 := List.length_replicate
  exact ⟨Receiver.not_inside_full hfull rfl rfl _, Receiver.not_inside_full hfull rfl rfl _,
    Receiver.not_inside_full hfull rfl rfl _⟩

/-- **What the controller reads of a buffer that is terminated inside** is what
`Controller.clientData` says. -/
theorem receive_read (hbuffer : buffer.length = Controller.bufferLen) {buffer' : Bytes}
    (h : getClientData.receive (.bytes received) buffer = .terminated buffer') :
    cString buffer' = Controller.clientData received := by
  rw [Receiver.receive_bytes] at h
  split at h
  · rename_i hfits
    cases h
    obtain ⟨c, rest, hrest⟩ : ∃ c rest, buffer.drop received.length = c :: rest := by
      have hlt : received.length < buffer.length := by
        rw [hbuffer]
        exact hfits
      exact ⟨_, _, List.drop_eq_getElem_cons hlt⟩
    rw [hrest, List.set_append_right _ _ (Nat.le_refl _), Nat.sub_self, List.set_cons_zero,
      cString_append_nul, Controller.clientData_eq]
  · cases h

end Servers
end Cab403
