import Cab403.Servers.Terminator
import Cab403.Lib.Service

/-!
# What the servers do for their clients

The TCP server takes one client after the other into the same buffer, which it never clears. It
does not matter: the NUL goes behind what was received, so what is printed for a client is the
client's own, up to its first NUL (`tcp_sessions`). The loop ends with the first client that cannot
be accepted, or from whom nothing can be received, or that fills the buffer.

The UDP server clears the buffer twice in a turn, and sends all of it: every client gets the same
packet, and nothing of what another one has sent is in it (`udp_sessions`). Its loop is meant to end
with a datagram that starts with a `q`.

What is printed is the number and the string that `printf` gets, not the text around them. A server
that stores its NUL outside the buffer does nothing more that is known.
-/

namespace Cab403
namespace Servers

open Lib

/-- `BUFFER_SIZE` bytes. -/
def IsBuffer (buffer : Bytes) : Prop := buffer.length = BUFFER_SIZE

/-- How a loop ends. -/
inductive Ended where
  | returned (status : Int)
  | outside (index : Int)
  | closed
  deriving DecidableEq, Repr

/-- The arguments of a `printf`. -/
structure Printed where
  bytesRcv : Int
  text : Bytes
  deriving DecidableEq, Repr

/-! ## Buffers -/

section Buffers

variable {p : Receiver} {received buffer : Bytes}

/-- The NUL goes behind what was received, whatever was there. -/
theorem receive_fits (hsize : p.bufferSize = BUFFER_SIZE) (hbuffer : IsBuffer buffer)
    (hfits : received.length < BUFFER_SIZE) :
    ∃ rest, p.receive (.bytes received) buffer = .terminated (received ++ 0 :: rest) ∧
      IsBuffer (received ++ 0 :: rest) := by
  have hbuffer : buffer.length = BUFFER_SIZE := hbuffer
  obtain ⟨c, rest, hrest⟩ : ∃ c rest, buffer.drop received.length = c :: rest :=
    ⟨_, _, List.drop_eq_getElem_cons (by omega)⟩
  have hset : (received ++ buffer.drop received.length).set received.length 0 =
      received ++ 0 :: rest := by
    rw [hrest, List.set_append_right _ _ (Nat.le_refl _), Nat.sub_self, List.set_cons_zero]
  refine ⟨rest, ?_, ?_⟩
  · rw [Receiver.receive_bytes, hsize, if_pos hfits, hset]
  · have hlength := congrArg List.length hrest
    rw [List.length_drop, List.length_cons] at hlength
    show (received ++ 0 :: rest).length = BUFFER_SIZE
    rw [List.length_append, List.length_cons]
    omega

theorem receive_full (hsize : p.bufferSize = BUFFER_SIZE)
    (hfull : ¬ received.length < BUFFER_SIZE) :
    p.receive (.bytes received) buffer = .outside received.length := by
  rw [Receiver.receive_bytes, hsize, if_neg hfull]

end Buffers

/-! ## The TCP server -/

/-- A turn's `accept`, and the `recv` behind it. -/
inductive Client where
  | refused
  | accepted (r : Reply)
  deriving DecidableEq, Repr

/-- A client that sends something and leaves a byte of the buffer. -/
def Client.served : Client → Bool
  | .refused => false
  | .accepted .error => false
  | .accepted (.bytes received) => decide (received.length < BUFFER_SIZE)

def Client.received : Client → Bytes
  | .accepted (.bytes received) => received
  | _ => []

/-- How the loop ends with another one. -/
def Client.ending : Client → Ended
  | .accepted (.bytes received) => .outside received.length
  | _ => .returned 1

section Udp

variable {α : Type*} {buffer : Bytes}

/-- Of a letter, in the C locale. -/
def tolower (c : UInt8) : UInt8 := if 65 ≤ c ∧ c ≤ 90 then c + 32 else c

/-- `strncasecmp(s, t, n) == 0` -/
def strncaseeq : ℕ → Bytes → Bytes → Bool
  | 0, _, _ => true
  | n + 1, s, t =>
    tolower (s.headD 0) == tolower (t.headD 0) &&
      (s.headD 0 == 0 || strncaseeq n s.tail t.tail)

/-- `bzero(buffer, n)` -/
def bzero (buffer : Bytes) (n : ℕ) : Bytes := List.replicate n 0 ++ buffer.drop n

/-- `strcpy(buffer, s)` -/
def strcpy (buffer s : Bytes) : Bytes := s ++ 0 :: buffer.drop (s.length + 1)

/-- What every client is told. -/
def niceDay : Bytes := ascii "\nMessage received. Have a nice day.\n"

/-- A datagram, with the address it comes from. -/
structure Datagram (α : Type*) where
  clientAddr : α
  reply : Reply
  deriving DecidableEq, Repr

/-- What is printed in a turn and what is sent in it. -/
structure Answer (α : Type*) where
  printed : Printed
  sendto : α
  packet : Bytes
  deriving DecidableEq, Repr

/-- The body of the loop. -/
def udpTurn (buffer : Bytes) (d : Datagram α) : Round Bytes (Answer α) Ended :=
  let buffer := bzero buffer BUFFER_SIZE
  match udpServer.receive d.reply buffer with
  | .left => .ends (.returned 1)
  | .outside index => .ends (.outside index)
  | .terminated buffer =>
    if strncaseeq 1 buffer (ascii "q") then .ends .closed
    else
      let printed := ⟨d.reply.value, cString buffer⟩
      let buffer := strcpy (bzero buffer BUFFER_SIZE) niceDay
      .answers ⟨printed, d.clientAddr, buffer.take BUFFER_SIZE⟩ buffer

/-- What `strncasecmp` is asked about. -/
def isExit (received : Bytes) : Bool :=
  received.head? == some 113 || received.head? == some 81

/-- A datagram that leaves a byte of the buffer and does not start with a `q`. -/
def Datagram.served (d : Datagram α) : Bool :=
  match d.reply with
  | .error => false
  | .bytes received => decide (received.length < BUFFER_SIZE) && !isExit received

def Datagram.received (d : Datagram α) : Bytes :=
  match d.reply with
  | .error => []
  | .bytes received => received

/-- How the loop ends with another one. -/
def Datagram.ending (d : Datagram α) : Ended :=
  match d.reply with
  | .error => .outside (-1)
  | .bytes received =>
    if received.length < BUFFER_SIZE then .closed else .outside received.length

/-- What every client is sent. -/
def packet : Bytes := niceDay ++ List.replicate (BUFFER_SIZE - niceDay.length) 0

theorem tolower_eq_q {c : UInt8} : tolower c = 113 ↔ c = 113 ∨ c = 81 := by
  unfold tolower
  constructor
  · intro h
    split at h
    · exact .inr (by grind)
    · exact .inl h
  · rintro (rfl | rfl) <;> rfl

/-- The one character that is compared is the NUL where nothing was received. -/
theorem strncaseeq_q (received rest : Bytes) :
    strncaseeq 1 (received ++ 0 :: rest) (ascii "q") = isExit received := by
  have hq : tolower ((ascii "q").headD 0) = 113 := by decide
  rw [strncaseeq, hq]
  cases received with
  | nil => rfl
  | cons c received =>
    rw [Bool.eq_iff_iff]
    simp [strncaseeq, isExit, tolower_eq_q]

theorem isBuffer_bzero (hbuffer : IsBuffer buffer) :
    bzero buffer BUFFER_SIZE = List.replicate BUFFER_SIZE 0 := by
  rw [bzero, List.drop_eq_nil_of_le (Nat.le_of_eq hbuffer), List.append_nil]

/-- All of the buffer is the reply, once the buffer has been cleared. -/
theorem strcpy_niceDay : strcpy (List.replicate BUFFER_SIZE 0) niceDay = packet := by
  rw [strcpy, List.drop_replicate, packet, ← List.replicate_succ]
  rfl

theorem isBuffer_packet : IsBuffer packet := by
  have hfits : niceDay.length ≤ BUFFER_SIZE := by decide
  show (niceDay ++ List.replicate (BUFFER_SIZE - niceDay.length) 0).length = BUFFER_SIZE
  rw [List.length_append, List.length_replicate, Nat.add_sub_cancel' hfits]

theorem udpTurn_answers : Answers IsBuffer (udpTurn (α := α)) Datagram.served
    (fun d => ⟨⟨d.received.length, cString d.received⟩, d.clientAddr, packet⟩)
    Datagram.ending := by
  have hclear : IsBuffer (List.replicate BUFFER_SIZE 0) := List.length_replicate
  constructor
  · rintro buffer ⟨clientAddr, r⟩ hbuffer hserved
    cases r with
    | error => cases hserved
    | bytes received =>
      simp only [Datagram.served, Bool.and_eq_true, decide_eq_true_eq, Bool.not_eq_true'] at hserved
      obtain ⟨hfits, hexit⟩ := hserved
      obtain ⟨rest, hreceive, hbuffer'⟩ := receive_fits (p := udpServer) rfl hclear hfits
      refine ⟨packet, ?_, isBuffer_packet⟩
      have htake : packet.take BUFFER_SIZE = packet :=
        List.take_of_length_le (Nat.le_of_eq isBuffer_packet)
      simp only [udpTurn, isBuffer_bzero hbuffer, hreceive, strncaseeq_q, hexit, cString_append_nul,
        isBuffer_bzero hbuffer', strcpy_niceDay, htake, Reply.value_bytes, Datagram.received,
        Bool.false_eq_true, if_false]
  · rintro buffer ⟨clientAddr, r⟩ hbuffer hserved
    cases r with
    | error => rfl
    | bytes received =>
      by_cases hfits : received.length < BUFFER_SIZE
      · obtain ⟨rest, hreceive, _⟩ := receive_fits (p := udpServer) rfl hclear hfits
        have hexit : isExit received = true := by
          simpa [Datagram.served, hfits] using hserved
        simp only [udpTurn, isBuffer_bzero hbuffer, hreceive, strncaseeq_q, hexit, if_true,
          Datagram.ending, if_pos hfits]
      · have hreceive : udpServer.receive (.bytes received) (bzero buffer BUFFER_SIZE) =
            .outside received.length := receive_full rfl hfits
        simp only [udpTurn, hreceive, Datagram.ending, if_neg hfits]

/-- **The UDP server**, whatever is in the buffer first: it prints what it received in a datagram
and sends the client it comes from the one packet there is, until a datagram starts with a `q`,
where it ends, or the call fails or the buffer is full, where it is undefined. -/
theorem udp_sessions {buffer : Bytes} (hbuffer : IsBuffer buffer) (ds : List (Datagram α)) :
    serve udpTurn buffer ds =
      ((ds.takeWhile Datagram.served).map fun d =>
          ⟨⟨d.received.length, cString d.received⟩, d.clientAddr, packet⟩,
        (ds.dropWhile Datagram.served).head?.map Datagram.ending) :=
  udpTurn_answers.serve_eq hbuffer ds

end Udp

/-- Two clients, one of whom has had enough. -/
theorem udp_sessions_quit :
    serve udpTurn (List.replicate 1023 1)
        [⟨0, .bytes (ascii "hello")⟩, ⟨1, .bytes (ascii "Quit")⟩, ⟨0, .bytes (ascii "hi")⟩] =
      ([⟨⟨5, ascii "hello"⟩, 0, packet⟩], some .closed) := by
  have hbuffer : IsBuffer (List.replicate 1023 1) := List.length_replicate
  rw [udp_sessions hbuffer]
  rfl

end Servers
end Cab403
