import Cab403.Lib.Wire

/-!
# What a client sends, and what of it can be read

A client sends a message with its length in front. `get_client_data` takes whatever one `recv`
returns for a message, length and all, and puts a NUL behind it; `clientData` is the string a
reader finds in the buffer then, and `leaves` is what the receive loop of `connect_car` finds in
that string, where the buffer, its delimiter and the fields it is copied to are what they were
meant to be. What becomes of a handler where they are not is in `Controller.Handler`.
-/

namespace Cab403
namespace Controller

open Lib

/-! ## The client -/

/-- `send_message` -/
def sendMessage (buf : Bytes) : Bytes := htons (UInt16.ofNat buf.length) ++ buf

/-- What is on the connection once all of `msgs` are sent. -/
def sendMessages (msgs : List Bytes) : Bytes := msgs.flatMap sendMessage

/-- A message is a C string with something in it. -/
structure IsMessage (m : Bytes) : Prop where
  ne_nil : m ≠ []
  no_nul : 0 ∉ m

/-! ## The controller -/

def bufferLen : ℕ := 1023

/-- What a reader of the buffer sees when `recv` has put `received` there. -/
def clientData (received : Bytes) : Bytes := cString (received ++ [0])

/-- What a `strtok(buffer, ' ')` leaves of its buffer: a NUL has replaced the first space after
the first token. -/
def strtokLeaves (buffer : Bytes) : Bytes :=
  let space := UInt8.ofNat ' '.toNat
  buffer.takeWhile (· == space) ++ (buffer.dropWhile (· == space)).takeWhile (· != space)

/-- A status update tokenises the buffer three times, from its start each time. -/
def statusUpdate (buffer : Bytes) : Bytes :=
  if strstr buffer (ascii "STATUS") then strtokLeaves (strtokLeaves (strtokLeaves buffer))
  else buffer

/-- Whether the receive loop of `connect_car` breaks. -/
def leaves (buffer : Bytes) : Bool :=
  let buffer := statusUpdate buffer
  strstr buffer (ascii "INDIVIDUAL SERVICE") || strstr buffer (ascii "EMERGENCY")

/-- `handle_connection` looks for a car first. A call is `send_car`'s, which reads nothing. -/
def isCar (buffer : Bytes) : Bool := strstr buffer (ascii "CAR")

theorem clientData_eq (received : Bytes) : clientData received = cString received :=
  cString_append_nul received []

theorem sendMessages_cons (m : Bytes) (ms : List Bytes) :
    sendMessages (m :: ms) = sendMessage m ++ sendMessages ms :=
  List.flatMap_cons

theorem sendMessages_ne_nil (m : Bytes) (ms : List Bytes) : sendMessages (m :: ms) ≠ [] := by
  rw [sendMessages_cons]
  exact List.cons_ne_nil _ _

end Controller
end Cab403
