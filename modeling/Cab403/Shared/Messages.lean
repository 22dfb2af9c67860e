import Cab403.Controller.Receive
import Cab403.Lib.Transfer

/-!
# The messages of the tests

`send_message` and `receive_msg` both loop until everything is through, so the two ends agree on
where a message starts however `write` and `read` cut the stream (`messages_round_trip`). The
controller's one `recv` a message does not loop, and gets something else (`Controller.Receive`).

The reader here is where it is in the `receive_msg` it is in, with the messages it has returned and
the calls it has still to make. `write` and `read` do not fail.
-/

namespace Cab403
namespace Shared

open Lib Lib.Transfer
open Controller (sendMessage sendMessages sendMessages_cons)

/-! ## The sender -/

/-- What `send_message` gives `send_looped`, the length and the characters. -/
def sendLooped (buf : Bytes) : List Bytes := [htons (UInt16.ofNat buf.length), buf]

def sendCalls (msgs : List Bytes) : List Bytes := msgs.flatMap sendLooped

theorem flatten_sendCalls (msgs : List Bytes) : (sendCalls msgs).flatten = sendMessages msgs := by
  induction msgs with
  | nil => rfl
  | cons m msgs ih =>
    show (sendLooped m ++ sendCalls msgs).flatten = _
    rw [List.flatten_append, ih, sendMessages_cons]
    simp [sendLooped, sendMessage]

/-- A C string whose length fits. -/
structure Sendable (m : Bytes) : Prop where
  no_nul : 0 ∉ m
  fits : m.length < 65536

/-! ## The receiver -/

/-- The `recv_looped` a `receive_msg` is in, and what it has got: that of `nlen`, or that of the
`len` bytes of `buf`. -/
inductive Phase where
  | nlen (got : Bytes)
  | buf (len : ℕ) (got : Bytes)
  deriving DecidableEq, Repr

structure Receiver where
  phase : Phase
  received : List Bytes
  left : ℕ
  deriving DecidableEq, Repr

/-- Before `n` calls of `receive_msg`. -/
def Receiver.start (n : ℕ) : Receiver := ⟨.nlen [], [], n⟩

/-- The `remain` of the `recv_looped` it is in; nothing once every call is made. -/
def Receiver.remain (s : Receiver) : ℕ :=
  match s.phase with
  | .nlen got => if s.left = 0 then 0 else 2 - got.length
  | .buf len got => len - got.length

/-- `recv_looped(fd, buf, len)`, with `got` in `buf`. There is a NUL behind the `len` bytes. -/
def Receiver.recvBuf (s : Receiver) (len : ℕ) (got : Bytes) : Receiver :=
  if got.length < len then { s with phase := .buf len got }
  else ⟨.nlen [], s.received ++ [cString (got ++ [0])], s.left - 1⟩

/-- `recv_looped(fd, &nlen, sizeof(nlen))`, with `got` in `nlen`. -/
def Receiver.recvNlen (s : Receiver) (got : Bytes) : Receiver :=
  if got.length < 2 then { s with phase := .nlen got } else s.recvBuf (ntohs got).toNat []

/-- What one `read` of `received` does. -/
def Receiver.takes (s : Receiver) (received : Bytes) : Receiver :=
  match s.phase with
  | .nlen got => s.recvNlen (got ++ received)
  | .buf len got => s.recvBuf len (got ++ received)

/-- `receive_msg`, once for each message. -/
def receiveMsg : Reader UInt8 Receiver := ⟨Receiver.remain, Receiver.takes⟩

/-! ## Between the two -/

/-- `Awaits msgs s bs`: the reader `s` of `msgs` is to be handed `bs`. -/
inductive Awaits (msgs : List Bytes) : Receiver → Bytes → Prop
  | nlen {received todo : List Bytes} {got bs : Bytes} (hmsgs : received ++ todo = msgs)
      (hbytes : got ++ bs = sendMessages todo) (hgot : got.length < 2) :
      Awaits msgs ⟨.nlen got, received, todo.length⟩ bs
  | buf {received todo : List Bytes} {m got bs : Bytes} (hmsgs : received ++ m :: todo = msgs)
      (hbytes : got ++ bs = m ++ sendMessages todo) (hgot : got.length < m.length) :
      Awaits msgs ⟨.buf m.length got, received, todo.length + 1⟩ bs

section Receive

variable {msgs received todo : List Bytes} {m got bs : Bytes} {s : Receiver}

theorem awaits_start (msgs : List Bytes) :
    Awaits msgs (Receiver.start msgs.length) (sendMessages msgs) :=
  .nlen (List.nil_append msgs) (List.nil_append _) (by decide)

theorem Awaits.received_prefix (h : Awaits msgs s bs) : s.received <+: msgs := by
  cases h with
  | nlen hmsgs hbytes hgot => exact ⟨_, hmsgs⟩
  | buf hmsgs hbytes hgot => exact ⟨_, hmsgs⟩

theorem sendMessages_cons_eq (m : Bytes) (todo : List Bytes) :
    sendMessages (m :: todo) = htons (UInt16.ofNat m.length) ++ (m ++ sendMessages todo) := by
  rw [sendMessages_cons, sendMessage, List.append_assoc]

/-- Two bytes at least are sent for a message. -/
theorem two_le_length_sendMessages_cons (m : Bytes) (todo : List Bytes) :
    2 ≤ (sendMessages (m :: todo)).length := by
  rw [sendMessages_cons_eq, List.length_append]
  exact Nat.le_add_right 2 _

/-- A reader with nothing to come is done. -/
theorem Awaits.done (h : Awaits msgs s []) : s.received = msgs ∧ s.left = 0 := by
  cases h with
  | @nlen received todo got _ hmsgs hbytes hgot =>
    rw [List.append_nil] at hbytes
    cases todo with
    | nil => exact ⟨(List.append_nil _).symm.trans hmsgs, rfl⟩
    | cons m todo =>
      have htwo := two_le_length_sendMessages_cons m todo
      rw [← hbytes] at htwo
      omega
  | @buf received todo m got _ hmsgs hbytes hgot =>
    have hlength := congrArg List.length hbytes
    simp only [List.length_append, List.length_nil] at hlength
    omega

/-- **The bytes of a message**, once its length is known. -/
theorem awaits_recvBuf (hm : 0 ∉ m) (hmsgs : received ++ m :: todo = msgs)
    (hbytes : got ++ bs = m ++ sendMessages todo) (hgot : got.length ≤ m.length) (phase : Phase) :
    Awaits msgs (Receiver.recvBuf ⟨phase, received, todo.length + 1⟩ m.length got) bs := by
  unfold Receiver.recvBuf
  split
  · rename_i hlt
    exact .buf hmsgs hbytes hlt
  · rename_i hnlt
    obtain ⟨rfl, hrest⟩ := List.append_inj hbytes (Nat.le_antisymm hgot (Nat.le_of_not_lt hnlt))
    rw [cString_append_nul, cString_eq_self hm]
    refine .nlen ?_ ?_ (by decide)
    · rw [List.append_assoc]
      exact hmsgs
    · exact hrest

/-- **The two bytes of a length**, or what is missing of them. -/
theorem awaits_recvNlen (hm : Sendable m) (hmsgs : received ++ m :: todo = msgs)
    (hbytes : got ++ bs = sendMessages (m :: todo)) (hgot : got.length ≤ 2) (phase : Phase) :
    Awaits msgs (Receiver.recvNlen ⟨phase, received, todo.length + 1⟩ got) bs := by
  unfold Receiver.recvNlen
  split
  · rename_i hlt
    exact .nlen hmsgs hbytes hlt
  · rename_i hnlt
    have hlength : got.length = 2 := Nat.le_antisymm hgot (Nat.le_of_not_lt hnlt)
    rw [sendMessages_cons_eq] at hbytes
    obtain ⟨rfl, hrest⟩ := List.append_inj hbytes hlength
    rw [ntohs_htons, UInt16.toNat_ofNat_of_lt' hm.fits]
    exact awaits_recvBuf hm.no_nul hmsgs ((List.nil_append bs).trans hrest) (Nat.zero_le _) _

/-- **Any part of what is wanted** may be handed over. -/
theorem feeding_receiveMsg (hmsgs : ∀ m ∈ msgs, Sendable m) :
    receiveMsg.Feeding (Awaits msgs) := by
  constructor
  · intro s front back h hne hle
    rcases h with @⟨received, todo, got, _, hall, hbytes, hgot⟩ |
      @⟨received, todo, m, got, _, hall, hbytes, hgot⟩
    · cases todo with
      -- every call is made, so nothing is asked for
      | nil => exact absurd (List.length_eq_zero_iff.mp (Nat.le_zero.mp hle)) hne
      | cons m todo =>
        have hwanted : front.length ≤ 2 - got.length := hle
        rw [← List.append_assoc] at hbytes
        refine awaits_recvNlen (hmsgs m ?_) hall hbytes ?_ _
        · rw [← hall]
          exact List.mem_append_right _ List.mem_cons_self
        · rw [List.length_append]
          omega
    · have hm : Sendable m := by
        apply hmsgs
        rw [← hall]
        exact List.mem_append_right _ List.mem_cons_self
      have hwanted : front.length ≤ m.length - got.length := hle
      rw [← List.append_assoc] at hbytes
      refine awaits_recvBuf hm.no_nul hall hbytes ?_ _
      rw [List.length_append]
      omega
  · intro s bs h hne
    cases h with
    | @nlen received todo got _ hall hbytes hgot =>
      cases todo with
      | nil => exact absurd (List.append_eq_nil_iff.mp hbytes).2 hne
      | cons m todo => exact Nat.sub_pos_of_lt hgot
    | buf hall hbytes hgot => exact Nat.sub_pos_of_lt hgot

end Receive

/-! ## The round trip -/

/-- Nothing is sent and nothing received. -/
def connection (msgs : List Bytes) : State UInt8 Receiver :=
  start (sendCalls msgs) (Receiver.start msgs.length)

/-- Every call has returned, with its message, and every byte is read. -/
structure Delivered (msgs : List Bytes) (s : State UInt8 Receiver) : Prop where
  received : s.reader.received = msgs
  left : s.reader.left = 0
  stream : s.stream = []
  calls : s.calls = []

/-- **Every message, in order, and nothing else**: on the way what is returned is the first of the
messages; no run is longer than two system calls a byte, and one that cannot go on has returned
them all and read everything. -/
theorem messages_round_trip {msgs : List Bytes} (hmsgs : ∀ m ∈ msgs, Sendable m)
    {tr : List (Label × State UInt8 Receiver)}
    (htr : Trace (Step receiveMsg) (connection msgs) tr) :
    (lastState (connection msgs) tr).reader.received <+: msgs ∧
      tr.length ≤ 2 * (sendMessages msgs).length ∧
      ((∀ l t, ¬ Step receiveMsg (lastState (connection msgs) tr) l t) →
        Delivered msgs (lastState (connection msgs) tr)) := by
  have hfeeding := feeding_receiveMsg hmsgs
  have hstart : Feeds (Awaits msgs) (connection msgs) := by
    apply feeds_start
    rw [flatten_sendCalls]
    exact awaits_start msgs
  have hlast := hstart.trace hfeeding htr
  refine ⟨hlast.reader.received_prefix, ?_, fun hstuck => ?_⟩
  · have hlength := length_le htr
    rw [State.left, connection, start, flatten_pending, flatten_sendCalls] at hlength
    exact hlength
  · obtain ⟨hcalls, hstream, hreader⟩ := hlast.of_stuck hfeeding hstuck
    obtain ⟨hreceived, hleft⟩ := hreader.done
    exact ⟨hreceived, hleft, hstream, hcalls⟩

/-- An empty message and `A`: the writer is ahead, and one `read` gets a byte of each length. -/
def emptyAndA : List (Label × State UInt8 Receiver) :=
  [(.write 2, ⟨[[0, 1], [65]], [0, 0], ⟨.nlen [], [], 2⟩⟩),
    (.read 1, ⟨[[0, 1], [65]], [0], ⟨.nlen [0], [], 2⟩⟩),
    (.write 1, ⟨[[1], [65]], [0, 0], ⟨.nlen [0], [], 2⟩⟩),
    (.read 1, ⟨[[1], [65]], [0], ⟨.nlen [], [[]], 1⟩⟩),
    (.read 1, ⟨[[1], [65]], [], ⟨.nlen [0], [[]], 1⟩⟩),
    (.write 1, ⟨[[65]], [1], ⟨.nlen [0], [[]], 1⟩⟩),
    (.write 1, ⟨[], [1, 65], ⟨.nlen [0], [[]], 1⟩⟩),
    (.read 1, ⟨[], [65], ⟨.buf 1 [], [[]], 1⟩⟩),
    (.read 1, ⟨[], [], ⟨.nlen [], [[], [65]], 0⟩⟩)]

theorem trace_emptyAndA : Trace (Step receiveMsg) (connection [[], [65]]) emptyAndA := by
  refine .cons (.of_eq (.write rfl ?_ ?_) rfl) (.cons (.read ?_ ?_ ?_)
    (.cons (.of_eq (.write rfl ?_ ?_) rfl) (.cons (.read ?_ ?_ ?_) (.cons (.read ?_ ?_ ?_)
    (.cons (.of_eq (.write rfl ?_ ?_) rfl) (.cons (.of_eq (.write rfl ?_ ?_) rfl)
    (.cons (.read ?_ ?_ ?_) (.cons (.read ?_ ?_ ?_) (.nil _)))))))))
  all_goals decide

theorem messages_round_trip_emptyAndA :
    Delivered [[], [65]] (lastState (connection [[], [65]]) emptyAndA) := by
  refine (messages_round_trip ?_ trace_emptyAndA).2.2 ?_
  · intro m hm
    simp only [List.mem_cons, List.not_mem_nil, or_false] at hm
    rcases hm with rfl | rfl
    · exact ⟨List.not_mem_nil, by decide⟩
    · exact ⟨by decide, by decide⟩
  · intro l t hst
    cases hst with
    | write hcall hpos hle => cases hcall
    | read hpos hwants hle => exact absurd hle (Nat.not_le.mpr hpos)

end Shared
end Cab403
