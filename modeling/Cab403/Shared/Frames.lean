import Cab403.Lib.Frames
import Cab403.Shared.Messages

/-!
# What the tests receive

`receive_msg` here reads from anyone: a controller that sends a length it does not keep, a car that
is gone in the middle of a message, a `send_message` of a string too long for a length of two
bytes. Whatever was written, and however `write` and `read` cut it, `n` calls return the texts of
the first `n` frames of the stream, no more, and leave what is behind these for the next call
(`receive_msg_frames`). A message that is not there to its end is never returned. The call stays in
`recv_looped`: `read` blocks, and once the peer has closed the connection it returns 0, which takes
nothing off `remain`.

So a test receives what was sent exactly if every length fits (`received_iff_fits`).
-/

namespace Cab403
namespace Shared

open Lib Lib.Transfer
open Controller (sendMessage sendMessages sendMessages_cons)

/-! ## The format -/

/-- A length in network order, and as many bytes. -/
def messageFormat : Format UInt8 where
  header := 2
  size nlen := (ntohs nlen).toNat

/-- What a reader of `buf` sees, with the NUL behind it. -/
def text (buf : Bytes) : Bytes := cString (buf ++ [0])

theorem text_eq_self {m : Bytes} (hm : 0 ∉ m) : text m = m := by
  rw [text, cString_append_nul, cString_eq_self hm]

/-- What the receiver has of the next message. -/
def Phase.behind : Phase → Bytes → Prop
  | .nlen got, behind => got = behind ∧ got.length < 2
  | .buf len got, behind => ∃ nlen, nlen.length = 2 ∧ (ntohs nlen).toNat = len ∧
      nlen ++ got = behind ∧ got.length < len

/-- `Handed n s bs`: of `n` calls, `s` is where the bytes `bs` have brought them. -/
inductive Handed (n : ℕ) (s : Receiver) (bs : Bytes) : Prop
  | intro {bodies : List Bytes} {behind : Bytes} (hcut : messageFormat.Cut bs bodies behind)
      (hreceived : s.received = bodies.map text) (hleft : bodies.length + s.left = n)
      (hphase : s.phase.behind behind) (hdone : s.left = 0 → s.phase = .nlen [])

/-! ## One `read` -/

section Receive

variable {n left : ℕ} {s : Receiver} {bs behind got nlen : Bytes} {bodies received : List Bytes}

theorem handed_start (n : ℕ) : Handed n (Receiver.start n) [] :=
  .intro (.nil []) rfl (Nat.zero_add n) ⟨rfl, Nat.two_pos⟩ fun _ => rfl

/-- `recv_looped` in the body of a message. -/
theorem handed_recvBuf (hcut : messageFormat.Cut bs bodies (nlen ++ got))
    (hreceived : received = bodies.map text) (hleft : bodies.length + (left + 1) = n)
    (hnlen : nlen.length = 2) (hgot : got.length ≤ (ntohs nlen).toNat) (phase : Phase) :
    Handed n (Receiver.recvBuf ⟨phase, received, left + 1⟩ (ntohs nlen).toNat got) bs := by
  unfold Receiver.recvBuf
  split
  · rename_i hlt
    exact .intro hcut hreceived hleft ⟨nlen, hnlen, rfl, rfl, hlt⟩
      fun hdone => absurd hdone (Nat.succ_ne_zero left)
  · rename_i hnlt
    -- the frame is complete
    have hbody : got.length = messageFormat.size nlen :=
      Nat.le_antisymm hgot (Nat.le_of_not_lt hnlt)
    refine .intro (hcut.concat hnlen hbody) ?_ ?_ ⟨rfl, Nat.two_pos⟩ fun _ => rfl
    · rw [List.map_append, hreceived]
      rfl
    · rw [List.length_append, List.length_singleton]
      show bodies.length + 1 + (left + 1 - 1) = n
      omega

/-- `recv_looped` in the length. -/
theorem handed_recvNlen (hcut : messageFormat.Cut bs bodies got)
    (hreceived : received = bodies.map text) (hleft : bodies.length + (left + 1) = n)
    (hgot : got.length ≤ 2) (phase : Phase) :
    Handed n (Receiver.recvNlen ⟨phase, received, left + 1⟩ got) bs := by
  unfold Receiver.recvNlen
  split
  · rename_i hlt
    exact .intro hcut hreceived hleft ⟨rfl, hlt⟩ fun hdone => absurd hdone (Nat.succ_ne_zero left)
  · rename_i hnlt
    have hnlen : got.length = 2 := Nat.le_antisymm hgot (Nat.le_of_not_lt hnlt)
    rw [← List.append_nil got] at hcut
    exact handed_recvBuf hcut hreceived hleft hnlen (Nat.zero_le _) _

/-- **Some of what was asked for** brings a call on, or to its end. -/
theorem handed_takes (h : Handed n s bs) {front : Bytes} (hne : front ≠ [])
    (hle : front.length ≤ receiveMsg.wants s) :
    Handed n (receiveMsg.takes s front) (bs ++ front) := by
  obtain @⟨bodies, behind, hcut, hreceived, hleft, hphase, hdone⟩ := h
  obtain ⟨phase, received, left⟩ := s
  have hcut' := hcut.append front
  cases left with
  | zero =>
    -- every call has returned, so nothing is asked for
    have hnlen : phase = .nlen [] := hdone rfl
    subst hnlen
    exact absurd (List.length_eq_zero_iff.mp (Nat.le_zero.mp hle)) hne
  | succ left =>
    cases phase with
    | nlen got =>
      obtain ⟨rfl, hgot⟩ := hphase
      have hwanted : front.length ≤ 2 - got.length := hle
      refine handed_recvNlen hcut' hreceived hleft ?_ _
      rw [List.length_append]
      omega
    | buf len got =>
      obtain ⟨nlen, hnlen, rfl, rfl, hgot⟩ := hphase
      have hwanted : front.length ≤ (ntohs nlen).toNat - got.length := hle
      rw [List.append_assoc] at hcut'
      refine handed_recvBuf hcut' hreceived hleft hnlen ?_ _
      rw [List.length_append]
      omega

theorem keeps_receiveMsg (n : ℕ) (stream : Bytes) :
    receiveMsg.Keeps fun s bs => ∃ taken, taken ++ bs = stream ∧ Handed n s taken := by
  rintro s front back ⟨taken, hstream, h⟩ hne hle
  refine ⟨taken ++ front, ?_, handed_takes h hne hle⟩
  rw [List.append_assoc, hstream]

/-! ## Where a run is -/

/-- What is behind in the middle of a message is no whole frame. -/
theorem Phase.behind.next_eq_none {phase : Phase} (h : phase.behind behind) :
    messageFormat.next behind = none := by
  cases phase with
  | nlen got =>
    obtain ⟨rfl, hgot⟩ := h
    exact Format.next_of_header hgot
  | buf len got =>
    obtain ⟨nlen, hnlen, rfl, rfl, hgot⟩ := h
    exact Format.next_of_body hnlen hgot

/-- A call that is made asks for something. -/
theorem Handed.wants_pos (h : Handed n s bs) (hleft : s.left ≠ 0) : 0 < receiveMsg.wants s := by
  obtain @⟨bodies, behind, hcut, hreceived, hcount, hphase, hdone⟩ := h
  obtain ⟨phase, received, left⟩ := s
  cases phase with
  | nlen got =>
    obtain ⟨rfl, hgot⟩ := hphase
    show 0 < if left = 0 then 0 else 2 - got.length
    rw [if_neg hleft]
    exact Nat.sub_pos_of_lt hgot
  | buf len got =>
    obtain ⟨nlen, hnlen, rfl, rfl, hgot⟩ := hphase
    exact Nat.sub_pos_of_lt hgot

/-- The frames of the whole stream are those received and those of what is to come. -/
theorem Handed.frames_append (h : Handed n s bs) (unread : Bytes) :
    ∃ behind, s.phase.behind behind ∧ (s.left = 0 → behind = []) ∧
      (messageFormat.frames n (bs ++ unread)).1.map text =
        s.received ++ (messageFormat.frames s.left (behind ++ unread)).1.map text ∧
      (messageFormat.frames n (bs ++ unread)).2 =
        (messageFormat.frames s.left (behind ++ unread)).2 := by
  obtain @⟨bodies, behind, hcut, hreceived, rfl, hphase, hdone⟩ := h
  refine ⟨behind, hphase, fun hleft => ?_, ?_, ?_⟩
  · rw [hdone hleft] at hphase
    exact hphase.1.symm
  · rw [(hcut.append unread).frames s.left, List.map_append, hreceived]
  · rw [(hcut.append unread).frames s.left]

end Receive

/-! ## Every stream -/

/-- Where `n` calls of `receive_msg` stand with `stream`, when nothing more happens. -/
structure Parsed (n : ℕ) (stream : Bytes) (s : State UInt8 Receiver) : Prop where
  written : s.calls = []
  received : s.reader.received = (messageFormat.frames n stream).1.map text
  unread : s.stream = if s.reader.left = 0 then (messageFormat.frames n stream).2 else []

/-- **The frames of the stream, and nothing else**, whatever is written to it. -/
theorem receive_msg_frames {calls : List Bytes} {n : ℕ} {tr : List (Label × State UInt8 Receiver)}
    (htr : Trace (Step receiveMsg) (start calls (Receiver.start n)) tr) :
    let s := lastState (start calls (Receiver.start n)) tr
    s.reader.received <+: (messageFormat.frames n calls.flatten).1.map text ∧
      s.reader.received.length + s.reader.left = n ∧
      tr.length ≤ 2 * calls.flatten.length ∧
      ((∀ l t, ¬ Step receiveMsg s l t) → Parsed n calls.flatten s) := by
  intro s
  have hstart : Feeds (fun r bs => ∃ taken, taken ++ bs = calls.flatten ∧ Handed n r taken)
      (start calls (Receiver.start n)) :=
    feeds_start ⟨[], rfl, handed_start n⟩
  have hlast : Feeds _ s := hstart.trace_of_keeps (keeps_receiveMsg n calls.flatten) htr
  obtain ⟨taken, hstream, h⟩ := hlast.reader
  obtain ⟨behind, hphase, hdone, hbodies, hbehind⟩ := h.frames_append s.unread
  rw [hstream] at hbodies hbehind
  refine ⟨⟨_, hbodies.symm⟩, ?_, ?_, fun hstuck => ?_⟩
  · obtain ⟨_, hreceived, hcount, _, _⟩ := h
    rw [hreceived, List.length_map, hcount]
  · have hlength := length_le htr
    rw [State.left, start, flatten_pending] at hlength
    exact hlength
  · have hcalls := hlast.calls_of_stuck hstuck
    have hunread : s.unread = s.stream := by
      rw [State.unread, hcalls]
      exact List.append_nil _
    rw [hunread] at hbodies hbehind
    refine ⟨hcalls, ?_, ?_⟩
    all_goals
      by_cases hleft : s.reader.left = 0
    · rw [hbodies, hleft]
      exact (List.append_nil _).symm
    · have hdrained := stream_of_stuck hstuck (h.wants_pos hleft)
      rw [hdrained, List.append_nil, Format.frames_of_next_none hphase.next_eq_none] at hbodies
      rw [hbodies]
      exact (List.append_nil _).symm
    · rw [if_pos hleft, hbehind, hleft, hdone hleft]
      rfl
    · rw [if_neg hleft]
      exact stream_of_stuck hstuck (h.wants_pos hleft)

/-- `A`, and the first byte of a message that should have three: the writer is gone. -/
def aAndPart : List (Label × State UInt8 Receiver) :=
  [(.write 6, ⟨[], [0, 1, 65, 0, 3, 66], ⟨.nlen [], [], 2⟩⟩),
    (.read 2, ⟨[], [65, 0, 3, 66], ⟨.buf 1 [], [], 2⟩⟩),
    (.read 1, ⟨[], [0, 3, 66], ⟨.nlen [], [[65]], 1⟩⟩),
    (.read 1, ⟨[], [3, 66], ⟨.nlen [0], [[65]], 1⟩⟩),
    (.read 1, ⟨[], [66], ⟨.buf 3 [], [[65]], 1⟩⟩),
    (.read 1, ⟨[], [], ⟨.buf 3 [66], [[65]], 1⟩⟩)]

theorem trace_aAndPart :
    Trace (Step receiveMsg) (start [[0, 1, 65, 0, 3, 66]] (Receiver.start 2)) aAndPart := by
  refine .cons (.of_eq (.write rfl ?_ ?_) rfl) (.cons (.read ?_ ?_ ?_) (.cons (.read ?_ ?_ ?_)
    (.cons (.read ?_ ?_ ?_) (.cons (.read ?_ ?_ ?_) (.cons (.read ?_ ?_ ?_) (.nil _))))))
  all_goals decide

theorem receive_msg_frames_aAndPart :
    Parsed 2 [0, 1, 65, 0, 3, 66]
      (lastState (start [[0, 1, 65, 0, 3, 66]] (Receiver.start 2)) aAndPart) :=
  (receive_msg_frames trace_aAndPart).2.2.2 (stuck_of_drained rfl rfl)

/-! ## Every list of strings -/

/-- The frame of a string is as much of it as a length of two bytes can say. -/
theorem next_sendMessages (m : Bytes) (msgs : List Bytes) :
    messageFormat.next (sendMessages (m :: msgs)) =
      some (m.take (m.length % 65536), m.drop (m.length % 65536) ++ sendMessages msgs) := by
  have hsize : messageFormat.size (htons (UInt16.ofNat m.length)) = m.length % 65536 := by
    show (ntohs _).toNat = _
    rw [ntohs_htons, UInt16.toNat_ofNat']
  have hlength : (m.take (m.length % 65536)).length = m.length % 65536 := by
    rw [List.length_take]
    exact Nat.min_eq_left (Nat.mod_le _ _)
  have hnext := Format.next_append (f := messageFormat) rfl (hlength.trans hsize.symm)
    (m.drop (m.length % 65536) ++ sendMessages msgs)
  rw [← List.append_assoc (List.take _ m), List.take_append_drop] at hnext
  rw [sendMessages_cons_eq]
  exact hnext

theorem frames_sendMessages {msgs : List Bytes} (hmsgs : ∀ m ∈ msgs, 0 ∉ m) :
    (messageFormat.frames msgs.length (sendMessages msgs)).1.map text = msgs ↔
      ∀ m ∈ msgs, m.length < 65536 := by
  induction msgs with
  | nil => exact iff_of_true rfl fun m hm => absurd hm List.not_mem_nil
  | cons m msgs ih =>
    obtain ⟨hm, hrest⟩ := List.forall_mem_cons.mp hmsgs
    have hframe : 0 ∉ m.take (m.length % 65536) := fun hmem => hm (List.mem_of_mem_take hmem)
    rw [List.length_cons, Format.frames, next_sendMessages]
    simp only [List.map_cons, text_eq_self hframe, List.forall_mem_cons]
    by_cases hfits : m.length < 65536
    · rw [Nat.mod_eq_of_lt hfits, List.take_length, List.drop_length, List.nil_append]
      rw [← ih hrest]
      simp [hfits]
    · -- the first string that does not fit is cut off
      have hcut : m.take (m.length % 65536) ≠ m := by
        intro heq
        have hlength := congrArg List.length heq
        rw [List.length_take] at hlength
        have hmod := Nat.mod_lt m.length (show 65536 > 0 by decide)
        omega
      exact iff_of_false (fun h => hcut (List.cons.inj h).1) fun h => hfits h.1

/-- **What was sent is received exactly if every length fits.** -/
theorem received_iff_fits {msgs : List Bytes} (hmsgs : ∀ m ∈ msgs, 0 ∉ m)
    {tr : List (Label × State UInt8 Receiver)}
    (htr : Trace (Step receiveMsg) (connection msgs) tr)
    (hstuck : ∀ l t, ¬ Step receiveMsg (lastState (connection msgs) tr) l t) :
    (lastState (connection msgs) tr).reader.received = msgs ↔ ∀ m ∈ msgs, m.length < 65536 := by
  have hparsed := (receive_msg_frames htr).2.2.2 hstuck
  rw [flatten_sendCalls] at hparsed
  rw [← frames_sendMessages hmsgs]
  exact Iff.of_eq (congrArg (· = msgs) hparsed.received)

theorem received_iff_fits_emptyAndA :
    (lastState (connection [[], [65]]) emptyAndA).reader.received = [[], [65]] ↔
      ∀ m ∈ ([[], [65]] : List Bytes), m.length < 65536 :=
  received_iff_fits (by decide) trace_emptyAndA (stuck_of_drained rfl rfl)

end Shared
end Cab403
