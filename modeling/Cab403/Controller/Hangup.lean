import Cab403.Controller.Handler
import Mathlib.Data.List.GetD

/-!
# A car that hangs up

Once the other side has closed the connection `recv` returns 0 bytes, and goes on doing so.
`get_client_data` makes an empty message of that, and the receive loop of `connect_car` looks for
its words in it, does not find them and calls `recv` again. So the loop can be left only by a
message that ends it, and one that came before.

As the source is written nothing comes of the first message already, for the array it is read from
is gone (`Controller.Handler`). With the array mended there are messages the loop does not survive:
one that fills the buffer, and a status update, which looks for its delimiters at the address 32;
with the delimiter mended too, a status update whose first token, which is its keyword, has no
room in a floor. `leaves_until_close_iff` says which messages end the loop (`Ends`), and which it
goes on after (`Goes`). The register is any that `link_car_node` may return.
-/

namespace Cab403
namespace Controller
namespace Handler

open Lib Servers

/-! ## The receive loop -/

/-- What the `k`-th `recv` returns on a connection that is closed after `pieces`. -/
def untilClose (pieces : List Bytes) (k : ℕ) : Reply := .bytes (pieces.getD k [])

/-- The handler's side of the connection. -/
structure Socket where
  receives : ℕ
  isOpen : Bool
  deriving DecidableEq, Repr

/-- The loop of `connect_car`, as long as there is fuel. -/
def loop (m : Mended) (recv : ℕ → Reply) : ℕ → Socket → CarRegister → Option Socket
  | 0, _, _ => none
  | fuel + 1, s, car => do
    let (_, car, breaks) ← iteration m (recv s.receives) car
    let s := { s with receives := s.receives + 1 }
    if breaks then some s else loop m recv fuel s car

/-- The loop, and `close(*fd);` -/
def communicate (m : Mended) (recv : ℕ → Reply) (fuel : ℕ) (s : Socket) (car : CarRegister) :
    Option Socket := do
  let s ← loop m recv fuel s car
  return { s with isOpen := false }

/-! ## One message -/

/-- A message that has room in the buffer, is no status update and ends the loop. -/
structure Ends (received : Bytes) : Prop where
  room : received.length < bufferLen
  noStatus : strstr (cString received) (ascii "STATUS") = false
  word : strstr (cString received) (ascii "INDIVIDUAL SERVICE") = true ∨
    strstr (cString received) (ascii "EMERGENCY") = true

/-- A message that has room in the buffer and, if it is a status update, a first token that has
room in a floor. -/
structure Goes (m : Mended) (received : Bytes) : Prop where
  room : received.length < bufferLen
  status : strstr (cString received) (ascii "STATUS") = true →
    m.delimiter = true ∧ (firstToken Register.space (cString received)).length < floorSize

variable {m : Mended} {received : Bytes} {car : CarRegister}

/-- What is stored of a status update is its first token, three times over, and the same is left
in the buffer. -/
theorem copyStatus_iff (buffer : Bytes) (car : CarRegister) :
    (∃ car' left, Register.copyStatus buffer car = some (car', left)) ↔
      firstToken Register.space (cString buffer) ≠ [] ∧
        (firstToken Register.space (cString buffer)).length < floorSize := by
  constructor
  · intro h
    obtain ⟨car', left, hrun⟩ := h
    simp only [Register.copyStatus, Option.bind_eq_bind, Option.bind_eq_some_iff] at hrun
    obtain ⟨t, ht, _, _, t₂, ht₂, _, hroom, _⟩ := hrun
    have hfits := (Option.ite_none_right_eq_some.mp hroom).1
    rw [strtok_text ht₂, (strtok_again ht).2.2] at hfits
    exact ⟨strtok_text ht ▸ strtok_text_ne_nil ht, hfits⟩
  · intro h
    obtain ⟨hne, hlt⟩ := h
    obtain ⟨t, ht⟩ := exists_strtok hne
    have htoken := (strtok_again ht).2.2
    obtain ⟨t₂, ht₂⟩ : ∃ t₂, strtok Register.space t.buffer 0 = some t₂ :=
      exists_strtok (htoken ▸ hne)
    have htoken₂ := (strtok_again ht₂).2.2.trans htoken
    obtain ⟨t₃, ht₃⟩ : ∃ t₃, strtok Register.space t₂.buffer 0 = some t₃ :=
      exists_strtok (htoken₂ ▸ hne)
    have hstatus : strcpy statusSize t.text = some t.text := by
      refine if_pos ?_
      rw [strtok_text ht]
      exact Nat.lt_trans hlt (by decide)
    have hcurrent : strcpy floorSize t₂.text = some t₂.text := by
      refine if_pos ?_
      rwa [strtok_text ht₂, htoken]
    have hdestination : strcpy floorSize t₃.text = some t₃.text := by
      refine if_pos ?_
      rwa [strtok_text ht₃, htoken₂]
    simp only [Register.copyStatus, ht, ht₂, ht₃, hstatus, hcurrent, hdestination,
      Option.bind_eq_bind, Option.bind_some]
    exact ⟨_, _, rfl⟩

/-- There is no room for a word that ends the loop in what it leaves. -/
theorem not_terminates_of_copyStatus {buffer left : Bytes} {car' : CarRegister}
    (h : Register.copyStatus buffer car = some (car', left)) :
    Register.terminates left = false := by
  have hlt := ((copyStatus_iff buffer car).mp ⟨car', left, h⟩).2
  simp only [Register.copyStatus, Option.bind_eq_bind, Option.bind_eq_some_iff, Option.pure_def,
    Option.some.injEq, Prod.mk.injEq] at h
  obtain ⟨t, ht, _, _, t₂, ht₂, _, _, t₃, ht₃, _, _, _, rfl⟩ := h
  obtain ⟨_, hskip, htoken⟩ := strtok_again ht
  obtain ⟨_, hskip₂, htoken₂⟩ := strtok_again ht₂
  have hleft := (strtok_again ht₃).1
  rw [hskip₂, hskip, htoken₂, htoken] at hleft
  have hnone : ∀ {c : UInt8} {w : Bytes}, c ∉ Register.space → floorSize ≤ (c :: w).length →
      strstr (cString t₃.buffer) (c :: w) = false := by
    intro c w hc hlong
    refine decide_eq_false fun hinfix => ?_
    rw [hleft] at hinfix
    have hle := ((infix_skipped_iff (fun _ => mem_skipped) hc).mp hinfix).length_le
    omega
  have hservice : strstr (cString t₃.buffer) (ascii "INDIVIDUAL SERVICE") = false :=
    hnone (by decide) (by decide)
  have hemergency : strstr (cString t₃.buffer) (ascii "EMERGENCY") = false :=
    hnone (by decide) (by decide)
  rw [Register.terminates, hservice, hemergency]
  rfl

/-- A message that is no status update changes nothing. -/
theorem statusUpdate_of_noStatus (hno : strstr (cString received) (ascii "STATUS") = false) :
    statusUpdate m (received ++ [0]) car = some (car, received ++ [0]) := by
  rw [statusUpdate, cString_append_nul, hno, Bool.false_and, if_neg Bool.false_ne_true,
    Register.statusUpdate, cString_append_nul, if_neg (Bool.eq_false_iff.mp hno)]

/-- A status update is undefined with the delimiter as it is written. -/
theorem statusUpdate_of_status (hstatus : strstr (cString received) (ascii "STATUS") = true) :
    statusUpdate m (received ++ [0]) car =
      if m.delimiter then Register.copyStatus (received ++ [0]) car else none := by
  rw [statusUpdate, cString_append_nul, hstatus, Bool.true_and]
  cases m.delimiter with
  | false => rfl
  | true =>
    rw [Bool.not_true, if_neg Bool.false_ne_true, if_pos rfl, Register.statusUpdate,
      cString_append_nul, if_pos hstatus]

/-- When a status update has a result. -/
theorem statusUpdate_iff (m : Mended) (received : Bytes) (car : CarRegister) :
    (∃ r, statusUpdate m (received ++ [0]) car = some r) ↔
      (strstr (cString received) (ascii "STATUS") = true →
        m.delimiter = true ∧
          (firstToken Register.space (cString received)).length < floorSize) := by
  by_cases hstatus : strstr (cString received) (ascii "STATUS") = true
  · have htoken : firstToken Register.space (cString received) ≠ [] := by
      refine firstToken_ne_nil (c := 83) ?_ (by decide)
      have hinfix : ascii "STATUS" <:+: cString received := of_decide_eq_true hstatus
      exact hinfix.subset (by decide)
    have hcopies := copyStatus_iff (received ++ [0]) car
    rw [cString_append_nul] at hcopies
    rw [statusUpdate_of_status hstatus]
    constructor
    · intro h _
      obtain ⟨r, hr⟩ := h
      obtain ⟨hdelimiter, hcopied⟩ := Option.ite_none_right_eq_some.mp hr
      exact ⟨hdelimiter, (hcopies.mp ⟨r.1, r.2, hcopied⟩).2⟩
    · intro h
      obtain ⟨hdelimiter, hlt⟩ := h hstatus
      obtain ⟨car', left, hcopied⟩ := hcopies.mpr ⟨htoken, hlt⟩
      rw [if_pos hdelimiter, hcopied]
      exact ⟨_, rfl⟩
  · rw [statusUpdate_of_noStatus (Bool.eq_false_iff.mpr hstatus)]
    exact iff_of_true ⟨_, rfl⟩ fun h => absurd h hstatus

/-- And when it leaves a word that ends the loop. -/
theorem terminates_statusUpdate {r : CarRegister × Bytes}
    (h : statusUpdate m (received ++ [0]) car = some r) :
    Register.terminates r.2 = true ↔
      strstr (cString received) (ascii "STATUS") = false ∧
        (strstr (cString received) (ascii "INDIVIDUAL SERVICE") = true ∨
          strstr (cString received) (ascii "EMERGENCY") = true) := by
  by_cases hstatus : strstr (cString received) (ascii "STATUS") = true
  · rw [statusUpdate_of_status hstatus] at h
    obtain ⟨_, hcopied⟩ := Option.ite_none_right_eq_some.mp h
    rw [not_terminates_of_copyStatus hcopied, hstatus]
    exact iff_of_false Bool.false_ne_true fun h => Bool.false_ne_true h.1.symm
  · have hno : strstr (cString received) (ascii "STATUS") = false := Bool.eq_false_iff.mpr hstatus
    rw [statusUpdate_of_noStatus hno] at h
    obtain rfl := Option.some.inj h
    rw [Register.terminates, cString_append_nul, Bool.or_eq_true]
    exact ⟨fun hword => ⟨hno, hword⟩, fun hword => hword.2⟩

/-- **One iteration**: it has a result exactly if the message is one the loop goes on after, and
breaks then exactly if the message ends the loop. -/
theorem iteration_bytes (m : Mended) (received : Bytes) (car : CarRegister) :
    ((∃ r, iteration m (.bytes received) car = some r) ↔ m.array = true ∧ Goes m received) ∧
      ∀ r, iteration m (.bytes received) car = some r → (r.2.2 = true ↔ Ends received) := by
  by_cases hread : received.length < bufferLen ∧ m.array = true
  · obtain ⟨hlt, harray⟩ := hread
    have hrun : iteration m (.bytes received) car =
        (statusUpdate m (received ++ [0]) car).map fun r =>
          (cString received, r.1, Register.terminates r.2) := by
      rw [iteration, getClientData_of_lt harray hlt, ← cString_append_nul received []]
      simp only [Option.bind_eq_bind, Option.bind_some]
      cases statusUpdate m (received ++ [0]) car <;> rfl
    rw [hrun]
    constructor
    · constructor
      · intro h
        obtain ⟨_, hr⟩ := h
        obtain ⟨r, hupdate, _⟩ := Option.map_eq_some_iff.mp hr
        exact ⟨harray, hlt, (statusUpdate_iff m received car).mp ⟨r, hupdate⟩⟩
      · intro h
        obtain ⟨r, hr⟩ := (statusUpdate_iff m received car).mpr h.2.status
        rw [hr]
        exact ⟨_, rfl⟩
    · intro r hr
      obtain ⟨r', hupdate, rfl⟩ := Option.map_eq_some_iff.mp hr
      have hterminates := terminates_statusUpdate hupdate
      exact ⟨fun h => ⟨hlt, (hterminates.mp h).1, (hterminates.mp h).2⟩,
        fun h => hterminates.mpr ⟨h.noStatus, h.word⟩⟩
  · have hnone : ∀ r, iteration m (.bytes received) car ≠ some r := by
      intro r hr
      rw [iteration, getClientData, if_neg hread] at hr
      cases hr
    refine ⟨iff_of_false ?_ fun h => hread ⟨h.2.room, h.1⟩, fun r hr => absurd hr (hnone r)⟩
    intro h
    obtain ⟨r, hr⟩ := h
    exact hnone r hr

theorem Ends.goes (h : Ends received) : Goes m received := by
  refine ⟨h.room, fun hstatus => ?_⟩
  rw [h.noStatus] at hstatus
  cases hstatus

theorem not_ends_nil : ¬ Ends [] := by
  intro h
  exact absurd h.word (by decide)

/-! ## Many messages -/

section Runs

variable {piece : ℕ → Bytes} {s t : Socket} {fuel : ℕ}

/-- A turn of the loop. -/
theorem loop_succ (fuel : ℕ) {r : Bytes × CarRegister × Bool}
    (hrun : iteration m (.bytes (piece s.receives)) car = some r) :
    loop m (fun k => .bytes (piece k)) (fuel + 1) s car =
      if r.2.2 then some { s with receives := s.receives + 1 }
      else loop m (fun k => .bytes (piece k)) fuel { s with receives := s.receives + 1 } r.2.1 := by
  rw [loop, hrun]
  rfl

/-- A loop that is left has come to a message that ends it. -/
theorem ends_of_loop (h : loop m (fun k => .bytes (piece k)) fuel s car = some t) :
    m.array = true ∧ ∃ d, Ends (piece (s.receives + d)) ∧
      ∀ i < d, Goes m (piece (s.receives + i)) := by
  induction fuel generalizing s car with
  | zero => cases h
  | succ fuel ih =>
    obtain ⟨r, hrun, _⟩ := Option.bind_eq_some_iff.mp h
    obtain ⟨hdefined, hbreaks⟩ := iteration_bytes m (piece s.receives) car
    obtain ⟨harray, hgoes⟩ := hdefined.mp ⟨r, hrun⟩
    refine ⟨harray, ?_⟩
    by_cases hends : r.2.2 = true
    · exact ⟨0, (hbreaks r hrun).mp hends, nofun⟩
    · rw [loop_succ fuel hrun, if_neg hends] at h
      obtain ⟨_, d, hd, hbefore⟩ := ih h
      refine ⟨d + 1, ?_, fun i hi => ?_⟩
      · rwa [Nat.add_comm d 1, ← Nat.add_assoc]
      · cases i with
        | zero => exact hgoes
        | succ i =>
          rw [Nat.add_comm i 1, ← Nat.add_assoc]
          exact hbefore i (Nat.lt_of_succ_lt_succ hi)

/-- And it is left there, or before. -/
theorem loop_of_ends (harray : m.array = true) {d : ℕ} (hd : Ends (piece (s.receives + d)))
    (hbefore : ∀ i < d, Goes m (piece (s.receives + i))) :
    ∃ t, loop m (fun k => .bytes (piece k)) (d + 1) s car = some t := by
  induction d generalizing s car with
  | zero =>
    obtain ⟨hdefined, hbreaks⟩ := iteration_bytes m (piece s.receives) car
    obtain ⟨r, hrun⟩ := hdefined.mpr ⟨harray, hd.goes⟩
    exact ⟨_, by rw [loop_succ 0 hrun, if_pos ((hbreaks r hrun).mpr hd)]⟩
  | succ d ih =>
    have hdefined := (iteration_bytes m (piece s.receives) car).1
    obtain ⟨r, hrun⟩ := hdefined.mpr ⟨harray, hbefore 0 (Nat.succ_pos d)⟩
    rw [loop_succ (d + 1) hrun]
    by_cases hends : r.2.2 = true
    · exact ⟨_, if_pos hends⟩
    · rw [if_neg hends]
      rw [Nat.add_comm d 1, ← Nat.add_assoc] at hd
      refine ih hd fun i hi => ?_
      have hnext := hbefore (i + 1) (Nat.succ_lt_succ hi)
      rwa [Nat.add_comm i 1, ← Nat.add_assoc] at hnext

end Runs

/-- As it is written, the loop does not get through its first turn. -/
theorem loop_asWritten (recv : ℕ → Reply) (fuel : ℕ) (s : Socket) (car : CarRegister) :
    loop asWritten recv fuel s car = none := by
  cases fuel with
  | zero => rfl
  | succ fuel =>
    rw [loop, iteration, getClientData_asWritten]
    rfl

/-- The first message that ends the loop, on a connection that is closed in the end. -/
theorem exists_ends_iff (pieces : List Bytes) :
    (∃ d, Ends (pieces.getD d []) ∧ ∀ i < d, Goes m (pieces.getD i [])) ↔
      ∃ front piece back, pieces = front ++ piece :: back ∧ Ends piece ∧
        ∀ p ∈ front, Goes m p := by
  constructor
  · intro h
    obtain ⟨d, hd, hbefore⟩ := h
    have hlt : d < pieces.length := by
      by_contra hge
      rw [List.getD_eq_default _ _ (Nat.le_of_not_lt hge)] at hd
      exact not_ends_nil hd
    refine ⟨pieces.take d, pieces[d], pieces.drop (d + 1), ?_, ?_, fun p hp => ?_⟩
    · rw [← List.drop_eq_getElem_cons hlt, List.take_append_drop]
    · rwa [List.getD_eq_getElem _ _ hlt] at hd
    · obtain ⟨i, hi, rfl⟩ := List.mem_take_iff_getElem.mp hp
      have hi' := hbefore i (by omega)
      rwa [List.getD_eq_getElem _ _ (by omega)] at hi'
  · intro h
    obtain ⟨front, piece, back, rfl, hends, hfront⟩ := h
    refine ⟨front.length, ?_, fun i hi => ?_⟩
    · rwa [List.getD_append_right _ _ _ _ (Nat.le_refl _), Nat.sub_self, List.getD_cons_zero]
    · rw [List.getD_append _ _ _ _ hi, List.getD_eq_getElem _ _ hi]
      exact hfront _ (List.getElem_mem hi)

/-- **When the loop is left and the socket closed.** As the source is written, never, whatever
`recv` returns. With the array mended, and `recv` asked for the car's bytes, iff a message ends the
loop before the car hangs up, and the loop goes on after every one before it. -/
theorem leaves_until_close_iff (car : CarRegister) :
    (∀ recv, ¬ ∃ fuel t, communicate asWritten recv fuel ⟨0, true⟩ car = some t ∧
      t.isOpen = false) ∧
    ∀ m pieces, (∃ fuel t, communicate m (untilClose pieces) fuel ⟨0, true⟩ car = some t ∧
        t.isOpen = false) ↔
      m.array = true ∧ ∃ front piece back, pieces = front ++ piece :: back ∧ Ends piece ∧
        ∀ p ∈ front, Goes m p := by
  constructor
  · intro recv h
    obtain ⟨fuel, t, hrun, _⟩ := h
    rw [communicate, loop_asWritten] at hrun
    cases hrun
  · intro m pieces
    rw [← exists_ends_iff]
    constructor
    · intro h
      obtain ⟨fuel, t, hrun, _⟩ := h
      obtain ⟨s, hloop, _⟩ := Option.bind_eq_some_iff.mp hrun
      have hends := ends_of_loop hloop
      simpa only [Nat.zero_add] using hends
    · intro h
      obtain ⟨harray, d, hd, hbefore⟩ := h
      have hleft : ∃ t, loop m (untilClose pieces) (d + 1) ⟨0, true⟩ car = some t := by
        refine loop_of_ends harray ?_ ?_
        · rwa [Nat.zero_add]
        · simpa only [Nat.zero_add] using hbefore
      obtain ⟨s, hs⟩ := hleft
      refine ⟨d + 1, { s with isOpen := false }, ?_, rfl⟩
      rw [communicate, hs]
      rfl

/-- A car that sends its status and is switched off, with everything mended as well. -/
theorem not_left_status :
    (∀ recv, ¬ ∃ fuel t, communicate asWritten recv fuel ⟨0, true⟩ Register.roomy = some t ∧
      t.isOpen = false) ∧
    ¬ ∃ fuel t, communicate ⟨true, true⟩
        (untilClose [sendMessage (ascii "STATUS Closed B1 B1")]) fuel ⟨0, true⟩
        Register.roomy = some t ∧ t.isOpen = false := by
  constructor
  · intro recv h
    obtain ⟨fuel, t, hrun, _⟩ := h
    rw [communicate, loop_asWritten] at hrun
    cases hrun
  · intro h
    obtain ⟨fuel, t, hrun, _⟩ := h
    obtain ⟨s, hloop, _⟩ := Option.bind_eq_some_iff.mp hrun
    obtain ⟨_, hends⟩ := ends_of_loop hloop
    simp only [Nat.zero_add] at hends
    obtain ⟨front, piece, back, hpieces, hpiece, _⟩ := exists_ends_iff _ |>.mp hends
    cases front with
    | nil =>
      obtain ⟨rfl, _⟩ := List.cons.inj hpieces
      exact absurd hpiece.word (by decide)
    | cons p front =>
      obtain ⟨_, hnil⟩ := List.cons.inj hpieces
      cases front <;> cases hnil

end Handler
end Controller
end Cab403
