import Cab403.Lib.Wire

/-!
# `strtok`

`strtok(s, delims)` cuts the first token off the C string `s`; `strtok(NULL, delims)` goes on
behind the token found last. Both are one function here: it is given the buffer and where to
start, and returns the token with what it leaves behind, the buffer with a NUL in place of the
delimiter that ended the token, and where the next call goes on. The cursor that C keeps hidden is
then the caller's to pass on, or not.
-/

namespace Cab403
namespace Lib

structure Token where
  text : Bytes
  buffer : Bytes
  cursor : Nat
  deriving DecidableEq, Repr

/-- `none` is `NULL`: there is no further token. -/
def strtok (delims buffer : Bytes) (start : Nat) : Option Token :=
  let rest := cString (buffer.drop start)
  let word := rest.dropWhile (delims.contains ·)
  let text := word.takeWhile (!delims.contains ·)
  let stop := start + (rest.length - word.length) + text.length
  if text = [] then none
  else if text.length < word.length then some ⟨text, buffer.set stop 0, stop + 1⟩
  else some ⟨text, buffer, stop⟩

/-- Something in it, and neither a delimiter nor a NUL. -/
structure IsToken (delims w : Bytes) : Prop where
  ne_nil : w ≠ []
  clean : ∀ c ∈ w, c ∉ delims ∧ c ≠ 0

variable {delims front w rest : Bytes} {d : UInt8}

theorem isToken_iff :
    w ≠ [] ∧ w.all (fun c => !delims.contains c && c != 0) = true ↔ IsToken delims w := by
  constructor
  · intro h
    refine ⟨h.1, ?_⟩
    simpa using h.2
  · intro h
    refine ⟨h.ne_nil, ?_⟩
    simpa using h.clean

instance (delims w : Bytes) : Decidable (IsToken delims w) := decidable_of_iff _ isToken_iff

/-- A token has nothing to skip and nowhere to stop. -/
theorem IsToken.spans (h : IsToken delims w) (tail : Bytes)
    (htail : tail.takeWhile (!delims.contains ·) = []) :
    (w ++ tail).dropWhile (delims.contains ·) = w ++ tail ∧
      (w ++ tail).takeWhile (!delims.contains ·) = w := by
  have hkeep : ∀ c ∈ w, (!delims.contains c) = true := by
    intro c hc
    simpa using (h.clean c hc).1
  constructor
  · cases w with
    | nil => exact absurd rfl h.ne_nil
    | cons c w =>
      have hc : ¬ delims.contains c = true := by
        simpa using (h.clean c List.mem_cons_self).1
      exact List.dropWhile_cons_of_neg hc
  · rw [List.takeWhile_append_of_pos hkeep, htail, List.append_nil]

theorem cString_append (h : ∀ c ∈ w, c ≠ 0) (tail : Bytes) :
    cString (w ++ tail) = w ++ cString tail :=
  List.takeWhile_append_of_pos fun c hc => by simpa using h c hc

/-- **A token with a delimiter behind it** is cut off there. -/
theorem strtok_delimited (h : IsToken delims w) (hd : d ∈ delims) (hd0 : d ≠ 0) :
    strtok delims (front ++ (w ++ d :: rest)) front.length =
      some ⟨w, front ++ (w ++ 0 :: rest), (front ++ (w ++ [0])).length⟩ := by
  have hstring : cString ((front ++ (w ++ d :: rest)).drop front.length) =
      w ++ d :: cString rest := by
    rw [List.drop_left, cString_append fun c hc => (h.clean c hc).2]
    congr 1
    exact List.takeWhile_cons_of_pos (by simpa using hd0)
  obtain ⟨hdrop, htake⟩ := h.spans (d :: cString rest)
    (List.takeWhile_cons_of_neg (by simpa using hd))
  have hstop : (front ++ (w ++ d :: rest)).set (front.length + w.length) 0 =
      front ++ (w ++ 0 :: rest) := by
    rw [List.set_append_right _ _ (Nat.le_add_right ..), Nat.add_sub_cancel_left,
      List.set_append_right _ _ (Nat.le_refl _), Nat.sub_self]
    rfl
  unfold strtok
  rw [hstring]
  simp only [hdrop, htake, Nat.sub_self, Nat.add_zero]
  rw [if_neg h.ne_nil, if_pos (by simp), hstop]
  simp [Nat.add_assoc]

/-- **A token with the NUL behind it** is left as it is. -/
theorem strtok_last (h : IsToken delims w) :
    strtok delims (front ++ (w ++ 0 :: rest)) front.length =
      some ⟨w, front ++ (w ++ 0 :: rest), (front ++ w).length⟩ := by
  have hstring : cString ((front ++ (w ++ 0 :: rest)).drop front.length) = w := by
    rw [List.drop_left, cString_append fun c hc => (h.clean c hc).2]
    simp [cString]
  obtain ⟨hdrop, htake⟩ := h.spans [] rfl
  rw [List.append_nil] at hdrop htake
  unfold strtok
  rw [hstring]
  simp only [hdrop, htake, Nat.sub_self, Nat.add_zero]
  rw [if_neg h.ne_nil, if_neg (Nat.lt_irrefl _), List.length_append]

theorem cString_set_zero (buffer : Bytes) (n : Nat) (hn : n ≤ (cString buffer).length) :
    cString (buffer.set n 0) = (cString buffer).take n := by
  induction buffer generalizing n with
  | nil => simp [cString]
  | cons c buffer ih =>
    by_cases hc : c = 0
    · subst hc
      have hzero : n = 0 := by simpa [cString] using hn
      subst hzero
      rfl
    · have hstring : ∀ rest, cString (c :: rest) = c :: cString rest := by
        intro rest
        exact List.takeWhile_cons_of_pos (by simpa using hc)
      cases n with
      | zero => simp [cString]
      | succ n =>
        rw [hstring, List.length_cons] at hn
        rw [List.set_cons_succ, hstring, hstring, List.take_succ_cons, ih n (by omega)]

/-- What a call from the start of a buffer leaves there to be read: the first token, with what
was skipped. -/
theorem cString_strtok {buffer : Bytes} {t : Token} (h : strtok delims buffer 0 = some t) :
    cString t.buffer = (cString buffer).takeWhile (delims.contains ·) ++
      ((cString buffer).dropWhile (delims.contains ·)).takeWhile (!delims.contains ·) := by
  unfold strtok at h
  rw [List.drop_zero] at h
  simp only [Nat.zero_add] at h
  generalize hs : cString buffer = s at h ⊢
  obtain ⟨skipped, hskipped⟩ : ∃ skipped, s.takeWhile (delims.contains ·) = skipped := ⟨_, rfl⟩
  obtain ⟨word, hword⟩ : ∃ word, s.dropWhile (delims.contains ·) = word := ⟨_, rfl⟩
  have hsplit : s = skipped ++ word := by
    rw [← hskipped, ← hword, List.takeWhile_append_dropWhile]
  have hlength : s.length - word.length = skipped.length := by
    rw [hsplit, List.length_append, Nat.add_sub_cancel_right]
  have htoken : word.takeWhile (!delims.contains ·) <+: word := List.takeWhile_prefix _
  rw [hskipped, hword]
  rw [hword, hlength] at h
  generalize word.takeWhile (!delims.contains ·) = text at h htoken ⊢
  obtain ⟨tail, htail⟩ := htoken
  have hfull : s = (skipped ++ text) ++ tail := by
    rw [hsplit, ← htail, List.append_assoc]
  split at h
  · cases h
  split at h
  · cases h
    rw [cString_set_zero _ _ (by simp [hs, hfull]), hs, hfull, ← List.length_append,
      List.take_left]
  · cases h
    rename_i hshort
    have hnone : tail = [] := by
      rw [← htail, List.length_append] at hshort
      exact List.length_eq_zero_iff.mp (by omega)
    rw [hs, hfull, hnone, List.append_nil]

/-! ## From the start of a buffer -/

/-- What a call from the start skips. -/
def skipped (delims s : Bytes) : Bytes := s.takeWhile (delims.contains ·)

/-- The token it finds. -/
def firstToken (delims s : Bytes) : Bytes :=
  (s.dropWhile (delims.contains ·)).takeWhile (!delims.contains ·)

theorem mem_skipped {s : Bytes} {c : UInt8} (h : c ∈ skipped delims s) : c ∈ delims := by
  simpa using List.mem_takeWhile_imp h

theorem not_mem_firstToken {s : Bytes} {c : UInt8} (h : c ∈ firstToken delims s) : c ∉ delims := by
  simpa using List.mem_takeWhile_imp h

theorem strtok_text {buffer : Bytes} {t : Token} (h : strtok delims buffer 0 = some t) :
    t.text = firstToken delims (cString buffer) := by
  unfold strtok at h
  rw [List.drop_zero] at h
  simp only at h
  split at h
  · cases h
  split at h
  · cases h
    rfl
  · cases h
    rfl

/-- A token has something in it. -/
theorem strtok_text_ne_nil {buffer : Bytes} {start : Nat} {t : Token}
    (h : strtok delims buffer start = some t) : t.text ≠ [] := by
  unfold strtok at h
  simp only at h
  split at h
  · cases h
  · rename_i hne
    split at h
    all_goals
      cases h
      exact hne

theorem exists_strtok {buffer : Bytes} (h : firstToken delims (cString buffer) ≠ []) :
    ∃ t, strtok delims buffer 0 = some t := by
  unfold firstToken at h
  unfold strtok
  rw [List.drop_zero]
  simp only
  rw [if_neg h]
  split
  · exact ⟨_, rfl⟩
  · exact ⟨_, rfl⟩

/-- Cut off behind its first token, a string has the same first token. -/
theorem firstToken_cut (s : Bytes) :
    skipped delims (skipped delims s ++ firstToken delims s) = skipped delims s ∧
      firstToken delims (skipped delims s ++ firstToken delims s) = firstToken delims s := by
  have hskip : ∀ c ∈ skipped delims s, delims.contains c = true := by
    intro c hc
    simpa using mem_skipped hc
  have hkeep : ∀ c ∈ firstToken delims s, (!delims.contains c) = true := by
    intro c hc
    simpa using not_mem_firstToken hc
  have hnone : (firstToken delims s).takeWhile (delims.contains ·) = [] ∧
      (firstToken delims s).dropWhile (delims.contains ·) = firstToken delims s := by
    cases hs : firstToken delims s with
    | nil => exact ⟨rfl, rfl⟩
    | cons c rest =>
      rw [hs] at hkeep
      have hc : ¬ delims.contains c = true := by simpa using hkeep c List.mem_cons_self
      exact ⟨List.takeWhile_cons_of_neg hc, List.dropWhile_cons_of_neg hc⟩
  constructor
  · rw [skipped, List.takeWhile_append_of_pos hskip, hnone.1, List.append_nil]
  · rw [firstToken, List.dropWhile_append_of_pos hskip, hnone.2,
      List.takeWhile_eq_self_iff.mpr hkeep]

/-- A second call from the start finds the token again. -/
theorem strtok_again {buffer : Bytes} {t : Token} (h : strtok delims buffer 0 = some t) :
    cString t.buffer = skipped delims (cString buffer) ++ firstToken delims (cString buffer) ∧
      skipped delims (cString t.buffer) = skipped delims (cString buffer) ∧
      firstToken delims (cString t.buffer) = firstToken delims (cString buffer) := by
  have hleft : cString t.buffer =
      skipped delims (cString buffer) ++ firstToken delims (cString buffer) := cString_strtok h
  rw [hleft]
  exact ⟨rfl, firstToken_cut _⟩

/-- A word with anything in it but delimiters has a token. -/
theorem firstToken_ne_nil {s : Bytes} {c : UInt8} (hc : c ∈ s) (hd : c ∉ delims) :
    firstToken delims s ≠ [] := by
  intro hnil
  unfold firstToken at hnil
  cases hword : s.dropWhile (delims.contains ·) with
  | nil =>
    have hall := List.dropWhile_eq_nil_iff.mp hword c hc
    exact hd (by simpa using hall)
  | cons d word =>
    have hfirst : ¬ delims.contains d = true := by
      have hhead := List.head?_dropWhile_not (delims.contains ·) s
      rw [hword] at hhead
      simpa using hhead
    rw [hword, List.takeWhile_cons_of_pos (by simpa using hfirst)] at hnil
    cases hnil

/-- A word is not found among the delimiters in front. -/
theorem infix_skipped_iff {s t u : Bytes} {c : UInt8} (hs : ∀ d ∈ s, d ∈ delims)
    (hc : c ∉ delims) : (c :: u) <:+: (s ++ t) ↔ (c :: u) <:+: t := by
  induction s with
  | nil => rfl
  | cons d s ih =>
    have hd : c ≠ d := by
      rintro rfl
      exact hc (hs c List.mem_cons_self)
    rw [List.cons_append, List.infix_cons_iff, ih fun e he => hs e (List.mem_cons_of_mem d he),
      List.cons_prefix_cons]
    exact or_iff_right fun h => hd h.1

end Lib
end Cab403
