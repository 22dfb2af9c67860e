import Mathlib.Algebra.Order.Floor.Div
import Mathlib.Algebra.BigOperators.Group.List.Basic

/-!
# Round robin

The scheduling policy on its own: a queue of jobs, each with what is left of its burst, and the
ready list that the slices go to. A *step* gives the job at the head one quantum at most and puts
what is left of it at the back; the policy is what comes of taking steps until no job is left.

`roundSlices` is the other way to say it: in round `r` each job that is still `due` gets its `r`-th
slice, in the order of the jobs. `steps_rounds` proves that the two agree, for any jobs and any
positive quantum. The induction is on rounds: one pass over the queue is round `0` of its jobs
(`steps_pass`), and leaves the queue whose round `r` is their round `r + 1` (`round_succ`).
-/

namespace Cab403
namespace Lib
namespace RoundRobin

variable {κ : Type*}

/-! ## Steps -/

structure Sched (κ : Type*) where
  jobs : List (κ × Nat)
  ready : List (κ × Nat)

/-- What goes back to the queue after a job's turn. -/
def rest (q : Nat) (j : κ × Nat) : List (κ × Nat) := if q < j.2 then [(j.1, j.2 - q)] else []

def step (q : Nat) (s : Sched κ) : Option (Sched κ) :=
  match s.jobs with
  | [] => none
  | j :: js => some ⟨js ++ rest q j, s.ready ++ [(j.1, min q j.2)]⟩

/-- Exactly `n` steps. -/
def steps (q : Nat) : Nat → Sched κ → Option (Sched κ)
  | 0, s => some s
  | n + 1, s => (step q s).bind (steps q n)

theorem steps_add (q m n : Nat) (s : Sched κ) :
    steps q (m + n) s = (steps q m s).bind (steps q n) := by
  induction m generalizing s with
  | zero => rw [Nat.zero_add]; rfl
  | succ m ih =>
    rw [Nat.succ_add]
    simp only [steps, Option.bind_assoc]
    congr 1
    funext t
    exact ih t

theorem steps_length {q n : Nat} {s t : Sched κ} (h : steps q n s = some t) :
    t.ready.length = s.ready.length + n := by
  induction n generalizing s with
  | zero =>
    cases h
    rfl
  | succ n ih =>
    obtain ⟨jobs, ready⟩ := s
    cases jobs with
    | nil => cases h
    | cons j js =>
      rw [ih h, List.length_append, List.length_singleton]
      omega

/-! ## Rounds -/

/-- The job is still in the queue in round `r`. -/
def due (q r b : Nat) : Bool := r == 0 || q * r < b

def slice (q r b : Nat) : Nat := min q (b - q * r)

/-- What round `r` adds to the ready list. -/
def roundSlices (q : Nat) (jobs : List (κ × Nat)) (r : Nat) : List (κ × Nat) :=
  (jobs.filter fun j => due q r j.2).map fun j => (j.1, slice q r j.2)

/-- How often a job takes a turn. -/
def turns (q b : Nat) : Nat := max 1 (b ⌈/⌉ q)

def totalTurns (q : Nat) (jobs : List (κ × Nat)) : Nat := (jobs.map fun j => turns q j.2).sum

/-- The queue after a pass over the jobs. -/
def next (q : Nat) (jobs : List (κ × Nat)) : List (κ × Nat) := jobs.flatMap (rest q)

theorem round_zero (q : Nat) (jobs : List (κ × Nat)) :
    roundSlices q jobs 0 = jobs.map fun j => (j.1, min q j.2) := by
  simp [roundSlices, due, slice]

theorem round_rest (q r : Nat) (j : κ × Nat) :
    roundSlices q (rest q j) r = roundSlices q [j] (r + 1) := by
  obtain ⟨k, b⟩ := j
  have hmul : q * (r + 1) = q * r + q := Nat.mul_succ q r
  unfold rest
  by_cases hb : q < b
  · -- the job comes back with `b - q`, and is due then when it would have been
    have hdue : due q r (b - q) = due q (r + 1) b := by
      simp only [due, hmul]
      rcases Nat.eq_zero_or_pos r with rfl | hr
      · simp [hb]
      · have : (r == 0) = false := by simp; omega
        simp only [this, Bool.false_or]
        simp
        omega
    have hslice : slice q r (b - q) = slice q (r + 1) b := by
      simp only [slice, hmul]
      omega
    simp only [if_pos hb, roundSlices, List.filter_cons, List.filter_nil, hdue]
    split
    · simp [hslice]
    · rfl
  · have hdue : due q (r + 1) b = false := by
      simp only [due, hmul]
      simp
      omega
    simp [if_neg hb, roundSlices, hdue]

theorem round_append (q r : Nat) (js js' : List (κ × Nat)) :
    roundSlices q (js ++ js') r = roundSlices q js r ++ roundSlices q js' r := by
  simp [roundSlices]

theorem round_succ (q r : Nat) (jobs : List (κ × Nat)) :
    roundSlices q jobs (r + 1) = roundSlices q (next q jobs) r := by
  induction jobs with
  | nil => rfl
  | cons j js ih =>
    have hnext : next q (j :: js) = rest q j ++ next q js := rfl
    rw [hnext, round_append, ← ih, round_rest, ← round_append]
    rfl

theorem turns_rest {q : Nat} (hq : 0 < q) (j : κ × Nat) :
    turns q j.2 = 1 + totalTurns q (rest q j) := by
  obtain ⟨k, b⟩ := j
  simp only [turns, rest, Nat.ceilDiv_eq_add_pred_div]
  by_cases hb : q < b
  · have hdiv : (b + q - 1) / q = (b - q + q - 1) / q + 1 := by
      rw [← Nat.add_div_right _ hq]
      congr 1
      omega
    have hone : 1 ≤ (b - q + q - 1) / q := (Nat.one_le_div_iff hq).mpr (by omega)
    simp only [if_pos hb, totalTurns, turns, Nat.ceilDiv_eq_add_pred_div, List.map_cons,
      List.map_nil, List.sum_cons, List.sum_nil]
    omega
  · have hdiv : (b + q - 1) / q ≤ 1 := by
      have : (b + q - 1) / q < 2 := (Nat.div_lt_iff_lt_mul hq).mpr (by omega)
      omega
    simp only [if_neg hb, totalTurns, List.map_nil, List.sum_nil]
    omega

theorem totalTurns_next {q : Nat} (hq : 0 < q) (jobs : List (κ × Nat)) :
    totalTurns q jobs = jobs.length + totalTurns q (next q jobs) := by
  induction jobs with
  | nil => rfl
  | cons j js ih =>
    have hnext : next q (j :: js) = rest q j ++ next q js := rfl
    have hsum : totalTurns q (rest q j ++ next q js) =
        totalTurns q (rest q j) + totalTurns q (next q js) := by
      simp [totalTurns]
    have hcons : totalTurns q (j :: js) = turns q j.2 + totalTurns q js := rfl
    rw [hcons, hnext, hsum, turns_rest hq j, ih, List.length_cons]
    omega

/-! ## Steps go round by round -/

/-- One pass over the jobs at the front of the queue. -/
theorem steps_pass (q : Nat) (jobs later ready : List (κ × Nat)) :
    steps q jobs.length ⟨jobs ++ later, ready⟩ =
      some ⟨later ++ next q jobs, ready ++ jobs.map fun j => (j.1, min q j.2)⟩ := by
  induction jobs generalizing later ready with
  | nil => simp [steps, next]
  | cons j js ih =>
    simp only [List.length_cons, steps, step, List.cons_append, Option.bind_some, List.append_assoc]
    rw [ih]
    simp [next]

theorem mem_next {q : Nat} {jobs : List (κ × Nat)} {j : κ × Nat} (h : j ∈ next q jobs) :
    ∃ i ∈ jobs, q < i.2 ∧ j = (i.1, i.2 - q) := by
  obtain ⟨i, hi, hj⟩ := List.mem_flatMap.mp h
  refine ⟨i, hi, ?_⟩
  unfold rest at hj
  split at hj
  · rename_i hlt
    exact ⟨hlt, List.mem_singleton.mp hj⟩
  · cases hj

/-- **The schedule.** Where every burst fits into `R` rounds, the queue is empty after the jobs'
turns, and the slices were handed out round by round. -/
theorem steps_rounds {q : Nat} (hq : 0 < q) (R : Nat) (jobs ready : List (κ × Nat))
    (hfit : ∀ j ∈ jobs, j.2 ≤ q * R) (hR : R = 0 → jobs = []) :
    steps q (totalTurns q jobs) ⟨jobs, ready⟩ =
      some ⟨[], ready ++ (List.range R).flatMap (roundSlices q jobs)⟩ := by
  induction R generalizing jobs ready with
  | zero =>
    rw [hR rfl]
    simp [totalTurns, steps]
  | succ R ih =>
    have hmul : q * (R + 1) = q * R + q := Nat.mul_succ q R
    have hfit' : ∀ j ∈ next q jobs, j.2 ≤ q * R := by
      intro j hj
      obtain ⟨i, hi, _, rfl⟩ := mem_next hj
      have := hfit i hi
      show i.2 - q ≤ q * R
      omega
    have hR' : R = 0 → next q jobs = [] := by
      rintro rfl
      rw [List.eq_nil_iff_forall_not_mem]
      intro j hj
      obtain ⟨i, hi, hlt, _⟩ := mem_next hj
      have := hfit i hi
      omega
    have hpass := steps_pass q jobs [] ready
    rw [List.append_nil, List.nil_append] at hpass
    have hround : (fun r => roundSlices q jobs (r + 1)) = roundSlices q (next q jobs) :=
      funext fun r => round_succ q r jobs
    rw [totalTurns_next hq, steps_add, hpass, Option.bind_some, ih _ _ hfit' hR', ← hround,
      List.range_succ_eq_map, List.flatMap_cons, List.flatMap_map, round_zero, List.append_assoc]

/-- The slices of a job over the first `R` rounds. -/
theorem sum_slices (q R b : Nat) :
    (((List.range R).filter fun r => due q r b).map fun r => slice q r b).sum = min b (q * R) := by
  induction R with
  | zero => simp
  | succ R ih =>
    have hmul : q * (R + 1) = q * R + q := Nat.mul_succ q R
    rw [List.range_succ, List.filter_append, List.map_append, List.sum_append, ih, hmul]
    by_cases hdue : due q R b = true
    · simp only [List.filter_cons, List.filter_nil, hdue, if_pos, List.map_cons, List.map_nil,
        List.sum_cons, List.sum_nil, slice]
      omega
    · have hb : b ≤ q * R := by
        simp only [due, Bool.or_eq_true, decide_eq_true_eq, not_or] at hdue
        omega
      simp only [List.filter_cons, List.filter_nil, hdue]
      simp
      omega

end RoundRobin
end Lib
end Cab403
