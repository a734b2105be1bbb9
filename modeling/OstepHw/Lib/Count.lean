import Mathlib.Algebra.Order.BigOperators.Group.List
import Mathlib.Algebra.Order.Ring.Nat
import Mathlib.Algebra.Ring.Int.Defs
import Mathlib.Algebra.Ring.Nat
import Mathlib.Data.List.Count
import Mathlib.Data.List.Range
import Mathlib.Logic.Function.Basic
import Mathlib.Tactic.Common

/-!
# Counting threads

The threads of a system are numbered, and each is in some place of its program.  Semaphores and locks
are kept by equations between their values and the number of threads in certain places.

* `count n p f` — how many of the first `n` threads are in a place with `p`;
* `count_update` — one thread moves;
* `count_le`, `count_mono` — bounds;
* `count_eq_zero`, `count_pos`, `count_pair`, `count_eq_self`, `count_interval` — no thread, some thread,
  two threads, all threads, those in a row;
* `others n i p f`, `count_eq_others` — the threads besides thread `i`;
* `total n r f`, `total_update`, `total_lt` — the sum of a rank of places, for bounds on what is left to do.
-/

set_option autoImplicit false

namespace OstepHw.Count

variable {τ : Type*}

/-- How many of `f 0, …, f (n - 1)` have `p`. -/
def count (n : Nat) (p : τ → Bool) (f : Nat → τ) : Nat := (List.range n).countP fun i => p (f i)

theorem count_succ (n : Nat) (p : τ → Bool) (f : Nat → τ) :
    count (n + 1) p f = count n p f + if p (f n) then 1 else 0 := by
  simp [count, List.range_succ, List.countP_append, List.countP_cons]

theorem count_congr {n : Nat} {p q : τ → Bool} {f g : Nat → τ} (h : ∀ i < n, p (f i) = q (g i)) :
    count n p f = count n q g :=
  List.countP_congr fun i hi => by rw [h i (List.mem_range.mp hi)]

/-- **One thread moves.** -/
theorem count_update {n i : Nat} (p : τ → Bool) (f : Nat → τ) (x : τ) (hi : i < n) :
    count n p (Function.update f i x) + (if p (f i) then 1 else 0) =
      count n p f + if p x then 1 else 0 := by
  induction n with
  | zero => omega
  | succ n ih =>
    rw [count_succ, count_succ]
    by_cases hin : i = n
    · subst hin
      have hrest : count i p (Function.update f i x) = count i p f :=
        count_congr fun j hj => by rw [Function.update_of_ne (by omega)]
      rw [hrest, Function.update_self]
      omega
    · have := ih (by omega)
      rw [Function.update_of_ne (Ne.symm hin)]
      omega

/-- What the thread that moves does not change. -/
theorem update_apply_of_eq {β : Type*} {q : τ → β} {i : Nat} {f : Nat → τ} {x : τ} (hx : q x = q (f i))
    (j : Nat) : q (Function.update f i x j) = q (f j) := by
  rcases eq_or_ne j i with rfl | hji
  · rw [Function.update_self, hx]
  · rw [Function.update_of_ne hji]

/-- The thread that moves does not change what is counted. -/
theorem count_update_of_eq {n i : Nat} {p : τ → Bool} {f : Nat → τ} {x : τ} (hi : i < n) (hx : p x = p (f i)) :
    count n p (Function.update f i x) = count n p f := by
  have := count_update p f x hi
  rw [hx] at this
  omega

theorem count_eq_zero {n : Nat} {p : τ → Bool} {f : Nat → τ} :
    count n p f = 0 ↔ ∀ i < n, p (f i) = false := by
  simp [count, List.countP_eq_zero]

theorem count_pos {n : Nat} {p : τ → Bool} {f : Nat → τ} :
    0 < count n p f ↔ ∃ i < n, p (f i) = true := by
  simp [count, List.countP_pos_iff]

theorem count_le (n : Nat) (p : τ → Bool) (f : Nat → τ) : count n p f ≤ n := by
  have := List.countP_le_length (p := fun i => p (f i)) (l := List.range n)
  rwa [List.length_range] at this

theorem count_eq_self {n : Nat} {p : τ → Bool} {f : Nat → τ} : count n p f = n ↔ ∀ i < n, p (f i) = true := by
  have h := List.countP_eq_length (p := fun i => p (f i)) (l := List.range n)
  rw [List.length_range] at h
  simpa [count] using h

theorem count_add_count_not (n : Nat) (p : τ → Bool) (f : Nat → τ) :
    count n p f + count n (fun x => !p x) f = n := by
  have h := List.length_eq_countP_add_countP (fun i => p (f i)) (l := List.range n)
  rw [List.length_range] at h
  simp only [count]
  simpa using h.symm

theorem count_mono {n : Nat} {p q : τ → Bool} {f : Nat → τ} (h : ∀ x, p x = true → q x = true) :
    count n p f ≤ count n q f := List.countP_mono_left fun i _ hp => h (f i) hp

/-- The threads from `a` on that are below `b`. -/
theorem count_interval {n a b : Nat} {p : τ → Bool} {f : Nat → τ} (hb : b ≤ n)
    (h : ∀ i < n, p (f i) = decide (a ≤ i ∧ i < b)) : count n p f = b - a := by
  induction n generalizing b with
  | zero =>
    obtain rfl : b = 0 := by omega
    rw [Nat.zero_sub]
    rfl
  | succ n ih =>
    rw [count_succ, h n (by omega)]
    rcases Nat.lt_or_ge n b with hnb | hnb
    · obtain rfl : b = n + 1 := by omega
      have hrest : count n p f = n - a := ih le_rfl fun i hi => by
        rw [h i (by omega)]
        congr 1
        exact propext ⟨fun hia => ⟨hia.1, hi⟩, fun hia => ⟨hia.1, by omega⟩⟩
      simp only [decide_eq_true_eq]
      split <;> omega
    · rw [ih hnb fun i hi => h i (by omega)]
      simp only [decide_eq_true_eq]
      split <;> omega

/-- Two threads. -/
theorem count_pair {n i j : Nat} {p : τ → Bool} {f : Nat → τ} (hi : i < n) (hj : j < n) (hij : i ≠ j)
    (hpi : p (f i) = true) (hpj : p (f j) = true) : 2 ≤ count n p f := by
  induction n with
  | zero => omega
  | succ n ih =>
    rw [count_succ]
    by_cases hin : i = n
    · subst hin
      have hpos : 0 < count i p f := count_pos.2 ⟨j, by omega, hpj⟩
      rw [if_pos hpi]
      omega
    · by_cases hjn : j = n
      · subst hjn
        have hpos : 0 < count j p f := count_pos.2 ⟨i, by omega, hpi⟩
        rw [if_pos hpj]
        omega
      · have := ih (by omega) (by omega)
        omega

/-- Threads of different kinds. -/
theorem count_disjoint {n : Nat} {p q r : τ → Bool} {f : Nat → τ}
    (hpq : ∀ x, p x = true → q x = true → False) (hr : ∀ x, p x = true ∨ q x = true → r x = true) :
    count n p f + count n q f ≤ count n r f := by
  induction n with
  | zero => exact le_rfl
  | succ n ih =>
    rw [count_succ, count_succ, count_succ]
    have hp := hpq (f n)
    have hle := hr (f n)
    split_ifs <;> simp_all <;> omega

/-- Threads of one kind, told apart by what they do. -/
theorem count_split {υ : Type*} {n : Nat} {p q : τ → Bool} {r : υ → Bool} {f : Nat → τ} {g : Nat → υ}
    (h : ∀ i < n, (if p (f i) then 1 else 0) + (if q (f i) then 1 else 0) = if r (g i) then 1 else 0) :
    count n p f + count n q f = count n r g := by
  induction n with
  | zero => rfl
  | succ n ih =>
    have := ih fun i hi => h i (Nat.lt_succ_of_lt hi)
    have := h n (Nat.lt_succ_self n)
    rw [count_succ, count_succ, count_succ]
    omega

/-! ## The other threads -/

/-- How many threads besides `i` are in a place with `p`. -/
def others (n i : Nat) (p : τ → Bool) (f : Nat → τ) : Nat :=
  (List.range n).countP fun j => decide (j ≠ i) && p (f j)

theorem others_congr {n i : Nat} {p q : τ → Bool} {f g : Nat → τ}
    (h : ∀ j < n, j ≠ i → p (f j) = q (g j)) : others n i p f = others n i q g :=
  List.countP_congr fun j hj => by
    by_cases hji : j = i
    · simp [hji]
    · simp [hji, h j (List.mem_range.mp hj) hji]

theorem others_succ (n i : Nat) (p : τ → Bool) (f : Nat → τ) :
    others (n + 1) i p f = others n i p f + if n ≠ i ∧ p (f n) = true then 1 else 0 := by
  simp [others, List.range_succ, List.countP_append, List.countP_cons]

theorem count_eq_others {n i : Nat} (p : τ → Bool) (f : Nat → τ) (hi : i < n) :
    count n p f = others n i p f + if p (f i) then 1 else 0 := by
  induction n with
  | zero => omega
  | succ n ih =>
    rw [count_succ, others_succ]
    rcases eq_or_ne n i with rfl | hni
    · have hrest : others n n p f = count n p f :=
        List.countP_congr fun j hj => by simp [(List.mem_range.mp hj).ne]
      simp [hrest]
    · rw [ih (by omega)]
      simp only [hni, ne_eq, not_false_eq_true, true_and]
      omega

/-! ## Sums -/

/-- The sum of `r` over `f 0, …, f (n - 1)`. -/
def total (n : Nat) (r : τ → Nat) (f : Nat → τ) : Nat := ((List.range n).map fun i => r (f i)).sum

theorem total_succ (n : Nat) (r : τ → Nat) (f : Nat → τ) : total (n + 1) r f = total n r f + r (f n) := by
  simp [total, List.range_succ]

/-- **One thread moves.** -/
theorem total_update {n i : Nat} (r : τ → Nat) (f : Nat → τ) (x : τ) (hi : i < n) :
    total n r (Function.update f i x) + r (f i) = total n r f + r x := by
  induction n with
  | zero => omega
  | succ n ih =>
    rw [total_succ, total_succ]
    by_cases hin : i = n
    · subst hin
      have hrest : total i r (Function.update f i x) = total i r f := by
        unfold total
        congr 1
        apply List.map_congr_left
        intro j hj
        rw [Function.update_of_ne (by have := List.mem_range.mp hj; omega)]
      rw [hrest, Function.update_self]
      omega
    · have := ih (by omega)
      rw [Function.update_of_ne (Ne.symm hin)]
      omega

theorem total_const {n c : Nat} {r : τ → Nat} {f : Nat → τ} (h : ∀ i < n, r (f i) = c) : total n r f = c * n := by
  induction n with
  | zero => rfl
  | succ n ih => rw [total_succ, ih fun i hi => h i (by omega), h n (by omega), Nat.mul_succ]

/-- One thread has something left to add. -/
theorem total_lt {n i : Nat} {r q : τ → Nat} {f : Nat → τ} (h : ∀ j < n, r (f j) ≤ q (f j)) (hi : i < n)
    (hlt : r (f i) < q (f i)) : total n r f < total n q f :=
  List.sum_lt_sum _ _ (fun j hj => h j (List.mem_range.1 hj)) ⟨i, List.mem_range.2 hi, hlt⟩

theorem total_eq_zero {n : Nat} {r : τ → Nat} {f : Nat → τ} (h : ∀ i < n, r (f i) = 0) : total n r f = 0 := by
  induction n with
  | zero => rfl
  | succ n ih => rw [total_succ, ih fun i hi => h i (by omega), h n (by omega)]

/-- The threads with `p` add the same, and the others nothing. -/
theorem total_eq_mul_count {n c : Nat} {p : τ → Bool} {r : τ → Nat} {f : Nat → τ}
    (h : ∀ i < n, r (f i) = if p (f i) then c else 0) : total n r f = c * count n p f := by
  induction n with
  | zero => rfl
  | succ n ih =>
    rw [total_succ, count_succ, ih fun i hi => h i (by omega), h n (by omega), Nat.mul_add]
    split <;> simp

/-- Only one thread adds to the sum. -/
theorem total_eq_single {n i : Nat} {r : τ → Nat} {f : Nat → τ} (hi : i < n)
    (h : ∀ j < n, j ≠ i → r (f j) = 0) : total n r f = r (f i) := by
  induction n with
  | zero => omega
  | succ n ih =>
    rw [total_succ]
    rcases eq_or_ne i n with rfl | hin
    · rw [total_eq_zero fun j hj => h j (by omega) (by omega), Nat.zero_add]
    · rw [ih (by omega) fun j hj => h j (by omega), h n (by omega) (Ne.symm hin), Nat.add_zero]

end OstepHw.Count
