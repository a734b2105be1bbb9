import Mathlib.Data.List.Iterate
import Mathlib.Data.List.Nodup
import Mathlib.Data.List.Chain
import Mathlib.Data.Set.Function
import Mathlib.Order.Interval.Set.Defs
import Mathlib.Tactic.Common

/-!
# Drawing by rejection

A generator `f` gives `f x`, `f (f x)`, … from the seed `x`, and a draw takes the first of them with `p`, which is the
seed of the next draw.

* `First` — one draw; `First.of_rejected` — a rejected value can be the seed as well;
* `draws_eq` — draws are the values with `p`, in order;
* `perm_of_bijOn`, `countP_draws` — over a full period each number with `p` is drawn once.
-/

set_option autoImplicit false

namespace OstepHw.Sampling

variable {α : Type*} {f : α → α} {p : α → Bool}

/-- `y` is the first value with `p` from the seed `x` on. -/
inductive First (f : α → α) (p : α → Bool) : α → α → Prop
  | here {x : α} (h : p (f x) = true) : First f p x (f x)
  | later {x y : α} (h : p (f x) = false) (hrest : First f p (f x) y) : First f p x y

theorem First.accepted {x y : α} (h : First f p x y) : p y = true := by
  induction h with
  | here h => exact h
  | later _ _ ih => exact ih

theorem First.eq_of_accepted {x y : α} (h : First f p x y) (hp : p (f x) = true) : y = f x := by
  cases h with
  | here => rfl
  | later hno => simp [hno] at hp

/-- A rejected value can be the seed as well. -/
theorem First.of_rejected {x y : α} (h : First f p x y) (hp : p (f x) = false) : First f p (f x) y := by
  cases h with
  | here hyes => simp [hyes] at hp
  | later _ hrest => exact hrest

/-- **Draws are the values with `p`**, in their order. -/
theorem draws_eq {n : ℕ} {x : α} {draws : List α} (h : (x :: draws).IsChain (First f p))
    (hlen : draws.length = (List.iterate f (f x) n).countP p) : draws = (List.iterate f (f x) n).filter p := by
  induction n generalizing x draws with
  | zero => exact List.eq_nil_of_length_eq_zero hlen
  | succ n ih =>
    rw [List.iterate] at hlen ⊢
    cases hp : p (f x) with
    | true =>
      rw [List.countP_cons_of_pos hp] at hlen
      obtain ⟨y, draws, rfl⟩ := List.exists_cons_of_length_eq_add_one hlen
      obtain ⟨hfirst, hrest⟩ := List.isChain_cons_cons.1 h
      obtain rfl := hfirst.eq_of_accepted hp
      rw [List.filter_cons_of_pos hp, ← ih hrest (Nat.succ.inj hlen)]
    | false =>
      have hno : ¬p (f x) = true := by simp [hp]
      rw [List.countP_cons_of_neg hno] at hlen
      rw [List.filter_cons_of_neg hno]
      refine ih ?_ hlen
      cases draws with
      | nil => exact .singleton _
      | cons y draws =>
        obtain ⟨hfirst, hrest⟩ := List.isChain_cons_cons.1 h
        exact .cons_cons (hfirst.of_rejected hp) hrest

/-- Over a full period the values are the numbers below its length. -/
theorem perm_of_bijOn {f : ℕ → ℕ} {x n : ℕ} (h : Set.BijOn (fun k => f^[k] x) (Set.Icc 1 n) (Set.Iio n)) :
    (List.iterate f (f x) n).Perm (List.range n) := by
  have hvalue (k : ℕ) : f^[k] (f x) = f^[k + 1] x := (Function.iterate_succ_apply f k x).symm
  have hnodup : (List.iterate f (f x) n).Nodup := by
    rw [← List.range_map_iterate, List.nodup_map_iff_inj_on List.nodup_range]
    intro i hi j hj heq
    have hi := List.mem_range.1 hi
    have hj := List.mem_range.1 hj
    rw [hvalue, hvalue] at heq
    exact Nat.succ.inj (h.injOn ⟨by omega, by omega⟩ ⟨by omega, by omega⟩ heq)
  refine (List.perm_ext_iff_of_nodup hnodup List.nodup_range).2 fun y => ?_
  rw [List.mem_iterate, List.mem_range]
  constructor
  · rintro ⟨k, hk, rfl⟩
    rw [hvalue]
    exact h.mapsTo ⟨by omega, by omega⟩
  · intro hy
    obtain ⟨k, hk, rfl⟩ := h.surjOn (Set.mem_Iio.2 hy)
    obtain ⟨k, rfl⟩ := Nat.exists_eq_add_of_le' hk.1
    exact ⟨k, hk.2, (hvalue k).symm⟩

/-- **Over a full period** as many draws have `q` as numbers have `p` and `q`. -/
theorem countP_draws {f : ℕ → ℕ} {p q : ℕ → Bool} {x n : ℕ} {draws : List ℕ}
    (hperiod : Set.BijOn (fun k => f^[k] x) (Set.Icc 1 n) (Set.Iio n)) (h : (x :: draws).IsChain (First f p))
    (hlen : draws.length = (List.range n).countP p) :
    draws.countP q = (List.range n).countP fun y => q y && p y := by
  have hperm := perm_of_bijOn hperiod
  rw [← hperm.countP_eq] at hlen
  rw [draws_eq h hlen, List.countP_filter, hperm.countP_eq]

theorem countP_lt_range {m n : ℕ} (h : m ≤ n) : ((List.range n).countP fun y => decide (y < m)) = m := by
  induction n, h using Nat.le_induction with
  | base =>
    rw [List.countP_eq_length.2 fun y hy => decide_eq_true (List.mem_range.1 hy), List.length_range]
  | succ n hmn ih =>
    rw [List.range_succ, List.countP_append, ih, List.countP_singleton, if_neg (by simpa using hmn), Nat.add_zero]

end OstepHw.Sampling
