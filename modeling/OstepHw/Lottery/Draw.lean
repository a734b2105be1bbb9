import OstepHw.Lib.Lcg
import OstepHw.Lottery.Scheduler

/-!
# The draw of the winner

* `getwinner_succ` — one round of the `do` loop of `getwinner`;
* `card_bin` — numbers that are divided into bins of one size;
* `draw_fair` — **no ticket is favoured**;
* `draw_terminates` — `random` runs through all its values, so **the loop ends**.
-/

set_option autoImplicit false

namespace OstepHw.Lottery

open Lcg

/-- One round of the loop, when there is no division by zero. -/
theorem getwinner_succ {t : ℤ} (h0 : 0 ≤ t) (hmax : t ≤ INT_MAX) (fuel val : ℕ) :
    getwinner (fuel + 1) t val =
      if numRand - defect t ≤ random val then getwinner fuel t (random val)
      else some (.ok (random val / binSize t, random val)) := by
  have hbins : numBins t ≠ 0 := by
    rw [numBins_eq h0 hmax]
    exact Nat.succ_ne_zero _
  have hsize : binSize t ≠ 0 := Nat.pos_iff_ne_zero.mp (binSize_pos h0 hmax)
  unfold getwinner
  rw [if_neg hbins, if_neg hbins, draw]
  simp only [if_neg hsize]
  split
  · rfl
  · rfl

/-! ## Bins -/

/-- What is left of `N` numbers when the last `N % n` are rejected. -/
theorem sub_mod_eq (N n : ℕ) : N - N % n = n * (N / n) := by
  have := Nat.div_add_mod N n
  omega

theorem div_lt_of_accepted {N n x : ℕ} (hx : x < N - N % n) : x / (N / n) < n := by
  rw [sub_mod_eq] at hx
  exact Nat.div_lt_of_lt_mul (Nat.mul_comm n _ ▸ hx)

/-- Every bin has the same number of them. -/
theorem card_bin {N n w : ℕ} (hsize : 0 < N / n) (hw : w < n) :
    ((Finset.range N).filter fun x => x < N - N % n ∧ x / (N / n) = w).card = N / n := by
  have hbin : ((Finset.range N).filter fun x => x < N - N % n ∧ x / (N / n) = w) =
      Finset.Ico (w * (N / n)) ((w + 1) * (N / n)) := by
    ext x
    have hle : (w + 1) * (N / n) ≤ N - N % n := by
      rw [sub_mod_eq]
      exact Nat.mul_le_mul_right _ hw
    have hdiv : x / (N / n) = w ↔ w * (N / n) ≤ x ∧ x < (w + 1) * (N / n) := by
      rw [Nat.div_eq_iff hsize]
      constructor
      · rintro ⟨hlo, hhi⟩
        exact ⟨hlo, by rw [Nat.add_mul]; omega⟩
      · rintro ⟨hlo, hhi⟩
        exact ⟨hlo, by rw [Nat.add_mul] at hhi; omega⟩
    rw [Finset.mem_filter, Finset.mem_range, Finset.mem_Ico, hdiv]
    exact ⟨fun h => h.2.2, fun h => ⟨by omega, by omega, h⟩⟩
  rw [hbin, Nat.card_Ico, Nat.add_mul, Nat.one_mul, Nat.add_sub_cancel_left]

/-- **A fair draw**: which values the loop rejects, what it makes of the others, and that every ticket is drawn for the
same number of them. -/
theorem draw_fair (t : ℤ) (h0 : 0 ≤ t) (hmax : t ≤ INT_MAX) :
    (∀ fuel val, getwinner (fuel + 1) t val =
      if numRand - defect t ≤ random val then getwinner fuel t (random val)
      else some (.ok (random val / binSize t, random val))) ∧
    (∀ x < 2 ^ 31, ¬numRand - defect t ≤ x → ((x / binSize t : ℕ) : ℤ) ≤ t) ∧
    (binSize t = 2 ^ 31 / (t.toNat + 1)) ∧
    ∀ w : ℕ, (w : ℤ) ≤ t →
      ((Finset.range (2 ^ 31)).filter fun x => ¬numRand - defect t ≤ x ∧ x / binSize t = w).card = binSize t := by
  have hbins := numBins_eq h0 hmax
  have hsize : binSize t = 2 ^ 31 / (t.toNat + 1) := by
    rw [binSize, hbins]
    rfl
  have hdefect : numRand - defect t = 2 ^ 31 - 2 ^ 31 % (t.toNat + 1) := by
    rw [defect, hbins]
    rfl
  have hpos : 0 < 2 ^ 31 / (t.toNat + 1) := hsize ▸ binSize_pos h0 hmax
  refine ⟨getwinner_succ h0 hmax, fun x _ hx => ?_, hsize, fun w hw => ?_⟩
  · rw [hdefect, not_le] at hx
    have hlt := div_lt_of_accepted hx
    rw [← hsize] at hlt
    omega
  · simp only [hdefect, hsize, not_le]
    exact card_bin hpos (by omega)

/-- Three tickets, so that two values are rejected. -/
theorem draw_fair_three :
    (∀ fuel val, getwinner (fuel + 1) 2 val =
      if numRand - defect 2 ≤ random val then getwinner fuel 2 (random val)
      else some (.ok (random val / binSize 2, random val))) ∧
    (∀ x < 2 ^ 31, ¬numRand - defect 2 ≤ x → ((x / binSize 2 : ℕ) : ℤ) ≤ 2) ∧
    (binSize 2 = 2 ^ 31 / 3) ∧
    ∀ w : ℕ, (w : ℤ) ≤ 2 →
      ((Finset.range (2 ^ 31)).filter fun x => ¬numRand - defect 2 ≤ x ∧ x / binSize 2 = w).card = binSize 2 :=
  draw_fair 2 (by decide) (by decide)

/-! ## The loop ends -/

theorem random_eq_lcg : random = lcg (2 ^ 31) 1103515245 12345 := rfl

/-- The loop ends with the first value that is not rejected. -/
theorem draw_isSome_iff (defect fuel val : ℕ) :
    (draw defect fuel val).isSome = true ↔ ∃ n, 1 ≤ n ∧ n ≤ fuel ∧ random^[n] val < numRand - defect := by
  induction fuel generalizing val with
  | zero =>
    refine iff_of_false Bool.false_ne_true ?_
    rintro ⟨n, h1, h0, -⟩
    omega
  | succ fuel ih =>
    rw [draw]
    split
    · next hreject =>
      rw [ih]
      constructor
      · rintro ⟨n, h1, hn, hlt⟩
        exact ⟨n + 1, by omega, by omega, hlt⟩
      · rintro ⟨n, h1, hn, hlt⟩
        obtain ⟨n, rfl⟩ := Nat.exists_eq_add_of_le' h1
        rcases Nat.eq_zero_or_pos n with rfl | hpos
        · exact absurd hreject (not_le.mpr hlt)
        · exact ⟨n, hpos, by omega, hlt⟩
    · next haccept => exact iff_of_true rfl ⟨1, by omega, by omega, not_le.mp haccept⟩

/-- Which result of `random` the loop takes: the first one that it does not reject. -/
theorem draw_eq_some {defect fuel val x : ℕ} (h : draw defect fuel val = some x) :
    ∃ n, 1 ≤ n ∧ n ≤ fuel ∧ (∀ k, 1 ≤ k → k < n → numRand - defect ≤ random^[k] val) ∧
      x = random^[n] val ∧ x < numRand - defect := by
  induction fuel generalizing val with
  | zero => cases h
  | succ fuel ih =>
    rw [draw] at h
    split at h
    · next hreject =>
      obtain ⟨n, h1, hn, hbefore, hx, hlt⟩ := ih h
      refine ⟨n + 1, by omega, by omega, ?_, hx, hlt⟩
      intro k hk hkn
      obtain ⟨k, rfl⟩ := Nat.exists_eq_add_of_le' hk
      rcases Nat.eq_zero_or_pos k with rfl | hpos
      · exact hreject
      · exact hbefore k hpos (by omega)
    · next haccept =>
      obtain rfl := Option.some.inj h
      exact ⟨1, le_rfl, by omega, by omega, rfl, not_le.mp haccept⟩

theorem defect_lt {t : ℤ} (h0 : 0 ≤ t) (hmax : t ≤ INT_MAX) : defect t < 2 ^ 31 := by
  have hbins := numBins_eq h0 hmax
  have hmod : defect t < numBins t := Nat.mod_lt _ (hbins ▸ Nat.succ_pos _)
  unfold INT_MAX at hmax
  omega

/-- **The draw ends**: the first `2 ^ 31` results of `random` are all the numbers below `2 ^ 31`, whatever `val` is, and
the loop takes at most `defect + 1` of them: those before the `n`-th are rejected, and this one decides. -/
theorem draw_terminates (val : ℕ) (t : ℤ) (h0 : 0 ≤ t) (hmax : t ≤ INT_MAX) :
    Set.BijOn (fun n => random^[n] val) (Set.Icc 1 (2 ^ 31)) (Set.Iio (2 ^ 31)) ∧ defect t + 1 ≤ 2 ^ 31 ∧
      ∃ n, 1 ≤ n ∧ n ≤ defect t + 1 ∧ (∀ k, 1 ≤ k → k < n → numRand - defect t ≤ random^[k] val) ∧
        random^[n] val < numRand - defect t ∧ random^[n] val < 2 ^ 31 ∧
        getwinner (defect t + 1) t val = some (.ok (random^[n] val / binSize t, random^[n] val)) := by
  have hperiod : Set.BijOn (fun n => random^[n] val) (Set.Icc 1 (2 ^ 31)) (Set.Iio (2 ^ 31)) := by
    rw [random_eq_lcg]
    exact bijOn_iterate_lcg rfl rfl val
  have hdefect := defect_lt h0 hmax
  have hne : numBins t ≠ 0 := by
    rw [numBins_eq h0 hmax]
    exact Nat.succ_ne_zero _
  obtain ⟨m, hm1, hm, hlt⟩ : ∃ m, 1 ≤ m ∧ m ≤ defect t + 1 ∧ random^[m] val < numRand - defect t := by
    rw [random_eq_lcg]
    exact exists_iterate_lcg_lt rfl rfl val hdefect
  obtain ⟨x, hx⟩ := Option.isSome_iff_exists.mp ((draw_isSome_iff _ _ val).2 ⟨m, hm1, hm, hlt⟩)
  obtain ⟨n, h1, hn, hbefore, rfl, haccept⟩ := draw_eq_some hx
  refine ⟨hperiod, hdefect, n, h1, hn, hbefore, haccept, ?_, ?_⟩
  · exact lt_of_lt_of_le haccept (Nat.sub_le _ _)
  · rw [getwinner, if_neg hne, hx]
    simp only [Option.map_some, if_neg (Nat.pos_iff_ne_zero.mp (binSize_pos h0 hmax))]

/-- The largest total: every value has a ticket of its own. -/
theorem draw_terminates_max :
    Set.BijOn (fun n => random^[n] 1) (Set.Icc 1 (2 ^ 31)) (Set.Iio (2 ^ 31)) ∧ defect INT_MAX + 1 ≤ 2 ^ 31 ∧
      ∃ n, 1 ≤ n ∧ n ≤ defect INT_MAX + 1 ∧ (∀ k, 1 ≤ k → k < n → numRand - defect INT_MAX ≤ random^[k] 1) ∧
        random^[n] 1 < numRand - defect INT_MAX ∧ random^[n] 1 < 2 ^ 31 ∧
        getwinner (defect INT_MAX + 1) INT_MAX 1 = some (.ok (random^[n] 1 / binSize INT_MAX, random^[n] 1)) :=
  draw_terminates 1 INT_MAX (by decide) le_rfl

end OstepHw.Lottery
