import Mathlib.Algebra.Group.Nat.Even
import Mathlib.Combinatorics.Pigeonhole
import Mathlib.Data.Nat.ModEq
import Mathlib.Data.Nat.Prime.Basic
import Mathlib.Order.Interval.Finset.Nat
import Mathlib.Tactic.LinearCombination
import Mathlib.Tactic.Ring

/-!
# Linear congruential generators modulo a power of two

* `geom`, `two_pow_dvd_geom_iff` — the geometric sum, which has as many factors 2 as its length;
* `iterate_lcg_modEq` — the iterates in closed form;
* `bijOn_iterate_lcg` — **full period**: the first `2 ^ k` results are all numbers below `2 ^ k`;
* `exists_iterate_lcg_lt` — so a draw that rejects `d` of them ends after `d + 1` results.
-/

set_option autoImplicit false

namespace OstepHw.Lcg

def lcg (m a c x : ℕ) : ℕ := (a * x + c) % m

/-- `1 + a + … + a ^ (n - 1)`. -/
def geom (a : ℕ) : ℕ → ℕ
  | 0 => 0
  | n + 1 => a * geom a n + 1

variable {a c k : ℕ}

/-! ## The geometric sum -/

theorem geom_add (a m n : ℕ) : geom a (m + n) = geom a m * a ^ n + geom a n := by
  induction n with
  | zero => rw [Nat.add_zero, pow_zero, Nat.mul_one, geom, Nat.add_zero]
  | succ n ih =>
    rw [← Nat.add_assoc, geom, geom, ih]
    ring

theorem pow_eq_geom (ha : 1 ≤ a) (n : ℕ) : a ^ n = (a - 1) * geom a n + 1 := by
  obtain ⟨b, rfl⟩ := Nat.exists_eq_add_of_le ha
  rw [Nat.add_sub_cancel_left]
  induction n with
  | zero => rfl
  | succ n ih =>
    rw [pow_succ, ih, geom]
    ring

theorem geom_mod_two (ha : a % 2 = 1) (n : ℕ) : geom a n % 2 = n % 2 := by
  induction n with
  | zero => rfl
  | succ n ih => rw [geom, Nat.add_mod, Nat.mul_mod, ha, ih]; omega

/-- The sum has as many factors 2 as its length has. -/
theorem two_pow_dvd_geom_iff (ha : a % 4 = 1) (k n : ℕ) : 2 ^ k ∣ geom a n ↔ 2 ^ k ∣ n := by
  induction k generalizing n with
  | zero => simp
  | succ k ih =>
    rcases Nat.even_or_odd' n with ⟨m, rfl | rfl⟩
    · -- twice as long: a factor `a ^ m + 1`, which is 2 modulo 4
      have hmod : (a ^ m + 1) % 4 = 2 := by
        rw [Nat.add_mod, Nat.pow_mod, ha, one_pow]
        rfl
      obtain ⟨b, hb⟩ : ∃ b, a ^ m + 1 = 2 * (2 * b + 1) := ⟨(a ^ m + 1) / 4, by omega⟩
      have hgeom : geom a (2 * m) = 2 * (geom a m * (2 * b + 1)) := by
        rw [Nat.two_mul m, geom_add, ← Nat.mul_succ, Nat.succ_eq_add_one, hb]
        ring
      have hcop : Nat.Coprime (2 ^ k) (2 * b + 1) :=
        Nat.Coprime.pow_left k (Nat.coprime_two_left.mpr ⟨b, rfl⟩)
      rw [hgeom, pow_succ', Nat.mul_dvd_mul_iff_left Nat.two_pos, hcop.dvd_mul_right, ih,
        Nat.mul_dvd_mul_iff_left Nat.two_pos]
    · have hodd : geom a (2 * m + 1) % 2 = 1 := (geom_mod_two (by omega) _).trans (by omega)
      have htwo : ∀ {x : ℕ}, 2 ^ (k + 1) ∣ x → x % 2 = 0 := fun h =>
        Nat.mod_eq_zero_of_dvd ((dvd_pow_self 2 (Nat.succ_ne_zero k)).trans h)
      refine iff_of_false (fun h => ?_) fun h => ?_
      · have := htwo h
        omega
      · have := htwo h
        omega

/-! ## The iterates -/

theorem iterate_lcg_modEq (m a c x n : ℕ) : (lcg m a c)^[n] x ≡ a ^ n * x + c * geom a n [MOD m] := by
  induction n with
  | zero => rw [pow_zero, geom, Nat.one_mul, Nat.mul_zero, Nat.add_zero]; rfl
  | succ n ih =>
    rw [Function.iterate_succ_apply']
    calc lcg m a c ((lcg m a c)^[n] x) ≡ a * (lcg m a c)^[n] x + c [MOD m] := Nat.mod_modEq _ _
      _ ≡ a * (a ^ n * x + c * geom a n) + c [MOD m] := (ih.mul_left a).add_right c
      _ = a ^ (n + 1) * x + c * geom a (n + 1) := by rw [geom]; ring

theorem iterate_lcg_lt {m : ℕ} (hm : 0 < m) (a c x : ℕ) {n : ℕ} (hn : 0 < n) : (lcg m a c)^[n] x < m := by
  obtain ⟨n, rfl⟩ := Nat.exists_eq_succ_of_ne_zero (Nat.ne_of_gt hn)
  rw [Function.iterate_succ_apply']
  exact Nat.mod_lt _ hm

/-- The generator comes back after multiples of `2 ^ k` steps only. -/
theorem two_pow_dvd_of_iterate_eq (ha : a % 4 = 1) (hc : c % 2 = 1) {x n : ℕ}
    (h : (lcg (2 ^ k) a c)^[n] x ≡ x [MOD 2 ^ k]) : 2 ^ k ∣ n := by
  have hclosed : x + geom a n * ((a - 1) * x + c) ≡ x [MOD 2 ^ k] := by
    refine Nat.ModEq.trans (Nat.ModEq.symm ?_) h
    have hpow := pow_eq_geom (a := a) (by omega) n
    have hsum : a ^ n * x + c * geom a n = x + geom a n * ((a - 1) * x + c) := by
      rw [hpow]
      ring
    rw [← hsum]
    exact iterate_lcg_modEq _ a c x n
  have hdvd : 2 ^ k ∣ geom a n * ((a - 1) * x + c) := by
    have hzero : x + geom a n * ((a - 1) * x + c) ≡ x + 0 [MOD 2 ^ k] := hclosed
    exact (Nat.modEq_zero_iff_dvd).mp (Nat.ModEq.add_left_cancel' x hzero)
  have hodd : Nat.Coprime (2 ^ k) ((a - 1) * x + c) := by
    refine Nat.Coprime.pow_left k (Nat.coprime_two_left.mpr ?_)
    have heven : Even ((a - 1) * x) := Even.mul_right (Nat.even_iff.mpr (by omega)) x
    exact heven.add_odd (Nat.odd_iff.mpr hc)
  exact (two_pow_dvd_geom_iff ha k n).1 (hodd.dvd_of_dvd_mul_right hdvd)

theorem injOn_iterate_lcg (ha : a % 4 = 1) (hc : c % 2 = 1) (x : ℕ) :
    Set.InjOn (fun n => (lcg (2 ^ k) a c)^[n] x) (Set.Icc 1 (2 ^ k)) := by
  -- two equal results, the later one counted from the earlier one
  have hle : ∀ {m n : ℕ}, m ≤ n → 1 ≤ m → n ≤ 2 ^ k → (lcg (2 ^ k) a c)^[m] x = (lcg (2 ^ k) a c)^[n] x → m = n := by
    intro m n hmn hm hn heq
    rw [← Nat.sub_add_cancel hmn, Function.iterate_add_apply] at heq
    have hback : (lcg (2 ^ k) a c)^[n - m] ((lcg (2 ^ k) a c)^[m] x) ≡ (lcg (2 ^ k) a c)^[m] x [MOD 2 ^ k] := by
      rw [← heq]
    have hzero := Nat.eq_zero_of_dvd_of_lt (two_pow_dvd_of_iterate_eq ha hc hback) (by omega)
    omega
  rintro m ⟨hm, hm'⟩ n ⟨hn, hn'⟩ heq
  rcases Nat.le_total m n with hmn | hmn
  · exact hle hmn hm hn' heq
  · exact (hle hmn hn hm' heq.symm).symm

/-- **Full period**, from every start. -/
theorem bijOn_iterate_lcg (ha : a % 4 = 1) (hc : c % 2 = 1) (x : ℕ) :
    Set.BijOn (fun n => (lcg (2 ^ k) a c)^[n] x) (Set.Icc 1 (2 ^ k)) (Set.Iio (2 ^ k)) := by
  have hmaps : Set.MapsTo (fun n => (lcg (2 ^ k) a c)^[n] x) (Set.Icc 1 (2 ^ k)) (Set.Iio (2 ^ k)) :=
    fun n hn => iterate_lcg_lt (Nat.two_pow_pos k) a c x hn.1
  have hinj := injOn_iterate_lcg (k := k) ha hc x
  refine ⟨hmaps, hinj, ?_⟩
  have hsurj := Finset.surjOn_of_injOn_of_card_le (s := Finset.Icc 1 (2 ^ k)) (t := Finset.range (2 ^ k))
    (fun n => (lcg (2 ^ k) a c)^[n] x) (by simpa [Set.MapsTo] using hmaps) (by simpa using hinj) (by simp)
  simpa using hsurj

/-- Among `d + 1` successive results one is not among the last `d` numbers. -/
theorem exists_iterate_lcg_lt (ha : a % 4 = 1) (hc : c % 2 = 1) (x : ℕ) {d : ℕ} (hd : d < 2 ^ k) :
    ∃ n, 1 ≤ n ∧ n ≤ d + 1 ∧ (lcg (2 ^ k) a c)^[n] x < 2 ^ k - d := by
  by_contra hall
  have hmaps : Set.MapsTo (fun n => (lcg (2 ^ k) a c)^[n] x) (Finset.Icc 1 (d + 1))
      (Finset.Ico (2 ^ k - d) (2 ^ k)) := by
    intro n hn
    obtain ⟨h1, h2⟩ := Finset.mem_Icc.mp hn
    refine Finset.mem_coe.mpr (Finset.mem_Ico.mpr ⟨?_, iterate_lcg_lt (Nat.two_pow_pos k) a c x h1⟩)
    exact not_lt.mp fun hlt => hall ⟨n, h1, h2, hlt⟩
  obtain ⟨m, hm, n, hn, hne, heq⟩ := Finset.exists_ne_map_eq_of_card_lt_of_maps_to
    (by rw [Nat.card_Ico, Nat.card_Icc]; omega) hmaps
  have hm := Finset.mem_Icc.mp hm
  have hn := Finset.mem_Icc.mp hn
  exact hne (injOn_iterate_lcg ha hc x ⟨hm.1, by omega⟩ ⟨hn.1, by omega⟩ heq)

end OstepHw.Lcg
