import OstepHw.Lib.BitPoly
import Mathlib.Data.List.GetD
import Mathlib.RingTheory.AdjoinRoot
import Mathlib.GroupTheory.OrderOfElement

/-!
# Errors that a shift register detects

Two sequences of bits of one length leave the same in the register if the polynomial of their differing bits is a
multiple of the generator.

* `foldl_feed_eq_iff` — **which errors are missed**;
* `not_dvd_of_odd`, `not_dvd_of_burst` — an odd number of errors, and errors that lie close together;
* `dvd_pair_iff` — two errors, by the order of `X` modulo the generator;
* `square`, `powX`, `value_powX` — powers of `X` in the register itself, so that the order can be computed;
* `feedTop`, `value_foldl_feedTop` — a register that takes its bits at the top.
-/

set_option autoImplicit false

namespace OstepHw.BitPoly

open Polynomial

/-! ## Differing bits -/

/-- The positions at which two sequences of one length differ. -/
def differing (a b : List Bool) : Finset ℕ := (Finset.range a.length).filter fun p => a.getD p false ≠ b.getD p false

/-- The positions as a polynomial, where the first of `n` bits is the highest. -/
noncomputable def errorPoly (n : ℕ) (S : Finset ℕ) : (ZMod 2)[X] := ∑ p ∈ S, X ^ (n - 1 - p)

variable {w : Nat} {poly : BitVec w} {a b : List Bool} {n : ℕ} {S : Finset ℕ}

theorem lt_of_mem_differing {p : ℕ} (hp : p ∈ differing a b) : p < a.length :=
  Finset.mem_range.mp (Finset.mem_filter.mp hp).1

theorem differing_nonempty (hlen : a.length = b.length) (hne : a ≠ b) : (differing a b).Nonempty := by
  by_contra hempty
  refine hne (List.ext_getElem hlen fun p hp hp' => ?_)
  have hnot : p ∉ differing a b := by
    rw [Finset.not_nonempty_iff_eq_empty.mp hempty]
    exact Finset.notMem_empty p
  rw [differing, Finset.mem_filter, not_and, not_not, List.getD_eq_getElem _ _ hp, List.getD_eq_getElem _ _ hp'] at hnot
  exact hnot (Finset.mem_range.mpr hp)

theorem ofBits_eq_sum (bits : List Bool) :
    ofBits bits = ∑ p ∈ Finset.range bits.length, C (ofBool (bits.getD p false)) * X ^ (bits.length - 1 - p) := by
  induction bits with
  | nil => rfl
  | cons b bits ih =>
    rw [ofBits, ih, List.length_cons, Finset.sum_range_succ', add_comm]
    refine congrArg₂ (· + ·) (Finset.sum_congr rfl fun p hp => ?_) ?_
    · have hp := Finset.mem_range.mp hp
      rw [List.getD_cons_succ]
      congr 2
      omega
    · rfl

/-- The first and the last bit of `n + 2` zeros are flipped. -/
theorem differing_ends (n : ℕ) :
    differing (List.replicate (n + 2) false) (true :: (List.replicate n false ++ [true])) = {0, n + 1} := by
  ext p
  rw [differing, Finset.mem_filter, Finset.mem_range, List.length_replicate, Finset.mem_insert, Finset.mem_singleton]
  rcases p with _ | p
  · simp
  · rw [List.getD_cons_succ, Nat.add_right_cancel_iff]
    rcases Nat.lt_trichotomy p n with hp | rfl | hp
    · rw [List.getD_append _ _ _ _ (by simpa using hp), List.getD_eq_getElem _ _ (by simpa using hp.le)]
      simp [Nat.ne_of_lt hp]
    · rw [List.getD_append_right _ _ _ _ (by simp)]
      simp
    · simp
      omega

theorem ofBits_add (hlen : a.length = b.length) : ofBits a + ofBits b = errorPoly a.length (differing a b) := by
  rw [ofBits_eq_sum, ofBits_eq_sum, ← hlen, ← Finset.sum_add_distrib, errorPoly, differing, Finset.sum_filter]
  refine Finset.sum_congr rfl fun p _ => ?_
  rw [← add_mul, ← C_add]
  cases a.getD p false <;> cases b.getD p false <;> simp [ofBool, CharTwo.add_self_eq_zero]

/-! ## Which errors are missed -/

theorem toPoly_injective : Function.Injective (toPoly : BitVec w → (ZMod 2)[X]) := by
  intro x y h
  apply BitVec.eq_of_getLsbD_eq
  intro i _
  have hcoeff := congrArg (fun p => p.coeff i) h
  simp only [coeff_toPoly, ofBool] at hcoeff
  cases hx : x.getLsbD i <;> cases hy : y.getLsbD i <;> simp_all

/-- The constant term makes the generator coprime to `X`. -/
theorem isCoprime_generator_X_pow (hw : 0 < w) (hlow : poly.getLsbD 0 = true) (k : ℕ) :
    IsCoprime (generator poly) (X ^ k) := by
  have hzero : (generator poly).coeff 0 = 1 := by
    rw [generator, coeff_add, coeff_X_pow, coeff_toPoly, hlow, if_neg (Nat.ne_of_lt hw)]
    rfl
  obtain ⟨q, hq⟩ : X ∣ generator poly - 1 := by
    rw [X_dvd_iff, coeff_sub, hzero, coeff_one_zero, sub_self]
  refine IsCoprime.pow_right ⟨1, -q, ?_⟩
  linear_combination hq

theorem dvd_mul_X_pow_iff (hw : 0 < w) (hlow : poly.getLsbD 0 = true) {p : (ZMod 2)[X]} (k : ℕ) :
    generator poly ∣ p * X ^ k ↔ generator poly ∣ p :=
  ⟨(isCoprime_generator_X_pow hw hlow k).dvd_of_dvd_mul_right, fun h => h.mul_right _⟩

theorem foldl_feed_eq_iff (hw : 0 < w) (hlow : poly.getLsbD 0 = true) (x : BitVec w) (hlen : a.length = b.length)
    (k : ℕ) :
    (a ++ List.replicate k false).foldl (feed poly) x = (b ++ List.replicate k false).foldl (feed poly) x ↔
      generator poly ∣ errorPoly a.length (differing a b) := by
  have hlen' : (b ++ List.replicate k false).length = (a ++ List.replicate k false).length := by
    rw [List.length_append, List.length_append, hlen]
  rw [← toPoly_injective.eq_iff, foldl_feed_eq_mod hw, foldl_feed_eq_mod hw, hlen', ← sub_eq_zero, ← sub_modByMonic,
    modByMonic_eq_zero_iff_dvd (generator_monic poly), ofBits_append_replicate, ofBits_append_replicate,
    add_sub_add_left_eq_sub, ← sub_mul, CharTwo.sub_eq_add, ofBits_add hlen]
  exact dvd_mul_X_pow_iff hw hlow k

/-! ## Many errors -/

/-- With a factor `X + 1` the generator detects every odd number of errors. -/
theorem not_dvd_of_odd (hone : (generator poly).eval 1 = 0) (hodd : Odd S.card) :
    ¬generator poly ∣ errorPoly n S := by
  rintro ⟨q, hq⟩
  have heval : (errorPoly n S).eval 1 = 0 := by
    rw [hq, eval_mul, hone, zero_mul]
  rw [errorPoly, eval_finsetSum] at heval
  simp only [eval_pow, eval_X, one_pow, Finset.sum_const, nsmul_eq_mul, mul_one] at heval
  exact absurd (ZMod.natCast_eq_zero_iff_even.mp heval) (Nat.not_even_iff_odd.mpr hodd)

/-- Errors within as many bits as the register has. -/
theorem not_dvd_of_burst (hw : 0 < w) (hlow : poly.getLsbD 0 = true) (hne : S.Nonempty) (hn : ∀ p ∈ S, p < n) {s : ℕ}
    (hburst : ∀ p ∈ S, s ≤ p ∧ p < s + w) : ¬generator poly ∣ errorPoly n S := by
  intro hdvd
  have hlast : S.max' hne ∈ S := S.max'_mem hne
  have hle : ∀ p ∈ S, p ≤ S.max' hne := fun p hp => S.le_max' p hp
  generalize S.max' hne = t at hlast hle
  -- without the zeros behind the last error
  have hsplit : errorPoly n S = (∑ p ∈ S, X ^ (t - p)) * X ^ (n - 1 - t) := by
    rw [errorPoly, Finset.sum_mul]
    refine Finset.sum_congr rfl fun p hp => ?_
    have := hle p hp
    have := hn t hlast
    rw [← pow_add]
    congr 1
    omega
  rw [hsplit, dvd_mul_X_pow_iff hw hlow] at hdvd
  have hdegree : (∑ p ∈ S, X ^ (t - p) : (ZMod 2)[X]).degree < (generator poly).degree := by
    rw [degree_generator, degree_lt_iff_coeff_zero]
    intro i hi
    rw [finsetSum_coeff]
    refine Finset.sum_eq_zero fun p hp => ?_
    have := hburst p hp
    have := hburst t hlast
    rw [coeff_X_pow, if_neg (by omega)]
  have hzero := congrArg (fun q => q.coeff 0) (eq_zero_of_dvd_of_degree_lt hdvd hdegree)
  have hone : (∑ p ∈ S, X ^ (t - p) : (ZMod 2)[X]).coeff 0 = 1 := by
    rw [finsetSum_coeff, Finset.sum_eq_single_of_mem t hlast fun p hp hpt => ?_]
    · rw [Nat.sub_self, pow_zero, coeff_one_zero]
    · have := hle p hp
      rw [coeff_X_pow, if_neg (by omega)]
  rw [hone, coeff_zero] at hzero
  exact one_ne_zero hzero

/-! ## Two errors -/

theorem dvd_X_pow_add_one_iff (e : ℕ) :
    generator poly ∣ X ^ e + 1 ↔ orderOf (AdjoinRoot.root (generator poly)) ∣ e := by
  rw [orderOf_dvd_iff_pow_eq_one, AdjoinRoot.root, ← map_pow, ← map_one (AdjoinRoot.mk (generator poly)),
    AdjoinRoot.mk_eq_mk, CharTwo.sub_eq_add]

/-- **Two errors** are missed if their distance is a multiple of the order of `X`. -/
theorem dvd_pair_iff (hw : 0 < w) (hlow : poly.getLsbD 0 = true) {p q : ℕ} (hpq : p < q) (hq : q < n) :
    generator poly ∣ errorPoly n {p, q} ↔ orderOf (AdjoinRoot.root (generator poly)) ∣ q - p := by
  have hpow : errorPoly n {p, q} = (X ^ (q - p) + 1) * X ^ (n - 1 - q) := by
    rw [errorPoly, Finset.sum_pair (Nat.ne_of_lt hpq), add_mul, ← pow_add, one_mul]
    congr 2
    omega
  rw [hpow, dvd_mul_X_pow_iff hw hlow, dvd_X_pow_add_one_iff]

/-! ## Powers of `X` in the register -/

/-- The register as an element of the ring of remainders. -/
noncomputable def value (poly x : BitVec w) : AdjoinRoot (generator poly) := AdjoinRoot.mk _ (toPoly x)

theorem value_injective : Function.Injective (value poly) := by
  intro x y h
  apply toPoly_injective
  have hdvd := AdjoinRoot.mk_eq_mk.mp h
  refine sub_eq_zero.mp (eq_zero_of_dvd_of_degree_lt hdvd ?_)
  rw [degree_generator]
  exact (degree_sub_le _ _).trans_lt (max_lt (degree_toPoly_lt x) (degree_toPoly_lt y))

theorem value_foldl_feed (hw : 0 < w) (x : BitVec w) (bits : List Bool) :
    value poly (bits.foldl (feed poly) x) =
      value poly x * AdjoinRoot.root (generator poly) ^ bits.length + AdjoinRoot.mk _ (ofBits bits) := by
  obtain ⟨q, hq⟩ := exists_foldl_feed hw poly x bits
  have hmk := congrArg (AdjoinRoot.mk (generator poly)) hq
  rw [map_add, map_mul, AdjoinRoot.mk_self, zero_mul, add_zero, map_add, map_mul, map_pow] at hmk
  exact hmk

theorem ofBits_bitsBelow (x : BitVec w) (k : Nat) :
    ofBits (bitsBelow x k) = ∑ i ∈ Finset.range k, C (ofBool (x.getLsbD i)) * X ^ i := by
  induction k with
  | zero => rfl
  | succ k ih => rw [bitsBelow, ofBits, ih, length_bitsBelow, Finset.sum_range_succ, add_comm]

theorem ofBits_msbFirst (x : BitVec w) : ofBits (msbFirst x) = toPoly x := ofBits_bitsBelow x w

/-- Zeros between the bits square the polynomial. -/
theorem ofBits_spread (bits : List Bool) : ofBits (bits.flatMap fun b => [false, b]) = ofBits bits ^ 2 := by
  induction bits with
  | nil => simp [ofBits]
  | cons b bits ih =>
    have hlen : (bits.flatMap fun b => [false, b]).length = bits.length * 2 := by
      simp [List.length_flatMap]
    have hsq : C (ofBool b) ^ 2 = (C (ofBool b) : (ZMod 2)[X]) := by
      cases b <;> simp [ofBool]
    have hfalse : C (ofBool false) = (0 : (ZMod 2)[X]) := C_0
    rw [List.flatMap_cons, List.cons_append, List.cons_append, List.nil_append, ofBits, ofBits, ofBits, ih, hlen,
      CharTwo.add_sq, mul_pow, hsq, ← pow_mul, hfalse, zero_mul, zero_add]

/-- The square of what is in the register. -/
def square (poly x : BitVec w) : BitVec w := ((msbFirst x).flatMap fun b => [false, b]).foldl (feed poly) 0

theorem toPoly_zero : toPoly (0 : BitVec w) = 0 := by
  ext i
  rw [coeff_toPoly, coeff_zero]
  simp [ofBool]

theorem value_square (hw : 0 < w) (x : BitVec w) : value poly (square poly x) = value poly x ^ 2 := by
  have hzero : value poly 0 = 0 := by
    rw [value, toPoly_zero, map_zero]
  rw [square, value_foldl_feed hw, hzero, zero_mul, zero_add, ofBits_spread, ofBits_msbFirst, map_pow]
  rfl

/-- A power of `X`, the exponent written in binary. -/
def powX (poly : BitVec w) (bits : List Bool) : BitVec w :=
  bits.foldl (fun x b => if b then feed poly (square poly x) false else square poly x) 1

/-- The number that the bits stand for. -/
def ofBinary (bits : List Bool) : ℕ := bits.foldl (fun n b => 2 * n + b.toNat) 0

theorem value_one (hw : 0 < w) : value poly 1 = 1 := by
  have hpow : toPoly (1 : BitVec w) = 1 := by
    have h := toPoly_twoPow hw
    rwa [BitVec.twoPow_zero, pow_zero] at h
  rw [value, hpow, map_one]

theorem value_powX (hw : 0 < w) (bits : List Bool) :
    value poly (powX poly bits) = AdjoinRoot.root (generator poly) ^ ofBinary bits := by
  have hone : value poly 1 = AdjoinRoot.root (generator poly) ^ 0 := by
    rw [value_one hw, pow_zero]
  have hfeed : ∀ x : BitVec w, value poly (feed poly x false) = value poly x * AdjoinRoot.root (generator poly) := by
    intro x
    have h : value poly (feed poly x false) = _ := value_foldl_feed hw x [false]
    have hfalse : ofBits [false] = 0 := by simp [ofBits, ofBool]
    rw [hfalse, map_zero, add_zero, List.length_singleton, pow_one] at h
    exact h
  rw [powX, ofBinary]
  generalize (1 : BitVec w) = x at hone ⊢
  generalize 0 = m at hone ⊢
  induction bits generalizing x m with
  | nil => exact hone
  | cons b bits ih =>
    refine ih _ _ ?_
    cases b with
    | false =>
      change value poly (square poly x) = AdjoinRoot.root (generator poly) ^ (2 * m)
      rw [value_square hw, hone, ← pow_mul, Nat.mul_comm]
    | true =>
      change value poly (feed poly (square poly x) false) = AdjoinRoot.root (generator poly) ^ (2 * m + 1)
      rw [hfeed, value_square hw, hone, ← pow_mul, ← pow_succ, Nat.mul_comm]

/-- Whether a power of `X` is 1 can be computed. -/
theorem root_pow_eq_one_iff (poly : BitVec w) (hw : 0 < w) (bits : List Bool) :
    AdjoinRoot.root (generator poly) ^ ofBinary bits = 1 ↔ powX poly bits = 1 := by
  rw [← value_powX hw, ← value_one hw, value_injective.eq_iff]

/-! ## A register that takes its bits at the top -/

/-- The bit is compared with the highest one, and `poly` is added when they differ. -/
def feedTop (poly x : BitVec w) (b : Bool) : BitVec w :=
  if (x.msb ^^ b) then x.shiftConcat false ^^^ poly else x.shiftConcat false

theorem value_xor (poly x y : BitVec w) : value poly (x ^^^ y) = value poly x + value poly y := by
  rw [value, toPoly_xor, map_add]
  rfl

/-- What falls out of the register. -/
theorem value_self (poly : BitVec w) : value poly poly = AdjoinRoot.root (generator poly) ^ w := by
  rw [value, AdjoinRoot.root, ← map_pow, AdjoinRoot.mk_eq_mk, CharTwo.sub_eq_add, add_comm]
  rfl

theorem value_feed (hw : 0 < w) (x : BitVec w) (b : Bool) :
    value poly (feed poly x b) = value poly x * AdjoinRoot.root (generator poly) + AdjoinRoot.mk _ (ofBits [b]) := by
  have h : value poly ([b].foldl (feed poly) x) = _ := value_foldl_feed hw x [b]
  rwa [List.length_singleton, pow_one] at h

theorem feedTop_eq (poly x : BitVec w) (b : Bool) :
    feedTop poly x b = if b then feed poly x false ^^^ poly else feed poly x false := by
  have hcancel (y : BitVec w) : y ^^^ poly ^^^ poly = y := by
    rw [BitVec.xor_assoc, BitVec.xor_self, BitVec.xor_zero]
  unfold feedTop feed
  cases x.msb <;> cases b
  · rfl
  · rfl
  · rfl
  · exact (hcancel _).symm

theorem value_foldl_feedTop (hw : 0 < w) (x : BitVec w) (bits : List Bool) :
    value poly (bits.foldl (feedTop poly) x) =
      value poly x * AdjoinRoot.root (generator poly) ^ bits.length +
        AdjoinRoot.mk _ (ofBits bits) * AdjoinRoot.root (generator poly) ^ w := by
  have hfalse : ofBits [false] = 0 := by simp [ofBits, ofBool]
  have hstep (y : BitVec w) (b : Bool) : value poly (feedTop poly y b) =
      value poly y * AdjoinRoot.root (generator poly) +
        AdjoinRoot.mk _ (C (ofBool b)) * AdjoinRoot.root (generator poly) ^ w := by
    have hfeed : value poly (feed poly y false) = _ := value_feed hw y false
    rw [hfalse, map_zero, add_zero] at hfeed
    rw [feedTop_eq]
    cases b with
    | false => simpa [ofBool] using hfeed
    | true => simpa [ofBool, value_xor, value_self] using hfeed
  induction bits generalizing x with
  | nil => simp [ofBits]
  | cons b bits ih =>
    rw [List.foldl_cons, ih, hstep, List.length_cons, ofBits, map_add, map_mul, map_pow]
    show _ = _ + (_ * AdjoinRoot.root (generator poly) ^ bits.length + _) * _
    ring

end OstepHw.BitPoly
