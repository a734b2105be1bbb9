import Mathlib.Algebra.Field.ZMod
import Mathlib.Algebra.Polynomial.Div
import Mathlib.Tactic.LinearCombination

/-!
# Bit vectors as polynomials over GF(2)

Bit `i` of a vector is the coefficient of `X ^ i`.  A shift register with a feedback polynomial takes one bit after
the other, and what is left in it is a remainder.

* `toPoly`, `coeff_toPoly`, `toPoly_xor`, `toPoly_shiftConcat` — bit vectors and what the operations are;
* `ofBits`, `msbFirst` — a sequence of bits, the first one being the highest;
* `feed`, `generator` — the register and the polynomial that it divides by;
* `foldl_feed_eq_mod` — **the register holds the remainder**;
* `feedAt`, `widen`, `feedAt_widen` — the register inside a wider one, which keeps nothing above it.
-/

set_option autoImplicit false

namespace OstepHw.BitPoly

open Polynomial

def ofBool (b : Bool) : ZMod 2 := if b then 1 else 0

theorem ofBool_xor (a b : Bool) : ofBool (a ^^ b) = ofBool a + ofBool b := by
  cases a <;> cases b <;> rfl

variable {w : Nat}

/-- Bit `i` is the coefficient of `X ^ i`. -/
noncomputable def toPoly (x : BitVec w) : (ZMod 2)[X] := ∑ i ∈ Finset.range w, C (ofBool (x.getLsbD i)) * X ^ i

theorem coeff_toPoly (x : BitVec w) (i : Nat) : (toPoly x).coeff i = ofBool (x.getLsbD i) := by
  rw [toPoly, finsetSum_coeff]
  simp only [coeff_C_mul, coeff_X_pow, mul_ite, mul_one, mul_zero, Finset.sum_ite_eq, Finset.mem_range]
  split
  · rfl
  · next hi => rw [BitVec.getLsbD_of_ge x i (Nat.le_of_not_lt hi)]; rfl

theorem degree_toPoly_lt (x : BitVec w) : (toPoly x).degree < w := by
  rw [degree_lt_iff_coeff_zero]
  intro i hi
  rw [coeff_toPoly, BitVec.getLsbD_of_ge x i hi]
  rfl

theorem toPoly_xor (x y : BitVec w) : toPoly (x ^^^ y) = toPoly x + toPoly y := by
  ext i
  rw [coeff_add, coeff_toPoly, coeff_toPoly, coeff_toPoly, BitVec.getLsbD_xor, ofBool_xor]

theorem toPoly_twoPow {k : Nat} (hk : k < w) : toPoly (BitVec.twoPow w k) = X ^ k := by
  ext i
  rw [coeff_toPoly, coeff_X_pow, BitVec.getLsbD_twoPow, decide_eq_true hk, Bool.true_and]
  by_cases hi : k = i
  · rw [if_pos hi.symm, decide_eq_true hi]
    rfl
  · rw [if_neg (Ne.symm hi), decide_eq_false hi]
    rfl

/-- A shift multiplies by `X` and drops the highest bit. -/
theorem toPoly_shiftConcat (hw : 0 < w) (x : BitVec w) (b : Bool) :
    toPoly (x.shiftConcat b) + C (ofBool x.msb) * X ^ w = toPoly x * X + C (ofBool b) := by
  ext i
  rw [coeff_add, coeff_add, coeff_toPoly, coeff_C_mul, coeff_X_pow, BitVec.getLsbD_shiftConcat]
  cases i with
  | zero =>
    rw [coeff_mul_X_zero, coeff_C_zero]
    simp [hw, Nat.ne_of_lt hw]
  | succ i =>
    rw [coeff_mul_X, coeff_toPoly, coeff_C_succ, BitVec.msb_eq_getLsbD_last]
    rcases Nat.lt_trichotomy (i + 1) w with hi | rfl | hi
    · simp [hi, Nat.ne_of_lt hi]
    · simp [ofBool]
    · rw [BitVec.getLsbD_of_ge x i (by omega)]
      simp [ofBool, Nat.not_lt_of_lt hi, Nat.ne_of_gt hi]

/-! ## Sequences of bits -/

/-- The first bit is the highest. -/
noncomputable def ofBits : List Bool → (ZMod 2)[X]
  | [] => 0
  | b :: bits => C (ofBool b) * X ^ bits.length + ofBits bits

theorem ofBits_append_replicate (bits : List Bool) (k : Nat) :
    ofBits (bits ++ List.replicate k false) = ofBits bits * X ^ k := by
  induction bits with
  | nil =>
    induction k with
    | zero => simp [ofBits]
    | succ k ih =>
      rw [List.nil_append, ofBits, zero_mul] at ih ⊢
      rw [List.replicate_succ, ofBits, ih]
      simp [ofBool]
  | cons b bits ih =>
    rw [List.cons_append, ofBits, ih, ofBits, List.length_append, List.length_replicate, pow_add, add_mul, mul_assoc]

def bitsBelow (x : BitVec w) : Nat → List Bool
  | 0 => []
  | k + 1 => x.getLsbD k :: bitsBelow x k

/-- All bits, the highest first. -/
def msbFirst (x : BitVec w) : List Bool := bitsBelow x w

theorem length_bitsBelow (x : BitVec w) (k : Nat) : (bitsBelow x k).length = k := by
  induction k with
  | zero => rfl
  | succ k ih => rw [bitsBelow, List.length_cons, ih]

/-! ## The register -/

/-- The register takes a bit, and `poly` is added when a bit falls out. -/
def feed (poly x : BitVec w) (b : Bool) : BitVec w :=
  if x.msb then x.shiftConcat b ^^^ poly else x.shiftConcat b

noncomputable def generator (poly : BitVec w) : (ZMod 2)[X] := X ^ w + toPoly poly

theorem generator_monic (poly : BitVec w) : (generator poly).Monic :=
  monic_X_pow_add (degree_toPoly_lt poly)

theorem degree_generator (poly : BitVec w) : (generator poly).degree = w :=
  (degree_add_eq_left_of_degree_lt (by rw [degree_X_pow]; exact degree_toPoly_lt poly)).trans (degree_X_pow w)

theorem toPoly_feed (hw : 0 < w) (poly x : BitVec w) (b : Bool) :
    toPoly (feed poly x b) + generator poly * C (ofBool x.msb) = toPoly x * X + C (ofBool b) := by
  have hshift := toPoly_shiftConcat hw x b
  have htwice : toPoly poly + toPoly poly = 0 := CharTwo.add_self_eq_zero _
  unfold feed generator
  cases hmsb : x.msb with
  | true =>
    rw [hmsb] at hshift
    rw [if_pos rfl, toPoly_xor]
    simp only [ofBool, if_true, C_1, one_mul, mul_one] at hshift ⊢
    linear_combination hshift + htwice
  | false =>
    rw [hmsb] at hshift
    rw [if_neg Bool.false_ne_true]
    simp only [ofBool, Bool.false_eq_true, if_false, C_0, zero_mul, mul_zero, add_zero] at hshift ⊢
    exact hshift

theorem exists_foldl_feed (hw : 0 < w) (poly x : BitVec w) (bits : List Bool) :
    ∃ q, toPoly (bits.foldl (feed poly) x) + generator poly * q = toPoly x * X ^ bits.length + ofBits bits := by
  induction bits generalizing x with
  | nil => exact ⟨0, by simp [ofBits]⟩
  | cons b bits ih =>
    obtain ⟨q, hq⟩ := ih (feed poly x b)
    have hfeed := toPoly_feed hw poly x b
    refine ⟨q + C (ofBool x.msb) * X ^ bits.length, ?_⟩
    rw [List.foldl_cons, List.length_cons, ofBits]
    linear_combination hq + X ^ bits.length * hfeed

/-- **The register holds the remainder** of what it had and has taken in. -/
theorem foldl_feed_eq_mod (hw : 0 < w) (poly x : BitVec w) (bits : List Bool) :
    toPoly (bits.foldl (feed poly) x) = (toPoly x * X ^ bits.length + ofBits bits) %ₘ generator poly := by
  obtain ⟨q, hq⟩ := exists_foldl_feed hw poly x bits
  refine (div_modByMonic_unique q _ (generator_monic poly) ⟨hq, ?_⟩).2.symm
  rw [degree_generator]
  exact degree_toPoly_lt _

/-! ## Words that are used as registers -/

/-- A mask with one bit. -/
theorem and_twoPow_ne_zero {k : Nat} (hk : k < w) (x : BitVec w) :
    x &&& BitVec.twoPow w k ≠ 0 ↔ x.getLsbD k = true := by
  rw [BitVec.and_twoPow]
  split
  · next hbit =>
    refine iff_of_true (fun hzero => ?_) hbit
    have hself := congrArg (fun y => y.getLsbD k) hzero
    simp [hk] at hself
  · next hbit => exact iff_of_false (fun hne => hne rfl) hbit

theorem shiftLeft_one (x : BitVec w) : x <<< 1 = x.shiftConcat false := by
  ext i hi
  rw [BitVec.getElem_shiftConcat, BitVec.getElem_shiftLeft]
  cases i <;> simp

/-- The bit at the bottom is free after the shift. -/
theorem shiftLeft_one_add_one (x : BitVec w) : x <<< 1 + 1 = x.shiftConcat true := by
  have hfree : x <<< 1 &&& 1 = 0 := by
    ext i hi
    cases i <;> simp
  rw [BitVec.add_eq_or_of_and_eq_zero _ _ hfree]
  ext i hi
  rw [BitVec.getElem_shiftConcat, BitVec.getElem_or, BitVec.getElem_shiftLeft]
  cases i <;> simp

/-- A bit goes in at the bottom by an addition. -/
theorem shiftLeft_one_add (x : BitVec w) (b : Bool) : (if b then x <<< 1 + 1 else x <<< 1) = x.shiftConcat b := by
  cases b with
  | true => rw [if_pos rfl, shiftLeft_one_add_one]
  | false => rw [if_neg Bool.false_ne_true, shiftLeft_one]

/-! ## A register in a wider one -/

/-- The register whose bit `k` decides. -/
def feedAt (k : Nat) (poly x : BitVec w) (b : Bool) : BitVec w :=
  if x.getLsbD k then x.shiftConcat b ^^^ poly else x.shiftConcat b

theorem feedAt_last (poly x : BitVec w) (b : Bool) : feedAt (w - 1) poly x b = feed poly x b := by
  unfold feedAt feed
  rw [BitVec.msb_eq_getLsbD_last]

/-- The polynomial with its highest coefficient, which the narrow register has no bit for. -/
def widen (W : Nat) (poly : BitVec w) : BitVec W := poly.setWidth W ^^^ BitVec.twoPow W w

variable {W : Nat}

/-- The bit that falls out of the narrow register is the next one of the wide register. -/
theorem shiftConcat_setWidth (hw : 0 < w) (hW : w < W) (x : BitVec w) (b : Bool) :
    (x.setWidth W).shiftConcat b =
      (x.shiftConcat b).setWidth W ^^^ if x.getLsbD (w - 1) then BitVec.twoPow W w else 0 := by
  apply BitVec.eq_of_getLsbD_eq
  intro i hi
  rw [BitVec.getLsbD_xor, BitVec.getLsbD_shiftConcat, BitVec.getLsbD_setWidth, BitVec.getLsbD_setWidth,
    BitVec.getLsbD_shiftConcat]
  have hout : (if x.getLsbD (w - 1) then BitVec.twoPow W w else 0).getLsbD i =
      (x.getLsbD (w - 1) && decide (w = i)) := by
    cases x.getLsbD (w - 1) with
    | true => simp [BitVec.getLsbD_twoPow, hW]
    | false => simp
  rw [hout]
  rcases Nat.lt_trichotomy i w with hlow | rfl | hhigh
  · have hne : w ≠ i := Nat.ne_of_gt hlow
    have hpred : i - 1 < W := Nat.lt_of_le_of_lt (Nat.sub_le i 1) hi
    simp [hi, hlow, hne, hpred]
  · have hpred : i - 1 < W := Nat.lt_of_le_of_lt (Nat.sub_le i 1) hi
    simp [hi, Nat.ne_of_gt hw, hpred]
  · have hne : w ≠ i := Nat.ne_of_lt hhigh
    have hzero : i ≠ 0 := Nat.ne_of_gt (Nat.lt_trans hw hhigh)
    have hgone : x.getLsbD (i - 1) = false := BitVec.getLsbD_of_ge x _ (by omega)
    simp [hi, hne, hzero, hgone, Nat.not_lt_of_lt hhigh]

/-- The highest coefficient cancels the bit that falls out. -/
theorem feedAt_widen (hw : 0 < w) (hW : w < W) (poly x : BitVec w) (b : Bool) :
    feedAt (w - 1) (widen W poly) (x.setWidth W) b = (feed poly x b).setWidth W := by
  have htop : (x.setWidth W).getLsbD (w - 1) = x.getLsbD (w - 1) := by
    rw [BitVec.getLsbD_setWidth, decide_eq_true (by omega), Bool.true_and]
  rw [← feedAt_last]
  unfold feedAt widen
  rw [htop, shiftConcat_setWidth hw hW]
  cases hbit : x.getLsbD (w - 1) with
  | true =>
    rw [if_pos rfl, if_pos rfl, if_pos rfl, BitVec.setWidth_xor]
    ext i hi
    simp only [BitVec.getElem_xor]
    cases (BitVec.twoPow W w)[i] <;> simp
  | false =>
    rw [if_neg Bool.false_ne_true, if_neg Bool.false_ne_true, if_neg Bool.false_ne_true]
    exact BitVec.xor_zero

end OstepHw.BitPoly
