import OstepHw.Checksum.CrcErrors

/-!
# The two CRCs of `crc_orig.c`

Model of `go`, `update_good_crc`, `augment_message_for_good_crc` and `update_bad_crc` on a text of fewer than 1000
characters.  A `char` is signed, so that the high byte of `ch` is a copy of its sign.

* `go_good` — the good CRC is the one that `crc.c` prints for the file with the characters of the text;
* `value_bad` — the bad CRC without the 16 zeros, as a remainder;
* `good_and_bad` — **no text has the same good and bad CRC, but both tell the same texts of one length apart**.
-/

set_option autoImplicit false

namespace OstepHw.CrcOrig

open BitPoly Polynomial Crc

/-- `ch = text[i]` -/
def toShort (c : BitVec 8) : BitVec 16 := c.signExtend 16

/-- The loop over the bits of `ch`, and the one of the augmentation, are those of `crc.c`. -/
def updateGoodCrc (ch goodCrc : BitVec 16) : BitVec 16 := bitLoop ch 8 0x80 goodCrc

def augmentMessageForGoodCrc (goodCrc : BitVec 16) : BitVec 16 := augmentLoop 16 goodCrc

/-- The body of the loop of `update_bad_crc`. -/
def badBit (ch badCrc : BitVec 16) : BitVec 16 :=
  let xorFlag := (badCrc ^^^ ch) &&& 0x8000 ≠ 0
  let badCrc := badCrc <<< 1
  if xorFlag then badCrc ^^^ POLY else badCrc

/-- The rest of the loop: `n` rounds are left. -/
def badLoop : (n : Nat) → (ch badCrc : BitVec 16) → BitVec 16
  | 0, _, badCrc => badCrc
  | n + 1, ch, badCrc => badLoop n (ch <<< 1) (badBit ch badCrc)

def updateBadCrc (ch badCrc : BitVec 16) : BitVec 16 := badLoop 8 (ch <<< 8) badCrc

/-- The variables that `go` prints. -/
structure Printed where
  goodCrc : BitVec 16
  badCrc : BitVec 16
  textLength : Nat

/-- The loop of `go`, which ends at the first zero. -/
def goLoop : List (BitVec 8) → Printed → Printed
  | [], r => r
  | c :: text, r =>
    if toShort c = 0 then r
    else goLoop text
      ⟨updateGoodCrc (toShort c) r.goodCrc, updateBadCrc (toShort c) r.badCrc, r.textLength + 1⟩

def go (text : List (BitVec 8)) : Printed :=
  let r := goLoop text ⟨0xffff, 0xffff, 0⟩
  { r with goodCrc := augmentMessageForGoodCrc r.goodCrc }

/-- A text of `sprintf` or `repeat_character` in `text[1000]`: no zero before its end. -/
abbrev IsText (text : List (BitVec 8)) : Prop := (∀ c ∈ text, c ≠ 0) ∧ text.length < 1000

/-! ## The loops -/

theorem toShort_eq_append (c : BitVec 8) : ∃ high : BitVec 8, toShort c = high ++ c := by
  refine ⟨(toShort c).extractLsb' 8 8, ?_⟩
  apply BitVec.eq_of_getLsbD_eq
  intro i hi
  rw [BitVec.getLsbD_append]
  split
  · next hlow => rw [toShort, BitVec.getLsbD_signExtend, if_pos hlow, decide_eq_true hi, Bool.true_and]
  · next hlow =>
    rw [BitVec.getLsbD_extractLsb', decide_eq_true (by omega), Bool.true_and]
    congr 1
    omega

theorem toShort_ne_zero {c : BitVec 8} (hc : c ≠ 0) : toShort c ≠ 0 := by
  obtain ⟨high, hhigh⟩ := toShort_eq_append c
  intro h
  apply hc
  apply BitVec.eq_of_getLsbD_eq
  intro i hi
  have hbit := congrArg (fun x => x.getLsbD i) (hhigh.symm.trans h)
  rw [BitVec.getLsbD_append, if_pos hi] at hbit
  rw [hbit]
  rfl

theorem updateGoodCrc_eq (c : BitVec 8) (crc : BitVec 16) :
    updateGoodCrc (toShort c) crc = (msbFirst c).foldl (feed POLY) crc := by
  obtain ⟨high, hhigh⟩ := toShort_eq_append c
  rw [hhigh]
  exact bitLoop_eq (by omega) high c crc

theorem badBit_eq (ch crc : BitVec 16) : badBit ch crc = feedTop POLY crc ch.msb := by
  unfold badBit feedTop
  simp only [shiftLeft_one, and_0x8000_ne_zero, BitVec.msb_xor]

/-- The bits of the byte pass the top one after the other. -/
theorem badLoop_eq (c : BitVec 8) : ∀ (n : Nat) (ch crc : BitVec 16), n ≤ 8 →
    (∀ k < n, ch.getLsbD (15 - k) = c.getLsbD (n - 1 - k)) →
      badLoop n ch crc = (bitsBelow c n).foldl (feedTop POLY) crc
  | 0, _, _, _, _ => rfl
  | n + 1, ch, crc, hn, hbits => by
    have hmsb : ch.msb = c.getLsbD n := by
      rw [BitVec.msb_eq_getLsbD_last]
      exact hbits 0 (Nat.succ_pos n)
    rw [badLoop, badBit_eq, hmsb, bitsBelow, List.foldl_cons]
    apply badLoop_eq c n _ _ (by omega)
    intro k hk
    have h := hbits (k + 1) (by omega)
    rw [BitVec.getLsbD_shiftLeft, decide_eq_true (by omega), decide_eq_false (by omega)]
    simp only [Bool.not_false, Bool.and_true, Bool.true_and]
    rw [show 15 - k - 1 = 15 - (k + 1) by omega, h]
    congr 1
    omega

theorem updateBadCrc_eq (c : BitVec 8) (crc : BitVec 16) :
    updateBadCrc (toShort c) crc = (msbFirst c).foldl (feedTop POLY) crc := by
  apply badLoop_eq c 8 _ _ (Nat.le_refl 8)
  intro k hk
  rw [BitVec.getLsbD_shiftLeft, decide_eq_true (by omega), decide_eq_false (by omega), toShort,
    BitVec.getLsbD_signExtend, decide_eq_true (by omega), if_pos (by omega)]
  simp only [Bool.not_false, Bool.and_true, Bool.true_and]
  congr 1
  omega

theorem goLoop_eq {text : List (BitVec 8)} (htext : ∀ c ∈ text, c ≠ 0) (r : Printed) :
    goLoop text r = ⟨(fileBits text).foldl (feed POLY) r.goodCrc, (fileBits text).foldl (feedTop POLY) r.badCrc,
      r.textLength + text.length⟩ := by
  induction text generalizing r with
  | nil => rfl
  | cons c text ih =>
    have hc : toShort c ≠ 0 := toShort_ne_zero (htext c List.mem_cons_self)
    have hbits : fileBits (c :: text) = msbFirst c ++ fileBits text := List.flatMap_cons
    rw [goLoop, if_neg hc, ih fun x hx => htext x (List.mem_cons_of_mem c hx), updateGoodCrc_eq, updateBadCrc_eq,
      hbits, List.foldl_append, List.foldl_append, List.length_cons, Nat.add_assoc, Nat.add_comm 1]

/-! ## What is printed -/

theorem go_good {text : List (BitVec 8)} (htext : IsText text) (high : BitVec 8) :
    (go text).goodCrc = crc16 high text := by
  rw [go, goLoop_eq htext.1, augmentMessageForGoodCrc, augmentLoop_eq, crc16_eq, List.foldl_append]
  rfl

theorem go_bad {text : List (BitVec 8)} (htext : IsText text) :
    (go text).badCrc = (fileBits text).foldl (feedTop POLY) 0xffff := by
  rw [go, goLoop_eq htext.1]

/-- The bad CRC as a remainder: only the text is multiplied by `x ^ 16`. -/
theorem value_bad {text : List (BitVec 8)} (htext : IsText text) :
    value POLY (go text).badCrc = value POLY 0xffff * AdjoinRoot.root (generator POLY) ^ (8 * text.length) +
      AdjoinRoot.mk _ (ofBits (fileBits text)) * AdjoinRoot.root (generator POLY) ^ 16 := by
  rw [go_bad htext, value_foldl_feedTop (by omega), length_fileBits]

theorem value_good {text : List (BitVec 8)} (htext : IsText text) :
    value POLY (go text).goodCrc = value POLY 0xffff * AdjoinRoot.root (generator POLY) ^ (8 * text.length + 16) +
      AdjoinRoot.mk _ (ofBits (fileBits text)) * AdjoinRoot.root (generator POLY) ^ 16 := by
  rw [go_good htext 0, crc16_eq, value_foldl_feed (by omega), ofBits_append_replicate, map_mul, map_pow,
    List.length_append, List.length_replicate, length_flatMap_msbFirst]
  rfl

/-- A power of `x` can be cancelled. -/
theorem value_mul_root_cancel {a b : BitVec 16} {k : ℕ}
    (h : value POLY a * AdjoinRoot.root (generator POLY) ^ k = value POLY b * AdjoinRoot.root (generator POLY) ^ k) :
    a = b := by
  apply @value_injective 16 POLY
  rw [value, value, AdjoinRoot.root, ← map_pow, ← map_mul, ← map_mul, AdjoinRoot.mk_eq_mk, ← sub_mul,
    dvd_mul_X_pow_iff (by omega) (by decide), ← AdjoinRoot.mk_eq_mk] at h
  exact h

/-- **No text has the same good and bad CRC**, and both tell the same texts of one length apart. -/
theorem good_and_bad (f g : List (BitVec 8)) (hf : IsText f) (hg : IsText g) (hlen : f.length = g.length) :
    (∀ high, (go f).goodCrc = crc16 high f) ∧ (go f).textLength = f.length ∧ (go f).goodCrc ≠ (go f).badCrc ∧
      ((go f).badCrc = (go g).badCrc ↔ (go f).goodCrc = (go g).goodCrc) := by
  refine ⟨go_good hf, ?_, fun h => ?_, ?_⟩
  · rw [go, goLoop_eq hf.1]
    exact Nat.zero_add _
  · -- the difference would be there for the empty text, too
    have hvalue := congrArg (value POLY) h
    rw [value_good hf, value_bad hf, add_left_inj, pow_add, mul_comm (_ ^ (8 * f.length)), ← mul_assoc] at hvalue
    have hempty : value POLY (crc16 0 []) = value POLY 0xffff * AdjoinRoot.root (generator POLY) ^ 16 := by
      have hzeros : ofBits (List.replicate 16 false) = 0 := by
        have := ofBits_append_replicate [] 16
        rwa [List.nil_append, ofBits, zero_mul] at this
      rw [crc16_eq, List.flatMap_nil, List.nil_append, value_foldl_feed (by omega), List.length_replicate, hzeros,
        map_zero, add_zero]
    rw [← hempty] at hvalue
    exact absurd (value_mul_root_cancel hvalue) (by decide)
  · rw [← value_injective.eq_iff (f := value POLY), ← value_injective.eq_iff (f := value POLY), value_bad hf,
      value_bad hg, value_good hf, value_good hg, hlen, add_right_inj, add_right_inj]

theorem good_and_bad_digits : (go [0x31, 0x32, 0x33]).goodCrc ≠ (go [0x31, 0x32, 0x33]).badCrc :=
  (good_and_bad [0x31, 0x32, 0x33] [0x31, 0x32, 0x34] (by decide) (by decide) rfl).2.2.1

end OstepHw.CrcOrig
