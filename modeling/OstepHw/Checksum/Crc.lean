import OstepHw.Lib.BitPoly

/-!
# The CRC program

Model of the loops of `crc.c`, for a register of any width and any `POLY`, and of `main` as it is built by default:
`crc` and `ch` are 16 bits wide, and `read` sets the low byte of `ch`, whose high byte has never been set.

* `shiftBitOf`, `augmentOf` — one round of the two loops; `shiftBitOf_eq`, `augmentOf_eq` — they feed the register;
* `bitLoop`, `readLoop`, `augmentLoop` — the loops of the default build;
* `crc_eq_mod` — what is printed is the remainder of a division of polynomials over GF(2).
-/

set_option autoImplicit false

namespace OstepHw.Crc

open BitPoly Polynomial

section Build

variable {h : Nat} (POLY : BitVec (h + 8))

/-- The body of the loop over the bits of `ch`; `v` is an `unsigned short` in every build. -/
def shiftBitOf (ch : BitVec (h + 8)) (v : BitVec 16) (crc : BitVec (h + 8)) : BitVec (h + 8) :=
  let xorFlag := crc &&& 0x8000 ≠ 0
  let crc := crc <<< 1
  let crc := if ch &&& v.setWidth (h + 8) ≠ 0 then crc + 1 else crc
  if xorFlag then crc ^^^ POLY else crc

/-- What the loop logs and leaves in `crc`: `n` rounds are left. -/
def bitLoopOf (ch : BitVec (h + 8)) : (n : Nat) → (v : BitVec 16) → (crc : BitVec (h + 8)) →
    List (BitVec (h + 8)) × BitVec (h + 8)
  | 0, _, crc => ([], crc)
  | n + 1, v, crc =>
    let crc := shiftBitOf POLY ch v crc
    let (log, last) := bitLoopOf ch n (v >>> 1) crc
    (crc :: log, last)

/-- The loop over the bytes of the file; `read` sets the low byte of `ch`. -/
def readLoopOf (high : BitVec h) : List (BitVec 8) → BitVec (h + 8) → List (BitVec (h + 8)) × BitVec (h + 8)
  | [], crc => ([], crc)
  | byte :: bytes, crc =>
    let (log, crc) := bitLoopOf POLY (high ++ byte) 8 0x80 crc
    let (rest, last) := readLoopOf high bytes crc
    (log ++ rest, last)

/-- The body of the loop that appends zeros. -/
def augmentOf (crc : BitVec (h + 8)) : BitVec (h + 8) :=
  let xorFlag := crc &&& 0x8000 ≠ 0
  let crc := crc <<< 1
  if xorFlag then crc ^^^ POLY else crc

def augmentLoopOf : Nat → BitVec (h + 8) → BitVec (h + 8)
  | 0, crc => crc
  | n + 1, crc => augmentLoopOf n (augmentOf POLY crc)

end Build

/-! ## The default build -/

def POLY : BitVec 16 := 0x1021

/-- What is left in `crc` after `n` rounds. -/
def bitLoop (ch : BitVec 16) (n : Nat) (v crc : BitVec 16) : BitVec 16 := (bitLoopOf POLY ch n v crc).2

def readLoop (high : BitVec 8) (bytes : List (BitVec 8)) (crc : BitVec 16) : BitVec 16 :=
  (readLoopOf POLY high bytes crc).2

def augmentLoop (n : Nat) (crc : BitVec 16) : BitVec 16 := augmentLoopOf POLY n crc

/-- What is printed for a file. -/
def crc16 (high : BitVec 8) (bytes : List (BitVec 8)) : BitVec 16 :=
  augmentLoop 16 (readLoop high bytes 0xffff)

/-! ## One round -/

section Round

variable {h k : Nat} (poly : BitVec (h + 8))

theorem and_0x8000_ne_zero_of (hh : 8 ≤ h) (x : BitVec (h + 8)) : x &&& 0x8000 ≠ 0 ↔ x.getLsbD 15 = true := by
  have hmask : (0x8000 : BitVec (h + 8)) = BitVec.twoPow (h + 8) 15 := by
    apply BitVec.eq_of_toNat_eq
    rw [BitVec.toNat_twoPow_of_lt (by omega)]
    exact Nat.mod_eq_of_lt (Nat.pow_lt_pow_right (show 1 < 2 by omega) (show 15 < h + 8 by omega))
  rw [hmask]
  exact and_twoPow_ne_zero (by omega) x

theorem setWidth_twoPow (hk : k < 16) (hh : 8 ≤ h) :
    (BitVec.twoPow 16 k).setWidth (h + 8) = BitVec.twoPow (h + 8) k := by
  apply BitVec.eq_of_toNat_eq
  rw [BitVec.toNat_setWidth, BitVec.toNat_twoPow_of_lt hk, BitVec.toNat_twoPow_of_lt (by omega)]
  exact Nat.mod_eq_of_lt (Nat.pow_lt_pow_right (by omega) (by omega))

/-- A round feeds the bit under the mask. -/
theorem shiftBitOf_eq (hk : k < 16) (hh : 8 ≤ h) (ch crc : BitVec (h + 8)) :
    shiftBitOf poly ch (BitVec.twoPow 16 k) crc = feedAt 15 poly crc (ch.getLsbD k) := by
  have hmask := and_twoPow_ne_zero (show k < h + 8 by omega) ch
  unfold shiftBitOf feedAt
  simp only [setWidth_twoPow hk hh, and_0x8000_ne_zero_of hh, hmask, shiftLeft_one_add]

theorem augmentOf_eq (hh : 8 ≤ h) (crc : BitVec (h + 8)) : augmentOf poly crc = feedAt 15 poly crc false := by
  unfold augmentOf feedAt
  simp only [and_0x8000_ne_zero_of hh, shiftLeft_one]

theorem bitLoopOf_succ (ch : BitVec (h + 8)) (n : Nat) (v : BitVec 16) (crc : BitVec (h + 8)) :
    bitLoopOf poly ch (n + 1) v crc =
      (shiftBitOf poly ch v crc :: (bitLoopOf poly ch n (v >>> 1) (shiftBitOf poly ch v crc)).1,
        (bitLoopOf poly ch n (v >>> 1) (shiftBitOf poly ch v crc)).2) :=
  rfl

theorem readLoopOf_cons (high : BitVec h) (byte : BitVec 8) (bytes : List (BitVec 8)) (crc : BitVec (h + 8)) :
    readLoopOf poly high (byte :: bytes) crc =
      ((bitLoopOf poly (high ++ byte) 8 0x80 crc).1 ++
          (readLoopOf poly high bytes (bitLoopOf poly (high ++ byte) 8 0x80 crc).2).1,
        (readLoopOf poly high bytes (bitLoopOf poly (high ++ byte) 8 0x80 crc).2).2) :=
  rfl

end Round

theorem and_0x8000_ne_zero (x : BitVec 16) : x &&& 0x8000 ≠ 0 ↔ x.msb = true := by
  have htop := and_0x8000_ne_zero_of (Nat.le_refl 8) x
  rwa [← BitVec.msb_eq_getLsbD_last x] at htop

/-- The narrow register is fed at its top. -/
theorem shiftBitOf_POLY {k : Nat} (hk : k < 16) (ch crc : BitVec 16) :
    shiftBitOf POLY ch (BitVec.twoPow 16 k) crc = feed POLY crc (ch.getLsbD k) := by
  rw [← feedAt_last]
  exact shiftBitOf_eq POLY hk (Nat.le_refl 8) ch crc

theorem augmentOf_POLY (crc : BitVec 16) : augmentOf POLY crc = feed POLY crc false := by
  rw [← feedAt_last]
  exact augmentOf_eq POLY (Nat.le_refl 8) crc

/-! ## The loops -/

theorem twoPow_ushiftRight_one {n : Nat} (hn : n + 1 < 16) : BitVec.twoPow 16 (n + 1) >>> 1 = BitVec.twoPow 16 n := by
  apply BitVec.eq_of_toNat_eq
  rw [BitVec.toNat_ushiftRight, BitVec.toNat_twoPow_of_lt hn, BitVec.toNat_twoPow_of_lt (Nat.lt_of_succ_lt hn),
    Nat.shiftRight_eq_div_pow, pow_one, pow_succ, Nat.mul_div_cancel _ Nat.two_pos]

theorem bitLoop_succ (ch : BitVec 16) (n : Nat) (v crc : BitVec 16) :
    bitLoop ch (n + 1) v crc = bitLoop ch n (v >>> 1) (shiftBitOf POLY ch v crc) :=
  rfl

/-- The mask runs down the bits of the byte: what stands in the high half of `ch` is never looked at. -/
theorem bitLoop_eq {n : Nat} (hn : n < 8) (high byte : BitVec 8) (crc : BitVec 16) :
    bitLoop (high ++ byte) (n + 1) (BitVec.twoPow 16 n) crc = (bitsBelow byte (n + 1)).foldl (feed POLY) crc := by
  have hbit : (high ++ byte).getLsbD n = byte.getLsbD n := by
    rw [BitVec.getLsbD_append, if_pos hn]
  induction n generalizing crc with
  | zero =>
    rw [bitLoop_succ, shiftBitOf_POLY (by omega), hbit]
    rfl
  | succ n ih =>
    have hnext : (high ++ byte).getLsbD n = byte.getLsbD n := by
      rw [BitVec.getLsbD_append, if_pos (Nat.lt_of_succ_lt hn)]
    rw [bitLoop_succ, shiftBitOf_POLY (by omega), hbit, twoPow_ushiftRight_one (by omega), bitsBelow, List.foldl_cons]
    exact ih (Nat.lt_of_succ_lt hn) _ hnext

theorem readLoop_cons (high byte : BitVec 8) (bytes : List (BitVec 8)) (crc : BitVec 16) :
    readLoop high (byte :: bytes) crc = readLoop high bytes (bitLoop (high ++ byte) 8 0x80 crc) :=
  rfl

theorem readLoop_eq (high : BitVec 8) (bytes : List (BitVec 8)) (crc : BitVec 16) :
    readLoop high bytes crc = (bytes.flatMap msbFirst).foldl (feed POLY) crc := by
  induction bytes generalizing crc with
  | nil => rfl
  | cons byte bytes ih =>
    have hbyte : bitLoop (high ++ byte) 8 0x80 crc = (msbFirst byte).foldl (feed POLY) crc :=
      bitLoop_eq (by omega) high byte crc
    rw [readLoop_cons, ih, hbyte, List.flatMap_cons, List.foldl_append]

theorem augmentLoop_succ (n : Nat) (crc : BitVec 16) :
    augmentLoop (n + 1) crc = augmentLoop n (augmentOf POLY crc) :=
  rfl

theorem augmentLoop_eq (n : Nat) (crc : BitVec 16) :
    augmentLoop n crc = (List.replicate n false).foldl (feed POLY) crc := by
  induction n generalizing crc with
  | zero => rfl
  | succ n ih => rw [augmentLoop_succ, ih, augmentOf_POLY, List.replicate_succ, List.foldl_cons]

theorem crc16_eq (high : BitVec 8) (bytes : List (BitVec 8)) :
    crc16 high bytes = (bytes.flatMap msbFirst ++ List.replicate 16 false).foldl (feed POLY) 0xffff := by
  rw [crc16, readLoop_eq, augmentLoop_eq, List.foldl_append]

theorem length_flatMap_msbFirst (bytes : List (BitVec 8)) : (bytes.flatMap msbFirst).length = 8 * bytes.length := by
  induction bytes with
  | nil => rfl
  | cons byte bytes ih =>
    rw [List.flatMap_cons, List.length_append, ih, msbFirst, length_bitsBelow, List.length_cons]
    omega

/-! ## The polynomials -/

theorem toPoly_0xffff : toPoly (0xffff : BitVec 16) = ∑ k ∈ Finset.range 16, X ^ k := by
  ext i
  rw [coeff_toPoly, finsetSum_coeff]
  simp only [coeff_X_pow, Finset.sum_ite_eq, Finset.mem_range]
  split
  · next hi =>
    have hset : (0xffff : BitVec 16).getLsbD i = true := by
      change (BitVec.allOnes 16).getLsbD i = true
      rw [BitVec.getLsbD_allOnes, decide_eq_true hi]
    rw [hset]
    rfl
  · next hi => rw [BitVec.getLsbD_of_ge _ i (Nat.le_of_not_lt hi)]; rfl

theorem generator_POLY : generator POLY = X ^ 16 + X ^ 12 + X ^ 5 + 1 := by
  have hPOLY : POLY = BitVec.twoPow 16 12 ^^^ BitVec.twoPow 16 5 ^^^ BitVec.twoPow 16 0 := by rfl
  rw [generator, hPOLY, toPoly_xor, toPoly_xor, toPoly_twoPow (by omega), toPoly_twoPow (by omega),
    toPoly_twoPow (by omega), pow_zero]
  ring

/-- **What is printed is a remainder**: bit `i` is the coefficient of `x ^ i`, for a file of any length. -/
theorem crc_eq_mod (high : BitVec 8) (bytes : List (BitVec 8)) (i : Nat) :
    (((∑ k ∈ Finset.range 16, X ^ k) * X ^ (8 * bytes.length + 16) + ofBits (bytes.flatMap msbFirst) * X ^ 16) %ₘ
        (X ^ 16 + X ^ 12 + X ^ 5 + 1 : (ZMod 2)[X])).coeff i =
      if (crc16 high bytes).getLsbD i then 1 else 0 := by
  have hmod := foldl_feed_eq_mod (by omega) POLY 0xffff (bytes.flatMap msbFirst ++ List.replicate 16 false)
  rw [← crc16_eq high, toPoly_0xffff, generator_POLY, List.length_append, length_flatMap_msbFirst,
    List.length_replicate, ofBits_append_replicate] at hmod
  rw [← hmod, coeff_toPoly]
  rfl

end OstepHw.Crc
