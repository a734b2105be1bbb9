import OstepHw.Checksum.Crc

/-!
# The two builds of the CRC program

Model of `main` of `crc.c` with all that it prints: the default build keeps `crc` and `ch` in 16 bits, the build with
`srecord_log` in 32 bits, with the highest coefficient written in `POLY`.

* `mainOf` — the program over the width and `POLY`; `main`, `Srecord.main` — its two builds;
* `shiftBitOf_wide`, `augmentOf_wide` — in every round the wide register holds what the narrow one holds;
* `builds_agree` — **both builds print the same**.
-/

set_option autoImplicit false

namespace OstepHw.Crc

open BitPoly

/-- What is printed: `log` has the lines `crc:%X`. -/
structure Printed where
  log : List Nat
  chars : Nat
  beforeAugment : Nat
  crc : Nat
  deriving DecidableEq, Repr

def mainOf {h : Nat} (POLY : BitVec (h + 8)) (high : BitVec h) (bytes : List (BitVec 8)) : Printed :=
  let (log, crc) := readLoopOf POLY high bytes 0xffff
  { log := log.map BitVec.toNat
    chars := bytes.length
    beforeAugment := crc.toNat
    crc := (augmentLoopOf POLY 16 crc).toNat }

/-- The default build. -/
def main (high : BitVec 8) (bytes : List (BitVec 8)) : Printed :=
  mainOf POLY high bytes

theorem main_crc (high : BitVec 8) (bytes : List (BitVec 8)) : (main high bytes).crc = (crc16 high bytes).toNat :=
  rfl

namespace Srecord

def POLY : BitVec 32 := 0x11021

/-- The build with `srecord_log`. -/
def main (high : BitVec 24) (bytes : List (BitVec 8)) : Printed :=
  mainOf POLY high bytes

end Srecord

/-! ## One round -/

theorem widen_POLY : Srecord.POLY = widen 32 POLY := by rfl

/-- The wide register before a round holds the narrow one, and so it does after the round. -/
theorem feedAt_wide (crc : BitVec 16) (b : Bool) :
    feedAt 15 Srecord.POLY (crc.setWidth 32) b = (feedAt 15 POLY crc b).setWidth 32 := by
  rw [widen_POLY]
  have hwiden := feedAt_widen (by omega) (show 16 < 32 by omega) POLY crc b
  rwa [← feedAt_last] at hwiden

variable (high : BitVec 8) (high' : BitVec 24)

theorem shiftBitOf_wide {k : Nat} (hk : k < 8) (byte : BitVec 8) (crc : BitVec 16) :
    shiftBitOf Srecord.POLY (high' ++ byte) (BitVec.twoPow 16 k) (crc.setWidth 32) =
      (shiftBitOf POLY (high ++ byte) (BitVec.twoPow 16 k) crc).setWidth 32 := by
  have hbit : (high' ++ byte).getLsbD k = (high ++ byte).getLsbD k := by
    rw [BitVec.getLsbD_append, BitVec.getLsbD_append, if_pos hk, if_pos hk]
  rw [shiftBitOf_eq _ (by omega) (by omega), shiftBitOf_eq _ (by omega) (by omega), hbit]
  exact feedAt_wide crc _

theorem augmentOf_wide (crc : BitVec 16) :
    augmentOf Srecord.POLY (crc.setWidth 32) = (augmentOf POLY crc).setWidth 32 := by
  rw [augmentOf_eq _ (by omega), augmentOf_eq _ (by omega)]
  exact feedAt_wide crc _

/-! ## The loops -/

theorem bitLoopOf_wide {n : Nat} (hn : n < 8) (byte : BitVec 8) (crc : BitVec 16) :
    bitLoopOf Srecord.POLY (high' ++ byte) (n + 1) (BitVec.twoPow 16 n) (crc.setWidth 32) =
      (bitLoopOf POLY (high ++ byte) (n + 1) (BitVec.twoPow 16 n) crc).map (List.map (BitVec.setWidth 32))
        (BitVec.setWidth 32) := by
  induction n generalizing crc with
  | zero =>
    simp only [bitLoopOf, shiftBitOf_wide high high' hn]
    rfl
  | succ n ih =>
    rw [bitLoopOf_succ Srecord.POLY, bitLoopOf_succ POLY, twoPow_ushiftRight_one (by omega),
      shiftBitOf_wide high high' hn, ih (Nat.lt_of_succ_lt hn)]
    rfl

theorem readLoopOf_wide (bytes : List (BitVec 8)) (crc : BitVec 16) :
    readLoopOf Srecord.POLY high' bytes (crc.setWidth 32) =
      (readLoopOf POLY high bytes crc).map (List.map (BitVec.setWidth 32)) (BitVec.setWidth 32) := by
  induction bytes generalizing crc with
  | nil => rfl
  | cons byte bytes ih =>
    have hbyte : bitLoopOf Srecord.POLY (high' ++ byte) 8 0x80 (crc.setWidth 32) = _ :=
      bitLoopOf_wide high high' (show 7 < 8 by omega) byte crc
    rw [readLoopOf_cons Srecord.POLY, readLoopOf_cons POLY, hbyte]
    simp only [Prod.map_fst, Prod.map_snd, Prod.map_apply, List.map_append, ih]
    rfl

theorem augmentLoopOf_wide (n : Nat) (crc : BitVec 16) :
    augmentLoopOf Srecord.POLY n (crc.setWidth 32) = (augmentLoopOf POLY n crc).setWidth 32 := by
  induction n generalizing crc with
  | zero => rfl
  | succ n ih => rw [augmentLoopOf, augmentLoopOf, augmentOf_wide, ih]

/-- **Both builds print the same** for every file: each value that is logged, the register before the zeros are
appended and the result. -/
theorem builds_agree (bytes : List (BitVec 8)) : Srecord.main high' bytes = main high bytes := by
  have hread : readLoopOf Srecord.POLY high' bytes 0xffff = _ := readLoopOf_wide high high' bytes 0xffff
  have hvalue (x : BitVec 16) : (x.setWidth 32).toNat = x.toNat :=
    BitVec.toNat_setWidth_of_le (show 16 ≤ 32 by omega)
  unfold Srecord.main main mainOf
  rw [hread]
  simp only [Prod.map_fst, Prod.map_snd, List.map_map, augmentLoopOf_wide, hvalue, Function.comp_def]

end OstepHw.Crc
