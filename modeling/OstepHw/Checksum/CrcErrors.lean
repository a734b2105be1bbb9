import OstepHw.Checksum.Crc
import OstepHw.Lib.ErrorDetection
import Mathlib.Tactic.NormNum.Prime

/-!
# Errors that the CRC detects

Two files of one length, whose bits are compared in the order in which the program takes them in.

* `crc16_eq_iff` — which errors are missed;
* `crc_detects` — an odd number of flipped bits and errors within 16 bits are not;
* `orderOf_root_POLY`, `crc_two_bits` — two flipped bits are missed **at the distances that are multiples of 32767**,
  so in no file of less than 4096 bytes.
-/

set_option autoImplicit false

namespace OstepHw.Crc

open BitPoly Polynomial

/-- The bits of a file in the order in which they are shifted in. -/
def fileBits (bytes : List (BitVec 8)) : List Bool := bytes.flatMap msbFirst

theorem length_fileBits (bytes : List (BitVec 8)) : (fileBits bytes).length = 8 * bytes.length :=
  length_flatMap_msbFirst bytes

theorem msbFirst_injective : Function.Injective (msbFirst : BitVec 8 → List Bool) := by
  intro x y h
  apply toPoly_injective
  rw [← ofBits_msbFirst, h, ofBits_msbFirst]

theorem fileBits_injective : Function.Injective fileBits := by
  intro f
  induction f with
  | nil =>
    intro g h
    have hlen := congrArg List.length h
    rw [length_fileBits, length_fileBits, List.length_nil] at hlen
    exact (List.length_eq_zero_iff.mp (by omega)).symm
  | cons x f ih =>
    intro g h
    cases g with
    | nil =>
      have hlen := congrArg List.length h
      rw [length_fileBits, length_fileBits, List.length_nil, List.length_cons] at hlen
      omega
    | cons y g =>
      rw [fileBits, fileBits, List.flatMap_cons, List.flatMap_cons] at h
      obtain ⟨hx, hf⟩ := List.append_inj h ((length_bitsBelow x 8).trans (length_bitsBelow y 8).symm)
      rw [msbFirst_injective hx, ih hf]

variable {f g : List (BitVec 8)}

/-- **Which errors are missed.** -/
theorem crc16_eq_iff (highf highg : BitVec 8) (hlen : f.length = g.length) :
    crc16 highf f = crc16 highg g ↔
      generator POLY ∣ errorPoly (8 * f.length) (differing (fileBits f) (fileBits g)) := by
  have hbits : (fileBits f).length = (fileBits g).length := by
    rw [length_fileBits, length_fileBits, hlen]
  rw [crc16_eq, crc16_eq, ← length_fileBits]
  exact foldl_feed_eq_iff (by omega) (by decide) 0xffff hbits 16

theorem eval_generator_POLY : (generator POLY).eval 1 = 0 := by
  rw [generator_POLY]
  simp only [eval_add, eval_pow, eval_X, eval_one, one_pow]
  decide

/-- **What the CRC detects**: an odd number of flipped bits, and flipped bits that are all within 16 bits. -/
theorem crc_detects (highf highg : BitVec 8) (f g : List (BitVec 8)) (hlen : f.length = g.length) (hne : f ≠ g)
    (herror : Odd (differing (fileBits f) (fileBits g)).card ∨
      ∃ s, ∀ p ∈ differing (fileBits f) (fileBits g), s ≤ p ∧ p < s + 16) :
    crc16 highf f ≠ crc16 highg g := by
  rw [Ne, crc16_eq_iff highf highg hlen]
  rcases herror with hodd | ⟨s, hburst⟩
  · exact not_dvd_of_odd eval_generator_POLY hodd
  · have hbits : (fileBits f).length = (fileBits g).length := by
      rw [length_fileBits, length_fileBits, hlen]
    have hdiff := differing_nonempty hbits (fileBits_injective.ne hne)
    refine not_dvd_of_burst (by omega) (by decide) hdiff (fun p hp => ?_) hburst
    rw [← length_fileBits]
    exact lt_of_mem_differing hp

/-- Three flipped bits, and two neighbouring ones. -/
theorem crc_detects_three_and_two :
    crc16 0 [0x00, 0x00, 0x00] ≠ crc16 0 [0x80, 0x01, 0x01] ∧ crc16 0 [0x00, 0x00] ≠ crc16 0xff [0x01, 0x80] :=
  ⟨crc_detects 0 0 [0x00, 0x00, 0x00] [0x80, 0x01, 0x01] rfl (by decide) (.inl (by decide)),
   crc_detects 0 0xff [0x00, 0x00] [0x01, 0x80] rfl (by decide) (.inr ⟨7, by decide⟩)⟩

/-! ## Two flipped bits -/

/-- **The order of `X`**: 32767 is the smallest distance at which two flipped bits cancel. -/
theorem orderOf_root_POLY : orderOf (AdjoinRoot.root (generator POLY)) = 32767 := by
  have h1 := root_pow_eq_one_iff POLY (by omega) (List.replicate 15 true)
  have h7 := root_pow_eq_one_iff POLY (by omega)
    [true, false, false, true, false, false, true, false, false, true, false, false, true]
  have h31 := root_pow_eq_one_iff POLY (by omega)
    [true, false, false, false, false, true, false, false, false, false, true]
  have h151 := root_pow_eq_one_iff POLY (by omega) [true, true, false, true, true, false, false, true]
  refine orderOf_eq_of_pow_and_pow_div_prime (by omega) (h1.2 (by decide +kernel)) fun p hp hdvd => ?_
  have hfactors : p = 7 ∨ p = 31 ∨ p = 151 := by
    rw [show 32767 = 7 * (31 * 151) from rfl, hp.dvd_mul, hp.dvd_mul] at hdvd
    rcases hdvd with h | h | h
    · exact .inl ((Nat.prime_dvd_prime_iff_eq hp (by norm_num)).mp h)
    · exact .inr (.inl ((Nat.prime_dvd_prime_iff_eq hp (by norm_num)).mp h))
    · exact .inr (.inr ((Nat.prime_dvd_prime_iff_eq hp (by norm_num)).mp h))
  rcases hfactors with rfl | rfl | rfl
  · exact fun h => absurd (h7.1 h) (by decide +kernel)
  · exact fun h => absurd (h31.1 h) (by decide +kernel)
  · exact fun h => absurd (h151.1 h) (by decide +kernel)

theorem crc16_eq_of_pair_iff (highf highg : BitVec 8) (hlen : f.length = g.length) {p q : ℕ} (hpq : p < q)
    (hdiff : differing (fileBits f) (fileBits g) = {p, q}) :
    crc16 highf f = crc16 highg g ↔ 32767 ∣ q - p := by
  have hq : q < 8 * f.length := by
    rw [← length_fileBits]
    exact lt_of_mem_differing (hdiff ▸ Finset.mem_insert_of_mem (Finset.mem_singleton_self q))
  rw [crc16_eq_iff highf highg hlen, hdiff, dvd_pair_iff (by omega) (by decide) hpq hq, orderOf_root_POLY]

/-- **Two flipped bits** are missed exactly when their distance is a multiple of 32767. -/
theorem crc_two_bits (highf highg : BitVec 8) (f g : List (BitVec 8)) (hlen : f.length = g.length) (p q : ℕ)
    (hpq : p < q) (hdiff : differing (fileBits f) (fileBits g) = {p, q}) :
    (crc16 highf f = crc16 highg g ↔ 32767 ∣ q - p) ∧ (f.length < 4096 → crc16 highf f ≠ crc16 highg g) := by
  have hiff := crc16_eq_of_pair_iff highf highg hlen hpq hdiff
  refine ⟨hiff, fun hshort heq => ?_⟩
  have hq : q < 8 * f.length := by
    rw [← length_fileBits]
    exact lt_of_mem_differing (hdiff ▸ Finset.mem_insert_of_mem (Finset.mem_singleton_self q))
  have := Nat.le_of_dvd (by omega) (hiff.1 heq)
  omega

theorem crc_two_bits_one_byte :
    (crc16 0 [0x00] = crc16 0 [0x81] ↔ 32767 ∣ 7 - 0) ∧ (1 < 4096 → crc16 0 [0x00] ≠ crc16 0 [0x81]) :=
  crc_two_bits 0 0 [0x00] [0x81] rfl 0 7 (by omega) (by decide)

theorem fileBits_replicate_zero (n : ℕ) : fileBits (List.replicate n 0) = List.replicate (8 * n) false := by
  induction n with
  | zero => rfl
  | succ n ih =>
    have hbyte : msbFirst (0 : BitVec 8) = List.replicate 8 false := by decide
    rw [fileBits] at ih ⊢
    rw [List.replicate_succ, List.flatMap_cons, ih, hbyte, List.replicate_append_replicate]
    congr 1
    omega

theorem differing_ends_bytes (n : ℕ) :
    differing (fileBits (List.replicate (n + 2) 0)) (fileBits (0x80 :: (List.replicate n 0 ++ [0x01]))) =
      {0, 8 * n + 15} := by
  have hfirst : msbFirst (0x80 : BitVec 8) = true :: List.replicate 7 false := by decide
  have hlast : msbFirst (0x01 : BitVec 8) = List.replicate 7 false ++ [true] := by decide
  have hmid := fileBits_replicate_zero n
  rw [← differing_ends, fileBits_replicate_zero]
  congr 1
  rw [fileBits] at hmid ⊢
  rw [List.flatMap_cons, List.flatMap_append, hmid, List.flatMap_singleton, hfirst, hlast, List.cons_append,
    ← List.append_assoc, ← List.append_assoc, List.replicate_append_replicate, List.replicate_append_replicate]
  congr 3
  omega

/-- The first and the last bit of 4096 bytes. -/
theorem crc_misses_two_bits :
    ∃ f g : List (BitVec 8), f.length = g.length ∧ (differing (fileBits f) (fileBits g)).card = 2 ∧
      ∀ highf highg, crc16 highf f = crc16 highg g := by
  have hlen : ∀ n, (List.replicate (n + 2) (0 : BitVec 8)).length =
      (0x80 :: (List.replicate n 0 ++ [0x01]) : List (BitVec 8)).length := fun n => by simp
  refine ⟨_, _, hlen 4094, ?_, fun highf highg => ?_⟩
  · rw [differing_ends_bytes, Finset.card_pair (by omega)]
  · exact (crc16_eq_of_pair_iff highf highg (hlen 4094) (by omega) (differing_ends_bytes 4094)).2 ⟨1, rfl⟩

end OstepHw.Crc
