import Mathlib.Data.Nat.Bitwise
import Mathlib.Logic.Function.Basic

/-!
# Byte-addressed bitmaps

A bitmap is an array of bytes; bit `i` is bit `i % 8` of byte `i / 8`.  A byte is a natural
number and the array a function of the byte index, so the same definitions serve a bitmap
read from a disk and one that is being built.

* `Mem m i` — bit `i` is set;
* `land_shift_ne_zero` — the C test `m[i / 8] & (1 << i % 8)` decides `Mem`;
* `insert`, `mem_insert` — the C update `m[i / 8] |= 1 << i % 8` adds exactly `i`;
* `byte_eq_of_mem_iff` — two bytes agree when their eight bits do.
-/

set_option autoImplicit false

namespace OstepHw.Bitmap

/-- Bit `i` of the bitmap `m` is set. -/
def Mem (m : Nat → Nat) (i : Nat) : Prop := (m (i / 8)).testBit (i % 8) = true

instance (m : Nat → Nat) (i : Nat) : Decidable (Mem m i) :=
  inferInstanceAs (Decidable (_ = true))

/-- `m[i / 8] |= 1 << i % 8`. -/
def insert (m : Nat → Nat) (i : Nat) : Nat → Nat :=
  Function.update m (i / 8) (m (i / 8) ||| 1 <<< (i % 8))

theorem land_shift_eq_zero {m : Nat → Nat} {i : Nat} :
    m (i / 8) &&& 1 <<< (i % 8) = 0 ↔ ¬ Mem m i := by
  unfold Mem
  rw [Nat.one_shiftLeft, Nat.and_two_pow]
  cases (m (i / 8)).testBit (i % 8) <;> simp

theorem land_shift_ne_zero {m : Nat → Nat} {i : Nat} :
    m (i / 8) &&& 1 <<< (i % 8) ≠ 0 ↔ Mem m i := by
  rw [Ne, land_shift_eq_zero, not_not]

@[simp] theorem not_mem_zero (i : Nat) : ¬ Mem (fun _ => 0) i := by
  simp [Mem]

theorem mem_insert {m : Nat → Nat} {i j : Nat} : Mem (insert m i) j ↔ j = i ∨ Mem m j := by
  unfold Mem insert
  by_cases hb : j / 8 = i / 8
  · rw [hb, Function.update_self, Nat.testBit_or, Nat.one_shiftLeft, Nat.testBit_two_pow]
    have hji : i % 8 = j % 8 ↔ j = i := by omega
    simp only [hji, Bool.or_eq_true, decide_eq_true_eq]
    exact or_comm
  · rw [Function.update_of_ne hb]
    have hne : j ≠ i := fun h => hb (by rw [h])
    simp [hne]

/-- The bits of `l` added one after the other. -/
def insertAll (m : Nat → Nat) (l : List Nat) : Nat → Nat := l.foldl insert m

theorem mem_insertAll {j : Nat} :
    ∀ {l : List Nat} {m : Nat → Nat}, Mem (insertAll m l) j ↔ j ∈ l ∨ Mem m j
  | [], m => by simp [insertAll]
  | i :: l, m => by
    have ih := mem_insertAll (j := j) (l := l) (m := insert m i)
    rw [insertAll, List.foldl_cons, ← insertAll, ih, mem_insert, List.mem_cons]
    tauto

theorem insertAll_append (m : Nat → Nat) (l₁ l₂ : List Nat) :
    insertAll m (l₁ ++ l₂) = insertAll (insertAll m l₁) l₂ :=
  List.foldl_append

/-- Every cell of the bitmap is a byte. -/
def Bytes (m : Nat → Nat) : Prop := ∀ k, m k < 256

theorem Bytes.insert {m : Nat → Nat} (h : Bytes m) (i : Nat) : Bytes (insert m i) := by
  intro k
  unfold Bitmap.insert
  by_cases hk : k = i / 8
  · subst hk
    rw [Function.update_self]
    have hb : 1 <<< (i % 8) < 2 ^ 8 := by
      rw [Nat.one_shiftLeft]
      exact Nat.pow_lt_pow_right (by decide) (Nat.mod_lt _ (by decide))
    exact Nat.or_lt_two_pow (n := 8) (h _) hb
  · rw [Function.update_of_ne hk]
    exact h k

theorem Bytes.insertAll : ∀ {l : List Nat} {m : Nat → Nat}, Bytes m → Bytes (insertAll m l)
  | [], _, h => h
  | i :: l, _, h => Bytes.insertAll (l := l) (h.insert i)

/-- Two bytes are equal when their eight bits are. -/
theorem byte_eq_of_mem_iff {m m' : Nat → Nat} (h : Bytes m) (h' : Bytes m') {k : Nat}
    (hbits : ∀ b < 8, Mem m (8 * k + b) ↔ Mem m' (8 * k + b)) : m k = m' k := by
  apply Nat.eq_of_testBit_eq
  intro b
  by_cases hb : b < 8
  · have := hbits b hb
    unfold Mem at this
    have hd : (8 * k + b) / 8 = k := by omega
    have hm : (8 * k + b) % 8 = b := by omega
    rw [hd, hm] at this
    exact Bool.eq_iff_iff.mpr this
  · have hp : 2 ^ 8 ≤ 2 ^ b := Nat.pow_le_pow_right (by decide) (by omega)
    rw [Nat.testBit_lt_two_pow (Nat.lt_of_lt_of_le (h k) hp),
      Nat.testBit_lt_two_pow (Nat.lt_of_lt_of_le (h' k) hp)]

end OstepHw.Bitmap
