import Mathlib.Data.List.Basic
import Mathlib.Data.List.TakeWhile

/-!
# C strings in arrays

An array of `char` is the list of its bytes; the string in it ends before the first zero byte.

* `cstr` — the string in an array;
* `cstr_of_not_mem`, `cstr_append_zero`, `cstr_append_of_mem` — arrays whose string is known;
* `strcpy` — the array after a copy into it; `drop_strcpy`, `length_strcpy` — how far the copy reaches.
-/

set_option autoImplicit false

namespace OstepHw.CString

/-- The string in an array. -/
def cstr (buf : List UInt8) : List UInt8 := buf.takeWhile (· ≠ 0)

/-- `dst` after `strcpy(dst, src)`. -/
def strcpy (dst src : List UInt8) : List UInt8 := cstr src ++ 0 :: dst.drop ((cstr src).length + 1)

theorem zero_not_mem_cstr (buf : List UInt8) : 0 ∉ cstr buf := by
  intro h
  have := List.mem_takeWhile_imp h
  simp at this

/-- A string without its terminating zero. -/
theorem cstr_of_not_mem {l : List UInt8} (h : 0 ∉ l) : cstr l = l := by
  rw [cstr, List.takeWhile_eq_self_iff]
  intro x hx
  have hx0 : x ≠ 0 := fun hx0 => h (hx0 ▸ hx)
  simp [hx0]

/-- A string with its terminating zero. -/
theorem cstr_append_zero {l : List UInt8} (h : 0 ∉ l) (r : List UInt8) : cstr (l ++ 0 :: r) = l := by
  have hl : ∀ x ∈ l, decide (x ≠ 0) = true := by
    intro x hx
    have hx0 : x ≠ 0 := fun hx0 => h (hx0 ▸ hx)
    simp [hx0]
  rw [cstr, List.takeWhile_append_of_pos hl]
  simp

/-- Only what lies before a zero counts. -/
theorem cstr_append_of_mem {l : List UInt8} (h : 0 ∈ l) (r : List UInt8) : cstr (l ++ r) = cstr l := by
  obtain ⟨a, b, rfl, ha⟩ := List.eq_append_cons_of_mem h
  rw [List.append_assoc, List.cons_append, cstr_append_zero ha, cstr_append_zero ha]

/-- What lies behind the copied zero stays. -/
theorem drop_strcpy {src : List UInt8} {n : Nat} (h : (cstr src).length < n) (dst : List UInt8) :
    (strcpy dst src).drop n = dst.drop n := by
  obtain ⟨k, rfl⟩ := Nat.exists_eq_add_of_lt h
  rw [strcpy, Nat.add_assoc, List.drop_append, List.drop_of_length_le (by omega), List.nil_append,
    Nat.add_sub_cancel_left, List.drop_succ_cons, List.drop_drop]
  congr 1
  omega

theorem length_strcpy (dst src : List UInt8) :
    (strcpy dst src).length = max dst.length ((cstr src).length + 1) := by
  rw [strcpy, List.length_append, List.length_cons, List.length_drop]
  omega

end OstepHw.CString
