import Mathlib.Data.List.Induction
import OstepHw.Lib.CInt
import OstepHw.Lib.CString
import OstepHw.Lib.Pieces

/-!
# `mytail.c`: the last lines of a file

Model of `main` in `39/mytail.c` from the conversion of the option on, on the bytes of a file that no one else writes.
The descriptor is its position; `read` gives what there is up to the end of the file, all of it in one call, and
`lseek` fails only where the new position would be negative, and leaves the position alone then.  `buff[sb.st_size]`
fits the stack.

* `scan_of_few`, `scan_of_split` — how the backward loop ends;
* `mytail_eq_iff` — **the files whose last lines are printed**.
-/

set_option autoImplicit false

namespace OstepHw.Mytail

open CInt CString Pieces

/-- `'\n'` -/
def newline : UInt8 := 10

/-- `lines` after the byte at `pos` has been read. -/
def seen (f : List UInt8) (lines : Int) (pos : Nat) : Int := if f[pos]? = some newline then lines - 1 else lines

/-- The loop that reads a byte and seeks two back: `lines` and the position when it ends, with `lines` and the position
before it. -/
def scan (f : List UInt8) : (lines : Int) → (pos : Nat) → Int × Nat
  | lines, 0 =>
    -- the seek fails when the byte has been read
    if 0 < lines then (seen f lines 0, 1) else (lines, 0)
  | lines, p + 1 =>
    if 0 < lines then
      let offset := toInt p
      if offset = -1 then (seen f lines (p + 1), p) else scan f (seen f lines (p + 1)) p
    else (lines, p + 1)

/-- `buff` after `l` has been read into it; it was cleared before. -/
def filled (stSize : Nat) (l : List UInt8) : List UInt8 := l ++ List.replicate (stSize - l.length) 0

/-- `buff` at the end of `mytail -n file`; `n` is the value of an `int`. -/
def mytail (n : Nat) (f : List UInt8) : List UInt8 :=
  let (lines, pos) := scan f (toInt (n + 1)) (f.length - 1)
  let position := if lines = 0 then pos + 2 else 0
  filled f.length ((f.drop position).take f.length)

/-! ## The loop -/

variable {f a b : List UInt8} {lines : Int} {n pos : Nat}

theorem seen_add_count (hpos : pos < f.length) :
    seen f lines pos + (f.take (pos + 1)).count newline = lines + (f.take pos).count newline := by
  rw [List.take_succ_eq_append_getElem hpos, List.count_append, List.count_singleton, seen,
    List.getElem?_eq_getElem hpos]
  by_cases hnl : f[pos] = newline
  · rw [if_pos (congrArg some hnl), if_pos (by simpa using hnl)]
    omega
  · rw [if_neg (by simpa using hnl), if_neg (by simpa using hnl)]
    omega

/-- The offset of a position from `lo` to below `hi` looks like a failed seek. -/
def Wraps (lo hi : Nat) : Prop := ∃ p, lo ≤ p ∧ p < hi ∧ p % 2 ^ 32 = 2 ^ 32 - 1

theorem scan_of_nonpos (h : lines ≤ 0) : scan f lines pos = (lines, pos) := by
  cases pos <;> exact if_neg (Int.not_lt.2 h)

theorem scan_of_neg (h : lines < 0) : (scan f lines pos).1 ≠ 0 := by
  rw [scan_of_nonpos (Int.le_of_lt h)]
  exact Int.ne_of_lt h

theorem scan_zero (h : 0 < lines) : scan f lines 0 = (seen f lines 0, 1) :=
  if_pos h

theorem scan_succ {p : Nat} (h : 0 < lines) :
    scan f lines (p + 1) =
      if toInt p = -1 then (seen f lines (p + 1), p) else scan f (seen f lines (p + 1)) p :=
  if_pos h

/-- With fewer newlines than are looked for, some are missing at the end. -/
theorem scan_of_few (hpos : pos < f.length) (hfew : ((f.take (pos + 1)).count newline : Int) < lines) :
    0 < (scan f lines pos).1 := by
  have hlines : 0 < lines := by omega
  have hseen : seen f lines pos + (f.take (pos + 1)).count newline = lines + (f.take pos).count newline :=
    seen_add_count hpos
  induction pos generalizing lines with
  | zero =>
    rw [scan_zero hlines]
    have h0 : (f.take 0).count newline = 0 := rfl
    show 0 < seen f lines 0
    omega
  | succ p ih =>
    rw [scan_succ hlines]
    by_cases hwrap : toInt p = -1
    · rw [if_pos hwrap]
      show 0 < seen f lines (p + 1)
      omega
    · rw [if_neg hwrap]
      have hp : p < f.length := Nat.lt_of_succ_lt hpos
      exact ih hp (by omega) (by omega) (seen_add_count hp)

theorem seen_append_cons {x : UInt8} {pos : Nat} (hpos : a.length = pos) :
    seen (a ++ x :: b) lines pos = if x = newline then lines - 1 else lines := by
  rw [seen, ← hpos, List.getElem?_append_right (Nat.le_refl _), Nat.sub_self, List.getElem?_cons_zero]
  simp only [Option.some.injEq]

/-- The newline behind which `b` stands is found, unless an offset on the way wraps. -/
theorem scan_of_split {c : List UInt8} (hf : f = a ++ newline :: (b ++ c)) :
    (Wraps a.length (a.length + b.length) → 0 < (scan f (b.count newline + 1) (a.length + b.length)).1) ∧
      (¬Wraps a.length (a.length + b.length) →
        scan f (b.count newline + 1) (a.length + b.length) = (0, if a = [] then 1 else a.length - 1)) := by
  induction b using List.reverseRecOn generalizing c with
  | nil =>
    have hfound : seen f (0 + 1) a.length = 0 := by
      rw [hf, seen_append_cons rfl, if_pos rfl, Int.zero_add, Int.sub_self]
    refine ⟨fun ⟨p, hlo, hhi, _⟩ => absurd hhi (Nat.not_lt.2 hlo), fun _ => ?_⟩
    show scan f (0 + 1) a.length = _
    cases a with
    | nil => rw [List.length_nil, scan_zero (by decide), ← List.length_nil (α := UInt8), hfound, if_pos rfl]
    | cons y a =>
      rw [List.length_cons, scan_succ (by decide), ← List.length_cons (a := y), hfound,
        scan_of_nonpos (Int.le_refl 0), ite_self]
      rfl
  | append_singleton b x ih =>
    have hassoc : f = (a ++ newline :: b) ++ x :: c := by
      rw [hf, List.append_assoc, List.append_assoc]
      rfl
    have hlen : (a ++ newline :: b).length = a.length + b.length + 1 := by
      rw [List.length_append, List.length_cons, Nat.add_assoc]
    have hseen : seen f ((b ++ [x]).count newline + 1) (a.length + b.length + 1) = b.count newline + 1 := by
      rw [hassoc, seen_append_cons hlen, List.count_append, List.count_singleton]
      by_cases hx : x = newline
      · rw [if_pos hx, if_pos (by simpa using hx)]
        omega
      · rw [if_neg hx, if_neg (by simpa using hx)]
        omega
    have hlines : (0 : Int) < (b ++ [x]).count newline + 1 := by omega
    obtain ⟨ihl, ihr⟩ := ih (c := x :: c) (by rw [hf, List.append_assoc]; rfl)
    rw [List.length_append, List.length_singleton, ← Nat.add_assoc, scan_succ hlines, hseen]
    by_cases hwrap : toInt (a.length + b.length : Nat) = -1
    · rw [if_pos hwrap]
      refine ⟨fun _ => by show (0 : Int) < b.count newline + 1; omega, fun hno => absurd ?_ hno⟩
      exact ⟨_, Nat.le_add_right _ _, Nat.lt_succ_self _, toInt_eq_neg_one.1 hwrap⟩
    · rw [if_neg hwrap]
      refine ⟨fun ⟨p, hlo, hhi, hp⟩ => ihl ⟨p, hlo, ?_, hp⟩, fun hno => ihr fun ⟨p, hlo, hhi, hp⟩ => ?_⟩
      · refine Nat.lt_of_le_of_ne (Nat.le_of_lt_succ hhi) ?_
        rintro rfl
        exact hwrap (toInt_eq_neg_one.2 hp)
      · exact hno ⟨p, hlo, Nat.lt_succ_of_lt hhi, hp⟩

/-! ## The result -/

theorem cstr_filled {l : List UInt8} (hl : 0 ∉ l) (stSize : Nat) : cstr (filled stSize l) = l := by
  rw [filled]
  cases stSize - l.length with
  | zero => rw [List.replicate_zero, List.append_nil, cstr_of_not_mem hl]
  | succ k => rw [List.replicate_succ, cstr_append_zero hl]

theorem filled_eq_iff {stSize : Nat} {l l' : List UInt8} (hl : 0 ∉ l) (hl' : 0 ∉ l') :
    filled stSize l = filled stSize l' ↔ l = l' := by
  refine ⟨fun h => ?_, congrArg _⟩
  rw [← cstr_filled hl stSize, h, cstr_filled hl']

/-- The last `n` lines begin behind an empty first line, or on the way to them an offset wraps, or `n + 1` does not
fit `lines`. -/
def Misses (n : Nat) (f : List UInt8) : Prop :=
  ∃ a b, f = a ++ newline :: b ∧ b.count newline = n ∧
    (a = [] ∧ b ≠ [] ∨ Wraps a.length (f.length - 1) ∨ n + 1 = 2 ^ 31)

/-- What is read at the end. -/
def tail (n : Nat) (f : List UInt8) : List UInt8 :=
  if (scan f (toInt (n + 1)) (f.length - 1)).1 = 0 then
    f.drop ((scan f (toInt (n + 1)) (f.length - 1)).2 + 2)
  else f

theorem mytail_eq (n : Nat) (f : List UInt8) : mytail n f = filled f.length (tail n f) := by
  have htake (p : Nat) : (f.drop p).take f.length = f.drop p :=
    List.take_of_length_le (List.length_drop ▸ Nat.sub_le _ _)
  unfold mytail tail
  dsimp only
  rw [htake]
  split
  · rfl
  · rw [List.drop_zero]

theorem tail_of_ne (h : (scan f (toInt (n + 1)) (f.length - 1)).1 ≠ 0) : tail n f = f :=
  if_neg h

theorem mem_of_mem_tail {x : UInt8} (hx : x ∈ tail n f) : x ∈ f := by
  unfold tail at hx
  split at hx
  · exact List.mem_of_mem_drop hx
  · exact hx

theorem tail_of_max (hmax : n + 1 = 2 ^ 31) : tail n f = f :=
  tail_of_ne (scan_of_neg (toInt_lt_zero (by omega) (by omega)))

/-- All of it, if there are no more lines. -/
theorem tail_of_le (hn : n < 2 ^ 31) (hf : f ≠ []) (hfew : f.count newline ≤ n) : tail n f = f := by
  by_cases hmax : n + 1 = 2 ^ 31
  · exact tail_of_max hmax
  · have hpos : f.length - 1 < f.length := Nat.sub_lt (List.length_pos_iff.2 hf) Nat.one_pos
    have hall : f.take (f.length - 1 + 1) = f := List.take_of_length_le (by omega)
    apply tail_of_ne
    rw [toInt_of_lt (by omega) (by omega)]
    have hfound : 0 < (scan f (n + 1) (f.length - 1)).1 := scan_of_few hpos (by rw [hall]; omega)
    exact (Int.ne_of_lt hfound).symm

/-- The same where the loop ends too early. -/
theorem tail_of_wraps (hn : n < 2 ^ 31) (hf : f = a ++ newline :: b) (hb : b.count newline = n)
    (hwraps : Wraps a.length (f.length - 1)) : tail n f = f := by
  by_cases hmax : n + 1 = 2 ^ 31
  · exact tail_of_max hmax
  · have hlen : f.length - 1 = a.length + b.length := by simp [hf]
    have hsplit : f = a ++ newline :: (b ++ []) := by rw [hf, List.append_nil]
    apply tail_of_ne
    rw [toInt_of_lt (by omega) (by omega), hlen, ← hb]
    exact (Int.ne_of_lt ((scan_of_split hsplit).1 (hlen ▸ hwraps))).symm

/-- Otherwise what stands behind the last newline before them, but two bytes less if that is the first byte. -/
theorem tail_of_not_wraps (hn : n < 2 ^ 31) (hf : f = a ++ newline :: b) (hb : b.count newline = n)
    (hwraps : ¬Wraps a.length (f.length - 1)) (hmax : n + 1 ≠ 2 ^ 31) :
    tail n f = if a = [] then b.drop 2 else b := by
  have hlen : f.length - 1 = a.length + b.length := by simp [hf]
  have hsplit : f = a ++ newline :: (b ++ []) := by rw [hf, List.append_nil]
  rw [tail, toInt_of_lt (by omega) (by omega), hlen, ← hb, (scan_of_split hsplit).2 (hlen ▸ hwraps), if_pos rfl, hf]
  cases a with
  | nil => rfl
  | cons y a =>
    have hcons : y :: a ++ newline :: b = (y :: a ++ [newline]) ++ b := by rw [List.append_assoc]; rfl
    rw [hcons, if_neg (List.cons_ne_nil y a), if_neg (List.cons_ne_nil y a)]
    exact List.drop_left' (by simp)

theorem drop_two_eq_self : b.drop 2 = b ↔ b = [] := by
  constructor
  · intro h
    have hlen := congrArg List.length h
    rw [List.length_drop] at hlen
    exact List.length_eq_zero_iff.1 (by omega)
  · rintro rfl
    rfl

/-- The place behind which `n` lines stand. -/
theorem misses_iff (hf : f = a ++ newline :: b) (hb : b.count newline = n) :
    Misses n f ↔ a = [] ∧ b ≠ [] ∨ Wraps a.length (f.length - 1) ∨ n + 1 = 2 ^ 31 := by
  refine ⟨fun ⟨a', b', hf', hb', h⟩ => ?_, fun h => ⟨a, b, hf, hb, h⟩⟩
  obtain ⟨rfl, rfl⟩ := split_unique (hf' ▸ hf) (hb'.trans hb.symm)
  exact h

theorem not_misses (hfew : ¬n < f.count newline) : ¬Misses n f := by
  rintro ⟨a, b, rfl, hb, -⟩
  rw [List.count_append, List.count_cons_self] at hfew
  omega

theorem tail_eq_iff (hn : n < 2 ^ 31) (hf : f = a ++ newline :: b) (hb : b.count newline = n) :
    tail n f = b ↔ ¬Misses n f := by
  rw [misses_iff hf hb]
  by_cases hwraps : Wraps a.length (f.length - 1) ∨ n + 1 = 2 ^ 31
  · have hall : tail n f = f := hwraps.elim (tail_of_wraps hn hf hb) tail_of_max
    have hlonger : f ≠ b := by
      intro h
      have hlen := congrArg List.length hf
      rw [List.length_append, List.length_cons, h] at hlen
      omega
    rw [hall]
    exact iff_of_false hlonger (not_not_intro (.inr hwraps))
  · rw [tail_of_not_wraps hn hf hb (not_or.1 hwraps).1 (not_or.1 hwraps).2, or_iff_left hwraps]
    by_cases ha : a = []
    · rw [if_pos ha, and_iff_right ha, not_not]
      exact drop_two_eq_self
    · rw [if_neg ha]
      exact iff_of_true rfl fun h => ha h.1

/-- **`mytail -n` leaves the last `n` lines of a file in `buff`**, unless it misses the place where they begin. -/
theorem mytail_eq_iff {g : List UInt8} (hn : n < 2 ^ 31) (hf : f = g ++ [newline]) (hzero : 0 ∉ f) :
    mytail n f = filled f.length (lastLines newline n f) ↔ ¬Misses n f := by
  rw [mytail_eq]
  by_cases hmore : n < f.count newline
  · obtain ⟨a, b, hab, hb⟩ := exists_split hmore
    have hzb : 0 ∉ b := fun h => hzero (by rw [hab]; simp [h])
    have hlast : lastLines newline n f = b := by rw [hab, ← hb, lastLines_split (ends_of_append_cons (hab ▸ hf))]
    rw [hlast, ← tail_eq_iff hn hab hb]
    exact filled_eq_iff (fun h => hzero (mem_of_mem_tail h)) hzb
  · have hne : f ≠ [] := by simp [hf]
    have hall : lastLines newline n f = f := hf ▸ lastLines_of_le (hf ▸ Nat.not_lt.1 hmore)
    rw [tail_of_le hn hne (Nat.not_lt.1 hmore), hall]
    exact iff_of_true rfl (not_misses hmore)

theorem second_line_left : mytail 1 [97, newline, 98, newline] = [98, newline, 0, 0] ∧
    ¬Misses 1 [97, newline, 98, newline] :=
  ⟨by decide, (mytail_eq_iff (g := [97, newline, 98]) (by decide) rfl (by decide)).1 (by decide)⟩

/-- The end of a file that begins with an empty line is lost. -/
theorem empty_first_line_lost :
    ¬∀ (n : Nat) (g : List UInt8), n < 2 ^ 31 → 0 ∉ g ++ [newline] →
      mytail n (g ++ [newline]) = filled (g ++ [newline]).length (lastLines newline n (g ++ [newline])) := by
  intro h
  exact absurd (h 1 [newline, 97] (by decide) (by decide)) (by decide)

end OstepHw.Mytail
