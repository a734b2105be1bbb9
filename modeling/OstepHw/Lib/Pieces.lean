import Mathlib.Data.List.Basic

/-!
# Cutting a stream into pieces

A reader takes elements one at a time, and a piece ends as soon as it is `full`.  The last piece is what is left when
the stream ends.

* `pieces`, `flatten_pieces` — the pieces, and that nothing is lost;
* `lines`, `lines_append_cons`, `length_lines` — pieces that end with a terminator, which counts them;
* `lastLines`, `lastLines_split` — the last of them;
* `ends_of_append_cons`, `exists_split`, `split_unique` — the place behind which an element occurs a given number of
  times.
-/

set_option autoImplicit false

namespace OstepHw.Pieces

variable {α : Type} {full : List α → Bool} {got xs ys : List α}

/-- `got` is the part of the first piece that has been read before. -/
def pieces (full : List α → Bool) : (got xs : List α) → List (List α)
  | got, [] => if got.isEmpty then [] else [got]
  | got, x :: xs => if full (got ++ [x]) then (got ++ [x]) :: pieces full [] xs else pieces full (got ++ [x]) xs

theorem pieces_nil (hgot : got ≠ []) : pieces full got [] = [got] := by
  simp [pieces, hgot]

theorem pieces_cons_of_full {x : α} (hfull : full (got ++ [x])) :
    pieces full got (x :: xs) = (got ++ [x]) :: pieces full [] xs :=
  if_pos hfull

theorem pieces_cons_of_not_full {x : α} (hfull : ¬full (got ++ [x])) :
    pieces full got (x :: xs) = pieces full (got ++ [x]) xs :=
  if_neg hfull

theorem flatten_pieces (full : List α → Bool) (got xs : List α) : (pieces full got xs).flatten = got ++ xs := by
  induction xs generalizing got with
  | nil => cases got <;> simp [pieces]
  | cons x xs ih =>
    unfold pieces
    split
    · rw [List.flatten_cons, ih, List.nil_append, List.append_assoc, List.singleton_append]
    · rw [ih, List.append_assoc, List.singleton_append]

/-- What stands behind a terminator ends like the whole. -/
theorem ends_of_append_cons {a b c : List α} {z : α} (h : a ++ z :: b = c ++ [z]) : b = [] ∨ ∃ d, b = d ++ [z] := by
  rcases List.eq_nil_or_concat b with rfl | ⟨d, y, rfl⟩
  · exact .inl rfl
  · have hy : (a ++ z :: d) ++ [y] = c ++ [z] := by
      rw [← h, List.append_assoc, List.cons_append, List.concat_eq_append]
    exact .inr ⟨d, by rw [List.concat_eq_append, (List.append_inj' hy rfl).2]⟩

/-! ## Lines -/

section Lines

variable [DecidableEq α] {z : α}

/-- The pieces that end with `z`. -/
def lines (z : α) (xs : List α) : List (List α) := pieces (fun l => l.getLast? = some z) [] xs

/-- The last `n` lines, or all of them. -/
def lastLines (z : α) (n : Nat) (xs : List α) : List α := ((lines z xs).drop ((lines z xs).length - n)).flatten

theorem pieces_append_terminator (got a b : List α) :
    pieces (fun l => l.getLast? = some z) got (a ++ z :: b) =
      pieces (fun l => l.getLast? = some z) got (a ++ [z]) ++ lines z b := by
  induction a generalizing got with
  | nil =>
    have hfull : (decide ((got ++ [z]).getLast? = some z)) = true := by simp
    rw [List.nil_append, List.nil_append, pieces_cons_of_full hfull, pieces_cons_of_full hfull]
    rfl
  | cons x a ih =>
    rw [List.cons_append, List.cons_append, pieces, pieces]
    split
    · rw [ih, List.cons_append]
    · exact ih _

/-- The lines up to a terminator, and the lines behind it. -/
theorem lines_append_cons (a b : List α) : lines z (a ++ z :: b) = lines z (a ++ [z]) ++ lines z b :=
  pieces_append_terminator [] a b

theorem flatten_lines (xs : List α) : (lines z xs).flatten = xs :=
  flatten_pieces _ [] xs

theorem length_lines (a : List α) : (lines z (a ++ [z])).length = a.count z + 1 := by
  have hgot (got : List α) : (pieces (fun l => l.getLast? = some z) got (a ++ [z])).length = a.count z + 1 := by
    induction a generalizing got with
    | nil =>
      rw [List.nil_append, pieces_cons_of_full (by simp)]
      rfl
    | cons x a ih =>
      rw [List.cons_append, pieces]
      by_cases hx : x = z
      · rw [if_pos (by simp [hx]), List.length_cons, ih, hx, List.count_cons_self]
      · rw [if_neg (by simp [hx]), ih, List.count_cons_of_ne hx]
  exact hgot []

/-- All lines, if there are no more. -/
theorem lastLines_of_le {n : Nat} {a : List α} (h : (a ++ [z]).count z ≤ n) : lastLines z n (a ++ [z]) = a ++ [z] := by
  rw [List.count_append, List.count_singleton_self] at h
  rw [lastLines, length_lines, Nat.sub_eq_zero_of_le h, List.drop_zero, flatten_lines]

/-- What stands behind the terminator that has as many behind it. -/
theorem lastLines_split {a b : List α} (hb : b = [] ∨ ∃ c, b = c ++ [z]) :
    lastLines z (b.count z) (a ++ z :: b) = b := by
  have hcount : (lines z b).length = b.count z := by
    rcases hb with rfl | ⟨c, rfl⟩
    · rfl
    · rw [length_lines, List.count_append, List.count_singleton_self]
  rw [lastLines, lines_append_cons, List.length_append, hcount, Nat.add_sub_cancel, List.drop_left, flatten_lines]

theorem exists_split {n : Nat} {xs : List α} (h : n < xs.count z) : ∃ a b, xs = a ++ z :: b ∧ b.count z = n := by
  induction xs with
  | nil => exact absurd h (Nat.not_lt_zero n)
  | cons x xs ih =>
    by_cases hmore : n < xs.count z
    · obtain ⟨a, b, rfl, hb⟩ := ih hmore
      exact ⟨x :: a, b, rfl, hb⟩
    · by_cases hx : x = z
      · rw [hx, List.count_cons_self] at h
        exact ⟨[], xs, by rw [hx]; rfl, by omega⟩
      · rw [List.count_cons_of_ne hx] at h
        exact absurd h hmore

theorem split_unique {a b a' b' : List α} (h : a ++ z :: b = a' ++ z :: b') (hcount : b.count z = b'.count z) :
    a = a' ∧ b = b' := by
  have hno {c d d' : List α} (hd : d.count z = d'.count z) (hc : z :: d = c ++ z :: d') : c = [] := by
    cases c with
    | nil => rfl
    | cons x c =>
      have hd' : d = c ++ z :: d' := (List.cons.inj hc).2
      rw [hd', List.count_append, List.count_cons_self] at hd
      omega
  rcases List.append_eq_append_iff.1 h with ⟨c, rfl, hc⟩ | ⟨c, rfl, hc⟩
  · obtain rfl := hno hcount hc
    exact ⟨(List.append_nil a).symm, (List.cons.inj hc).2⟩
  · obtain rfl := hno hcount.symm hc
    exact ⟨List.append_nil a', (List.cons.inj hc).2.symm⟩

end Lines

end OstepHw.Pieces
