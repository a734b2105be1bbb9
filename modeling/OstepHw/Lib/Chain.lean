import Mathlib.Data.List.Nodup
import Mathlib.Logic.Function.Basic

/-!
# Chains of cells

Cells that are linked by pointers: `link a` is the pointer in cell `a`, `some none` when that is NULL, and `none`
when there is no cell at `a`.  A chain goes from a pointer through the cells of a list to NULL.

* `Chain` — the cells that a walk along the pointers comes to;
* `Chain.unique`, `Chain.nodup` — a pointer determines its chain, and no cell comes twice;
* `Chain.congr` — only the cells of the chain matter;
* `Chain.push`, `Chain.append_cell` — a new cell before the first or after the last one;
* `Chain.suffix`, `Chain.suffix_unique` — the walk from a cell in the middle.
-/

set_option autoImplicit false

namespace OstepHw

variable {α : Type*}

/-- From pointer `p` through the cells of the list to NULL. -/
def Chain (link : α → Option (Option α)) : Option α → List α → Prop
  | p, [] => p = none
  | p, a :: l => p = some a ∧ ∃ q, link a = some q ∧ Chain link q l

namespace Chain

variable {link link' : α → Option (Option α)} {p q : Option α} {a b : α} {l l' : List α}

theorem unique (h : Chain link p l) (h' : Chain link p l') : l = l' := by
  induction l generalizing p l' with
  | nil =>
    obtain rfl : p = none := h
    cases l' with
    | nil => rfl
    | cons b l' => cases h'.1
  | cons a l ih =>
    obtain ⟨rfl, q, hlink, hrest⟩ := h
    cases l' with
    | nil => cases (show some a = none from h')
    | cons b l' =>
      obtain ⟨hab, q', hlink', hrest'⟩ := h'
      cases hab
      rw [hlink] at hlink'
      cases hlink'
      rw [ih hrest hrest']

theorem head?_eq (h : Chain link p l) : l.head? = p := by
  cases l with
  | nil => exact h.symm
  | cons a l => exact h.1.symm

theorem link_ne_none (h : Chain link p l) (ha : a ∈ l) : link a ≠ none := by
  induction l generalizing p with
  | nil => cases ha
  | cons b l ih =>
    obtain ⟨-, q, hlink, hrest⟩ := h
    rcases List.mem_cons.mp ha with rfl | ha
    · rw [hlink]
      exact Option.some_ne_none q
    · exact ih hrest ha

/-- What is behind a cell is a chain from its pointer. -/
theorem suffix (h : Chain link p (l ++ a :: l')) : ∃ q, link a = some q ∧ Chain link q l' := by
  induction l generalizing p with
  | nil => exact h.2
  | cons b l ih =>
    obtain ⟨-, q, -, hrest⟩ := h
    exact ih hrest

/-- There is one way on from a cell. -/
theorem suffix_unique {l₁ l₂ : List α} (h : Chain link p l) (h₁ : a :: l₁ <:+ l) (h₂ : a :: l₂ <:+ l) : l₁ = l₂ := by
  obtain ⟨before₁, rfl⟩ := h₁
  obtain ⟨before₂, heq⟩ := h₂
  obtain ⟨q₁, hlink₁, hchain₁⟩ := h.suffix
  rw [← heq] at h
  obtain ⟨q₂, hlink₂, hchain₂⟩ := h.suffix
  rw [hlink₁] at hlink₂
  cases hlink₂
  exact hchain₁.unique hchain₂

theorem nodup (h : Chain link p l) : l.Nodup := by
  induction l generalizing p with
  | nil => exact List.nodup_nil
  | cons a l ih =>
    obtain ⟨-, q, hlink, hrest⟩ := h
    refine List.nodup_cons.mpr ⟨fun ha => ?_, ih hrest⟩
    -- from `a` on there would be a shorter chain to NULL
    obtain ⟨before, after, rfl⟩ := List.append_of_mem ha
    obtain ⟨q', hlink', hafter⟩ := hrest.suffix
    rw [hlink] at hlink'
    cases hlink'
    have hlength := congrArg List.length (hrest.unique hafter)
    rw [List.length_append, List.length_cons] at hlength
    omega

theorem congr (h : Chain link p l) (heq : ∀ a ∈ l, link' a = link a) : Chain link' p l := by
  induction l generalizing p with
  | nil => exact h
  | cons a l ih =>
    obtain ⟨hp, q, hlink, hrest⟩ := h
    rw [List.forall_mem_cons] at heq
    exact ⟨hp, q, heq.1.trans hlink, ih hrest heq.2⟩

theorem push (h : Chain link p l) (hlink : link a = some p) : Chain link (some a) (a :: l) := ⟨rfl, p, hlink, h⟩

/-- The last cell is linked to a new one. -/
theorem append_cell [DecidableEq α] (h : Chain link p (l ++ [a])) (hb : link b = some none) (hab : b ∉ l ++ [a]) :
    Chain (Function.update link a (some (some b))) p (l ++ [a, b]) := by
  have hnodup := h.nodup
  induction l generalizing p with
  | nil =>
    obtain ⟨hp, -⟩ := h
    have hba : b ≠ a := by simpa using hab
    exact ⟨hp, some b, Function.update_self .., rfl, none, by rw [Function.update_of_ne hba, hb], rfl⟩
  | cons c l ih =>
    obtain ⟨hp, q, hlink, hrest⟩ := h
    rw [List.cons_append, List.nodup_cons] at hnodup
    rw [List.cons_append, List.mem_cons, not_or] at hab
    have hca : c ≠ a := fun hca => hnodup.1 (List.mem_append_right _ (by rw [hca]; exact List.mem_singleton_self a))
    exact ⟨hp, q, by rw [Function.update_of_ne hca, hlink], ih hrest hab.2 hnodup.2⟩

end Chain

end OstepHw
