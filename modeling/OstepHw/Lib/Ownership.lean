import Mathlib.Data.List.Nodup
import Mathlib.Data.List.Perm.Subperm
import Mathlib.Logic.Function.Basic

/-!
# Things that have one owner

A list of things (open descriptors, operations in flight), each of which belongs to exactly one owner: `own i` is what
owner `i` has.

* `Owned` — the list is what the owners have together, and nothing twice;
* `Owned.cons`, `Owned.tail`, `Owned.perm` — an owner gets something new, gives something up; the order does not matter;
* `Owned.nodup_map`, `Owned.countP_le_one` — owners with one thing each, one owner for a kind of things.
-/

set_option autoImplicit false

namespace OstepHw.Ownership

variable {α ι : Type*}

structure Owned (l : List α) (own : ι → List α) : Prop where
  nodup : l.Nodup
  mem_iff : ∀ x, x ∈ l ↔ ∃ i, x ∈ own i
  own_nodup : ∀ i, (own i).Nodup
  disjoint : ∀ x i j, x ∈ own i → x ∈ own j → i = j

variable {l l' : List α} {own : ι → List α}

theorem Owned.empty (hown : ∀ i, own i = []) : Owned [] own where
  nodup := List.nodup_nil
  mem_iff x := by simp [hown]
  own_nodup i := hown i ▸ List.nodup_nil
  disjoint x i j hi := by simp [hown] at hi

theorem Owned.perm (h : Owned l own) (hl : l.Perm l') : Owned l' own where
  nodup := hl.nodup_iff.1 h.nodup
  mem_iff x := hl.mem_iff.symm.trans (h.mem_iff x)
  own_nodup := h.own_nodup
  disjoint := h.disjoint

theorem Owned.eq_nil (h : Owned l own) (hown : ∀ i, own i = []) : l = [] := by
  apply List.eq_nil_iff_forall_not_mem.2
  intro x hx
  obtain ⟨i, hi⟩ := (h.mem_iff x).1 hx
  rw [hown i] at hi
  cases hi

variable [DecidableEq ι]

/-- Something new. -/
theorem Owned.cons (h : Owned l own) {x : α} (hx : x ∉ l) (i : ι) :
    Owned (x :: l) (Function.update own i (x :: own i)) := by
  have hmem : ∀ y j, y ∈ Function.update own i (x :: own i) j ↔ (y = x ∧ j = i) ∨ y ∈ own j := by
    intro y j
    by_cases hj : j = i
    · subst hj
      simp
    · simp [hj]
  have hnew : ∀ j, x ∉ own j := fun j hj => hx ((h.mem_iff x).2 ⟨j, hj⟩)
  refine ⟨List.nodup_cons.2 ⟨hx, h.nodup⟩, fun y => ?_, fun j => ?_, fun y j k hj hk => ?_⟩
  · rw [List.mem_cons, h.mem_iff]
    simp only [hmem, exists_or, exists_and_left, exists_eq, and_true]
  · by_cases hj : j = i
    · subst hj
      rw [Function.update_self]
      exact List.nodup_cons.2 ⟨hnew j, h.own_nodup j⟩
    · rw [Function.update_of_ne hj]
      exact h.own_nodup j
  · rcases (hmem y j).1 hj with ⟨hyj, hji⟩ | hj' <;> rcases (hmem y k).1 hk with ⟨hyk, hki⟩ | hk'
    · rw [hji, hki]
    · exact absurd (hyj ▸ hk') (hnew k)
    · exact absurd (hyk ▸ hj') (hnew j)
    · exact h.disjoint y j k hj' hk'

/-- The owner of the first thing gives it up. -/
theorem Owned.tail {x : α} (h : Owned (x :: l) own) {i : ι} {rest : List α} (hi : (own i).Perm (x :: rest)) :
    Owned l (Function.update own i rest) := by
  obtain ⟨hx, hnodup⟩ := List.nodup_cons.1 h.nodup
  have hrest := List.nodup_cons.1 (hi.nodup_iff.1 (h.own_nodup i))
  have hmem : ∀ y j, y ∈ Function.update own i rest j ↔ y ∈ own j ∧ y ≠ x := by
    intro y j
    by_cases hj : j = i
    · subst hj
      rw [Function.update_self, hi.mem_iff, List.mem_cons]
      constructor
      · exact fun hy => ⟨.inr hy, fun hyx => hrest.1 (hyx ▸ hy)⟩
      · exact fun ⟨hy, hyx⟩ => hy.resolve_left hyx
    · rw [Function.update_of_ne hj]
      refine ⟨fun hy => ⟨hy, fun hyx => hj ?_⟩, And.left⟩
      exact h.disjoint x j i (hyx ▸ hy) (hi.mem_iff.2 List.mem_cons_self)
  refine ⟨hnodup, fun y => ?_, fun j => ?_, fun y j k hj hk => ?_⟩
  · simp only [hmem, exists_and_right, ← h.mem_iff, List.mem_cons]
    constructor
    · exact fun hy => ⟨.inr hy, fun hyx => hx (hyx ▸ hy)⟩
    · exact fun ⟨hy, hyx⟩ => hy.resolve_left hyx
  · by_cases hj : j = i
    · subst hj
      rw [Function.update_self]
      exact hrest.2
    · rw [Function.update_of_ne hj]
      exact h.own_nodup j
  · exact h.disjoint y j k ((hmem y j).1 hj).1 ((hmem y k).1 hk).1

omit [DecidableEq ι] in
/-- Every owner has one thing at most, and it is known from it who that is. -/
theorem Owned.nodup_map (h : Owned l own) {f : α → ι} (hf : ∀ i, ∀ x ∈ own i, f x = i)
    (hone : ∀ i, ∀ x ∈ own i, ∀ y ∈ own i, x = y) : (l.map f).Nodup := by
  refine List.Nodup.map_on (fun x hx y hy hxy => ?_) h.nodup
  obtain ⟨i, hi⟩ := (h.mem_iff x).1 hx
  obtain ⟨j, hj⟩ := (h.mem_iff y).1 hy
  obtain rfl : i = j := by rw [← hf i x hi, ← hf j y hj, hxy]
  exact hone i x hi y hj

omit [DecidableEq ι] in
/-- A kind of things that only one owner has, and one at most. -/
theorem Owned.countP_le_one (h : Owned l own) {p : α → Bool} {i : ι} (hp : ∀ j, ∀ x ∈ own j, p x = true → j = i)
    (hone : ∀ x ∈ own i, ∀ y ∈ own i, x = y) : l.countP p ≤ 1 := by
  have hmem : ∀ x ∈ l.filter p, x ∈ own i := by
    intro x hx
    obtain ⟨hxl, hpx⟩ := List.mem_filter.1 hx
    obtain ⟨j, hj⟩ := (h.mem_iff x).1 hxl
    exact hp j x hj hpx ▸ hj
  rw [List.countP_eq_length_filter]
  rcases hfilter : l.filter p with - | ⟨x, - | ⟨y, rest⟩⟩
  · exact Nat.zero_le 1
  · exact Nat.le_refl 1
  · have hnodup := h.nodup.filter p
    rw [hfilter] at hmem hnodup
    have hxy := hone x (hmem x (by simp)) y (hmem y (by simp))
    exact absurd hxy (List.ne_of_not_mem_cons (List.nodup_cons.1 hnodup).1)

end OstepHw.Ownership
