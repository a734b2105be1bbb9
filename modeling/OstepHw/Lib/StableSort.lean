import Mathlib.Order.Lattice
import Mathlib.Data.List.Basic

/-!
# Stable sorting by one insertion at a time

Elements of an arbitrary type are compared by a key in a linear order.  `place f a l` puts `a`
behind the elements of `l` whose key is at most its own, which is where an insertion that never
overtakes an equal key leaves it.

* `place_append_of_le`, `place_append_of_lt` — an insertion into a concatenation is an insertion
  into the part the key belongs to;
* `eq_of_sorted_of_filter_eq` — a sorted list is determined by its classes of equal keys;
* `mergeSort_concat` — one more element at the end of the input is placed in the stable sort
  `List.mergeSort`, so placing elements one after the other is stable sorting.
-/

namespace OstepHw.StableSort

variable {α β κ : Type*} [LinearOrder κ] (f : α → κ)

/-- Insert `a` behind every element whose key is not above its own. -/
def place (a : α) : List α → List α
  | [] => [a]
  | b :: l => if f a < f b then a :: b :: l else b :: place a l

/-- The list is sorted by `f`. -/
def Sorted (l : List α) : Prop := l.Pairwise fun a b => f a ≤ f b

/-- The comparison `List.mergeSort` is given. -/
def le (a b : α) : Bool := decide (f a ≤ f b)

variable {f}

/-- The first element of a sorted list has the smallest key. -/
theorem Sorted.head_le {a b : α} {l : List α} (h : Sorted f (a :: l)) (hb : b ∈ a :: l) : f a ≤ f b := by
  rcases List.mem_cons.mp hb with rfl | hb
  · exact le_rfl
  · exact (List.pairwise_cons.mp h).1 b hb

/-! ## Insertion -/

theorem place_append_of_le {a : α} {l r : List α} (hl : ∀ b ∈ l, f b ≤ f a) :
    place f a (l ++ r) = l ++ place f a r := by
  induction l with
  | nil => rfl
  | cons b l ih =>
    have hb : ¬ f a < f b := not_lt.mpr (hl b (by simp))
    simp only [List.cons_append, place, if_neg hb]
    rw [ih fun c hc => hl c (List.mem_cons_of_mem _ hc)]

theorem place_of_lt {a : α} {l : List α} (hl : ∀ b ∈ l, f a < f b) : place f a l = a :: l := by
  cases l with
  | nil => rfl
  | cons b l => simp [place, hl b (by simp)]

theorem place_append_of_lt {a : α} {l r : List α} (hr : ∀ b ∈ r, f a < f b) :
    place f a (l ++ r) = place f a l ++ r := by
  induction l with
  | nil => simpa [place] using place_of_lt hr
  | cons b l ih =>
    simp only [List.cons_append, place]
    split
    · rfl
    · rw [ih, List.cons_append]

/-- The position an element is placed at is that of the first larger one. -/
theorem place_eq_take_drop {a : α} {p : α → Bool} (hp : ∀ b, p b = true ↔ f a < f b)
    (l : List α) : place f a l = l.take (l.findIdx p) ++ a :: l.drop (l.findIdx p) := by
  induction l with
  | nil => rfl
  | cons b l ih =>
    rw [place, List.findIdx_cons]
    cases hb : p b with
    | true => simp [(hp b).mp hb]
    | false =>
      have hn : ¬ f a < f b := fun h => by simp [(hp b).mpr h] at hb
      simp [hn, ih]

/-- An insertion that is not below the first element keeps it first. -/
theorem head?_place_of_le {a b : α} {l : List α} (hb : l.head? = some b) (h : f b ≤ f a) :
    (place f a l).head? = some b := by
  cases l with
  | nil => simp at hb
  | cons c l =>
    obtain rfl : c = b := by simpa using hb
    simp [place, not_lt.mpr h]

theorem place_perm (a : α) (l : List α) : (place f a l).Perm (a :: l) := by
  induction l with
  | nil => rfl
  | cons b l ih =>
    simp only [place]
    split
    · rfl
    · exact (ih.cons b).trans (List.Perm.swap a b l)

theorem mem_place {a b : α} {l : List α} : b ∈ place f a l ↔ b = a ∨ b ∈ l := by
  rw [(place_perm a l).mem_iff, List.mem_cons]

theorem Sorted.place {l : List α} (hl : Sorted f l) (a : α) : Sorted f (place f a l) := by
  induction l with
  | nil => exact List.pairwise_singleton _ _
  | cons b l ih =>
    obtain ⟨hb, ht⟩ := List.pairwise_cons.mp hl
    simp only [StableSort.place]
    split
    · rename_i hab
      refine List.pairwise_cons.mpr ⟨fun c hc => ?_, hl⟩
      rcases List.mem_cons.mp hc with rfl | hc
      · exact hab.le
      · exact hab.le.trans (hb c hc)
    · rename_i hab
      refine List.pairwise_cons.mpr ⟨fun c hc => ?_, ih ht⟩
      rcases mem_place.1 hc with rfl | hc
      · exact not_lt.mp hab
      · exact hb c hc

/-- Only the key decides where an element is placed. -/
theorem map_place (g : β → α) (b : β) (l : List β) :
    (place (f ∘ g) b l).map g = place f (g b) (l.map g) := by
  induction l with
  | nil => rfl
  | cons c l ih =>
    simp only [place, Function.comp_apply, List.map_cons]
    split
    · rfl
    · rw [List.map_cons, ih]

/-- The new element comes last in its own class of equal keys and no other class changes. -/
theorem filter_place {l : List α} (hl : Sorted f l) (a : α) (k : κ) :
    (place f a l).filter (fun b => f b = k) = (l ++ [a]).filter fun b => f b = k := by
  induction l with
  | nil => rfl
  | cons b l ih =>
    obtain ⟨hb, ht⟩ := List.pairwise_cons.mp hl
    simp only [place]
    split
    · rename_i hab
      -- everything behind `a` has a larger key, so `a` may as well be last
      have hgt : ∀ c ∈ b :: l, f a < f c := by
        intro c hc
        rcases List.mem_cons.mp hc with rfl | hc
        · exact hab
        · exact hab.trans_le (hb c hc)
      by_cases hk : f a = k
      · have hnone : (b :: l).filter (fun c => f c = k) = [] := by
          refine List.filter_eq_nil_iff.mpr fun c hc => ?_
          simpa [← hk] using (hgt c hc).ne'
        rw [List.filter_append, hnone, List.filter_cons_of_pos (by simpa using hk), hnone]
        simp [hk]
      · rw [List.filter_cons_of_neg (by simpa using hk), List.filter_append]
        simp [hk]
    · rw [List.cons_append, List.filter_cons, List.filter_cons, ih ht]

/-! ## Stable sorting -/

/-- **A sorted list is determined by its classes of equal keys.** -/
theorem eq_of_sorted_of_filter_eq {l r : List α} (hl : Sorted f l) (hr : Sorted f r)
    (h : ∀ k, l.filter (fun a => f a = k) = r.filter fun a => f a = k) : l = r := by
  have hmem : ∀ a, a ∈ l ↔ a ∈ r := by
    intro a
    have ha : a ∈ l.filter (fun b => f b = f a) ↔ a ∈ r.filter fun b => f b = f a := by
      rw [h (f a)]
    simpa using ha
  induction l generalizing r with
  | nil =>
    cases r with
    | nil => rfl
    | cons b r => simpa using hmem b
  | cons a l ih =>
    cases r with
    | nil => simpa using hmem a
    | cons b r =>
      obtain ⟨ha, hl'⟩ := List.pairwise_cons.mp hl
      obtain ⟨hb, hr'⟩ := List.pairwise_cons.mp hr
      have hab : f a = f b := by
        apply le_antisymm
        · rcases List.mem_cons.mp ((hmem b).mpr (by simp)) with rfl | hm
          · exact le_rfl
          · exact ha b hm
        · rcases List.mem_cons.mp ((hmem a).mp (by simp)) with rfl | hm
          · exact le_rfl
          · exact hb a hm
      obtain rfl : a = b := by
        have hk := h (f a)
        rw [List.filter_cons_of_pos (by simp), List.filter_cons_of_pos (by simp [hab])] at hk
        exact (List.cons.inj hk).1
      have hrest : ∀ k, l.filter (fun c => f c = k) = r.filter fun c => f c = k := by
        intro k
        have hk := h k
        rw [List.filter_cons, List.filter_cons] at hk
        split at hk
        · exact (List.cons.inj hk).2
        · exact hk
      refine congrArg (a :: ·) (ih hl' hr' hrest fun c => ?_)
      have hc : c ∈ l.filter (fun b => f b = f c) ↔ c ∈ r.filter fun b => f b = f c := by
        rw [hrest (f c)]
      simpa using hc

theorem le_trans_bool (a b c : α) : le f a b → le f b c → le f a c := by
  simpa [le] using fun h₁ h₂ => h₁.trans h₂

theorem le_total_bool (a b : α) : le f a b || le f b a := by
  simpa [le] using le_total (f a) (f b)

theorem sorted_mergeSort (l : List α) : Sorted f (l.mergeSort (le f)) := by
  have h : (l.mergeSort (le f)).Pairwise fun a b => le f a b :=
    List.pairwise_mergeSort le_trans_bool le_total_bool l
  exact h.imp fun hab => by simpa [le] using hab

/-- Merge sort keeps the order inside every class of equal keys. -/
theorem filter_mergeSort (l : List α) (k : κ) :
    (l.mergeSort (le f)).filter (fun a => f a = k) = l.filter fun a => f a = k := by
  have hclass : (l.filter fun a => f a = k).Pairwise fun a b => le f a b := by
    refine List.pairwise_of_forall_mem_list fun a ha b hb => ?_
    have ha' : f a = k := by simpa using (List.mem_filter.mp ha).2
    have hb' : f b = k := by simpa using (List.mem_filter.mp hb).2
    simp [le, ha', hb']
  have hsub := List.sublist_mergeSort le_trans_bool le_total_bool hclass List.filter_sublist
  have hsub' := hsub.filter fun a => decide (f a = k)
  rw [List.filter_filter] at hsub'
  simp only [Bool.and_self] at hsub'
  refine (hsub'.eq_of_length ?_).symm
  exact ((List.mergeSort_perm l (le f)).filter _).length_eq.symm

/-- **One more element at the end of the input is placed in the stable sort.** -/
theorem mergeSort_concat (l : List α) (a : α) :
    (l ++ [a]).mergeSort (le f) = place f a (l.mergeSort (le f)) := by
  apply eq_of_sorted_of_filter_eq (sorted_mergeSort _) ((sorted_mergeSort l).place a)
  intro k
  rw [filter_mergeSort, filter_place (sorted_mergeSort l), List.filter_append, List.filter_append,
    filter_mergeSort]

end OstepHw.StableSort
