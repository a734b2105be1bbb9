import Mathlib.Data.List.DropRight
import Mathlib.Data.List.TakeWhile

/-!
# Words

The words of a list are its maximal pieces without a separator.

* `words`, `words_append_cons`, `words_of_clear` — splitting at the separators;
* `words_eq_nil_iff` — a list without words;
* `words_dropWhile`, `words_rdropWhile` — separators at the ends do not matter;
* `Gap`, `gap_iff` — there is a separator between two other elements exactly if there are two words.
-/

set_option autoImplicit false

namespace OstepHw.Words

variable {α : Type} {p : α → Bool} {s t : List α}

/-- The pieces between the separators `p` that are not empty. -/
def words (p : α → Bool) (s : List α) : List (List α) := (s.splitOnP p).filter fun w => !w.isEmpty

theorem words_nil : words p [] = [] := by
  rw [words, List.splitOnP_nil]
  rfl

/-- The words before and the words after a separator. -/
theorem words_append_cons (s t : List α) {c : α} (hc : p c) : words p (s ++ c :: t) = words p s ++ words p t := by
  rw [words, List.splitOnP_append_cons s t hc, List.filter_append]
  rfl

theorem words_cons {c : α} (hc : p c) (s : List α) : words p (c :: s) = words p s :=
  words_append_cons [] s hc

theorem words_of_clear (hclear : ∀ c ∈ s, p c = false) : words p s = if s = [] then [] else [s] := by
  rw [words, List.splitOnP_eq_singleton hclear]
  cases s <;> rfl

/-- A list without separators is one word. -/
theorem words_token (hne : s ≠ []) (hclear : ∀ c ∈ s, p c = false) : words p s = [s] := by
  rw [words_of_clear hclear, if_neg hne]

theorem words_of_all (hall : ∀ c ∈ s, p c) : words p s = [] := by
  induction s with
  | nil => exact words_nil
  | cons c s ih =>
    rw [words_cons (hall c List.mem_cons_self)]
    exact ih fun d hd => hall d (List.mem_cons_of_mem c hd)

/-- Either there is no separator, or the list splits at the first one. -/
theorem clear_or_split (p : α → Bool) (s : List α) :
    (∀ c ∈ s, p c = false) ∨ ∃ u c t, s = u ++ c :: t ∧ (∀ d ∈ u, p d = false) ∧ p c = true := by
  induction s with
  | nil => exact .inl fun c hc => absurd hc List.not_mem_nil
  | cons c s ih =>
    by_cases hc : p c = true
    · exact .inr ⟨[], c, s, rfl, fun d hd => absurd hd List.not_mem_nil, hc⟩
    · rw [Bool.not_eq_true] at hc
      rcases ih with hclear | ⟨u, d, t, rfl, hu, hd⟩
      · exact .inl (List.forall_mem_cons.2 ⟨hc, hclear⟩)
      · exact .inr ⟨c :: u, d, t, rfl, List.forall_mem_cons.2 ⟨hc, hu⟩, hd⟩

/-- The words of a list are made of its elements and have no separators. -/
theorem of_mem_words {w : List α} (hw : w ∈ words p s) : w ≠ [] ∧ (∀ c ∈ w, c ∈ s) ∧ ∀ c ∈ w, p c = false := by
  induction hlen : s.length using Nat.strong_induction_on generalizing s with
  | _ n ih =>
    rcases clear_or_split p s with hclear | ⟨u, c, t, rfl, hu, hc⟩
    · rw [words_of_clear hclear] at hw
      split at hw
      · exact absurd hw List.not_mem_nil
      · next hne =>
        rw [List.mem_singleton] at hw
        subst hw
        exact ⟨hne, fun _ h => h, hclear⟩
    · rw [words_append_cons u t hc, List.mem_append, words_of_clear hu] at hw
      rcases hw with hw | hw
      · split at hw
        · exact absurd hw List.not_mem_nil
        · next hne =>
          rw [List.mem_singleton] at hw
          subst hw
          exact ⟨hne, fun d hd => List.mem_append_left _ hd, hu⟩
      · have hshort : t.length < n := by
          rw [← hlen, List.length_append, List.length_cons]
          omega
        obtain ⟨hne, hmem, hclear⟩ := ih t.length hshort hw rfl
        exact ⟨hne, fun d hd => List.mem_append_right u (List.mem_cons_of_mem c (hmem d hd)), hclear⟩

/-- A list without words consists of separators. -/
theorem words_eq_nil_iff : words p s = [] ↔ ∀ c ∈ s, p c := by
  refine ⟨fun hnil c hc => ?_, words_of_all⟩
  by_contra hpc
  induction hlen : s.length using Nat.strong_induction_on generalizing s with
  | _ n ih =>
    rcases clear_or_split p s with hclear | ⟨u, d, t, rfl, hu, hd⟩
    · rw [words_token (List.ne_nil_of_mem hc) hclear] at hnil
      cases hnil
    · rw [words_append_cons u t hd, List.append_eq_nil_iff] at hnil
      rcases List.mem_append.1 hc with hcu | hct
      · rw [words_token (List.ne_nil_of_mem hcu) hu] at hnil
        cases hnil.1
      · rcases List.mem_cons.1 hct with rfl | hct
        · exact hpc hd
        · refine ih t.length ?_ hnil.2 hct rfl
          rw [← hlen, List.length_append, List.length_cons]
          omega

/-! ## The ends -/

theorem words_append_of_all (hall : ∀ c ∈ s, p c) (t : List α) : words p (s ++ t) = words p t := by
  induction s with
  | nil => rfl
  | cons c s ih =>
    rw [List.cons_append, words_cons (hall c List.mem_cons_self)]
    exact ih fun d hd => hall d (List.mem_cons_of_mem c hd)

theorem words_dropWhile (p : α → Bool) (s : List α) : words p (s.dropWhile p) = words p s := by
  have hblank : ∀ c ∈ s.takeWhile p, p c := fun c hc => List.mem_takeWhile_imp hc
  rw [← words_append_of_all hblank (s.dropWhile p), List.takeWhile_append_dropWhile]

theorem words_append_all (s : List α) (hall : ∀ c ∈ t, p c) : words p (s ++ t) = words p s := by
  cases t with
  | nil => rw [List.append_nil]
  | cons c t =>
    rw [words_append_cons s t (hall c List.mem_cons_self),
      words_of_all fun d hd => hall d (List.mem_cons_of_mem c hd), List.append_nil]

theorem words_rdropWhile (p : α → Bool) (s : List α) : words p (s.rdropWhile p) = words p s := by
  have hblank : ∀ c ∈ s.rtakeWhile p, p c := fun c hc => List.mem_rtakeWhile_imp hc
  rw [← words_append_all (s.rdropWhile p) hblank, List.rdropWhile_append_rtakeWhile]

/-- Nothing is lost when more comes behind. -/
theorem length_words_le_append (s t : List α) : (words p s).length ≤ (words p (s ++ t)).length := by
  induction hlen : s.length using Nat.strong_induction_on generalizing s with
  | _ n ih =>
    rcases clear_or_split p s with hclear | ⟨u, c, r, rfl, hu, hc⟩
    · by_cases hnil : s = []
      · rw [hnil, words_nil]
        exact Nat.zero_le _
      · have hword : words p (s ++ t) ≠ [] := fun h => by
          obtain ⟨c, s, rfl⟩ := List.exists_cons_of_ne_nil hnil
          have hc := words_eq_nil_iff.1 h c List.mem_cons_self
          rw [hclear c List.mem_cons_self] at hc
          cases hc
        rw [words_token hnil hclear]
        exact List.length_pos_iff.2 hword
    · have hshort : r.length < n := by
        rw [← hlen, List.length_append, List.length_cons]
        omega
      have hrest := ih r.length hshort r rfl
      rw [List.append_assoc, List.cons_append, words_append_cons u r hc, words_append_cons u (r ++ t) hc,
        List.length_append, List.length_append]
      omega

/-! ## Gaps -/

/-- Separators with another element on either side. -/
def Gap (p : α → Bool) (s : List α) : Prop :=
  ∃ a x b y c, s = a ++ x :: (b ++ y :: c) ∧ p x = false ∧ b ≠ [] ∧ (∀ z ∈ b, p z) ∧ p y = false

/-- A list with a word is separators, the word, and nothing or more that begins with a separator. -/
theorem exists_word (hne : words p s ≠ []) :
    ∃ a w r, s = a ++ (w ++ r) ∧ (∀ c ∈ a, p c) ∧ w ≠ [] ∧ (∀ c ∈ w, p c = false) ∧
      (r = [] ∨ ∃ c t, r = c :: t ∧ p c = true) := by
  obtain ⟨w, hw⟩ : ∃ w, s.dropWhile p = w := ⟨_, rfl⟩
  refine ⟨s.takeWhile p, w.takeWhile (fun c => !p c), w.dropWhile (fun c => !p c), ?_,
    fun c hc => List.mem_takeWhile_imp hc, ?_, fun c hc => by simpa using List.mem_takeWhile_imp hc, ?_⟩
  · rw [List.takeWhile_append_dropWhile, ← hw, List.takeWhile_append_dropWhile]
  · have hhead := List.head?_dropWhile_not p s
    rw [← words_dropWhile, hw] at hne
    rw [hw] at hhead
    cases w with
    | nil => exact absurd words_nil hne
    | cons c w =>
      rw [List.takeWhile_cons_of_pos (by simpa using hhead)]
      exact List.cons_ne_nil _ _
  · have hhead := List.head?_dropWhile_not (fun c => !p c) w
    cases hr : w.dropWhile (fun c => !p c) with
    | nil => exact .inl rfl
    | cons c t =>
      rw [hr] at hhead
      exact .inr ⟨c, t, rfl, by simpa using hhead⟩

theorem gap_iff : Gap p s ↔ 2 ≤ (words p s).length := by
  constructor
  · rintro ⟨a, x, b, y, c, rfl, hx, hb, hall, hy⟩
    obtain ⟨z, b, rfl⟩ := List.exists_cons_of_ne_nil hb
    have hsplit : a ++ x :: (z :: b ++ y :: c) = a ++ [x] ++ z :: (b ++ y :: c) := by simp
    have hleft : words p (a ++ [x]) ≠ [] := fun hnil => by
      rw [words_eq_nil_iff.1 hnil x (by simp)] at hx
      cases hx
    have hright : words p (b ++ y :: c) ≠ [] := fun hnil => by
      rw [words_eq_nil_iff.1 hnil y (by simp)] at hy
      cases hy
    rw [hsplit, words_append_cons _ _ (hall z List.mem_cons_self), List.length_append]
    have := List.length_pos_iff.2 hleft
    have := List.length_pos_iff.2 hright
    omega
  · intro htwo
    have hne : words p s ≠ [] := fun hnil => by
      rw [hnil] at htwo
      simp at htwo
    obtain ⟨a, w, r, rfl, ha, hw, hclear, rfl | ⟨z, t, rfl, hz⟩⟩ := exists_word hne
    · rw [words_append_of_all ha, List.append_nil, words_token hw hclear] at htwo
      simp at htwo
    · rw [words_append_of_all ha, words_append_cons _ _ hz, words_token hw hclear, List.length_append,
        List.length_singleton] at htwo
      have ht : words p t ≠ [] := fun hnil => by
        rw [hnil] at htwo
        simp at htwo
      obtain ⟨b, v, r, rfl, hb, hv, hvclear, -⟩ := exists_word ht
      obtain ⟨y, v, rfl⟩ := List.exists_cons_of_ne_nil hv
      refine ⟨a ++ w.dropLast, w.getLast hw, z :: b, y, v ++ r, ?_, hclear _ (List.getLast_mem hw),
        List.cons_ne_nil _ _, List.forall_mem_cons.2 ⟨hz, hb⟩, hvclear y List.mem_cons_self⟩
      have hlast : w.dropLast ++ [w.getLast hw] = w := List.dropLast_append_getLast hw
      calc a ++ (w ++ z :: (b ++ (y :: v ++ r)))
          = a ++ (w.dropLast ++ [w.getLast hw] ++ z :: (b ++ (y :: v ++ r))) := by rw [hlast]
        _ = a ++ w.dropLast ++ w.getLast hw :: (z :: b ++ y :: (v ++ r)) := by simp

/-! ## Trimming -/

theorem trim_token (hclear : ∀ c ∈ s, p c = false) : (s.dropWhile p).rdropWhile p = s := by
  cases s with
  | nil => rfl
  | cons c s =>
    rw [List.dropWhile_cons_of_neg (by rw [hclear c List.mem_cons_self]; exact Bool.false_ne_true),
      List.rdropWhile_eq_self_iff]
    intro hne
    rw [hclear _ (List.getLast_mem hne)]
    exact Bool.false_ne_true

/-- What is left of one word with separators around it. -/
theorem trim_of_words_eq {w : List α} (hw : words p s = [w]) : (s.dropWhile p).rdropWhile p = w := by
  obtain ⟨a, v, r, rfl, ha, hv, hclear, hr⟩ := exists_word (show words p s ≠ [] by rw [hw]; exact List.cons_ne_nil _ _)
  have hboth : v = w ∧ ∀ c ∈ r, p c := by
    rcases hr with rfl | ⟨c, t, rfl, hc⟩
    · rw [words_append_of_all ha, List.append_nil, words_token hv hclear, List.singleton_inj] at hw
      exact ⟨hw, fun c hc => absurd hc List.not_mem_nil⟩
    · rw [words_append_of_all ha, words_append_cons _ _ hc, words_token hv hclear, List.singleton_append,
        List.cons.injEq, words_eq_nil_iff] at hw
      exact ⟨hw.1, List.forall_mem_cons.2 ⟨hc, hw.2⟩⟩
  obtain ⟨rfl, hblank⟩ := hboth
  have hfront : (a ++ (v ++ r)).dropWhile p = v ++ r := by
    rw [List.dropWhile_append_of_pos ha]
    obtain ⟨c, v, rfl⟩ := List.exists_cons_of_ne_nil hv
    exact List.dropWhile_cons_of_neg (by rw [hclear c List.mem_cons_self]; exact Bool.false_ne_true)
  have hback : (v ++ r).rdropWhile p = v.rdropWhile p := by
    rw [List.rdropWhile, List.reverse_append, List.dropWhile_append_of_pos fun c hc => hblank c (List.mem_reverse.1 hc),
      ← List.rdropWhile]
  rw [hfront, hback, List.rdropWhile_eq_self_iff]
  intro hne
  rw [hclear _ (List.getLast_mem hne)]
  exact Bool.false_ne_true

theorem trim_of_words_nil (hnil : words p s = []) : (s.dropWhile p).rdropWhile p = [] := by
  have hall := words_eq_nil_iff.1 hnil
  rw [List.dropWhile_eq_nil_iff.2 hall]
  rfl

end OstepHw.Words
