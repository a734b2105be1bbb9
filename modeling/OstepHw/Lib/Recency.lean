import Mathlib.Algebra.Ring.Int.Defs
import Mathlib.Algebra.Ring.Nat
import Mathlib.Data.Finset.Dedup
import Mathlib.Data.List.DropRight
import OstepHw.Lib.Paging

/-!
# Caches as queues

A cache of at most `c` pages is a list.  A page that is brought in goes to its end, and in a full cache the first
page leaves.  On a hit, `fifo` leaves the queue as it is and `lru` moves the page to its end.

* `lru_eq_rtake` — `lru` holds the last `c` of the pages in the order of their last reference (`List.dedup`), so
  that a larger cache holds all that a smaller one holds (`lru_suffix`) and `mem_lru_iff` says which references hit;
* `misses_le` — a queue misses at most `c` times as often as any demand paging with `c` places.  The potential
  behind it charges a page that the other cache does not hold with the number of misses it will survive.
-/

set_option autoImplicit false

namespace OstepHw.Recency

open Paging

variable {Page : Type*} [DecidableEq Page]

/-- A page that was missed is brought in. -/
def bring (c : Nat) (mem : List Page) (r : Page) : List Page := (if mem.length = c then mem.tail else mem) ++ [r]

def fifo (c : Nat) (mem : List Page) (r : Page) : List Page := if r ∈ mem then mem else bring c mem r

def lru (c : Nat) (mem : List Page) (r : Page) : List Page := if r ∈ mem then mem.erase r ++ [r] else bring c mem r

/-- How many of the references miss. -/
def misses (step : List Page → Page → List Page) : List Page → List Page → Nat
  | _, [] => 0
  | mem, r :: refs => (if r ∈ mem then 0 else 1) + misses step (step mem r) refs

/-! ## The order of last reference -/

theorem dedup_concat (l : List Page) (r : Page) : (l ++ [r]).dedup = l.dedup.erase r ++ [r] := by
  induction l with
  | nil => simp
  | cons x l ih =>
    rw [List.cons_append]
    by_cases hxl : x ∈ l
    · rw [List.dedup_cons_of_mem (by simp [hxl]), List.dedup_cons_of_mem hxl, ih]
    · rw [List.dedup_cons_of_notMem hxl]
      by_cases hxr : x = r
      · subst hxr
        rw [List.dedup_cons_of_mem (by simp), ih, List.erase_cons_head,
          List.erase_of_not_mem (by simpa using hxl)]
      · rw [List.dedup_cons_of_notMem (by simp [hxl, hxr]), ih, List.erase_cons_tail (by simpa using hxr),
          List.cons_append]

omit [DecidableEq Page] in
/-- The last `c` of a list that has `b` as its end. -/
theorem rtake_append {a b : List Page} {c : Nat} (hb : b.length ≤ c) (ha : a = [] ∨ b.length = c) :
    (a ++ b).rtake c = b := by
  rw [List.rtake]
  rcases ha with rfl | hc
  · simp [Nat.sub_eq_zero_of_le hb]
  · simp [← hc]

/-- One step of `lru` on the last `c` of a list is a step of the unbounded list. -/
theorem lru_rtake {l : List Page} (hl : l.Nodup) {c : Nat} (hc : 0 < c) (r : Page) :
    lru c (l.rtake c) r = (l.erase r ++ [r]).rtake c := by
  obtain ⟨a, b, rfl, hb, ha⟩ : ∃ a b, l = a ++ b ∧ b.length ≤ c ∧ (a = [] ∨ b.length = c) := by
    refine ⟨l.take (l.length - c), l.drop (l.length - c), (List.take_append_drop _ l).symm, ?_, ?_⟩
    · rw [List.length_drop]
      omega
    · by_cases h : l.length ≤ c
      · left
        simp [Nat.sub_eq_zero_of_le h]
      · right
        rw [List.length_drop]
        omega
  rw [rtake_append hb ha, lru]
  by_cases hrb : r ∈ b
  · have hra : r ∉ a := fun h => (List.disjoint_of_nodup_append hl) h hrb
    have hlen : (b.erase r ++ [r]).length = b.length := by
      have := List.length_pos_of_mem hrb
      rw [List.length_append, List.length_erase_of_mem hrb, List.length_singleton]
      omega
    rw [if_pos hrb, List.erase_append_right _ hra, List.append_assoc, rtake_append (hlen ▸ hb) (hlen ▸ ha)]
  · have herase : (a ++ b).erase r = a.erase r ++ b := by
      by_cases hra : r ∈ a
      · exact List.erase_append_left _ hra
      · rw [List.erase_of_not_mem hra, List.erase_of_not_mem (by simp [hra, hrb])]
    rw [if_neg hrb, herase, bring]
    by_cases hfull : b.length = c
    · obtain ⟨x, b, rfl⟩ := List.exists_cons_of_length_pos (hfull ▸ hc : 0 < b.length)
      have hlen : (b ++ [r]).length = c := by simpa using hfull
      rw [if_pos hfull, List.tail_cons,
        show a.erase r ++ x :: b ++ [r] = (a.erase r ++ [x]) ++ (b ++ [r]) by simp,
        rtake_append (Nat.le_of_eq hlen) (Or.inr hlen)]
    · have hnil : a = [] := ha.resolve_right hfull
      subst hnil
      have hlen : (b ++ [r]).length ≤ c := by
        rw [List.length_append, List.length_singleton]
        omega
      rw [if_neg hfull]
      simpa using (rtake_append (a := []) hlen (Or.inl rfl)).symm

/-- **`lru` holds the pages whose last references are the latest, in this order.** -/
theorem lru_eq_rtake {c : Nat} (hc : 0 < c) (refs : List Page) : refs.foldl (lru c) [] = refs.dedup.rtake c := by
  induction refs using List.reverseRecOn with
  | nil => simp
  | append_singleton refs r ih =>
    rw [List.foldl_append, List.foldl_cons, List.foldl_nil, ih, lru_rtake (List.nodup_dedup refs) hc,
      dedup_concat]

/-- What a cache holds, a larger one holds. -/
theorem lru_suffix {c c' : Nat} (hc : 0 < c) (hle : c ≤ c') (refs : List Page) :
    refs.foldl (lru c) [] <:+ refs.foldl (lru c') [] := by
  rw [lru_eq_rtake hc, lru_eq_rtake (Nat.lt_of_lt_of_le hc hle)]
  exact List.drop_suffix_drop_left _ (by omega)

theorem dedup_append_cons {a b : List Page} {r : Page} (hr : r ∉ b) :
    ∃ a' : List Page, r ∉ a' ∧ (a ++ r :: b).dedup = a' ++ r :: b.dedup := by
  induction a with
  | nil => exact ⟨[], List.not_mem_nil, by rw [List.nil_append, List.dedup_cons_of_notMem hr]; rfl⟩
  | cons x a ih =>
    obtain ⟨a', hra', ha'⟩ := ih
    rw [List.cons_append]
    by_cases hx : x ∈ a ++ r :: b
    · exact ⟨a', hra', by rw [List.dedup_cons_of_mem hx, ha']⟩
    · refine ⟨x :: a', ?_, by rw [List.dedup_cons_of_notMem hx, ha', List.cons_append]⟩
      have hxr : r ≠ x := fun h => hx (by simp [h])
      simp [hxr, hra']

/-- **A page is in the cache iff fewer than `c` other pages have been referenced since.** -/
theorem mem_lru_iff {c : Nat} (hc : 0 < c) {a b : List Page} {r : Page} (hr : r ∉ b) :
    r ∈ (a ++ r :: b).foldl (lru c) [] ↔ b.toFinset.card < c := by
  obtain ⟨a', hra', ha'⟩ := dedup_append_cons (a := a) hr
  rw [lru_eq_rtake hc, ha', List.card_toFinset, List.rtake]
  have hrb : r ∉ b.dedup := by simpa using hr
  generalize b.dedup = d at hrb
  by_cases hlt : d.length < c
  · have hsplit : (a' ++ r :: d).length - c ≤ a'.length := by
      rw [List.length_append, List.length_cons]
      omega
    rw [List.drop_append_of_le_length hsplit]
    simp [hlt]
  · have hsplit : (a' ++ r :: d).length - c = a'.length + (d.length + 1 - c) := by
      rw [List.length_append, List.length_cons]
      omega
    rw [hsplit, List.drop_length_add_append]
    obtain ⟨k, hk⟩ : ∃ k, d.length + 1 - c = k + 1 := ⟨d.length - c, by omega⟩
    rw [hk, List.drop_succ_cons]
    simp only [hlt, iff_false]
    exact fun h => hrb (List.mem_of_mem_drop h)

/-- A larger cache misses no more often, whatever has been referenced before. -/
theorem misses_lru_anti {c c' : Nat} (hc : 0 < c) (hle : c ≤ c') (refs before : List Page) :
    misses (lru c') (before.foldl (lru c') []) refs ≤ misses (lru c) (before.foldl (lru c) []) refs := by
  induction refs generalizing before with
  | nil => exact Nat.le_refl 0
  | cons r refs ih =>
    have hlater := ih (before ++ [r])
    simp only [List.foldl_append, List.foldl_cons, List.foldl_nil] at hlater
    have hhit : r ∈ before.foldl (lru c) [] → r ∈ before.foldl (lru c') [] :=
      fun h => (lru_suffix hc hle before).subset h
    simp only [misses]
    split <;> split <;> first | omega | exact absurd (hhit ‹_›) ‹_›

/-! ## Against another cache of the same size -/

/-- What `fifo` and `lru` have in common. -/
structure Ages (c : Nat) (step : List Page → Page → List Page) : Prop where
  hit : ∀ mem r, r ∈ mem → step mem r = mem ∨ step mem r = mem.erase r ++ [r]
  miss : ∀ mem r, r ∉ mem → step mem r = bring c mem r

theorem ages_fifo (c : Nat) : Ages c (fifo c : List Page → Page → List Page) where
  hit _ _ h := Or.inl (if_pos h)
  miss _ _ h := if_neg h

theorem ages_lru (c : Nat) : Ages c (lru c : List Page → Page → List Page) where
  hit _ _ h := Or.inr (if_pos h)
  miss _ _ h := if_neg h

/-- The potential: a page that the cache `O` does not hold counts for the misses after which it will have left. -/
def potential (c : Nat) (O : Finset Page) : List Page → Nat
  | [] => 0
  | x :: mem => (if x ∈ O then 0 else c - mem.length) + potential c O mem

/-- How many pages the cache `O` does not hold. -/
def lacking (O : Finset Page) (mem : List Page) : Nat := mem.countP fun x => x ∉ O

theorem lacking_pos {O : Finset Page} {mem : List Page} {r : Page} (hr : r ∈ O) (hmem : r ∉ mem)
    (hnodup : mem.Nodup) (hcard : O.card ≤ mem.length) : 0 < lacking O mem := by
  obtain ⟨x, hx, hxO⟩ : ∃ x ∈ mem, x ∉ O := by
    by_contra hall
    push Not at hall
    have hsub : insert r mem.toFinset ⊆ O :=
      Finset.insert_subset hr fun x hx => hall x (List.mem_toFinset.1 hx)
    have := Finset.card_le_card hsub
    rw [Finset.card_insert_of_notMem (by simpa using hmem), List.toFinset_card_of_nodup hnodup] at this
    omega
  exact List.countP_pos_iff.2 ⟨x, hx, by simpa using hxO⟩

/-- A miss in a cache with room brings all pages one miss closer to the exit. -/
theorem potential_concat {c : Nat} {O : Finset Page} {r : Page} (hr : r ∈ O) :
    ∀ mem : List Page, mem.length < c → potential c O (mem ++ [r]) + lacking O mem = potential c O mem
  | [], _ => by simp [potential, lacking, hr]
  | x :: mem, h => by
    have hlen : mem.length + 1 < c := h
    have ih := potential_concat (c := c) hr mem (by omega)
    by_cases hx : x ∈ O
    · simpa [potential, lacking, hx] using ih
    · simp only [lacking] at ih
      simp only [List.cons_append, potential, lacking, hx, if_false, List.length_append, List.length_singleton,
        List.countP_cons, not_false_eq_true, decide_true, if_true]
      omega

/-- A miss lowers the potential by the number of pages that the other cache does not hold. -/
theorem potential_bring {c : Nat} {O : Finset Page} {r : Page} {mem : List Page} (hr : r ∈ O) (hc : 0 < c)
    (hlen : mem.length ≤ c) : potential c O (bring c mem r) + lacking O mem = potential c O mem := by
  by_cases hfull : mem.length = c
  · obtain ⟨x, mem, rfl⟩ := List.exists_cons_of_length_pos (hfull ▸ hc : 0 < mem.length)
    have hrest : mem.length + 1 = c := hfull
    have ih := potential_concat (c := c) hr mem (by omega)
    rw [bring, if_pos hfull, List.tail_cons]
    by_cases hx : x ∈ O
    · simpa [potential, lacking, hx] using ih
    · simp only [lacking] at ih
      simp only [potential, lacking, hx, if_false, List.countP_cons, not_false_eq_true, decide_true, if_true]
      omega
  · rw [bring, if_neg hfull]
    exact potential_concat hr mem (by omega)

theorem potential_concat_le {c : Nat} {O : Finset Page} {r : Page} (hr : r ∈ O) :
    ∀ mem : List Page, potential c O (mem ++ [r]) ≤ potential c O mem
  | [] => by simp [potential, hr]
  | x :: mem => by
    have ih := potential_concat_le (c := c) hr mem
    simp only [List.cons_append, potential, List.length_append, List.length_singleton]
    split <;> omega

/-- A page of both caches that moves to the end does not raise the potential. -/
theorem potential_erase_concat_le {c : Nat} {O : Finset Page} {r : Page} (hr : r ∈ O) :
    ∀ {mem : List Page}, r ∈ mem → potential c O (mem.erase r ++ [r]) ≤ potential c O mem
  | x :: mem, h => by
    by_cases hx : x = r
    · subst hx
      have := potential_concat_le (c := c) hr mem
      rw [List.erase_cons_head]
      simp only [potential]
      omega
    · have hmem : r ∈ mem := (List.mem_cons.1 h).resolve_left (Ne.symm hx)
      have ih := potential_erase_concat_le (c := c) hr hmem
      have hlen := List.length_erase_of_mem hmem
      have := List.length_pos_of_mem hmem
      rw [List.erase_cons_tail (by simpa using hx), List.cons_append]
      simp only [potential, List.length_append, List.length_singleton]
      split <;> omega

/-- A page that enters the other cache does not raise the potential. -/
theorem potential_anti {c : Nat} {O O' : Finset Page} (hO : O ⊆ O') :
    ∀ mem : List Page, potential c O' mem ≤ potential c O mem
  | [] => Nat.le_refl 0
  | x :: mem => by
    have ih := potential_anti (c := c) hO mem
    simp only [potential]
    by_cases hx : x ∈ O
    · rw [if_pos hx, if_pos (hO hx)]
      omega
    · rw [if_neg hx]
      split <;> omega

/-- A page that leaves the other cache raises the potential by at most `c`. -/
theorem potential_erase_le {c : Nat} {O : Finset Page} {p : Page} :
    ∀ {mem : List Page}, mem.Nodup → potential c (O.erase p) mem ≤ potential c O mem + c
  | [], _ => Nat.zero_le _
  | x :: mem, h => by
    have hmem : mem.Nodup := h.of_cons
    have ih := potential_erase_le (c := c) (O := O) (p := p) hmem
    simp only [potential]
    by_cases hx : x = p
    · -- the page occurs once, so the others count as before
      subst hx
      have hrest : potential c (O.erase x) mem = potential c O mem :=
        potential_congr fun y hy => by simp [show y ≠ x from fun h' => (List.nodup_cons.1 h).1 (h' ▸ hy)]
      rw [hrest, if_neg (Finset.notMem_erase x O)]
      omega
    · simp only [Finset.mem_erase, ne_eq, hx, not_false_eq_true, true_and]
      omega
where
  potential_congr {c : Nat} {O O' : Finset Page} :
      ∀ {mem : List Page}, (∀ y ∈ mem, y ∈ O ↔ y ∈ O') → potential c O mem = potential c O' mem
    | [], _ => rfl
    | y :: mem, h => by
      simp only [potential, h y List.mem_cons_self, potential_congr fun z hz => h z (List.mem_cons_of_mem y hz)]

/-- What a queue keeps: no page twice, at most `c` of them, and while there is room it holds all that the other
cache holds. -/
structure Kept (c : Nat) (O : Finset Page) (mem : List Page) : Prop where
  nodup : mem.Nodup
  length_le : mem.length ≤ c
  covers : mem.length < c → ∀ x ∈ O, x ∈ mem

variable {c : Nat} {O O' : Finset Page} {mem : List Page} {r : Page} {step : List Page → Page → List Page}

theorem Kept.hit (h : Kept c O mem) (hages : Ages c step) (hr : r ∈ mem) (hO : ∀ x ∈ O', x = r ∨ x ∈ O) :
    Kept c O' (step mem r) := by
  have hO' (hlt : mem.length < c) (x : Page) (hx : x ∈ O') : x ∈ mem := by
    rcases hO x hx with rfl | hx
    · exact hr
    · exact h.covers hlt x hx
  rcases hages.hit mem r hr with hstep | hstep
  · rw [hstep]
    exact ⟨h.nodup, h.length_le, hO'⟩
  · have hperm : (mem.erase r ++ [r]).Perm mem :=
      (List.perm_append_singleton r _).trans (List.perm_cons_erase hr).symm
    rw [hstep]
    refine ⟨hperm.nodup_iff.2 h.nodup, hperm.length_eq ▸ h.length_le, fun hlt x hx => ?_⟩
    exact hperm.mem_iff.2 (hO' (hperm.length_eq ▸ hlt) x hx)

theorem Kept.miss (h : Kept c O mem) (hages : Ages c step) (hc : 0 < c) (hr : r ∉ mem)
    (hO : ∀ x ∈ O', x = r ∨ x ∈ O) : Kept c O' (step mem r) := by
  rw [hages.miss mem r hr, bring]
  by_cases hfull : mem.length = c
  · have hlen := h.length_le
    rw [if_pos hfull]
    refine ⟨?_, ?_, ?_⟩
    · exact List.nodup_append.2 ⟨h.nodup.tail, List.nodup_singleton r, by
        intro a ha b hb hab
        rw [List.mem_singleton] at hb
        exact hr (hb ▸ hab ▸ List.mem_of_mem_tail ha)⟩
    · rw [List.length_append, List.length_tail, List.length_singleton]
      omega
    · intro hlt
      rw [List.length_append, List.length_tail, List.length_singleton] at hlt
      omega
  · have hlt := Nat.lt_of_le_of_ne h.length_le hfull
    rw [if_neg hfull]
    refine ⟨?_, ?_, ?_⟩
    · exact List.nodup_append.2 ⟨h.nodup, List.nodup_singleton r, by
        intro a ha b hb hab
        rw [List.mem_singleton] at hb
        exact hr (hb ▸ hab ▸ ha)⟩
    · rw [List.length_append, List.length_singleton]
      omega
    · intro _ x hx
      rcases hO x hx with rfl | hx
      · simp
      · simp [h.covers hlt x hx]

/-- What a reference that the other cache holds costs a queue that holds it or is full. -/
theorem Kept.cost (h : Kept c O mem) (hages : Ages c step) (hc : 0 < c) (hr : r ∈ O') (hcard : O'.card ≤ c)
    (hfull : r ∈ mem ∨ mem.length = c) :
    (if r ∈ mem then 0 else 1) + potential c O' (step mem r) ≤ potential c O' mem := by
  by_cases hmem : r ∈ mem
  · rw [if_pos hmem, Nat.zero_add]
    rcases hages.hit mem r hmem with hstep | hstep
    · rw [hstep]
    · rw [hstep]
      exact potential_erase_concat_le hr hmem
  · have hpos := lacking_pos hr hmem h.nodup (hfull.resolve_left hmem ▸ hcard)
    have hbring := potential_bring hr hc h.length_le
    rw [if_neg hmem, hages.miss mem r hmem]
    omega

/-- The same for a queue that misses and has room. -/
theorem Kept.cost_room (h : Kept c O mem) (hages : Ages c step) (hr : r ∈ O') (hmem : r ∉ mem)
    (hroom : mem.length < c) :
    (if r ∈ mem then 0 else 1) + potential c O' (step mem r) ≤ c + potential c O' mem := by
  have hbring := potential_bring hr (Nat.zero_lt_of_lt hroom) h.length_le
  rw [if_neg hmem, hages.miss mem r hmem]
  omega

theorem Kept.refer (h : Kept c O mem) (hages : Ages c step) (hc : 0 < c) (hO : ∀ x ∈ O', x = r ∨ x ∈ O) :
    Kept c O' (step mem r) := by
  by_cases hr : r ∈ mem
  · exact h.hit hages hr hO
  · exact h.miss hages hc hr hO

/-- **A queue misses at most `c` times as often as any demand paging with `c` places.** -/
theorem misses_le (hages : Ages c step) (hc : 0 < c) {rule : Finset Page → List Page → Page → Prop}
    {refs : List Page} {m : Nat} (hdemand : Demand rule c O refs m) :
    ∀ {mem : List Page}, Kept c O mem → O.card ≤ c → misses step mem refs ≤ c * m + potential c O mem := by
  induction hdemand with
  | done => exact fun _ _ => Nat.zero_le _
  | @hit O r refs m held _ ih =>
    intro mem h hcard
    have hfull : r ∈ mem ∨ mem.length = c := by
      by_cases hroom : mem.length < c
      · exact Or.inl (h.covers hroom r held)
      · exact Or.inr (Nat.le_antisymm h.length_le (Nat.le_of_not_lt hroom))
    have hcost := h.cost hages hc held hcard hfull
    have hkept : Kept c O (step mem r) := h.refer hages hc fun x hx => Or.inr hx
    have := ih hkept hcard
    simp only [misses]
    omega
  | @fill O r refs m missed room _ ih =>
    intro mem h hcard
    have hr : r ∈ insert r O := Finset.mem_insert_self r O
    have hcard' : (insert r O).card ≤ c := by
      rw [Finset.card_insert_of_notMem missed]
      exact room
    have hanti := potential_anti (c := c) (Finset.subset_insert r O) mem
    have hcost : (if r ∈ mem then 0 else 1) + potential c (insert r O) (step mem r) ≤
        c + potential c (insert r O) mem := by
      by_cases hfull : r ∈ mem ∨ mem.length = c
      · have := h.cost hages hc hr hcard' hfull
        omega
      · have hne := not_or.1 hfull
        exact h.cost_room hages hr hne.1 (Nat.lt_of_le_of_ne h.length_le hne.2)
    have := ih (h.refer hages hc fun x hx => Finset.mem_insert.1 hx) hcard'
    simp only [misses]
    rw [Nat.mul_succ]
    omega
  | @replace O r p refs m missed full held _ _ ih =>
    intro mem h hcard
    have hr : r ∈ insert r (O.erase p) := Finset.mem_insert_self r _
    have hcard' : (insert r (O.erase p)).card ≤ c := by rw [card_replace missed held, full]
    have hraise : potential c (insert r (O.erase p)) mem ≤ potential c O mem + c :=
      Nat.le_trans (potential_anti (Finset.subset_insert r _) mem) (potential_erase_le h.nodup)
    have hfull : r ∈ mem ∨ mem.length = c := by
      by_contra hnone
      have hne := not_or.1 hnone
      have hroom := Nat.lt_of_le_of_ne h.length_le hne.2
      have hsub : O ⊆ mem.toFinset := fun x hx => List.mem_toFinset.2 (h.covers hroom x hx)
      have := Finset.card_le_card hsub
      rw [List.toFinset_card_of_nodup h.nodup] at this
      omega
    have hcost := h.cost hages hc hr hcard' hfull
    have hO : ∀ x ∈ insert r (O.erase p), x = r ∨ x ∈ O := fun x hx =>
      (Finset.mem_insert.1 hx).imp id Finset.mem_of_mem_erase
    have := ih (h.refer hages hc hO) hcard'
    simp only [misses]
    rw [Nat.mul_succ]
    omega

end OstepHw.Recency
