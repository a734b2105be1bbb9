import Mathlib.Dynamics.PeriodicPts.Defs
import Mathlib.Order.Filter.AtTopBot.Basic

/-!
# Climbing towards a root

Every node has a parent, the root is its own parent.  A search that begins at the parent of `leaf`
climbs until the next parent is the root (`home`) or it meets `leaf` again (`back`).  It keeps no
record of the nodes it has passed, so on a cycle without `leaf` it goes round for ever (`lost` for
every amount of fuel).

* `Rooted` — the chain of parents comes to the root;
* `eventually_home`, `rooted_of_home` — the search comes home iff `leaf` is rooted;
* `eventually_back`, `periodic_of_back` — it comes back iff `leaf` lies on a cycle and is looked for
  before the way up.

The second half is about walks that branch: `Within` bounds the depth of the recursion, `Ends` says
the same without a bound, and on finitely many nodes the two agree (`within_iff_ends`).
-/

set_option autoImplicit false

namespace OstepHw.Climb

variable {α : Type}

/-! ## Parent chains -/

/-- The chain of parents from `a` comes to the root. -/
def Rooted (parent : α → α) (root a : α) : Prop := ∃ m, parent^[m] a = root

theorem Rooted.parent {parent : α → α} {root a : α} (h : Rooted parent root (parent a)) :
    Rooted parent root a := by
  obtain ⟨m, hm⟩ := h
  exact ⟨m + 1, hm⟩

/-- What the search finds. -/
inductive Outcome where
  | home
  | back
  | lost
  deriving DecidableEq, Repr

section

variable [DecidableEq α] (parent : α → α) (root leaf : α) (early : Bool)

/-- The search from `p`, with fuel. It tests for `leaf` before it goes up when `early` holds, and on
its way back otherwise. -/
def climb : Nat → α → Outcome
  | 0, _ => .lost
  | k + 1, p =>
    if p = leaf ∧ early = true then .back
    else
      match (if parent p = root then .home else climb k (parent p)) with
      | .home => if p = leaf then .back else .home
      | o => o

variable {parent root leaf early}

/-- Away from `leaf` the search goes on with the parent. -/
theorem climb_of_ne {k : Nat} {p : α} (hp : p ≠ leaf) :
    climb parent root leaf early (k + 1) p =
      if parent p = root then .home else climb parent root leaf early k (parent p) := by
  rw [climb, if_neg fun h => hp h.1]
  by_cases hr : parent p = root
  · simp only [if_pos hr, if_neg hp]
  · simp only [if_neg hr, if_neg hp]
    cases climb parent root leaf early k (parent p) <;> rfl

/-- A chain that misses `leaf` on its way to the root leads home. -/
theorem climb_home {j : Nat} : ∀ {p : α}, parent^[j + 1] p = root →
    (∀ i ≤ j, parent^[i] p ≠ leaf) → ∀ k, j < k → climb parent root leaf early k p = .home := by
  induction j with
  | zero =>
    intro p hr hne k hk
    obtain ⟨k, rfl⟩ : ∃ k', k = k' + 1 := ⟨k - 1, by omega⟩
    have hp : p ≠ leaf := hne 0 (Nat.le_refl 0)
    rw [climb_of_ne hp, if_pos (show parent p = root from hr)]
  | succ j ih =>
    intro p hr hne k hk
    obtain ⟨k, rfl⟩ : ∃ k', k = k' + 1 := ⟨k - 1, by omega⟩
    have hp : p ≠ leaf := hne 0 (Nat.zero_le _)
    rw [climb_of_ne hp]
    split
    · rfl
    · exact ih hr (fun i hi => hne (i + 1) (by omega)) k (by omega)

/-- A search that comes home has met the root. -/
theorem rooted_of_climb_home {k : Nat} : ∀ {p : α}, climb parent root leaf early k p = .home →
    Rooted parent root p := by
  induction k with
  | zero =>
    intro p h
    cases h
  | succ k ih =>
    intro p h
    by_cases hr : parent p = root
    · exact ⟨1, hr⟩
    · simp only [climb, if_neg hr] at h
      refine Rooted.parent (ih ?_)
      cases hc : climb parent root leaf early k (parent p) with
      | home => rfl
      | back => simp [hc] at h
      | lost =>
        rw [hc] at h
        split at h <;> cases h

/-- A search that comes back has met `leaf`. -/
theorem meets_of_climb_back {k : Nat} : ∀ {p : α}, climb parent root leaf early k p = .back →
    ∃ m, parent^[m] p = leaf := by
  induction k with
  | zero =>
    intro p h
    cases h
  | succ k ih =>
    intro p h
    by_cases hp : p = leaf
    · exact ⟨0, hp⟩
    · rw [climb_of_ne hp] at h
      split at h
      · cases h
      · obtain ⟨m, hm⟩ := ih h
        exact ⟨m + 1, hm⟩

/-- Without the root in reach, and without an early test at `leaf`, the search never ends. -/
theorem climb_lost {k : Nat} : ∀ {p : α}, ¬ Rooted parent root p →
    (early = true → ∀ m, parent^[m] p ≠ leaf) → climb parent root leaf early k p = .lost := by
  induction k with
  | zero => exact fun _ _ => rfl
  | succ k ih =>
    intro p hr hne
    have hup : parent p ≠ root := fun h => hr ⟨1, h⟩
    have hrec : climb parent root leaf early k (parent p) = .lost :=
      ih (fun h => hr h.parent) fun he m => hne he (m + 1)
    rw [climb, if_neg fun h => hne h.2 0 h.1]
    simp only [if_neg hup, hrec]

theorem climb_back {m : Nat} (he : early = true) : ∀ {p : α}, parent^[m] p = leaf →
    ¬ Rooted parent root p → ∀ k, m < k → climb parent root leaf early k p = .back := by
  induction m with
  | zero =>
    intro p hm _ k hk
    obtain ⟨k, rfl⟩ : ∃ k', k = k' + 1 := ⟨k - 1, by omega⟩
    rw [climb, if_pos ⟨hm, he⟩]
  | succ m ih =>
    intro p hm hr k hk
    obtain ⟨k, rfl⟩ : ∃ k', k = k' + 1 := ⟨k - 1, by omega⟩
    by_cases hp : p = leaf
    · rw [climb, if_pos ⟨hp, he⟩]
    · rw [climb_of_ne hp, if_neg (show parent p ≠ root from fun h => hr ⟨1, h⟩)]
      exact ih hm (fun h => hr h.parent) k (by omega)

end

/-! ## The search from the parent of a node -/

section

variable {parent : α → α} {root leaf : α}

/-- A node on a cycle is not rooted, unless it is the root. -/
theorem not_rooted_of_periodic (hroot : parent root = root) (hne : leaf ≠ root)
    (h : leaf ∈ Function.periodicPts parent) : ¬ Rooted parent root leaf := by
  rintro ⟨m, hm⟩
  obtain ⟨n, hn, hper⟩ := h
  have hback : parent^[m * n] leaf = leaf := hper.const_mul m
  have hfix : parent^[m * n - m] root = root := Function.iterate_fixed hroot _
  have hle : m ≤ m * n := Nat.le_mul_of_pos_right m hn
  rw [show m * n = (m * n - m) + m by omega, Function.iterate_add_apply, hm, hfix] at hback
  exact hne hback.symm

theorem periodic_of_meets {m : Nat} (h : parent^[m] (parent leaf) = leaf) :
    leaf ∈ Function.periodicPts parent := ⟨m + 1, Nat.succ_pos m, h⟩

variable [DecidableEq α] {early : Bool}

/-- **Home**: a rooted node is led home by every large enough amount of fuel. -/
theorem eventually_home (hroot : parent root = root) (hne : leaf ≠ root)
    (h : Rooted parent root leaf) :
    ∀ᶠ k in Filter.atTop, climb parent root leaf early k (parent leaf) = .home := by
  have hmiss : ∀ i, parent^[i] (parent leaf) ≠ leaf := fun i hi =>
    not_rooted_of_periodic hroot hne (periodic_of_meets hi) h
  obtain ⟨m, hm⟩ := h
  have hchain : parent^[m + 1] (parent leaf) = root := by
    rw [← Function.iterate_succ_apply, Function.iterate_succ_apply', Function.iterate_succ_apply',
      hm, hroot, hroot]
  exact Filter.eventually_atTop.2 ⟨m + 1, fun k hk => climb_home hchain (fun i _ => hmiss i) k hk⟩

theorem rooted_of_home {k : Nat} (h : climb parent root leaf early k (parent leaf) = .home) :
    Rooted parent root leaf := (rooted_of_climb_home h).parent

/-- **Back**: a node on a cycle that is looked for early is found. -/
theorem eventually_back (hroot : parent root = root) (hne : leaf ≠ root) (he : early = true)
    (h : leaf ∈ Function.periodicPts parent) :
    ∀ᶠ k in Filter.atTop, climb parent root leaf early k (parent leaf) = .back := by
  have hr := not_rooted_of_periodic hroot hne h
  obtain ⟨n, hn, hper⟩ := h
  obtain ⟨m, rfl⟩ : ∃ m, n = m + 1 := ⟨n - 1, by omega⟩
  have hm : parent^[m] (parent leaf) = leaf := hper
  exact Filter.eventually_atTop.2
    ⟨m + 1, fun k hk => climb_back he hm (fun h => hr h.parent) k hk⟩

theorem periodic_of_back {k : Nat} (h : climb parent root leaf early k (parent leaf) = .back) :
    leaf ∈ Function.periodicPts parent := by
  obtain ⟨m, hm⟩ := meets_of_climb_back h
  exact periodic_of_meets hm

/-- A search that begins away from the root comes back only if it looks for `leaf` early. -/
theorem early_of_back (hroot : parent root = root) (hne : leaf ≠ root) {k : Nat}
    (h : climb parent root leaf early k (parent leaf) = .back) : early = true := by
  by_contra he
  have hr := not_rooted_of_periodic hroot hne (periodic_of_back h)
  rw [climb_lost (fun h => hr h.parent) fun h => absurd h he] at h
  cases h

end

/-! ## Walks that branch -/

/-- The recursion from `a` over `next` meets only nodes with `ok` and ends within `k` levels. -/
def Within (ok : α → Prop) (next : α → α → Prop) : Nat → α → Prop
  | 0, _ => False
  | k + 1, a => ok a ∧ ∀ b, next a b → Within ok next k b

/-- The recursion from `a` meets only nodes with `ok` and ends. -/
structure Ends (ok : α → Prop) (next : α → α → Prop) (a : α) : Prop where
  acc : Acc (fun b a => next a b) a
  ok : ∀ b, Relation.ReflTransGen next a b → ok b

variable {ok : α → Prop} {next : α → α → Prop}

theorem Ends.of_next {a b : α} (h : Ends ok next a) (hb : next a b) : Ends ok next b :=
  ⟨h.acc.inv hb, fun c hc => h.ok c (.head hb hc)⟩

theorem ends_of_within {k : Nat} : ∀ {a : α}, Within ok next k a → Ends ok next a := by
  induction k with
  | zero =>
    intro a h
    exact h.elim
  | succ k ih =>
    rintro a ⟨hok, hnext⟩
    refine ⟨⟨a, fun b hb => (ih (hnext b hb)).acc⟩, fun b hb => ?_⟩
    rcases hb.cases_head with rfl | ⟨c, hc, hcb⟩
    · exact hok
    · exact (ih (hnext c hc)).ok b hcb

/-- No walk from an accessible node comes back to it. -/
theorem not_back_of_acc {a b : α} (h : Acc (fun b a => next a b) a) (hb : next a b) :
    ¬ Relation.ReflTransGen next b a := by
  induction h generalizing b with
  | intro a _ ih =>
    intro hback
    rcases hback.cases_head with rfl | ⟨c, hbc, hca⟩
    · exact ih b hb hb .refl
    · exact ih b hb hbc (hca.tail hb)

/-- A walk over finitely many nodes ends within as many levels as there are nodes: the nodes after
`a` do not include `a`. -/
theorem within_of_ends [DecidableEq α] {k : Nat} : ∀ {S : Finset α} {a : α},
    (∀ b, Relation.ReflTransGen next a b → b ∈ S) → S.card ≤ k → Ends ok next a →
      Within ok next k a := by
  induction k with
  | zero =>
    intro S a hS hk h
    have ha : a ∈ S := hS a .refl
    rw [Finset.card_eq_zero.1 (Nat.le_zero.1 hk)] at ha
    exact absurd ha (Finset.notMem_empty a)
  | succ k ih =>
    intro S a hS hk h
    have ha : a ∈ S := hS a .refl
    refine ⟨h.ok a .refl, fun b hb => ih (S := S.erase a) (fun c hc => ?_) ?_ (h.of_next hb)⟩
    · refine Finset.mem_erase.2 ⟨?_, hS c (.head hb hc)⟩
      rintro rfl
      exact not_back_of_acc h.acc hb hc
    · rw [Finset.card_erase_of_mem ha]
      omega

/-- **Bounded depth**: `k` levels are enough for every walk that ends, when it stays among at most
`k` nodes. -/
theorem within_iff_ends [DecidableEq α] {k : Nat} {S : Finset α} {a : α}
    (hS : ∀ b, Relation.ReflTransGen next a b → b ∈ S) (hk : S.card ≤ k) :
    Within ok next k a ↔ Ends ok next a := ⟨ends_of_within, within_of_ends hS hk⟩

end OstepHw.Climb
