import Mathlib.Data.Finset.Card
import Mathlib.Data.List.Infix
import Mathlib.Tactic.Common

/-!
# Demand paging

A cache holds at most `c` pages and serves a list of references, the next one first.

* `Serves` — any schedule that has the referenced page in the cache and brings in no other page;
* `Demand rule` — demand paging: a page leaves only when another one needs its place, and the page that
  leaves is one that `rule` allows (`demand_serves`);
* `Serves.exchange` — of two caches that differ in one page, the one with the page that is needed sooner
  is no worse, which makes the farthest page the best victim: `optimal_le`;
* `Demand.exchange`, `le_soonest` — for demand paging the soonest page is the worst victim.
-/

set_option autoImplicit false

namespace OstepHw.Paging

variable {Page : Type*} [DecidableEq Page]

/-! ## Schedules -/

/-- From the cache `S`, the references can be served with `m` misses and never more than `c` pages. -/
inductive Serves (c : Nat) : Finset Page → List Page → Nat → Prop
  | done (S : Finset Page) : Serves c S [] 0
  | refer {S T : Finset Page} {r : Page} {refs : List Page} {m : Nat} (served : r ∈ T) (fetched : T ⊆ insert r S)
      (room : T.card ≤ c) (later : Serves c T refs m) : Serves c S (r :: refs) ((if r ∈ S then 0 else 1) + m)

/-- Demand paging from the cache `S`: `rule S rest p` allows the page `p` to leave the cache `S` when `rest` is
what will be referenced afterwards. -/
inductive Demand (rule : Finset Page → List Page → Page → Prop) (c : Nat) : Finset Page → List Page → Nat → Prop
  | done (S : Finset Page) : Demand rule c S [] 0
  | hit {S : Finset Page} {r : Page} {refs : List Page} {m : Nat} (held : r ∈ S) (later : Demand rule c S refs m) :
      Demand rule c S (r :: refs) m
  | fill {S : Finset Page} {r : Page} {refs : List Page} {m : Nat} (missed : r ∉ S) (room : S.card < c)
      (later : Demand rule c (insert r S) refs m) : Demand rule c S (r :: refs) (m + 1)
  | replace {S : Finset Page} {r p : Page} {refs : List Page} {m : Nat} (missed : r ∉ S) (full : S.card = c)
      (held : p ∈ S) (allowed : rule S refs p) (later : Demand rule c (insert r (S.erase p)) refs m) :
      Demand rule c S (r :: refs) (m + 1)

/-- Any page may leave. -/
def anyPage (_ : Finset Page) (_ : List Page) (_ : Page) : Prop := True

/-- The page that leaves is referenced no sooner than any other. -/
def farthest (S : Finset Page) (rest : List Page) (p : Page) : Prop := ∀ q ∈ S, rest.idxOf q ≤ rest.idxOf p

/-- The page that leaves is referenced no later than any other. -/
def soonest (S : Finset Page) (rest : List Page) (p : Page) : Prop := ∀ q ∈ S, rest.idxOf p ≤ rest.idxOf q

theorem Demand.mono {rule rule' : Finset Page → List Page → Page → Prop} {c m : Nat} {S : Finset Page}
    {refs : List Page} (hrule : ∀ S rest p, rule S rest p → rule' S rest p) (h : Demand rule c S refs m) :
    Demand rule' c S refs m := by
  induction h with
  | done S => exact .done S
  | hit held _ ih => exact .hit held ih
  | fill missed room _ ih => exact .fill missed room ih
  | replace missed full held allowed _ ih => exact .replace missed full held (hrule _ _ _ allowed) ih

theorem Demand.anyPage {rule : Finset Page → List Page → Page → Prop} {c m : Nat} {S : Finset Page}
    {refs : List Page} (h : Demand rule c S refs m) : Demand anyPage c S refs m :=
  h.mono fun _ _ _ _ => trivial

theorem card_replace {S : Finset Page} {r p : Page} (missed : r ∉ S) (held : p ∈ S) :
    (insert r (S.erase p)).card = S.card := by
  rw [Finset.card_insert_of_notMem fun h => missed (Finset.mem_of_mem_erase h), Finset.card_erase_of_mem held]
  have := Finset.card_pos.2 ⟨p, held⟩
  omega

/-- Demand paging is a schedule. -/
theorem demand_serves {rule : Finset Page → List Page → Page → Prop} {c m : Nat} {S : Finset Page}
    {refs : List Page} (h : Demand rule c S refs m) (hS : S.card ≤ c) : Serves c S refs m := by
  induction h with
  | done S => exact .done S
  | @hit S r refs m held _ ih =>
    have := Serves.refer held (Finset.subset_insert r S) hS (ih hS)
    rwa [if_pos held, Nat.zero_add] at this
  | @fill S r refs m missed room _ ih =>
    have hcard : (insert r S).card ≤ c := by
      rw [Finset.card_insert_of_notMem missed]
      exact room
    have := Serves.refer (Finset.mem_insert_self r S) (Finset.Subset.refl _) hcard (ih hcard)
    rwa [if_neg missed, Nat.add_comm] at this
  | @replace S r p refs m missed full held _ _ ih =>
    have hcard : (insert r (S.erase p)).card ≤ c := by rw [card_replace missed held, full]
    have := Serves.refer (Finset.mem_insert_self r (S.erase p))
      (Finset.insert_subset_insert r (Finset.erase_subset p S)) hcard (ih hcard)
    rwa [if_neg missed, Nat.add_comm] at this

theorem Serves.mono {c c' m : Nat} {S : Finset Page} {refs : List Page} (h : Serves c S refs m) (hc : c ≤ c') :
    Serves c' S refs m := by
  induction h with
  | done S => exact .done S
  | refer served fetched room _ ih => exact .refer served fetched (room.trans hc) ih

/-! ## Exchanging a page -/

/-- More pages in the cache do no harm. -/
theorem Serves.superset {c m : Nat} {S S' : Finset Page} {refs : List Page} (h : Serves c S refs m)
    (hS : S ⊆ S') : ∃ m' ≤ m, Serves c S' refs m' := by
  cases h with
  | done => exact ⟨0, Nat.le_refl 0, .done S'⟩
  | @refer S T r refs m served fetched room later =>
    refine ⟨_, ?_, .refer served (fetched.trans (Finset.insert_subset_insert r hS)) room later⟩
    by_cases hr : r ∈ S
    · rw [if_pos hr, if_pos (hS hr)]
    · rw [if_neg hr]
      split <;> omega

/-- A page that is taken out of the cache costs at most one miss. -/
theorem Serves.erase {c m : Nat} {S : Finset Page} {refs : List Page} (h : Serves c S refs m) (q : Page) :
    ∃ m' ≤ m + 1, Serves c (S.erase q) refs m' := by
  induction h with
  | done S => exact ⟨0, Nat.zero_le _, .done _⟩
  | @refer S T r refs m served fetched room later ih =>
    by_cases hrq : r = q
    · -- the missing page is fetched again, and the caches agree from here on
      subst hrq
      have hT : T ⊆ insert r (S.erase r) := by
        intro x hx
        rw [Finset.mem_insert, Finset.mem_erase]
        by_cases hxr : x = r
        · exact Or.inl hxr
        · exact Or.inr ⟨hxr, (Finset.mem_insert.1 (fetched hx)).resolve_left hxr⟩
      refine ⟨_, ?_, .refer served hT room later⟩
      split <;> split <;> omega
    · obtain ⟨m', hm', hlater⟩ := ih
      have hT : T.erase q ⊆ insert r (S.erase q) := by
        rw [← Finset.erase_insert_of_ne hrq]
        exact Finset.erase_subset_erase q fetched
      refine ⟨_, ?_, .refer (Finset.mem_erase.2 ⟨hrq, served⟩) hT
        ((Finset.card_le_card (Finset.erase_subset q T)).trans room) hlater⟩
      have hmem : r ∈ S.erase q ↔ r ∈ S := by simp [hrq]
      simp only [hmem]
      omega

theorem idxOf_le_tail {p q r : Page} {refs : List Page} (hp : r ≠ p) (hq : r ≠ q)
    (h : (r :: refs).idxOf p ≤ (r :: refs).idxOf q) : refs.idxOf p ≤ refs.idxOf q := by
  rw [List.idxOf_cons_ne _ hp, List.idxOf_cons_ne _ hq] at h
  omega

/-- **Of two caches that differ in one page, the one with the page that is needed sooner is no worse.** -/
theorem Serves.exchange {c : Nat} {p q : Page} (hpq : p ≠ q) {refs : List Page} :
    ∀ {R : Finset Page} {m : Nat}, p ∉ R → refs.idxOf p ≤ refs.idxOf q → Serves c (insert q R) refs m →
      ∃ m' ≤ m, Serves c (insert p R) refs m' := by
  induction refs with
  | nil =>
    intro R m _ _ h
    cases h
    exact ⟨0, Nat.le_refl 0, .done _⟩
  | cons r refs ih =>
    intro R m hpR hsoon h
    cases h with
    | @refer _ T _ _ m served fetched room later =>
    by_cases hrp : r = p
    · -- a miss with `q`, a hit with `p`: the one miss pays for what is lost with `q`
      subst hrp
      have hmiss : r ∉ insert q R := by simp [hpq, hpR]
      obtain ⟨m', hm', hlater⟩ := later.erase q
      have hT : T.erase q ⊆ insert r (insert r R) := by
        intro x hx
        have := fetched (Finset.mem_of_mem_erase hx)
        simp only [Finset.mem_insert, Finset.mem_erase] at this hx ⊢
        tauto
      refine ⟨_, ?_, .refer (Finset.mem_erase.2 ⟨hpq, served⟩) hT
        ((Finset.card_le_card (Finset.erase_subset q T)).trans room) hlater⟩
      rw [if_neg hmiss, if_pos (Finset.mem_insert_self r R)]
      omega
    have hrq : r ≠ q := by
      rintro rfl
      rw [List.idxOf_cons_self, List.idxOf_cons_ne _ hrp] at hsoon
      omega
    have hcost : r ∈ insert p R ↔ r ∈ insert q R := by simp [hrp, hrq]
    by_cases hqT : q ∈ T
    · -- both pages stay: the caches go on differing in them
      have hpT : p ∉ T := fun hp => by
        have := fetched hp
        simp only [Finset.mem_insert] at this
        tauto
      have hTq : insert q (T.erase q) = T := Finset.insert_erase hqT
      rw [← hTq] at later
      obtain ⟨m', hm', hlater⟩ := ih (fun hp => hpT (Finset.mem_of_mem_erase hp))
        (idxOf_le_tail hrp hrq hsoon) later
      have hT : insert p (T.erase q) ⊆ insert r (insert p R) := by
        intro x hx
        rcases Finset.mem_insert.1 hx with rfl | hx
        · simp
        · have := fetched (Finset.mem_of_mem_erase hx)
          simp only [Finset.mem_insert, Finset.mem_erase] at this hx ⊢
          tauto
      have hcard : (insert p (T.erase q)).card ≤ c := by
        rw [Finset.card_insert_of_notMem fun hp => hpT (Finset.mem_of_mem_erase hp),
          Finset.card_erase_of_mem hqT]
        have := Finset.card_pos.2 ⟨q, hqT⟩
        omega
      refine ⟨_, ?_, .refer (by simp [served, hrq]) hT hcard hlater⟩
      simp only [hcost]
      omega
    · -- `q` has left: the other cache lets `p` go
      have hT : T ⊆ insert r (insert p R) := by
        intro x hx
        have := fetched hx
        have hxq : x ≠ q := fun h => hqT (h ▸ hx)
        simp only [Finset.mem_insert] at this ⊢
        tauto
      refine ⟨_, ?_, .refer served hT room later⟩
      simp only [hcost, Nat.le_refl]

/-- The cache that has let `q` leave for `r`, with `p` in front. -/
theorem exchange_right {S : Finset Page} {p q r : Page} (hpq : p ≠ q) (held : p ∈ S) :
    insert r (S.erase q) = insert p (insert r ((S.erase p).erase q)) := by
  rw [Finset.insert_comm p r, Finset.erase_right_comm,
    Finset.insert_erase (Finset.mem_erase.2 ⟨hpq, held⟩)]

/-- **No schedule misses less often than demand paging that lets the farthest page leave.** -/
theorem optimal_le {c m m' : Nat} {S : Finset Page} {refs : List Page} (h : Demand farthest c S refs m)
    (h' : Serves c S refs m') : m ≤ m' := by
  induction h generalizing m' with
  | done S => omega
  | @hit S r refs m held _ ih =>
    cases h' with
    | @refer _ T _ _ m' served fetched room later =>
    rw [Finset.insert_eq_of_mem held] at fetched
    obtain ⟨m'', hm'', hlater⟩ := later.superset fetched
    have := ih hlater
    omega
  | @fill S r refs m missed _ _ ih =>
    cases h' with
    | @refer _ T _ _ m' served fetched room later =>
    obtain ⟨m'', hm'', hlater⟩ := later.superset fetched
    have := ih hlater
    rw [if_neg missed]
    omega
  | @replace S r p refs m missed full held allowed _ ih =>
    cases h' with
    | @refer _ T _ _ m' served fetched room later =>
    rw [if_neg missed]
    -- some page `q` of the full cache has left in the other schedule, too
    obtain ⟨q, hqS, hqT⟩ : ∃ q ∈ S, q ∉ T := by
      by_contra hall
      push Not at hall
      have hsub : insert r S ⊆ T := Finset.insert_subset served hall
      have := Finset.card_le_card hsub
      rw [Finset.card_insert_of_notMem missed] at this
      omega
    have hrq : r ≠ q := fun h => missed (h ▸ hqS)
    have hrp : r ≠ p := fun h => missed (h ▸ held)
    obtain ⟨m₁, hm₁, hlater₁⟩ : ∃ m₁ ≤ m', Serves c (insert r (S.erase q)) refs m₁ := by
      apply later.superset
      intro x hx
      rcases Finset.mem_insert.1 (fetched hx) with rfl | hxS
      · exact Finset.mem_insert_self _ _
      · exact Finset.mem_insert_of_mem (Finset.mem_erase.2 ⟨fun h => hqT (h ▸ hx), hxS⟩)
    by_cases hpq : p = q
    · subst hpq
      have := ih hlater₁
      omega
    · -- the caches differ in `p` and `q` only, and `q` is needed sooner
      rw [exchange_right hpq held] at hlater₁
      obtain ⟨m₂, hm₂, hlater₂⟩ := hlater₁.exchange (Ne.symm hpq) (by simp [hrq.symm]) (allowed q hqS)
      rw [Finset.erase_right_comm, ← exchange_right (Ne.symm hpq) hqS] at hlater₂
      have := ih hlater₂
      omega

/-- **For demand paging, of two full caches that differ in one page, the one with the page that is needed later
can be made to miss at least as often.** -/
theorem Demand.exchange {c : Nat} {p q : Page} (hpq : p ≠ q) {refs : List Page} :
    ∀ {R : Finset Page} {m : Nat}, p ∉ R → q ∉ R → R.card + 1 = c → refs.idxOf p ≤ refs.idxOf q →
      Demand Paging.anyPage c (insert p R) refs m → ∃ m' ≥ m, Demand Paging.anyPage c (insert q R) refs m' := by
  induction refs with
  | nil =>
    intro R m _ _ _ _ h
    cases h
    exact ⟨0, Nat.le_refl 0, .done _⟩
  | cons r refs ih =>
    intro R m hpR hqR hfull hsoon h
    have hcp : (insert p R).card = c := by rw [Finset.card_insert_of_notMem hpR, hfull]
    have hcq : (insert q R).card = c := by rw [Finset.card_insert_of_notMem hqR, hfull]
    have hsub : p ∉ insert q R := by simp [hpq, hpR]
    by_cases hrp : r = p
    · -- a hit with `p`, a miss with `q`: let `q` leave for `p`, and the caches agree
      subst hrp
      have later : Demand Paging.anyPage c (insert r R) refs m := by
        cases h with
        | hit _ later => exact later
        | fill missed => exact absurd (Finset.mem_insert_self r R) missed
        | replace missed => exact absurd (Finset.mem_insert_self r R) missed
      refine ⟨m + 1, Nat.le_succ m, .replace hsub hcq (Finset.mem_insert_self q R) trivial ?_⟩
      rwa [Finset.erase_insert hqR]
    have hrq : r ≠ q := by
      rintro rfl
      rw [List.idxOf_cons_self, List.idxOf_cons_ne _ hrp] at hsoon
      omega
    have hnext := idxOf_le_tail hrp hrq hsoon
    cases h with
    | hit held later =>
      obtain ⟨m', hm', hlater⟩ := ih hpR hqR hfull hnext later
      exact ⟨m', hm', .hit (by simpa [hrp, hrq] using held) hlater⟩
    | fill _ room _ => omega
    | @replace _ _ x _ m missed _ held _ later =>
      have hmissq : r ∉ insert q R := by simpa [hrp, hrq] using missed
      by_cases hxp : x = p
      · subst hxp
        refine ⟨m + 1, Nat.le_refl _, .replace hmissq hcq (Finset.mem_insert_self q R) trivial ?_⟩
        rwa [Finset.erase_insert hqR, ← Finset.erase_insert hpR]
      · have hxR : x ∈ R := (Finset.mem_insert.1 held).resolve_left hxp
        have hxq : x ≠ q := fun h => hqR (h ▸ hxR)
        have hrR : r ∉ R := fun h => missed (Finset.mem_insert_of_mem h)
        have hcomm (y : Page) (hy : x ≠ y) :
            insert r ((insert y R).erase x) = insert y (insert r (R.erase x)) := by
          rw [Finset.erase_insert_of_ne (Ne.symm hy), Finset.insert_comm]
        rw [hcomm p hxp] at later
        obtain ⟨m', hm', hlater⟩ := ih (by simp [hpR, Ne.symm hrp]) (by simp [hqR, Ne.symm hrq])
          (by rw [card_replace hrR hxR, hfull]) hnext later
        rw [← hcomm q hxq] at hlater
        exact ⟨m' + 1, by omega, .replace hmissq hcq (Finset.mem_insert_of_mem hxR) trivial hlater⟩

/-- **No demand paging misses more often than that which lets the soonest page leave.** -/
theorem le_soonest {c m m' : Nat} {S : Finset Page} {refs : List Page} (h : Demand soonest c S refs m)
    (h' : Demand Paging.anyPage c S refs m') : m' ≤ m := by
  induction h generalizing m' with
  | done S =>
    cases h'
    exact Nat.le_refl 0
  | @hit S r refs m held _ ih =>
    cases h' with
    | hit _ later => exact ih later
    | fill missed => exact absurd held missed
    | replace missed => exact absurd held missed
  | @fill S r refs m missed room _ ih =>
    cases h' with
    | hit held => exact absurd held missed
    | fill _ _ later => exact Nat.succ_le_succ (ih later)
    | replace _ full => omega
  | @replace S r p refs m missed full held allowed _ ih =>
    cases h' with
    | hit held => exact absurd held missed
    | fill _ room => omega
    | @replace _ _ q _ m' _ _ hqS _ later =>
    by_cases hpq : p = q
    · subst hpq
      exact Nat.succ_le_succ (ih later)
    · have hrp : r ≠ p := fun h => missed (h ▸ held)
      have hrq : r ≠ q := fun h => missed (h ▸ hqS)
      have hR : r ∉ (S.erase p).erase q := fun h => missed (Finset.mem_of_mem_erase (Finset.mem_of_mem_erase h))
      have hq : q ∈ S.erase p := Finset.mem_erase.2 ⟨Ne.symm hpq, hqS⟩
      rw [exchange_right hpq held] at later
      obtain ⟨m₁, hm₁, hlater₁⟩ := later.exchange hpq (by simp [hrp.symm]) (by simp [hrq.symm])
        (by rw [card_replace (fun h => missed (Finset.mem_of_mem_erase h)) hq, Finset.card_erase_of_mem held, full]
            have := Finset.card_pos.2 ⟨p, held⟩
            omega)
        (allowed q hqS)
      rw [Finset.erase_right_comm, ← exchange_right (Ne.symm hpq) hqS] at hlater₁
      have := ih hlater₁
      omega

end OstepHw.Paging
