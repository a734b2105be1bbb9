import Mathlib.Data.List.Basic

/-!
# Run-length encoding

A run is a number of repetitions with the element that is repeated.  `MaximalRuns l rs` says what
the run-length encoding of `l` is: it spells `l`, no run is empty and neighbouring runs differ.
`rle` computes it from the right, and every other way to compute it rests on one operation,
`consRun p rs`, which puts a run in front of an encoding and merges it when it can.

* `rle_maximalRuns` — `rle l` is the encoding of `l`;
* `consRun_consRun_of_eq`, `consRun_consRun_of_ne` — how the operation composes;
* `rle_append` — the encoding of a concatenation from the encodings of its parts.
-/

namespace OstepHw.RunLength

variable {α : Type*} [DecidableEq α]

/-- What a list of runs stands for. -/
def expand (rs : List (ℕ × α)) : List α := rs.flatMap fun r => List.replicate r.1 r.2

/-- `rs` is the run-length encoding of `l`. -/
structure MaximalRuns (l : List α) (rs : List (ℕ × α)) : Prop where
  spells : expand rs = l
  pos : ∀ r ∈ rs, 0 < r.1
  maximal : rs.IsChain fun r s => r.2 ≠ s.2

/-- Put a run in front, merging it with the first run when that repeats the same element. -/
def consRun (p : ℕ × α) : List (ℕ × α) → List (ℕ × α)
  | [] => [p]
  | r :: rs => if p.2 = r.2 then (p.1 + r.1, r.2) :: rs else p :: r :: rs

def rle : List α → List (ℕ × α)
  | [] => []
  | a :: l => consRun (1, a) (rle l)

/-! ## Putting a run in front -/

theorem consRun_ne_nil (p : ℕ × α) (rs : List (ℕ × α)) : consRun p rs ≠ [] := by
  cases rs with
  | nil => simp [consRun]
  | cons r rs =>
    rw [consRun]
    split <;> simp

theorem consRun_consRun_of_eq {p q : ℕ × α} (h : p.2 = q.2) (rs : List (ℕ × α)) :
    consRun p (consRun q rs) = consRun (p.1 + q.1, q.2) rs := by
  cases rs with
  | nil => simp [consRun, h]
  | cons r rs =>
    by_cases hq : q.2 = r.2
    · simp [consRun, hq, h, Nat.add_assoc]
    · simp [consRun, hq, h]

theorem consRun_consRun_of_ne {p q : ℕ × α} (h : p.2 ≠ q.2) (rs : List (ℕ × α)) :
    consRun p (consRun q rs) = p :: consRun q rs := by
  cases rs with
  | nil => simp [consRun, h]
  | cons r rs =>
    by_cases hq : q.2 = r.2
    · have hr : p.2 ≠ r.2 := hq ▸ h
      simp [consRun, hq, hr]
    · simp [consRun, hq, h]

theorem expand_consRun (p : ℕ × α) (rs : List (ℕ × α)) :
    expand (consRun p rs) = List.replicate p.1 p.2 ++ expand rs := by
  cases rs with
  | nil => simp [consRun, expand]
  | cons r rs =>
    by_cases h : p.2 = r.2
    · simp [consRun, expand, h, ← List.replicate_append_replicate]
    · simp [consRun, expand, h]

theorem MaximalRuns.consRun {l : List α} {rs : List (ℕ × α)} (h : MaximalRuns l rs)
    {p : ℕ × α} (hp : 0 < p.1) :
    MaximalRuns (List.replicate p.1 p.2 ++ l) (consRun p rs) := by
  refine ⟨by rw [expand_consRun, h.spells], ?_, ?_⟩
  · intro r hr
    cases rs with
    | nil =>
      obtain rfl := List.mem_singleton.mp hr
      exact hp
    | cons s rs =>
      rw [RunLength.consRun] at hr
      split at hr
      · rcases List.mem_cons.mp hr with hr | hr
        · rw [hr]
          exact Nat.add_pos_left hp _
        · exact h.pos r (by simp [hr])
      · rcases List.mem_cons.mp hr with rfl | hr
        · exact hp
        · exact h.pos r hr
  · have hc := h.maximal
    cases rs with
    | nil => exact List.IsChain.singleton _
    | cons s rs =>
      rw [RunLength.consRun]
      split
      · cases rs with
        | nil => exact List.IsChain.singleton _
        | cons t rs =>
          rw [List.isChain_cons_cons] at hc ⊢
          exact hc
      · rename_i hne
        exact List.isChain_cons_cons.mpr ⟨hne, hc⟩

/-! ## Encoding -/

/-- **`rle` computes the run-length encoding.** -/
theorem rle_maximalRuns (l : List α) : MaximalRuns l (rle l) := by
  induction l with
  | nil => exact ⟨rfl, by simp [rle], List.IsChain.nil⟩
  | cons a l ih => exact ih.consRun (p := (1, a)) Nat.one_pos

theorem rle_eq_nil_iff {l : List α} : rle l = [] ↔ l = [] := by
  cases l with
  | nil => simp [rle]
  | cons a l => simp [rle, consRun_ne_nil]

/-- No run is longer than the list. -/
theorem count_le_length {l : List α} {r : ℕ × α} (hr : r ∈ rle l) : r.1 ≤ l.length := by
  have hspell := (rle_maximalRuns l).spells
  obtain ⟨xs, ys, hxs⟩ := List.append_of_mem hr
  rw [← hspell, expand, hxs]
  simp
  omega

/-- **The encoding of a concatenation.**  The last run of the first part is put in front of the
encoding of the second. -/
theorem rle_append {l₁ l₂ : List α} {ws : List (ℕ × α)} {p : ℕ × α} (h : rle l₁ = ws ++ [p]) :
    rle (l₁ ++ l₂) = ws ++ consRun p (rle l₂) := by
  induction l₁ generalizing ws p with
  | nil => simp [rle] at h
  | cons a l ih =>
    rw [List.cons_append, rle]
    rw [rle] at h
    rcases List.eq_nil_or_concat' (rle l) with hnil | ⟨vs, q, hq⟩
    · obtain rfl := rle_eq_nil_iff.1 hnil
      rw [hnil] at h
      obtain ⟨rfl, rfl⟩ : ws = [] ∧ p = (1, a) := by
        simpa [consRun, List.append_eq_singleton_iff, eq_comm] using h
      rfl
    · rw [ih hq]
      rw [hq] at h
      -- only when `q` is the single run of the rest can the new element merge with it
      cases vs with
      | nil =>
        by_cases hqa : a = q.2
        · obtain ⟨rfl, rfl⟩ : ws = [] ∧ p = (1 + q.1, q.2) := by
            simpa [consRun, hqa, List.append_eq_singleton_iff, eq_comm] using h
          exact consRun_consRun_of_eq hqa _
        · have hws : ws ++ [p] = [(1, a)] ++ [q] := by simpa [consRun, hqa] using h.symm
          obtain ⟨rfl, hp⟩ := List.append_inj' hws rfl
          obtain rfl : p = q := by simpa using hp
          exact consRun_consRun_of_ne hqa _
      | cons v vs =>
        by_cases hva : a = v.2
        · have hws : ws ++ [p] = (1 + v.1, v.2) :: vs ++ [q] := by
            simpa [consRun, hva] using h.symm
          obtain ⟨rfl, hp⟩ := List.append_inj' hws rfl
          obtain rfl : p = q := by simpa using hp
          simp [consRun, hva]
        · have hws : ws ++ [p] = (1, a) :: v :: vs ++ [q] := by
            simpa [consRun, hva] using h.symm
          obtain ⟨rfl, hp⟩ := List.append_inj' hws rfl
          obtain rfl : p = q := by simpa using hp
          simp [consRun, hva]

end OstepHw.RunLength
