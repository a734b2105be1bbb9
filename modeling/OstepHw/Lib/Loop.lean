import Mathlib.Data.List.Basic

/-!
# Loops that may stop

A C loop whose body can leave the program (an `exit`, a failed assertion, an access out of
range) is a left fold in `Except`.  This file has the rules the developments use for such
folds, over an arbitrary state and an arbitrary type of stops:

* `bind_eq_ok`, `bind_eq_error` — inversion of one sequencing step;
* `foldlM_congr` — a loop depends on its body only at the elements it runs over;
* `foldlM_runs` — an invariant that lets every step run and is kept by it holds at the end;
* `foldlM_ok_invariant` — an invariant that every step that runs keeps holds at the end, if there is
  one;
* `foldlM_runs_iff`, `foldlM_runs_iff_forall` — with an invariant that decides for every step whether it
  runs, the loop runs iff all its steps do;
* `foldlM_eq_error_iff` — a loop stops with `e` exactly when, after a prefix that ran
  without stopping, one step stops with `e`;
* `foldlM_all_ok_iff` — a loop that only tests runs to its end iff every test passes.
-/

set_option autoImplicit false

namespace OstepHw.Loop

variable {ε α β σ : Type}

theorem bind_eq_ok {x : Except ε α} {f : α → Except ε β} {b : β} :
    (x >>= f) = .ok b ↔ ∃ a, x = .ok a ∧ f a = .ok b := by
  cases x with
  | error e => simp [bind, Except.bind]
  | ok a => simp [bind, Except.bind]

theorem bind_eq_error {x : Except ε α} {f : α → Except ε β} {e : ε} :
    (x >>= f) = .error e ↔ x = .error e ∨ ∃ a, x = .ok a ∧ f a = .error e := by
  cases x with
  | error e' => simp [bind, Except.bind]
  | ok a => simp [bind, Except.bind]

/-- A step that succeeds can be read away from the front of a sequence. -/
theorem ok_bind (a : α) (f : α → Except ε β) : (Except.ok a >>= f) = f a := rfl

theorem error_bind (e : ε) (f : α → Except ε β) : (Except.error e >>= f) = .error e := rfl

/-- The invariant rule for total correctness: `P` relates the part of the list already run to the
state, and lets every further step run. -/
theorem foldlM_runs {f : σ → α → Except ε σ} {P : List α → σ → Prop} {l : List α}
    (hstep : ∀ pre a post s, l = pre ++ a :: post → P pre s →
      ∃ s', f s a = .ok s' ∧ P (pre ++ [a]) s') {s : σ} (hs : P [] s) :
    ∃ s', l.foldlM f s = .ok s' ∧ P l s' := by
  have hrest : ∀ (post pre : List α) (s : σ), l = pre ++ post → P pre s →
      ∃ s', post.foldlM f s = .ok s' ∧ P l s' := by
    intro post
    induction post with
    | nil =>
      intro pre s hl hp
      rw [List.append_nil] at hl
      exact ⟨s, rfl, hl ▸ hp⟩
    | cons a post ih =>
      intro pre s hl hp
      obtain ⟨s₁, h₁, hp₁⟩ := hstep pre a post s hl hp
      obtain ⟨s₂, h₂, hp₂⟩ := ih (pre ++ [a]) s₁ (by simpa using hl) hp₁
      exact ⟨s₂, by rw [List.foldlM_cons, h₁, ok_bind, h₂], hp₂⟩
  exact hrest l [] s rfl hs

/-- The invariant rule for partial correctness: what every step that runs keeps holds at the end of a
loop that runs. -/
theorem foldlM_ok_invariant {f : σ → α → Except ε σ} {P : List α → σ → Prop} {l : List α}
    (hstep : ∀ pre a post s s', l = pre ++ a :: post → P pre s → f s a = .ok s' → P (pre ++ [a]) s')
    {s s' : σ} (hs : P [] s) (hrun : l.foldlM f s = .ok s') : P l s' := by
  have hrest : ∀ (post pre : List α) (s : σ), l = pre ++ post → P pre s → post.foldlM f s = .ok s' →
      P l s' := by
    intro post
    induction post with
    | nil =>
      intro pre s hl hp h
      cases h
      rw [List.append_nil] at hl
      exact hl ▸ hp
    | cons a post ih =>
      intro pre s hl hp h
      rw [List.foldlM_cons, bind_eq_ok] at h
      obtain ⟨s₁, h₁, h₂⟩ := h
      exact ih (pre ++ [a]) s₁ (by simpa using hl) (hstep pre a post s s₁ hl hp h₁) h₂
  exact hrest l [] s rfl hs hrun

/-- The exact condition under which a loop runs: when the invariant decides for every step whether it
runs, the loop runs iff all its steps do. -/
theorem foldlM_runs_iff {f : σ → α → Except ε σ} {P : List α → σ → Prop} {C : List α → α → Prop}
    {l : List α} (hstep : ∀ pre a post s, l = pre ++ a :: post → P pre s →
      ((∃ s', f s a = .ok s') ↔ C pre a))
    (hinv : ∀ pre a post s s', l = pre ++ a :: post → P pre s → f s a = .ok s' → P (pre ++ [a]) s')
    {s : σ} (hs : P [] s) :
    (∃ s', l.foldlM f s = .ok s') ↔ ∀ pre a post, l = pre ++ a :: post → C pre a := by
  constructor
  · rintro ⟨s', hrun⟩ pre a post hl
    rw [hl, List.foldlM_append, bind_eq_ok] at hrun
    obtain ⟨m, hpre, hpost⟩ := hrun
    rw [List.foldlM_cons, bind_eq_ok] at hpost
    obtain ⟨m', ha, _⟩ := hpost
    have hm : P pre m := foldlM_ok_invariant (fun pre' b post' s s' hpre' =>
      hinv pre' b (post' ++ a :: post) s s' (by rw [hl, hpre']; simp)) hs hpre
    exact (hstep pre a post m hl hm).1 ⟨m', ha⟩
  · intro h
    obtain ⟨s', hrun, _⟩ := foldlM_runs (P := P) (fun pre a post m hl hm => by
      obtain ⟨m', ha⟩ := (hstep pre a post m hl hm).2 (h pre a post hl)
      exact ⟨m', ha, hinv pre a post m m' hl hm ha⟩) hs
    exact ⟨s', hrun⟩

/-- When the invariant is not needed to tell which steps run, all elements have to meet the condition. -/
theorem foldlM_runs_iff_forall {f : σ → α → Except ε σ} {P : List α → σ → Prop} {C : α → Prop}
    {l : List α} (hstep : ∀ pre a post s, l = pre ++ a :: post → P pre s →
      ((∃ s', f s a = .ok s') ↔ C a))
    (hinv : ∀ pre a post s s', l = pre ++ a :: post → P pre s → f s a = .ok s' → P (pre ++ [a]) s')
    {s : σ} (hs : P [] s) :
    (∃ s', l.foldlM f s = .ok s') ↔ ∀ a ∈ l, C a := by
  rw [foldlM_runs_iff (C := fun _ a => C a) hstep hinv hs]
  constructor
  · intro h a ha
    obtain ⟨pre, post, hl⟩ := List.append_of_mem ha
    exact h pre a post hl
  · intro h pre a post hl
    exact h a (by rw [hl]; simp)

/-- Two bodies that agree on the elements of the list run alike. -/
theorem foldlM_congr {f g : σ → α → Except ε σ} :
    ∀ {l : List α}, (∀ s, ∀ a ∈ l, f s a = g s a) → ∀ s, l.foldlM f s = l.foldlM g s
  | [], _, _ => rfl
  | a :: l, h, s => by
    rw [List.foldlM_cons, List.foldlM_cons, h s a List.mem_cons_self]
    congr 1
    funext s'
    exact foldlM_congr (fun s a ha => h s a (List.mem_cons_of_mem _ ha)) s'

/-- A loop stops with `e` iff one of its steps does, after a prefix that did not stop. -/
theorem foldlM_eq_error_iff {f : σ → α → Except ε σ} {e : ε} :
    ∀ {l : List α} {s : σ}, l.foldlM f s = .error e ↔
      ∃ pre a post m, l = pre ++ a :: post ∧ pre.foldlM f s = .ok m ∧ f m a = .error e
  | [], s => by
    simp only [List.foldlM_nil]
    constructor
    · intro h; cases h
    · rintro ⟨pre, a, post, m, h, _⟩
      simp at h
  | a :: l, s => by
    rw [List.foldlM_cons, bind_eq_error]
    constructor
    · rintro (h | ⟨s₁, h₁, h₂⟩)
      · exact ⟨[], a, l, s, rfl, rfl, h⟩
      · obtain ⟨pre, b, post, m, hl, hm, hb⟩ := foldlM_eq_error_iff.1 h₂
        refine ⟨a :: pre, b, post, m, by rw [hl]; rfl, ?_, hb⟩
        rw [List.foldlM_cons, h₁]
        exact hm
    · rintro ⟨pre, b, post, m, hl, hm, hb⟩
      cases pre with
      | nil =>
        simp only [List.nil_append, List.cons.injEq] at hl
        obtain ⟨rfl, rfl⟩ := hl
        simp only [List.foldlM_nil] at hm
        cases hm
        exact Or.inl hb
      | cons c pre =>
        simp only [List.cons_append, List.cons.injEq] at hl
        obtain ⟨rfl, rfl⟩ := hl
        rw [List.foldlM_cons, bind_eq_ok] at hm
        obtain ⟨s₁, h₁, h₂⟩ := hm
        exact Or.inr ⟨s₁, h₁, foldlM_eq_error_iff.2 ⟨pre, b, post, m, rfl, h₂, hb⟩⟩

/-- A loop without state runs to its end iff no step stops. -/
theorem foldlM_all_ok_iff {f : α → Except ε Unit} :
    ∀ {l : List α}, l.foldlM (fun _ a => f a) () = .ok () ↔ ∀ a ∈ l, f a = .ok ()
  | [] => by simp [pure, Except.pure]
  | a :: l => by
    rw [List.foldlM_cons, bind_eq_ok]
    constructor
    · rintro ⟨u, h₁, h₂⟩ b hb
      rcases List.mem_cons.mp hb with rfl | hb
      · exact h₁
      · exact foldlM_all_ok_iff.1 h₂ b hb
    · intro h
      exact ⟨(), h a List.mem_cons_self,
        foldlM_all_ok_iff.2 fun b hb => h b (List.mem_cons_of_mem _ hb)⟩

end OstepHw.Loop
