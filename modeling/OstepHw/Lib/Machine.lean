import Mathlib.Data.List.Basic
import Mathlib.Data.List.Induction
import Mathlib.Data.Option.Basic

/-!
# Runs of a system of threads

A system is a partial step function: `step s a` is the state after the action `a`, and `none` when the
action cannot be taken in `s`.  An interleaving is a list of actions.

* `run`, `run_append`, `run_concat` — the state after a list of actions;
* `run_induction` — what holds at the start and is kept by every step holds after every run, with the
  list of actions at hand;
* `length_le_measure` — a run along which a measure falls is short;
* `Along`, `StepsMeet` — a property of every state of a run, a condition on every step of a run;
* `Along.mono`, `Along.stepsMeet`, `stepsMeet_of_invariant` — what follows along a run from a property of its
  states or from an invariant;
* `along_iff_stepsMeet` — when the two are the same: the condition is what a step needs to keep the
  property.
-/

set_option autoImplicit false

namespace OstepHw.Machine

variable {σ α : Type*} (step : σ → α → Option σ)

/-- The state after the actions of `l`, if all of them can be taken. -/
def run (s : σ) (l : List α) : Option σ := l.foldlM step s

/-- `s'` is the state after some actions. -/
def Reaches (s s' : σ) : Prop := ∃ l, run step s l = some s'

/-- `P` holds in every state that the run goes through. -/
def Along (P : σ → Prop) : σ → List α → Prop
  | s, [] => P s
  | s, a :: l => P s ∧ ∀ s', step s a = some s' → Along P s' l

/-- Every step of the run meets `C`, which is about the state before the step and the action. -/
def StepsMeet (C : σ → α → Prop) : σ → List α → Prop
  | _, [] => True
  | s, a :: l => ∀ s', step s a = some s' → C s a ∧ StepsMeet C s' l

variable {step}

/-! ## Runs -/

@[simp] theorem run_nil (s : σ) : run step s [] = some s := rfl

theorem run_cons {s s' : σ} {a : α} {l : List α} :
    run step s (a :: l) = some s' ↔ ∃ m, step s a = some m ∧ run step m l = some s' := by
  rw [run, List.foldlM_cons]
  exact Option.bind_eq_some_iff

theorem run_append {s s' : σ} {l₁ l₂ : List α} :
    run step s (l₁ ++ l₂) = some s' ↔
      ∃ m, run step s l₁ = some m ∧ run step m l₂ = some s' := by
  rw [run, List.foldlM_append]
  exact Option.bind_eq_some_iff

theorem run_concat {s s' : σ} {l : List α} {a : α} :
    run step s (l ++ [a]) = some s' ↔ ∃ m, run step s l = some m ∧ step m a = some s' := by
  rw [run_append]
  simp only [run_cons, run_nil, Option.some.injEq, exists_eq_right]

theorem Reaches.refl (s : σ) : Reaches step s s := ⟨[], rfl⟩

theorem Reaches.trans {s m s' : σ} (h : Reaches step s m) (h' : Reaches step m s') :
    Reaches step s s' := by
  obtain ⟨l, hl⟩ := h
  obtain ⟨l', hl'⟩ := h'
  exact ⟨l ++ l', run_append.2 ⟨m, hl, hl'⟩⟩

/-- **Induction over runs.** -/
theorem run_induction {P : List α → σ → Prop} {s : σ} (hs : P [] s)
    (hstep : ∀ l m a m', run step s l = some m → P l m → step m a = some m' → P (l ++ [a]) m')
    {l : List α} {s' : σ} (hrun : run step s l = some s') : P l s' := by
  induction l using List.reverseRecOn generalizing s' with
  | nil =>
    cases hrun
    exact hs
  | append_singleton l a ih =>
    obtain ⟨m, hm, ha⟩ := run_concat.1 hrun
    exact hstep l m a s' hm (ih hm) ha

/-- **The invariant rule.** -/
theorem invariant {I : σ → Prop} {s : σ} (hs : I s)
    (hstep : ∀ m a m', I m → step m a = some m' → I m') {s' : σ} (h : Reaches step s s') : I s' := by
  obtain ⟨l, hl⟩ := h
  exact run_induction (P := fun _ => I) hs (fun _ m a m' _ => hstep m a m') hl

/-- **A measure bounds a run**: the actions with `C` can only be taken so often. -/
theorem length_le_measure {C : α → Prop} (μ : σ → Nat)
    (hstep : ∀ m a m', C a → step m a = some m' → μ m' < μ m) {s s' : σ} {l : List α}
    (hl : ∀ a ∈ l, C a) (hrun : run step s l = some s') : l.length + μ s' ≤ μ s := by
  induction l generalizing s with
  | nil =>
    cases hrun
    simp
  | cons a l ih =>
    obtain ⟨m, hm, hrest⟩ := run_cons.1 hrun
    rw [List.forall_mem_cons] at hl
    have hlt := hstep s a m hl.1 hm
    have hle := ih hl.2 hrest
    rw [List.length_cons]
    omega

/-! ## Conditions on the steps of a run -/

instance decidableStepsMeet {C : σ → α → Prop} [∀ s a, Decidable (C s a)] :
    ∀ (s : σ) (l : List α), Decidable (StepsMeet step C s l)
  | _, [] => isTrue trivial
  | s, a :: l =>
    match h : step s a with
    | none => isTrue fun s' hs' => by rw [h] at hs'; cases hs'
    | some s' =>
      have := decidableStepsMeet (C := C) s' l
      decidable_of_iff (C s a ∧ StepsMeet step C s' l) (by simp [StepsMeet, h])

theorem stepsMeet_concat {C : σ → α → Prop} {s m : σ} {l : List α} {a : α}
    (hl : run step s l = some m) :
    StepsMeet step C s (l ++ [a]) ↔
      StepsMeet step C s l ∧ ∀ s', step m a = some s' → C m a := by
  induction l generalizing s with
  | nil =>
    cases hl
    simp [StepsMeet]
  | cons b l ih =>
    obtain ⟨n, hn, hl⟩ := run_cons.1 hl
    simp only [List.cons_append, StepsMeet, hn, Option.some.injEq, forall_eq']
    rw [ih hl, and_assoc]

theorem Along.mono {I P Q : σ → Prop} (hI : ∀ m a m', I m → step m a = some m' → I m')
    (himp : ∀ m, I m → P m → Q m) {l : List α} {s : σ} (hs : I s) (h : Along step P s l) :
    Along step Q s l := by
  induction l generalizing s with
  | nil => exact himp s hs h
  | cons a l ih => exact ⟨himp s hs h.1, fun s' hstep => ih (hI s a s' hs hstep) (h.2 s' hstep)⟩

theorem stepsMeet_of_invariant {C : σ → α → Prop} {I : σ → Prop}
    (hI : ∀ m a m', I m → step m a = some m' → I m') (hC : ∀ m a m', I m → step m a = some m' → C m a)
    {l : List α} {s : σ} (hs : I s) : StepsMeet step C s l := by
  induction l generalizing s with
  | nil => trivial
  | cons a l ih => exact fun s' hstep => ⟨hC s a s' hs hstep, ih (hI s a s' hs hstep)⟩

/-- What follows from the state before a step. -/
theorem Along.stepsMeet {C : σ → α → Prop} {P : σ → Prop} (hC : ∀ m a m', P m → step m a = some m' → C m a)
    {l : List α} {s : σ} (h : Along step P s l) : StepsMeet step C s l := by
  induction l generalizing s with
  | nil => trivial
  | cons a l ih => exact fun s' hstep => ⟨hC s a s' h.1 hstep, ih (h.2 s' hstep)⟩

/-- **A run keeps `P` throughout iff its steps meet `C`**, when under the invariant `I` a step from a
state with `P` leads to a state with `P` iff it meets `C`. -/
theorem along_iff_stepsMeet {C : σ → α → Prop} {I P : σ → Prop}
    (hI : ∀ m a m', I m → step m a = some m' → I m')
    (hstep : ∀ m a m', I m → P m → step m a = some m' → (P m' ↔ C m a)) :
    ∀ {l : List α} {s : σ}, I s → P s → (Along step P s l ↔ StepsMeet step C s l)
  | [], s, _, hp => by simp [Along, StepsMeet, hp]
  | a :: l, s, hi, hp => by
    simp only [Along, StepsMeet, hp, true_and]
    constructor
    · intro h s' hs'
      have hrest := h s' hs'
      have hp' : P s' := by
        cases l with
        | nil => exact hrest
        | cons b l => exact hrest.1
      exact ⟨(hstep s a s' hi hp hs').mp hp',
        (along_iff_stepsMeet hI hstep (hI s a s' hi hs') hp').mp hrest⟩
    · intro h s' hs'
      obtain ⟨hc, hrest⟩ := h s' hs'
      have hp' := (hstep s a s' hi hp hs').mpr hc
      exact (along_iff_stepsMeet hI hstep (hI s a s' hi hs') hp').mpr hrest

end OstepHw.Machine
