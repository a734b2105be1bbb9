import Mathlib.Data.List.Basic

/-!
# Servers that answer every input

A server keeps a state: `step s i` is its next state and its answer to the input `i`.  A specification answers from
the input alone.

* `after`, `outputs` — the state after a list of inputs and the answers to it;
* `Meets` — a condition on every input of a list, in the state in which it comes;
* `outputs_eq_map_iff` — when the server cannot be told from the specification.
-/

set_option autoImplicit false

namespace OstepHw.Transducer

variable {σ ι ο : Type*} (step : σ → ι → σ × ο)

def after (s : σ) (l : List ι) : σ := l.foldl (fun s i => (step s i).1) s

def outputs : σ → List ι → List ο
  | _, [] => []
  | s, i :: l => (step s i).2 :: outputs (step s i).1 l

/-- Every input meets `C` in the state in which it comes. -/
def Meets (C : σ → ι → Prop) (s : σ) (l : List ι) : Prop :=
  ∀ before i rest, l = before ++ i :: rest → C (after step s before) i

variable {step}

theorem meets_nil (C : σ → ι → Prop) (s : σ) : Meets step C s [] := by
  intro before i rest hl
  exact absurd hl.symm (List.append_ne_nil_of_right_ne_nil before (List.cons_ne_nil i rest))

theorem meets_cons {C : σ → ι → Prop} {s : σ} {i : ι} {l : List ι} :
    Meets step C s (i :: l) ↔ C s i ∧ Meets step C (step s i).1 l := by
  constructor
  · intro h
    refine ⟨h [] i l rfl, fun before j rest hl => ?_⟩
    exact h (i :: before) j rest (congrArg (i :: ·) hl)
  · rintro ⟨hi, hl⟩ before j rest heq
    cases before with
    | nil =>
      obtain ⟨rfl, rfl⟩ := List.cons.inj heq
      exact hi
    | cons k before =>
      obtain ⟨rfl, rfl⟩ := List.cons.inj heq
      exact hl before j rest rfl

/-- **The server answers as the specification** exactly on lists whose inputs all meet the condition, when under an
invariant the condition is what one answer needs. -/
theorem outputs_eq_map_iff {Inv : σ → Prop} {C : σ → ι → Prop} {f : ι → ο}
    (hkeep : ∀ s i, Inv s → Inv (step s i).1) (hstep : ∀ s i, Inv s → ((step s i).2 = f i ↔ C s i)) {s : σ}
    (hs : Inv s) (l : List ι) : outputs step s l = l.map f ↔ Meets step C s l := by
  induction l generalizing s with
  | nil => exact iff_of_true rfl (meets_nil C s)
  | cons i l ih =>
    rw [outputs, List.map_cons, List.cons.injEq, hstep s i hs, ih (hkeep s i hs), meets_cons]

end OstepHw.Transducer
