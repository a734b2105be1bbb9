import OstepHw.Lib.Count
import OstepHw.Lib.Machine

/-!
# Threads that share a state

Every thread is in some place of its program, and one step of a program reads and writes the shared state
and goes on to the next place.  A call that blocks, such as a wait on a semaphore without tokens, is a
step that cannot be taken.  An interleaving is a list of threads.

* `step` — one thread takes a step;
* `balance_step` — **the bookkeeping rule**: what a step adds to a quantity of the shared state it takes
  from the number of threads in certain places;
* `place_step_of_ne` — the other threads stay where they are;
* `critical_step` — **the rule of the critical section**: what a thread knows while it has a lock;
* `Counts`, `Counts.overtaking` — how often one thread comes before another;
* `solo`, `reaches_of_solo` — one thread runs while the others stand still;
* `State.map`, `step_map` — places that are told apart in one program and not in another;
* `Sem_wait` — one step of a thread that takes a token of a semaphore.
-/

set_option autoImplicit false

namespace OstepHw.Program

open Machine OstepHw.Count

variable {σ τ : Type*}

structure State (σ τ : Type*) where
  shared : σ
  place : Nat → τ

/-- One step of a thread: the shared state and the place after it, `none` when the thread is blocked. -/
abbrev Prog (σ τ : Type*) := Nat → σ → τ → Option (σ × τ)

/-- Thread `i` of `n` takes a step. -/
def step (n : Nat) (prog : Prog σ τ) (s : State σ τ) (i : Nat) : Option (State σ τ) :=
  if i < n then (prog i s.shared (s.place i)).map fun r => ⟨r.1, Function.update s.place i r.2⟩ else none

/-- Thread `i` is not blocked. -/
def Enabled (prog : Prog σ τ) (s : State σ τ) (i : Nat) : Prop := (prog i s.shared (s.place i)).isSome

variable {n : Nat} {prog : Prog σ τ} {s s' : State σ τ} {i j : Nat}

theorem step_eq_some : step n prog s i = some s' ↔
    i < n ∧ ∃ sh p, prog i s.shared (s.place i) = some (sh, p) ∧ s' = ⟨sh, Function.update s.place i p⟩ := by
  unfold step
  split
  · next hi =>
    rw [Option.map_eq_some_iff, and_iff_right hi]
    constructor
    · rintro ⟨⟨sh, p⟩, hprog, rfl⟩
      exact ⟨sh, p, hprog, rfl⟩
    · rintro ⟨sh, p, hprog, rfl⟩
      exact ⟨(sh, p), hprog, rfl⟩
  · next hi => simp [hi]

theorem prog_of_step (h : step n prog s i = some s') :
    prog i s.shared (s.place i) = some (s'.shared, s'.place i) := by
  obtain ⟨-, sh, p, hprog, rfl⟩ := step_eq_some.1 h
  rw [hprog]
  dsimp only
  rw [Function.update_self]

theorem place_step_of_ne (h : step n prog s i = some s') (hij : j ≠ i) : s'.place j = s.place j := by
  obtain ⟨-, sh, p, -, rfl⟩ := step_eq_some.1 h
  exact Function.update_of_ne hij ..

theorem lt_of_step (h : step n prog s i = some s') : i < n := (step_eq_some.1 h).1

/-! ## Bookkeeping -/

theorem count_step (p : τ → Bool) (h : step n prog s i = some s') :
    count n p s'.place + (if p (s.place i) then 1 else 0) =
      count n p s.place + if p (s'.place i) then 1 else 0 := by
  obtain ⟨hi, sh, q, -, rfl⟩ := step_eq_some.1 h
  simp only [Function.update_self]
  exact count_update p s.place q hi

theorem total_step (r : τ → Nat) (h : step n prog s i = some s') :
    total n r s'.place + r (s.place i) = total n r s.place + r (s'.place i) := by
  obtain ⟨hi, sh, q, -, rfl⟩ := step_eq_some.1 h
  simp only [Function.update_self]
  exact total_update r s.place q hi

/-- The others stay where they are. -/
theorem others_step (p : τ → Bool) (h : step n prog s i = some s') :
    others n i p s'.place = others n i p s.place :=
  others_congr fun j _ hji => by rw [place_step_of_ne h hji]

/-- **The bookkeeping rule.** -/
theorem balance_step {g : σ → Int} {p : τ → Bool} (h : step n prog s i = some s')
    (hlocal : g s'.shared + (if p (s'.place i) then 1 else 0) =
      g s.shared + if p (s.place i) then 1 else 0) :
    g s'.shared + count n p s'.place = g s.shared + count n p s.place := by
  have hstep := count_step p h
  split_ifs at hstep hlocal <;> omega

/-- At most one thread is in a place with `p`. -/
theorem eq_of_count_le_one {p : τ → Bool} {f : Nat → τ} (h : count n p f ≤ 1) (hi : i < n) (hj : j < n)
    (hpi : p (f i) = true) (hpj : p (f j) = true) : i = j := by
  by_contra hij
  have := count_pair hi hj hij hpi hpj
  omega

/-- **The rule of the critical section**: at most one thread is in a place with `q`.  What it knows there, the
others do not change, and outside there is nothing to know. -/
theorem critical_step {K : σ → τ → Prop} {q : τ → Bool} (hcount : count n q s.place ≤ 1)
    (hstep : step n prog s i = some s') (hout : ∀ sh p, q p = false → K sh p) (hself : K s'.shared (s'.place i))
    (hother : q (s.place i) = false → ∀ p, K s.shared p → K s'.shared p) (hj : j < n)
    (hK : K s.shared (s.place j)) : K s'.shared (s'.place j) := by
  rcases eq_or_ne j i with rfl | hji
  · exact hself
  rw [place_step_of_ne hstep hji]
  cases hi : q (s.place i) with
  | false => exact hother hi _ hK
  | true =>
    refine hout _ _ ?_
    by_contra hpj
    exact hji (eq_of_count_le_one hcount hj (lt_of_step hstep) (by simpa using hpj) hi)

/-! ## Counting what the threads have done -/

/-- `c` counts for each thread how often it has moved on from a place with `p`. -/
def Counts (prog : Prog σ τ) (c : σ → Nat → Nat) (p : τ → Bool) : Prop :=
  ∀ ⦃i sh q sh' q'⦄, prog i sh q = some (sh', q') →
    c sh' = if p q then Function.update (c sh) i (c sh i + 1) else c sh

section
variable {c : σ → Nat → Nat} {p : τ → Bool} {t u : Nat}

theorem Counts.step_of_ne (hc : Counts prog c p) (h : step n prog s i = some s') (hu : u ≠ i) :
    c s'.shared u = c s.shared u := by
  rw [hc (prog_of_step h)]
  split
  · exact Function.update_of_ne hu ..
  · rfl

theorem Counts.step_self (hc : Counts prog c p) (h : step n prog s i = some s') :
    c s'.shared i = c s.shared i + if p (s.place i) then 1 else 0 := by
  rw [hc (prog_of_step h)]
  split
  · exact Function.update_self ..
  · rfl

theorem Counts.step_le (hc : Counts prog c p) (h : step n prog s i = some s') (u : Nat) :
    c s.shared u ≤ c s'.shared u := by
  rcases eq_or_ne u i with rfl | hui
  · rw [hc.step_self h]
    exact Nat.le_add_right ..
  · rw [hc.step_of_ne h hui]

theorem Counts.run_le (hc : Counts prog c p) {l : List Nat} (h : run (step n prog) s l = some s') (u : Nat) :
    c s.shared u ≤ c s'.shared u :=
  invariant (I := fun m : State σ τ => c s.shared u ≤ c m.shared u) le_rfl
    (fun _ _ _ hm hstep => hm.trans (hc.step_le hstep u)) ⟨l, h⟩

/-- **The overtaking rule**: as long as thread `t` is not counted, the debt `d` to thread `u` pays for
all that `u` is counted. -/
theorem Counts.overtaking (hc : Counts prog c p) {I : State σ τ → Prop} {d : State σ τ → Nat}
    (hstep : ∀ m i m', I m → step n prog m i = some m' → c m'.shared t = c m.shared t →
      I m' ∧ c m'.shared u + d m' ≤ c m.shared u + d m)
    {l : List Nat} (hs : I s) (hrun : run (step n prog) s l = some s') (ht : c s'.shared t = c s.shared t) :
    c s'.shared u + d s' ≤ c s.shared u + d s := by
  induction l generalizing s with
  | nil =>
    cases hrun
    exact le_rfl
  | cons i l ih =>
    obtain ⟨m, hm, hrest⟩ := run_cons.1 hrun
    have hle := hc.step_le hm t
    have hle' := hc.run_le hrest t
    obtain ⟨him, hpaid⟩ := hstep s i m hs hm (by omega)
    exact (ih him hrest (by omega)).trans hpaid

end

/-! ## A thread that runs alone -/

/-- `k` steps of thread `i`. -/
def solo (prog : Prog σ τ) (i : Nat) : Nat → σ × τ → Option (σ × τ)
  | 0, r => some r
  | k + 1, r => (prog i r.1 r.2).bind (solo prog i k)

theorem solo_succ {k : Nat} {m : σ} {q : τ} {r : σ × τ} (h : prog i m q = some r) :
    solo prog i (k + 1) (m, q) = solo prog i k r := by
  rw [solo, h, Option.bind_some]

/-- While a thread runs alone, the others stay where they are. -/
theorem reaches_of_solo {k : Nat} {m sh : σ} {q p : τ} (hi : i < n) (hm : s.shared = m) (hq : s.place i = q)
    (h : solo prog i k (m, q) = some (sh, p)) :
    ∃ s', Reaches (step n prog) s s' ∧ s'.shared = sh ∧ s'.place i = p ∧ ∀ j ≠ i, s'.place j = s.place j := by
  induction k generalizing s m q with
  | zero =>
    cases h
    exact ⟨s, .refl s, hm, hq, fun _ _ => rfl⟩
  | succ k ih =>
    subst hm hq
    obtain ⟨⟨m, q⟩, hprog, hrest⟩ := Option.bind_eq_some_iff.mp h
    have hstep : step n prog s i = some ⟨m, Function.update s.place i q⟩ :=
      step_eq_some.2 ⟨hi, m, q, hprog, rfl⟩
    obtain ⟨s', hreach, hshared, hplace, hothers⟩ :=
      ih (s := ⟨m, Function.update s.place i q⟩) rfl (Function.update_self ..) hrest
    exact ⟨s', .trans ⟨[i], run_cons.2 ⟨_, hstep, rfl⟩⟩ hreach, hshared, hplace, fun j hj =>
      (hothers j hj).trans (Function.update_of_ne hj ..)⟩

/-! ## A coarser view of the places -/

section
variable {υ : Type*} {f : τ → υ} {coarse : Prog σ υ}

theorem comp_place_step (f : τ → υ) (h : step n prog s i = some s') :
    f ∘ s'.place = Function.update (f ∘ s.place) i (f (s'.place i)) := by
  obtain ⟨-, sh, p, -, rfl⟩ := step_eq_some.1 h
  simp only [Function.comp_update, Function.update_self]

def State.map (f : τ → υ) (s : State σ τ) : State σ υ := ⟨s.shared, f ∘ s.place⟩

/-- **The stuttering rule**: each step of a thread is a step of the coarser program, or no step at all. -/
theorem step_map
    (hprog : ∀ ⦃i sh q sh' q'⦄, prog i sh q = some (sh', q') →
      coarse i sh (f q) = some (sh', f q') ∨ (sh' = sh ∧ f q' = f q))
    (h : step n prog s i = some s') : step n coarse (s.map f) i = some (s'.map f) ∨ s'.map f = s.map f := by
  obtain ⟨hi, sh, p, hp, rfl⟩ := step_eq_some.1 h
  have hmap : State.map f ⟨sh, Function.update s.place i p⟩ = ⟨sh, Function.update (f ∘ s.place) i (f p)⟩ := by
    rw [State.map, Function.comp_update]
  rw [hmap]
  rcases hprog hp with hcoarse | ⟨rfl, hf⟩
  · exact .inl (step_eq_some.2 ⟨hi, sh, f p, hcoarse, rfl⟩)
  · right
    rw [hf, State.map, show f (s.place i) = (f ∘ s.place) i from rfl, Function.update_eq_self]

end

/-! ## Semaphores -/

/-- Any of the threads that wait may take the next token: `go` gets what is left of the tokens. -/
def semWait (value : Nat) (go : Nat → σ × τ) : Option (σ × τ) :=
  if 0 < value then some (go (value - 1)) else none

theorem semWait_eq_some {value : Nat} {go : Nat → σ × τ} {r : σ × τ} :
    semWait value go = some r ↔ 0 < value ∧ go (value - 1) = r := by
  unfold semWait
  split
  · next h => simp [h]
  · next h => simp [h]

theorem semWait_isSome {value : Nat} {go : Nat → σ × τ} : (semWait value go).isSome ↔ 0 < value := by
  unfold semWait
  split
  · next h => simp [h]
  · next h => simp [h]

end OstepHw.Program
