import Mathlib.Algebra.BigOperators.Group.Finset.Basic
import Mathlib.Algebra.Order.BigOperators.Group.Finset
import Mathlib.Algebra.Ring.Int.Defs
import Mathlib.Algebra.Ring.Nat
import OstepHw.Lib.Program

/-!
# The approximate counter

Model of `init`, `update` and `get` of `approximate_counter.c`, which every thread calls as often as it wants.  A
call on a lock is one step, and so is each statement that uses the counter; the counts are not bounded.  A lock is
held by a thread or free.  The state also records how much each thread has added.

* `prog` — the calls of a thread, one after the other;
* `unmoved` — what is in a local count and not yet in the global one;
* `Inv` — the global count and what is not yet moved are what was added;
* `counter_accurate` — between the updates nothing is lost, and `get` is not far off.
-/

set_option autoImplicit false

namespace OstepHw.ApproximateCounter

open Machine Program

def NUMCPUS : Nat := 16

structure CounterT where
  /-- The thread that holds `glock`. -/
  glock : Option Nat
  /-- `local` -/
  localCount : Nat → Int
  llock : Nat → Option Nat
  /-- `global` -/
  globalCount : Int
  threshold : Int
  /-- How much each thread has added to the local counts. -/
  added : Nat → Int

def init (threshold : Int) : CounterT := ⟨none, fun _ => 0, fun _ => none, 0, threshold, fun _ => 0⟩

/-- What `get` reads while it has `glock`. -/
def get (c : CounterT) : Int := c.globalCount

inductive Call
  | update (amt : Int)
  | get

/-- What a thread does next. -/
inductive Pc
  | idle
  /-- `update` -/
  | lockLocal (amt : Int)
  | addLocal (amt : Int)
  /-- `c->local[cpu] >= c->threshold` -/
  | testThreshold
  | lockGlobal
  | addGlobal
  | unlockGlobal
  | resetLocal
  | unlockLocal
  /-- `get` -/
  | getLock
  | getRead
  | getUnlock (val : Int)
  deriving DecidableEq

structure Place where
  pc : Pc
  /-- The calls that the thread has still to make. -/
  calls : List Call

/-- One statement of thread `i`, with `cpu` as index. -/
def stmt (i cpu : Nat) (c : CounterT) : Pc → Option (CounterT × Pc)
  | .idle => none
  | .lockLocal amt =>
    if c.llock cpu = none then some ({ c with llock := Function.update c.llock cpu (some i) }, .addLocal amt) else none
  | .addLocal amt =>
    some ({ c with
      localCount := Function.update c.localCount cpu (c.localCount cpu + amt)
      added := Function.update c.added i (c.added i + amt) }, .testThreshold)
  | .testThreshold => some (c, if c.threshold ≤ c.localCount cpu then .lockGlobal else .unlockLocal)
  | .lockGlobal => if c.glock = none then some ({ c with glock := some i }, .addGlobal) else none
  | .addGlobal => some ({ c with globalCount := c.globalCount + c.localCount cpu }, .unlockGlobal)
  | .unlockGlobal => some ({ c with glock := none }, .resetLocal)
  | .resetLocal => some ({ c with localCount := Function.update c.localCount cpu 0 }, .unlockLocal)
  | .unlockLocal => some ({ c with llock := Function.update c.llock cpu none }, .idle)
  | .getLock => if c.glock = none then some ({ c with glock := some i }, .getRead) else none
  | .getRead => some (c, .getUnlock (get c))
  | .getUnlock _ => some ({ c with glock := none }, .idle)

def Call.start : Call → Pc
  | .update amt => .lockLocal amt
  | .get => .getLock

/-- `int cpu = threadID % NUMCPUS`, with the sign of `threadID`. -/
def cpuOf (threadID : Int) : Int := threadID.tmod NUMCPUS

/-- The calls of a thread; an index below 0 is outside of the arrays. -/
def prog (threadID : Nat → Int) : Prog CounterT Place
  | _, c, ⟨.idle, call :: calls⟩ => some (c, ⟨call.start, calls⟩)
  | i, c, ⟨pc, calls⟩ =>
    if 0 ≤ cpuOf (threadID i) then (stmt i (cpuOf (threadID i)).toNat c pc).map fun r => (r.1, ⟨r.2, calls⟩)
    else none

/-- Thread `i` makes the calls `calls i`. -/
def start (threshold : Int) (calls : Nat → List Call) : State CounterT Place :=
  ⟨init threshold, fun i => ⟨.idle, calls i⟩⟩

def Call.amount : Call → Int
  | .update amt => amt
  | .get => 0

/-- What the calls add. -/
def amounts (calls : List Call) : Int := (calls.map Call.amount).sum

namespace Pc

/-- `update` is in progress. -/
def updating : Pc → Bool
  | idle | getLock | getRead | getUnlock _ => false
  | _ => true

/-- Between `Pthread_mutex_lock` and `Pthread_mutex_unlock` of `llock[cpu]`. -/
def inLocal : Pc → Bool
  | addLocal _ | testThreshold | lockGlobal | addGlobal | unlockGlobal | resetLocal | unlockLocal => true
  | _ => false

/-- The local count is in the global count, too. -/
def moved : Pc → Bool
  | unlockGlobal | resetLocal => true
  | _ => false

/-- What `update` has still to add. -/
def pending : Pc → Int
  | lockLocal amt | addLocal amt => amt
  | _ => 0

end Pc

/-- What a thread knows about its amount. -/
def Positive : Pc → Prop
  | .lockLocal amt | .addLocal amt => 1 ≤ amt
  | _ => True

/-- What a thread knows about its local count `x`. -/
def Fits (threshold x : Int) : Pc → Prop
  | .addLocal _ | .unlockLocal => 0 ≤ x ∧ x < threshold
  | .testThreshold | .lockGlobal | .addGlobal | .unlockGlobal | .resetLocal => 0 ≤ x
  | _ => True

/-- What is in the local count and not in the global one, when thread `i` with `pc i` has the lock. -/
def unmoved (c : CounterT) (pc : Nat → Pc) (k : Nat) : Int :=
  match c.llock k with
  | none => c.localCount k
  | some i => if (pc i).moved then 0 else c.localCount k

structure Inv (n : Nat) (cpu : Nat → Nat) (T : Int) (c : CounterT) (pc : Nat → Pc) : Prop where
  threshold : c.threshold = T
  llock : ∀ k i, c.llock k = some i ↔ i < n ∧ cpu i = k ∧ (pc i).inLocal = true
  free : ∀ k, c.llock k = none → 0 ≤ c.localCount k ∧ c.localCount k < T
  positive : ∀ i < n, Positive (pc i)
  fits : ∀ i < n, Fits T (c.localCount (cpu i)) (pc i)
  conserved : c.globalCount + ∑ k ∈ Finset.range NUMCPUS, unmoved c pc k = ∑ i ∈ Finset.range n, c.added i

/-! ## What one statement does -/

section
variable {i cpu k : Nat} {c c' : CounterT} {pc pc' : Pc} {T : Int}

theorem stmt_threshold (h : stmt i cpu c pc = some (c', pc')) : c'.threshold = c.threshold := by
  cases pc <;> simp only [stmt, Option.ite_none_right_eq_some, Option.some.injEq, Prod.mk.injEq] at h <;>
    first | obtain ⟨rfl, rfl⟩ := h | obtain ⟨-, rfl, rfl⟩ := h
  all_goals rfl

/-- The other slots stay as they are. -/
theorem stmt_slot (h : stmt i cpu c pc = some (c', pc')) (hk : k ≠ cpu) :
    c'.localCount k = c.localCount k ∧ c'.llock k = c.llock k := by
  cases pc <;> simp only [stmt, Option.ite_none_right_eq_some, Option.some.injEq, Prod.mk.injEq] at h <;>
    first | obtain ⟨rfl, rfl⟩ := h | obtain ⟨-, rfl, rfl⟩ := h
  all_goals simp [hk]

/-- Without the lock the local count stays as it is. -/
theorem stmt_localCount (h : stmt i cpu c pc = some (c', pc')) (hp : pc.inLocal = false) :
    c'.localCount = c.localCount := by
  cases pc <;> simp only [stmt, Option.ite_none_right_eq_some, Option.some.injEq, Prod.mk.injEq] at h <;>
    first | obtain ⟨rfl, rfl⟩ := h | obtain ⟨-, rfl, rfl⟩ := h
  all_goals first | rfl | cases hp

theorem stmt_llock (h : stmt i cpu c pc = some (c', pc')) (hp : pc.inLocal = true → c.llock cpu = some i) :
    c'.llock cpu = (if pc'.inLocal then some i else if pc.inLocal then none else c.llock cpu) ∧
      (pc'.inLocal = true → pc.inLocal = true ∨ c.llock cpu = none) := by
  cases pc <;> simp only [stmt, Option.ite_none_right_eq_some, Option.some.injEq, Prod.mk.injEq] at h <;>
    first | obtain ⟨rfl, rfl⟩ := h | obtain ⟨hfree, rfl, rfl⟩ := h
  all_goals grind [Pc.inLocal, Function.update_self]

theorem stmt_positive (h : stmt i cpu c pc = some (c', pc')) (hp : Positive pc) : Positive pc' := by
  cases pc <;> simp only [stmt, Option.ite_none_right_eq_some, Option.some.injEq, Prod.mk.injEq] at h <;>
    first | obtain ⟨rfl, rfl⟩ := h | obtain ⟨-, rfl, rfl⟩ := h
  case testThreshold => split <;> trivial
  all_goals first | exact hp | trivial

theorem stmt_fits (h : stmt i cpu c pc = some (c', pc')) (hT : 1 ≤ c.threshold) (hp : Positive pc)
    (hlock : pc.inLocal = true → c.llock cpu = some i) (hfits : Fits c.threshold (c.localCount cpu) pc)
    (hfree : c.llock cpu = none → 0 ≤ c.localCount cpu ∧ c.localCount cpu < c.threshold) :
    Fits c.threshold (c'.localCount cpu) pc' ∧
      (c'.llock cpu = none → 0 ≤ c'.localCount cpu ∧ c'.localCount cpu < c.threshold) := by
  cases pc <;> simp only [stmt, Option.ite_none_right_eq_some, Option.some.injEq, Prod.mk.injEq] at h <;>
    first | obtain ⟨rfl, rfl⟩ := h | obtain ⟨hnone, rfl, rfl⟩ := h
  all_goals grind [Fits, Positive, Pc.inLocal, Function.update_self]

/-- What a step adds is in the local count or in the global one. -/
theorem stmt_conserved (h : stmt i cpu c pc = some (c', pc')) :
    c'.globalCount + (if pc'.moved then 0 else c'.localCount cpu) + pc'.pending =
      c.globalCount + (if pc.moved then 0 else c.localCount cpu) + pc.pending := by
  cases pc <;> simp only [stmt, Option.ite_none_right_eq_some, Option.some.injEq, Prod.mk.injEq] at h <;>
    first | obtain ⟨rfl, rfl⟩ := h | obtain ⟨hnone, rfl, rfl⟩ := h
  all_goals grind [Pc.moved, Pc.pending]

theorem stmt_added (h : stmt i cpu c pc = some (c', pc')) :
    c'.added = Function.update c.added i (c.added i + (pc.pending - pc'.pending)) := by
  cases pc <;> simp only [stmt, Option.ite_none_right_eq_some, Option.some.injEq, Prod.mk.injEq] at h <;>
    first | obtain ⟨rfl, rfl⟩ := h | obtain ⟨-, rfl, rfl⟩ := h
  case testThreshold => split <;> simp [Pc.pending]
  all_goals simp [Pc.pending]

end

/-! ## The invariant -/

section
variable {n i : Nat} {cpu : Nat → Nat} {T : Int} {c c' : CounterT} {pc : Nat → Pc} {q : Pc}

theorem inv_init (hT : 1 ≤ T) (hpc : ∀ i, pc i = .idle) : Inv n cpu T (init T) pc where
  threshold := rfl
  llock k i := by
    rw [hpc]
    exact iff_of_false (fun h => by cases h) fun h => by cases h.2.2
  free _ _ := ⟨le_rfl, hT⟩
  positive i _ := by
    rw [hpc]
    trivial
  fits i _ := by
    rw [hpc]
    trivial
  conserved := by
    have hzero : ∀ k ∈ Finset.range NUMCPUS, unmoved (init T) pc k = 0 := fun _ _ => rfl
    rw [Finset.sum_eq_zero hzero]
    exact (Finset.sum_const_zero (s := Finset.range n)).symm

theorem Inv.own_lock (h : Inv n cpu T c pc) (hi : i < n) (hp : (pc i).inLocal = true) : c.llock (cpu i) = some i :=
  (h.llock _ _).mpr ⟨hi, rfl, hp⟩

theorem Inv.llock_step (h : Inv n cpu T c pc) (hi : i < n) (hstmt : stmt i (cpu i) c (pc i) = some (c', q))
    (k j : Nat) : c'.llock k = some j ↔ j < n ∧ cpu j = k ∧ (Function.update pc i q j).inLocal = true := by
  have hj := h.llock k j
  rcases eq_or_ne k (cpu i) with rfl | hk
  · obtain ⟨heq, htaken⟩ := stmt_llock hstmt (h.own_lock hi)
    rw [heq]
    rcases eq_or_ne j i with rfl | hji
    · rw [Function.update_self]
      by_cases hq : q.inLocal = true
      · simp [hq, hi]
      · by_cases hp : (pc j).inLocal = true
        · simp [hq, hp]
        · rw [if_neg hq, if_neg hp, hj]
          simp [hq, hp]
    · rw [Function.update_of_ne hji]
      by_cases hown : q.inLocal = true ∨ (pc i).inLocal = true
      · -- thread `i` has the lock before or after the step, so nobody else has it
        have hnot : ¬c.llock (cpu i) = some j := fun hlock => by
          have hp : (pc i).inLocal = true := by
            rcases hown with hq | hp
            · refine (htaken hq).resolve_right fun hnone => ?_
              rw [hnone] at hlock
              cases hlock
            · exact hp
          rw [h.own_lock hi hp] at hlock
          exact hji (Option.some.inj hlock).symm
        rw [← hj]
        refine iff_of_false (fun hlock => ?_) hnot
        split at hlock
        · exact hji (Option.some.inj hlock).symm
        · next hq =>
          rw [if_pos (hown.resolve_left hq)] at hlock
          cases hlock
      · rw [not_or] at hown
        rw [if_neg hown.1, if_neg hown.2, hj]
  · rw [(stmt_slot hstmt hk).2, hj]
    rcases eq_or_ne j i with rfl | hji
    · exact iff_of_false (fun h => hk h.2.1.symm) fun h => hk h.2.1.symm
    · rw [Function.update_of_ne hji]

theorem Inv.free_step (hT : 1 ≤ T) (h : Inv n cpu T c pc) (hi : i < n)
    (hstmt : stmt i (cpu i) c (pc i) = some (c', q)) (k : Nat) (hk : c'.llock k = none) :
    0 ≤ c'.localCount k ∧ c'.localCount k < T := by
  have hthreshold := h.threshold
  subst hthreshold
  rcases eq_or_ne k (cpu i) with rfl | hne
  · exact (stmt_fits hstmt hT (h.positive i hi) (h.own_lock hi) (h.fits i hi) (h.free _)).2 hk
  · obtain ⟨hlocal, hllock⟩ := stmt_slot hstmt hne
    rw [hllock] at hk
    rw [hlocal]
    exact h.free k hk

theorem Inv.fits_step (hT : 1 ≤ T) (h : Inv n cpu T c pc) (hi : i < n)
    (hstmt : stmt i (cpu i) c (pc i) = some (c', q)) {j : Nat} (hj : j < n) :
    Fits T (c'.localCount (cpu j)) (Function.update pc i q j) := by
  have hthreshold := h.threshold
  subst hthreshold
  rcases eq_or_ne j i with rfl | hji
  · rw [Function.update_self]
    exact (stmt_fits hstmt hT (h.positive j hi) (h.own_lock hi) (h.fits j hi) (h.free _)).1
  rw [Function.update_of_ne hji]
  have hsame : (pc j).inLocal = true → c'.localCount (cpu j) = c.localCount (cpu j) := fun hp => by
    rcases eq_or_ne (cpu j) (cpu i) with hcpu | hcpu
    · have hp' : (pc i).inLocal = false := by
        by_contra hp'
        have hlock := h.own_lock hi (by simpa using hp')
        rw [← hcpu, h.own_lock hj hp] at hlock
        exact hji (Option.some.inj hlock)
      rw [stmt_localCount hstmt hp']
    · exact (stmt_slot hstmt hcpu).1
  have hfits := h.fits j hj
  cases hp : pc j <;> rw [hp] at hsame hfits <;> first | trivial | (rw [hsame rfl]; exact hfits)

/-- The slots of the other threads. -/
theorem Inv.unmoved_of_ne (h : Inv n cpu T c pc) (hstmt : stmt i (cpu i) c (pc i) = some (c', q)) {k : Nat}
    (hk : k ≠ cpu i) : unmoved c' (Function.update pc i q) k = unmoved c pc k := by
  obtain ⟨hlocal, hllock⟩ := stmt_slot hstmt hk
  unfold unmoved
  rw [hlocal, hllock]
  cases hlock : c.llock k with
  | none => rfl
  | some j =>
    have hji : j ≠ i := by
      rintro rfl
      exact hk ((h.llock k j).mp hlock).2.1.symm
    dsimp only
    rw [Function.update_of_ne hji]

/-- The slot of thread `i`, and the global count. -/
theorem Inv.unmoved_self (h : Inv n cpu T c pc) (hi : i < n) (hstmt : stmt i (cpu i) c (pc i) = some (c', q)) :
    c'.globalCount + unmoved c' (Function.update pc i q) (cpu i) + q.pending =
      c.globalCount + unmoved c pc (cpu i) + (pc i).pending := by
  have hconserved := stmt_conserved hstmt
  obtain ⟨heq, htaken⟩ := stmt_llock hstmt (h.own_lock hi)
  have hmoved : ∀ p : Pc, p.inLocal = false → p.moved = false := fun p hp => by
    cases p <;> first | rfl | cases hp
  unfold unmoved
  by_cases hp : (pc i).inLocal = true
  · rw [h.own_lock hi hp, heq]
    by_cases hq : q.inLocal = true
    · simpa [hq] using hconserved
    · rw [hmoved q (by simpa using hq)] at hconserved
      simpa [hq, hp] using hconserved
  · have hp' : (pc i).inLocal = false := by simpa using hp
    rw [hmoved _ hp'] at hconserved
    by_cases hq : q.inLocal = true
    · rw [(htaken hq).resolve_left hp, heq]
      simpa [hq] using hconserved
    · rw [hmoved q (by simpa using hq), stmt_localCount hstmt hp'] at hconserved
      rw [heq, if_neg hq, if_neg hp, stmt_localCount hstmt hp']
      cases hlock : c.llock (cpu i) with
      | none => simpa using hconserved
      | some j =>
        have hji : j ≠ i := by
          rintro rfl
          exact hp ((h.llock _ _).mp hlock).2.2
        dsimp only
        rw [Function.update_of_ne hji]
        simp only [Bool.false_eq_true, if_false] at hconserved
        omega

theorem Inv.conserved_step (h : Inv n cpu T c pc) (hi : i < n) (hcpu : cpu i < NUMCPUS)
    (hstmt : stmt i (cpu i) c (pc i) = some (c', q)) :
    c'.globalCount + ∑ k ∈ Finset.range NUMCPUS, unmoved c' (Function.update pc i q) k =
      ∑ j ∈ Finset.range n, c'.added j := by
  have hself := h.unmoved_self hi hstmt
  have hslots := Finset.add_sum_erase (Finset.range NUMCPUS) (unmoved c pc) (Finset.mem_range.mpr hcpu)
  have hslots' := Finset.add_sum_erase (Finset.range NUMCPUS) (unmoved c' (Function.update pc i q))
    (Finset.mem_range.mpr hcpu)
  have hothers : ∑ k ∈ (Finset.range NUMCPUS).erase (cpu i), unmoved c' (Function.update pc i q) k =
      ∑ k ∈ (Finset.range NUMCPUS).erase (cpu i), unmoved c pc k :=
    Finset.sum_congr rfl fun k hk => h.unmoved_of_ne hstmt (Finset.ne_of_mem_erase hk)
  have hadded := Finset.add_sum_erase (Finset.range n) c.added (Finset.mem_range.mpr hi)
  have hadded' := Finset.add_sum_erase (Finset.range n) c'.added (Finset.mem_range.mpr hi)
  have hothersAdded : ∑ j ∈ (Finset.range n).erase i, c'.added j = ∑ j ∈ (Finset.range n).erase i, c.added j :=
    Finset.sum_congr rfl fun k hk => by
      rw [stmt_added hstmt]
      exact Function.update_of_ne (Finset.ne_of_mem_erase hk) ..
  have hi' : c'.added i = c.added i + ((pc i).pending - q.pending) := by
    rw [stmt_added hstmt]
    exact Function.update_self ..
  have hconserved := h.conserved
  omega

/-- A call begins. -/
theorem Inv.call (h : Inv n cpu T c pc) (hp : pc i = .idle) (call : Call) (hpositive : Positive call.start) :
    Inv n cpu T c (Function.update pc i call.start) where
  threshold := h.threshold
  llock k j := by
    have hlocal : call.start.inLocal = (pc i).inLocal := by
      rw [hp]
      cases call <;> rfl
    rw [Count.update_apply_of_eq hlocal]
    exact h.llock k j
  free := h.free
  positive j hj := by
    rcases eq_or_ne j i with rfl | hji
    · rwa [Function.update_self]
    · rw [Function.update_of_ne hji]
      exact h.positive j hj
  fits j hj := by
    rcases eq_or_ne j i with rfl | hji
    · rw [Function.update_self]
      cases call <;> trivial
    · rw [Function.update_of_ne hji]
      exact h.fits j hj
  conserved := by
    have hmoved : call.start.moved = (pc i).moved := by
      rw [hp]
      cases call <;> rfl
    have hsame : unmoved c (Function.update pc i call.start) = unmoved c pc := by
      funext k
      unfold unmoved
      cases c.llock k with
      | none => rfl
      | some j =>
        dsimp only
        rw [Count.update_apply_of_eq hmoved]
    rw [hsame]
    exact h.conserved

/-- **Every statement keeps the invariant.** -/
theorem Inv.step (hT : 1 ≤ T) (h : Inv n cpu T c pc) (hi : i < n) (hcpu : cpu i < NUMCPUS)
    (hstmt : stmt i (cpu i) c (pc i) = some (c', q)) : Inv n cpu T c' (Function.update pc i q) where
  threshold := (stmt_threshold hstmt).trans h.threshold
  llock := h.llock_step hi hstmt
  free := h.free_step hT hi hstmt
  positive j hj := by
    rcases eq_or_ne j i with rfl | hji
    · rw [Function.update_self]
      exact stmt_positive hstmt (h.positive j hi)
    · rw [Function.update_of_ne hji]
      exact h.positive j hj
  fits _ hj := h.fits_step hT hi hstmt hj
  conserved := h.conserved_step hi hcpu hstmt

end

variable {n i : Nat} {threadID : Nat → Int} {T : Int} {calls : Nat → List Call} {s s' : State CounterT Place}

/-- The places of the threads in their calls. -/
def pcs (s : State CounterT Place) : Nat → Pc := fun i => (s.place i).pc

/-- The slot of each thread. -/
def slots (threadID : Nat → Int) (i : Nat) : Nat := (cpuOf (threadID i)).toNat

theorem slots_lt (threadID : Nat → Int) (i : Nat) : slots threadID i < NUMCPUS := by
  have hlt : cpuOf (threadID i) < NUMCPUS := Int.tmod_lt_of_pos _ (by decide)
  unfold slots
  have : (0 : Int) < NUMCPUS := by decide
  omega

theorem prog_cases {c c' : CounterT} {p p' : Place} (h : prog threadID i c p = some (c', p')) :
    (c' = c ∧ p.pc = .idle ∧ ∃ call : Call, p.calls = call :: p'.calls ∧ p'.pc = call.start) ∨
      (stmt i (slots threadID i) c p.pc = some (c', p'.pc) ∧ p'.calls = p.calls) := by
  obtain ⟨pc, calls⟩ := p
  by_cases hpc : pc = .idle
  · subst hpc
    cases calls with
    | nil =>
      simp [prog, stmt] at h
    | cons call calls =>
      cases h
      exact .inl ⟨rfl, rfl, call, rfl, rfl⟩
  · have hprog : prog threadID i c ⟨pc, calls⟩ =
        if 0 ≤ cpuOf (threadID i) then (stmt i (slots threadID i) c pc).map fun r => (r.1, ⟨r.2, calls⟩) else none := by
      cases pc <;> first | rfl | exact absurd rfl hpc
    rw [hprog, Option.ite_none_right_eq_some] at h
    obtain ⟨⟨c'', pc'⟩, hstmt, heq⟩ := Option.map_eq_some_iff.mp h.2
    cases heq
    exact .inr ⟨hstmt, rfl⟩

/-- The invariant of a run, in which thread `i` makes the calls `calls i`. -/
structure Running (n : Nat) (threadID : Nat → Int) (T : Int) (calls : Nat → List Call) (s : State CounterT Place) :
    Prop where
  inv : Inv n (slots threadID) T s.shared (pcs s)
  called : ∀ i, s.shared.added i + (pcs s i).pending + amounts (s.place i).calls = amounts (calls i)
  positive : ∀ i < n, ∀ amt, Call.update amt ∈ (s.place i).calls → 1 ≤ amt

theorem running_step (hT : 1 ≤ T) (h : Running n threadID T calls s) (hstep : step n (prog threadID) s i = some s') :
    Running n threadID T calls s' := by
  have hi := lt_of_step hstep
  have hpcs : pcs s' = Function.update (pcs s) i (s'.place i).pc := comp_place_step Place.pc hstep
  rcases prog_cases (prog_of_step hstep) with ⟨hsame, hidle, call, hcalls, hcall⟩ | ⟨hstmt, hcalls⟩
  · have hidle' : pcs s i = .idle := hidle
    refine ⟨?_, fun j => ?_, fun j hj amt hmem => ?_⟩
    · rw [hpcs, hsame, hcall]
      refine h.inv.call hidle' call ?_
      cases call with
      | update amt => exact h.positive i hi amt (by rw [hcalls]; exact List.mem_cons_self)
      | get => trivial
    · have hj := h.called j
      rw [hpcs, hsame]
      rcases eq_or_ne j i with rfl | hji
      · rw [hidle', hcalls] at hj
        rw [Function.update_self, hcall, ← hj, amounts, amounts, List.map_cons, List.sum_cons]
        cases call <;> simp [Pc.pending, Call.start, Call.amount, add_assoc]
      · rw [Function.update_of_ne hji, place_step_of_ne hstep hji]
        exact hj
    · rcases eq_or_ne j i with rfl | hji
      · exact h.positive j hj amt (by rw [hcalls]; exact List.mem_cons_of_mem _ hmem)
      · rw [place_step_of_ne hstep hji] at hmem
        exact h.positive j hj amt hmem
  · refine ⟨?_, fun j => ?_, fun j hj amt hmem => ?_⟩
    · rw [hpcs]
      exact h.inv.step hT hi (slots_lt threadID i) hstmt
    · have hj := h.called j
      rw [hpcs, stmt_added hstmt]
      rcases eq_or_ne j i with rfl | hji
      · rw [Function.update_self, Function.update_self, hcalls]
        have : (pcs s j).pending = (s.place j).pc.pending := rfl
        omega
      · rw [Function.update_of_ne hji, Function.update_of_ne hji, place_step_of_ne hstep hji]
        exact hj
    · rcases eq_or_ne j i with rfl | hji
      · rw [hcalls] at hmem
        exact h.positive j hj amt hmem
      · rw [place_step_of_ne hstep hji] at hmem
        exact h.positive j hj amt hmem

theorem running_start (hT : 1 ≤ T) (hamt : ∀ i < n, ∀ amt, Call.update amt ∈ calls i → 1 ≤ amt) :
    Running n threadID T calls (start T calls) where
  inv := inv_init hT fun _ => rfl
  called i := by
    show 0 + 0 + amounts (calls i) = _
    omega
  positive := hamt

/-- Only `update` has the lock of a slot. -/
theorem Running.llock_eq_none (h : Running n threadID T calls s) (hquiet : ∀ i < n, (s.place i).pc.updating = false)
    (k : Nat) : s.shared.llock k = none := by
  by_contra hlock
  obtain ⟨i, hi⟩ := Option.ne_none_iff_exists'.mp hlock
  obtain ⟨hin, -, hlocal⟩ := (h.inv.llock k i).mp hi
  have hupdating := hquiet i hin
  unfold pcs at hlocal
  cases hp : (s.place i).pc <;> rw [hp] at hlocal hupdating <;> first | (cases hupdating; done) | cases hlocal

/-- Nothing is on its way from a slot to the global count, and every call has added what it had to. -/
theorem Running.conserved (h : Running n threadID T calls s) (hquiet : ∀ i < n, (s.place i).pc.updating = false) :
    s.shared.globalCount + ∑ k ∈ Finset.range NUMCPUS, s.shared.localCount k =
      ∑ i ∈ Finset.range n, (amounts (calls i) - amounts (s.place i).calls) := by
  have hunmoved : ∀ k ∈ Finset.range NUMCPUS, unmoved s.shared (pcs s) k = s.shared.localCount k := by
    intro k _
    unfold unmoved
    rw [h.llock_eq_none hquiet]
  have hadded : ∀ i ∈ Finset.range n, s.shared.added i = amounts (calls i) - amounts (s.place i).calls := by
    intro i hi
    have hcalled := h.called i
    have hupdating := hquiet i (Finset.mem_range.mp hi)
    have hpending : (pcs s i).pending = 0 := by
      unfold pcs
      cases hp : (s.place i).pc <;> rw [hp] at hupdating <;> first | rfl | cases hupdating
    omega
  rw [← Finset.sum_congr rfl hunmoved, ← Finset.sum_congr rfl hadded]
  exact h.inv.conserved

/-- **The counter is accurate between the updates**: when no `update` is in progress, the global count and the local
ones are what the calls so far have added, every local count is below the threshold, and `get` is short of the total
by less than the threshold for each slot. -/
theorem counter_accurate (n : Nat) (threadID : Nat → Int) (T : Int) (calls : Nat → List Call) (hT : 1 ≤ T)
    (hamt : ∀ i < n, ∀ amt, Call.update amt ∈ calls i → 1 ≤ amt) (s : State CounterT Place)
    (h : Reaches (step n (prog threadID)) (start T calls) s)
    (hquiet : ∀ i < n, (s.place i).pc.updating = false) (total : Int)
    (htotal : total = ∑ i ∈ Finset.range n, (amounts (calls i) - amounts (s.place i).calls)) :
    s.shared.globalCount + ∑ k ∈ Finset.range NUMCPUS, s.shared.localCount k = total ∧
      (∀ k < NUMCPUS, 0 ≤ s.shared.localCount k ∧ s.shared.localCount k < T) ∧
      get s.shared ≤ total ∧ total - get s.shared ≤ NUMCPUS * (T - 1) := by
  have hrun : Running n threadID T calls s := invariant (I := Running n threadID T calls) (running_start hT hamt)
    (fun _ _ _ hm hstep => running_step hT hm hstep) h
  have hlocals : ∀ k, 0 ≤ s.shared.localCount k ∧ s.shared.localCount k < T := fun k =>
    hrun.inv.free k (hrun.llock_eq_none hquiet k)
  have hconserved : s.shared.globalCount + ∑ k ∈ Finset.range NUMCPUS, s.shared.localCount k = total := by
    rw [htotal]
    exact hrun.conserved hquiet
  have hnonneg : 0 ≤ ∑ k ∈ Finset.range NUMCPUS, s.shared.localCount k :=
    Finset.sum_nonneg fun k _ => (hlocals k).1
  have hbound : ∑ k ∈ Finset.range NUMCPUS, s.shared.localCount k ≤ NUMCPUS * (T - 1) := by
    have hle := Finset.sum_le_card_nsmul (Finset.range NUMCPUS) s.shared.localCount (T - 1) fun k _ => by
      have := (hlocals k).2
      omega
    rwa [Finset.card_range, nsmul_eq_mul] at hle
  refine ⟨hconserved, fun k _ => hlocals k, ?_, ?_⟩
  · unfold get
    omega
  · unfold get
    omega

/-- Two threads with one slot and threshold 2: three are moved, one is not. -/
theorem twoUpdates_accurate :
    ∃ s, run (step 2 (prog fun i => 16 * i + 17)) (start 2 fun i => if i = 0 then [.update 3] else [.update 1])
        (List.replicate 9 0 ++ List.replicate 5 1) = some s ∧
      get s.shared = 3 ∧ s.shared.localCount 1 = 1 ∧ get s.shared ≤ 4 ∧ 4 - get s.shared ≤ NUMCPUS * (2 - 1) := by
  have hacc := counter_accurate 2 (fun i => 16 * i + 17) 2 (fun i => if i = 0 then [.update 3] else [.update 1])
    (by decide) (fun i _ amt hmem => by split at hmem <;> simp_all) _
    ⟨List.replicate 9 0 ++ List.replicate 5 1, rfl⟩
    (fun i hi => by
      match i, hi with
      | 0, _ | 1, _ => rfl) 4 rfl
  exact ⟨_, rfl, rfl, rfl, hacc.2.2.1, hacc.2.2.2⟩

end OstepHw.ApproximateCounter
