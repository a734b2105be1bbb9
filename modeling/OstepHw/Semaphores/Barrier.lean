import OstepHw.Lib.Program

/-!
# The reusable barrier

Model of `barrier_init` and `barrier` of `barrier.c`, which every thread calls several times.  A call on a
semaphore is one step, and so is an access to `num_arrived`, which only the thread that holds `mutex` uses.

A call passes two gates, one for each turnstile, so the gates of all the calls of a thread are numbered:
gate `2 * k` is the first of call `k`.  On its way through a gate a thread is first counted, in
`num_arrived`, and then waits for a token of the turnstile.

* `Place.level` — how many halves of a gate a thread has behind it;
* `Inv` — some gate is the one where threads are counted; the last gate before it is open, and there is a
  token, or one that is still to be posted, for every thread that waits there;
* `barrier_together` — nobody returns before everybody has come, and nobody is stuck.
-/

set_option autoImplicit false

namespace OstepHw.Barrier

open Machine OstepHw.Count Program

structure BarrierT where
  mutex : Nat
  turnstile1 : Nat
  turnstile2 : Nat
  numArrived : Int
  numThreads : Int

def barrierInit (numThreads : Nat) : BarrierT := ⟨1, 0, 0, 0, numThreads⟩

/-- What a thread does next. -/
inductive Pc
  | outside
  | waitMutex
  | arrive
  /-- `b->num_arrived == b->num_threads` -/
  | testAll
  /-- The loop of posts, with its `i`. -/
  | post1 (i : Nat)
  | postMutex
  | waitTurnstile1
  | waitMutexAgain
  | leave
  /-- `b->num_arrived == 0` -/
  | testNone
  | post2 (i : Nat)
  | postMutexAgain
  | waitTurnstile2
  deriving DecidableEq

structure Place where
  pc : Pc
  /-- How many calls of `barrier` have returned. -/
  returned : Nat

/-- `calls` calls of `barrier`. -/
def prog (calls : Nat) : Prog BarrierT Place
  | _, b, ⟨.outside, k⟩ => if k < calls then some (b, ⟨.waitMutex, k⟩) else none
  | _, b, ⟨.waitMutex, k⟩ => semWait b.mutex fun v => ({ b with mutex := v }, ⟨.arrive, k⟩)
  | _, b, ⟨.arrive, k⟩ => some ({ b with numArrived := b.numArrived + 1 }, ⟨.testAll, k⟩)
  | _, b, ⟨.testAll, k⟩ => some (b, ⟨if b.numArrived = b.numThreads then .post1 0 else .postMutex, k⟩)
  | _, b, ⟨.post1 i, k⟩ =>
    if (i : Int) < b.numThreads then some ({ b with turnstile1 := b.turnstile1 + 1 }, ⟨.post1 (i + 1), k⟩)
    else some (b, ⟨.postMutex, k⟩)
  | _, b, ⟨.postMutex, k⟩ => some ({ b with mutex := b.mutex + 1 }, ⟨.waitTurnstile1, k⟩)
  | _, b, ⟨.waitTurnstile1, k⟩ =>
    semWait b.turnstile1 fun v => ({ b with turnstile1 := v }, ⟨.waitMutexAgain, k⟩)
  | _, b, ⟨.waitMutexAgain, k⟩ => semWait b.mutex fun v => ({ b with mutex := v }, ⟨.leave, k⟩)
  | _, b, ⟨.leave, k⟩ => some ({ b with numArrived := b.numArrived - 1 }, ⟨.testNone, k⟩)
  | _, b, ⟨.testNone, k⟩ => some (b, ⟨if b.numArrived = 0 then .post2 0 else .postMutexAgain, k⟩)
  | _, b, ⟨.post2 i, k⟩ =>
    if (i : Int) < b.numThreads then some ({ b with turnstile2 := b.turnstile2 + 1 }, ⟨.post2 (i + 1), k⟩)
    else some (b, ⟨.postMutexAgain, k⟩)
  | _, b, ⟨.postMutexAgain, k⟩ => some ({ b with mutex := b.mutex + 1 }, ⟨.waitTurnstile2, k⟩)
  | _, b, ⟨.waitTurnstile2, k⟩ =>
    semWait b.turnstile2 fun v => ({ b with turnstile2 := v }, ⟨.outside, k + 1⟩)

def init (n : Nat) : State BarrierT Place := ⟨barrierInit n, fun _ => ⟨.outside, 0⟩⟩

example : Enabled (prog 1) (init 1) 0 ∧ ¬Enabled (prog 0) (init 1) 0 := by
  simp [Enabled, prog, init]

/-! ## Gates -/

/-- Halves of a gate since the call began. -/
def Pc.stage : Pc → Nat
  | outside | waitMutex | arrive => 0
  | testAll | post1 _ | postMutex | waitTurnstile1 => 1
  | waitMutexAgain | leave => 2
  | testNone | post2 _ | postMutexAgain | waitTurnstile2 => 3

theorem Pc.stage_le (pc : Pc) : pc.stage ≤ 3 := by
  cases pc <;> simp [stage]

namespace Place

variable (p : Place)

/-- How many calls of `barrier` have begun. -/
def entered : Nat := p.returned + if p.pc = .outside then 0 else 1

def finished (calls : Nat) : Bool := p.pc = .outside ∧ calls ≤ p.returned

def level : Nat := 4 * p.returned + p.pc.stage

/-- Between a wait on `mutex` and the post that follows it. -/
def inMutex : Bool :=
  match p.pc with
  | .arrive | .testAll | .post1 _ | .postMutex | .leave | .testNone | .post2 _ | .postMutexAgain => true
  | _ => false

/-- Between `num_arrived += 1` and `num_arrived -= 1`. -/
def counted : Bool := p.pc.stage = 1 ∨ p.pc.stage = 2

/-- Counted at gate `h`, and waiting there. -/
def waitsAt (h : Nat) : Bool := p.level = 2 * h + 1

/-- Waiting at the gate before gate `h`. -/
def waitsBefore (h : Nat) : Bool := p.level + 1 = 2 * h

/-- The tokens that the thread has still to post for the gate before gate `h`. -/
def debt (n h : Nat) : Nat :=
  match p.pc with
  | .testAll | .testNone => if p.level + 1 = 2 * h then n else 0
  | .post1 i | .post2 i => n - i
  | _ => 0

end Place

/-- The turnstile of gate `h`, and of the gate two before it and the gate two after it. -/
def BarrierT.turnstile (b : BarrierT) (h : Nat) : Nat := if h % 2 = 0 then b.turnstile1 else b.turnstile2

theorem BarrierT.turnstile_add_two (b : BarrierT) (h : Nat) : b.turnstile (h + 1 + 1) = b.turnstile h := by
  unfold turnstile
  rw [show (h + 1 + 1) % 2 = h % 2 by omega]

/-- What the thread with `mutex` has found out, when threads are counted at gate `h`. -/
def Known (n h : Nat) (b : BarrierT) (p : Place) : Prop :=
  match p.pc with
  | .testAll => p.level + 1 = 2 * h → b.numArrived = n
  | .testNone => p.level + 1 = 2 * h → b.numArrived = 0
  | .post1 i | .post2 i => p.level + 1 = 2 * h ∧ i ≤ n
  | _ => True

/-- Threads are counted at gate `h`. -/
structure Inv (n calls h : Nat) (b : BarrierT) (place : Nat → Place) : Prop where
  numThreads : b.numThreads = n
  mutex : b.mutex + count n Place.inMutex place = 1
  numArrived : b.numArrived = count n Place.counted place
  calls : ∀ i < n, (place i).pc ≠ .outside → (place i).returned < calls
  known : ∀ i < n, Known n h b (place i)
  /-- Nobody is more than one gate behind or half a gate ahead. -/
  level : ∀ i < n, 2 * h ≤ (place i).level + 1 ∧ (place i).level ≤ 2 * h + 1
  notAll : count n (Place.waitsAt · h) place < n
  /-- The gate before is open. -/
  opened : b.turnstile (h + 1) + total n (Place.debt · n h) place = count n (Place.waitsBefore · h) place
  closed : b.turnstile h = 0

/-! ## What one step does -/

section
variable {n calls h i : Nat} {b b' : BarrierT} {p p' : Place}

theorem prog_mutex (hprog : prog calls i b p = some (b', p')) :
    (b'.mutex : Int) + (if p'.inMutex then 1 else 0) = b.mutex + if p.inMutex then 1 else 0 := by
  obtain ⟨pc, k⟩ := p
  cases pc <;> simp only [prog, semWait_eq_some, Option.some.injEq, Prod.mk.injEq] at hprog <;>
    grind [Place.inMutex]

theorem prog_numArrived (hprog : prog calls i b p = some (b', p')) :
    -b'.numArrived + (if p'.counted then 1 else 0) = -b.numArrived + if p.counted then 1 else 0 := by
  obtain ⟨pc, k⟩ := p
  cases pc <;> simp only [prog, semWait_eq_some, Option.some.injEq, Prod.mk.injEq] at hprog <;>
    grind [Place.counted, Pc.stage]

theorem prog_calls (hprog : prog calls i b p = some (b', p')) (hp : p.pc ≠ .outside → p.returned < calls)
    (hp' : p'.pc ≠ .outside) : p'.returned < calls := by
  obtain ⟨pc, k⟩ := p
  cases pc <;> simp only [prog, semWait_eq_some, Option.some.injEq, Prod.mk.injEq] at hprog <;> grind

theorem prog_numThreads (hprog : prog calls i b p = some (b', p')) : b'.numThreads = b.numThreads := by
  obtain ⟨pc, k⟩ := p
  cases pc <;> simp only [prog, semWait_eq_some, Option.some.injEq, Prod.mk.injEq] at hprog <;> grind

/-- `num_arrived` belongs to the thread with `mutex`. -/
theorem prog_other (hprog : prog calls i b p = some (b', p')) (hp : p.inMutex = false) :
    b'.numArrived = b.numArrived := by
  obtain ⟨pc, k⟩ := p
  cases pc <;> simp only [prog, semWait_eq_some, Option.some.injEq, Prod.mk.injEq] at hprog <;>
    grind [Place.inMutex]

/-- What the thread that moves sees when threads are counted at gate `h`. -/
structure Sees (n h : Nat) (b : BarrierT) (p : Place) : Prop where
  numThreads : b.numThreads = n
  known : Known n h b p
  level : 2 * h ≤ p.level + 1 ∧ p.level ≤ 2 * h + 1
  closed : b.turnstile h = 0
  /-- It is not the last one, as long as it is counted at gate `h`. -/
  notLast : p.level = 2 * h + 1 →
    (p.pc = .testAll → b.numArrived ≠ n) ∧ (p.pc = .testNone → b.numArrived ≠ 0)

theorem prog_closed (hprog : prog calls i b p = some (b', p')) (hs : Sees n h b p) : b'.turnstile h = 0 := by
  obtain ⟨hnt, hknown, hlevel, hclosed, -⟩ := hs
  obtain ⟨pc, k⟩ := p
  cases pc <;> simp only [prog, semWait_eq_some, Option.some.injEq, Prod.mk.injEq] at hprog <;>
    grind [BarrierT.turnstile, Known, Place.level, Pc.stage]

theorem prog_level (hprog : prog calls i b p = some (b', p')) (hs : Sees n h b p) :
    2 * h ≤ p'.level + 1 ∧ p'.level ≤ 2 * h + 1 := by
  obtain ⟨hnt, hknown, hlevel, hclosed, -⟩ := hs
  obtain ⟨pc, k⟩ := p
  cases pc <;> simp only [prog, semWait_eq_some, Option.some.injEq, Prod.mk.injEq] at hprog <;>
    grind [BarrierT.turnstile, Known, Place.level, Pc.stage]

theorem prog_known (hprog : prog calls i b p = some (b', p')) (hs : Sees n h b p) : Known n h b' p' := by
  obtain ⟨hnt, hknown, hlevel, hclosed, hlast⟩ := hs
  obtain ⟨pc, k⟩ := p
  cases pc <;> simp only [prog, semWait_eq_some, Option.some.injEq, Prod.mk.injEq] at hprog <;>
    grind [Known, Place.level, Pc.stage]

theorem prog_opened (hprog : prog calls i b p = some (b', p')) (hs : Sees n h b p) :
    b'.turnstile (h + 1) + p'.debt n h + (if p.waitsBefore h then 1 else 0) =
      b.turnstile (h + 1) + p.debt n h + if p'.waitsBefore h then 1 else 0 := by
  obtain ⟨hnt, hknown, hlevel, hclosed, hlast⟩ := hs
  obtain ⟨pc, k⟩ := p
  cases pc <;> simp only [prog, semWait_eq_some, Option.some.injEq, Prod.mk.injEq] at hprog <;>
    grind [BarrierT.turnstile, Known, Place.level, Pc.stage, Place.debt, Place.waitsBefore]

/-- A thread that has just been counted. -/
theorem prog_counted (hprog : prog calls i b p = some (b', p')) (hp : p.waitsAt h = false)
    (hp' : p'.waitsAt h = true) :
    p.inMutex = true ∧ (p'.pc = .testAll ∧ h % 2 = 0 ∨ p'.pc = .testNone ∧ h % 2 = 1) := by
  obtain ⟨pc, k⟩ := p
  cases pc <;> simp only [prog, semWait_eq_some, Option.some.injEq, Prod.mk.injEq] at hprog <;>
    grind [Place.waitsAt, Place.level, Pc.stage, Place.inMutex]

end

theorem known_of_inMutex_eq_false {p : Place} (n h : Nat) (b : BarrierT) (hp : p.inMutex = false) :
    Known n h b p := by
  obtain ⟨pc, k⟩ := p
  cases pc <;> trivial

theorem debt_of_inMutex_eq_false {p : Place} (n h : Nat) (hp : p.inMutex = false) : p.debt n h = 0 := by
  obtain ⟨pc, k⟩ := p
  cases pc <;> first | rfl | cases hp

theorem Known.of_numArrived {n h : Nat} {b b' : BarrierT} {p : Place} (hk : Known n h b p)
    (hnum : b'.numArrived = b.numArrived) : Known n h b' p := by
  unfold Known at *
  rwa [hnum]

/-! ## Who is counted -/

section
variable {n h : Nat} {p : Place}

theorem counted_eq_waitsAt (hh : h % 2 = 0) (hp : 2 * h ≤ p.level + 1 ∧ p.level ≤ 2 * h + 1) :
    p.counted = p.waitsAt h := by
  obtain ⟨pc, k⟩ := p
  cases pc <;> grind [Place.counted, Place.waitsAt, Place.level, Pc.stage]

theorem counted_eq_not_waitsAt (hh : h % 2 = 1) (hp : 2 * h ≤ p.level + 1 ∧ p.level ≤ 2 * h + 1) :
    p.counted = !p.waitsAt h := by
  obtain ⟨pc, k⟩ := p
  cases pc <;> grind [Place.counted, Place.waitsAt, Place.level, Pc.stage]

variable {b : BarrierT} {place : Nat → Place}

/-- At the first gate of a call `num_arrived` goes up. -/
theorem numArrived_eq_waitsAt (hnum : b.numArrived = count n Place.counted place) (hh : h % 2 = 0)
    (hlevel : ∀ i < n, 2 * h ≤ (place i).level + 1 ∧ (place i).level ≤ 2 * h + 1) :
    b.numArrived = count n (Place.waitsAt · h) place := by
  have heq : count n Place.counted place = count n (Place.waitsAt · h) place :=
    count_congr fun i hi => counted_eq_waitsAt hh (hlevel i hi)
  rw [hnum, heq]

/-- At the second gate it comes down. -/
theorem numArrived_add_waitsAt (hnum : b.numArrived = count n Place.counted place) (hh : h % 2 = 1)
    (hlevel : ∀ i < n, 2 * h ≤ (place i).level + 1 ∧ (place i).level ≤ 2 * h + 1) :
    b.numArrived + count n (Place.waitsAt · h) place = n := by
  have hnot : count n Place.counted place = count n (fun p => !p.waitsAt h) place :=
    count_congr fun i hi => counted_eq_not_waitsAt hh (hlevel i hi)
  have := count_add_count_not n (Place.waitsAt · h) place
  omega

end

/-! ## The invariant -/

theorem inv_init {n : Nat} (hn : 0 < n) (calls : Nat) : Inv n calls 0 (init n).shared (init n).place where
  numThreads := rfl
  mutex := by
    rw [count_eq_zero.2 fun _ _ => rfl]
    rfl
  numArrived := by
    rw [count_eq_zero.2 fun _ _ => rfl]
    rfl
  calls _ _ hpc := absurd rfl hpc
  known _ _ := trivial
  level _ _ := ⟨Nat.zero_le _, Nat.zero_le _⟩
  notAll := by rwa [count_eq_zero.2 fun _ _ => rfl]
  opened := by
    have hdebt : total n (Place.debt · n 0) (init n).place = 0 := total_eq_zero fun _ _ => rfl
    rw [count_eq_zero.2 fun _ _ => rfl, hdebt]
    rfl
  closed := rfl

variable {n calls h : Nat} {s s' : State BarrierT Place} {i j : Nat}

theorem Inv.eq_of_inMutex (hinv : Inv n calls h s.shared s.place) (hi : i < n) (hj : j < n)
    (hpi : (s.place i).inMutex = true) (hpj : (s.place j).inMutex = true) : i = j := by
  have := hinv.mutex
  exact eq_of_count_le_one (show count n Place.inMutex s.place ≤ 1 by omega) hi hj hpi hpj

theorem Inv.sees (hinv : Inv n calls h s.shared s.place) (hi : i < n) : Sees n h s.shared (s.place i) where
  numThreads := hinv.numThreads
  known := hinv.known i hi
  level := hinv.level i hi
  closed := hinv.closed
  notLast hlevel := by
    have hnot := hinv.notAll
    constructor
    · intro hpc
      have heven : h % 2 = 0 := by
        unfold Place.level at hlevel
        simp only [hpc, Pc.stage] at hlevel
        omega
      have := numArrived_eq_waitsAt hinv.numArrived heven hinv.level
      omega
    · intro hpc
      have hodd : h % 2 = 1 := by
        unfold Place.level at hlevel
        simp only [hpc, Pc.stage] at hlevel
        omega
      have := numArrived_add_waitsAt hinv.numArrived hodd hinv.level
      omega

/-- What a step keeps, whichever the gate where threads are counted afterwards. -/
structure Next (n calls h : Nat) (s s' : State BarrierT Place) : Prop where
  numThreads : s'.shared.numThreads = n
  mutex : s'.shared.mutex + count n Place.inMutex s'.place = 1
  numArrived : s'.shared.numArrived = count n Place.counted s'.place
  calls : ∀ j < n, (s'.place j).pc ≠ .outside → (s'.place j).returned < calls
  level : ∀ j < n, 2 * h ≤ (s'.place j).level + 1 ∧ (s'.place j).level ≤ 2 * h + 1
  opened : s'.shared.turnstile (h + 1) + total n (Place.debt · n h) s'.place =
    count n (Place.waitsBefore · h) s'.place
  closed : s'.shared.turnstile h = 0

theorem next_step (hinv : Inv n calls h s.shared s.place) (hstep : step n (prog calls) s i = some s') :
    Next n calls h s s' := by
  have hi := lt_of_step hstep
  have hprog := prog_of_step hstep
  have hsees := hinv.sees hi
  have hmutex := balance_step (g := fun b => b.mutex) hstep (prog_mutex hprog)
  have hnum := balance_step (g := fun b => -b.numArrived) hstep (prog_numArrived hprog)
  have := hinv.mutex
  have := hinv.numArrived
  refine ⟨(prog_numThreads hprog).trans hinv.numThreads, by omega, by omega, ?_, ?_, ?_,
    prog_closed hprog hsees⟩
  · intro j hj
    rcases eq_or_ne j i with rfl | hji
    · exact prog_calls hprog (hinv.calls j hj)
    · rw [place_step_of_ne hstep hji]
      exact hinv.calls j hj
  · intro j hj
    rcases eq_or_ne j i with rfl | hji
    · exact prog_level hprog hsees
    · rw [place_step_of_ne hstep hji]
      exact hinv.level j hj
  · have hopened := hinv.opened
    have htotal := total_step (Place.debt · n h) hstep
    have hcount := count_step (Place.waitsBefore · h) hstep
    have hlocal := prog_opened hprog hsees
    omega

theorem known_step (hinv : Inv n calls h s.shared s.place) (hstep : step n (prog calls) s i = some s')
    (hj : j < n) : Known n h s'.shared (s'.place j) := by
  have hprog := prog_of_step hstep
  have := hinv.mutex
  exact critical_step (K := Known n h) (q := Place.inMutex) (by omega) hstep
    (fun b _ => known_of_inMutex_eq_false n h b)
    (prog_known hprog (hinv.sees (lt_of_step hstep)))
    (fun hpi _ hk => hk.of_numArrived (prog_other hprog hpi)) hj (hinv.known j hj)

/-- The last thread has been counted at gate `h`, which it is going to open. -/
theorem inv_last (hinv : Inv n calls h s.shared s.place) (hstep : step n (prog calls) s i = some s')
    (hall : ∀ j < n, (s'.place j).waitsAt h = true) : Inv n calls (h + 1) s'.shared s'.place := by
  have hi := lt_of_step hstep
  have hprog := prog_of_step hstep
  have hnext := next_step hinv hstep
  have hlevel : ∀ j < n, (s'.place j).level = 2 * h + 1 := fun j hj => by simpa [Place.waitsAt] using hall j hj
  have heq : count n (Place.waitsAt · h) s'.place = n := count_eq_self.2 hall
  have hnew : (s.place i).waitsAt h = false := by
    have hcount := count_step (Place.waitsAt · h) hstep
    have hnot := hinv.notAll
    by_contra hold
    rw [if_pos (by simpa using hold), if_pos (hall i hi)] at hcount
    omega
  obtain ⟨hmutex, hpc⟩ := prog_counted hprog hnew (hall i hi)
  have hothers : ∀ j < n, j ≠ i → (s'.place j).inMutex = false := by
    intro j hj hji
    rw [place_step_of_ne hstep hji]
    by_contra hpj
    exact hji (hinv.eq_of_inMutex hj hi (by simpa using hpj) hmutex)
  refine ⟨hnext.numThreads, hnext.mutex, hnext.numArrived, hnext.calls, ?_, ?_, ?_, ?_, ?_⟩
  · intro j hj
    rcases eq_or_ne j i with rfl | hji
    · rcases hpc with ⟨hpc, hh⟩ | ⟨hpc, hh⟩
      · have := numArrived_eq_waitsAt hnext.numArrived hh hnext.level
        rw [Known, hpc]
        exact fun _ => by omega
      · have := numArrived_add_waitsAt hnext.numArrived hh hnext.level
        rw [Known, hpc]
        exact fun _ => by omega
    · exact known_of_inMutex_eq_false n _ _ (hothers j hj hji)
  · intro j hj
    have := hlevel j hj
    omega
  · have hnone : count n (Place.waitsAt · (h + 1)) s'.place = 0 := count_eq_zero.2 fun j hj => by
      have := hlevel j hj
      simp only [Place.waitsAt, decide_eq_false_iff_not]
      omega
    omega
  · have hbefore : count n (Place.waitsBefore · (h + 1)) s'.place = n := count_eq_self.2 fun j hj => by
      have := hlevel j hj
      simp only [Place.waitsBefore, decide_eq_true_eq]
      omega
    have hdebt : total n (Place.debt · n (h + 1)) s'.place = n := by
      have hsingle : total n (Place.debt · n (h + 1)) s'.place = (s'.place i).debt n (h + 1) :=
        total_eq_single hi fun j hj hji => debt_of_inMutex_eq_false n _ (hothers j hj hji)
      have := hlevel i hi
      rw [hsingle]
      rcases hpc with ⟨hpc, -⟩ | ⟨hpc, -⟩ <;> simp only [Place.debt, hpc] <;> exact if_pos (by omega)
    rw [hbefore, hdebt, BarrierT.turnstile_add_two, hnext.closed, Nat.zero_add]
  · have hopened := hnext.opened
    rw [count_eq_zero.2 fun j hj => by
      have := hlevel j hj
      simp only [Place.waitsBefore, decide_eq_false_iff_not]
      omega] at hopened
    omega

/-- **Every step keeps the invariant.** -/
theorem inv_step (hinv : Inv n calls h s.shared s.place) (hstep : step n (prog calls) s i = some s') :
    ∃ h', Inv n calls h' s'.shared s'.place := by
  have hnext := next_step hinv hstep
  by_cases hnot : count n (Place.waitsAt · h) s'.place < n
  · exact ⟨h, hnext.numThreads, hnext.mutex, hnext.numArrived, hnext.calls,
      fun j hj => known_step hinv hstep hj, hnext.level, hnot, hnext.opened, hnext.closed⟩
  · have heq : count n (Place.waitsAt · h) s'.place = n :=
      (count_le ..).antisymm (Nat.le_of_not_lt hnot)
    exact ⟨h + 1, inv_last hinv hstep (count_eq_self.1 heq)⟩

theorem inv_of_reaches (hn : 0 < n) (hreach : Reaches (step n (prog calls)) (init n) s) :
    ∃ h, Inv n calls h s.shared s.place :=
  invariant (I := fun s : State BarrierT Place => ∃ h, Inv n calls h s.shared s.place)
    ⟨0, inv_init hn calls⟩ (fun _ _ _ ⟨_, hm⟩ hstep => inv_step hm hstep) hreach

/-! ## Together, and no deadlock -/

/-- A thread that is at most one gate behind has come to every call from which another has returned. -/
theorem returned_le_entered {p q : Place} (hlevel : p.level ≤ q.level + 2) : p.returned ≤ q.entered := by
  obtain ⟨pc, k⟩ := p
  obtain ⟨pc', k'⟩ := q
  unfold Place.entered
  cases pc' <;> simp [Place.level, Pc.stage] at hlevel ⊢ <;> omega

/-- When all calls have returned. -/
theorem Inv.initial (hinv : Inv n calls h s.shared s.place)
    (hdone : ∀ i < n, (s.place i).finished calls = true) : s.shared = barrierInit n := by
  have hpc : ∀ i < n, (s.place i).pc = .outside := by
    intro i hi
    have := hdone i hi
    simp only [Place.finished, decide_eq_true_eq] at this
    exact this.1
  have hlevel : ∀ i < n, (s.place i).level = 4 * (s.place i).returned := fun i hi => by
    simp [Place.level, hpc i hi, Pc.stage]
  have hmutex := hinv.mutex
  have hnum := hinv.numArrived
  have hopened := hinv.opened
  have hnone : count n Place.inMutex s.place = 0 :=
    count_eq_zero.2 fun i hi => by simp [Place.inMutex, hpc i hi]
  have hcounted : count n Place.counted s.place = 0 :=
    count_eq_zero.2 fun i hi => by simp [Place.counted, hpc i hi, Pc.stage]
  have hbefore : count n (Place.waitsBefore · h) s.place = 0 := count_eq_zero.2 fun i hi => by
    have := hlevel i hi
    simp only [Place.waitsBefore, decide_eq_false_iff_not]
    omega
  have hclosed := hinv.closed
  unfold BarrierT.turnstile at hopened hclosed
  have h1 : s.shared.turnstile1 = 0 := by
    split_ifs at hopened hclosed <;> omega
  have h2 : s.shared.turnstile2 = 0 := by
    split_ifs at hopened hclosed <;> omega
  have hthreads := hinv.numThreads
  rcases hb : s.shared with ⟨mutex, turnstile1, turnstile2, numArrived, numThreads⟩
  simp only [hb] at *
  rw [barrierInit, BarrierT.mk.injEq]
  exact ⟨by omega, h1, h2, by omega, hthreads⟩

/-- A thread stops when it has finished, or in front of a semaphore without tokens. -/
def Blocked (calls : Nat) (b : BarrierT) (p : Place) : Prop :=
  match p.pc with
  | .outside => calls ≤ p.returned
  | .waitMutex | .waitMutexAgain => b.mutex = 0
  | .waitTurnstile1 => b.turnstile1 = 0
  | .waitTurnstile2 => b.turnstile2 = 0
  | _ => False

theorem enabled_or_blocked (s : State BarrierT Place) (i : Nat) :
    Enabled (prog calls) s i ∨ Blocked calls s.shared (s.place i) := by
  unfold Enabled
  rcases s.place i with ⟨pc, k⟩
  cases pc
  case outside =>
    simp only [prog, Blocked]
    split <;> simp_all
  case waitMutex | waitMutexAgain | waitTurnstile1 | waitTurnstile2 =>
    simp only [prog, semWait_isSome, Blocked]
    omega
  case post1 | post2 =>
    simp only [prog]
    split <;> exact .inl rfl
  all_goals exact .inl rfl

section
variable {b : BarrierT} {p : Place}

theorem Blocked.inMutex_eq_false (hb : Blocked calls b p) : p.inMutex = false := by
  obtain ⟨pc, k⟩ := p
  cases pc <;> simp_all [Blocked, Place.inMutex]

/-- A thread that is counted waits at a turnstile. -/
theorem Blocked.turnstile_eq_zero (hb : Blocked calls b p) (hp : p.level + 1 = 2 * h) :
    b.turnstile (h + 1) = 0 := by
  obtain ⟨pc, k⟩ := p
  cases pc <;> grind [Blocked, Place.level, Pc.stage, BarrierT.turnstile]

theorem Blocked.finished_of_level (hb : Blocked calls b p) (hmutex : b.mutex ≠ 0) (hp : p.level = 2 * h) :
    p.pc = .outside ∧ calls ≤ p.returned := by
  obtain ⟨pc, k⟩ := p
  cases pc <;> grind [Blocked, Place.level, Pc.stage]

end

theorem Inv.progress (hinv : Inv n calls h s.shared s.place) (hi : i < n)
    (hp : (s.place i).finished calls = false) : ∃ j < n, Enabled (prog calls) s j := by
  by_contra hstuck
  have hblocked : ∀ j < n, Blocked calls s.shared (s.place j) := fun j hj =>
    (enabled_or_blocked s j).resolve_left fun hen => hstuck ⟨j, hj, hen⟩
  have hmutex : s.shared.mutex ≠ 0 := by
    have := hinv.mutex
    rw [count_eq_zero.2 fun j hj => (hblocked j hj).inMutex_eq_false] at this
    omega
  have hdebt : total n (Place.debt · n h) s.place = 0 :=
    total_eq_zero fun j hj => debt_of_inMutex_eq_false n h (hblocked j hj).inMutex_eq_false
  -- nobody waits at the open gate, since there is a token for everybody who does
  have hbefore : ∀ j < n, (s.place j).level + 1 ≠ 2 * h := by
    intro j hj hwait
    have hopened := hinv.opened
    rw [hdebt, (hblocked j hj).turnstile_eq_zero hwait] at hopened
    have hpos : 0 < count n (Place.waitsBefore · h) s.place :=
      count_pos.2 ⟨j, hj, by simpa [Place.waitsBefore] using hwait⟩
    omega
  have hat : ∀ j < n, (s.place j).level = 2 * h ∨ (s.place j).level = 2 * h + 1 := by
    intro j hj
    have := hinv.level j hj
    have := hbefore j hj
    omega
  obtain ⟨j, hj, hnot⟩ : ∃ j < n, (s.place j).waitsAt h = false := by
    by_contra hall
    have hnot := hinv.notAll
    rw [count_eq_self.2 fun j hj => by
      by_contra hj'
      exact hall ⟨j, hj, by simpa using hj'⟩] at hnot
    omega
  -- so a thread that is not counted has finished, and the others are in the same call
  have hlevel : (s.place j).level = 2 * h := (hat j hj).resolve_right (by simpa [Place.waitsAt] using hnot)
  obtain ⟨hpcj, hcalls⟩ := (hblocked j hj).finished_of_level hmutex hlevel
  rcases hat i hi with hwait | hwait
  · have hfin := (hblocked i hi).finished_of_level hmutex hwait
    simp [Place.finished, hfin] at hp
  · have hin : (s.place i).pc ≠ .outside := by
      intro hpc
      unfold Place.level at hwait
      simp only [hpc, Pc.stage] at hwait
      omega
    have := hinv.calls i hi hin
    have := (s.place i).pc.stage_le
    unfold Place.level at hwait hlevel
    simp only [hpcj, Pc.stage] at hlevel
    omega

/-- **The barrier**: nobody returns from a call before everybody has come to it, everything is as at the
start when all calls have returned, and nobody is stuck. -/
theorem barrier_together (n calls : Nat) (hn : 0 < n) (s : State BarrierT Place)
    (hreach : Reaches (step n (prog calls)) (init n) s) :
    (∀ i < n, ∀ j < n, (s.place i).returned ≤ (s.place j).entered) ∧
      (0 ≤ s.shared.numArrived ∧ s.shared.numArrived ≤ n) ∧
      ((∀ i < n, (s.place i).finished calls = true) → s.shared = barrierInit n) ∧
      ∀ i < n, (s.place i).finished calls = false → ∃ j < n, Enabled (prog calls) s j := by
  obtain ⟨h, hinv⟩ := inv_of_reaches hn hreach
  refine ⟨?_, ?_, hinv.initial, fun i hi hp => hinv.progress hi hp⟩
  · intro i hi j hj
    have := hinv.level i hi
    have := hinv.level j hj
    exact returned_le_entered (by omega)
  · have := hinv.numArrived
    have := count_le n Place.counted s.place
    omega

/-- Thread 0 has come to its second call while thread 1 is still in its first. -/
theorem twoThreads_together :
    ∃ s, run (step 2 (prog 2)) (init 2) ([0, 0, 0, 0, 0] ++ List.replicate 9 1 ++ [0, 0, 0, 0, 0] ++
        List.replicate 7 1 ++ [0, 0]) = some s ∧
      (s.place 0).entered = 2 ∧ (s.place 1).returned = 0 ∧ (s.place 0).returned ≤ (s.place 1).entered :=
  ⟨_, rfl, rfl, rfl,
    (barrier_together 2 2 (by decide) _ ⟨[0, 0, 0, 0, 0] ++ List.replicate 9 1 ++ [0, 0, 0, 0, 0] ++
      List.replicate 7 1 ++ [0, 0], rfl⟩).1 0 (by decide) 1 (by decide)⟩

end OstepHw.Barrier
