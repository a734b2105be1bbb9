import OstepHw.Lib.Program

/-!
# The mutex without starvation

Model of `ns_mutex_init`, `ns_mutex_acquire` and `ns_mutex_release` of `mutex-nostarve.c`, which the
threads call in turn.  A call on a semaphore is one step; `room2` is read and written in two steps, since
no lock is held there.  The state also counts how often `ns_mutex_acquire` has returned to each thread.

* `Inv` — there is one token, and what its holder and its turnstile say about the two rooms;
* `ns_mutex_exclusive_progress` — exclusion, and no deadlock;
* `ns_mutex_overtaken_twice` — while a thread waits, every other one returns at most twice.
-/

set_option autoImplicit false

namespace OstepHw.NsMutex

open Machine OstepHw.Count Program

structure NsMutexT where
  room1 : Int
  room2 : Int
  mutex : Nat
  t1 : Nat
  t2 : Nat
  /-- How often `ns_mutex_acquire` has returned. -/
  returned : Nat → Nat

def nsMutexInit : NsMutexT := ⟨0, 0, 1, 1, 0, fun _ => 0⟩

/-- What a thread does next. -/
inductive Place
  | outside
  | waitMutex
  | room1Inc
  | postMutex
  | waitT1
  | room2Read
  | room2Write (room2 : Int)
  | waitMutexAgain
  | room1Dec
  /-- `m->room1 == 0` -/
  | testRoom1
  | postMutexT2
  | postT2
  | postMutexT1
  | postT1
  | waitT2
  | room2DecRead
  | room2DecWrite (room2 : Int)
  /-- `ns_mutex_acquire` has returned. -/
  | critical
  /-- `m->room2 == 0` of `ns_mutex_release` -/
  | testRoom2
  | releaseT1
  | releaseT2
  deriving DecidableEq

/-- `ns_mutex_acquire` and `ns_mutex_release` in turn. -/
def prog : Prog NsMutexT Place
  | _, m, .outside => some (m, .waitMutex)
  | _, m, .waitMutex => semWait m.mutex fun v => ({ m with mutex := v }, .room1Inc)
  | _, m, .room1Inc => some ({ m with room1 := m.room1 + 1 }, .postMutex)
  | _, m, .postMutex => some ({ m with mutex := m.mutex + 1 }, .waitT1)
  | _, m, .waitT1 => semWait m.t1 fun v => ({ m with t1 := v }, .room2Read)
  | _, m, .room2Read => some (m, .room2Write m.room2)
  | _, m, .room2Write room2 => some ({ m with room2 := room2 + 1 }, .waitMutexAgain)
  | _, m, .waitMutexAgain => semWait m.mutex fun v => ({ m with mutex := v }, .room1Dec)
  | _, m, .room1Dec => some ({ m with room1 := m.room1 - 1 }, .testRoom1)
  | _, m, .testRoom1 => some (m, if m.room1 = 0 then .postMutexT2 else .postMutexT1)
  | _, m, .postMutexT2 => some ({ m with mutex := m.mutex + 1 }, .postT2)
  | _, m, .postT2 => some ({ m with t2 := m.t2 + 1 }, .waitT2)
  | _, m, .postMutexT1 => some ({ m with mutex := m.mutex + 1 }, .postT1)
  | _, m, .postT1 => some ({ m with t1 := m.t1 + 1 }, .waitT2)
  | _, m, .waitT2 => semWait m.t2 fun v => ({ m with t2 := v }, .room2DecRead)
  | _, m, .room2DecRead => some (m, .room2DecWrite m.room2)
  | i, m, .room2DecWrite room2 =>
    some ({ m with room2 := room2 - 1, returned := Function.update m.returned i (m.returned i + 1) },
      .critical)
  | _, m, .critical => some (m, .testRoom2)
  | _, m, .testRoom2 => some (m, if m.room2 = 0 then .releaseT1 else .releaseT2)
  | _, m, .releaseT1 => some ({ m with t1 := m.t1 + 1 }, .outside)
  | _, m, .releaseT2 => some ({ m with t2 := m.t2 + 1 }, .outside)

def init : State NsMutexT Place := ⟨nsMutexInit, fun _ => .outside⟩

namespace Place

/-- Between the return of `ns_mutex_acquire` and the end of `ns_mutex_release`. -/
def inside : Place → Bool
  | critical | testRoom2 | releaseT1 | releaseT2 => true
  | _ => false

/-- Between a wait on `t1` or `t2` and the post that follows it. -/
def pastTurnstile : Place → Bool
  | room2Read | room2Write _ | waitMutexAgain | room1Dec | testRoom1 | postMutexT2 | postT2 | postMutexT1
  | postT1 | room2DecRead | room2DecWrite _ | critical | testRoom2 | releaseT1 | releaseT2 => true
  | _ => false

/-- Between a wait on `mutex` and the post that follows it. -/
def inMutex : Place → Bool
  | room1Inc | postMutex | room1Dec | testRoom1 | postMutexT2 | postMutexT1 => true
  | _ => false

/-- Between `room1++` and `room1--`. -/
def inRoom1 : Place → Bool
  | postMutex | waitT1 | room2Read | room2Write _ | waitMutexAgain | room1Dec => true
  | _ => false

/-- Between `room2++` and `room2--`. -/
def inRoom2 : Place → Bool
  | waitMutexAgain | room1Dec | testRoom1 | postMutexT2 | postT2 | postMutexT1 | postT1 | waitT2
  | room2DecRead | room2DecWrite _ => true
  | _ => false

/-- A thread with the token, after it has found room one empty and before it finds room two empty. -/
def draining : Place → Bool
  | postMutexT2 | postT2 | room2DecRead | room2DecWrite _ | critical | testRoom2 | releaseT2 => true
  | _ => false

end Place

/-- What the thread with the token has read, or has found out about the rooms. -/
def Known (m : NsMutexT) : Place → Prop
  | .room2Write room2 | .room2DecWrite room2 => room2 = m.room2
  | .postMutexT1 | .postT1 => 0 < m.room1
  | .releaseT1 => m.room2 = 0
  | .releaseT2 => m.room2 ≠ 0
  | _ => True

structure Inv (n : Nat) (m : NsMutexT) (place : Nat → Place) : Prop where
  mutex : m.mutex + count n Place.inMutex place = 1
  token : m.t1 + m.t2 + count n Place.pastTurnstile place = 1
  room1 : m.room1 = count n Place.inRoom1 place
  room2 : m.room2 = count n Place.inRoom2 place
  known : ∀ i < n, Known m (place i)
  /-- `t1` is open until room one is empty. -/
  free1 : 0 < m.t1 → 0 < m.room1 ∨ m.room2 = 0
  /-- `t2` is open until room two is empty. -/
  free2 : 0 < m.t2 → 0 < m.room2

/-! ## What one step does -/

section
variable {i : Nat} {m m' : NsMutexT} {p p' : Place}

theorem prog_mutex (h : prog i m p = some (m', p')) :
    (m'.mutex : Int) + (if p'.inMutex then 1 else 0) = m.mutex + if p.inMutex then 1 else 0 := by
  cases p <;> simp only [prog, semWait_eq_some, Option.some.injEq, Prod.mk.injEq] at h <;>
    grind [Place.inMutex]

theorem prog_token (h : prog i m p = some (m', p')) :
    (m'.t1 + m'.t2 : Int) + (if p'.pastTurnstile then 1 else 0) =
      (m.t1 + m.t2) + if p.pastTurnstile then 1 else 0 := by
  cases p <;> simp only [prog, semWait_eq_some, Option.some.injEq, Prod.mk.injEq] at h <;>
    grind [Place.pastTurnstile]

theorem prog_room1 (h : prog i m p = some (m', p')) :
    -m'.room1 + (if p'.inRoom1 then 1 else 0) = -m.room1 + if p.inRoom1 then 1 else 0 := by
  cases p <;> simp only [prog, semWait_eq_some, Option.some.injEq, Prod.mk.injEq] at h <;>
    grind [Place.inRoom1]

/-- What was read of `room2` is still there when it is written. -/
theorem prog_room2 (h : prog i m p = some (m', p')) (hk : Known m p) :
    -m'.room2 + (if p'.inRoom2 then 1 else 0) = -m.room2 + if p.inRoom2 then 1 else 0 := by
  cases p <;> simp only [prog, semWait_eq_some, Option.some.injEq, Prod.mk.injEq] at h <;>
    grind [Place.inRoom2, Known]

/-- Without the token, a thread only adds itself to room one. -/
theorem prog_other (h : prog i m p = some (m', p')) (hp : p.pastTurnstile = false) :
    m.room1 ≤ m'.room1 ∧ m'.room2 = m.room2 := by
  cases p <;> simp only [prog, semWait_eq_some, Option.some.injEq, Prod.mk.injEq] at h <;>
    grind [Place.pastTurnstile]

theorem prog_known (h : prog i m p = some (m', p')) (hk : Known m p) (h1 : 0 ≤ m.room1) : Known m' p' := by
  cases p <;> simp only [prog, semWait_eq_some, Option.some.injEq, Prod.mk.injEq] at h <;> grind [Known]

theorem prog_free1 (h : prog i m p = some (m', p')) (hk : Known m p)
    (hfree : 0 < m.t1 → (0 < m.room1 ∨ m.room2 = 0) ∧ p.pastTurnstile = false) (ht : 0 < m'.t1) :
    0 < m'.room1 ∨ m'.room2 = 0 := by
  cases p <;> simp only [prog, semWait_eq_some, Option.some.injEq, Prod.mk.injEq] at h <;>
    grind [Place.pastTurnstile, Known]

theorem prog_free2 (h : prog i m p = some (m', p')) (hk : Known m p)
    (hfree : 0 < m.t2 → 0 < m.room2 ∧ p.pastTurnstile = false) (h2 : 0 ≤ m.room2)
    (hp : p.inRoom2 = true → 0 < m.room2) (ht : 0 < m'.t2) : 0 < m'.room2 := by
  cases p
  case room2Write room2 =>
    cases h
    have hroom : room2 = m.room2 := hk
    show 0 < room2 + 1
    omega
  case room2DecWrite =>
    cases h
    cases (hfree ht).2
  case postT2 =>
    cases h
    exact hp rfl
  case releaseT2 =>
    cases h
    have hroom : m.room2 ≠ 0 := hk
    show 0 < m.room2
    omega
  case waitT2 =>
    simp only [prog, semWait_eq_some, Prod.mk.injEq] at h
    obtain ⟨hpos, rfl, -⟩ := h
    exact (hfree hpos).1
  all_goals
    simp only [prog, semWait_eq_some, Option.some.injEq, Prod.mk.injEq] at h
    first
    | obtain ⟨rfl, -⟩ := h
      exact (hfree ht).1
    | obtain ⟨-, rfl, -⟩ := h
      exact (hfree ht).1

end

/-- The others may add themselves to room one, and room two stays as it is. -/
theorem Known.mono {m m' : NsMutexT} {p : Place} (hk : Known m p) (h1 : m.room1 ≤ m'.room1)
    (h2 : m'.room2 = m.room2) : Known m' p := by
  cases p <;> grind [Known]

/-! ## The invariant -/

theorem inv_init (n : Nat) : Inv n nsMutexInit fun _ => .outside := by
  have hnone : ∀ p : Place → Bool, p .outside = false → count n p (fun _ => .outside) = 0 :=
    fun p hp => count_eq_zero.2 fun _ _ => hp
  refine ⟨?_, ?_, ?_, ?_, fun _ _ => trivial, fun _ => .inr rfl, fun h => by cases h⟩
  all_goals
    rw [hnone _ rfl]
    rfl

variable {n : Nat} {s s' : State NsMutexT Place} {i : Nat}

/-- While a turnstile is open, no thread has the token. -/
theorem Inv.pastTurnstile_eq_false (h : Inv n s.shared s.place) (ht : 0 < s.shared.t1 ∨ 0 < s.shared.t2)
    (hi : i < n) : (s.place i).pastTurnstile = false := by
  have := h.token
  exact count_eq_zero.1 (show count n Place.pastTurnstile s.place = 0 by omega) i hi

/-- There is one token. -/
theorem Inv.eq_of_pastTurnstile {j : Nat} (h : Inv n s.shared s.place) (hi : i < n) (hj : j < n)
    (hpi : (s.place i).pastTurnstile = true) (hpj : (s.place j).pastTurnstile = true) : i = j := by
  have := h.token
  exact eq_of_count_le_one (show count n Place.pastTurnstile s.place ≤ 1 by omega) hi hj hpi hpj

theorem Inv.room2_pos (h : Inv n s.shared s.place) (hi : i < n) (hp : (s.place i).inRoom2 = true) :
    0 < s.shared.room2 := by
  have := count_pos.2 ⟨i, hi, hp⟩
  have := h.room2
  omega

theorem known_of_pastTurnstile_eq_false (m : NsMutexT) (p : Place) (hp : p.pastTurnstile = false) : Known m p := by
  cases p <;> trivial

/-- What the holder of the token knows stays true until it moves. -/
theorem known_step (h : Inv n s.shared s.place) (hstep : step n prog s i = some s') {j : Nat} (hj : j < n) :
    Known s'.shared (s'.place j) := by
  have hprog := prog_of_step hstep
  have := h.token
  have hroom1 : 0 ≤ s.shared.room1 := by
    have := h.room1
    omega
  refine critical_step (q := Place.pastTurnstile) (by omega) hstep known_of_pastTurnstile_eq_false
    (prog_known hprog (h.known i (lt_of_step hstep)) hroom1) (fun hpi p hk => ?_) hj (h.known j hj)
  obtain ⟨h1, h2⟩ := prog_other hprog hpi
  exact hk.mono h1 h2

/-- **Every step keeps the invariant.** -/
theorem inv_step (h : Inv n s.shared s.place) (hstep : step n prog s i = some s') :
    Inv n s'.shared s'.place := by
  have hi := lt_of_step hstep
  have hprog := prog_of_step hstep
  have hk := h.known i hi
  have hmutex := balance_step (g := fun m => m.mutex) hstep (prog_mutex hprog)
  have htoken := balance_step (g := fun m => m.t1 + m.t2) hstep (prog_token hprog)
  have hroom1 := balance_step (g := fun m => -m.room1) hstep (prog_room1 hprog)
  have hroom2 := balance_step (g := fun m => -m.room2) hstep (prog_room2 hprog hk)
  have := h.mutex
  have := h.token
  have := h.room1
  have := h.room2
  refine ⟨by omega, by omega, by omega, by omega, fun j hj => known_step h hstep hj, ?_, ?_⟩
  · exact prog_free1 hprog hk fun ht => ⟨h.free1 ht, h.pastTurnstile_eq_false (.inl ht) hi⟩
  · exact prog_free2 hprog hk (fun ht => ⟨h.free2 ht, h.pastTurnstile_eq_false (.inr ht) hi⟩) (by omega)
      (h.room2_pos hi)

theorem inv_of_reaches (h : Reaches (step n prog) init s) : Inv n s.shared s.place :=
  invariant (I := fun s : State NsMutexT Place => Inv n s.shared s.place) (inv_init n)
    (fun _ _ _ hm hstep => inv_step hm hstep) h

/-! ## Exclusion and progress -/

/-- A thread only stops in front of a semaphore without tokens. -/
theorem place_of_not_enabled (h : ¬ Enabled prog s i) :
    ((s.place i = .waitMutex ∨ s.place i = .waitMutexAgain) ∧ s.shared.mutex = 0) ∨
      (s.place i = .waitT1 ∧ s.shared.t1 = 0) ∨ (s.place i = .waitT2 ∧ s.shared.t2 = 0) := by
  unfold Enabled at h
  cases hp : s.place i <;> rw [hp] at h <;> simp [prog, semWait_isSome] at h <;> simp [h]

/-- **No deadlock.** -/
theorem Inv.progress (h : Inv n s.shared s.place) (hi : i < n) (hp : s.place i ≠ .outside) :
    ∃ j < n, s.place j ≠ .outside ∧ Enabled prog s j := by
  by_contra hstuck
  have hblocked : ∀ j < n, s.place j ≠ .outside → ¬ Enabled prog s j :=
    fun j hj hpj hen => hstuck ⟨j, hj, hpj, hen⟩
  have hmutex : s.shared.mutex = 1 := by
    have hnone : count n Place.inMutex s.place = 0 := count_eq_zero.2 fun j hj => by
      by_cases hpj : s.place j = .outside
      · rw [hpj]
        rfl
      · rcases place_of_not_enabled (hblocked j hj hpj) with ⟨hw | hw, -⟩ | ⟨hw, -⟩ | ⟨hw, -⟩ <;> rw [hw] <;> rfl
    have := h.mutex
    omega
  have hwait : ∀ j < n, s.place j ≠ .outside →
      (s.place j = .waitT1 ∧ s.shared.t1 = 0) ∨ (s.place j = .waitT2 ∧ s.shared.t2 = 0) := by
    intro j hj hpj
    rcases place_of_not_enabled (hblocked j hj hpj) with ⟨-, hzero⟩ | hw
    · omega
    · exact hw
  have hnone : count n Place.pastTurnstile s.place = 0 := count_eq_zero.2 fun j hj => by
    by_cases hpj : s.place j = .outside
    · rw [hpj]
      rfl
    · rcases hwait j hj hpj with ⟨hw, -⟩ | ⟨hw, -⟩ <;> rw [hw] <;> rfl
  have htoken := h.token
  rcases Nat.eq_zero_or_pos s.shared.t1 with ht1 | ht1
  · -- `t2` is open, and somebody is in room two
    have hroom2 := h.free2 (by omega)
    rw [h.room2] at hroom2
    obtain ⟨j, hj, hpj⟩ := count_pos.1 (Int.natCast_pos.mp hroom2)
    rcases hwait j hj (by intro hout; rw [hout] at hpj; cases hpj) with ⟨hw, -⟩ | ⟨-, hzero⟩
    · rw [hw] at hpj
      cases hpj
    · omega
  · -- `t1` is open, so the thread waits for `t2`, and somebody is in room one
    have hroom1 : 0 < s.shared.room1 := by
      rcases hwait i hi hp with ⟨-, hzero⟩ | ⟨hw, -⟩
      · omega
      · have := h.room2_pos hi (by rw [hw]; rfl)
        have := h.free1 ht1
        omega
    rw [h.room1] at hroom1
    obtain ⟨j, hj, hpj⟩ := count_pos.1 (Int.natCast_pos.mp hroom1)
    rcases hwait j hj (by intro hout; rw [hout] at hpj; cases hpj) with ⟨-, hzero⟩ | ⟨hw, -⟩
    · omega
    · rw [hw] at hpj
      cases hpj

theorem Place.pastTurnstile_of_inside {p : Place} (h : p.inside = true) : p.pastTurnstile = true := by
  cases p <;> first | rfl | cases h

/-- **Exclusion and progress.** -/
theorem ns_mutex_exclusive_progress (n : Nat) (s : State NsMutexT Place)
    (h : Reaches (step n prog) init s) :
    (∀ i < n, ∀ j < n, (s.place i).inside = true → (s.place j).inside = true → i = j) ∧
      s.shared.t1 + s.shared.t2 + count n Place.pastTurnstile s.place = 1 ∧
      0 ≤ s.shared.room2 ∧
      ∀ i < n, s.place i ≠ .outside → ∃ j < n, s.place j ≠ .outside ∧ Enabled prog s j := by
  have hinv := inv_of_reaches h
  refine ⟨?_, hinv.token, ?_, ?_⟩
  · intro i hi j hj hii hjj
    exact hinv.eq_of_pastTurnstile hi hj (Place.pastTurnstile_of_inside hii)
      (Place.pastTurnstile_of_inside hjj)
  · rw [hinv.room2]
    exact Int.natCast_nonneg _
  · intro i hi hp
    exact hinv.progress hi hp

/-- Thread 0 is in the critical section, and thread 1 waits for `t1`. -/
theorem twoThreads_exclusive_progress :
    ∃ s, run (step 2 prog) init (List.replicate 15 0 ++ [1, 1, 1, 1]) = some s ∧
      s.place 0 = .critical ∧ s.place 1 = .waitT1 ∧ ∃ j < 2, s.place j ≠ .outside ∧ Enabled prog s j :=
  ⟨_, rfl, rfl, rfl, (ns_mutex_exclusive_progress 2 _ ⟨List.replicate 15 0 ++ [1, 1, 1, 1], rfl⟩).2.2.2 1
    (by decide) (by intro h; cases h)⟩

/-! ## Overtaking -/

/-- After `room1++`, and `ns_mutex_acquire` has not returned. -/
def Place.waiting (p : Place) : Bool := p.inRoom1 || p.inRoom2

/-- The step in which `ns_mutex_acquire` returns. -/
def Place.returns : Place → Bool
  | .room2DecWrite _ => true
  | _ => false

/-- The token when it is passed on among the threads of room two. -/
def drain (n : Nat) (s : State NsMutexT Place) : Nat := s.shared.t2 + count n Place.draining s.place

/-- How often it returns to `u` while room two is drained, and until `t` has got there and has left it. -/
def turns (t u : Nat) (s : State NsMutexT Place) : Nat :=
  (if (s.place t).inRoom1 then 1 else 0) + if (s.place u).inRoom2 then 1 else 0

/-- How often `ns_mutex_acquire` can still return to `u` before it returns to `t`. -/
def owed (n t u : Nat) (s : State NsMutexT Place) : Nat := if drain n s = 0 then 1 else turns t u s

section
variable {m m' : NsMutexT} {p p' : Place} {t u : Nat}

theorem prog_drain (h : prog i m p = some (m', p')) (h1 : p = .testRoom1 → m.room1 ≠ 0)
    (h2 : p = .testRoom2 → m.room2 ≠ 0) :
    (m'.t2 : Int) + (if p'.draining then 1 else 0) = m.t2 + if p.draining then 1 else 0 := by
  cases p <;> simp only [prog, semWait_eq_some, Option.some.injEq, Prod.mk.injEq] at h <;>
    grind [Place.draining]

theorem counts_returned : Counts prog NsMutexT.returned Place.returns := by
  intro i m p m' p' h
  cases p <;> simp only [prog, semWait_eq_some, Option.some.injEq, Prod.mk.injEq] at h <;>
    grind [Place.returns]

/-- While room two is drained, a thread only leaves it when `ns_mutex_acquire` returns. -/
theorem prog_drained (h : prog i m p = some (m', p')) (hp : p.pastTurnstile = true → p.draining = true) :
    (if p.returns then 1 else 0) + (if p'.inRoom2 then 1 else 0) = if p.inRoom2 then 1 else 0 := by
  cases p
  case testRoom2 =>
    cases h
    by_cases hroom : m.room2 = 0
    · rw [if_pos hroom]
      rfl
    · rw [if_neg hroom]
      rfl
  all_goals
    simp only [prog, semWait_eq_some, Option.some.injEq, Prod.mk.injEq] at h
    first
    | exact absurd (hp rfl) Bool.false_ne_true
    | obtain ⟨-, rfl⟩ := h
      rfl
    | obtain ⟨-, -, rfl⟩ := h
      rfl

theorem prog_waiting (h : prog i m p = some (m', p')) (hp : p.waiting = true) :
    (p'.inRoom1 = true → p.inRoom1 = true) ∧ (p.returns = false → p'.waiting = true) := by
  cases p
  case testRoom1 =>
    cases h
    split <;> exact ⟨id, fun _ => rfl⟩
  case room2DecWrite =>
    cases h
    exact ⟨id, fun hreturns => by cases hreturns⟩
  all_goals
    simp only [prog, semWait_eq_some, Option.some.injEq, Prod.mk.injEq] at h
    first
    | cases hp; done
    | obtain ⟨-, rfl⟩ := h
      first | exact ⟨fun _ => rfl, fun _ => rfl⟩ | exact ⟨id, fun _ => rfl⟩
    | obtain ⟨-, -, rfl⟩ := h
      first | exact ⟨fun _ => rfl, fun _ => rfl⟩ | exact ⟨id, fun _ => rfl⟩

end

theorem Place.pastTurnstile_of_draining {p : Place} (h : p.draining = true) : p.pastTurnstile = true := by
  cases p <;> first | rfl | cases h

/-- Room two is not being drained while the token is elsewhere. -/
theorem Inv.drain_eq_zero (h : Inv n s.shared s.place) (hi : i < n)
    (hp : (s.place i).pastTurnstile = true) (hd : (s.place i).draining = false) : drain n s = 0 := by
  have hnone : count n Place.draining s.place = 0 := count_eq_zero.2 fun j hj => by
    by_contra hdj
    have hdj : (s.place j).draining = true := by simpa using hdj
    rw [h.eq_of_pastTurnstile hj hi (Place.pastTurnstile_of_draining hdj) hp, hd] at hdj
    cases hdj
  have := count_pos.2 ⟨i, hi, hp⟩
  have := h.token
  unfold drain
  omega

theorem drain_step (hstep : step n prog s i = some s')
    (h1 : s.place i = .testRoom1 → s.shared.room1 ≠ 0) (h2 : s.place i = .testRoom2 → s.shared.room2 ≠ 0) :
    drain n s' = drain n s := by
  have := balance_step (g := fun m => m.t2) hstep (prog_drain (prog_of_step hstep) h1 h2)
  unfold drain
  omega

variable {t u : Nat}

/-- A thread waits until `ns_mutex_acquire` returns to it. -/
theorem waiting_step (hstep : step n prog s i = some s') (hwait : (s.place t).waiting = true)
    (hret : s'.shared.returned t = s.shared.returned t) : (s'.place t).waiting = true := by
  rcases eq_or_ne t i with rfl | hti
  · refine (prog_waiting (prog_of_step hstep) hwait).2 ?_
    have hself := counts_returned.step_self hstep
    by_contra hreturns
    rw [if_pos (by simpa using hreturns)] at hself
    omega
  · rwa [place_step_of_ne hstep hti]

/-- While room two is drained, whoever leaves it does not come back. -/
theorem turns_step (h : Inv n s.shared s.place) (hstep : step n prog s i = some s')
    (hwait : (s.place t).waiting = true) (hd : drain n s ≠ 0) :
    s'.shared.returned u + turns t u s' ≤ s.shared.returned u + turns t u s := by
  have hi := lt_of_step hstep
  have hprog := prog_of_step hstep
  have hroom1 : (if (s'.place t).inRoom1 then 1 else 0) ≤ if (s.place t).inRoom1 then 1 else 0 := by
    rcases eq_or_ne t i with rfl | hti
    · have := (prog_waiting hprog hwait).1
      split_ifs <;> simp_all
    · rw [place_step_of_ne hstep hti]
  have hroom2 : s'.shared.returned u + (if (s'.place u).inRoom2 then 1 else 0) =
      s.shared.returned u + if (s.place u).inRoom2 then 1 else 0 := by
    rcases eq_or_ne u i with rfl | hui
    · have hdrained := prog_drained hprog fun hp => by
        by_contra hpd
        exact hd (h.drain_eq_zero hi hp (by simpa using hpd))
      rw [counts_returned.step_self hstep, Nat.add_assoc, hdrained]
    · rw [place_step_of_ne hstep hui, counts_returned.step_of_ne hstep hui]
  unfold turns
  omega

/-- Nothing returns while room two is not being drained. -/
theorem returned_step (hstep : step n prog s i = some s') (hd : drain n s = 0) (u : Nat) :
    s'.shared.returned u = s.shared.returned u := by
  have hi := lt_of_step hstep
  have hprog := prog_of_step hstep
  rcases eq_or_ne u i with rfl | hui
  · have hnone : (s.place u).draining = false :=
      count_eq_zero.1 (Nat.eq_zero_of_add_eq_zero_left hd) u hi
    have hreturns : (s.place u).returns = false := by
      revert hnone
      cases s.place u <;> simp [Place.draining, Place.returns]
    rw [counts_returned.step_self hstep, hreturns]
    rfl
  · exact counts_returned.step_of_ne hstep hui

theorem owed_step (h : Inv n s.shared s.place) (hstep : step n prog s i = some s') (ht : t < n)
    (hwait : (s.place t).waiting = true) :
    s'.shared.returned u + owed n t u s' ≤ s.shared.returned u + owed n t u s := by
  have hi := lt_of_step hstep
  have hprog := prog_of_step hstep
  have hinv' := inv_step h hstep
  by_cases hclose : s.place i = .testRoom1 ∧ s.shared.room1 = 0
  · -- room one is empty, and room two begins to be drained
    obtain ⟨hp, hroom1⟩ := hclose
    have hd : drain n s = 0 := h.drain_eq_zero hi (by rw [hp]; rfl) (by rw [hp]; rfl)
    have hempty : (s'.place t).inRoom1 = false := by
      simp only [prog, hp, hroom1, if_true, Option.some.injEq, Prod.mk.injEq] at hprog
      have := hinv'.room1
      rw [← hprog.1, hroom1] at this
      exact count_eq_zero.1 (by omega) t ht
    have howed : owed n t u s' ≤ 1 := by
      unfold owed turns
      simp only [hempty, Bool.false_eq_true, if_false]
      split_ifs <;> omega
    rw [returned_step hstep hd, show owed n t u s = 1 from if_pos hd]
    omega
  by_cases hopen : s.place i = .testRoom2 ∧ s.shared.room2 = 0
  · -- room two is empty, so the thread that waits is still in room one
    obtain ⟨hp, hroom2⟩ := hopen
    simp only [prog, hp, hroom2, if_true, Option.some.injEq, Prod.mk.injEq] at hprog
    have hd : drain n s ≠ 0 := by
      have := count_pos.2 ⟨i, hi, show (s.place i).draining = true by rw [hp]; rfl⟩
      unfold drain
      omega
    have hd' : drain n s' = 0 := hinv'.drain_eq_zero hi (by rw [← hprog.2]; rfl) (by rw [← hprog.2]; rfl)
    have hin : (s.place t).inRoom1 = true := by
      rcases Bool.or_eq_true_iff.mp hwait with hin | hin
      · exact hin
      · have := h.room2_pos ht hin
        omega
    have hturns : 1 ≤ turns t u s := by
      unfold turns
      rw [if_pos hin]
      omega
    rw [← hprog.1, show owed n t u s' = 1 from if_pos hd', show owed n t u s = turns t u s from if_neg hd]
    omega
  have hdrain := drain_step hstep (fun hp hroom1 => hclose ⟨hp, hroom1⟩) (fun hp hroom2 => hopen ⟨hp, hroom2⟩)
  unfold owed
  rw [hdrain]
  split_ifs with hd
  · rw [returned_step hstep hd]
  · exact turns_step h hstep hwait hd

/-- **Bounded overtaking**: from `room1++` until `ns_mutex_acquire` returns to `t`, it returns at most twice
to any other. -/
theorem ns_mutex_overtaken_twice (n t u : Nat) (l : List Nat) (s s₁ s' : State NsMutexT Place)
    (hs : Reaches (step n prog) init s) (ht : s.place t = .room1Inc) (hstep : step n prog s t = some s₁)
    (hrun : run (step n prog) s₁ l = some s') (hwait : s'.shared.returned t = s₁.shared.returned t) :
    s'.shared.returned u ≤ s₁.shared.returned u + 2 := by
  have hinv := inv_of_reaches hs
  have hplace : s₁.place t = .postMutex := by
    have hprog := prog_of_step hstep
    simp only [prog, ht, Option.some.injEq, Prod.mk.injEq] at hprog
    exact hprog.2.symm
  have howed : owed n t u s₁ ≤ 2 := by
    unfold owed turns
    split_ifs <;> omega
  have hpaid := counts_returned.overtaking (u := u) (d := owed n t u)
    (I := fun m => Inv n m.shared m.place ∧ (m.place t).waiting = true) ?_
    ⟨inv_step hinv hstep, by rw [hplace]; rfl⟩ hrun hwait
  · omega
  rintro m i m' ⟨hm, hmt⟩ hmstep hret
  exact ⟨⟨inv_step hm hmstep, waiting_step hmstep hmt hret⟩,
    owed_step hm hmstep (lt_of_step hstep) hmt⟩

/-- Thread 1 is let in from room two, comes back and is let in again, before thread 0. -/
theorem twoThreads_overtaken_twice :
    ∃ s s₁ s', run (step 2 prog) init (List.replicate 12 1 ++ [0, 0]) = some s ∧ s.place 0 = .room1Inc ∧
      step 2 prog s 0 = some s₁ ∧
      run (step 2 prog) s₁ (0 :: List.replicate 18 1 ++ List.replicate 8 0 ++ [1, 1, 1]) = some s' ∧
      s₁.shared.returned 1 = 0 ∧ s'.shared.returned 1 = 2 ∧
      s'.shared.returned 1 ≤ s₁.shared.returned 1 + 2 :=
  ⟨_, _, _, rfl, rfl, rfl, rfl, rfl, rfl,
    ns_mutex_overtaken_twice 2 0 1 (0 :: List.replicate 18 1 ++ List.replicate 8 0 ++ [1, 1, 1]) _ _ _
      ⟨List.replicate 12 1 ++ [0, 0], rfl⟩ rfl rfl rfl rfl⟩

end OstepHw.NsMutex
