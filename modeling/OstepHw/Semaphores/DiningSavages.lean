import Mathlib.Tactic.Ring
import OstepHw.Lib.Program

/-!
# The dining savages

Model of `cook` and `savage` of `dining_savages.c`.  Thread 0 is the cook and the other threads are the savages.
A call on a semaphore is one step, and so is a statement between two calls.  The state also records how often the
cook has filled the pot, how often a savage has found it filled, and how often each savage has eaten.

* `Config.prog` — the program of a thread;
* `Inv` — what was put into the pot is what is left of it and what was eaten;
* `loop_eq`, `lt_loop_iff` — the number of rounds that the cook computes in advance;
* `everybody_eats` — the pot is never overfull, nobody is stuck, and at the end all have eaten.
-/

set_option autoImplicit false

namespace OstepHw.DiningSavages

open Machine OstepHw.Count Program

structure Config where
  potSize : Nat
  savagesNum : Nat

def Config.threads (c : Config) : Nat := c.savagesNum + 1

/-- `loop` of the cook. -/
def Config.loop (c : Config) : Nat :=
  if c.savagesNum % c.potSize = 0 then c.savagesNum / c.potSize else c.savagesNum / c.potSize + 1

structure Pot where
  emptyPot : Nat
  fullPot : Nat
  mutex : Nat
  stewedMissionaries : Int
  /-- How often the cook has filled the pot. -/
  fills : Nat
  /-- How often a savage has set `stewed_missionaries` to `pot_size`. -/
  refills : Nat
  /-- How often each savage has feasted. -/
  feasts : Nat → Nat

def initSem : Pot := ⟨0, 0, 1, 0, 0, 0, fun _ => 0⟩

/-- What a thread does next. -/
inductive Place
  /-- `i < loop` in `cook` -/
  | testLoop (i : Nat)
  | waitEmpty (i : Nat)
  | printFill (i : Nat)
  | postFull (i : Nat)
  | cookReturned
  /-- `savage` -/
  | waitMutex
  /-- `stewed_missionaries == 0` -/
  | testNone
  | postEmpty
  | waitFull
  | refill
  | eat
  | printFeast
  | postMutex
  | savageReturned
  deriving DecidableEq

def Config.prog (c : Config) : Prog Pot Place
  | _, m, .testLoop i => some (m, if i < c.loop then .waitEmpty i else .cookReturned)
  | _, m, .waitEmpty i => semWait m.emptyPot fun v => ({ m with emptyPot := v }, .printFill i)
  | _, m, .printFill i => some ({ m with fills := m.fills + 1 }, .postFull i)
  | _, m, .postFull i => some ({ m with fullPot := m.fullPot + 1 }, .testLoop (i + 1))
  | _, m, .waitMutex => semWait m.mutex fun v => ({ m with mutex := v }, .testNone)
  | _, m, .testNone => some (m, if m.stewedMissionaries = 0 then .postEmpty else .eat)
  | _, m, .postEmpty => some ({ m with emptyPot := m.emptyPot + 1 }, .waitFull)
  | _, m, .waitFull => semWait m.fullPot fun v => ({ m with fullPot := v }, .refill)
  | _, m, .refill => some ({ m with stewedMissionaries := c.potSize, refills := m.refills + 1 }, .eat)
  | _, m, .eat => some ({ m with stewedMissionaries := m.stewedMissionaries - 1 }, .printFeast)
  | j, m, .printFeast => some ({ m with feasts := Function.update m.feasts j (m.feasts j + 1) }, .postMutex)
  | _, m, .postMutex => some ({ m with mutex := m.mutex + 1 }, .savageReturned)
  | _, _, .cookReturned => none
  | _, _, .savageReturned => none

def start (j : Nat) : Place := if j = 0 then .testLoop 0 else .waitMutex

def init : State Pot Place := ⟨initSem, start⟩

namespace Place

def isCook : Place → Bool
  | testLoop _ | waitEmpty _ | printFill _ | postFull _ | cookReturned => true
  | _ => false

def returned : Place → Bool
  | cookReturned | savageReturned => true
  | _ => false

/-- Between `Sem_wait(mutex)` and `Sem_post(mutex)`. -/
def inMutex : Place → Bool
  | testNone | postEmpty | waitFull | refill | eat | printFeast | postMutex => true
  | _ => false

/-- The cook has been asked and has not answered. -/
def cooks : Place → Bool
  | printFill _ | postFull _ => true
  | _ => false

def waitsFull : Place → Bool
  | waitFull => true
  | _ => false

/-- The pot is filled, and `stewed_missionaries` is not yet set. -/
def handsOver : Place → Bool
  | postFull _ | refill => true
  | _ => false

/-- A missionary was taken. -/
def fed : Place → Bool
  | printFeast | postMutex | savageReturned => true
  | _ => false

def feasted : Place → Bool
  | postMutex | savageReturned => true
  | _ => false

/-- In the round `i` of the cook: how often it has filled the pot, with `i < loop` inside of the loop. -/
def Round (c : Config) (fills : Nat) : Place → Prop
  | testLoop i => fills = i ∧ i ≤ c.loop
  | waitEmpty i | printFill i => fills = i ∧ i < c.loop
  | postFull i => fills = i + 1 ∧ i < c.loop
  | cookReturned => fills = c.loop
  | _ => True

/-- What a savage knows about the pot while it has the mutex. -/
def Sees (stewed : Int) : Place → Prop
  | postEmpty | waitFull | refill => stewed = 0
  | eat => 0 < stewed
  | _ => True

end Place

structure Inv (c : Config) (m : Pot) (place : Nat → Place) : Prop where
  cook : ∀ j, (place j).isCook = decide (j = 0)
  mutex : m.mutex + count c.threads Place.inMutex place = 1
  request : m.emptyPot + m.fullPot + count c.threads Place.cooks place = count c.threads Place.waitsFull place
  round : (place 0).Round c m.fills
  refills : m.refills + m.fullPot + count c.threads Place.handsOver place = m.fills
  stewed : m.stewedMissionaries + count c.threads Place.fed place = c.potSize * m.refills
  bounds : 0 ≤ m.stewedMissionaries ∧ m.stewedMissionaries ≤ c.potSize
  sees : ∀ j < c.threads, (place j).Sees m.stewedMissionaries
  feasts : ∀ j, m.feasts j = if (place j).feasted then 1 else 0

/-! ## What one step does -/

section
variable {c : Config} {j : Nat} {m m' : Pot} {p p' : Place}

theorem prog_isCook (h : c.prog j m p = some (m', p')) : p'.isCook = p.isCook := by
  cases p <;> simp only [Config.prog, semWait_eq_some, Option.some.injEq, Prod.mk.injEq] at h <;>
    grind [Place.isCook]

theorem prog_mutex (h : c.prog j m p = some (m', p')) :
    (m'.mutex : Int) + (if p'.inMutex then 1 else 0) = m.mutex + if p.inMutex then 1 else 0 := by
  cases p <;> simp only [Config.prog, semWait_eq_some, Option.some.injEq, Prod.mk.injEq] at h <;>
    grind [Place.inMutex]

theorem prog_request (h : c.prog j m p = some (m', p')) :
    m'.emptyPot + m'.fullPot + (if p'.cooks then 1 else 0) + (if p.waitsFull then 1 else 0) =
      m.emptyPot + m.fullPot + (if p.cooks then 1 else 0) + if p'.waitsFull then 1 else 0 := by
  cases p <;> simp only [Config.prog, semWait_eq_some, Option.some.injEq, Prod.mk.injEq] at h <;>
    grind [Place.cooks, Place.waitsFull]

theorem prog_round (h : c.prog j m p = some (m', p')) (hp : p.Round c m.fills) : p'.Round c m'.fills := by
  cases p <;> simp only [Config.prog, semWait_eq_some, Option.some.injEq, Prod.mk.injEq] at h <;>
    grind [Place.Round]

/-- Only the cook fills the pot. -/
theorem prog_fills (h : c.prog j m p = some (m', p')) (hp : p.isCook = false) : m'.fills = m.fills := by
  cases p <;> simp only [Config.prog, semWait_eq_some, Option.some.injEq, Prod.mk.injEq] at h <;>
    grind [Place.isCook]

theorem prog_refills (h : c.prog j m p = some (m', p')) :
    ((m'.refills : Int) + m'.fullPot - m'.fills) + (if p'.handsOver then 1 else 0) =
      ((m.refills : Int) + m.fullPot - m.fills) + if p.handsOver then 1 else 0 := by
  cases p <;> simp only [Config.prog, semWait_eq_some, Option.some.injEq, Prod.mk.injEq] at h <;>
    grind [Place.handsOver]

theorem prog_stewed (h : c.prog j m p = some (m', p')) (hp : p.Sees m.stewedMissionaries) :
    (m'.stewedMissionaries - c.potSize * m'.refills) + (if p'.fed then 1 else 0) =
      (m.stewedMissionaries - c.potSize * m.refills) + if p.fed then 1 else 0 := by
  cases p
  case refill =>
    cases h
    have hnone : m.stewedMissionaries = 0 := hp
    simp only [Place.fed, hnone]
    push_cast
    ring
  all_goals
    simp only [Config.prog, semWait_eq_some, Option.some.injEq, Prod.mk.injEq] at h
    grind [Place.fed]

theorem prog_bounds (hpot : 0 < c.potSize) (h : c.prog j m p = some (m', p')) (hp : p.Sees m.stewedMissionaries)
    (hm : 0 ≤ m.stewedMissionaries ∧ m.stewedMissionaries ≤ c.potSize) :
    (0 ≤ m'.stewedMissionaries ∧ m'.stewedMissionaries ≤ c.potSize) ∧ p'.Sees m'.stewedMissionaries := by
  cases p <;> simp only [Config.prog, semWait_eq_some, Option.some.injEq, Prod.mk.injEq] at h <;>
    grind [Place.Sees]

/-- Only who has the mutex changes what is in the pot. -/
theorem prog_other (h : c.prog j m p = some (m', p')) (hp : p.inMutex = false) :
    m'.stewedMissionaries = m.stewedMissionaries := by
  cases p <;> simp only [Config.prog, semWait_eq_some, Option.some.injEq, Prod.mk.injEq] at h <;>
    grind [Place.inMutex]

theorem prog_feasts (h : c.prog j m p = some (m', p')) :
    m'.feasts = (if p = .printFeast then Function.update m.feasts j (m.feasts j + 1) else m.feasts) ∧
      (p'.feasted = true ↔ p.feasted = true ∨ p = .printFeast) := by
  cases p <;> simp only [Config.prog, semWait_eq_some, Option.some.injEq, Prod.mk.injEq] at h <;>
    grind [Place.feasted]

end

/-! ## The invariant -/

variable {c : Config} {s s' : State Pot Place} {i j : Nat}

theorem start_of_ne (hj : j ≠ 0) : start j = .waitMutex := if_neg hj

theorem count_start {q : Place → Bool} (hcook : q (.testLoop 0) = false) (hsavage : q .waitMutex = false) (n : Nat) :
    count n q start = 0 :=
  count_eq_zero.2 fun j _ => by
    rcases eq_or_ne j 0 with rfl | hj
    · exact hcook
    · rw [start_of_ne hj, hsavage]

theorem inv_init (c : Config) : Inv c init.shared init.place where
  cook j := by
    show (start j).isCook = _
    rcases eq_or_ne j 0 with rfl | hj
    · rfl
    · rw [start_of_ne hj, decide_eq_false hj]
      rfl
  mutex := by
    rw [init, count_start rfl rfl]
    rfl
  request := by
    rw [init, count_start rfl rfl, count_start rfl rfl]
    rfl
  round := ⟨rfl, Nat.zero_le _⟩
  refills := by
    rw [init, count_start rfl rfl]
    rfl
  stewed := by
    rw [init, count_start rfl rfl]
    rfl
  bounds := ⟨le_rfl, Int.natCast_nonneg _⟩
  sees j _ := by
    show (start j).Sees 0
    rcases eq_or_ne j 0 with rfl | hj
    · trivial
    · rw [start_of_ne hj]
      trivial
  feasts j := by
    show 0 = if (start j).feasted then 1 else 0
    rcases eq_or_ne j 0 with rfl | hj
    · rfl
    · rw [start_of_ne hj]
      rfl

theorem round_step (h : Inv c s.shared s.place) (hstep : step c.threads c.prog s i = some s') :
    (s'.place 0).Round c s'.shared.fills := by
  have hprog := prog_of_step hstep
  rcases eq_or_ne i 0 with rfl | hi
  · exact prog_round hprog h.round
  · have hcook : (s.place i).isCook = false := by
      rw [h.cook, decide_eq_false hi]
    rw [place_step_of_ne hstep hi.symm, prog_fills hprog hcook]
    exact h.round

theorem sees_step (hpot : 0 < c.potSize) (h : Inv c s.shared s.place)
    (hstep : step c.threads c.prog s i = some s') (hj : j < c.threads) :
    (s'.place j).Sees s'.shared.stewedMissionaries := by
  have hprog := prog_of_step hstep
  have := h.mutex
  refine critical_step (K := fun (m : Pot) p => p.Sees m.stewedMissionaries) (q := Place.inMutex) (by omega) hstep
    (fun _ p hp => by cases p <;> trivial)
    (prog_bounds hpot hprog (h.sees i (lt_of_step hstep)) h.bounds).2 (fun hpi p hp => ?_) hj (h.sees j hj)
  rw [prog_other hprog hpi]
  exact hp

theorem feasts_step (h : Inv c s.shared s.place) (hstep : step c.threads c.prog s i = some s') (j : Nat) :
    s'.shared.feasts j = if (s'.place j).feasted then 1 else 0 := by
  obtain ⟨heq, hfeasted⟩ := prog_feasts (prog_of_step hstep)
  have hj := h.feasts j
  rw [heq]
  rcases eq_or_ne j i with rfl | hji
  · by_cases hp : s.place j = .printFeast
    · rw [if_pos hp, if_pos (hfeasted.mpr (.inr hp)), Function.update_self, hj, hp]
      rfl
    · rw [if_neg hp, hj]
      simp only [hfeasted, hp, or_false]
  · rw [place_step_of_ne hstep hji, ← hj]
    split
    · exact Function.update_of_ne hji ..
    · rfl

/-- **Every step keeps the invariant.** -/
theorem inv_step (hpot : 0 < c.potSize) (h : Inv c s.shared s.place) (hstep : step c.threads c.prog s i = some s') :
    Inv c s'.shared s'.place where
  cook j := by
    rw [← h.cook]
    rcases eq_or_ne j i with rfl | hji
    · exact prog_isCook (prog_of_step hstep)
    · rw [place_step_of_ne hstep hji]
  mutex := by
    have := balance_step (g := fun m => m.mutex) hstep (prog_mutex (prog_of_step hstep))
    have := h.mutex
    omega
  request := by
    have := prog_request (prog_of_step hstep)
    have := count_step Place.cooks hstep
    have := count_step Place.waitsFull hstep
    have := h.request
    omega
  round := round_step h hstep
  refills := by
    have := balance_step (g := fun m => m.refills + m.fullPot - m.fills) hstep (prog_refills (prog_of_step hstep))
    have := h.refills
    omega
  stewed := by
    have := balance_step (g := fun m => m.stewedMissionaries - c.potSize * m.refills) hstep
      (prog_stewed (prog_of_step hstep) (h.sees i (lt_of_step hstep)))
    have := h.stewed
    omega
  bounds := (prog_bounds hpot (prog_of_step hstep) (h.sees i (lt_of_step hstep)) h.bounds).1
  sees _ hj := sees_step hpot h hstep hj
  feasts := feasts_step h hstep

theorem inv_of_reaches (hpot : 0 < c.potSize) (h : Reaches (step c.threads c.prog) init s) :
    Inv c s.shared s.place :=
  invariant (I := fun s : State Pot Place => Inv c s.shared s.place) (inv_init c)
    (fun _ _ _ hm hstep => inv_step hpot hm hstep) h

/-! ## The rounds of the cook -/

theorem loop_eq (hpot : 0 < c.potSize) : c.loop = (c.savagesNum + c.potSize - 1) / c.potSize := by
  have hdiv := Nat.div_add_mod c.savagesNum c.potSize
  have hmod := Nat.mod_lt c.savagesNum hpot
  unfold Config.loop
  split
  · symm
    refine Nat.div_eq_of_lt_le ?_ ?_
    · rw [Nat.mul_comm]
      omega
    · rw [Nat.add_mul, Nat.mul_comm, Nat.one_mul]
      omega
  · symm
    refine Nat.div_eq_of_lt_le ?_ ?_
    · rw [Nat.add_mul, Nat.mul_comm, Nat.one_mul]
      omega
    · rw [Nat.add_mul, Nat.add_mul, Nat.mul_comm, Nat.one_mul]
      omega

/-- The cook is in its loop as long as the pots so far are not enough. -/
theorem lt_loop_iff (hpot : 0 < c.potSize) {k : Nat} : k < c.loop ↔ c.potSize * k < c.savagesNum := by
  rw [loop_eq hpot, ← Nat.succ_le_iff, Nat.le_div_iff_mul_le hpot, Nat.succ_mul, Nat.mul_comm]
  omega

/-! ## Progress -/

/-- A thread stops in front of a semaphore without tokens, or when it has come to its end. -/
def Blocked (m : Pot) : Place → Prop
  | .waitEmpty _ => m.emptyPot = 0
  | .waitMutex => m.mutex = 0
  | .waitFull => m.fullPot = 0
  | .cookReturned | .savageReturned => True
  | _ => False

theorem enabled_or_blocked (s : State Pot Place) (j : Nat) :
    Enabled c.prog s j ∨ Blocked s.shared (s.place j) := by
  unfold Enabled
  cases s.place j
  case waitEmpty | waitMutex | waitFull =>
    simp only [Config.prog, semWait_isSome, Blocked]
    omega
  case cookReturned | savageReturned => exact .inr trivial
  all_goals exact .inl rfl

theorem Blocked.cook {m : Pot} {p : Place} (h : Blocked m p) (hp : p.isCook = true) :
    (∃ i, p = .waitEmpty i ∧ m.emptyPot = 0) ∨ p = .cookReturned := by
  cases p
  case waitEmpty i => exact .inl ⟨i, rfl, h⟩
  case cookReturned => exact .inr rfl
  all_goals first | (cases hp; done) | cases h

theorem Blocked.savage {m : Pot} {p : Place} (h : Blocked m p) (hp : p.isCook = false) :
    (p = .waitMutex ∧ m.mutex = 0) ∨ (p = .waitFull ∧ m.fullPot = 0) ∨ p = .savageReturned := by
  cases p
  case waitMutex => exact .inl ⟨rfl, h⟩
  case waitFull => exact .inr (.inl ⟨rfl, h⟩)
  case savageReturned => exact .inr (.inr rfl)
  all_goals first | (cases hp; done) | cases h

/-- Nobody can take a step. -/
def Stuck (c : Config) (s : State Pot Place) : Prop := ∀ j < c.threads, Blocked s.shared (s.place j)

theorem stuck_of_not_enabled (h : ∀ j < c.threads, ¬Enabled c.prog s j) : Stuck c s := fun j hj =>
  (enabled_or_blocked s j).resolve_left (h j hj)

theorem Stuck.count_eq_zero {q : Place → Bool} (hstuck : Stuck c s)
    (hq : ∀ p, Blocked s.shared p → q p = false) : count c.threads q s.place = 0 :=
  Count.count_eq_zero.mpr fun j hj => hq _ (hstuck j hj)

theorem zero_lt_threads : 0 < c.threads := Nat.succ_pos _

theorem Inv.isCook_zero (h : Inv c s.shared s.place) : (s.place 0).isCook = true := h.cook 0

theorem Inv.isCook_of_ne (h : Inv c s.shared s.place) (hj : j ≠ 0) : (s.place j).isCook = false := by
  rw [h.cook, decide_eq_false hj]

/-- The cook does not eat. -/
theorem Inv.cook_not_fed (h : Inv c s.shared s.place) : (s.place 0).fed = false := by
  have hcook := h.isCook_zero
  revert hcook
  cases s.place 0 <;> intro hcook <;> first | rfl | cases hcook

/-- Who waits for the cook has not eaten. -/
theorem Inv.fed_lt (h : Inv c s.shared s.place) (hj : j < c.threads) (hp : s.place j = .waitFull) :
    count c.threads Place.fed s.place < c.savagesNum := by
  have hne : j ≠ 0 := by
    rintro rfl
    have hcook := h.isCook_zero
    rw [hp] at hcook
    cases hcook
  have hsum := count_add_count_not c.threads Place.fed s.place
  have hpair := count_pair (p := fun p => !p.fed) (f := s.place) hj zero_lt_threads hne (by rw [hp]; rfl)
    (by rw [h.cook_not_fed]; rfl)
  have hthreads : c.threads = c.savagesNum + 1 := rfl
  omega

/-- What has been put into the pot, when nothing is handed over. -/
theorem Inv.stewed_of_stuck (h : Inv c s.shared s.place) (hstuck : Stuck c s) (hfull : s.shared.fullPot = 0) :
    s.shared.stewedMissionaries + count c.threads Place.fed s.place = (c.potSize * s.shared.fills : Nat) := by
  have hhands : count c.threads Place.handsOver s.place = 0 :=
    hstuck.count_eq_zero fun p hp => by cases p <;> first | rfl | cases hp
  have hrefills := h.refills
  have hstewed := h.stewed
  rw [show s.shared.refills = s.shared.fills by omega] at hstewed
  rw [hstewed, Nat.cast_mul]

/-- A savage that waits for the cook is served: the pots so far are not enough. -/
theorem Inv.waitsFull_eq_zero (hpot : 0 < c.potSize) (h : Inv c s.shared s.place) (hstuck : Stuck c s) :
    count c.threads Place.waitsFull s.place = 0 := by
  by_contra hpos
  obtain ⟨j, hj, hwaits⟩ := count_pos.1 (Nat.pos_of_ne_zero hpos)
  have hp : s.place j = .waitFull := by
    revert hwaits
    cases s.place j <;> intro hwaits <;> first | rfl | cases hwaits
  have hfull : s.shared.fullPot = 0 := by
    have hblocked := hstuck j hj
    rwa [hp] at hblocked
  have hnone : s.shared.stewedMissionaries = 0 := by
    have hsees := h.sees j hj
    rwa [hp] at hsees
  have hcooks : count c.threads Place.cooks s.place = 0 :=
    hstuck.count_eq_zero fun p hp => by cases p <;> first | rfl | cases hp
  have hrequest := h.request
  have hstewed := h.stewed_of_stuck hstuck hfull
  have hfed := h.fed_lt hj hp
  rcases (hstuck 0 zero_lt_threads).cook h.isCook_zero with ⟨i, -, hempty⟩ | hcook
  · omega
  · have hround := h.round
    rw [hcook] at hround
    have henough : ¬c.potSize * c.loop < c.savagesNum := fun hlt => lt_irrefl _ ((lt_loop_iff hpot).mpr hlt)
    rw [show s.shared.fills = c.loop from hround] at hstewed
    omega

/-- **Nobody is stuck**: when no thread can take a step, all have returned. -/
theorem Inv.all_returned (hpot : 0 < c.potSize) (h : Inv c s.shared s.place) (hstuck : Stuck c s) :
    s.place 0 = .cookReturned ∧ ∀ j < c.threads, j ≠ 0 → s.place j = .savageReturned := by
  have hwaits := h.waitsFull_eq_zero hpot hstuck
  have hnotWaiting : ∀ j < c.threads, s.place j ≠ .waitFull := fun j hj hp => by
    have hfalse := Count.count_eq_zero.mp hwaits j hj
    rw [hp] at hfalse
    cases hfalse
  have hmutex : s.shared.mutex = 1 := by
    have hnobody : count c.threads Place.inMutex s.place = 0 := Count.count_eq_zero.mpr fun j hj => by
      have hblocked := hstuck j hj
      have hne := hnotWaiting j hj
      cases hp : s.place j <;> rw [hp] at hblocked hne <;> first | rfl | cases hblocked | exact absurd rfl hne
    have := h.mutex
    omega
  have hsavage : ∀ j < c.threads, j ≠ 0 → s.place j = .savageReturned := fun j hj hj0 => by
    rcases (hstuck j hj).savage (h.isCook_of_ne hj0) with ⟨-, hzero⟩ | ⟨hp, -⟩ | hp
    · omega
    · exact absurd hp (hnotWaiting j hj)
    · exact hp
  refine ⟨?_, hsavage⟩
  have hfed : count c.threads Place.fed s.place = c.savagesNum := by
    refine (count_interval (a := 1) (b := c.savagesNum + 1) le_rfl fun j hj => ?_).trans (by omega)
    rcases Nat.eq_zero_or_pos j with rfl | hpos
    · rw [h.cook_not_fed]
      rfl
    · rw [hsavage j hj (by omega), decide_eq_true ⟨hpos, hj⟩]
      rfl
  have hrequest := h.request
  have hbounds := h.bounds
  have hstewed := h.stewed_of_stuck hstuck (by omega)
  rcases (hstuck 0 zero_lt_threads).cook h.isCook_zero with ⟨i, hcook, -⟩ | hcook
  · have hround := h.round
    rw [hcook] at hround
    obtain ⟨hfills, hi⟩ : s.shared.fills = i ∧ i < c.loop := hround
    have hmore := (lt_loop_iff hpot).mp hi
    rw [hfills] at hstewed
    omega
  · exact hcook

/-! ## Every run ends -/

/-- How many steps a thread still has to take at most. -/
def Config.rank (c : Config) : Place → Nat
  | .testLoop i => 4 * (c.loop - i) + 1
  | .waitEmpty i => 4 * (c.loop - (i + 1)) + 4
  | .printFill i => 4 * (c.loop - (i + 1)) + 3
  | .postFull i => 4 * (c.loop - (i + 1)) + 2
  | .waitMutex => 8
  | .testNone => 7
  | .postEmpty => 6
  | .waitFull => 5
  | .refill => 4
  | .eat => 3
  | .printFeast => 2
  | .postMutex => 1
  | .cookReturned | .savageReturned => 0

theorem rank_prog {m m' : Pot} {p p' : Place} (h : c.prog j m p = some (m', p')) : c.rank p' < c.rank p := by
  cases p <;> simp only [Config.prog, semWait_eq_some, Option.some.injEq, Prod.mk.injEq] at h <;>
    grind [Config.rank]

theorem rank_step (hstep : step c.threads c.prog s i = some s') :
    total c.threads c.rank s'.place < total c.threads c.rank s.place := by
  have htotal := total_step c.rank hstep
  have hrank := rank_prog (prog_of_step hstep)
  omega

theorem rank_start (n : Nat) : total (n + 1) c.rank start = 8 * n + 4 * c.loop + 1 := by
  induction n with
  | zero =>
    rw [total_succ]
    show 0 + (4 * (c.loop - 0) + 1) = _
    omega
  | succ n ih =>
    rw [total_succ, ih, start_of_ne (Nat.succ_ne_zero n)]
    show 8 * n + 4 * c.loop + 1 + 8 = _
    omega

/-- **The pots are counted right**: after any run the pot holds between none and `pot_size` missionaries, and as
long as somebody has not returned some thread can take a step.  A run has an end, where each savage has feasted
once and the cook has filled the pot `savages_num / pot_size` times, rounded up. -/
theorem everybody_eats (c : Config) (hpot : 0 < c.potSize) (l : List Nat) (s : State Pot Place)
    (h : run (step c.threads c.prog) init l = some s) :
    (0 ≤ s.shared.stewedMissionaries ∧ s.shared.stewedMissionaries ≤ c.potSize) ∧
    (∀ j < c.threads, (s.place j).returned = false → ∃ k < c.threads, Enabled c.prog s k) ∧
    l.length ≤ 8 * c.savagesNum + 4 * c.loop + 1 ∧
    ((∀ k < c.threads, ¬Enabled c.prog s k) →
      (∀ j < c.threads, (s.place j).returned = true) ∧
      (∀ j, 0 < j → j < c.threads → s.shared.feasts j = 1) ∧
      s.shared.fills = (c.savagesNum + c.potSize - 1) / c.potSize) := by
  have hinv := inv_of_reaches hpot ⟨l, h⟩
  have hreturned : Stuck c s → ∀ j < c.threads, (s.place j).returned = true := fun hstuck j hj => by
    obtain ⟨hcook, hsavage⟩ := hinv.all_returned hpot hstuck
    rcases eq_or_ne j 0 with rfl | hj0
    · rw [hcook]
      rfl
    · rw [hsavage j hj hj0]
      rfl
  refine ⟨hinv.bounds, ?_, ?_, fun hnone => ?_⟩
  · intro j hj hp
    by_contra hnone
    push Not at hnone
    rw [hreturned (stuck_of_not_enabled hnone) j hj] at hp
    cases hp
  · have hle := length_le_measure (C := fun _ => True) (fun s : State Pot Place => total c.threads c.rank s.place)
      (fun _ _ _ _ hstep => rank_step hstep) (fun _ _ => trivial) h
    have hstart : total c.threads c.rank init.place = _ := rank_start c.savagesNum
    omega
  · have hstuck := stuck_of_not_enabled hnone
    obtain ⟨hcook, hsavage⟩ := hinv.all_returned hpot hstuck
    refine ⟨hreturned hstuck, fun j hpos hj => ?_, ?_⟩
    · rw [hinv.feasts, hsavage j hj (by omega)]
      rfl
    · have hround := hinv.round
      rw [hcook] at hround
      rw [← loop_eq hpot]
      exact hround

/-- Three savages and pots for two: the third one asks for a second pot. -/
theorem threeSavages_eat :
    ∃ s, run (step 4 (Config.prog ⟨2, 3⟩)) init
        (List.replicate 3 1 ++ List.replicate 4 0 ++ List.replicate 5 1 ++ List.replicate 5 2 ++
          List.replicate 3 3 ++ List.replicate 4 0 ++ List.replicate 5 3 ++ [0]) = some s ∧
      s.shared.stewedMissionaries = 1 ∧ s.shared.feasts 3 = 1 ∧ s.shared.fills = 2 := by
  have heat := everybody_eats ⟨2, 3⟩ (by decide)
    (List.replicate 3 1 ++ List.replicate 4 0 ++ List.replicate 5 1 ++ List.replicate 5 2 ++
      List.replicate 3 3 ++ List.replicate 4 0 ++ List.replicate 5 3 ++ [0]) _ rfl
  obtain ⟨-, hfeasts, hfills⟩ := heat.2.2.2 fun k hk => by
    match k, hk with
    | 0, _ | 1, _ | 2, _ | 3, _ => intro hsome; cases hsome
  exact ⟨_, rfl, rfl, hfeasts 3 (by decide) (by decide), hfills⟩

end OstepHw.DiningSavages
