import OstepHw.Lib.Program

/-!
# The cigarette smokers

Model of `agent`, `smoker` and the three pushers of `cigarette_smokers.c`, for any number of agents and smokers of
the three types.  A call on a semaphore is one step, and so is a statement or a test between two calls.  The state also
records the types of the agents in the order in which they have taken `agent_sem`, and the lines that were printed.

* `Config.prog` — the program of a thread;
* `Inv` — one turn is handed round, the flags are up only inside an agent's critical section, and the smoker that is
  woken lacks what the agent has put on the table;
* `agents_and_smokers_alternate` — the lines come in the order of the agents, with at most one agent ahead;
* `everybody_smokes` — with as many smokers for each agent's offer as agents that make it, every run ends with
  everybody returned.
-/

set_option autoImplicit false

namespace OstepHw.CigaretteSmokers

open Machine OstepHw.Count Program

inductive Ingredient where
  | tobacco
  | paper
  | matchstick
  deriving DecidableEq

open Ingredient

/-- What a pusher of `x` looks for: the first flag it tests and the second.  With the one it posts the other's
semaphore. -/
structure Pusher where
  x : Ingredient
  first : Ingredient
  second : Ingredient

def tobaccoPusher : Pusher := ⟨tobacco, paper, matchstick⟩
def paperPusher : Pusher := ⟨paper, matchstick, tobacco⟩
def matchPusher : Pusher := ⟨matchstick, paper, tobacco⟩

/-- The two pushers that an agent calls, by its type. -/
def pushers : Fin 3 → Pusher × Pusher
  | 0 => (tobaccoPusher, paperPusher)
  | 1 => (paperPusher, matchPusher)
  | 2 => (tobaccoPusher, matchPusher)

/-- The semaphore that a smoker waits for, by its type. -/
def smokes : Fin 3 → Ingredient
  | 0 => tobacco
  | 1 => paper
  | 2 => matchstick

/-- The pusher that an agent calls first or second. -/
def pusher (type : Fin 3) (again : Bool) : Pusher := if again then (pushers type).2 else (pushers type).1

structure Table where
  sem : Ingredient → Nat
  agentSem : Nat
  lock : Nat
  has : Ingredient → Bool
  /-- The types of the agents that have taken `agent_sem`. -/
  turns : List (Fin 3)
  /-- `Smoker with … is getting a little bit of cancer.` -/
  printed : List Ingredient

def initSem : Table := ⟨fun _ => 0, 1, 1, fun _ => false, [], []⟩

/-- What an agent does next; `again` says which of its two pushers it is in. -/
inductive AgentPc where
  | waitAgent
  | waitLock
  | testFirst (again : Bool)
  | clearFirst (again : Bool)
  | postSecond (again : Bool)
  | testSecond (again : Bool)
  | clearSecond (again : Bool)
  | postFirst (again : Bool)
  | set (again : Bool)
  | postLock
  | returned
  deriving DecidableEq

inductive SmokerPc where
  | waitIngredient
  | printSmoke
  | postAgent
  | returned
  deriving DecidableEq

inductive Place where
  | agent (type : Fin 3) (pc : AgentPc)
  | smoker (type : Fin 3) (pc : SmokerPc)
  deriving DecidableEq

def Table.post (m : Table) (x : Ingredient) : Table := { m with sem := Function.update m.sem x (m.sem x + 1) }
def Table.flag (m : Table) (x : Ingredient) (b : Bool) : Table := { m with has := Function.update m.has x b }

@[simp, grind =] theorem Table.post_sem (m : Table) (x y : Ingredient) :
    (m.post x).sem y = m.sem y + if x = y then 1 else 0 := by
  rcases eq_or_ne y x with rfl | hy
  · rw [if_pos rfl]
    exact Function.update_self ..
  · rw [if_neg hy.symm]
    exact Function.update_of_ne hy ..

@[simp, grind =] theorem Table.post_agentSem (m : Table) (x : Ingredient) : (m.post x).agentSem = m.agentSem := rfl
@[simp, grind =] theorem Table.post_lock (m : Table) (x : Ingredient) : (m.post x).lock = m.lock := rfl

/-- Where a pusher goes when it is done. -/
def afterPusher (type : Fin 3) (again : Bool) : Place := .agent type (if again then .postLock else .testFirst true)

def prog : Prog Table Place
  | _, m, .agent t .waitAgent =>
    semWait m.agentSem fun v => ({ m with agentSem := v, turns := m.turns ++ [t] }, .agent t .waitLock)
  | _, m, .agent t .waitLock => semWait m.lock fun v => ({ m with lock := v }, .agent t (.testFirst false))
  | _, m, .agent t (.testFirst again) =>
    some (m, .agent t (if m.has (pusher t again).first then .clearFirst again else .testSecond again))
  | _, m, .agent t (.clearFirst again) => some (m.flag (pusher t again).first false, .agent t (.postSecond again))
  | _, m, .agent t (.postSecond again) => some (m.post (pusher t again).second, afterPusher t again)
  | _, m, .agent t (.testSecond again) =>
    some (m, .agent t (if m.has (pusher t again).second then .clearSecond again else .set again))
  | _, m, .agent t (.clearSecond again) => some (m.flag (pusher t again).second false, .agent t (.postFirst again))
  | _, m, .agent t (.postFirst again) => some (m.post (pusher t again).first, afterPusher t again)
  | _, m, .agent t (.set again) => some (m.flag (pusher t again).x true, afterPusher t again)
  | _, m, .agent t .postLock => some ({ m with lock := m.lock + 1 }, .agent t .returned)
  | _, m, .smoker t .waitIngredient =>
    semWait (m.sem (smokes t)) fun v => ({ m with sem := Function.update m.sem (smokes t) v }, .smoker t .printSmoke)
  | _, m, .smoker t .printSmoke => some ({ m with printed := m.printed ++ [smokes t] }, .smoker t .postAgent)
  | _, m, .smoker t .postAgent => some ({ m with agentSem := m.agentSem + 1 }, .smoker t .returned)
  | _, _, .agent _ .returned => none
  | _, _, .smoker _ .returned => none

/-- What the threads are: agents or smokers, and of which type. -/
inductive Role where
  | agent (type : Fin 3)
  | smoker (type : Fin 3)
  deriving DecidableEq

structure Config where
  threads : Nat
  role : Nat → Role

def Role.start : Role → Place
  | .agent t => .agent t .waitAgent
  | .smoker t => .smoker t .waitIngredient

def Config.init (c : Config) : State Table Place := ⟨initSem, fun j => (c.role j).start⟩

/-- The agent is in one of its pushers. -/
def AgentPc.inPusher : AgentPc → Bool
  | waitAgent | waitLock | postLock | returned => false
  | _ => true

/-- What an agent of this type does not put on the table. -/
def lacking : Fin 3 → Ingredient
  | 0 => matchstick
  | 1 => tobacco
  | 2 => paper

namespace Place

def role : Place → Role
  | agent t _ => .agent t
  | smoker t _ => .smoker t

def returned : Place → Bool
  | agent _ .returned | smoker _ .returned => true
  | _ => false

/-- Between `Sem_wait(lock)` and `Sem_post(lock)`. -/
def inLock : Place → Bool
  | agent _ pc => pc.inPusher || pc == .postLock
  | smoker _ _ => false

/-- The agent has taken `agent_sem` and not yet woken a smoker that smokes `x`. -/
def offers (x : Ingredient) : Place → Bool
  | agent t pc => (pc == .waitLock || pc.inPusher) && lacking t == x
  | smoker _ _ => false

/-- The agent has woken a smoker that smokes `x`. -/
def offered (x : Ingredient) : Place → Bool
  | agent t pc => (pc == .postLock || pc == .returned) && lacking t == x
  | smoker _ _ => false

/-- The smoker has been woken. -/
def woken (x : Ingredient) : Place → Bool
  | smoker t pc => pc == .printSmoke && smokes t == x
  | agent _ _ => false

/-- The smoker has printed and not yet handed the turn on. -/
def handsOn : Place → Bool
  | smoker _ pc => pc == .postAgent
  | agent _ _ => false

/-- The smoker has taken its token. -/
def served (x : Ingredient) : Place → Bool
  | smoker t pc => pc != .waitIngredient && smokes t == x
  | agent _ _ => false

/-- The turn is with this thread, for a smoker of `x`. -/
def pending (x : Ingredient) (p : Place) : Bool := p.offers x || p.woken x

/-- What an agent knows about the flags in its critical section. -/
def Sees (has : Ingredient → Bool) : Place → Prop
  | agent _ (.testFirst false) | agent _ (.testSecond false) | agent _ (.set false) => ∀ y, has y = false
  | agent _ (.clearFirst false) | agent _ (.postSecond false) | agent _ (.clearSecond false)
  | agent _ (.postFirst false) => False
  | agent t (.testFirst true) => ∀ y, has y = decide (y = (pusher t false).x)
  | agent t (.clearFirst true) =>
    (pusher t true).first = (pusher t false).x ∧ ∀ y, has y = decide (y = (pusher t false).x)
  | agent t (.postSecond true) => (pusher t true).first = (pusher t false).x ∧ ∀ y, has y = false
  | agent t (.testSecond true) | agent t (.clearSecond true) =>
    (pusher t true).second = (pusher t false).x ∧ ∀ y, has y = decide (y = (pusher t false).x)
  | agent t (.postFirst true) => (pusher t true).second = (pusher t false).x ∧ ∀ y, has y = false
  | agent _ (.set true) => False
  | agent _ .postLock => ∀ y, has y = false
  | _ => True

end Place

/-! ## The pushers -/

/-- The second pusher looks for what the first one has put on the table. -/
theorem pusher_meets (t : Fin 3) :
    (pusher t true).first = (pusher t false).x ∨ (pusher t true).second = (pusher t false).x := by
  revert t
  decide

theorem second_eq_lacking {t : Fin 3} (h : (pusher t true).first = (pusher t false).x) :
    (pusher t true).second = lacking t := by
  revert t
  decide

theorem first_eq_lacking {t : Fin 3} (h : (pusher t true).second = (pusher t false).x) :
    (pusher t true).first = lacking t := by
  revert t
  decide

/-! ## What one step does -/

section
variable {j : Nat} {m m' : Table} {p p' : Place}

theorem prog_role (h : prog j m p = some (m', p')) : p'.role = p.role := by
  rcases p with ⟨t, pc⟩ | ⟨t, pc⟩ <;> cases pc <;>
    simp only [prog, semWait_eq_some, Option.some.injEq, Prod.mk.injEq, reduceCtorEq] at h <;>
    grind [Place.role, afterPusher]

/-! ### The flags -/

/-- Nobody outside of the critical section changes the flags. -/
theorem prog_has (h : prog j m p = some (m', p')) (hp : p.inLock = false) : m'.has = m.has := by
  rcases p with ⟨t, pc⟩ | ⟨t, pc⟩ <;> cases pc <;>
    simp only [prog, semWait_eq_some, Option.some.injEq, Prod.mk.injEq, reduceCtorEq] at h <;>
    first | (obtain ⟨-, rfl, -⟩ := h; rfl) | (obtain ⟨rfl, -⟩ := h; rfl) | cases hp

theorem flag_down {x : Ingredient} (h : ∀ y, m.has y = decide (y = x)) (y : Ingredient) :
    (m.flag x false).has y = false := by
  rcases eq_or_ne y x with rfl | hy
  · exact Function.update_self ..
  · exact (Function.update_of_ne hy ..).trans ((h y).trans (decide_eq_false hy))

theorem flag_up {x : Ingredient} (h : ∀ y, m.has y = false) (y : Ingredient) :
    (m.flag x true).has y = decide (y = x) := by
  rcases eq_or_ne y x with rfl | hy
  · exact (Function.update_self ..).trans (decide_eq_true rfl).symm
  · exact (Function.update_of_ne hy ..).trans ((h y).trans (decide_eq_false hy).symm)

theorem prog_sees (h : prog j m p = some (m', p')) (hp : p.Sees m.has)
    (hfree : 0 < m.lock → ∀ y, m.has y = false) : p'.Sees m'.has := by
  rcases p with ⟨t, pc⟩ | ⟨t, pc⟩
  · cases pc
    case waitAgent =>
      simp only [prog, semWait_eq_some, Prod.mk.injEq] at h
      obtain ⟨-, -, rfl⟩ := h
      trivial
    case waitLock =>
      simp only [prog, semWait_eq_some, Prod.mk.injEq] at h
      obtain ⟨hlock, rfl, rfl⟩ := h
      exact hfree hlock
    case testFirst again =>
      cases h
      cases again
      · -- the first pusher finds no flag up
        rw [hp]
        exact hp
      · rw [hp]
        by_cases hfirst : (pusher t true).first = (pusher t false).x
        · rw [decide_eq_true hfirst]
          exact ⟨hfirst, hp⟩
        · rw [decide_eq_false hfirst]
          exact ⟨(pusher_meets t).resolve_left hfirst, hp⟩
    case clearFirst again =>
      cases h
      cases again
      · exact hp
      · exact ⟨hp.1, hp.1 ▸ flag_down hp.2⟩
    case postSecond again =>
      cases h
      cases again
      · exact hp.elim
      · exact hp.2
    case testSecond again =>
      cases h
      cases again
      · rw [hp]
        exact hp
      · rw [hp.2, decide_eq_true hp.1]
        exact hp
    case clearSecond again =>
      cases h
      cases again
      · exact hp
      · exact ⟨hp.1, hp.1 ▸ flag_down hp.2⟩
    case postFirst again =>
      cases h
      cases again
      · exact hp.elim
      · exact hp.2
    case set again =>
      cases h
      cases again
      · exact flag_up hp
      · exact hp.elim
    case postLock =>
      cases h
      trivial
    case returned => cases h
  · cases p' with
    | agent => cases prog_role h
    | smoker => trivial

/-! ### The semaphores -/

/-- What a step does, when the pushers find what they look for. -/
inductive Moved (m : Table) : Place → Table → Place → Prop
  | take (t : Fin 3) (h : 0 < m.agentSem) :
    Moved m (.agent t .waitAgent) { m with agentSem := m.agentSem - 1, turns := m.turns ++ [t] } (.agent t .waitLock)
  | enter (t : Fin 3) (h : 0 < m.lock) :
    Moved m (.agent t .waitLock) { m with lock := m.lock - 1 } (.agent t (.testFirst false))
  | push (t : Fin 3) {pc pc' : AgentPc} (has : Ingredient → Bool) (h : pc.inPusher = true) (h' : pc'.inPusher = true) :
    Moved m (.agent t pc) { m with has := has } (.agent t pc')
  | wake (t : Fin 3) {pc : AgentPc} (h : pc.inPusher = true) :
    Moved m (.agent t pc) (m.post (lacking t)) (.agent t .postLock)
  | leave (t : Fin 3) : Moved m (.agent t .postLock) { m with lock := m.lock + 1 } (.agent t .returned)
  | woken (t : Fin 3) (h : 0 < m.sem (smokes t)) :
    Moved m (.smoker t .waitIngredient) { m with sem := Function.update m.sem (smokes t) (m.sem (smokes t) - 1) }
      (.smoker t .printSmoke)
  | print (t : Fin 3) :
    Moved m (.smoker t .printSmoke) { m with printed := m.printed ++ [smokes t] } (.smoker t .postAgent)
  | handOn (t : Fin 3) : Moved m (.smoker t .postAgent) { m with agentSem := m.agentSem + 1 } (.smoker t .returned)

/-- **What one step does.** -/
theorem prog_moved (h : prog j m p = some (m', p')) (hp : p.Sees m.has) : Moved m p m' p' := by
  rcases p with ⟨t, pc⟩ | ⟨t, pc⟩
  · cases pc
    case waitAgent =>
      simp only [prog, semWait_eq_some, Prod.mk.injEq] at h
      obtain ⟨hpos, rfl, rfl⟩ := h
      exact .take t hpos
    case waitLock =>
      simp only [prog, semWait_eq_some, Prod.mk.injEq] at h
      obtain ⟨hpos, rfl, rfl⟩ := h
      exact .enter t hpos
    case testFirst again =>
      cases h
      refine .push t m.has rfl ?_
      split <;> rfl
    case testSecond again =>
      cases h
      refine .push t m.has rfl ?_
      split <;> rfl
    case clearFirst again =>
      cases h
      exact .push t _ rfl rfl
    case clearSecond again =>
      cases h
      exact .push t _ rfl rfl
    case postSecond again =>
      cases h
      cases again
      · exact hp.elim
      · rw [second_eq_lacking hp.1]
        exact .wake t rfl
    case postFirst again =>
      cases h
      cases again
      · exact hp.elim
      · rw [first_eq_lacking hp.1]
        exact .wake t rfl
    case set again =>
      cases h
      cases again
      · exact .push t _ rfl rfl
      · exact hp.elim
    case postLock =>
      cases h
      exact .leave t
    case returned => cases h
  · cases pc
    case waitIngredient =>
      simp only [prog, semWait_eq_some, Prod.mk.injEq] at h
      obtain ⟨hpos, rfl, rfl⟩ := h
      exact .woken t hpos
    case printSmoke =>
      cases h
      exact .print t
    case postAgent =>
      cases h
      exact .handOn t
    case returned => cases h

theorem Moved.lock (h : Moved m p m' p') :
    (m'.lock : Int) + (if p'.inLock then 1 else 0) = m.lock + if p.inLock then 1 else 0 := by
  cases h <;> grind [Place.inLock, AgentPc.inPusher]

/-- The flags are down when the lock is free. -/
theorem Moved.free (h : Moved m p m' p') (hp : p.Sees m.has) (hfree : 0 < m.lock → ∀ y, m.has y = false)
    (hlock : p.inLock = true → m.lock = 0) (hpos : 0 < m'.lock) (y : Ingredient) : m'.has y = false := by
  cases h
  case leave => exact hp y
  case push h _ =>
    have := hlock (by simp [Place.inLock, h])
    exact absurd hpos (by simp [this])
  case enter hpos' => exact hfree hpos' y
  all_goals exact hfree hpos y

/-- A smoker of `x` is woken by an agent that does not put `x` on the table. -/
theorem Moved.account (h : Moved m p m' p') (x : Ingredient) :
    m'.sem x + (if p'.served x then 1 else 0) + (if p.offered x then 1 else 0) =
      m.sem x + (if p.served x then 1 else 0) + if p'.offered x then 1 else 0 := by
  cases h <;> grind [Place.served, Place.offered, AgentPc.inPusher, Function.update_apply]

/-- The turn stays where it is, or an agent takes it, or a smoker prints its line. -/
theorem Moved.turn (h : Moved m p m' p') :
    (m'.turns = m.turns ∧ m'.printed = m.printed ∧
      m'.agentSem + (if p'.handsOn then 1 else 0) = m.agentSem + (if p.handsOn then 1 else 0) ∧
      ∀ x, m'.sem x + (if p'.pending x then 1 else 0) = m.sem x + if p.pending x then 1 else 0) ∨
    (∃ t, m'.turns = m.turns ++ [t] ∧ m'.printed = m.printed ∧
      m'.agentSem + (if p'.handsOn then 1 else 0) + 1 = m.agentSem + (if p.handsOn then 1 else 0) ∧
      ∀ x, m'.sem x + (if p'.pending x then 1 else 0) =
        m.sem x + (if p.pending x then 1 else 0) + if lacking t = x then 1 else 0) ∨
    (∃ t, m'.turns = m.turns ∧ m'.printed = m.printed ++ [smokes t] ∧
      m'.agentSem + (if p'.handsOn then 1 else 0) = m.agentSem + (if p.handsOn then 1 else 0) + 1 ∧
      ∀ x, m'.sem x + (if p'.pending x then 1 else 0) + (if smokes t = x then 1 else 0) =
        m.sem x + if p.pending x then 1 else 0) := by
  cases h
  case take t hpos =>
    refine Or.inr (Or.inl ⟨t, rfl, rfl, ?_, fun x => ?_⟩)
    · simp [Place.handsOn]
      omega
    · simp [Place.pending, Place.offers, Place.woken, AgentPc.inPusher]
  case print t =>
    refine Or.inr (Or.inr ⟨t, rfl, rfl, ?_, fun x => ?_⟩)
    · simp [Place.handsOn]
    · simp [Place.pending, Place.offers, Place.woken]
  all_goals
    refine Or.inl ⟨rfl, rfl, ?_, fun x => ?_⟩
    · simp [Place.handsOn]
    · grind [Place.pending, Place.offers, Place.woken, AgentPc.inPusher, Function.update_apply]

end

/-! ## The invariant -/

/-- The turn is with nobody, or on its way back from a smoker. -/
def idle (n : Nat) (s : State Table Place) : Nat := s.shared.agentSem + count n Place.handsOn s.place

/-- The turns for a smoker of `x` in which no line has been printed yet. -/
def ahead (n : Nat) (s : State Table Place) (x : Ingredient) : Nat := s.shared.sem x + count n (Place.pending x) s.place

structure Inv (c : Config) (s : State Table Place) : Prop where
  role : ∀ j, (s.place j).role = c.role j
  lock : s.shared.lock + count c.threads Place.inLock s.place = 1
  free : 0 < s.shared.lock → ∀ y, s.shared.has y = false
  sees : ∀ j < c.threads, (s.place j).Sees s.shared.has
  account : ∀ x, s.shared.sem x + count c.threads (Place.served x) s.place = count c.threads (Place.offered x) s.place
  turn : idle c.threads s + ahead c.threads s tobacco + ahead c.threads s paper + ahead c.threads s matchstick = 1
  order : (∀ x, ahead c.threads s x = 0) ∧ s.shared.turns.map lacking = s.shared.printed ∨
    ∃ x, ahead c.threads s x = 1 ∧ s.shared.turns.map lacking = s.shared.printed ++ [x]

variable {c : Config} {s s' : State Table Place} {i j : Nat}

theorem count_init {q : Place → Bool} (hq : ∀ r : Role, q r.start = false) : count c.threads q c.init.place = 0 :=
  count_eq_zero.2 fun j _ => hq (c.role j)

theorem ahead_init (x : Ingredient) : ahead c.threads c.init x = 0 := by
  rw [ahead, count_init fun r => by cases r <;> rfl]
  rfl

theorem inv_init (c : Config) : Inv c c.init where
  role j := by
    show (c.role j).start.role = c.role j
    cases c.role j <;> rfl
  lock := by
    rw [count_init fun r => by cases r <;> rfl]
    rfl
  free _ _ := rfl
  sees j _ := by
    show (c.role j).start.Sees _
    cases c.role j <;> trivial
  account x := by
    rw [count_init fun r => by cases r <;> rfl, count_init fun r => by cases r <;> rfl]
    rfl
  turn := by
    rw [ahead_init, ahead_init, ahead_init, idle, count_init fun r => by cases r <;> rfl]
    rfl
  order := Or.inl ⟨ahead_init, rfl⟩

theorem moved_of_step (h : Inv c s) (hstep : step c.threads prog s i = some s') :
    Moved s.shared (s.place i) s'.shared (s'.place i) :=
  prog_moved (prog_of_step hstep) (h.sees i (lt_of_step hstep))

/-- The turn stays where it is, or an agent takes it, or a smoker prints its line. -/
theorem turn_step (h : Inv c s) (hstep : step c.threads prog s i = some s') :
    (s'.shared.turns = s.shared.turns ∧ s'.shared.printed = s.shared.printed ∧ idle c.threads s' = idle c.threads s ∧
      ∀ x, ahead c.threads s' x = ahead c.threads s x) ∨
    (∃ t, s'.shared.turns = s.shared.turns ++ [t] ∧ s'.shared.printed = s.shared.printed ∧
      idle c.threads s' + 1 = idle c.threads s ∧
      ∀ x, ahead c.threads s' x = ahead c.threads s x + if lacking t = x then 1 else 0) ∨
    (∃ t, s'.shared.turns = s.shared.turns ∧ s'.shared.printed = s.shared.printed ++ [smokes t] ∧
      idle c.threads s' = idle c.threads s + 1 ∧
      ∀ x, ahead c.threads s' x + (if smokes t = x then 1 else 0) = ahead c.threads s x) := by
  have hands := count_step Place.handsOn hstep
  have hpending (x : Ingredient) := count_step (Place.pending x) hstep
  simp only [ahead, idle]
  rcases (moved_of_step h hstep).turn with ⟨hturns, hprinted, hidle, hopen⟩ | ⟨t, hturns, hprinted, hidle, hopen⟩ |
    ⟨t, hturns, hprinted, hidle, hopen⟩
  · exact Or.inl ⟨hturns, hprinted, by omega, fun x => by have := hpending x; have := hopen x; omega⟩
  · exact Or.inr (Or.inl ⟨t, hturns, hprinted, by omega, fun x => by have := hpending x; have := hopen x; omega⟩)
  · exact Or.inr (Or.inr ⟨t, hturns, hprinted, by omega, fun x => by have := hpending x; have := hopen x; omega⟩)

theorem sum_single (y : Ingredient) :
    (if y = tobacco then 1 else 0) + (if y = paper then 1 else 0) + (if y = matchstick then 1 else 0) = 1 := by
  cases y <;> rfl

/-- Only one line is missing. -/
theorem Inv.eq_of_ahead (h : Inv c s) {x y : Ingredient} (hx : 0 < ahead c.threads s x)
    (hy : 0 < ahead c.threads s y) : x = y := by
  have := h.turn
  cases x <;> cases y <;> first | rfl | omega

/-- Every step keeps the order. -/
theorem order_step (h : Inv c s) (hstep : step c.threads prog s i = some s') :
    (∀ x, ahead c.threads s' x = 0) ∧ s'.shared.turns.map lacking = s'.shared.printed ∨
      ∃ x, ahead c.threads s' x = 1 ∧ s'.shared.turns.map lacking = s'.shared.printed ++ [x] := by
  have hturn := h.turn
  rcases turn_step h hstep with ⟨hturns, hprinted, -, hopen⟩ | ⟨t, hturns, hprinted, hidle, hopen⟩ |
    ⟨t, hturns, hprinted, hidle, hopen⟩
  · rw [hturns, hprinted]
    simp only [hopen]
    exact h.order
  · -- the turn was free, so that no line was missing
    have hnone (x : Ingredient) : ahead c.threads s x = 0 := by cases x <;> omega
    have hmap : s.shared.turns.map lacking = s.shared.printed := by
      rcases h.order with ⟨-, hmap⟩ | ⟨x, hone, -⟩
      · exact hmap
      · rw [hnone] at hone
        cases hone
    refine Or.inr ⟨lacking t, by rw [hopen, hnone, if_pos rfl], ?_⟩
    rw [hturns, hprinted, List.map_append, hmap]
    rfl
  · -- the line that is printed is the one that was missing
    have hpos : 0 < ahead c.threads s (smokes t) := by
      have := hopen (smokes t)
      rw [if_pos rfl] at this
      omega
    rcases h.order with ⟨hzero, -⟩ | ⟨x, hone, hmap⟩
    · rw [hzero] at hpos
      cases hpos
    · have hx : smokes t = x := h.eq_of_ahead hpos (by omega)
      subst hx
      refine Or.inl ⟨fun y => ?_, by rw [hturns, hprinted, hmap]⟩
      have hy := hopen y
      by_cases heq : smokes t = y
      · subst heq
        rw [if_pos rfl] at hy
        omega
      · rw [if_neg heq] at hy
        by_contra hne
        exact heq (h.eq_of_ahead hpos (by omega))

/-- **Every step keeps the invariant.** -/
theorem inv_step (h : Inv c s) (hstep : step c.threads prog s i = some s') :
    Inv c s' := by
  have hmoved := moved_of_step h hstep
  have hlock := h.lock
  have hi := lt_of_step hstep
  exact {
    role := fun j => by
      rw [← h.role]
      rcases eq_or_ne j i with rfl | hji
      · exact prog_role (prog_of_step hstep)
      · rw [place_step_of_ne hstep hji]
    lock := by
      have := balance_step (g := fun m => m.lock) hstep hmoved.lock
      omega
    free := fun hpos y => by
      refine hmoved.free (h.sees i hi) h.free (fun hin => ?_) hpos y
      have := count_pos.2 ⟨i, hi, hin⟩
      omega
    sees := fun j hj => by
      refine critical_step (K := fun (m : Table) p => p.Sees m.has) (q := Place.inLock) (by omega) hstep ?_
        (prog_sees (prog_of_step hstep) (h.sees i hi) h.free) ?_ hj (h.sees j hj)
      · intro sh p hp
        rcases p with ⟨t, pc⟩ | ⟨t, pc⟩
        · cases pc <;> trivial
        · trivial
      · intro hout p hp
        rw [prog_has (prog_of_step hstep) hout]
        exact hp
    account := fun x => by
      have := hmoved.account x
      have := count_step (Place.served x) hstep
      have := count_step (Place.offered x) hstep
      have := h.account x
      omega
    turn := by
      have := h.turn
      rcases turn_step h hstep with ⟨-, -, hidle, hopen⟩ | ⟨t, -, -, hidle, hopen⟩ | ⟨t, -, -, hidle, hopen⟩
      · rw [hopen, hopen, hopen]
        omega
      · have := sum_single (lacking t)
        rw [hopen, hopen, hopen]
        omega
      · have := sum_single (smokes t)
        have := hopen tobacco
        have := hopen paper
        have := hopen matchstick
        omega
    order := order_step h hstep }

theorem inv_of_reaches (h : Reaches (step c.threads prog) c.init s) : Inv c s :=
  invariant (I := fun s : State Table Place => Inv c s) (inv_init c)
    (fun _ _ _ hm hstep => inv_step hm hstep) h

/-! ## Progress -/

def Role.offers (x : Ingredient) : Role → Bool
  | agent t => lacking t == x
  | smoker _ => false

def Role.wants (x : Ingredient) : Role → Bool
  | smoker t => smokes t == x
  | agent _ => false

/-- For each agent there is a smoker that lacks what it puts on the table. -/
def Balanced (c : Config) : Prop :=
  ∀ x, count c.threads (Role.offers x) c.role = count c.threads (Role.wants x) c.role

namespace Place

/-- The agent has yet to wake a smoker of `x`. -/
def notYet (x : Ingredient) : Place → Bool
  | agent t pc => pc != .postLock && pc != .returned && lacking t == x
  | smoker _ _ => false

def waiting (x : Ingredient) : Place → Bool
  | smoker t pc => pc == .waitIngredient && smokes t == x
  | agent _ _ => false

end Place

/-- For each smoker that waits there is a token, or an agent that has yet to put one. -/
theorem Inv.waiting_eq (h : Inv c s) (hbalanced : Balanced c) (x : Ingredient) :
    s.shared.sem x + count c.threads (Place.notYet x) s.place = count c.threads (Place.waiting x) s.place := by
  have hoffers : count c.threads (Place.offered x) s.place + count c.threads (Place.notYet x) s.place =
      count c.threads (Role.offers x) c.role := count_split fun j _ => by
    rw [← h.role]
    rcases s.place j with ⟨t, pc⟩ | ⟨t, pc⟩
    · cases pc <;> simp [Place.offered, Place.notYet, Place.role, Role.offers]
    · rfl
  have hwants : count c.threads (Place.served x) s.place + count c.threads (Place.waiting x) s.place =
      count c.threads (Role.wants x) c.role := count_split fun j _ => by
    rw [← h.role]
    rcases s.place j with ⟨t, pc⟩ | ⟨t, pc⟩
    · rfl
    · cases pc <;> simp [Place.served, Place.waiting, Place.role, Role.wants]
  have := h.account x
  have := hbalanced x
  omega

/-- A thread stops in front of a semaphore without tokens, or when it has come to its end. -/
def Blocked (m : Table) : Place → Prop
  | .agent _ .waitAgent => m.agentSem = 0
  | .agent _ .waitLock => m.lock = 0
  | .smoker t .waitIngredient => m.sem (smokes t) = 0
  | .agent _ .returned | .smoker _ .returned => True
  | _ => False

theorem enabled_or_blocked (s : State Table Place) (j : Nat) : Enabled prog s j ∨ Blocked s.shared (s.place j) := by
  unfold Enabled
  rcases s.place j with ⟨t, pc⟩ | ⟨t, pc⟩
  · cases pc
    case waitAgent | waitLock =>
      simp only [prog, semWait_isSome, Blocked]
      omega
    case returned => exact .inr trivial
    all_goals exact .inl rfl
  · cases pc
    case waitIngredient =>
      simp only [prog, semWait_isSome, Blocked]
      omega
    case returned => exact .inr trivial
    all_goals exact .inl rfl

/-- Nobody can take a step. -/
def Stuck (c : Config) (s : State Table Place) : Prop := ∀ j < c.threads, Blocked s.shared (s.place j)

theorem Stuck.count_eq_zero {q : Place → Bool} (hstuck : Stuck c s) (hq : ∀ p, Blocked s.shared p → q p = false) :
    count c.threads q s.place = 0 :=
  Count.count_eq_zero.2 fun j hj => hq _ (hstuck j hj)

theorem Stuck.lock (hstuck : Stuck c s) (h : Inv c s) : s.shared.lock = 1 := by
  have hlock := h.lock
  have : count c.threads Place.inLock s.place = 0 := hstuck.count_eq_zero fun p hp => by
    rcases p with ⟨t, pc⟩ | ⟨t, pc⟩
    · cases pc <;> first | rfl | cases hp
    · rfl
  omega

/-- No smoker waits where there is a token. -/
theorem Stuck.sem_or (hstuck : Stuck c s) (x : Ingredient) :
    s.shared.sem x = 0 ∨ count c.threads (Place.waiting x) s.place = 0 := by
  rcases Nat.eq_zero_or_pos (count c.threads (Place.waiting x) s.place) with hzero | hpos
  · exact Or.inr hzero
  · obtain ⟨j, hj, hwaits⟩ := count_pos.1 hpos
    have hblocked := hstuck j hj
    rcases hp : s.place j with ⟨t, pc⟩ | ⟨t, pc⟩ <;> rw [hp] at hwaits hblocked
    · cases hwaits
    · simp only [Place.waiting, Bool.and_eq_true, beq_iff_eq] at hwaits
      obtain ⟨rfl, rfl⟩ := hwaits
      exact Or.inl hblocked

/-- An agent that has yet to wake a smoker waits for the turn. -/
theorem Stuck.notYet (hstuck : Stuck c s) (h : Inv c s) {x : Ingredient}
    (hpos : 0 < count c.threads (Place.notYet x) s.place) : s.shared.agentSem = 0 := by
  obtain ⟨j, hj, hagent⟩ := count_pos.1 hpos
  have hblocked := hstuck j hj
  have hlock := hstuck.lock h
  rcases hp : s.place j with ⟨t, pc⟩ | ⟨t, pc⟩ <;> rw [hp] at hagent hblocked
  · cases pc
    case waitAgent => exact hblocked
    case waitLock =>
      have : s.shared.lock = 0 := hblocked
      omega
    all_goals first | cases hblocked; done | cases hagent
  · cases hagent

/-- **Nobody is stuck**: when no thread can take a step, all have returned. -/
theorem Inv.all_returned (h : Inv c s) (hbalanced : Balanced c) (hstuck : Stuck c s) :
    (∀ j < c.threads, (s.place j).returned = true) ∧ s.shared.printed = s.shared.turns.map lacking := by
  have hhands : count c.threads Place.handsOn s.place = 0 := hstuck.count_eq_zero fun p hp => by
    rcases p with ⟨t, pc⟩ | ⟨t, pc⟩
    · rfl
    · cases pc <;> first | rfl | cases hp
  have hlock := hstuck.lock h
  have hpending (x : Ingredient) : count c.threads (Place.pending x) s.place = 0 :=
    Count.count_eq_zero.2 fun j hj => by
      have hblocked := hstuck j hj
      rcases hp : s.place j with ⟨t, pc⟩ | ⟨t, pc⟩ <;> rw [hp] at hblocked
      · cases pc
        case waitLock =>
          have : s.shared.lock = 0 := hblocked
          omega
        all_goals first | rfl | cases hblocked
      · cases pc <;> first | rfl | cases hblocked
  have hturn := h.turn
  simp only [idle, ahead, hhands, hpending, Nat.add_zero] at hturn
  have hwaiting := h.waiting_eq hbalanced
  -- a token that nobody takes would stand for an agent too many
  have hsem (x : Ingredient) : s.shared.sem x = 0 := by
    rcases hstuck.sem_or x with hzero | hnone
    · exact hzero
    · have := hwaiting x
      omega
  have hagent : s.shared.agentSem = 1 := by
    have := hsem tobacco
    have := hsem paper
    have := hsem matchstick
    omega
  have hnotYet (x : Ingredient) : count c.threads (Place.notYet x) s.place = 0 := by
    rcases Nat.eq_zero_or_pos (count c.threads (Place.notYet x) s.place) with hzero | hpos
    · exact hzero
    · have := hstuck.notYet h hpos
      omega
  refine ⟨fun j hj => ?_, ?_⟩
  · have hblocked := hstuck j hj
    rcases hp : s.place j with ⟨t, pc⟩ | ⟨t, pc⟩ <;> rw [hp] at hblocked
    · have hdone := Count.count_eq_zero.1 (hnotYet (lacking t)) j hj
      rw [hp] at hdone
      cases pc
      case returned => rfl
      case waitAgent | waitLock => simp [Place.notYet] at hdone
      all_goals cases hblocked
    · have hnone : count c.threads (Place.waiting (smokes t)) s.place = 0 := by
        have := hwaiting (smokes t)
        have := hsem (smokes t)
        have := hnotYet (smokes t)
        omega
      have hserved := Count.count_eq_zero.1 hnone j hj
      rw [hp] at hserved
      cases pc
      case returned => rfl
      case waitIngredient => simp [Place.waiting] at hserved
      all_goals cases hblocked
  · rcases h.order with ⟨-, hmap⟩ | ⟨x, hone, -⟩
    · exact hmap.symm
    · rw [ahead, hsem, hpending] at hone
      cases hone

/-! ## Every run ends -/

/-- How many steps a thread still has to take at most. -/
def AgentPc.rank : AgentPc → Nat
  | waitAgent => 11
  | waitLock => 10
  | testFirst again => if again then 5 else 9
  | testSecond again => if again then 4 else 8
  | clearFirst again | clearSecond again => if again then 3 else 7
  | postFirst again | postSecond again | set again => if again then 2 else 6
  | postLock => 1
  | returned => 0

def Place.rank : Place → Nat
  | agent _ pc => pc.rank
  | smoker _ .waitIngredient => 3
  | smoker _ .printSmoke => 2
  | smoker _ .postAgent => 1
  | smoker _ .returned => 0

theorem rank_prog {j : Nat} {m m' : Table} {p p' : Place} (h : prog j m p = some (m', p')) : p'.rank < p.rank := by
  rcases p with ⟨t, pc⟩ | ⟨t, pc⟩ <;> cases pc <;>
    simp only [prog, semWait_eq_some, Option.some.injEq, Prod.mk.injEq, reduceCtorEq] at h <;>
    grind [Place.rank, AgentPc.rank, afterPusher]

theorem rank_start (r : Role) : r.start.rank ≤ 11 := by
  cases r with
  | agent t => exact Nat.le_refl 11
  | smoker t => exact (show 3 ≤ 11 by decide)

theorem total_le {n : Nat} {r : Place → Nat} {f : Nat → Place} {b : Nat} (h : ∀ j < n, r (f j) ≤ b) :
    total n r f ≤ b * n := by
  induction n with
  | zero => exact Nat.le_refl 0
  | succ n ih =>
    have := ih fun j hj => h j (Nat.lt_succ_of_lt hj)
    have := h n (Nat.lt_succ_self n)
    rw [total_succ, Nat.mul_succ]
    omega

theorem length_le {l : List Nat} (h : run (step c.threads prog) c.init l = some s) : l.length ≤ 11 * c.threads := by
  have hle := length_le_measure (C := fun _ => True) (fun s : State Table Place => total c.threads Place.rank s.place)
    (fun _ _ _ _ hstep => by
      have := total_step Place.rank hstep
      have := rank_prog (prog_of_step hstep)
      omega) (fun _ _ => trivial) h
  have hstart : total c.threads Place.rank c.init.place ≤ 11 * c.threads := total_le fun j _ => rank_start (c.role j)
  omega

/-! ## The program -/

/-- The threads of `main`, in the order in which they are created. -/
def main : Config where
  threads := 6
  role j := if j % 2 = 0 then .agent (Fin.ofNat 3 (j / 2)) else .smoker (Fin.ofNat 3 (j / 2))

/-- **The smokers smoke in the order of the agents**: each line names what the agent of that turn did not put on the
table, at most one turn is open, one agent at a time handles the flags, and it leaves them down. -/
theorem agents_and_smokers_alternate (c : Config) (l : List Nat) (s : State Table Place)
    (h : run (step c.threads prog) c.init l = some s) :
    s.shared.printed <+: s.shared.turns.map lacking ∧ s.shared.turns.length ≤ s.shared.printed.length + 1 ∧
      (∀ i < c.threads, ∀ j < c.threads, (s.place i).inLock = true → (s.place j).inLock = true → i = j) ∧
      ((∀ j < c.threads, (s.place j).inLock = false) → ∀ y, s.shared.has y = false) := by
  have hinv := inv_of_reaches ⟨l, h⟩
  have hlock := hinv.lock
  have hlength : (s.shared.turns.map lacking).length = s.shared.turns.length := List.length_map ..
  refine ⟨?_, ?_, fun i hi j hj hpi hpj => eq_of_count_le_one (by omega) hi hj hpi hpj, fun hout => ?_⟩
  · rcases hinv.order with ⟨-, hmap⟩ | ⟨x, -, hmap⟩
    · exact hmap ▸ List.prefix_refl _
    · rw [hmap]
      exact List.prefix_append ..
  · rcases hinv.order with ⟨-, hmap⟩ | ⟨x, -, hmap⟩
    · rw [hmap] at hlength
      omega
    · rw [hmap, List.length_append, List.length_singleton] at hlength
      omega
  · have := Count.count_eq_zero.2 hout
    exact hinv.free (by omega)

theorem main_alternates : ∃ s, run (step 6 prog) main.init (List.replicate 10 0 ++ List.replicate 3 5 ++ [2]) = some s ∧
    s.shared.printed <+: s.shared.turns.map lacking ∧ s.shared.turns.length ≤ s.shared.printed.length + 1 := by
  obtain ⟨hlines, hlength, -⟩ := agents_and_smokers_alternate main
    (List.replicate 10 0 ++ List.replicate 3 5 ++ [2]) _ rfl
  exact ⟨_, rfl, hlines, hlength⟩

/-- **Every run ends with everybody returned**: as long as somebody has not returned some thread can take a step, and
at the end each agent's turn has its line. -/
theorem everybody_smokes (c : Config) (hbalanced : Balanced c) (l : List Nat) (s : State Table Place)
    (h : run (step c.threads prog) c.init l = some s) :
    (∀ j < c.threads, (s.place j).returned = false → ∃ k < c.threads, Enabled prog s k) ∧
      l.length ≤ 11 * c.threads ∧
      ((∀ k < c.threads, ¬Enabled prog s k) →
        (∀ j < c.threads, (s.place j).returned = true) ∧ s.shared.printed = s.shared.turns.map lacking) := by
  have hinv := inv_of_reaches ⟨l, h⟩
  have hstuck (hnone : ∀ k < c.threads, ¬Enabled prog s k) : Stuck c s := fun j hj =>
    (enabled_or_blocked s j).resolve_left (hnone j hj)
  refine ⟨fun j hj hp => ?_, length_le h, fun hnone => hinv.all_returned hbalanced (hstuck hnone)⟩
  by_contra hnone
  push Not at hnone
  rw [(hinv.all_returned hbalanced (hstuck hnone)).1 j hj] at hp
  cases hp

/-- One agent after the other, each with its smoker. -/
theorem main_smokes : ∃ s, run (step 6 prog) main.init
      (List.replicate 10 0 ++ List.replicate 3 5 ++ List.replicate 9 2 ++ List.replicate 3 1 ++ List.replicate 10 4 ++
        List.replicate 3 3) = some s ∧
    (∀ j < 6, (s.place j).returned = true) ∧ s.shared.printed = [matchstick, tobacco, paper] := by
  have hsmokes := everybody_smokes main (fun x => by cases x <;> decide)
    (List.replicate 10 0 ++ List.replicate 3 5 ++ List.replicate 9 2 ++ List.replicate 3 1 ++ List.replicate 10 4 ++
      List.replicate 3 3) _ rfl
  have hend := hsmokes.2.2 fun k hk => by
    match k, hk with
    | 0, _ | 1, _ | 2, _ | 3, _ | 4, _ | 5, _ => intro hsome; cases hsome
  exact ⟨_, rfl, hend.1, rfl⟩

end OstepHw.CigaretteSmokers
