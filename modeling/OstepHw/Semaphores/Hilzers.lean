import OstepHw.Lib.Handover

/-!
# Hilzer's barbershop

Model of `barber`, `usher` and `customer` of `Hilzers_barbershop.c`, with the threads that `main` creates:
first the barbers, then the ushers, then the customers.  A call on a semaphore is one step, and so is a
statement of a critical section.  An entry of a queue is named after the customer that has made it; a
customer makes one for the sofa and, after it has freed that, one for a chair.  The state also records who
has been given the sofa or a chair and has not given it back, and in which order the customers were taken
from the two queues.

* `Config.prog` — the program of a thread;
* `Inv` — every semaphore is accounted for;
* `barbershop_capacity_progress` — sofa, chairs and shop are never overfull, and nobody is stuck.
-/

set_option autoImplicit false

namespace OstepHw.Hilzers

open Machine OstepHw.Count Program Handover

structure Config where
  maxCapacity : Nat
  chairs : Nat
  sofaSize : Nat
  totalCustomers : Nat

/-- The threads of `main`. -/
def Config.threads (c : Config) : Nat := c.chairs + c.sofaSize + c.totalCustomers

structure Shop where
  custNumMutex : Nat
  sofaqMutex : Nat
  chairqMutex : Nat
  custArrive : Nat
  custOnSofa : Nat
  custLeaveSofa : Nat
  payment : Nat
  receipt : Nat
  cashierMutex : Nat
  customerNum : Int
  waitSofaq : List Nat
  waitChairq : List Nat
  /-- `cust_sem` of the entry that a customer has made for the sofa. -/
  sofaSem : Nat → Option Nat
  /-- `cust_sem` of the entry that a customer has made for a chair. -/
  chairSem : Nat → Option Nat
  /-- The customers that an usher has posted to, without those that have posted `cust_leave_sofa`. -/
  onSofa : List Nat
  /-- The customers that a barber has posted to, without those that have posted `payment`. -/
  inChair : List Nat
  /-- The customers in the order in which the ushers have taken them from `waitSofaq`. -/
  seated : List Nat
  /-- The customers in the order of their entries in `waitChairq`. -/
  lined : List Nat
  /-- The customers in the order in which the barbers have taken them from `waitChairq`. -/
  called : List Nat

def initSem : Shop :=
  ⟨1, 1, 1, 0, 0, 0, 0, 0, 1, 0, [], [], fun _ => none, fun _ => none, [], [], [], [], []⟩

/-- What a thread does next. -/
inductive Place
  /-- `barber` -/
  | waitOnSofa
  | waitChairq
  | takeChairq
  | postChairq (e : Nat)
  | postChair (e : Nat)
  | waitPayment
  | waitCashier
  | postCashier
  | postReceipt
  /-- `usher` -/
  | waitArrive
  | waitSofaq
  | takeSofaq
  | postSofaq (e : Nat)
  | postSofa (e : Nat)
  | waitLeaveSofa
  /-- `customer` -/
  | waitCustNum
  /-- `customer_num == max_capacity` -/
  | testFull
  | balkPostCustNum
  | customerNumInc
  | postCustNum
  | enterSofaq
  | initSofa
  | insertSofa
  | leaveSofaq
  | postArrive
  | waitSofa
  | freeSofa
  | enterChairq
  | initChair
  | insertChair
  | leaveChairq
  | postOnSofa
  | waitChair
  | freeChair
  | postLeaveSofa
  | postPayment
  | waitReceipt
  | leaveWaitCustNum
  | customerNumDec
  | leavePostCustNum
  | balked
  | left
  deriving DecidableEq

/-- `barber` and `usher`, which do not return, and `customer`. -/
def Config.prog (c : Config) : Prog Shop Place
  | _, m, .waitOnSofa => semWait m.custOnSofa fun v => ({ m with custOnSofa := v }, .waitChairq)
  | _, m, .waitChairq => semWait m.chairqMutex fun v => ({ m with chairqMutex := v }, .takeChairq)
  | _, m, .takeChairq =>
    match m.waitChairq with
    | [] => none
    | e :: rest => some ({ m with waitChairq := rest, called := m.called ++ [e] }, .postChairq e)
  | _, m, .postChairq e => some ({ m with chairqMutex := m.chairqMutex + 1 }, .postChair e)
  | _, m, .postChair e =>
    match m.chairSem e with
    | none => none
    | some v =>
      some ({ m with chairSem := Function.update m.chairSem e (some (v + 1)), inChair := m.inChair ++ [e] },
        .waitPayment)
  | _, m, .waitPayment => semWait m.payment fun v => ({ m with payment := v }, .waitCashier)
  | _, m, .waitCashier => semWait m.cashierMutex fun v => ({ m with cashierMutex := v }, .postCashier)
  | _, m, .postCashier => some ({ m with cashierMutex := m.cashierMutex + 1 }, .postReceipt)
  | _, m, .postReceipt => some ({ m with receipt := m.receipt + 1 }, .waitOnSofa)
  | _, m, .waitArrive => semWait m.custArrive fun v => ({ m with custArrive := v }, .waitSofaq)
  | _, m, .waitSofaq => semWait m.sofaqMutex fun v => ({ m with sofaqMutex := v }, .takeSofaq)
  | _, m, .takeSofaq =>
    match m.waitSofaq with
    | [] => none
    | e :: rest => some ({ m with waitSofaq := rest, seated := m.seated ++ [e] }, .postSofaq e)
  | _, m, .postSofaq e => some ({ m with sofaqMutex := m.sofaqMutex + 1 }, .postSofa e)
  | _, m, .postSofa e =>
    match m.sofaSem e with
    | none => none
    | some v =>
      some ({ m with sofaSem := Function.update m.sofaSem e (some (v + 1)), onSofa := m.onSofa ++ [e] },
        .waitLeaveSofa)
  | _, m, .waitLeaveSofa => semWait m.custLeaveSofa fun v => ({ m with custLeaveSofa := v }, .waitArrive)
  | _, m, .waitCustNum => semWait m.custNumMutex fun v => ({ m with custNumMutex := v }, .testFull)
  | _, m, .testFull => some (m, if m.customerNum = c.maxCapacity then .balkPostCustNum else .customerNumInc)
  | _, m, .balkPostCustNum => some ({ m with custNumMutex := m.custNumMutex + 1 }, .balked)
  | _, m, .customerNumInc => some ({ m with customerNum := m.customerNum + 1 }, .postCustNum)
  | _, m, .postCustNum => some ({ m with custNumMutex := m.custNumMutex + 1 }, .enterSofaq)
  | _, m, .enterSofaq => semWait m.sofaqMutex fun v => ({ m with sofaqMutex := v }, .initSofa)
  | i, m, .initSofa => some ({ m with sofaSem := Function.update m.sofaSem i (some 0) }, .insertSofa)
  | i, m, .insertSofa => some ({ m with waitSofaq := m.waitSofaq ++ [i] }, .leaveSofaq)
  | _, m, .leaveSofaq => some ({ m with sofaqMutex := m.sofaqMutex + 1 }, .postArrive)
  | _, m, .postArrive => some ({ m with custArrive := m.custArrive + 1 }, .waitSofa)
  | i, m, .waitSofa =>
    match m.sofaSem i with
    | none => none
    | some v => semWait v fun v => ({ m with sofaSem := Function.update m.sofaSem i (some v) }, .freeSofa)
  | i, m, .freeSofa => some ({ m with sofaSem := Function.update m.sofaSem i none }, .enterChairq)
  | _, m, .enterChairq => semWait m.chairqMutex fun v => ({ m with chairqMutex := v }, .initChair)
  | i, m, .initChair => some ({ m with chairSem := Function.update m.chairSem i (some 0) }, .insertChair)
  | i, m, .insertChair =>
    some ({ m with waitChairq := m.waitChairq ++ [i], lined := m.lined ++ [i] }, .leaveChairq)
  | _, m, .leaveChairq => some ({ m with chairqMutex := m.chairqMutex + 1 }, .postOnSofa)
  | _, m, .postOnSofa => some ({ m with custOnSofa := m.custOnSofa + 1 }, .waitChair)
  | i, m, .waitChair =>
    match m.chairSem i with
    | none => none
    | some v => semWait v fun v => ({ m with chairSem := Function.update m.chairSem i (some v) }, .freeChair)
  | i, m, .freeChair => some ({ m with chairSem := Function.update m.chairSem i none }, .postLeaveSofa)
  | i, m, .postLeaveSofa =>
    some ({ m with custLeaveSofa := m.custLeaveSofa + 1, onSofa := m.onSofa.erase i }, .postPayment)
  | i, m, .postPayment =>
    some ({ m with payment := m.payment + 1, inChair := m.inChair.erase i }, .waitReceipt)
  | _, m, .waitReceipt => semWait m.receipt fun v => ({ m with receipt := v }, .leaveWaitCustNum)
  | _, m, .leaveWaitCustNum => semWait m.custNumMutex fun v => ({ m with custNumMutex := v }, .customerNumDec)
  | _, m, .customerNumDec => some ({ m with customerNum := m.customerNum - 1 }, .leavePostCustNum)
  | _, m, .leavePostCustNum => some ({ m with custNumMutex := m.custNumMutex + 1 }, .left)
  | _, _, .balked => none
  | _, _, .left => none

/-- The function of thread `i`, before it begins. -/
def Config.start (c : Config) (i : Nat) : Place :=
  if i < c.chairs then .waitOnSofa else if i < c.chairs + c.sofaSize then .waitArrive else .waitCustNum

def Config.init (c : Config) : State Shop Place := ⟨initSem, c.start⟩

example : ¬Enabled (Config.prog ⟨1, 1, 1, 1⟩) (Config.init ⟨1, 1, 1, 1⟩) 0 := by
  simp [Enabled, Config.prog, Config.init, Config.start, initSem, semWait]

namespace Place

def isBarber : Place → Bool
  | waitOnSofa | waitChairq | takeChairq | postChairq _ | postChair _ | waitPayment | waitCashier | postCashier
  | postReceipt => true
  | _ => false

def isUsher : Place → Bool
  | waitArrive | waitSofaq | takeSofaq | postSofaq _ | postSofa _ | waitLeaveSofa => true
  | _ => false

/-- `customer` is over. -/
def ended : Place → Bool
  | balked | left => true
  | _ => false

/-! Between a wait on a mutex and the post that follows it. -/

def inCustNum : Place → Bool
  | testFull | balkPostCustNum | customerNumInc | postCustNum | customerNumDec | leavePostCustNum => true
  | _ => false

def inSofaq : Place → Bool
  | takeSofaq | postSofaq _ | initSofa | insertSofa | leaveSofaq => true
  | _ => false

def inChairq : Place → Bool
  | takeChairq | postChairq _ | initChair | insertChair | leaveChairq => true
  | _ => false

def inCashier : Place → Bool
  | postCashier => true
  | _ => false

/-! The sofa. -/

/-- The entry for the sofa is inserted, and the wait for its semaphore is not over. -/
def waitsSofa : Place → Bool
  | leaveSofaq | postArrive | waitSofa => true
  | _ => false

def hasSofaSem : Place → Bool
  | insertSofa | leaveSofaq | postArrive | waitSofa | freeSofa => true
  | _ => false

/-- After the wait, and before the post on `cust_leave_sofa`. -/
def sitsOnSofa : Place → Bool
  | freeSofa | enterChairq | initChair | insertChair | leaveChairq | postOnSofa | waitChair | freeChair
  | postLeaveSofa => true
  | _ => false

/-- The usher has taken the entry of customer `c` and has not yet posted to it. -/
def holdsSofa (c : Nat) : Place → Bool
  | postSofaq e | postSofa e => e = c
  | _ => false

/-- The entry is in the queue, and no usher is yet told or has yet taken it. -/
def pendingSofa : Place → Bool
  | leaveSofaq | postArrive | waitSofaq | takeSofaq => true
  | _ => false

def waitsLeaveSofa : Place → Bool
  | waitLeaveSofa => true
  | _ => false

/-! The chairs. -/

def waitsChair : Place → Bool
  | leaveChairq | postOnSofa | waitChair => true
  | _ => false

def hasChairSem : Place → Bool
  | insertChair | leaveChairq | postOnSofa | waitChair | freeChair => true
  | _ => false

/-- After the wait, and before the post on `payment`. -/
def sitsInChair : Place → Bool
  | freeChair | postLeaveSofa | postPayment => true
  | _ => false

def holdsChair (c : Nat) : Place → Bool
  | postChairq e | postChair e => e = c
  | _ => false

def pendingChair : Place → Bool
  | leaveChairq | postOnSofa | waitChairq | takeChairq => true
  | _ => false

def waitsPayment : Place → Bool
  | waitPayment => true
  | _ => false

/-! The cashier and the door. -/

/-- A barber that has been paid. -/
def accepts : Place → Bool
  | waitCashier | postCashier | postReceipt => true
  | _ => false

def waitsReceipt : Place → Bool
  | waitReceipt => true
  | _ => false

/-- Between `customer_num++` and `customer_num--`. -/
def counted : Place → Bool
  | postCustNum | enterSofaq | initSofa | insertSofa | leaveSofaq | postArrive | waitSofa | freeSofa
  | enterChairq | initChair | insertChair | leaveChairq | postOnSofa | waitChair | freeChair | postLeaveSofa
  | postPayment | waitReceipt | leaveWaitCustNum | customerNumDec => true
  | _ => false

end Place

def sofa : Roles Place := ⟨Place.waitsSofa, Place.hasSofaSem, Place.sitsOnSofa, Place.holdsSofa⟩

def chair : Roles Place := ⟨Place.waitsChair, Place.hasChairSem, Place.sitsInChair, Place.holdsChair⟩

def Shop.atSofa (m : Shop) : Desk := ⟨m.waitSofaq, m.sofaSem, m.onSofa⟩

def Shop.atChairs (m : Shop) : Desk := ⟨m.waitChairq, m.chairSem, m.inChair⟩

structure Inv (c : Config) (m : Shop) (place : Nat → Place) : Prop where
  barbers : count c.threads Place.isBarber place = c.chairs
  ushers : count c.threads Place.isUsher place = c.sofaSize
  idle : ∀ i, c.threads ≤ i → place i = .waitCustNum
  custNumMutex : m.custNumMutex + count c.threads Place.inCustNum place = 1
  sofaqMutex : m.sofaqMutex + count c.threads Place.inSofaq place = 1
  chairqMutex : m.chairqMutex + count c.threads Place.inChairq place = 1
  cashierMutex : m.cashierMutex + count c.threads Place.inCashier place = 1
  customerNum : m.customerNum = count c.threads Place.counted place
  capacity : m.customerNum ≤ c.maxCapacity
  known : ∀ i < c.threads, place i = .customerNumInc → m.customerNum < c.maxCapacity
  sofa : Kept sofa c.threads m.atSofa place
  custArrive : m.custArrive + count c.threads Place.pendingSofa place = m.waitSofaq.length
  custLeaveSofa : m.onSofa.length + m.custLeaveSofa = count c.threads Place.waitsLeaveSofa place
  chair : Kept chair c.threads m.atChairs place
  custOnSofa : m.custOnSofa + count c.threads Place.pendingChair place = m.waitChairq.length
  payment : m.inChair.length + m.payment = count c.threads Place.waitsPayment place
  receipt : count c.threads Place.waitsReceipt place =
    m.payment + count c.threads Place.accepts place + m.receipt

/-! ## What one step does -/

section
variable {c : Config} {i : Nat} {m m' : Shop} {p p' : Place}

/-- A step is about the sofa, about the chairs, or about neither. -/
theorem prog_desks (h : c.prog i m p = some (m', p')) :
    Effect sofa i m.atSofa p p' m'.atSofa ∧ Effect chair i m.atChairs p p' m'.atChairs := by
  cases p
  case initSofa =>
    cases h
    exact ⟨.init rfl rfl rfl rfl fun _ => rfl, .same rfl rfl rfl fun _ => rfl⟩
  case initChair =>
    cases h
    exact ⟨.same rfl rfl rfl fun _ => rfl, .init rfl rfl rfl rfl fun _ => rfl⟩
  case insertSofa =>
    cases h
    exact ⟨.insert rfl rfl rfl rfl fun _ => rfl, .same rfl rfl rfl fun _ => rfl⟩
  case insertChair =>
    cases h
    exact ⟨.same rfl rfl rfl fun _ => rfl, .insert rfl rfl rfl rfl fun _ => rfl⟩
  case freeSofa =>
    cases h
    exact ⟨.free rfl rfl rfl rfl fun _ => rfl, .same rfl rfl rfl fun _ => rfl⟩
  case freeChair =>
    cases h
    exact ⟨.same rfl rfl rfl fun _ => rfl, .free rfl rfl rfl rfl fun _ => rfl⟩
  case postLeaveSofa =>
    cases h
    exact ⟨.leave rfl rfl rfl rfl fun _ => rfl, .same rfl rfl rfl fun _ => rfl⟩
  case postPayment =>
    cases h
    exact ⟨.same rfl rfl rfl fun _ => rfl, .leave rfl rfl rfl rfl fun _ => rfl⟩
  case takeSofaq =>
    simp only [Config.prog] at h
    split at h
    · cases h
    · next hq =>
      cases h
      exact ⟨.take hq rfl rfl rfl (fun _ => rfl) fun _ => rfl, .same rfl rfl rfl fun _ => rfl⟩
  case takeChairq =>
    simp only [Config.prog] at h
    split at h
    · cases h
    · next hq =>
      cases h
      exact ⟨.same rfl rfl rfl fun _ => rfl, .take hq rfl rfl rfl (fun _ => rfl) fun _ => rfl⟩
  case postSofa =>
    simp only [Config.prog] at h
    split at h
    · cases h
    · next hsem =>
      cases h
      exact ⟨.post hsem rfl rfl rfl (fun _ => rfl) fun _ => rfl, .same rfl rfl rfl fun _ => rfl⟩
  case postChair =>
    simp only [Config.prog] at h
    split at h
    · cases h
    · next hsem =>
      cases h
      exact ⟨.same rfl rfl rfl fun _ => rfl, .post hsem rfl rfl rfl (fun _ => rfl) fun _ => rfl⟩
  case waitSofa =>
    simp only [Config.prog] at h
    split at h
    · cases h
    · next v hsem =>
      obtain ⟨hv, hr⟩ := semWait_eq_some.1 h
      obtain ⟨w, rfl⟩ := Nat.exists_eq_add_one_of_ne_zero hv.ne'
      cases hr
      exact ⟨.wake hsem rfl rfl rfl rfl rfl fun _ => rfl, .same rfl rfl rfl fun _ => rfl⟩
  case waitChair =>
    simp only [Config.prog] at h
    split at h
    · cases h
    · next v hsem =>
      obtain ⟨hv, hr⟩ := semWait_eq_some.1 h
      obtain ⟨w, rfl⟩ := Nat.exists_eq_add_one_of_ne_zero hv.ne'
      cases hr
      exact ⟨.same rfl rfl rfl fun _ => rfl, .wake hsem rfl rfl rfl rfl rfl fun _ => rfl⟩
  case testFull =>
    simp only [Config.prog, Option.some.injEq, Prod.mk.injEq] at h
    obtain ⟨rfl, rfl⟩ := h
    split <;> exact ⟨.same rfl rfl rfl fun _ => rfl, .same rfl rfl rfl fun _ => rfl⟩
  case balked | left => cases h
  all_goals
    simp only [Config.prog, semWait_eq_some, Option.some.injEq, Prod.mk.injEq] at h
    first
    | obtain ⟨rfl, rfl⟩ := h
      exact ⟨.same rfl rfl rfl fun _ => rfl, .same rfl rfl rfl fun _ => rfl⟩
    | obtain ⟨-, rfl, rfl⟩ := h
      exact ⟨.same rfl rfl rfl fun _ => rfl, .same rfl rfl rfl fun _ => rfl⟩

theorem prog_kind (h : c.prog i m p = some (m', p')) :
    p'.isBarber = p.isBarber ∧ p'.isUsher = p.isUsher := by
  cases p <;> simp only [Config.prog, semWait_eq_some, Option.some.injEq, Prod.mk.injEq] at h <;>
    grind [Place.isBarber, Place.isUsher, semWait]

theorem prog_custNumMutex (h : c.prog i m p = some (m', p')) :
    (m'.custNumMutex : Int) + (if p'.inCustNum then 1 else 0) =
      (m.custNumMutex : Int) + if p.inCustNum then 1 else 0 := by
  cases p
  all_goals
    simp only [Config.prog, semWait_eq_some, Option.some.injEq, Prod.mk.injEq] at h
    first
    | obtain ⟨rfl, rfl⟩ := h
      rfl
    | obtain ⟨-, rfl, rfl⟩ := h
      rfl
    | grind [Place.inCustNum, semWait]

theorem prog_sofaqMutex (h : c.prog i m p = some (m', p')) :
    (m'.sofaqMutex : Int) + (if p'.inSofaq then 1 else 0) =
      (m.sofaqMutex : Int) + if p.inSofaq then 1 else 0 := by
  cases p
  all_goals
    simp only [Config.prog, semWait_eq_some, Option.some.injEq, Prod.mk.injEq] at h
    first
    | obtain ⟨rfl, rfl⟩ := h
      rfl
    | obtain ⟨-, rfl, rfl⟩ := h
      rfl
    | grind [Place.inSofaq, semWait]

theorem prog_chairqMutex (h : c.prog i m p = some (m', p')) :
    (m'.chairqMutex : Int) + (if p'.inChairq then 1 else 0) =
      (m.chairqMutex : Int) + if p.inChairq then 1 else 0 := by
  cases p
  all_goals
    simp only [Config.prog, semWait_eq_some, Option.some.injEq, Prod.mk.injEq] at h
    first
    | obtain ⟨rfl, rfl⟩ := h
      rfl
    | obtain ⟨-, rfl, rfl⟩ := h
      rfl
    | grind [Place.inChairq, semWait]

theorem prog_cashierMutex (h : c.prog i m p = some (m', p')) :
    (m'.cashierMutex : Int) + (if p'.inCashier then 1 else 0) =
      (m.cashierMutex : Int) + if p.inCashier then 1 else 0 := by
  cases p
  all_goals
    simp only [Config.prog, semWait_eq_some, Option.some.injEq, Prod.mk.injEq] at h
    first
    | obtain ⟨rfl, rfl⟩ := h
      rfl
    | obtain ⟨-, rfl, rfl⟩ := h
      rfl
    | grind [Place.inCashier, semWait]

theorem prog_customerNum (h : c.prog i m p = some (m', p')) :
    -m'.customerNum + (if p'.counted then 1 else 0) = -m.customerNum + if p.counted then 1 else 0 := by
  cases p
  all_goals
    simp only [Config.prog, semWait_eq_some, Option.some.injEq, Prod.mk.injEq] at h
    first
    | obtain ⟨rfl, rfl⟩ := h
      rfl
    | obtain ⟨-, rfl, rfl⟩ := h
      rfl
    | grind [Place.counted, semWait]

theorem prog_full (h : c.prog i m p = some (m', p')) (hm : m.customerNum ≤ c.maxCapacity)
    (hp : p = .customerNumInc → m.customerNum < c.maxCapacity) :
    m'.customerNum ≤ c.maxCapacity ∧ (p' = .customerNumInc → m'.customerNum < c.maxCapacity) := by
  cases p <;> simp only [Config.prog, semWait_eq_some, Option.some.injEq, Prod.mk.injEq] at h <;>
    grind [semWait]

/-- `customer_num` belongs to the thread with `cust_num_mutex`. -/
theorem prog_other (h : c.prog i m p = some (m', p')) (hp : p.inCustNum = false) :
    m'.customerNum = m.customerNum := by
  cases p <;> simp only [Config.prog, semWait_eq_some, Option.some.injEq, Prod.mk.injEq] at h <;>
    grind [Place.inCustNum, semWait]

theorem prog_custArrive (h : c.prog i m p = some (m', p')) :
    ((m'.custArrive : Int) - m'.waitSofaq.length) + (if p'.pendingSofa then 1 else 0) =
      ((m.custArrive : Int) - m.waitSofaq.length) + if p.pendingSofa then 1 else 0 := by
  cases p
  all_goals
    simp only [Config.prog, semWait_eq_some, Option.some.injEq, Prod.mk.injEq] at h
    first
    | obtain ⟨rfl, rfl⟩ := h
      rfl
    | obtain ⟨-, rfl, rfl⟩ := h
      rfl
    | grind [Place.pendingSofa, semWait]

theorem prog_custOnSofa (h : c.prog i m p = some (m', p')) :
    ((m'.custOnSofa : Int) - m'.waitChairq.length) + (if p'.pendingChair then 1 else 0) =
      ((m.custOnSofa : Int) - m.waitChairq.length) + if p.pendingChair then 1 else 0 := by
  cases p
  all_goals
    simp only [Config.prog, semWait_eq_some, Option.some.injEq, Prod.mk.injEq] at h
    first
    | obtain ⟨rfl, rfl⟩ := h
      rfl
    | obtain ⟨-, rfl, rfl⟩ := h
      rfl
    | grind [Place.pendingChair, semWait]

theorem prog_custLeaveSofa (h : c.prog i m p = some (m', p')) (hmem : p.sitsOnSofa = true → i ∈ m.onSofa) :
    m'.onSofa.length + m'.custLeaveSofa + (if p.waitsLeaveSofa then 1 else 0) =
      m.onSofa.length + m.custLeaveSofa + if p'.waitsLeaveSofa then 1 else 0 := by
  cases p
  case postLeaveSofa =>
    cases h
    have hpos := List.length_pos_of_mem (hmem rfl)
    have herase := List.length_erase_of_mem (hmem rfl)
    show (m.onSofa.erase i).length + (m.custLeaveSofa + 1) + 0 = m.onSofa.length + m.custLeaveSofa + 0
    omega
  all_goals
    simp only [Config.prog, semWait_eq_some, Option.some.injEq, Prod.mk.injEq] at h
    first
    | obtain ⟨rfl, rfl⟩ := h
      rfl
    | obtain ⟨-, rfl, rfl⟩ := h
      rfl
    | grind [Place.waitsLeaveSofa, semWait]

theorem prog_payment (h : c.prog i m p = some (m', p')) (hmem : p.sitsInChair = true → i ∈ m.inChair) :
    m'.inChair.length + m'.payment + (if p.waitsPayment then 1 else 0) =
      m.inChair.length + m.payment + if p'.waitsPayment then 1 else 0 := by
  cases p
  case postPayment =>
    cases h
    have hpos := List.length_pos_of_mem (hmem rfl)
    have herase := List.length_erase_of_mem (hmem rfl)
    show (m.inChair.erase i).length + (m.payment + 1) + 0 = m.inChair.length + m.payment + 0
    omega
  all_goals
    simp only [Config.prog, semWait_eq_some, Option.some.injEq, Prod.mk.injEq] at h
    first
    | obtain ⟨rfl, rfl⟩ := h
      rfl
    | obtain ⟨-, rfl, rfl⟩ := h
      rfl
    | grind [Place.waitsPayment, semWait]

theorem prog_receipt (h : c.prog i m p = some (m', p')) :
    m'.payment + m'.receipt + (if p'.accepts then 1 else 0) + (if p.waitsReceipt then 1 else 0) =
      m.payment + m.receipt + (if p.accepts then 1 else 0) + if p'.waitsReceipt then 1 else 0 := by
  cases p
  all_goals
    simp only [Config.prog, semWait_eq_some, Option.some.injEq, Prod.mk.injEq] at h
    first
    | obtain ⟨rfl, rfl⟩ := h
      rfl
    | obtain ⟨-, rfl, rfl⟩ := h
      rfl
    | grind [Place.accepts, Place.waitsReceipt, semWait]

end

/-! ## The invariant -/

variable {c : Config} {s s' : State Shop Place} {i j : Nat}

theorem start_cases (c : Config) (i : Nat) :
    c.start i = .waitOnSofa ∨ c.start i = .waitArrive ∨ c.start i = .waitCustNum := by
  unfold Config.start
  split
  · exact .inl rfl
  · split
    · exact .inr (.inl rfl)
    · exact .inr (.inr rfl)

theorem start_usher (hle : c.chairs ≤ i) (hlt : i < c.chairs + c.sofaSize) : c.start i = .waitArrive := by
  rw [Config.start, if_neg (Nat.not_lt_of_le hle), if_pos hlt]

theorem start_customer (hle : c.chairs + c.sofaSize ≤ i) : c.start i = .waitCustNum := by
  rw [Config.start, if_neg (by omega), if_neg (Nat.not_lt_of_le hle)]

theorem kept_init {r : Roles Place} (hw : ∀ i, r.waiting (c.start i) = false)
    (hs : ∀ i, r.hasSem (c.start i) = false) (hv : ∀ i, r.served (c.start i) = false)
    (hh : ∀ e i, r.holds e (c.start i) = false) : Kept r c.threads ⟨[], fun _ => none, []⟩ c.start where
  line := ⟨fun e => by rw [hw, count_eq_zero.2 fun i _ => hh e i]; rfl, fun e => by rw [hs]; rfl⟩
  given := ⟨fun e => by rw [hv]; rfl⟩

theorem start_eq_false {q : Place → Bool} (hb : q .waitOnSofa = false) (hu : q .waitArrive = false)
    (hc : q .waitCustNum = false) (i : Nat) : q (c.start i) = false := by
  rcases start_cases c i with hi | hi | hi <;> rw [hi] <;> assumption

theorem count_start {q : Place → Bool} (hb : q .waitOnSofa = false) (hu : q .waitArrive = false)
    (hc : q .waitCustNum = false) : count c.threads q c.init.place = 0 :=
  count_eq_zero.2 fun i _ => start_eq_false hb hu hc i

theorem barbers_start : count c.threads Place.isBarber c.init.place = c.chairs := by
  have h : ∀ i < c.threads, (c.start i).isBarber = decide (0 ≤ i ∧ i < c.chairs) := fun i _ => by
    unfold Config.start
    split_ifs <;> simp_all [Place.isBarber]
  exact count_interval (by unfold Config.threads; omega) h

theorem ushers_start : count c.threads Place.isUsher c.init.place = c.sofaSize := by
  have h : ∀ i < c.threads, (c.start i).isUsher =
      decide (c.chairs ≤ i ∧ i < c.chairs + c.sofaSize) := fun i _ => by
    unfold Config.start
    split_ifs <;> simp_all [Place.isUsher]
  have := count_interval (by unfold Config.threads; omega) h
  rwa [Nat.add_sub_cancel_left] at this

theorem inv_init (c : Config) : Inv c c.init.shared c.init.place where
  barbers := barbers_start
  ushers := ushers_start
  idle i hi := by
    unfold Config.threads at hi
    exact start_customer (by omega)
  custNumMutex := by
    rw [count_start rfl rfl rfl]
    rfl
  sofaqMutex := by
    rw [count_start rfl rfl rfl]
    rfl
  chairqMutex := by
    rw [count_start rfl rfl rfl]
    rfl
  cashierMutex := by
    rw [count_start rfl rfl rfl]
    rfl
  customerNum := by
    rw [count_start rfl rfl rfl]
    rfl
  capacity := Int.natCast_nonneg _
  known i _ hp := by
    rcases start_cases c i with hi | hi | hi <;> cases hi.symm.trans hp
  sofa := kept_init (start_eq_false rfl rfl rfl) (start_eq_false rfl rfl rfl) (start_eq_false rfl rfl rfl)
    fun _ => start_eq_false rfl rfl rfl
  custArrive := by
    rw [count_start rfl rfl rfl]
    rfl
  custLeaveSofa := by
    rw [count_start rfl rfl rfl]
    rfl
  chair := kept_init (start_eq_false rfl rfl rfl) (start_eq_false rfl rfl rfl) (start_eq_false rfl rfl rfl)
    fun _ => start_eq_false rfl rfl rfl
  custOnSofa := by
    rw [count_start rfl rfl rfl]
    rfl
  payment := by
    rw [count_start rfl rfl rfl]
    rfl
  receipt := by
    rw [count_start rfl rfl rfl, count_start rfl rfl rfl]
    rfl

theorem known_step (h : Inv c s.shared s.place) (hstep : step c.threads c.prog s i = some s')
    (hj : j < c.threads) : s'.place j = .customerNumInc → s'.shared.customerNum < c.maxCapacity := by
  have hprog := prog_of_step hstep
  have := h.custNumMutex
  refine critical_step (K := fun (m : Shop) p => p = .customerNumInc → m.customerNum < c.maxCapacity)
    (q := Place.inCustNum) (by omega) hstep (fun _ p hp hpj => by rw [hpj] at hp; cases hp)
    (prog_full hprog h.capacity (h.known i (lt_of_step hstep))).2 (fun hpi p hk hp => ?_) hj (h.known j hj)
  rw [prog_other hprog hpi]
  exact hk hp

theorem kept_step (h : Inv c s.shared s.place) (hstep : step c.threads c.prog s i = some s') :
    Kept sofa c.threads s'.shared.atSofa s'.place ∧ Kept chair c.threads s'.shared.atChairs s'.place := by
  obtain ⟨hi, m', p', hprog, rfl⟩ := step_eq_some.1 hstep
  obtain ⟨hsofa, hchair⟩ := prog_desks hprog
  exact ⟨h.sofa.step hi hsofa, h.chair.step hi hchair⟩

/-- **Every step keeps the invariant.** -/
theorem inv_step (h : Inv c s.shared s.place) (hstep : step c.threads c.prog s i = some s') :
    Inv c s'.shared s'.place where
  barbers := by
    have hcount := count_step Place.isBarber hstep
    rw [(prog_kind (prog_of_step hstep)).1] at hcount
    have := h.barbers
    omega
  ushers := by
    have hcount := count_step Place.isUsher hstep
    rw [(prog_kind (prog_of_step hstep)).2] at hcount
    have := h.ushers
    omega
  idle j hj := by
    have hi := lt_of_step hstep
    rw [place_step_of_ne hstep (by omega)]
    exact h.idle j hj
  custNumMutex := by
    have := balance_step (g := fun m => m.custNumMutex) hstep (prog_custNumMutex (prog_of_step hstep))
    have := h.custNumMutex
    omega
  sofaqMutex := by
    have := balance_step (g := fun m => m.sofaqMutex) hstep (prog_sofaqMutex (prog_of_step hstep))
    have := h.sofaqMutex
    omega
  chairqMutex := by
    have := balance_step (g := fun m => m.chairqMutex) hstep (prog_chairqMutex (prog_of_step hstep))
    have := h.chairqMutex
    omega
  cashierMutex := by
    have := balance_step (g := fun m => m.cashierMutex) hstep (prog_cashierMutex (prog_of_step hstep))
    have := h.cashierMutex
    omega
  customerNum := by
    have := balance_step (g := fun m => -m.customerNum) hstep (prog_customerNum (prog_of_step hstep))
    have := h.customerNum
    omega
  capacity := (prog_full (prog_of_step hstep) h.capacity (h.known i (lt_of_step hstep))).1
  known _ hj hp := known_step h hstep hj hp
  sofa := (kept_step h hstep).1
  custArrive := by
    have := balance_step (g := fun m => m.custArrive - m.waitSofaq.length) hstep
      (prog_custArrive (prog_of_step hstep))
    have := h.custArrive
    omega
  custLeaveSofa := by
    have := prog_custLeaveSofa (prog_of_step hstep) fun hp => h.sofa.given.mem hp
    have := count_step Place.waitsLeaveSofa hstep
    have := h.custLeaveSofa
    omega
  chair := (kept_step h hstep).2
  custOnSofa := by
    have := balance_step (g := fun m => m.custOnSofa - m.waitChairq.length) hstep
      (prog_custOnSofa (prog_of_step hstep))
    have := h.custOnSofa
    omega
  payment := by
    have := prog_payment (prog_of_step hstep) fun hp => h.chair.given.mem hp
    have := count_step Place.waitsPayment hstep
    have := h.payment
    omega
  receipt := by
    have := prog_receipt (prog_of_step hstep)
    have := count_step Place.accepts hstep
    have := count_step Place.waitsReceipt hstep
    have := h.receipt
    omega

theorem inv_of_reaches (h : Reaches (step c.threads c.prog) c.init s) : Inv c s.shared s.place :=
  invariant (I := fun s : State Shop Place => Inv c s.shared s.place) (inv_init c)
    (fun _ _ _ hm hstep => inv_step hm hstep) h

/-! ## Capacities and progress -/

/-- A thread stops in front of a semaphore without tokens, or when it has come to its end.  A barber or an
usher would also stop at an empty queue, and at an entry whose semaphore is destroyed. -/
def Blocked (m : Shop) (i : Nat) : Place → Prop
  | .waitOnSofa => m.custOnSofa = 0
  | .waitChairq | .enterChairq => m.chairqMutex = 0
  | .takeChairq => m.waitChairq = []
  | .postChair e => m.chairSem e = none
  | .waitPayment => m.payment = 0
  | .waitCashier => m.cashierMutex = 0
  | .waitArrive => m.custArrive = 0
  | .waitSofaq | .enterSofaq => m.sofaqMutex = 0
  | .takeSofaq => m.waitSofaq = []
  | .postSofa e => m.sofaSem e = none
  | .waitLeaveSofa => m.custLeaveSofa = 0
  | .waitCustNum | .leaveWaitCustNum => m.custNumMutex = 0
  | .waitSofa => (m.sofaSem i).getD 0 = 0
  | .waitChair => (m.chairSem i).getD 0 = 0
  | .waitReceipt => m.receipt = 0
  | .balked | .left => True
  | _ => False

theorem enabled_or_blocked (s : State Shop Place) (i : Nat) :
    Enabled c.prog s i ∨ Blocked s.shared i (s.place i) := by
  unfold Enabled
  cases s.place i
  case waitOnSofa | waitChairq | enterChairq | waitPayment | waitCashier | waitArrive | waitSofaq | enterSofaq
      | waitLeaveSofa | waitCustNum | leaveWaitCustNum | waitReceipt =>
    simp only [Config.prog, semWait_isSome, Blocked]
    omega
  case takeChairq | postChair | takeSofaq | postSofa =>
    simp only [Config.prog, Blocked]
    split <;> simp_all
  case waitSofa | waitChair =>
    simp only [Config.prog, Blocked]
    split
    · next hsem => exact .inr (by rw [hsem]; rfl)
    · next v hsem =>
      rw [semWait_isSome, hsem, Option.getD_some]
      omega
  case balked | left => exact .inr trivial
  all_goals exact .inl rfl

/-- Ushers and barbers never take the first entry of an empty queue. -/
theorem Inv.takes (h : Inv c s.shared s.place) (hi : i < c.threads) :
    (s.place i = .takeSofaq → s.shared.waitSofaq ≠ []) ∧
      (s.place i = .takeChairq → s.shared.waitChairq ≠ []) := by
  constructor
  · intro hp hnil
    have := h.custArrive
    have := count_pos.2 ⟨i, hi, show (s.place i).pendingSofa = true by rw [hp]; rfl⟩
    rw [hnil, List.length_nil] at *
    omega
  · intro hp hnil
    have := h.custOnSofa
    have := count_pos.2 ⟨i, hi, show (s.place i).pendingChair = true by rw [hp]; rfl⟩
    rw [hnil, List.length_nil] at *
    omega

/-- Nor do they post to a semaphore that is destroyed. -/
theorem Inv.posts (h : Inv c s.shared s.place) (hi : i < c.threads) (e : Nat) :
    (s.place i = .postSofa e → s.shared.sofaSem e ≠ none) ∧
      (s.place i = .postChair e → s.shared.chairSem e ≠ none) := by
  constructor
  · intro hp
    have hwaits : (s.place e).waitsSofa = true :=
      h.sofa.line.waiting_of_holds hi (by rw [hp]; exact decide_eq_true rfl)
    have hsem : (s.shared.sofaSem e).isSome = (s.place e).hasSofaSem := h.sofa.line.hasSem e
    rw [← Option.isSome_iff_ne_none, hsem]
    revert hwaits
    cases s.place e <;> simp [Place.waitsSofa, Place.hasSofaSem]
  · intro hp
    have hwaits : (s.place e).waitsChair = true :=
      h.chair.line.waiting_of_holds hi (by rw [hp]; exact decide_eq_true rfl)
    have hsem : (s.shared.chairSem e).isSome = (s.place e).hasChairSem := h.chair.line.hasSem e
    rw [← Option.isSome_iff_ne_none, hsem]
    revert hwaits
    cases s.place e <;> simp [Place.waitsChair, Place.hasChairSem]

/-- A thread that is blocked while the mutexes are free. -/
def Resting (m : Shop) (i : Nat) : Place → Prop
  | .waitOnSofa => m.custOnSofa = 0
  | .waitPayment => m.payment = 0
  | .waitArrive => m.custArrive = 0
  | .waitLeaveSofa => m.custLeaveSofa = 0
  | .waitSofa => (m.sofaSem i).getD 0 = 0
  | .waitChair => (m.chairSem i).getD 0 = 0
  | .waitReceipt => m.receipt = 0
  | .balked | .left => True
  | _ => False

section
variable {m : Shop} {p : Place}

theorem Blocked.inCustNum (h : Blocked m i p) : p.inCustNum = false := by
  cases p <;> first | rfl | cases h

theorem Blocked.inCashier (h : Blocked m i p) : p.inCashier = false := by
  cases p <;> first | rfl | cases h

theorem Blocked.inSofaq (h : Blocked m i p) (htake : p = .takeSofaq → m.waitSofaq ≠ []) :
    p.inSofaq = false := by
  cases p <;> first | rfl | cases h | exact absurd h (htake rfl)

theorem Blocked.inChairq (h : Blocked m i p) (htake : p = .takeChairq → m.waitChairq ≠ []) :
    p.inChairq = false := by
  cases p <;> first | rfl | cases h | exact absurd h (htake rfl)

end

/-- A thread with a mutex is not blocked. -/
theorem Inv.resting (h : Inv c s.shared s.place) (hblocked : ∀ j < c.threads, Blocked s.shared j (s.place j)) :
    ∀ j < c.threads, Resting s.shared j (s.place j) := by
  have hfree : ∀ {q : Place → Bool} {v : Nat}, v + count c.threads q s.place = 1 →
      (∀ j < c.threads, q (s.place j) = false) → v ≠ 0 := fun hv hq => by
    rw [count_eq_zero.2 hq] at hv
    omega
  have hcustnum := hfree h.custNumMutex fun j hj => (hblocked j hj).inCustNum
  have hcashier := hfree h.cashierMutex fun j hj => (hblocked j hj).inCashier
  have hsofaq := hfree h.sofaqMutex fun j hj => (hblocked j hj).inSofaq (h.takes hj).1
  have hchairq := hfree h.chairqMutex fun j hj => (hblocked j hj).inChairq (h.takes hj).2
  intro j hj
  have hbl := hblocked j hj
  obtain ⟨htakeSofa, htakeChair⟩ := h.takes hj
  have hposts := h.posts hj
  generalize s.place j = p at *
  cases p
  case takeSofaq => exact absurd hbl (htakeSofa rfl)
  case takeChairq => exact absurd hbl (htakeChair rfl)
  case postSofa e => exact absurd hbl ((hposts e).1 rfl)
  case postChair e => exact absurd hbl ((hposts e).2 rfl)
  case waitCustNum | leaveWaitCustNum => exact absurd hbl hcustnum
  case waitCashier => exact absurd hbl hcashier
  case waitSofaq | enterSofaq => exact absurd hbl hsofaq
  case waitChairq | enterChairq => exact absurd hbl hchairq
  all_goals exact hbl

/-- A place where no thread rests. -/
theorem Resting.eq_false {q : Place → Bool} {m : Shop} {p : Place} (h : Resting m i p)
    (hbarber : q .waitOnSofa = false ∧ q .waitPayment = false)
    (husher : q .waitArrive = false ∧ q .waitLeaveSofa = false)
    (hcustomer : q .waitSofa = false ∧ q .waitChair = false ∧ q .waitReceipt = false)
    (hended : q .balked = false ∧ q .left = false) : q p = false := by
  cases p
  case waitOnSofa => exact hbarber.1
  case waitPayment => exact hbarber.2
  case waitArrive => exact husher.1
  case waitLeaveSofa => exact husher.2
  case waitSofa => exact hcustomer.1
  case waitChair => exact hcustomer.2.1
  case waitReceipt => exact hcustomer.2.2
  case balked => exact hended.1
  case left => exact hended.2
  all_goals cases h

section
variable {m : Shop} {p : Place}

theorem Resting.waitsPayment (h : Resting m i p) (hp : p.waitsPayment = true) : m.payment = 0 := by
  cases p <;> first | exact False.elim h | exact h | cases hp

theorem Resting.waitsReceipt (h : Resting m i p) (hp : p.waitsReceipt = true) : m.receipt = 0 := by
  cases p <;> first | exact False.elim h | exact h | cases hp

theorem Resting.waitsLeaveSofa (h : Resting m i p) (hp : p.waitsLeaveSofa = true) : m.custLeaveSofa = 0 := by
  cases p <;> first | exact False.elim h | exact h | cases hp

theorem Resting.waitsSofa (h : Resting m i p) (hp : p.waitsSofa = true) : (m.sofaSem i).getD 0 = 0 := by
  cases p <;> first | exact False.elim h | exact h | cases hp

theorem Resting.waitsChair (h : Resting m i p) (hp : p.waitsChair = true) : (m.chairSem i).getD 0 = 0 := by
  cases p <;> first | exact False.elim h | exact h | cases hp

theorem Resting.barber (h : Resting m i p) (hp : p.isBarber = true) (hpay : p.waitsPayment = false) :
    m.custOnSofa = 0 := by
  cases p <;> first | exact False.elim h | exact h | (cases hp; done) | cases hpay

theorem Resting.usher (h : Resting m i p) (hp : p.isUsher = true) (hleave : p.waitsLeaveSofa = false) :
    m.custArrive = 0 := by
  cases p <;> first | exact False.elim h | exact h | (cases hp; done) | cases hleave

theorem Resting.sitsOnSofa (h : Resting m i p) (hp : p.waitsChair = false) : p.sitsOnSofa = false := by
  cases p <;> first | exact False.elim h | rfl | cases hp

theorem Resting.customer (h : Resting m i p) (hbarber : p.isBarber = false) (husher : p.isUsher = false)
    (hended : p.ended = false) : p.waitsSofa = true ∨ p.waitsChair = true ∨ p.waitsReceipt = true := by
  cases p
  case waitOnSofa | waitPayment => cases hbarber
  case waitArrive | waitLeaveSofa => cases husher
  case balked | left => cases hended
  case waitSofa => exact .inl rfl
  case waitChair => exact .inr (.inl rfl)
  case waitReceipt => exact .inr (.inr rfl)
  all_goals exact False.elim h

end

/-- All threads rest. -/
def Stuck (c : Config) (s : State Shop Place) : Prop := ∀ j < c.threads, Resting s.shared j (s.place j)

theorem Stuck.count_eq_zero {q : Place → Bool} (hrest : Stuck c s)
    (hbarber : q .waitOnSofa = false ∧ q .waitPayment = false)
    (husher : q .waitArrive = false ∧ q .waitLeaveSofa = false)
    (hcustomer : q .waitSofa = false ∧ q .waitChair = false ∧ q .waitReceipt = false)
    (hended : q .balked = false ∧ q .left = false) : count c.threads q s.place = 0 :=
  Count.count_eq_zero.mpr fun j hj => (hrest j hj).eq_false hbarber husher hcustomer hended

/-- What holds of the threads of `main` holds of all, if it holds of a customer that does not come. -/
theorem Inv.forall_place (h : Inv c s.shared s.place) {P : Nat → Place → Prop} (hidle : ∀ j, P j .waitCustNum)
    (hlt : ∀ j < c.threads, P j (s.place j)) (j : Nat) : P j (s.place j) := by
  rcases Nat.lt_or_ge j c.threads with hj | hj
  · exact hlt j hj
  · rw [h.idle j hj]
    exact hidle j

theorem Inv.sofaSem_eq_zero (h : Inv c s.shared s.place) (hrest : Stuck c s) :
    ∀ e, (s.place e).waitsSofa = true → (s.shared.sofaSem e).getD 0 = 0 :=
  h.forall_place (P := fun e p => p.waitsSofa = true → (s.shared.sofaSem e).getD 0 = 0)
    (fun _ hp => absurd hp Bool.false_ne_true) fun j hj => (hrest j hj).waitsSofa

theorem Inv.chairSem_eq_zero (h : Inv c s.shared s.place) (hrest : Stuck c s) :
    ∀ e, (s.place e).waitsChair = true → (s.shared.chairSem e).getD 0 = 0 :=
  h.forall_place (P := fun e p => p.waitsChair = true → (s.shared.chairSem e).getD 0 = 0)
    (fun _ hp => absurd hp Bool.false_ne_true) fun j hj => (hrest j hj).waitsChair

/-- Nobody has paid, and nobody is owed a receipt. -/
theorem Inv.paid (h : Inv c s.shared s.place) (hrest : Stuck c s) :
    s.shared.payment = 0 ∧ count c.threads Place.waitsReceipt s.place = 0 := by
  have hreceipt := h.receipt
  rw [hrest.count_eq_zero (q := Place.accepts) ⟨rfl, rfl⟩ ⟨rfl, rfl⟩ ⟨rfl, rfl, rfl⟩ ⟨rfl, rfl⟩] at hreceipt
  have hpayment := h.payment
  have hpaid : s.shared.payment = 0 := by
    by_contra hpos
    have hwaits : count c.threads Place.waitsPayment s.place = 0 := Count.count_eq_zero.mpr fun j hj => by
      by_contra hpj
      exact hpos ((hrest j hj).waitsPayment (by simpa using hpj))
    omega
  refine ⟨hpaid, ?_⟩
  by_contra hpos
  obtain ⟨j, hj, hpj⟩ := count_pos.1 (Nat.pos_of_ne_zero hpos)
  have := (hrest j hj).waitsReceipt hpj
  omega

/-- Nobody is in a chair, so the barbers wait for customers, and nobody waits for a chair. -/
theorem Inv.waitsChair_eq_false (h : Inv c s.shared s.place) (hrest : Stuck c s) (hchairs : 0 < c.chairs) (e : Nat) :
    (s.place e).waitsChair = false := by
  have hinChair : s.shared.inChair = [] := h.chair.given_eq_nil
    (h.forall_place (P := fun _ p => p.sitsInChair = false) (fun _ => rfl) fun j hj =>
      (hrest j hj).eq_false ⟨rfl, rfl⟩ ⟨rfl, rfl⟩ ⟨rfl, rfl, rfl⟩ ⟨rfl, rfl⟩)
    (h.chairSem_eq_zero hrest)
  have hpayment := h.payment
  rw [hinChair, (h.paid hrest).1] at hpayment
  obtain ⟨b, hb, hpb⟩ := count_pos.1 (show 0 < count c.threads Place.isBarber s.place by
    rw [h.barbers]
    exact hchairs)
  have hzero := (hrest b hb).barber hpb (Count.count_eq_zero.mp hpayment.symm b hb)
  have hqueue := h.custOnSofa
  rw [hzero, hrest.count_eq_zero (q := Place.pendingChair) ⟨rfl, rfl⟩ ⟨rfl, rfl⟩ ⟨rfl, rfl, rfl⟩ ⟨rfl, rfl⟩] at hqueue
  exact h.chair.waiting_eq_false (List.eq_nil_of_length_eq_zero hqueue.symm)
    (fun e j hj => (hrest j hj).eq_false ⟨rfl, rfl⟩ ⟨rfl, rfl⟩ ⟨rfl, rfl, rfl⟩ ⟨rfl, rfl⟩)
    (h.chairSem_eq_zero hrest) e

/-- Nobody is on the sofa, so the ushers wait for customers, and nobody waits for the sofa. -/
theorem Inv.waitsSofa_eq_false (h : Inv c s.shared s.place) (hrest : Stuck c s) (hchairs : 0 < c.chairs)
    (hsofa : 0 < c.sofaSize) (e : Nat) : (s.place e).waitsSofa = false := by
  have honSofa : s.shared.onSofa = [] := h.sofa.given_eq_nil
    (h.forall_place (P := fun _ p => p.sitsOnSofa = false) (fun _ => rfl) fun j hj =>
      (hrest j hj).sitsOnSofa (h.waitsChair_eq_false hrest hchairs j))
    (h.sofaSem_eq_zero hrest)
  have hleave := h.custLeaveSofa
  rw [honSofa, List.length_nil, Nat.zero_add] at hleave
  have hleaves : count c.threads Place.waitsLeaveSofa s.place = 0 := by
    by_contra hpos
    obtain ⟨j, hj, hpj⟩ := count_pos.1 (Nat.pos_of_ne_zero hpos)
    have := (hrest j hj).waitsLeaveSofa hpj
    omega
  obtain ⟨u, hu, hpu⟩ := count_pos.1 (show 0 < count c.threads Place.isUsher s.place by
    rw [h.ushers]
    exact hsofa)
  have hzero := (hrest u hu).usher hpu (Count.count_eq_zero.mp hleaves u hu)
  have hqueue := h.custArrive
  rw [hzero, hrest.count_eq_zero (q := Place.pendingSofa) ⟨rfl, rfl⟩ ⟨rfl, rfl⟩ ⟨rfl, rfl, rfl⟩ ⟨rfl, rfl⟩] at hqueue
  exact h.sofa.waiting_eq_false (List.eq_nil_of_length_eq_zero hqueue.symm)
    (fun e j hj => (hrest j hj).eq_false ⟨rfl, rfl⟩ ⟨rfl, rfl⟩ ⟨rfl, rfl, rfl⟩ ⟨rfl, rfl⟩)
    (h.sofaSem_eq_zero hrest) e

/-- **No deadlock.** -/
theorem Inv.progress (h : Inv c s.shared s.place) (hchairs : 0 < c.chairs) (hsofa : 0 < c.sofaSize)
    (hi : i < c.threads) (hbarber : (s.place i).isBarber = false) (husher : (s.place i).isUsher = false)
    (hended : (s.place i).ended = false) : ∃ j < c.threads, Enabled c.prog s j := by
  by_contra hstuck
  have hrest : Stuck c s := h.resting fun j hj =>
    (enabled_or_blocked s j).resolve_left fun hen => hstuck ⟨j, hj, hen⟩
  rcases (hrest i hi).customer hbarber husher hended with hp | hp | hp
  · rw [h.waitsSofa_eq_false hrest hchairs hsofa i] at hp
    cases hp
  · rw [h.waitsChair_eq_false hrest hchairs i] at hp
    cases hp
  · rw [Count.count_eq_zero.mp (h.paid hrest).2 i hi] at hp
    cases hp

/-- **Capacities and progress**: the sofa, the chairs and the shop are never overfull, no entry is taken from
an empty queue, and nobody is stuck. -/
theorem barbershop_capacity_progress (c : Config) (hchairs : 0 < c.chairs) (hsofa : 0 < c.sofaSize)
    (s : State Shop Place) (h : Reaches (step c.threads c.prog) c.init s) :
    s.shared.onSofa.length ≤ c.sofaSize ∧ s.shared.inChair.length ≤ c.chairs ∧
      s.shared.customerNum ≤ c.maxCapacity ∧
      (∀ i < c.threads, (s.place i = .takeSofaq → s.shared.waitSofaq ≠ []) ∧
        (s.place i = .takeChairq → s.shared.waitChairq ≠ [])) ∧
      ∀ i < c.threads, (s.place i).isBarber = false → (s.place i).isUsher = false →
        (s.place i).ended = false → ∃ j < c.threads, Enabled c.prog s j := by
  have hinv := inv_of_reaches h
  refine ⟨?_, ?_, hinv.capacity, fun i hi => hinv.takes hi,
    fun i hi hbarber husher hended => hinv.progress hchairs hsofa hi hbarber husher hended⟩
  · have hle : count c.threads Place.waitsLeaveSofa s.place ≤ count c.threads Place.isUsher s.place :=
      count_mono fun p hp => by cases p <;> first | rfl | cases hp
    have := hinv.custLeaveSofa
    have := hinv.ushers
    omega
  · have hle : count c.threads Place.waitsPayment s.place ≤ count c.threads Place.isBarber s.place :=
      count_mono fun p hp => by cases p <;> first | rfl | cases hp
    have := hinv.payment
    have := hinv.barbers
    omega

/-- The only customer has been given the sofa and the chair, and has not yet stood up. -/
theorem oneCustomer_capacity_progress :
    ∃ s, run (step 3 (Config.prog ⟨1, 1, 1, 1⟩)) (Config.init ⟨1, 1, 1, 1⟩)
        (List.replicate 9 2 ++ List.replicate 5 1 ++ List.replicate 7 2 ++ List.replicate 5 0) = some s ∧
      s.shared.onSofa = [2] ∧ s.shared.inChair = [2] ∧ s.shared.onSofa.length ≤ 1 ∧
      ∃ j < 3, Enabled (Config.prog ⟨1, 1, 1, 1⟩) s j := by
  have hreach := barbershop_capacity_progress ⟨1, 1, 1, 1⟩ (by decide) (by decide) _
    ⟨List.replicate 9 2 ++ List.replicate 5 1 ++ List.replicate 7 2 ++ List.replicate 5 0, rfl⟩
  exact ⟨_, rfl, rfl, rfl, hreach.1, hreach.2.2.2.2 2 (by decide) rfl rfl rfl⟩

end OstepHw.Hilzers
