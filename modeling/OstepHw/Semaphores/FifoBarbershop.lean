import OstepHw.Lib.Handover

/-!
# The barbershop that serves in order

Model of `barber` and `customer` of `FIFO_barbershop.c`.  Thread 0 is the barber, and an entry of the queue
is named after the thread that has inserted it.  A call on a semaphore is one step, and so is a statement
of a critical section.  `customer_sem` gives the value of the semaphore of an entry from its
initialisation until it is destroyed.  The state also records in which order the entries were inserted and
in which order the customers got their haircuts.

* `Effect` — what a step does to the queue and to the entries;
* `Line` — the queue, the customer that the barber has called, and the customers that wait;
* `barbershop_in_order` — the haircuts follow the queue, and nobody is stuck.
-/

set_option autoImplicit false

namespace OstepHw.FifoBarbershop

open Machine OstepHw.Count Program Handover

structure Shop where
  mutex : Nat
  customerArrives : Nat
  customerLeaves : Nat
  barberSleeps : Nat
  customers : Int
  head : List Nat
  customerSem : Nat → Option Nat
  /-- The customers in the order of their entries. -/
  inserted : List Nat
  /-- The customers in the order in which `Sem_wait(customer_sem)` has returned. -/
  cut : List Nat

def initSem : Shop := ⟨1, 0, 0, 0, 0, [], fun _ => none, [], []⟩

/-- What a thread does next. -/
inductive Place
  /-- `barber` -/
  | waitArrives
  | waitMutex
  | takeFirst
  | postMutex (e : Nat)
  | postCustomer (e : Nat)
  | waitLeaves
  | postSleeps
  /-- `customer` -/
  | customerWaitMutex
  /-- `customers == chairs` -/
  | testFull
  | balkPostMutex
  | customersInc
  | initSem
  | insertTail
  | customerPostMutex
  | postArrives
  | waitSem
  | haircut
  | postLeaves
  | waitSleeps
  | leaveWaitMutex
  | customersDec
  | destroySem
  | leavePostMutex
  | balked
  | left
  deriving DecidableEq

/-- `barber`, which does not return, and `customer`. -/
def prog (chairs : Nat) : Prog Shop Place
  | _, m, .waitArrives => semWait m.customerArrives fun v => ({ m with customerArrives := v }, .waitMutex)
  | _, m, .waitMutex => semWait m.mutex fun v => ({ m with mutex := v }, .takeFirst)
  | _, m, .takeFirst =>
    match m.head with
    | [] => none
    | e :: rest => some ({ m with head := rest }, .postMutex e)
  | _, m, .postMutex e => some ({ m with mutex := m.mutex + 1 }, .postCustomer e)
  | _, m, .postCustomer e =>
    match m.customerSem e with
    | none => none
    | some v => some ({ m with customerSem := Function.update m.customerSem e (some (v + 1)) }, .waitLeaves)
  | _, m, .waitLeaves => semWait m.customerLeaves fun v => ({ m with customerLeaves := v }, .postSleeps)
  | _, m, .postSleeps => some ({ m with barberSleeps := m.barberSleeps + 1 }, .waitArrives)
  | _, m, .customerWaitMutex => semWait m.mutex fun v => ({ m with mutex := v }, .testFull)
  | _, m, .testFull => some (m, if m.customers = chairs then .balkPostMutex else .customersInc)
  | _, m, .balkPostMutex => some ({ m with mutex := m.mutex + 1 }, .balked)
  | _, m, .customersInc => some ({ m with customers := m.customers + 1 }, .initSem)
  | i, m, .initSem => some ({ m with customerSem := Function.update m.customerSem i (some 0) }, .insertTail)
  | i, m, .insertTail =>
    some ({ m with head := m.head ++ [i], inserted := m.inserted ++ [i] }, .customerPostMutex)
  | _, m, .customerPostMutex => some ({ m with mutex := m.mutex + 1 }, .postArrives)
  | _, m, .postArrives => some ({ m with customerArrives := m.customerArrives + 1 }, .waitSem)
  | i, m, .waitSem =>
    match m.customerSem i with
    | none => none
    | some v => semWait v fun v =>
      ({ m with customerSem := Function.update m.customerSem i (some v), cut := m.cut ++ [i] }, .haircut)
  | _, m, .haircut => some (m, .postLeaves)
  | _, m, .postLeaves => some ({ m with customerLeaves := m.customerLeaves + 1 }, .waitSleeps)
  | _, m, .waitSleeps => semWait m.barberSleeps fun v => ({ m with barberSleeps := v }, .leaveWaitMutex)
  | _, m, .leaveWaitMutex => semWait m.mutex fun v => ({ m with mutex := v }, .customersDec)
  | _, m, .customersDec => some ({ m with customers := m.customers - 1 }, .destroySem)
  | i, m, .destroySem =>
    some ({ m with customerSem := Function.update m.customerSem i none }, .leavePostMutex)
  | _, m, .leavePostMutex => some ({ m with mutex := m.mutex + 1 }, .left)
  | _, _, .balked => none
  | _, _, .left => none

/-- The barber and the customers, before they begin. -/
def init : State Shop Place := ⟨initSem, Function.update (fun _ => .customerWaitMutex) 0 .waitArrives⟩

example : ¬Enabled (prog 1) init 0 ∧ Enabled (prog 1) init 1 := by
  simp [Enabled, prog, init, initSem, semWait]

namespace Place

def isBarber : Place → Bool
  | waitArrives | waitMutex | takeFirst | postMutex _ | postCustomer _ | waitLeaves | postSleeps => true
  | _ => false

/-- `customer` is over. -/
def ended : Place → Bool
  | balked | left => true
  | _ => false

/-- Between a wait on `mutex` and the post that follows it. -/
def inMutex : Place → Bool
  | takeFirst | postMutex _ | testFull | balkPostMutex | customersInc | initSem | insertTail
  | customerPostMutex | customersDec | destroySem | leavePostMutex => true
  | _ => false

/-- Between `customers++` and `customers--`. -/
def counted : Place → Bool
  | initSem | insertTail | customerPostMutex | postArrives | waitSem | haircut | postLeaves | waitSleeps
  | leaveWaitMutex | customersDec => true
  | _ => false

/-- The entry is in the queue, and the barber is not yet told or has not yet taken it. -/
def pending : Place → Bool
  | customerPostMutex | postArrives | waitMutex | takeFirst => true
  | _ => false

/-- The entry is inserted, and `Sem_wait(customer_sem)` has not returned. -/
def waiting : Place → Bool
  | customerPostMutex | postArrives | waitSem => true
  | _ => false

/-- Between the initialisation of `customer_sem` and its end. -/
def hasSem : Place → Bool
  | insertTail | customerPostMutex | postArrives | waitSem | haircut | postLeaves | waitSleeps
  | leaveWaitMutex | customersDec | destroySem => true
  | _ => false

/-- Between the return of `Sem_wait(customer_sem)` and `Sem_post(customer_leaves)`. -/
def inHaircut : Place → Bool
  | haircut | postLeaves => true
  | _ => false

/-- The barber has taken an entry and has not yet been left. -/
def serving : Place → Bool
  | postMutex _ | postCustomer _ | waitLeaves => true
  | _ => false

/-- The customer is to be told that the barber sleeps. -/
def waitsSleeps : Place → Bool
  | waitSleeps => true
  | _ => false

def postsSleeps : Place → Bool
  | postSleeps => true
  | _ => false

/-- The barber has taken the entry of customer `c` and has not yet posted to it. -/
def holds (c : Nat) : Place → Bool
  | postMutex e | postCustomer e => e = c
  | _ => false

end Place

/-! ## What one step does -/

/-- What a step does to the queue and to the entries. -/
inductive Effect (i : Nat) (m : Shop) : Place → Shop → Place → Prop
  | quiet {m' : Shop} {p p' : Place} (hhead : m'.head = m.head) (hsem : m'.customerSem = m.customerSem)
      (hinserted : m'.inserted = m.inserted) (hcut : m'.cut = m.cut) (hwaiting : p'.waiting = p.waiting)
      (hhas : p'.hasSem = p.hasSem) (hholds : ∀ c, p'.holds c = p.holds c)
      (hserving : (if p'.inHaircut then 1 else 0) + m'.customerLeaves + (if p.serving then 1 else 0) =
        (if p.inHaircut then 1 else 0) + m.customerLeaves + if p'.serving then 1 else 0) :
      Effect i m p m' p'
  | init : Effect i m .initSem
      { m with customerSem := Function.update m.customerSem i (some 0) } .insertTail
  | insert : Effect i m .insertTail
      { m with head := m.head ++ [i], inserted := m.inserted ++ [i] } .customerPostMutex
  | take {e : Nat} {rest : List Nat} (hhead : m.head = e :: rest) :
      Effect i m .takeFirst { m with head := rest } (.postMutex e)
  | post {e v : Nat} (hsem : m.customerSem e = some v) : Effect i m (.postCustomer e)
      { m with customerSem := Function.update m.customerSem e (some (v + 1)) } .waitLeaves
  | cut {v : Nat} (hsem : m.customerSem i = some (v + 1)) : Effect i m .waitSem
      { m with customerSem := Function.update m.customerSem i (some v), cut := m.cut ++ [i] } .haircut
  | destroy : Effect i m .destroySem
      { m with customerSem := Function.update m.customerSem i none } .leavePostMutex

section
variable {chairs i : Nat} {m m' : Shop} {p p' : Place}

theorem prog_effect (h : prog chairs i m p = some (m', p')) : Effect i m p m' p' := by
  cases p
  case initSem =>
    cases h
    exact .init
  case insertTail =>
    cases h
    exact .insert
  case destroySem =>
    cases h
    exact .destroy
  case takeFirst =>
    simp only [prog] at h
    split at h
    · cases h
    · next hhead =>
      cases h
      exact .take hhead
  case postCustomer =>
    simp only [prog] at h
    split at h
    · cases h
    · next hsem =>
      cases h
      exact .post hsem
  case waitSem =>
    simp only [prog] at h
    split at h
    · cases h
    · next v hsem =>
      obtain ⟨hv, hr⟩ := semWait_eq_some.1 h
      cases hr
      exact .cut (by rw [hsem]; congr; omega)
  case waitLeaves =>
    simp only [prog, semWait_eq_some, Prod.mk.injEq] at h
    obtain ⟨hpos, rfl, rfl⟩ := h
    refine .quiet rfl rfl rfl rfl rfl rfl (fun _ => rfl) ?_
    show 0 + (m.customerLeaves - 1) + 1 = 0 + m.customerLeaves + 0
    omega
  case postLeaves =>
    cases h
    refine .quiet rfl rfl rfl rfl rfl rfl (fun _ => rfl) ?_
    show 0 + (m.customerLeaves + 1) + 0 = 1 + m.customerLeaves + 0
    omega
  case balked | left => cases h
  case testFull =>
    simp only [prog, Option.some.injEq, Prod.mk.injEq] at h
    obtain ⟨rfl, rfl⟩ := h
    split <;> exact .quiet rfl rfl rfl rfl rfl rfl (fun _ => rfl) rfl
  all_goals
    simp only [prog, semWait_eq_some, Option.some.injEq, Prod.mk.injEq] at h
    first
    | obtain ⟨rfl, rfl⟩ := h
      exact .quiet rfl rfl rfl rfl rfl rfl (fun _ => rfl) rfl
    | obtain ⟨-, rfl, rfl⟩ := h
      exact .quiet rfl rfl rfl rfl rfl rfl (fun _ => rfl) rfl

theorem prog_isBarber (h : prog chairs i m p = some (m', p')) : p'.isBarber = p.isBarber := by
  cases p <;> simp only [prog, semWait_eq_some, Option.some.injEq, Prod.mk.injEq] at h <;>
    grind [Place.isBarber, semWait]

theorem prog_mutex (h : prog chairs i m p = some (m', p')) :
    (m'.mutex : Int) + (if p'.inMutex then 1 else 0) = m.mutex + if p.inMutex then 1 else 0 := by
  cases p <;> simp only [prog, semWait_eq_some, Option.some.injEq, Prod.mk.injEq] at h <;>
    grind [Place.inMutex, semWait]

theorem prog_customers (h : prog chairs i m p = some (m', p')) :
    -m'.customers + (if p'.counted then 1 else 0) = -m.customers + if p.counted then 1 else 0 := by
  cases p <;> simp only [prog, semWait_eq_some, Option.some.injEq, Prod.mk.injEq] at h <;>
    grind [Place.counted, semWait]

theorem prog_full (h : prog chairs i m p = some (m', p')) (hm : m.customers ≤ chairs)
    (hp : p = .customersInc → m.customers < chairs) :
    m'.customers ≤ chairs ∧ (p' = .customersInc → m'.customers < chairs) := by
  cases p <;> simp only [prog, semWait_eq_some, Option.some.injEq, Prod.mk.injEq] at h <;>
    grind [semWait]

/-- `customers` belongs to the thread with `mutex`. -/
theorem prog_other (h : prog chairs i m p = some (m', p')) (hp : p.inMutex = false) :
    m'.customers = m.customers := by
  cases p <;> simp only [prog, semWait_eq_some, Option.some.injEq, Prod.mk.injEq] at h <;>
    grind [Place.inMutex, semWait]

theorem prog_arrives (h : prog chairs i m p = some (m', p')) :
    ((m'.customerArrives : Int) - m'.head.length) + (if p'.pending then 1 else 0) =
      (m.customerArrives - m.head.length) + if p.pending then 1 else 0 := by
  cases p <;> simp only [prog, semWait_eq_some, Option.some.injEq, Prod.mk.injEq] at h <;>
    grind [Place.pending, semWait]

/-- Customers that have left the chair, and the barber on the way to tell one of them. -/
theorem prog_sleeps (h : prog chairs i m p = some (m', p')) :
    m'.customerLeaves + m'.barberSleeps + (if p'.postsSleeps then 1 else 0) + (if p.waitsSleeps then 1 else 0) =
      m.customerLeaves + m.barberSleeps + (if p.postsSleeps then 1 else 0) +
        if p'.waitsSleeps then 1 else 0 := by
  cases p <;> simp only [prog, semWait_eq_some, Option.some.injEq, Prod.mk.injEq] at h <;>
    grind [Place.waitsSleeps, Place.postsSleeps, semWait]

end

/-! ## The queue -/

def roles : Roles Place := ⟨Place.waiting, Place.hasSem, Place.inHaircut, Place.holds⟩

/-- The customers `called` by the barber, of which there is at most one, and those in the queue. -/
structure Line (n : Nat) (m : Shop) (place : Nat → Place) (called : List Nat) : Prop where
  queue : Handover.Line roles n m.head m.customerSem place
  inserted : m.inserted = m.cut ++ called ++ m.head
  posted : ∀ c, called.count c = count n (Place.holds c) place + (m.customerSem c).getD 0
  serving : called.length + count n Place.inHaircut place + m.customerLeaves = count n Place.serving place

structure Inv (n chairs : Nat) (m : Shop) (place : Nat → Place) : Prop where
  barber : count n Place.isBarber place = 1
  mutex : m.mutex + count n Place.inMutex place = 1
  customers : m.customers = count n Place.counted place
  capacity : m.customers ≤ chairs
  known : ∀ i < n, place i = .customersInc → m.customers < chairs
  arrives : m.customerArrives + count n Place.pending place = m.head.length
  sleeps : count n Place.waitsSleeps place =
    m.customerLeaves + count n Place.postsSleeps place + m.barberSleeps
  idle : ∀ i, n ≤ i → place i = .customerWaitMutex
  line : ∃ called, Line n m place called

theorem isBarber_of_serving {p : Place} (hp : p.serving = true) : p.isBarber = true := by
  cases p <;> first | rfl | cases hp

section
variable {n chairs i : Nat} {m : Shop} {place : Nat → Place} {called : List Nat}

/-- There is one barber, and it is not serving. -/
theorem serving_eq_zero (hbarber : count n Place.isBarber place = 1) (hi : i < n)
    (hp : (place i).isBarber = true) (hserving : (place i).serving = false) :
    count n Place.serving place = 0 := count_eq_zero.2 fun j hj => by
  by_contra hpj
  have hji := eq_of_count_le_one hbarber.le hj hi (isBarber_of_serving (by simpa using hpj)) hp
  rw [hji, hserving] at hpj
  exact hpj rfl

/-- The barber serves one customer. -/
theorem Line.length_le_one (h : Line n m place called) (hbarber : count n Place.isBarber place = 1) :
    called.length ≤ 1 := by
  have := count_mono (n := n) (f := place) @isBarber_of_serving
  have := h.serving
  omega

theorem line_quiet (h : Line n m place called) {m' : Shop} {p' : Place} (hi : i < n)
    (hhead : m'.head = m.head) (hsem : m'.customerSem = m.customerSem) (hinserted : m'.inserted = m.inserted)
    (hcut : m'.cut = m.cut) (hwaiting : p'.waiting = (place i).waiting) (hhas : p'.hasSem = (place i).hasSem)
    (hholds : ∀ c, p'.holds c = (place i).holds c)
    (hserving : (if p'.inHaircut then 1 else 0) + m'.customerLeaves + (if (place i).serving then 1 else 0) =
      (if (place i).inHaircut then 1 else 0) + m.customerLeaves + if p'.serving then 1 else 0) :
    Line n m' (Function.update place i p') called where
  queue := by
    rw [hhead, hsem]
    exact h.queue.same hi hwaiting hhas hholds
  inserted := by rw [hinserted, hcut, hhead, h.inserted]
  posted c := by rw [h.posted, hsem, count_update_of_eq hi (hholds c)]
  serving := by
    have := h.serving
    have := count_update Place.inHaircut place p' hi
    have := count_update Place.serving place p' hi
    omega

/-- The count of a semaphore stays, where one that does not exist has the count 0. -/
theorem Line.posted_update (h : Line n m place called) (hi : i < n) {p' : Place}
    (hholds : ∀ c, Place.holds c p' = Place.holds c (place i)) {v : Option Nat}
    (hv : v.getD 0 = (m.customerSem i).getD 0) (c : Nat) :
    called.count c = count n (Place.holds c) (Function.update place i p') +
      (Function.update m.customerSem i v c).getD 0 := by
  rw [count_update_of_eq hi (hholds c), h.posted c]
  rcases eq_or_ne c i with rfl | hc
  · rw [Function.update_self, hv]
  · rw [Function.update_of_ne hc]

theorem line_init (h : Line n m place called) (hi : i < n) (hp : place i = .initSem) :
    Line n { m with customerSem := Function.update m.customerSem i (some 0) }
      (Function.update place i .insertTail) called where
  queue := h.queue.init hi (by rw [hp]; rfl) (by rw [hp]; rfl) rfl fun _ => by rw [hp]; rfl
  inserted := h.inserted
  posted := h.posted_update hi (fun _ => by rw [hp]; rfl) (by rw [h.queue.sem_eq_none (by rw [hp]; rfl)]; rfl)
  serving := by
    rw [count_update_of_eq hi (by rw [hp]; rfl), count_update_of_eq hi (by rw [hp]; rfl)]
    exact h.serving

theorem line_insert (h : Line n m place called) (hi : i < n) (hp : place i = .insertTail) :
    Line n { m with head := m.head ++ [i], inserted := m.inserted ++ [i] }
      (Function.update place i .customerPostMutex) called where
  queue := h.queue.insert hi (by rw [hp]; rfl) rfl (by rw [hp]; rfl) fun _ => by rw [hp]; rfl
  inserted := by
    show m.inserted ++ [i] = m.cut ++ called ++ (m.head ++ [i])
    rw [h.inserted, List.append_assoc _ m.head]
  posted c := by
    rw [count_update_of_eq hi (by rw [hp]; rfl)]
    exact h.posted c
  serving := by
    rw [count_update_of_eq hi (by rw [hp]; rfl), count_update_of_eq hi (by rw [hp]; rfl)]
    exact h.serving

/-- The barber takes the first entry. -/
theorem line_take (h : Line n m place called) (hbarber : count n Place.isBarber place = 1) (hi : i < n)
    (hp : place i = .takeFirst) {e : Nat} {rest : List Nat} (hhead : m.head = e :: rest) :
    Line n { m with head := rest } (Function.update place i (.postMutex e)) [e] := by
  have hnone := serving_eq_zero hbarber hi (by rw [hp]; rfl) (by rw [hp]; rfl)
  obtain rfl : called = [] := List.eq_nil_of_length_eq_zero (by have := h.serving; omega)
  refine ⟨?_, ?_, ?_, ?_⟩
  · have hqueue := h.queue
    rw [hhead] at hqueue
    exact hqueue.take hi (by rw [hp]; rfl) (by rw [hp]; rfl) (fun _ => by rw [hp]; rfl) fun _ => rfl
  · show m.inserted = m.cut ++ [e] ++ rest
    rw [h.inserted, hhead]
    simp
  · intro c
    have := h.posted c
    have hcount := count_update (Place.holds c) place (.postMutex e) hi
    rw [List.count_singleton]
    simp only [hp, Place.holds, List.count_nil, beq_iff_eq, decide_eq_true_eq, Bool.false_eq_true,
      if_false] at this hcount ⊢
    omega
  · have := h.serving
    have hcount := count_update Place.serving place (.postMutex e) hi
    rw [count_update_of_eq hi (by rw [hp]; rfl)]
    simp only [hp, Place.serving, List.length_nil, List.length_singleton, Bool.false_eq_true, if_false,
      if_true] at this hcount ⊢
    omega

theorem line_post (h : Line n m place called) (hi : i < n) {e v : Nat} (hp : place i = .postCustomer e)
    (hsem : m.customerSem e = some v) :
    Line n { m with customerSem := Function.update m.customerSem e (some (v + 1)) }
      (Function.update place i .waitLeaves) called where
  queue := h.queue.post hi (by rw [hp]; rfl) (by rw [hp]; rfl) (fun _ => by rw [hp]; rfl) (fun _ => rfl) hsem
  inserted := h.inserted
  posted c := by
    have := h.posted c
    have hcount := count_update (Place.holds c) place .waitLeaves hi
    simp only [hp, Place.holds, decide_eq_true_eq, Bool.false_eq_true, if_false] at hcount
    dsimp only
    rcases eq_or_ne c e with rfl | hc
    · rw [hsem] at this
      rw [Function.update_self]
      simp only [if_true, Option.getD_some] at this hcount ⊢
      omega
    · rw [Function.update_of_ne hc]
      rw [if_neg (Ne.symm hc)] at hcount
      omega
  serving := by
    rw [count_update_of_eq hi (by rw [hp]; rfl), count_update_of_eq hi (by rw [hp]; rfl)]
    exact h.serving

/-- The customer that the barber has called gets a haircut. -/
theorem line_cut (h : Line n m place called) (hbarber : count n Place.isBarber place = 1) (hi : i < n)
    (hp : place i = .waitSem) {v : Nat} (hsem : m.customerSem i = some (v + 1)) :
    Line n { m with customerSem := Function.update m.customerSem i (some v), cut := m.cut ++ [i] }
      (Function.update place i .haircut) [] := by
  have hposted := h.posted i
  rw [hsem, Option.getD_some] at hposted
  obtain rfl : called = [i] := by
    have hmem : i ∈ called := List.count_pos_iff.mp (by omega)
    have hle := h.length_le_one hbarber
    match called, hmem, hle with
    | [c], hmem, _ => rw [List.mem_singleton.mp hmem]
  rw [List.count_singleton_self] at hposted
  refine ⟨?_, ?_, ?_, ?_⟩
  · exact h.queue.wake hi (by rw [hp]; rfl) rfl (by rw [hp]; rfl) (fun _ => by rw [hp]; rfl) hsem
  · show m.inserted = m.cut ++ [i] ++ [] ++ m.head
    rw [h.inserted, List.append_nil]
  · intro c
    have := h.posted c
    rw [count_update_of_eq hi (by rw [hp]; rfl)]
    dsimp only
    rcases eq_or_ne c i with rfl | hc
    · rw [Function.update_self, List.count_nil, Option.getD_some]
      omega
    · rw [Function.update_of_ne hc]
      simpa [Ne.symm hc] using this
  · have := h.serving
    have hcount := count_update Place.inHaircut place .haircut hi
    rw [count_update_of_eq (p := Place.serving) hi (by rw [hp]; rfl)]
    simp only [hp, Place.inHaircut, List.length_nil, List.length_singleton, Bool.false_eq_true, if_false,
      if_true] at this hcount ⊢
    omega

theorem line_destroy (h : Line n m place called) (hi : i < n) (hp : place i = .destroySem) :
    Line n { m with customerSem := Function.update m.customerSem i none }
      (Function.update place i .leavePostMutex) called where
  queue := h.queue.free hi (by rw [hp]; rfl) rfl rfl fun _ => by rw [hp]; rfl
  inserted := h.inserted
  posted := h.posted_update hi (fun _ => by rw [hp]; rfl) (by rw [h.queue.sem_eq_zero (by rw [hp]; rfl)]; rfl)
  serving := by
    rw [count_update_of_eq hi (by rw [hp]; rfl), count_update_of_eq hi (by rw [hp]; rfl)]
    exact h.serving

end

/-! ## The invariant -/

variable {n chairs : Nat} {s s' : State Shop Place} {i j : Nat}

theorem line_step {called : List Nat} (h : Line n s.shared s.place called)
    (hbarber : count n Place.isBarber s.place = 1) (hstep : step n (prog chairs) s i = some s') :
    ∃ called', Line n s'.shared s'.place called' := by
  obtain ⟨hi, m', p', hprog, rfl⟩ := step_eq_some.1 hstep
  generalize hp : s.place i = p at hprog
  cases prog_effect hprog with
  | quiet hhead hsem hinserted hcut hwaiting hhas hholds hserving =>
    subst hp
    exact ⟨_, line_quiet h hi hhead hsem hinserted hcut hwaiting hhas hholds hserving⟩
  | init => exact ⟨_, line_init h hi hp⟩
  | insert => exact ⟨_, line_insert h hi hp⟩
  | take hhead => exact ⟨_, line_take h hbarber hi hp hhead⟩
  | post hsem => exact ⟨_, line_post h hi hp hsem⟩
  | cut hsem => exact ⟨_, line_cut h hbarber hi hp hsem⟩
  | destroy => exact ⟨_, line_destroy h hi hp⟩

theorem inv_init (hn : 0 < n) (chairs : Nat) : Inv n chairs init.shared init.place := by
  -- only the barber is not in front of `customer`
  have hcount : ∀ q : Place → Bool, q .customerWaitMutex = false →
      count n q init.place = if q .waitArrives then 1 else 0 := by
    intro q hq
    have hnone : count n q (fun _ => .customerWaitMutex) = 0 := count_eq_zero.2 fun _ _ => hq
    have := count_update q (fun _ => .customerWaitMutex) .waitArrives hn
    rw [hnone, hq, if_neg Bool.false_ne_true, Nat.zero_add, Nat.add_zero] at this
    exact this
  have hplace : ∀ i, init.place i = .waitArrives ∨ init.place i = .customerWaitMutex := fun i => by
    rcases eq_or_ne i 0 with rfl | hi
    · exact .inl rfl
    · simp [init, hi]
  refine ⟨hcount _ rfl, ?_, ?_, Int.natCast_nonneg _, ?_, ?_, ?_, ?_, [], ⟨?_, ?_⟩, rfl, ?_, ?_⟩
  · rw [hcount _ rfl]
    rfl
  · rw [hcount _ rfl]
    rfl
  · intro i _ hp
    rcases hplace i with hi | hi <;> rw [hi] at hp <;> cases hp
  · rw [hcount _ rfl]
    rfl
  · rw [hcount _ rfl, hcount _ rfl]
    rfl
  · intro i hi
    have hne : i ≠ 0 := by omega
    simp [init, hne]
  · intro c
    rw [hcount _ rfl]
    rcases hplace c with hc | hc <;> rw [hc] <;> rfl
  · intro c
    rcases hplace c with hc | hc <;> rw [hc] <;> rfl
  · intro c
    rw [hcount _ rfl]
    rfl
  · rw [hcount _ rfl, hcount _ rfl]
    rfl

theorem known_step (h : Inv n chairs s.shared s.place) (hstep : step n (prog chairs) s i = some s')
    (hj : j < n) : s'.place j = .customersInc → s'.shared.customers < chairs := by
  have hprog := prog_of_step hstep
  have := h.mutex
  refine critical_step (K := fun (m : Shop) p => p = .customersInc → m.customers < chairs) (q := Place.inMutex)
    (by omega) hstep (fun _ p hp hpj => by rw [hpj] at hp; cases hp)
    (prog_full hprog h.capacity (h.known i (lt_of_step hstep))).2 (fun hpi p hk hp => ?_) hj (h.known j hj)
  rw [prog_other hprog hpi]
  exact hk hp

/-- **Every step keeps the invariant.** -/
theorem inv_step (h : Inv n chairs s.shared s.place) (hstep : step n (prog chairs) s i = some s') :
    Inv n chairs s'.shared s'.place := by
  have hi := lt_of_step hstep
  have hprog := prog_of_step hstep
  have hmutex := balance_step (g := fun m => m.mutex) hstep (prog_mutex hprog)
  have hcustomers := balance_step (g := fun m => -m.customers) hstep (prog_customers hprog)
  have harrives := balance_step (g := fun m => m.customerArrives - m.head.length) hstep (prog_arrives hprog)
  have hbarber := count_step Place.isBarber hstep
  rw [prog_isBarber hprog] at hbarber
  have hwaits := count_step Place.waitsSleeps hstep
  have hposts := count_step Place.postsSleeps hstep
  have hsleeps := prog_sleeps hprog
  have := h.barber
  have := h.mutex
  have := h.customers
  have := h.arrives
  have := h.sleeps
  obtain ⟨called, hline⟩ := h.line
  refine ⟨by omega, by omega, by omega, (prog_full hprog h.capacity (h.known i hi)).1, ?_, by omega, by omega,
    ?_, line_step hline h.barber hstep⟩
  · exact fun j hj hp => known_step h hstep hj hp
  · intro j hj
    rw [place_step_of_ne hstep (by omega)]
    exact h.idle j hj

theorem inv_of_reaches (hn : 0 < n) (h : Reaches (step n (prog chairs)) init s) :
    Inv n chairs s.shared s.place :=
  invariant (I := fun s : State Shop Place => Inv n chairs s.shared s.place) (inv_init hn chairs)
    (fun _ _ _ hm hstep => inv_step hm hstep) h

/-! ## Progress -/

/-- A thread stops in front of a semaphore without tokens, or when it has come to its end.  The barber
would also stop at an empty queue, and at an entry whose semaphore is destroyed. -/
def Blocked (m : Shop) (i : Nat) : Place → Prop
  | .waitArrives => m.customerArrives = 0
  | .waitMutex | .customerWaitMutex | .leaveWaitMutex => m.mutex = 0
  | .takeFirst => m.head = []
  | .postCustomer e => m.customerSem e = none
  | .waitLeaves => m.customerLeaves = 0
  | .waitSem => (m.customerSem i).getD 0 = 0
  | .waitSleeps => m.barberSleeps = 0
  | .balked | .left => True
  | _ => False

theorem enabled_or_blocked (s : State Shop Place) (i : Nat) :
    Enabled (prog chairs) s i ∨ Blocked s.shared i (s.place i) := by
  unfold Enabled
  cases s.place i
  case waitArrives | waitMutex | customerWaitMutex | leaveWaitMutex | waitLeaves | waitSleeps =>
    simp only [prog, semWait_isSome, Blocked]
    omega
  case takeFirst | postCustomer =>
    simp only [prog, Blocked]
    split <;> simp_all
  case waitSem =>
    simp only [prog, Blocked]
    split
    · next hsem => exact .inr (by rw [hsem]; rfl)
    · next v hsem =>
      rw [semWait_isSome, hsem, Option.getD_some]
      omega
  case balked | left => exact .inr trivial
  all_goals exact .inl rfl

/-- The barber never takes the first entry of an empty queue. -/
theorem Inv.head_ne_nil (h : Inv n chairs s.shared s.place) (hi : i < n) (hp : s.place i = .takeFirst) :
    s.shared.head ≠ [] := by
  intro hnil
  have := h.arrives
  have := count_pos.2 ⟨i, hi, show (s.place i).pending = true by rw [hp]; rfl⟩
  rw [hnil, List.length_nil] at *
  omega

/-- The barber never posts to a semaphore that is destroyed. -/
theorem Inv.sem_isSome (h : Inv n chairs s.shared s.place) (hi : i < n) {e : Nat}
    (hp : s.place i = .postCustomer e) : (s.shared.customerSem e).isSome = true := by
  obtain ⟨called, hline⟩ := h.line
  have hwaiting : (s.place e).waiting = true :=
    hline.queue.waiting_of_holds hi (by rw [hp]; simp [roles, Place.holds])
  rw [hline.queue.hasSem e]
  show (s.place e).hasSem = true
  revert hwaiting
  cases s.place e <;> simp [Place.waiting, Place.hasSem]

section
variable {m : Shop} {p : Place}

theorem Blocked.eq_takeFirst (h : Blocked m i p) (hp : p.inMutex = true) : p = .takeFirst := by
  cases p
  case takeFirst => rfl
  all_goals first | cases hp; done | cases h

theorem Blocked.eq_postCustomer {c : Nat} (h : Blocked m i p) (hp : p.holds c = true) : p = .postCustomer c := by
  cases p
  case postCustomer => exact congrArg _ (of_decide_eq_true hp)
  all_goals first | cases hp | cases h

theorem Blocked.sem_eq_zero (h : Blocked m i p) (hp : p.waiting = true) : (m.customerSem i).getD 0 = 0 := by
  cases p
  case waitSem => exact h
  all_goals first | cases hp; done | cases h

theorem Blocked.eq_waitMutex (h : Blocked m i p) (hp : p.pending = true) :
    p = .waitMutex ∧ m.mutex = 0 ∨ p = .takeFirst := by
  cases p
  case waitMutex => exact .inl ⟨rfl, h⟩
  case takeFirst => exact .inr rfl
  all_goals first | cases hp; done | cases h

theorem Blocked.moves (h : Blocked m i p) : p.inHaircut = false ∧ p.postsSleeps = false := by
  cases p <;> first | exact ⟨rfl, rfl⟩ | cases h

theorem Blocked.barber (h : Blocked m i p) (hp : p.isBarber = true) (hmutex : m.mutex ≠ 0)
    (htake : p ≠ .takeFirst) (hpost : ∀ e, p ≠ .postCustomer e) :
    p = .waitArrives ∧ m.customerArrives = 0 ∨ p = .waitLeaves ∧ m.customerLeaves = 0 := by
  cases p
  case waitArrives => exact .inl ⟨rfl, h⟩
  case waitLeaves => exact .inr ⟨rfl, h⟩
  case waitMutex => exact absurd h hmutex
  case takeFirst => exact absurd rfl htake
  case postCustomer e => exact absurd rfl (hpost e)
  all_goals first | cases hp; done | cases h

theorem Blocked.customer (h : Blocked m i p) (hp : p.isBarber = false) (hended : p.ended = false)
    (hmutex : m.mutex ≠ 0) : p.waiting = true ∨ p.waitsSleeps = true ∧ m.barberSleeps = 0 := by
  cases p
  case customerWaitMutex | leaveWaitMutex => exact absurd h hmutex
  case waitSem => exact .inl rfl
  case waitSleeps => exact .inr ⟨rfl, h⟩
  all_goals first | cases hp; done | cases hended; done | cases h

end

/-- All threads are blocked. -/
def Stuck (n : Nat) (s : State Shop Place) : Prop := ∀ j < n, Blocked s.shared j (s.place j)

theorem Inv.ne_takeFirst (h : Inv n chairs s.shared s.place) (hstuck : Stuck n s) (hj : j < n) :
    s.place j ≠ .takeFirst := by
  intro hp
  have hblocked := hstuck j hj
  rw [hp] at hblocked
  exact h.head_ne_nil hj hp hblocked

theorem Inv.ne_postCustomer (h : Inv n chairs s.shared s.place) (hstuck : Stuck n s) (hj : j < n) (e : Nat) :
    s.place j ≠ .postCustomer e := by
  intro hp
  have hblocked := hstuck j hj
  have hsome := h.sem_isSome hj hp
  rw [hp] at hblocked
  rw [show s.shared.customerSem e = none from hblocked] at hsome
  cases hsome

theorem Inv.mutex_ne_zero (h : Inv n chairs s.shared s.place) (hstuck : Stuck n s) : s.shared.mutex ≠ 0 := by
  intro hzero
  have := h.mutex
  obtain ⟨j, hj, hpj⟩ := count_pos.1 (show 0 < count n Place.inMutex s.place by omega)
  exact h.ne_takeFirst hstuck hj ((hstuck j hj).eq_takeFirst hpj)

/-- While the barber waits for customers, none waits for it. -/
theorem Inv.not_waitArrives (h : Inv n chairs s.shared s.place) (hstuck : Stuck n s) {b : Nat} (hb : b < n)
    (hpb : s.place b = .waitArrives) (hzero : s.shared.customerArrives = 0) (hi : i < n)
    (hp : (s.place i).isBarber = false) : (s.place i).ended = true := by
  by_contra hended
  have hpending : count n Place.pending s.place = 0 := count_eq_zero.2 fun j hj => by
    by_contra hpj
    rcases (hstuck j hj).eq_waitMutex (by simpa using hpj) with ⟨-, hmutex⟩ | hpj'
    · exact h.mutex_ne_zero hstuck hmutex
    · exact h.ne_takeFirst hstuck hj hpj'
  have hhaircut : count n Place.inHaircut s.place = 0 :=
    count_eq_zero.2 fun j hj => (hstuck j hj).moves.1
  have hposts : count n Place.postsSleeps s.place = 0 :=
    count_eq_zero.2 fun j hj => (hstuck j hj).moves.2
  obtain ⟨called, hline⟩ := h.line
  have hserving := hline.serving
  have hnone := serving_eq_zero h.barber hb (by rw [hpb]; rfl) (by rw [hpb]; rfl)
  have hlength := h.arrives
  rcases (hstuck i hi).customer hp (by simpa using hended) (h.mutex_ne_zero hstuck) with
    hwait | ⟨hwait, hsleeps⟩
  · have hcount := hline.queue.waiting i
    have hposted := hline.posted i
    rw [List.eq_nil_of_length_eq_zero (l := s.shared.head) (by omega), List.count_nil] at hcount
    rw [List.eq_nil_of_length_eq_zero (l := called) (by omega), List.count_nil] at hposted
    simp only [roles, hwait, if_true] at hcount
    omega
  · have hpos := count_pos.2 ⟨i, hi, hwait⟩
    have := h.sleeps
    omega

/-- The customer that the barber has called is not blocked. -/
theorem Inv.not_waitLeaves (h : Inv n chairs s.shared s.place) (hstuck : Stuck n s) {b : Nat} (hb : b < n)
    (hpb : s.place b = .waitLeaves) : s.shared.customerLeaves ≠ 0 := by
  intro hzero
  have hhaircut : count n Place.inHaircut s.place = 0 :=
    count_eq_zero.2 fun j hj => (hstuck j hj).moves.1
  obtain ⟨called, hline⟩ := h.line
  have hserving := hline.serving
  have hpos := count_pos.2 ⟨b, hb, show (s.place b).serving = true by rw [hpb]; rfl⟩
  obtain ⟨c, rest, rfl⟩ : ∃ c rest, called = c :: rest :=
    List.exists_cons_of_length_pos (by omega)
  have hcount := hline.queue.waiting c
  have hposted := hline.posted c
  rw [List.count_cons_self] at hposted
  have hwait : (s.place c).waiting = true := by
    by_contra hwait
    simp only [roles, hwait, if_false] at hcount
    omega
  have hc : c < n := by
    by_contra hc
    rw [h.idle c (by omega)] at hwait
    cases hwait
  have hholds : count n (Place.holds c) s.place = 0 := count_eq_zero.2 fun j hj => by
    by_contra hpj
    exact h.ne_postCustomer hstuck hj c ((hstuck j hj).eq_postCustomer (by simpa using hpj))
  have := (hstuck c hc).sem_eq_zero hwait
  omega

/-- **No deadlock.** -/
theorem Inv.progress (h : Inv n chairs s.shared s.place) (hi : i < n) (hp : (s.place i).isBarber = false)
    (hended : (s.place i).ended = false) : ∃ j < n, Enabled (prog chairs) s j := by
  by_contra hnone
  have hstuck : Stuck n s := fun j hj =>
    (enabled_or_blocked s j).resolve_left fun hen => hnone ⟨j, hj, hen⟩
  obtain ⟨b, hb, hpb⟩ := count_pos.1 (show 0 < count n Place.isBarber s.place by
    rw [h.barber]
    exact Nat.one_pos)
  rcases (hstuck b hb).barber hpb (h.mutex_ne_zero hstuck) (h.ne_takeFirst hstuck hb)
    (h.ne_postCustomer hstuck hb) with ⟨hpb', hzero⟩ | ⟨hpb', hzero⟩
  · rw [h.not_waitArrives hstuck hb hpb' hzero hi hp] at hended
    cases hended
  · exact h.not_waitLeaves hstuck hb hpb' hzero

/-- **The barbershop serves in order**, one customer at a time, and nobody is stuck. -/
theorem barbershop_in_order (n chairs : Nat) (s : State Shop Place)
    (h : Reaches (step (n + 1) (prog chairs)) init s) :
    s.shared.cut <+: s.shared.inserted ∧
      (∀ i < n + 1, ∀ j < n + 1, (s.place i).inHaircut = true → (s.place j).inHaircut = true → i = j) ∧
      (∀ i < n + 1, s.place i = .takeFirst → s.shared.head ≠ []) ∧
      (∀ i < n + 1, ∀ e, s.place i = .postCustomer e → (s.shared.customerSem e).isSome = true) ∧
      s.shared.customers ≤ chairs ∧
      ∀ i < n + 1, (s.place i).isBarber = false → (s.place i).ended = false →
        ∃ j < n + 1, Enabled (prog chairs) s j := by
  have hinv : Inv (n + 1) chairs s.shared s.place := inv_of_reaches (Nat.succ_pos n) h
  obtain ⟨called, hline⟩ := hinv.line
  refine ⟨?_, ?_, fun i hi hp => hinv.head_ne_nil hi hp, fun i hi e hp => hinv.sem_isSome hi hp,
    hinv.capacity, fun i hi hp hended => hinv.progress hi hp hended⟩
  · rw [hline.inserted, List.append_assoc]
    exact List.prefix_append ..
  · intro i hi j hj hpi hpj
    refine eq_of_count_le_one (p := Place.inHaircut) (f := s.place) ?_ hi hj hpi hpj
    have := count_mono (n := n + 1) (f := s.place) @isBarber_of_serving
    have := hline.serving
    have := hinv.barber
    omega

/-- Two customers have come, and the first has its haircut. -/
theorem twoCustomers_in_order :
    ∃ s, run (step (2 + 1) (prog 2)) init
        (List.replicate 7 1 ++ List.replicate 7 2 ++ [0, 0, 0, 0, 0, 1]) = some s ∧
      s.shared.inserted = [1, 2] ∧ s.shared.cut = [1] ∧ s.shared.cut <+: s.shared.inserted :=
  ⟨_, rfl, rfl, rfl,
    (barbershop_in_order 2 2 _ ⟨List.replicate 7 1 ++ List.replicate 7 2 ++ [0, 0, 0, 0, 0, 1], rfl⟩).1⟩

end OstepHw.FifoBarbershop
