import Mathlib.Data.List.Nodup
import Mathlib.Data.List.TakeWhile
import OstepHw.Semaphores.Hilzers

/-!
# The order of service in Hilzer's barbershop

A customer leaves one queue when an usher takes it and inserts itself in the other one when it runs again.
Both queues are served in order, but a customer that was taken later may be the first to run.

* `Orders` — what the two queues and the three histories say about each customer;
* `InTurn`, `inLine_step` — a customer that goes from one queue to the other keeps the order iff nobody who
  was taken before it is still on the way;
* `barbers_serve_in_turn` — in which runs and for which parameters the customers are served in order.
-/

set_option autoImplicit false

namespace OstepHw.Hilzers

open Machine OstepHw.Count Program Handover

namespace Place

/-- The entry for the sofa is inserted. -/
def enteredSofa : Place → Bool
  | leaveSofaq | postArrive | waitSofa | freeSofa | enterChairq | initChair | insertChair | leaveChairq | postOnSofa
  | waitChair | freeChair | postLeaveSofa | postPayment | waitReceipt | leaveWaitCustNum | customerNumDec
  | leavePostCustNum | left => true
  | _ => false

/-- The entry for a chair is inserted. -/
def enteredChair : Place → Bool
  | leaveChairq | postOnSofa | waitChair | freeChair | postLeaveSofa | postPayment | waitReceipt | leaveWaitCustNum
  | customerNumDec | leavePostCustNum | left => true
  | _ => false

/-- The entry for the sofa is inserted, and that for a chair is not. -/
def betweenQueues (p : Place) : Bool := p.enteredSofa && !p.enteredChair

end Place

/-- The barbers have taken the customers in the order in which the ushers have taken them. -/
def InOrder (s : State Shop Place) : Prop := s.shared.called <+: s.shared.seated

/-- The customers have inserted themselves in `waitChairq` in that order. -/
def InLine (s : State Shop Place) : Prop := s.shared.lined <+: s.shared.seated

/-- A customer does not insert itself in `waitChairq` while one that an usher has taken before it still has
to do so. -/
def InTurn (s : State Shop Place) (i : Nat) : Prop :=
  s.place i = .insertChair → ∀ e ∈ s.shared.seated.takeWhile (· ≠ i), (s.place e).betweenQueues = false

/-- Every customer comes to each queue once. -/
structure Orders (m : Shop) (place : Nat → Place) : Prop where
  seated : ∀ e, m.seated.count e + m.waitSofaq.count e = if (place e).enteredSofa then 1 else 0
  lined : ∀ e, m.lined.count e = if (place e).enteredChair then 1 else 0
  called : m.lined = m.called ++ m.waitChairq

variable {c : Config} {s s' : State Shop Place} {i j e : Nat}

/-! ## What one step does to the histories -/

section
variable {m m' : Shop} {p p' : Place}

theorem prog_seated (h : c.prog i m p = some (m', p')) (e : Nat) :
    m'.seated.count e + m'.waitSofaq.count e + (if e = i ∧ p.enteredSofa then 1 else 0) =
      m.seated.count e + m.waitSofaq.count e + if e = i ∧ p'.enteredSofa then 1 else 0 := by
  cases p
  case insertSofa =>
    cases h
    rw [List.count_append, List.count_singleton]
    grind [Place.enteredSofa]
  case takeSofaq =>
    simp only [Config.prog] at h
    split at h
    · cases h
    · next d rest hqueue =>
      cases h
      dsimp only
      rw [List.count_append, List.count_singleton, hqueue, List.count_cons]
      grind [Place.enteredSofa]
  all_goals
    simp only [Config.prog, semWait_eq_some, Option.some.injEq, Prod.mk.injEq] at h
    first
    | obtain ⟨rfl, rfl⟩ := h
      rfl
    | obtain ⟨-, rfl, rfl⟩ := h
      rfl
    | grind [Place.enteredSofa, semWait]

theorem prog_lined (h : c.prog i m p = some (m', p')) :
    m'.lined = (if p = .insertChair then m.lined ++ [i] else m.lined) ∧
      (p'.enteredChair = true ↔ p.enteredChair = true ∨ p = .insertChair) := by
  cases p <;> simp only [Config.prog, semWait_eq_some, Option.some.injEq, Prod.mk.injEq] at h <;>
    grind [Place.enteredChair, semWait]

theorem prog_called (h : c.prog i m p = some (m', p')) (hm : m.lined = m.called ++ m.waitChairq) :
    m'.lined = m'.called ++ m'.waitChairq := by
  cases p <;> simp only [Config.prog, semWait_eq_some, Option.some.injEq, Prod.mk.injEq] at h <;>
    grind [semWait]

theorem prog_seated_prefix (h : c.prog i m p = some (m', p')) :
    m.seated <+: m'.seated ∧ (p = .insertChair → m'.seated = m.seated) := by
  cases p <;> simp only [Config.prog, semWait_eq_some, Option.some.injEq, Prod.mk.injEq] at h <;>
    grind [semWait, List.prefix_append]

/-- Only a barber takes an entry from `waitChairq`. -/
theorem prog_called_eq (h : c.prog i m p = some (m', p')) (hp : p.isBarber = false) : m'.called = m.called := by
  cases p <;> simp only [Config.prog, semWait_eq_some, Option.some.injEq, Prod.mk.injEq] at h <;>
    grind [Place.isBarber, semWait]

end

theorem orders_init (c : Config) : Orders c.init.shared c.init.place where
  seated e := by
    rw [show (c.init.place e).enteredSofa = false from start_eq_false rfl rfl rfl e]
    rfl
  lined e := by
    rw [show (c.init.place e).enteredChair = false from start_eq_false rfl rfl rfl e]
    rfl
  called := rfl

theorem orders_step (h : Orders s.shared s.place) (hstep : step c.threads c.prog s i = some s') :
    Orders s'.shared s'.place where
  seated e := by
    have hseated := h.seated e
    have hprog := prog_seated (prog_of_step hstep) e
    rcases eq_or_ne e i with rfl | hei
    · simp only [true_and] at hprog
      omega
    · rw [place_step_of_ne hstep hei]
      simp only [hei, false_and, if_false] at hprog
      omega
  lined e := by
    have hlined := h.lined e
    obtain ⟨heq, hentered⟩ := prog_lined (prog_of_step hstep)
    rw [heq]
    rcases eq_or_ne e i with rfl | hei
    · split
      · next hp =>
        rw [hp] at hlined
        rw [List.count_append, hlined, if_pos (hentered.mpr (.inr hp)), List.count_singleton_self]
        rfl
      · next hp =>
        rw [hlined]
        simp only [hentered, hp, or_false]
    · rw [place_step_of_ne hstep hei, ← hlined]
      split
      · rw [List.count_append, List.count_eq_zero_of_not_mem (l := [i]) (by simpa using hei), Nat.add_zero]
      · rfl
  called := prog_called (prog_of_step hstep) h.called

/-! ## Runs in which nobody is overtaken -/

theorem Orders.enteredSofa_of_mem (h : Orders s.shared s.place) (he : e ∈ s.shared.seated) :
    (s.place e).enteredSofa = true := by
  have := h.seated e
  have := List.count_pos_iff.mpr he
  by_contra hp
  rw [if_neg hp] at *
  omega

theorem Orders.enteredChair_iff (h : Orders s.shared s.place) :
    (s.place e).enteredChair = true ↔ e ∈ s.shared.lined := by
  have := h.lined e
  rw [← List.count_pos_iff, this]
  split <;> simp_all

theorem Orders.seated_nodup (h : Orders s.shared s.place) : s.shared.seated.Nodup :=
  List.nodup_iff_count_le_one.mpr fun e => by
    have := h.seated e
    split at this <;> omega

theorem InLine.inOrder (h : InLine s) (horders : Orders s.shared s.place) : InOrder s := by
  unfold InOrder
  unfold InLine at h
  rw [horders.called] at h
  exact (List.prefix_append ..).trans h

/-- An usher has taken the customer that inserts itself in `waitChairq`. -/
theorem Inv.seated_of_insertChair (h : Inv c s.shared s.place) (horders : Orders s.shared s.place)
    (hp : s.place i = .insertChair) : i ∈ s.shared.seated := by
  have hseated := horders.seated i
  have hqueue : i ∉ s.shared.waitSofaq := fun hmem => by
    have hwaits : (s.place i).waitsSofa = true := h.sofa.line.waiting_of_mem hmem
    rw [hp] at hwaits
    cases hwaits
  rw [List.count_eq_zero_of_not_mem hqueue, hp] at hseated
  exact List.count_pos_iff.mp (by rw [Nat.add_zero] at hseated; rw [hseated]; decide)

/-- The next customer in line is the first on the way. -/
theorem inLine_iff_inTurn (h : Inv c s.shared s.place) (horders : Orders s.shared s.place) (hline : InLine s)
    (hp : s.place i = .insertChair) : s.shared.lined ++ [i] <+: s.shared.seated ↔ InTurn s i := by
  obtain ⟨rest, hrest⟩ := hline
  have hnotMem : i ∉ s.shared.lined := by
    rw [← horders.enteredChair_iff, hp]
    decide
  have hrestMem : i ∈ rest := by
    have hmem := h.seated_of_insertChair horders hp
    rw [← hrest, List.mem_append] at hmem
    exact hmem.resolve_left hnotMem
  have htake : s.shared.seated.takeWhile (· ≠ i) = s.shared.lined ++ rest.takeWhile (· ≠ i) := by
    rw [← hrest]
    exact List.takeWhile_append_of_pos fun e he => by
      simpa using fun hei : e = i => hnotMem (hei ▸ he)
  have hnodup := horders.seated_nodup
  rw [← hrest] at hnodup
  -- the customers on the way are those of `rest`
  have hbetween : ∀ e ∈ rest, (s.place e).betweenQueues = true := fun e he => by
    have hentered := horders.enteredSofa_of_mem (e := e) (by rw [← hrest]; exact List.mem_append_right _ he)
    have hchair : (s.place e).enteredChair = false := by
      by_contra hentered
      rw [Bool.not_eq_false, horders.enteredChair_iff] at hentered
      exact (List.disjoint_of_nodup_append hnodup) hentered he
    rw [Place.betweenQueues, hentered, hchair]
    rfl
  unfold InTurn
  rw [htake, ← hrest, List.prefix_append_right_inj]
  constructor
  · rintro ⟨after, rfl⟩ - e he
    rw [List.singleton_append, List.takeWhile_cons_of_neg (by simp), List.append_nil] at he
    rw [Place.betweenQueues, horders.enteredChair_iff.mpr he, Bool.not_true, Bool.and_false]
  · intro hturn
    cases rest with
    | nil => cases hrestMem
    | cons e after =>
      rcases eq_or_ne e i with rfl | hei
      · exact List.prefix_append [e] after
      · rw [List.takeWhile_cons_of_pos (by simpa using hei)] at hturn
        have hfalse := hturn hp e (by simp)
        rw [hbetween e (by simp)] at hfalse
        cases hfalse

/-- A step keeps the customers in line iff it is in turn. -/
theorem inLine_step (h : Inv c s.shared s.place) (horders : Orders s.shared s.place) (hline : InLine s)
    (hstep : step c.threads c.prog s i = some s') : InLine s' ↔ InTurn s i := by
  have hlined := (prog_lined (prog_of_step hstep)).1
  obtain ⟨hgrows, hseated⟩ := prog_seated_prefix (prog_of_step hstep)
  by_cases hp : s.place i = .insertChair
  · rw [← inLine_iff_inTurn h horders hline hp, InLine, hlined, if_pos hp, hseated hp]
  · rw [if_neg hp] at hlined
    have hline' : InLine s' := by
      unfold InLine
      rw [hlined]
      exact hline.trans hgrows
    exact iff_of_true hline' fun hp' => absurd hp' hp

theorem along_inLine_iff {l : List Nat} :
    Along (step c.threads c.prog) InLine c.init l ↔ StepsMeet (step c.threads c.prog) InTurn c.init l :=
  along_iff_stepsMeet (I := fun s => Inv c s.shared s.place ∧ Orders s.shared s.place)
    (fun _ _ _ hm hstep => ⟨inv_step hm.1 hstep, orders_step hm.2 hstep⟩)
    (fun _ _ _ hm hline hstep => inLine_step hm.1 hm.2 hline hstep)
    ⟨inv_init c, orders_init c⟩ List.nil_prefix

/-- **In line, in order.** -/
theorem along_inOrder {l : List Nat} (h : Along (step c.threads c.prog) InLine c.init l) :
    Along (step c.threads c.prog) InOrder c.init l :=
  h.mono (I := fun s => Orders s.shared s.place) (fun _ _ _ hm hstep => orders_step hm hstep)
    (fun _ hm hline => hline.inOrder hm) (orders_init c)

/-! ## Parameters with which nobody is overtaken -/

/-- An usher still holds the entry of a customer on the way, or the customer is on the sofa. -/
theorem Inv.held_or_onSofa (h : Inv c s.shared s.place) (horders : Orders s.shared s.place)
    (he : e ∈ s.shared.seated) (hbetween : (s.place e).betweenQueues = true) :
    0 < count c.threads (Place.holdsSofa e) s.place ∨ e ∈ s.shared.onSofa := by
  have hseated := horders.seated e
  rw [if_pos (horders.enteredSofa_of_mem he)] at hseated
  have hpos := List.count_pos_iff.mpr he
  have hline : s.shared.waitSofaq.count e + count c.threads (Place.holdsSofa e) s.place +
      (s.shared.sofaSem e).getD 0 = if (s.place e).waitsSofa then 1 else 0 := h.sofa.line.waiting e
  have hgiven : s.shared.onSofa.count e = (s.shared.sofaSem e).getD 0 +
      if (s.place e).sitsOnSofa then 1 else 0 := h.sofa.given.count e
  have hway : (s.place e).waitsSofa = true ∨ (s.place e).sitsOnSofa = true := by
    cases hp : s.place e <;> rw [hp] at hbetween <;> first | exact .inl rfl | exact .inr rfl | cases hbetween
  rw [← List.count_pos_iff]
  rcases hway with hwaits | hsits
  · rw [if_pos hwaits] at hline
    omega
  · rw [if_pos hsits] at hgiven
    omega

theorem Inv.eq_of_sofaSize_le_one (h : Inv c s.shared s.place) (horders : Orders s.shared s.place)
    (hsofa : c.sofaSize ≤ 1) (hi : s.place i = .insertChair) (he : e ∈ s.shared.seated)
    (hbetween : (s.place e).betweenQueues = true) : e = i := by
  have hmem : i ∈ s.shared.onSofa := h.sofa.given.mem (show (s.place i).sitsOnSofa = true by rw [hi]; rfl)
  have hpos := List.length_pos_of_mem hmem
  have hleave := h.custLeaveSofa
  have hushers := h.ushers
  rcases h.held_or_onSofa horders he hbetween with hheld | honSofa
  · have hdisjoint : count c.threads (Place.holdsSofa e) s.place + count c.threads Place.waitsLeaveSofa s.place ≤
        count c.threads Place.isUsher s.place :=
      count_disjoint (fun p hp hq => by cases p <;> first | cases hp | cases hq)
        fun p hp => by cases p <;> first | rfl | (rcases hp with hp | hp <;> cases hp)
    omega
  · by_contra hei
    have hle : count c.threads Place.waitsLeaveSofa s.place ≤ count c.threads Place.isUsher s.place :=
      count_mono fun p hp => by cases p <;> first | rfl | cases hp
    have hone : s.shared.onSofa.length ≤ 1 := by omega
    obtain ⟨d, hd⟩ := List.length_eq_one_iff.mp (Nat.le_antisymm hone hpos)
    rw [hd, List.mem_singleton] at hmem honSofa
    exact hei (honSofa.trans hmem.symm)

theorem counted_of_betweenQueues {p : Place} (hp : p.betweenQueues = true) :
    p.counted = true ∧ p.isBarber = false ∧ p.isUsher = false := by
  cases p <;> first | exact ⟨rfl, rfl, rfl⟩ | cases hp

theorem Inv.lt_of_betweenQueues (h : Inv c s.shared s.place) (hp : (s.place i).betweenQueues = true) :
    i < c.threads := by
  by_contra hi
  rw [h.idle i (Nat.le_of_not_lt hi)] at hp
  cases hp

theorem Inv.eq_of_maxCapacity_le_one (h : Inv c s.shared s.place) (hcap : c.maxCapacity ≤ 1)
    (hi : (s.place i).betweenQueues = true) (he : (s.place e).betweenQueues = true) : e = i := by
  refine eq_of_count_le_one (p := Place.counted) (f := s.place) ?_ (h.lt_of_betweenQueues he)
    (h.lt_of_betweenQueues hi) (counted_of_betweenQueues he).1 (counted_of_betweenQueues hi).1
  have := h.customerNum
  have := h.capacity
  omega

theorem Inv.customers {m : Shop} {place : Nat → Place} (h : Inv c m place) :
    count c.threads (fun p => !(p.isBarber || p.isUsher)) place ≤ c.totalCustomers := by
  have hsum := count_add_count_not c.threads (fun p : Place => p.isBarber || p.isUsher) place
  have hle : count c.threads Place.isBarber place + count c.threads Place.isUsher place ≤
      count c.threads (fun p => p.isBarber || p.isUsher) place :=
    count_disjoint (fun p hp hq => by cases p <;> first | (cases hp; done) | cases hq)
      fun p hp => by simpa using hp
  have := h.barbers
  have := h.ushers
  have hthreads : c.threads = c.chairs + c.sofaSize + c.totalCustomers := rfl
  omega

theorem Inv.eq_of_totalCustomers_le_one (h : Inv c s.shared s.place) (hcust : c.totalCustomers ≤ 1)
    (hi : (s.place i).betweenQueues = true) (he : (s.place e).betweenQueues = true) : e = i := by
  have hkind : ∀ {j}, (s.place j).betweenQueues = true →
      (!((s.place j).isBarber || (s.place j).isUsher)) = true := fun hj => by
    rw [(counted_of_betweenQueues hj).2.1, (counted_of_betweenQueues hj).2.2]
    rfl
  exact eq_of_count_le_one (p := fun p => !(p.isBarber || p.isUsher)) (f := s.place) (h.customers.trans hcust)
    (h.lt_of_betweenQueues he) (h.lt_of_betweenQueues hi) (hkind he) (hkind hi)

/-- Only one customer at a time can be on the way. -/
theorem Inv.inTurn (h : Inv c s.shared s.place) (horders : Orders s.shared s.place)
    (hc : c.sofaSize ≤ 1 ∨ c.maxCapacity ≤ 1 ∨ c.totalCustomers ≤ 1) : InTurn s i := by
  intro hi e he
  by_contra hbetween
  rw [Bool.not_eq_false] at hbetween
  have hi' : (s.place i).betweenQueues = true := by
    rw [hi]
    rfl
  have hei : e = i := by
    rcases hc with hsofa | hcap | hcust
    · exact h.eq_of_sofaSize_le_one horders hsofa hi (List.takeWhile_subset _ he) hbetween
    · exact h.eq_of_maxCapacity_le_one hcap hi' hbetween
    · exact h.eq_of_totalCustomers_le_one hcust hi' hbetween
  have := List.mem_takeWhile_imp he
  simp [hei] at this

/-- No barber, no call. -/
theorem called_eq_nil (hchairs : c.chairs = 0) (h : Reaches (step c.threads c.prog) c.init s) :
    s.shared.called = [] := by
  refine (invariant (I := fun s : State Shop Place => Inv c s.shared s.place ∧ s.shared.called = [])
    ⟨inv_init c, rfl⟩ ?_ h).2
  rintro m i m' ⟨hm, hcalled⟩ hstep
  have hbarbers := hm.barbers
  rw [hchairs] at hbarbers
  have hkind := count_eq_zero.1 hbarbers i (lt_of_step hstep)
  exact ⟨inv_step hm hstep, (prog_called_eq (prog_of_step hstep) hkind).trans hcalled⟩

/-! ## How a customer is overtaken -/

section
variable {m : Shop} {l : List Nat}

/-- A customer comes in and is told to wait for the sofa. -/
theorem solo_customerArrives (i : Nat) (hnum : m.custNumMutex = 1) (hsofaq : m.sofaqMutex = 1)
    (hfull : m.customerNum ≠ c.maxCapacity) :
    solo c.prog i 9 (m, .waitCustNum) =
      some ({ m with
        customerNum := m.customerNum + 1
        sofaSem := Function.update m.sofaSem i (some 0)
        waitSofaq := m.waitSofaq ++ [i]
        custArrive := m.custArrive + 1 }, .waitSofa) := by
  cases m
  dsimp only at *
  subst hnum hsofaq
  rw [solo_succ rfl, solo_succ (congrArg some (congrArg (Prod.mk _) (if_neg hfull)))]
  rfl

/-- An usher guides the first customer to the sofa. -/
theorem solo_usher_guides (u : Nat) (harrive : 0 < m.custArrive) (hsofaq : m.sofaqMutex = 1)
    (hqueue : m.waitSofaq = e :: l) (hsem : m.sofaSem e = some 0) :
    solo c.prog u 5 (m, .waitArrive) =
      some ({ m with
        custArrive := m.custArrive - 1
        waitSofaq := l
        seated := m.seated ++ [e]
        sofaSem := Function.update m.sofaSem e (some 1)
        onSofa := m.onSofa ++ [e] }, .waitLeaveSofa) := by
  cases m
  dsimp only at *
  subst hsofaq hqueue
  rw [solo_succ (if_pos harrive), solo_succ rfl, solo_succ rfl, solo_succ rfl]
  simp only [solo, Config.prog, hsem, Option.bind_some]

theorem prog_waitSofa (hsem : m.sofaSem i = some 1) :
    c.prog i m .waitSofa = some ({ m with sofaSem := Function.update m.sofaSem i (some 0) }, .freeSofa) := by
  simp only [Config.prog, hsem]
  rfl

/-- A customer sits on the sofa and lines up for a chair. -/
theorem solo_customer_lines_up (i : Nat) (hchairq : m.chairqMutex = 1) (hsem : m.sofaSem i = some 1) :
    solo c.prog i 7 (m, .waitSofa) =
      some ({ m with
        sofaSem := Function.update m.sofaSem i none
        chairSem := Function.update m.chairSem i (some 0)
        waitChairq := m.waitChairq ++ [i]
        lined := m.lined ++ [i]
        custOnSofa := m.custOnSofa + 1 }, .waitChair) := by
  rw [solo_succ (prog_waitSofa hsem), solo_succ rfl, Function.update_idem]
  cases m
  dsimp only at *
  subst hchairq
  rfl

/-- A barber takes the first customer. -/
theorem solo_barber_calls (b : Nat) (honSofa : 0 < m.custOnSofa) (hchairq : m.chairqMutex = 1)
    (hqueue : m.waitChairq = e :: l) :
    solo c.prog b 4 (m, .waitOnSofa) =
      some ({ m with
        custOnSofa := m.custOnSofa - 1
        waitChairq := l
        called := m.called ++ [e] }, .postChair e) := by
  cases m
  dsimp only at *
  subst hchairq hqueue
  rw [solo_succ (if_pos honSofa)]
  rfl

end

/-- Two ushers guide two customers to the sofa, and the second customer runs first. -/
theorem overtaking (hchairs : 0 < c.chairs) (hsofa : 2 ≤ c.sofaSize) (hcap : 2 ≤ c.maxCapacity)
    (hcust : 2 ≤ c.totalCustomers) :
    ∃ s, Reaches (step c.threads c.prog) c.init s ∧
      s.shared.seated = [c.chairs + c.sofaSize, c.chairs + c.sofaSize + 1] ∧
      s.shared.called = [c.chairs + c.sofaSize + 1] := by
  obtain ⟨a, ha⟩ : ∃ a, a = c.chairs + c.sofaSize := ⟨_, rfl⟩
  rw [← ha]
  have hthreads : c.threads = a + c.totalCustomers := by
    rw [ha]
    rfl
  have hcustomer : ∀ i, a ≤ i → c.init.place i = .waitCustNum := fun i hi => start_customer (ha ▸ hi)
  have husher : ∀ i, c.chairs ≤ i → i < a → c.init.place i = .waitArrive := fun i hi hia =>
    start_usher hi (ha ▸ hia)
  have hbarber : c.init.place 0 = .waitOnSofa := if_pos hchairs
  -- both customers come in
  obtain ⟨s₁, h₁, hm₁, -, hothers₁⟩ := reaches_of_solo (n := c.threads) (i := a) (by omega) rfl
    (hcustomer a le_rfl) (solo_customerArrives (c := c) a rfl rfl (by show (0 : Int) ≠ _; omega))
  obtain ⟨s₂, h₂, hm₂, hp₂, hothers₂⟩ := reaches_of_solo (n := c.threads) (i := a + 1) (by omega) hm₁
    ((hothers₁ _ (by omega)).trans (hcustomer _ (by omega)))
    (solo_customerArrives (c := c) (a + 1) rfl rfl (by show (0 : Int) + 1 ≠ _; omega))
  -- two ushers guide them to the sofa
  obtain ⟨s₃, h₃, hm₃, -, hothers₃⟩ := reaches_of_solo (n := c.threads) (i := c.chairs) (by omega) hm₂
    (((hothers₂ _ (by omega)).trans (hothers₁ _ (by omega))).trans (husher _ le_rfl (by omega)))
    (solo_usher_guides (c := c) c.chairs (e := a) (l := [a + 1]) Nat.two_pos rfl rfl (by simp))
  obtain ⟨s₄, h₄, hm₄, -, hothers₄⟩ := reaches_of_solo (n := c.threads) (i := c.chairs + 1) (by omega) hm₃
    ((((hothers₃ _ (by omega)).trans (hothers₂ _ (by omega))).trans (hothers₁ _ (by omega))).trans
      (husher _ (by omega) (by omega)))
    (solo_usher_guides (c := c) (c.chairs + 1) (e := a + 1) (l := []) Nat.one_pos rfl rfl (by simp))
  -- the second one lines up, and a barber takes it
  obtain ⟨s₅, h₅, hm₅, -, hothers₅⟩ := reaches_of_solo (n := c.threads) (i := a + 1) (by omega) hm₄
    (((hothers₄ _ (by omega)).trans (hothers₃ _ (by omega))).trans hp₂)
    (solo_customer_lines_up (c := c) (a + 1) rfl (by simp))
  obtain ⟨s₆, h₆, hm₆, -, -⟩ := reaches_of_solo (n := c.threads) (i := 0) (by omega) hm₅
    ((((((hothers₅ _ (by omega)).trans (hothers₄ _ (by omega))).trans (hothers₃ _ (by omega))).trans
      (hothers₂ _ (by omega))).trans (hothers₁ _ (by omega))).trans hbarber)
    (solo_barber_calls (c := c) 0 (e := a + 1) (l := []) Nat.one_pos rfl rfl)
  refine ⟨s₆, ((((h₁.trans h₂).trans h₃).trans h₄).trans h₅).trans h₆, ?_, ?_⟩
  · rw [hm₆]
    rfl
  · rw [hm₆]
    rfl

theorem Inv.inOrder (hc : c.sofaSize ≤ 1 ∨ c.maxCapacity ≤ 1 ∨ c.totalCustomers ≤ 1)
    (h : Reaches (step c.threads c.prog) c.init s) : InOrder s := by
  have hline := invariant
    (I := fun s : State Shop Place => Inv c s.shared s.place ∧ Orders s.shared s.place ∧ InLine s)
    ⟨inv_init c, orders_init c, List.nil_prefix⟩
    (fun m i m' ⟨hm, horders, hline⟩ hstep => ⟨inv_step hm hstep, orders_step horders hstep,
      (inLine_step hm horders hline hstep).mpr (hm.inTurn horders hc)⟩) h
  exact hline.2.2.inOrder hline.2.1

/-- **When the barbershop serves in order**: a run is in order when the customers go from one queue to the
other in turn.  All runs are in order iff there is no barber, or two customers are never on the way. -/
theorem barbers_serve_in_turn (c : Config) :
    (∀ l, StepsMeet (step c.threads c.prog) InTurn c.init l →
      Along (step c.threads c.prog) InOrder c.init l) ∧
    ((∀ s, Reaches (step c.threads c.prog) c.init s → InOrder s) ↔
      c.chairs = 0 ∨ c.sofaSize ≤ 1 ∨ c.maxCapacity ≤ 1 ∨ c.totalCustomers ≤ 1) := by
  constructor
  · exact fun l hl => along_inOrder (along_inLine_iff.2 hl)
  constructor
  · intro hall
    by_contra hc
    obtain ⟨s, hs, hseated, hcalled⟩ := overtaking (c := c) (by omega) (by omega) (by omega) (by omega)
    have hprefix := hall s hs
    rw [InOrder, hseated, hcalled, List.cons_prefix_cons] at hprefix
    omega
  · rintro (hchairs | hc) s hs
    · rw [InOrder, called_eq_nil hchairs hs]
      exact List.nil_prefix
    · exact Inv.inOrder hc hs

/-- With the defaults of `main`, customer 8 is called before customer 7, who was on the sofa first. -/
theorem defaults_not_in_order :
    ∃ s, run (step 16 (Config.prog ⟨8, 3, 4, 9⟩)) (Config.init ⟨8, 3, 4, 9⟩)
        (List.replicate 9 7 ++ List.replicate 9 8 ++ List.replicate 5 3 ++ List.replicate 5 4 ++
          List.replicate 7 8 ++ List.replicate 4 0 ++ List.replicate 7 7 ++ List.replicate 4 1) = some s ∧
      s.shared.seated = [7, 8] ∧ s.shared.called = [8, 7] ∧ ¬InOrder s :=
  ⟨_, rfl, rfl, rfl, show ¬([8, 7] <+: [7, 8]) by decide⟩

end OstepHw.Hilzers
