import OstepHw.Semaphores.HilzersOrder

/-!
# The entries of Hilzer's barbershop

A customer frees its entry as soon as it is woken, and the thread that has woken it prints the `index` of that
entry after the post.  The program here has these reads as steps of their own, and `sofaSem` and `chairSem` are
the store: `free_entry` removes what `init_entry` has put there.

* `Spot`, `Config.reads` — the program with the `printf` after each post;
* `Live` — what a thread is about to read is in the store;
* `FreesAfterRead`, `live_step` — a step keeps everything that is about to be read in the store iff no customer
  frees an entry that is still to be printed;
* `entries_read_while_live` — in which runs and for which parameters nothing is read after it was freed.
-/

set_option autoImplicit false

namespace OstepHw.Hilzers

open Machine OstepHw.Count Program Handover

/-- What an entry is for. -/
inductive Seat
  | sofa
  | chair
  deriving DecidableEq

/-- A place, or the `printf` of `e->index` after the post to entry `e`. -/
inductive Spot
  | go (p : Place)
  | print (d : Seat) (e : Nat)
  deriving DecidableEq

namespace Seat

def roles : Seat → Roles Place
  | .sofa => Hilzers.sofa
  | .chair => Hilzers.chair

/-- `Sem_post(e->cust_sem)` -/
def post : Seat → Nat → Place
  | .sofa, e => .postSofa e
  | .chair, e => .postChair e

/-- What follows the post and the `printf`. -/
def posted : Seat → Place
  | .sofa => .waitLeaveSofa
  | .chair => .waitPayment

/-- `free_entry(e, name)` -/
def free : Seat → Place
  | .sofa => .freeSofa
  | .chair => .freeChair

end Seat

/-- The entries that are in the store, with their `cust_sem`. -/
def Shop.store (m : Shop) : Seat → Nat → Option Nat
  | .sofa => m.sofaSem
  | .chair => m.chairSem

namespace Spot

/-- The place when nothing is printed. -/
def place : Spot → Place
  | go p => p
  | print d _ => d.posted

/-- After the step from `p` to `p'`. -/
def after (p p' : Place) : Spot :=
  match p with
  | .postSofa e => print .sofa e
  | .postChair e => print .chair e
  | _ => go p'

end Spot

/-- `barber`, `usher` and `customer`, where a post to an entry is followed by a read of its `index`. -/
def Config.reads (c : Config) : Prog Shop Spot
  | i, m, .go p => (c.prog i m p).map fun r => (r.1, .after p r.2)
  | _, m, .print d _ => some (m, .go d.posted)

def Config.opening (c : Config) : State Shop Spot := ⟨initSem, fun i => .go (c.start i)⟩

/-- The entry that the next step reads a field of, `cust_sem` at a post and `index` at a `printf`, is in the
store. -/
def Live (m : Shop) : Spot → Bool
  | .go (.postSofa e) => (m.store .sofa e).isSome
  | .go (.postChair e) => (m.store .chair e).isSome
  | .print d e => (m.store d e).isSome
  | _ => true

/-- Thread `i` reads no field of an entry that was freed. -/
def ReadsLive (s : State Shop Spot) (i : Nat) : Prop := Live s.shared (s.place i)

instance (s : State Shop Spot) (i : Nat) : Decidable (ReadsLive s i) :=
  inferInstanceAs (Decidable (Live s.shared (s.place i) = true))

/-- No thread is about to read a field of an entry that was freed. -/
def AllLive (c : Config) (s : State Shop Spot) : Prop := ∀ j < c.threads, ReadsLive s j

/-- A customer does not free an entry that the thread which has posted to it still has to print. -/
def FreesAfterRead (c : Config) (s : State Shop Spot) (i : Nat) : Prop :=
  ∀ d : Seat, s.place i = .go d.free → ∀ j < c.threads, s.place j ≠ .print d i

/-- The invariant of the program without the reads. -/
def Reading (c : Config) (s : State Shop Spot) : Prop := Inv c s.shared (Spot.place ∘ s.place)

variable {c : Config} {s s' : State Shop Spot} {i j e : Nat} {d : Seat}

/-! ## The reads do not matter to the shop -/

section
variable {m m' : Shop} {p p' : Place} {q q' : Spot}

theorem after_place (h : c.prog i m p = some (m', p')) : (Spot.after p p').place = p' := by
  cases p
  case postSofa =>
    simp only [Config.prog] at h
    split at h <;> cases h
    rfl
  case postChair =>
    simp only [Config.prog] at h
    split at h <;> cases h
    rfl
  all_goals rfl

theorem reads_go (h : c.prog i m p = some (m', p')) : c.reads i m (.go p) = some (m', .after p p') := by
  rw [Config.reads, h, Option.map_some]

theorem reads_place (h : c.reads i m q = some (m', q')) :
    c.prog i m q.place = some (m', q'.place) ∨ (m' = m ∧ q'.place = q.place) := by
  cases q with
  | go p =>
    obtain ⟨⟨sh, p'⟩, hprog, heq⟩ := Option.map_eq_some_iff.mp h
    cases heq
    left
    rw [after_place hprog]
    exact hprog
  | print d e =>
    cases h
    exact .inr ⟨rfl, rfl⟩

/-- An entry is printed after the post to it. -/
theorem reads_print (h : c.reads i m q = some (m', .print d e)) : q = .go (d.post e) := by
  cases q with
  | go p =>
    obtain ⟨⟨sh, p'⟩, -, heq⟩ := Option.map_eq_some_iff.mp h
    cases p <;> cases heq <;> rfl
  | print d e => cases h

theorem eq_free_of_place (h : q.place = d.free) : q = .go d.free := by
  cases q with
  | go p =>
    cases h
    rfl
  | print d' e => cases d <;> cases d' <;> cases h

theorem reads_free (h : c.reads i m (.go d.free) = some (m', q')) : m'.store d i = none := by
  cases d <;>
  · cases h
    exact Function.update_self ..

/-- Only `free_entry` removes an entry from the store. -/
theorem prog_hasSem (h : c.prog i m p = some (m', p')) (hp : d.roles.hasSem p = true) (hfree : p ≠ d.free) :
    d.roles.hasSem p' = true := by
  cases d <;> cases p <;> first | exact (hfree rfl).elim | cases hp
  all_goals
    simp only [Config.prog] at h
    first
    | cases h
      rfl
    | split at h
      · cases h
      · obtain ⟨-, hgo⟩ := semWait_eq_some.1 h
        cases hgo
        rfl

end

theorem reading_opening (c : Config) : Reading c c.opening := inv_init c

theorem reading_step (h : Reading c s) (hstep : step c.threads c.reads s i = some s') : Reading c s' := by
  rcases step_map (f := Spot.place) (fun _ _ _ _ _ => reads_place) hstep with hcoarse | hsame
  · exact inv_step (s := s.map Spot.place) h hcoarse
  · have hinv : Inv c (s'.map Spot.place).shared (s'.map Spot.place).place := by
      rw [hsame]
      exact h
    exact hinv

/-! ## What is in the store -/

theorem Reading.isSome_store (h : Reading c s) (d : Seat) (e : Nat) :
    (s.shared.store d e).isSome = d.roles.hasSem (s.place e).place := by
  cases d with
  | sofa => exact h.sofa.line.hasSem e
  | chair => exact h.chair.line.hasSem e

/-- The owner of an entry waits for the post to it. -/
theorem Reading.hasSem_of_post (h : Reading c s) (hj : j < c.threads) (hp : s.place j = .go (d.post e)) :
    d.roles.hasSem (s.place e).place = true := by
  have hwaits : d.roles.waiting (s.place e).place = true := by
    cases d with
    | sofa =>
      exact h.sofa.line.waiting_of_holds hj (c := e) (by simp [hp, sofa, Seat.post, Spot.place, Place.holdsSofa])
    | chair =>
      exact h.chair.line.waiting_of_holds hj (c := e) (by simp [hp, chair, Seat.post, Spot.place, Place.holdsChair])
  revert hwaits
  cases d <;> cases (s.place e).place <;> intro hwaits <;> first | rfl | cases hwaits

/-- A post never finds its entry freed. -/
theorem Reading.readsLive (h : Reading c s) (hj : j < c.threads)
    (hprint : ∀ d e, s.place j = .print d e → (s.shared.store d e).isSome) : ReadsLive s j := by
  unfold ReadsLive
  cases hp : s.place j with
  | print d e => exact hprint d e hp
  | go p =>
    cases p
    case postSofa e =>
      exact (h.isSome_store .sofa e).trans (h.hasSem_of_post (d := .sofa) hj hp)
    case postChair e =>
      exact (h.isSome_store .chair e).trans (h.hasSem_of_post (d := .chair) hj hp)
    all_goals rfl

theorem allLive_opening (c : Config) : AllLive c c.opening := fun j hj =>
  (reading_opening c).readsLive hj fun d e hp => by cases hp

/-- A step that frees no entry before it is printed keeps what is about to be read in the store. -/
theorem allLive_step (h : Reading c s) (hlive : AllLive c s) (hstep : step c.threads c.reads s i = some s')
    (hfree : FreesAfterRead c s i) : AllLive c s' := by
  intro j hj
  have h' := reading_step h hstep
  apply h'.readsLive hj
  intro d e hp
  rw [h'.isSome_store]
  rcases eq_or_ne j i with rfl | hji
  · -- the entry was just posted to
    have hprog := prog_of_step hstep
    rw [hp] at hprog
    have hpost := reads_print hprog
    have hsem := h.hasSem_of_post hj hpost
    have hej : e ≠ j := by
      rintro rfl
      rw [hpost] at hsem
      cases d <;> cases hsem
    rwa [place_step_of_ne hstep hej]
  · rw [place_step_of_ne hstep hji] at hp
    have hread := hlive j hj
    rw [ReadsLive, hp] at hread
    have hsem : d.roles.hasSem (s.place e).place = true := (h.isSome_store d e).symm.trans hread
    rcases eq_or_ne e i with rfl | hei
    · rcases reads_place (prog_of_step hstep) with hprog | ⟨-, hsame⟩
      · exact prog_hasSem hprog hsem fun hplace => hfree d (eq_free_of_place hplace) j hj hp
      · rwa [hsame]
    · rwa [place_step_of_ne hstep hei]

/-- After `free_entry` the entry is not in the store. -/
theorem freesAfterRead_of_allLive (hstep : step c.threads c.reads s i = some s')
    (hlive : AllLive c s') : FreesAfterRead c s i := by
  intro d hfree j hj hp
  have hprog := prog_of_step hstep
  rw [hfree] at hprog
  have hji : j ≠ i := by
    rintro rfl
    rw [hp] at hfree
    cases hfree
  have hread := hlive j hj
  rw [ReadsLive, place_step_of_ne hstep hji, hp] at hread
  rw [Live, reads_free hprog] at hread
  cases hread

theorem allLive_iff {l : List Nat} :
    Along (step c.threads c.reads) (AllLive c) c.opening l ↔
      StepsMeet (step c.threads c.reads) (FreesAfterRead c) c.opening l :=
  along_iff_stepsMeet (I := Reading c) (fun _ _ _ => reading_step)
    (fun _ _ _ hm hlive hstep =>
      ⟨freesAfterRead_of_allLive hstep, allLive_step hm hlive hstep⟩)
    (reading_opening c) (allLive_opening c)

/-! ## Parameters with which no entry is freed -/

theorem Reading.pos_of_free (h : Reading c s) (hi : i < c.threads) (hfree : s.place i = .go d.free) :
    0 < c.maxCapacity ∧ 0 < c.sofaSize ∧ 0 < c.totalCustomers := by
  obtain ⟨f, hf⟩ : ∃ f, f = Spot.place ∘ s.place := ⟨_, rfl⟩
  have hinv : Inv c s.shared f := hf ▸ h
  have hplace : f i = d.free := by
    rw [hf, Function.comp_apply, hfree]
    rfl
  refine ⟨?_, ?_, ?_⟩
  · have hcount : 0 < count c.threads Place.counted f := count_pos.2 ⟨i, hi, by
      rw [hplace]
      cases d <;> rfl⟩
    have := hinv.customerNum
    have := hinv.capacity
    omega
  · have hmem : i ∈ s.shared.onSofa := hinv.sofa.given.mem (show (f i).sitsOnSofa = true by
      rw [hplace]
      cases d <;> rfl)
    have hpos := List.length_pos_of_mem hmem
    have hle : count c.threads Place.waitsLeaveSofa f ≤ count c.threads Place.isUsher f :=
      count_mono fun p hp => by cases p <;> first | rfl | cases hp
    have := hinv.custLeaveSofa
    have := hinv.ushers
    omega
  · have hcustomer : 0 < count c.threads (fun p => !(p.isBarber || p.isUsher)) f := count_pos.2 ⟨i, hi, by
      rw [hplace]
      cases d <;> rfl⟩
    have := hinv.customers
    omega

/-! ## How an entry is freed too early -/

section
variable {m : Shop} {l : List Nat}

/-- A customer posts to no entry, and runs alone as it does without the reads. -/
theorem solo_reads_of_customer {m' : Shop} {p p' : Place} {k : Nat} (h : solo c.prog i k (m, p) = some (m', p'))
    (hbarber : p.isBarber = false) (husher : p.isUsher = false) :
    solo c.reads i k (m, .go p) = some (m', .go p') := by
  induction k generalizing m p with
  | zero =>
    cases h
    rfl
  | succ k ih =>
    obtain ⟨⟨m₁, p₁⟩, hprog, hrest⟩ := Option.bind_eq_some_iff.mp h
    obtain ⟨hbarber₁, husher₁⟩ := prog_kind hprog
    have hreads : c.reads i m (.go p) = some (m₁, .go p₁) := by
      rw [reads_go hprog]
      cases p <;> first | rfl | cases hbarber; done | cases husher
    rw [solo_succ hreads]
    exact ih hrest (hbarber₁.trans hbarber) (husher₁.trans husher)

/-- An usher posts to the first entry. -/
theorem solo_reads_guides (u : Nat) (harrive : 0 < m.custArrive) (hsofaq : m.sofaqMutex = 1)
    (hqueue : m.waitSofaq = e :: l) (hsem : m.sofaSem e = some 0) :
    solo c.reads u 5 (m, .go .waitArrive) =
      some ({ m with
        custArrive := m.custArrive - 1
        waitSofaq := l
        seated := m.seated ++ [e]
        sofaSem := Function.update m.sofaSem e (some 1)
        onSofa := m.onSofa ++ [e] }, .print .sofa e) := by
  have hwait : c.prog u m .waitArrive = some ({ m with custArrive := m.custArrive - 1 }, .waitSofaq) :=
    if_pos harrive
  rw [solo_succ (reads_go hwait)]
  cases m
  dsimp only at *
  subst hsofaq hqueue
  rw [solo_succ rfl, solo_succ rfl, solo_succ rfl]
  simp only [solo, Config.reads, Config.prog, hsem, Option.bind_some, Option.map_some, Spot.after]

/-- A customer is woken and frees its entry for the sofa. -/
theorem solo_reads_frees (i : Nat) (hsem : m.sofaSem i = some 1) :
    solo c.reads i 2 (m, .go .waitSofa) =
      some ({ m with sofaSem := Function.update m.sofaSem i none }, .go .enterChairq) := by
  rw [solo_succ (reads_go (prog_waitSofa hsem)), solo_succ rfl, Function.update_idem]
  rfl

end

/-- The customer that an usher has woken runs before the usher does. -/
theorem freed_before_read (hsofa : 0 < c.sofaSize) (hcap : 0 < c.maxCapacity) (hcust : 0 < c.totalCustomers) :
    ∃ s, Reaches (step c.threads c.reads) c.opening s ∧ s.place c.chairs = .print .sofa (c.chairs + c.sofaSize) ∧
      s.shared.sofaSem (c.chairs + c.sofaSize) = none := by
  obtain ⟨a, ha⟩ : ∃ a, a = c.chairs + c.sofaSize := ⟨_, rfl⟩
  rw [← ha]
  have hthreads : c.threads = a + c.totalCustomers := by
    rw [ha]
    rfl
  have hcustomer : c.opening.place a = .go .waitCustNum := congrArg Spot.go (start_customer (Nat.le_of_eq ha.symm))
  have husher : c.opening.place c.chairs = .go .waitArrive := congrArg Spot.go (start_usher le_rfl (by omega))
  obtain ⟨s₁, h₁, hm₁, hp₁, hothers₁⟩ := reaches_of_solo (n := c.threads) (i := a) (by omega) rfl hcustomer
    (solo_reads_of_customer (solo_customerArrives (c := c) a rfl rfl (by show (0 : Int) ≠ _; omega)) rfl rfl)
  obtain ⟨s₂, h₂, hm₂, hp₂, hothers₂⟩ := reaches_of_solo (n := c.threads) (i := c.chairs) (by omega) hm₁
    ((hothers₁ _ (by omega)).trans husher)
    (solo_reads_guides (c := c) c.chairs (e := a) (l := []) Nat.one_pos rfl rfl (by simp))
  obtain ⟨s₃, h₃, hm₃, -, hothers₃⟩ := reaches_of_solo (n := c.threads) (i := a) (by omega) hm₂
    ((hothers₂ _ (by omega)).trans hp₁) (solo_reads_frees (c := c) a (by simp))
  refine ⟨s₃, (h₁.trans h₂).trans h₃, (hothers₃ _ (by omega)).trans hp₂, ?_⟩
  rw [hm₃]
  exact Function.update_self ..

/-- **When entries are read while they are live**: in a run no freed entry is about to be read iff no customer
frees an entry that is still to be printed.  In all runs nothing is read after it was freed iff no customer ever
gets to the sofa. -/
theorem entries_read_while_live (c : Config) :
    (∀ l, Along (step c.threads c.reads) (AllLive c) c.opening l ↔
      StepsMeet (step c.threads c.reads) (FreesAfterRead c) c.opening l) ∧
    (∀ l, StepsMeet (step c.threads c.reads) (FreesAfterRead c) c.opening l →
      StepsMeet (step c.threads c.reads) ReadsLive c.opening l) ∧
    ((∀ l, StepsMeet (step c.threads c.reads) ReadsLive c.opening l) ↔
      c.sofaSize = 0 ∨ c.maxCapacity = 0 ∨ c.totalCustomers = 0) := by
  have hreads : ∀ l, StepsMeet (step c.threads c.reads) (FreesAfterRead c) c.opening l →
      StepsMeet (step c.threads c.reads) ReadsLive c.opening l := fun l hl =>
    (allLive_iff.2 hl).stepsMeet fun _ _ _ hlive hstep => hlive _ (lt_of_step hstep)
  refine ⟨fun l => allLive_iff, hreads, ?_, ?_⟩
  · intro hall
    by_contra hc
    obtain ⟨s, ⟨l, hl⟩, hprint, hfreed⟩ := freed_before_read (c := c) (by omega) (by omega) (by omega)
    have hi : c.chairs < c.threads := by
      unfold Config.threads
      omega
    have hlast := ((stepsMeet_concat hl).mp (hall (l ++ [c.chairs]))).2 _
      (step_eq_some.2 ⟨hi, s.shared, .go .waitLeaveSofa, by rw [hprint]; rfl, rfl⟩)
    rw [ReadsLive, hprint, Live, Shop.store, hfreed] at hlast
    cases hlast
  · intro hc l
    refine hreads l (stepsMeet_of_invariant (I := Reading c) (fun _ _ _ => reading_step) ?_ (reading_opening c))
    intro m i m' hm hstep d hfree
    have := hm.pos_of_free (lt_of_step hstep) hfree
    omega

/-- With the defaults of `main`, usher 0 (thread 3) prints the entry of customer 0 (thread 7) after that has freed
it. -/
theorem defaults_read_freed :
    ¬StepsMeet (step 16 (Config.reads ⟨8, 3, 4, 9⟩)) ReadsLive (Config.opening ⟨8, 3, 4, 9⟩)
      (List.replicate 9 7 ++ List.replicate 5 3 ++ List.replicate 2 7 ++ [3]) := by
  decide

end OstepHw.Hilzers
