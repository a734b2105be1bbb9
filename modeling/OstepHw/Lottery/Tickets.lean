import OstepHw.Lib.Machine
import OstepHw.Lottery.Scheduler

/-!
# Tickets over the life of the system

Model of what changes the process table of the lottery kernel: `fork`, `exit`, `wait`, `settickets` behind
`sys_settickets`, and the moves of the scheduler.  Each call holds `ptable.lock` where it changes the table
and is one step here; the size of the table is a parameter.

* `Safe` — the arithmetic of `scheduler` and `getwinner` on a table;
* `safeAround_iff` — the table is safe however the processes wake up and give up the processor, iff the
  tickets of all processes that live fit in an `int`;
* `tickets_safe_iff` — in which runs the arithmetic is always safe.
-/

set_option autoImplicit false

namespace OstepHw.Lottery

open Machine

structure State where
  table : List Proc
  nextpid : Int

/-- After `userinit`; `n` is `NPROC`. -/
def boot (n : Nat) : State where
  table := ⟨.RUNNABLE, 1, none, none, false, 1⟩ :: List.replicate (n - 1) ⟨.UNUSED, 0, none, none, false, 0⟩
  nextpid := 2

/-! ## System calls -/

/-- The slot that `allocproc` takes. -/
def State.free (s : State) : Option Nat := s.table.findIdx? fun p => p.state = .UNUSED

/-- `fork` by `curproc`; `memory` says whether both `kalloc` and `copyuvm` succeed. -/
def fork (s : State) (i : Nat) (curproc : Proc) (memory : Bool) : State :=
  match s.free with
  | none => s
  | some j =>
    { table := s.table.modify j fun np =>
        if memory then
          { np with state := .RUNNABLE, pid := s.nextpid, parent := some i, tickets := curproc.tickets }
        else { np with pid := s.nextpid, tickets := 1 }
      nextpid := wrap (s.nextpid + 1) }

/-- The slot that `settickets` changes: the first with the pid of the caller. -/
def State.slotOf (s : State) (curproc : Proc) : Option Nat :=
  s.table.findIdx? fun p => p.pid = curproc.pid

def sysSettickets (s : State) (curproc : Proc) (n : Int) : State :=
  if n < 1 then s
  else
    match s.slotOf curproc with
    | none => s
    | some j => { s with table := s.table.modify j fun p => { p with tickets := n } }

/-- `wakeup1` of the processes that sleep in `wait` of slot `chan`. -/
def wakeup1 (chan : Nat) (table : List Proc) : List Proc :=
  table.map fun p => if p.state = .SLEEPING ∧ p.chan = some chan then { p with state := .RUNNABLE } else p

/-- `exit` of slot `i`; `initproc` is slot 0. -/
def exit (s : State) (i : Nat) (curproc : Proc) : State :=
  let table := curproc.parent.elim s.table fun parent => wakeup1 parent s.table
  let orphan := table.any fun p => p.parent = some i ∧ p.state = .ZOMBIE
  let table := table.map fun p => if p.parent = some i then { p with parent := some 0 } else p
  let table := if orphan then wakeup1 0 table else table
  { s with table := table.modify i fun p => { p with state := .ZOMBIE } }

/-- One round of the loop of `wait`. -/
def wait (s : State) (i : Nat) (curproc : Proc) : State :=
  match s.table.findIdx? fun p => p.parent = some i ∧ p.state = .ZOMBIE with
  | some j =>
    { s with table := s.table.modify j fun p =>
        { p with state := .UNUSED, pid := 0, parent := none, killed := false } }
  | none =>
    if (s.table.all fun p => p.parent ≠ some i) || curproc.killed then s
    else { s with table := s.table.modify i fun p => { p with state := .SLEEPING, chan := some i } }

/-! ## Steps -/

inductive Action
  | fork (i : Nat) (memory : Bool)
  | sysSettickets (i : Nat) (n : Int)
  | exit (i : Nat)
  | wait (i : Nat)
  | dispatch (i : Nat)
  | yield (i : Nat)
  /-- On a channel other than that of `wait`. -/
  | sleep (i : Nat)
  | wakeup (i : Nat)
  | kill (i : Nat)
  deriving DecidableEq

/-- A step of a process that is in the given state. -/
def State.withProc (s : State) (i : Nat) (state : Procstate) (f : Proc → State) : Option State :=
  match s.table[i]? with
  | some p => if p.state = state then some (f p) else none
  | none => none

def State.setState (s : State) (i : Nat) (state : Procstate) : State :=
  { s with table := s.table.modify i fun p => { p with state := state } }

def step (s : State) : Action → Option State
  | .fork i memory => s.withProc i .RUNNING fun p => fork s i p memory
  | .sysSettickets i n =>
    if n ≤ INT_MAX then s.withProc i .RUNNING fun p => sysSettickets s p n else none
  | .exit i => if i = 0 then none else s.withProc i .RUNNING fun p => exit s i p
  | .wait i => s.withProc i .RUNNING fun p => wait s i p
  | .dispatch i => s.withProc i .RUNNABLE fun _ => s.setState i .RUNNING
  | .yield i => s.withProc i .RUNNING fun _ => s.setState i .RUNNABLE
  | .sleep i => s.withProc i .RUNNING fun _ =>
      { s with table := s.table.modify i fun p => { p with state := .SLEEPING, chan := none } }
  | .wakeup i => s.withProc i .SLEEPING fun _ => s.setState i .RUNNABLE
  | .kill i => s.table[i]?.map fun _ =>
      { s with table := s.table.modify i fun p =>
          { p with state := if p.state = .SLEEPING then .RUNNABLE else p.state, killed := true } }

/-- Only the state of a process changes. -/
def Action.sched : Action → Bool
  | .dispatch _ | .yield _ | .sleep _ | .wakeup _ | .kill _ => true
  | _ => false

/-! ## What is asked -/

/-- The arithmetic of a pass of the scheduler on this table. -/
structure Safe (table : List Proc) : Prop where
  no_overflow : ∀ k, -2 ^ 31 ≤ shares (table.take k) ∧ shares (table.take k) ≤ INT_MAX
  in_range : 0 ≤ totaltickets table ∧ totaltickets table ≤ INT_MAX
  num_bins_ne : numBins (totaltickets table) ≠ 0
  bin_size_ne : binSize (totaltickets table) ≠ 0
  no_fault : ∀ fuel val e, getwinner fuel (totaltickets table) val ≠ some (.error e)

/-- Safe whatever the scheduler does next. -/
def SafeAround (s : State) : Prop :=
  ∀ l s', (∀ a ∈ l, Action.sched a) → run step s l = some s' → Safe s'.table

def Proc.live (p : Proc) : Bool := p.state ≠ .UNUSED ∧ p.state ≠ .ZOMBIE

/-- The tickets that count when the process can run. -/
def Proc.stake (p : Proc) : Int := if p.live then p.tickets else 0

/-- The tickets of all processes that live. -/
def State.tickets (s : State) : Int := (s.table.map Proc.stake).sum

/-- The call leaves no more tickets than an `int` can hold. -/
def BoundKept (s : State) : Action → Prop
  | .fork i true => s.free = none ∨ ∀ p, s.table[i]? = some p → s.tickets + p.tickets ≤ INT_MAX
  | .sysSettickets i n => n < 1 ∨ ∀ curproc j p, s.table[i]? = some curproc → s.slotOf curproc = some j →
      s.table[j]? = some p → p.live → s.tickets - p.tickets + n ≤ INT_MAX
  | _ => True

/-! ## One slot changes -/

section Modify

variable {table : List Proc} {j : Nat} {p : Proc} {f : Proc → Proc}

theorem sum_modify (g : Proc → Int) (hp : table[j]? = some p) :
    ((table.modify j f).map g).sum = (table.map g).sum - g p + g (f p) := by
  induction table generalizing j with
  | nil => cases hp
  | cons q table ih =>
    cases j with
    | zero =>
      cases hp
      simp
      omega
    | succ j =>
      have := ih hp
      simp only [List.modify_succ_cons, List.map_cons, List.sum_cons]
      omega

theorem mem_modify {q : Proc} (hp : table[j]? = some p) (hq : q ∈ table.modify j f) :
    q ∈ table ∨ q = f p := by
  obtain ⟨k, hk⟩ := List.mem_iff_getElem?.mp hq
  rw [List.getElem?_modify] at hk
  by_cases hjk : j = k
  · subst hjk
    rw [hp] at hk
    simp only [if_true, Option.map_eq_map, Option.map_some, Option.some.injEq] at hk
    exact .inr hk.symm
  · simp only [hjk, if_false, Option.map_eq_map, Option.map_id'] at hk
    exact .inl (List.mem_of_getElem? hk)

end Modify

/-! ## The invariant -/

/-- A process that lives has a ticket, and none is left half made. -/
def Proc.Ok (p : Proc) : Prop := p.state ≠ .EMBRYO ∧ (p.live → 1 ≤ p.tickets)

def Inv (s : State) : Prop := ∀ p ∈ s.table, p.Ok

theorem inv_boot (n : Nat) : Inv (boot n) := by
  intro p hp
  rcases List.mem_cons.mp hp with rfl | hp
  · exact ⟨by decide, by decide⟩
  · rw [List.eq_of_mem_replicate hp]
    exact ⟨by decide, by decide⟩

variable {s s' : State}

/-- `f` changes nothing that matters for the tickets. -/
def Keeps (f : Proc → Proc) (p : Proc) : Prop := (f p).stake = p.stake ∧ (p.Ok → (f p).Ok)

theorem tickets_map {f : Proc → Proc} (hf : ∀ p, Keeps f p) (table : List Proc) :
    ((table.map f).map Proc.stake).sum = (table.map Proc.stake).sum := by
  rw [List.map_map]
  congr 1
  exact List.map_congr_left fun p _ => (hf p).1

theorem inv_modify (h : Inv s) {j : Nat} {p : Proc} {f : Proc → Proc} (hp : s.table[j]? = some p)
    (hok : (f p).Ok) : ∀ q ∈ s.table.modify j f, q.Ok := by
  intro q hq
  rcases mem_modify hp hq with hq | rfl
  · exact h q hq
  · exact hok

/-- A step that changes one slot and keeps the tickets. -/
theorem keeps_modify (h : Inv s) {j : Nat} {p : Proc} {f : Proc → Proc} (hp : s.table[j]? = some p)
    (hf : Keeps f p) :
    Inv { s with table := s.table.modify j f } ∧
      State.tickets { s with table := s.table.modify j f } = s.tickets := by
  refine ⟨inv_modify h hp (hf.2 (h p (List.mem_of_getElem? hp))), ?_⟩
  simp only [State.tickets]
  rw [sum_modify _ hp, hf.1]
  omega

theorem withProc_eq_some {i : Nat} {state : Procstate} {f : Proc → State} :
    s.withProc i state f = some s' ↔ ∃ p, s.table[i]? = some p ∧ p.state = state ∧ f p = s' := by
  unfold State.withProc
  cases s.table[i]? with
  | none => simp
  | some p => simp

/-- From one state in which a process lives to another. -/
theorem keeps_state {p : Proc} {f : Proc → Proc} (hlive : p.live = true) (hlive' : (f p).live = true)
    (hne : (f p).state ≠ .EMBRYO) (ht : (f p).tickets = p.tickets) : Keeps f p := by
  refine ⟨?_, fun hok => ⟨hne, fun _ => ?_⟩⟩
  · rw [Proc.stake, Proc.stake, if_pos hlive, if_pos hlive', ht]
  · rw [ht]
    exact hok.2 hlive

/-- **Moves of the scheduler** keep the tickets. -/
theorem sched_step (h : Inv s) {a : Action} (ha : a.sched) (hstep : step s a = some s') :
    Inv s' ∧ s'.tickets = s.tickets := by
  cases a with
  | dispatch i =>
    obtain ⟨p, hp, hst, rfl⟩ := withProc_eq_some.1 hstep
    exact keeps_modify h hp (keeps_state (by simp [Proc.live, hst]) rfl nofun rfl)
  | yield i =>
    obtain ⟨p, hp, hst, rfl⟩ := withProc_eq_some.1 hstep
    exact keeps_modify h hp (keeps_state (by simp [Proc.live, hst]) rfl nofun rfl)
  | sleep i =>
    obtain ⟨p, hp, hst, rfl⟩ := withProc_eq_some.1 hstep
    exact keeps_modify h hp (keeps_state (by simp [Proc.live, hst]) rfl nofun rfl)
  | wakeup i =>
    obtain ⟨p, hp, hst, rfl⟩ := withProc_eq_some.1 hstep
    exact keeps_modify h hp (keeps_state (by simp [Proc.live, hst]) rfl nofun rfl)
  | kill i =>
    obtain ⟨p, hp, rfl⟩ := Option.map_eq_some_iff.mp hstep
    apply keeps_modify h hp
    by_cases hst : p.state = .SLEEPING
    · refine keeps_state ?_ ?_ ?_ rfl <;> simp [Proc.live, hst]
    · simp [Keeps, hst, Proc.stake, Proc.live, Proc.Ok]
  | fork i memory => cases ha
  | sysSettickets i n => cases ha
  | exit i => cases ha
  | wait i => cases ha

/-! ## System calls -/

theorem getElem?_of_findIdx? {table : List Proc} {f : Proc → Bool} {j : Nat}
    (h : table.findIdx? f = some j) : ∃ p, table[j]? = some p ∧ f p = true := by
  obtain ⟨hlt, hp, -⟩ := List.findIdx?_eq_some_iff_getElem.mp h
  exact ⟨_, List.getElem?_eq_getElem hlt, hp⟩

/-- `fork` adds the tickets of the caller, if there is a slot and memory. -/
theorem fork_effect (h : Inv s) {i : Nat} {p : Proc} (hp : s.table[i]? = some p)
    (hrun : p.state = .RUNNING) (memory : Bool) :
    Inv (fork s i p memory) ∧ (fork s i p memory).tickets =
      s.tickets + if s.free ≠ none ∧ memory then p.tickets else 0 := by
  have hone : 1 ≤ p.tickets := (h p (List.mem_of_getElem? hp)).2 (by simp [Proc.live, hrun])
  unfold fork
  cases hfree : s.free with
  | none => simp [h]
  | some j =>
    obtain ⟨np, hnp, hst⟩ := getElem?_of_findIdx? hfree
    have hst : np.state = .UNUSED := by simpa using hst
    have hstake : np.stake = 0 := by simp [Proc.stake, Proc.live, hst]
    constructor
    · apply inv_modify h hnp
      cases memory
      · simp [Proc.Ok, Proc.live, hst]
      · simp [Proc.Ok, hone]
    · simp only [State.tickets]
      rw [sum_modify _ hnp, hstake]
      cases memory
      · simp [Proc.stake, Proc.live, hst]
      · simp [Proc.stake, Proc.live]

/-- `settickets` changes the tickets of one slot. -/
theorem settickets_effect (h : Inv s) (p : Proc) {n : Int} (hn : ¬ n < 1) :
    (Inv (sysSettickets s p n) ∧ (sysSettickets s p n).tickets = s.tickets ∧
      ∀ j q, s.slotOf p = some j → s.table[j]? = some q → q.live = false) ∨
    ∃ j q, s.slotOf p = some j ∧ s.table[j]? = some q ∧ q.live = true ∧ Inv (sysSettickets s p n) ∧
      (sysSettickets s p n).tickets = s.tickets - q.tickets + n := by
  unfold sysSettickets
  rw [if_neg hn]
  cases hslot : s.slotOf p with
  | none => exact .inl ⟨h, rfl, nofun⟩
  | some j =>
    obtain ⟨q, hq, -⟩ := getElem?_of_findIdx? hslot
    have hqok := h q (List.mem_of_getElem? hq)
    have hinv : Inv { s with table := s.table.modify j fun p => { p with tickets := n } } :=
      inv_modify h hq ⟨hqok.1, fun _ => by simp only; omega⟩
    have htickets : State.tickets { s with table := s.table.modify j fun p => { p with tickets := n } } =
        s.tickets - q.stake + if q.live then n else 0 := by
      simp only [State.tickets]
      rw [sum_modify _ hq]
      rfl
    cases hlive : q.live with
    | false =>
      left
      refine ⟨hinv, ?_, ?_⟩
      · simp only [htickets, Proc.stake, hlive, Bool.false_eq_true, if_false]
        omega
      · intro j' q' hj' hq'
        cases hj'
        rw [hq] at hq'
        cases hq'
        exact hlive
    | true =>
      right
      refine ⟨j, q, rfl, hq, hlive, hinv, ?_⟩
      simp only [htickets, Proc.stake, hlive, if_true]

theorem keeps_wakeup (chan : Nat) (p : Proc) : Keeps
    (fun p => if p.state = .SLEEPING ∧ p.chan = some chan then { p with state := .RUNNABLE } else p) p := by
  by_cases hp : p.state = .SLEEPING ∧ p.chan = some chan
  · simp only [Keeps, hp, and_self, if_true]
    simp [Proc.stake, Proc.live, Proc.Ok, hp.1]
  · simp [Keeps, hp]

theorem keeps_comp {f g : Proc → Proc} (hf : ∀ p, Keeps f p) (hg : ∀ p, Keeps g p) (p : Proc) :
    Keeps (g ∘ f) p :=
  ⟨(hg (f p)).1.trans (hf p).1, fun hok => (hg (f p)).2 ((hf p).2 hok)⟩

/-- `exit` wakes and reparents processes before its own slot becomes a zombie. -/
theorem exit_table (s : State) (i : Nat) (p : Proc) : ∃ f : Proc → Proc, (∀ q, Keeps f q) ∧
    (exit s i p).table = (s.table.map f).modify i fun q => { q with state := .ZOMBIE } := by
  have hid : ∀ q, Keeps id q := fun q => ⟨rfl, id⟩
  have hreparent : ∀ q, Keeps (fun q => if q.parent = some i then { q with parent := some 0 } else q) q := by
    intro q
    by_cases hq : q.parent = some i
    · simp only [Keeps, hq, if_true]
      exact ⟨rfl, id⟩
    · simp [Keeps, hq]
  obtain ⟨f, hf, htable⟩ : ∃ f : Proc → Proc, (∀ q, Keeps f q) ∧
      p.parent.elim s.table (fun parent => wakeup1 parent s.table) = s.table.map f := by
    cases p.parent with
    | none => exact ⟨id, hid, (List.map_id _).symm⟩
    | some parent => exact ⟨_, keeps_wakeup parent, rfl⟩
  unfold exit
  rw [htable]
  simp only
  split
  · refine ⟨_, keeps_comp (keeps_comp hf hreparent) (keeps_wakeup 0), ?_⟩
    simp only [wakeup1, List.map_map]
  · refine ⟨_, keeps_comp hf hreparent, ?_⟩
    simp only [List.map_map]

/-- The tickets of a process that exits are gone. -/
theorem exit_effect (h : Inv s) {i : Nat} {p : Proc} (hp : s.table[i]? = some p)
    (hrun : p.state = .RUNNING) : Inv (exit s i p) ∧ (exit s i p).tickets ≤ s.tickets := by
  obtain ⟨f, hf, htable⟩ := exit_table s i p
  have hfp : (s.table.map f)[i]? = some (f p) := by rw [List.getElem?_map, hp, Option.map_some]
  constructor
  · intro q hq
    rw [htable] at hq
    rcases mem_modify hfp hq with hq | rfl
    · obtain ⟨q', hq', rfl⟩ := List.mem_map.mp hq
      exact (hf q').2 (h q' hq')
    · exact ⟨nofun, fun hlive => by cases hlive⟩
  · have hone : 1 ≤ p.tickets := (h p (List.mem_of_getElem? hp)).2 (by simp [Proc.live, hrun])
    have hstake : p.stake = p.tickets := if_pos (by simp [Proc.live, hrun])
    have hzombie : Proc.stake { f p with state := .ZOMBIE } = 0 := rfl
    simp only [State.tickets, htable]
    rw [sum_modify _ hfp, tickets_map hf, (hf p).1, hstake, hzombie]
    omega

/-- `wait` keeps the tickets: a zombie has none that count. -/
theorem wait_effect (h : Inv s) {i : Nat} {p : Proc} (hp : s.table[i]? = some p)
    (hrun : p.state = .RUNNING) : Inv (wait s i p) ∧ (wait s i p).tickets = s.tickets := by
  unfold wait
  split
  · rename_i j hj
    obtain ⟨q, hq, hz⟩ := getElem?_of_findIdx? hj
    have hz : q.state = .ZOMBIE := by simp at hz; exact hz.2
    apply keeps_modify h hq
    simp [Keeps, Proc.stake, Proc.live, Proc.Ok, hz]
  · split
    · exact ⟨h, rfl⟩
    · exact keeps_modify h hp (keeps_state (by simp [Proc.live, hrun]) rfl nofun rfl)

/-- **Every step keeps the invariant.** -/
theorem inv_step (h : Inv s) {a : Action} (hstep : step s a = some s') : Inv s' := by
  cases a with
  | fork i memory =>
    obtain ⟨p, hp, hrun, rfl⟩ := withProc_eq_some.1 hstep
    exact (fork_effect h hp hrun memory).1
  | sysSettickets i n =>
    rw [step] at hstep
    split at hstep
    · obtain ⟨p, hp, hrun, rfl⟩ := withProc_eq_some.1 hstep
      by_cases hn : n < 1
      · rw [sysSettickets, if_pos hn]
        exact h
      · rcases settickets_effect h p hn with hcase | ⟨j, q, -, -, -, hinv, -⟩
        · exact hcase.1
        · exact hinv
    · cases hstep
  | exit i =>
    rw [step] at hstep
    split at hstep
    · cases hstep
    · obtain ⟨p, hp, hrun, rfl⟩ := withProc_eq_some.1 hstep
      exact (exit_effect h hp hrun).1
  | wait i =>
    obtain ⟨p, hp, hrun, rfl⟩ := withProc_eq_some.1 hstep
    exact (wait_effect h hp hrun).1
  | dispatch i => exact (sched_step h rfl hstep).1
  | yield i => exact (sched_step h rfl hstep).1
  | sleep i => exact (sched_step h rfl hstep).1
  | wakeup i => exact (sched_step h rfl hstep).1
  | kill i => exact (sched_step h rfl hstep).1

/-- **A step keeps the bound** iff it meets the condition. -/
theorem bound_step (h : Inv s) (hmax : s.tickets ≤ INT_MAX) {a : Action} (hstep : step s a = some s') :
    s'.tickets ≤ INT_MAX ↔ BoundKept s a := by
  cases a with
  | fork i memory =>
    obtain ⟨p, hp, hrun, rfl⟩ := withProc_eq_some.1 hstep
    rw [(fork_effect h hp hrun memory).2]
    cases memory with
    | false => simp [BoundKept, hmax]
    | true =>
      by_cases hfree : s.free = none
      · simp [BoundKept, hfree, hmax]
      · simp [BoundKept, hfree, hp]
  | sysSettickets i n =>
    rw [step] at hstep
    split at hstep
    · obtain ⟨p, hp, hrun, rfl⟩ := withProc_eq_some.1 hstep
      by_cases hn : n < 1
      · rw [sysSettickets, if_pos hn]
        exact iff_of_true hmax (.inl hn)
      · rcases settickets_effect h p hn with ⟨-, htickets, hdead⟩ | ⟨j, q, hj, hq, hlive, -, htickets⟩
        · rw [htickets]
          refine iff_of_true hmax (.inr ?_)
          intro curproc j q hcur hj hq hlive
          cases hp.symm.trans hcur
          rw [hdead j q hj hq] at hlive
          cases hlive
        · rw [htickets]
          constructor
          · intro hle
            right
            intro curproc j' q' hcur hj' hq' _
            cases hp.symm.trans hcur
            cases hj.symm.trans hj'
            cases hq.symm.trans hq'
            exact hle
          · intro hbound
            exact hbound.resolve_left hn p j q hp hj hq hlive
    · cases hstep
  | exit i =>
    rw [step] at hstep
    split at hstep
    · cases hstep
    · obtain ⟨p, hp, hrun, rfl⟩ := withProc_eq_some.1 hstep
      exact iff_of_true (Int.le_trans (exit_effect h hp hrun).2 hmax) trivial
  | wait i =>
    obtain ⟨p, hp, hrun, rfl⟩ := withProc_eq_some.1 hstep
    exact iff_of_true ((wait_effect h hp hrun).2 ▸ hmax) trivial
  | dispatch i => exact iff_of_true ((sched_step h rfl hstep).2 ▸ hmax) trivial
  | yield i => exact iff_of_true ((sched_step h rfl hstep).2 ▸ hmax) trivial
  | sleep i => exact iff_of_true ((sched_step h rfl hstep).2 ▸ hmax) trivial
  | wakeup i => exact iff_of_true ((sched_step h rfl hstep).2 ▸ hmax) trivial
  | kill i => exact iff_of_true ((sched_step h rfl hstep).2 ▸ hmax) trivial

/-! ## A table that is safe -/

theorem totaltickets_eq {table : List Proc} (h : HaveTickets table) (hmax : shares table ≤ INT_MAX) :
    totaltickets table = shares table := by
  have hloop : ∀ (l : List Proc) (t : Int), HaveTickets l → 0 ≤ t → t + shares l ≤ INT_MAX →
      l.foldl (fun t p => if p.state = .RUNNABLE then wrap (t + p.tickets) else t) t = t + shares l := by
    intro l
    induction l with
    | nil =>
      intro t _ _ _
      simp [shares]
    | cons p l ih =>
      intro t hl h0 hle
      have hp := share_nonneg (hl p List.mem_cons_self)
      have hrest : HaveTickets l := fun q hq => hl q (List.mem_cons_of_mem p hq)
      have hnonneg := shares_nonneg hrest
      rw [shares_cons] at hle ⊢
      have hround : (if p.state = .RUNNABLE then wrap (t + p.tickets) else t) = t + p.share := by
        unfold Proc.share at *
        split
        · rename_i hrun
          rw [if_pos hrun] at hp hle
          exact wrap_of_le (by omega) (by omega)
        · omega
      rw [List.foldl_cons, hround, ih _ hrest (by omega) (by omega)]
      omega
  unfold totaltickets
  rw [hloop table 0 h (Int.le_refl 0) (by omega), Int.zero_add]

theorem haveTickets_of_inv (h : Inv s) : HaveTickets s.table := fun p hp hrun =>
  (h p hp).2 (by simp [Proc.live, hrun])

/-- Not more tickets count than processes that live have. -/
theorem shares_le_tickets (h : Inv s) : shares s.table ≤ s.tickets := by
  apply List.sum_le_sum
  intro p hp
  unfold Proc.share Proc.stake
  by_cases hrun : p.state = .RUNNABLE
  · simp [hrun, Proc.live]
  · rw [if_neg hrun]
    split
    · rename_i hlive
      have := (h p hp).2 hlive
      omega
    · exact Int.le_refl 0

theorem safe_of_tickets (h : Inv s) (hmax : s.tickets ≤ INT_MAX) : Safe s.table := by
  have hhave := haveTickets_of_inv h
  have hle := shares_le_tickets h
  have hnonneg := shares_nonneg hhave
  have htotal := totaltickets_eq hhave (by omega)
  have hbins : numBins (shares s.table) ≠ 0 := by
    rw [numBins_eq hnonneg (by omega)]
    omega
  have hsize : binSize (shares s.table) ≠ 0 := Nat.pos_iff_ne_zero.mp (binSize_pos hnonneg (by omega))
  refine ⟨?_, ?_, ?_, ?_, ?_⟩
  · intro k
    have hlow := @shares_nonneg (s.table.take k) fun p hp => hhave p (List.mem_of_mem_take hp)
    have hhigh : shares (s.table.take k) ≤ shares s.table := by
      have := shares_take_mono hhave (Nat.le_max_left k s.table.length)
      rwa [List.take_of_length_le (Nat.le_max_right _ _)] at this
    omega
  · rw [htotal]
    omega
  · rw [htotal]
    exact hbins
  · rw [htotal]
    exact hsize
  · intro fuel val e
    rw [htotal, getwinner, if_neg hbins]
    cases draw (defect (shares s.table)) fuel val with
    | none => exact nofun
    | some x => simp [hsize]

/-! ## Waking everyone -/

/-- A process that waits for something else than its turn. -/
def awake (p : Proc) : Proc :=
  if p.state = .RUNNING ∨ p.state = .SLEEPING then { p with state := .RUNNABLE } else p

theorem share_awake {p : Proc} (h : p.Ok) : (awake p).share = p.stake := by
  unfold awake Proc.share Proc.stake Proc.live
  cases hp : p.state with
  | EMBRYO => exact absurd hp h.1
  | _ => simp [hp]

theorem shares_awake (h : Inv s) : shares (s.table.map awake) = s.tickets := by
  unfold shares State.tickets
  rw [List.map_map]
  congr 1
  exact List.map_congr_left fun p hp => share_awake (h p hp)

theorem modify_middle (l r : List Proc) (p : Proc) (f : Proc → Proc) :
    (l ++ p :: r).modify l.length f = l ++ f p :: r := by
  induction l with
  | nil => rfl
  | cons q l ih => rw [List.cons_append, List.length_cons, List.modify_succ_cons, ih, List.cons_append]

/-- The processor is given up, or the process woken. -/
theorem step_awake {k : Nat} {p : Proc} (hp : s.table[k]? = some p)
    (hst : p.state = .RUNNING ∨ p.state = .SLEEPING) :
    ∃ a : Action, a.sched ∧ step s a = some (s.setState k .RUNNABLE) := by
  rcases hst with hst | hst
  · exact ⟨.yield k, rfl, withProc_eq_some.2 ⟨p, hp, hst, rfl⟩⟩
  · exact ⟨.wakeup k, rfl, withProc_eq_some.2 ⟨p, hp, hst, rfl⟩⟩

/-- All processes of the first `k` slots can be made ready by the scheduler. -/
theorem reach_awake (s : State) : ∀ k ≤ s.table.length, ∃ l s', (∀ a ∈ l, Action.sched a) ∧
    run step s l = some s' ∧ s'.table = (s.table.take k).map awake ++ s.table.drop k
  | 0, _ => ⟨[], s, nofun, rfl, by simp⟩
  | k + 1, hk => by
    obtain ⟨l, m, hl, hrun, htable⟩ := reach_awake s k (by omega)
    have hlen : ((s.table.take k).map awake).length = k := by
      simp
      omega
    rw [List.drop_eq_getElem_cons (by omega)] at htable
    generalize hp : s.table[k] = p at htable
    have hmk : m.table[k]? = some p := by
      rw [htable, List.getElem?_append_right (by omega), hlen]
      simp
    have hgoal : (s.table.take (k + 1)).map awake ++ s.table.drop (k + 1) =
        (s.table.take k).map awake ++ awake p :: s.table.drop (k + 1) := by
      rw [List.take_add_one, List.getElem?_eq_getElem (by omega), hp]
      simp
    rw [hgoal]
    by_cases hst : p.state = .RUNNING ∨ p.state = .SLEEPING
    · obtain ⟨a, ha, hstep⟩ := step_awake hmk hst
      refine ⟨l ++ [a], _, ?_, run_concat.2 ⟨m, hrun, hstep⟩, ?_⟩
      · intro b hb
        rcases List.mem_append.mp hb with hb | hb
        · exact hl b hb
        · rw [List.mem_singleton.mp hb]
          exact ha
      · have hmodify := modify_middle ((s.table.take k).map awake) (s.table.drop (k + 1)) p
          fun p => { p with state := .RUNNABLE }
        rw [hlen] at hmodify
        simp only [State.setState]
        rw [htable, hmodify, awake, if_pos hst]
    · refine ⟨l, m, hl, hrun, ?_⟩
      rw [htable, awake, if_neg hst]

/-! ## Runs -/

theorem sched_run (h : Inv s) : ∀ {l : List Action}, (∀ a ∈ l, Action.sched a) → ∀ {s' : State},
    run step s l = some s' → Inv s' ∧ s'.tickets = s.tickets := by
  intro l hl s' hrun
  induction l generalizing s with
  | nil =>
    cases hrun
    exact ⟨h, rfl⟩
  | cons a l ih =>
    rw [List.forall_mem_cons] at hl
    obtain ⟨m, hm, hrest⟩ := run_cons.1 hrun
    obtain ⟨hinv, htickets⟩ := sched_step h hl.1 hm
    obtain ⟨hinv', htickets'⟩ := ih hinv hl.2 hrest
    exact ⟨hinv', htickets'.trans htickets⟩

/-- **The tickets of all processes that live decide.** -/
theorem safeAround_iff (h : Inv s) : SafeAround s ↔ s.tickets ≤ INT_MAX := by
  constructor
  · intro hsafe
    obtain ⟨l, s', hl, hrun, htable⟩ := reach_awake s s.table.length (Nat.le_refl _)
    rw [List.take_length, List.drop_length, List.append_nil] at htable
    have hno := ((hsafe l s' hl hrun).no_overflow s'.table.length).2
    rwa [List.take_length, htable, shares_awake h] at hno
  · intro hmax l s' hl hrun
    obtain ⟨hinv, htickets⟩ := sched_run h hl hrun
    exact safe_of_tickets hinv (htickets ▸ hmax)

theorem SafeAround.safe (h : SafeAround s) : Safe s.table := h [] s nofun rfl

theorem along_safeAround_iff (n : Nat) (l : List Action) :
    Along step SafeAround (boot n) l ↔ StepsMeet step BoundKept (boot n) l := by
  have hboot := inv_boot n
  apply along_iff_stepsMeet (I := Inv)
  · exact fun m a m' hm ha => inv_step hm ha
  · intro m a m' hm hsafe ha
    rw [safeAround_iff hm] at hsafe
    rw [safeAround_iff (inv_step hm ha)]
    exact bound_step hm hsafe ha
  · exact hboot
  · rw [safeAround_iff hboot]
    have hone : (boot n).tickets = 1 := by
      simp [State.tickets, boot, Proc.stake, Proc.live]
    rw [hone]
    decide

/-- **Any sequence of calls.**  From boot on, the arithmetic of the scheduler is safe in every state of the
run, and in every state that the scheduler can make of it, iff no call of the run leaves more
tickets than fit in an `int`. -/
theorem tickets_safe_iff (n : Nat) (l : List Action) :
    (Along step SafeAround (boot n) l ↔ StepsMeet step BoundKept (boot n) l) ∧
      (StepsMeet step BoundKept (boot n) l → Along step (fun s => Safe s.table) (boot n) l) := by
  refine ⟨along_safeAround_iff n l, ?_⟩
  intro hmeet
  have haround := (along_safeAround_iff n l).2 hmeet
  exact haround.mono (fun _ _ _ _ _ => trivial) (fun _ _ hm => hm.safe) trivial

/-- The first process takes all tickets that `sys_settickets` allows, forks, and gives up the processor:
the sum wraps to -2, and `bin_size` is 0. -/
theorem forkAll_not_safe : ∃ s, run step (boot 64)
    [.dispatch 0, .sysSettickets 0 INT_MAX, .fork 0 true, .yield 0] = some s ∧
      totaltickets s.table = -2 ∧ ¬ Safe s.table := by
  have hrun : (run step (boot 64) [.dispatch 0, .sysSettickets 0 INT_MAX, .fork 0 true, .yield 0]).map
      (fun s => totaltickets s.table) = some (-2) := by decide
  obtain ⟨s, hs, htotal⟩ := Option.map_eq_some_iff.mp hrun
  refine ⟨s, hs, htotal, ?_⟩
  intro hsafe
  have hne := hsafe.bin_size_ne
  rw [htotal] at hne
  exact hne (by decide)

end OstepHw.Lottery
