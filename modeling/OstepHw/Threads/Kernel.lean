import OstepHw.Lib.Machine
import Mathlib.Logic.Function.Basic

/-!
# Processes and threads of the `threads_asm.patch` kernel

Model of `fork`, `clone`, `growproc`, `exit`, `join` and `wait` as `threads_asm.patch` leaves them, on the
process table of xv6.  Each call is one step, and so is each move of the scheduler.  `NPROC` is a
parameter; so are the results of the allocators, which are not part of the patch: whether `kalloc` and
`copyuvm` succeed, and the size that `allocuvm` and `deallocuvm` return.

A page directory is a number, 0 for the null pointer, and `copyuvm` gives a fresh one.  The state also
records which processes were made, which were reaped and which directories were freed.

* `step` — the kernel;
* `lastRef_eq_iff` — when `wait` frees a page directory;
* `step_effect` — everything a step can do to the processes and their page directories.
-/

set_option autoImplicit false

namespace OstepHw.Threads

open Machine

inductive Procstate
  | UNUSED
  | EMBRYO
  | SLEEPING
  | RUNNABLE
  | RUNNING
  | ZOMBIE
  deriving DecidableEq

/-- A slot of the process table.  The parent and the channel are slots. -/
structure Proc where
  state : Procstate
  pid : Nat
  parent : Option Nat
  chan : Option Nat
  killed : Bool
  pgdir : Nat
  sz : Nat
  deriving DecidableEq

/-- A process that was made: its pid, that of its maker, and its page directory. -/
structure Made where
  pid : Nat
  maker : Nat
  pgdir : Nat
  deriving DecidableEq

structure State where
  slots : Nat → Proc
  nextpid : Nat
  /-- The directory that `copyuvm` gives next. -/
  nextpgdir : Nat
  made : List Made
  reaped : List Nat
  freed : List Nat

/-- After `userinit`. -/
def boot : State where
  slots := fun i => if i = 0 then ⟨.RUNNABLE, 1, none, none, false, 1, 4096⟩
    else ⟨.UNUSED, 0, none, none, false, 0, 0⟩
  nextpid := 2
  nextpgdir := 2
  made := [⟨1, 0, 1⟩]
  reaped := []
  freed := []

def State.set (s : State) (i : Nat) (p : Proc) : State := { s with slots := Function.update s.slots i p }

theorem set_self (s : State) (i : Nat) (p : Proc) : (s.set i p).slots i = p := Function.update_self ..

theorem set_of_ne {i k : Nat} (s : State) (p : Proc) (h : k ≠ i) : (s.set i p).slots k = s.slots k :=
  Function.update_of_ne h ..

theorem set_of_used {s : State} {i k : Nat} (p : Proc) (hi : (s.slots i).state = .UNUSED)
    (hk : (s.slots k).state ≠ .UNUSED) : (s.set i p).slots k = s.slots k :=
  set_of_ne s p fun h => hk (h ▸ hi)

/-- What holds of all slots after one of them has changed. -/
theorem forall_set {s : State} {i : Nat} {p : Proc} (P : Nat → Proc → Prop) :
    (∀ k, P k ((s.set i p).slots k)) ↔ P i p ∧ ∀ k, k ≠ i → P k (s.slots k) :=
  Function.forall_update_iff s.slots P

/-! ## Making processes -/

/-- The slot that `allocproc` takes. -/
def State.free (n : Nat) (s : State) : Option Nat :=
  (List.range n).find? fun j => (s.slots j).state = .UNUSED

/-- How far `fork` or `clone` gets. -/
inductive Memory
  | noStack
  /-- For `fork` only. -/
  | noCopy
  | enough
  deriving DecidableEq

def fork (n : Nat) (s : State) (i : Nat) (memory : Memory) : State :=
  match s.free n with
  | none => s
  | some j =>
    let np := { s.slots j with pid := s.nextpid }
    match memory with
    | .noStack => { s.set j np with nextpid := s.nextpid + 1 }
    | .noCopy => { s.set j { np with pgdir := 0 } with nextpid := s.nextpid + 1 }
    | .enough =>
      { s.set j { np with
          state := .RUNNABLE
          parent := some i
          pgdir := s.nextpgdir
          sz := (s.slots i).sz } with
        nextpid := s.nextpid + 1
        nextpgdir := s.nextpgdir + 1
        made := s.made ++ [⟨s.nextpid, (s.slots i).pid, s.nextpgdir⟩] }

def clone (n : Nat) (s : State) (i : Nat) (memory : Memory) : State :=
  match s.free n with
  | none => s
  | some j =>
    let np := { s.slots j with pid := s.nextpid }
    match memory with
    | .noStack => { s.set j np with nextpid := s.nextpid + 1 }
    | _ =>
      { s.set j { np with
          state := .RUNNABLE
          parent := some i
          pgdir := (s.slots i).pgdir
          sz := (s.slots i).sz } with
        nextpid := s.nextpid + 1
        made := s.made ++ [⟨s.nextpid, (s.slots i).pid, (s.slots i).pgdir⟩] }

/-! ## `growproc` -/

/-- `result` is what `allocuvm` or `deallocuvm` returns; it is not asked for `n = 0`. -/
def growproc (s : State) (i : Nat) (n : Int) (result : Nat) : State :=
  let sz := if n = 0 then (s.slots i).sz else result
  if n ≠ 0 ∧ result = 0 then s
  else
    let s := s.set i { s.slots i with sz := sz }
    { s with slots := fun k =>
        if (s.slots k).parent = some i ∧ (s.slots k).pgdir = (s.slots i).pgdir then
          { s.slots k with sz := (s.slots i).sz }
        else s.slots k }

theorem growproc_fails {s : State} {i : Nat} {n : Int} {result : Nat} (h : n ≠ 0 ∧ result = 0) :
    growproc s i n result = s := if_pos h

/-- The caller and the threads that it has made get the new size. -/
theorem growproc_succeeds {s : State} {i : Nat} {n : Int} {result : Nat} (h : ¬(n ≠ 0 ∧ result = 0)) :
    growproc s i n result =
      { s with slots := fun k =>
          if k = i ∨ (s.slots k).parent = some i ∧ (s.slots k).pgdir = (s.slots i).pgdir then
            { s.slots k with sz := if n = 0 then (s.slots i).sz else result }
          else s.slots k } := by
  rw [growproc, if_neg h]
  simp only [State.set, State.mk.injEq, and_true]
  funext k
  by_cases hk : k = i
  · subst hk
    simp
  · simp [hk]

/-! ## `exit` -/

/-- `wakeup1` of the processes that sleep in `wait` or `join` of slot `chan`. -/
def wakeup1 (chan : Option Nat) (slots : Nat → Proc) (k : Nat) : Proc :=
  if (slots k).state = .SLEEPING ∧ (slots k).chan = chan ∧ chan ≠ none then
    { slots k with state := .RUNNABLE }
  else slots k

/-- `exit` of slot `i`; `initproc` is slot 0.  Only children with another page directory get a new
parent. -/
def exit (n : Nat) (s : State) (i : Nat) : State :=
  let slots := wakeup1 (s.slots i).parent s.slots
  let abandoned (p : Proc) : Bool := p.parent = some i ∧ p.pgdir ≠ (s.slots i).pgdir
  let orphan := (List.range n).any fun k => abandoned (slots k) ∧ (slots k).state = .ZOMBIE
  let slots := fun k => if abandoned (slots k) then { slots k with parent := some 0 } else slots k
  let slots := if orphan then wakeup1 (some 0) slots else slots
  { s with slots := Function.update slots i { slots i with state := .ZOMBIE } }

/-! ## `join` and `wait` -/

/-- A child of slot `i`: a thread has the page directory of its parent, a process another one. -/
def State.child (s : State) (thread : Bool) (i k : Nat) : Bool :=
  (s.slots k).parent = some i ∧ ((s.slots k).pgdir = (s.slots i).pgdir) = thread

/-- The first child that has exited. -/
def State.zombie (n : Nat) (s : State) (thread : Bool) (i : Nat) : Option Nat :=
  (List.range n).find? fun k => s.child thread i k ∧ (s.slots k).state = .ZOMBIE

/-- What `join` and `wait` do when no child has exited. -/
def sleepForChild (n : Nat) (s : State) (thread : Bool) (i : Nat) : State :=
  if ((List.range n).all fun k => !s.child thread i k) || (s.slots i).killed then s
  else s.set i { s.slots i with state := .SLEEPING, chan := some i }

/-- A slot that is given back. -/
def Proc.release (p : Proc) : Proc := { p with state := .UNUSED, pid := 0, parent := none, killed := false }

/-- One round of the loop of `join`; the slot keeps its `pgdir`. -/
def join (n : Nat) (s : State) (i : Nat) : State :=
  match s.zombie n true i with
  | some j => { s.set j (s.slots j).release with reaped := s.reaped ++ [(s.slots j).pid] }
  | none => sleepForChild n s true i

/-- The loop over `q` in `wait`, which looks for other references to the directory of slot `p`. -/
def lastRef (slots : Nat → Proc) (p : Nat) : List Nat → Option Nat → Option Nat
  | [], last => last
  | q :: qs, last =>
    if q ≠ p ∧ (slots q).pgdir = (slots p).pgdir then
      if (slots q).state = .UNUSED ∨ (slots q).state = .ZOMBIE then lastRef slots p qs (some q) else none
    else lastRef slots p qs last

/-- One round of the loop of `wait`. -/
def wait (n : Nat) (s : State) (i : Nat) : State :=
  match s.zombie n false i with
  | some j =>
    { s.set j { (s.slots j).release with pgdir := 0 } with
      reaped := s.reaped ++ [(s.slots j).pid]
      freed :=
        if lastRef s.slots j (List.range n) (some j) = some j then s.freed ++ [(s.slots j).pgdir]
        else s.freed }
  | none => sleepForChild n s false i

/-! ## Steps -/

inductive Action
  | fork (i : Nat) (memory : Memory)
  | clone (i : Nat) (memory : Memory)
  | growproc (i : Nat) (n : Int) (result : Nat)
  | exit (i : Nat)
  | join (i : Nat)
  | wait (i : Nat)
  | dispatch (i : Nat)
  | yield (i : Nat)
  /-- On a channel other than those of `wait` and `join`. -/
  | sleep (i : Nat)
  | wakeup (i : Nat)
  | kill (i : Nat)
  deriving DecidableEq

/-- A step of the process in slot `i`, which is in the given state. -/
def State.when (n : Nat) (s : State) (i : Nat) (state : Procstate) (s' : State) : Option State :=
  if i < n ∧ (s.slots i).state = state then some s' else none

def step (n : Nat) (s : State) : Action → Option State
  | .fork i memory => s.when n i .RUNNING (fork n s i memory)
  | .clone i memory => s.when n i .RUNNING (clone n s i memory)
  | .growproc i k result => s.when n i .RUNNING (growproc s i k result)
  | .exit i => if i = 0 then none else s.when n i .RUNNING (exit n s i)
  | .join i => s.when n i .RUNNING (join n s i)
  | .wait i => s.when n i .RUNNING (wait n s i)
  | .dispatch i => s.when n i .RUNNABLE (s.set i { s.slots i with state := .RUNNING })
  | .yield i => s.when n i .RUNNING (s.set i { s.slots i with state := .RUNNABLE })
  | .sleep i => s.when n i .RUNNING (s.set i { s.slots i with state := .SLEEPING, chan := none })
  | .wakeup i => s.when n i .SLEEPING (s.set i { s.slots i with state := .RUNNABLE })
  | .kill i =>
    if i < n then
      some (s.set i { s.slots i with
        state := if (s.slots i).state = .SLEEPING then .RUNNABLE else (s.slots i).state
        killed := true })
    else none

/-- A process that is not finished. -/
def Proc.live (p : Proc) : Prop := p.state ≠ .UNUSED ∧ p.state ≠ .ZOMBIE

/-! ## The scans of the table -/

theorem free_some {n : Nat} {s : State} {j : Nat} (h : s.free n = some j) :
    j < n ∧ (s.slots j).state = .UNUSED :=
  ⟨List.mem_range.mp (List.mem_of_find?_eq_some h), by simpa using List.find?_some h⟩

theorem zombie_some {n : Nat} {s : State} {thread : Bool} {i j : Nat} (h : s.zombie n thread i = some j) :
    j < n ∧ (s.slots j).state = .ZOMBIE ∧ ((s.slots j).pgdir = (s.slots i).pgdir ↔ thread) := by
  have hj := List.find?_some h
  simp only [State.child, Bool.decide_and, Bool.and_eq_true, decide_eq_true_eq,
    eq_iff_iff] at hj
  exact ⟨List.mem_range.mp (List.mem_of_find?_eq_some h), hj.2, hj.1.2⟩

/-- Once another reference has been found, `last_ref` is not `p` again. -/
theorem lastRef_eq_iff {slots : Nat → Proc} {p : Nat} {l : List Nat} {last : Option Nat} :
    lastRef slots p l last = some p ↔
      last = some p ∧ ∀ q ∈ l, q ≠ p → (slots q).pgdir ≠ (slots p).pgdir := by
  induction l generalizing last with
  | nil => simp [lastRef]
  | cons q l ih =>
    rw [lastRef, List.forall_mem_cons]
    split
    · next hq =>
      have hno : ¬(q ≠ p → (slots q).pgdir ≠ (slots p).pgdir) := fun h => h hq.1 hq.2
      split
      · have hne : some q ≠ some p := fun h => hq.1 (Option.some.inj h)
        simp [ih, hne, hno]
      · simp [hno]
    · next hq =>
      have hyes : q ≠ p → (slots q).pgdir ≠ (slots p).pgdir := fun hne h => hq ⟨hne, h⟩
      rw [ih, and_iff_right hyes]

/-! ## What a step can do -/

/-- A slot with the same process in it; no process comes to life again. -/
structure Moved (p p' : Proc) : Prop where
  pid : p'.pid = p.pid
  pgdir : p'.pgdir = p.pgdir
  sz : p'.sz = p.sz
  unused : p'.state = .UNUSED ↔ p.state = .UNUSED
  live : p'.live → p.live

theorem Moved.refl (p : Proc) : Moved p p := ⟨rfl, rfl, rfl, Iff.rfl, id⟩

theorem Moved.trans {p q r : Proc} (h : Moved p q) (h' : Moved q r) : Moved p r where
  pid := h'.pid.trans h.pid
  pgdir := h'.pgdir.trans h.pgdir
  sz := h'.sz.trans h.sz
  unused := h'.unused.trans h.unused
  live := h.live ∘ h'.live

/-- A step that neither changes a size nor reaps a process. -/
def Quiet (n : Nat) (s : State) : Action → Prop
  | .growproc .. => False
  | .join i => s.zombie n true i = none
  | .wait i => s.zombie n false i = none
  | _ => True

inductive Effect (n : Nat) (s : State) : Action → State → Prop
  | same {a : Action} {slots : Nat → Proc} (ha : Quiet n s a) (hslots : ∀ j, Moved (s.slots j) (slots j)) :
      Effect n s a { s with slots := slots }
  /-- A slot is taken and given back. -/
  | waste {a : Action} {j : Nat} {p : Proc} (ha : Quiet n s a) (hj : j < n)
      (hfree : (s.slots j).state = .UNUSED) (hp : p.state = .UNUSED)
      (hdir : p.pgdir = (s.slots j).pgdir ∨ p.pgdir = 0) :
      Effect n s a { s.set j p with nextpid := s.nextpid + 1 }
  /-- `fork` with a new page directory, or `clone` with that of the caller. -/
  | make {a : Action} {i j nextpgdir : Nat} {p : Proc} (ha : Quiet n s a) (hi : i < n)
      (hrun : (s.slots i).state = .RUNNING) (hj : j < n) (hfree : (s.slots j).state = .UNUSED)
      (hp : p.state = .RUNNABLE) (hpid : p.pid = s.nextpid)
      (hdir : p.pgdir = s.nextpgdir ∧ nextpgdir = s.nextpgdir + 1 ∨
        p.pgdir = (s.slots i).pgdir ∧ p.sz = (s.slots i).sz ∧ nextpgdir = s.nextpgdir) :
      Effect n s a { s.set j p with
        nextpid := s.nextpid + 1
        nextpgdir := nextpgdir
        made := s.made ++ [⟨s.nextpid, (s.slots i).pid, p.pgdir⟩] }
  | grow {i : Nat} {k : Int} {result : Nat} (hi : i < n) (hrun : (s.slots i).state = .RUNNING) :
      Effect n s (.growproc i k result) (growproc s i k result)
  | join {i j : Nat} (hi : (s.slots i).state = .RUNNING) (hj : j < n)
      (hzombie : (s.slots j).state = .ZOMBIE) (hdir : (s.slots j).pgdir = (s.slots i).pgdir) :
      Effect n s (.join i)
        { s.set j (s.slots j).release with reaped := s.reaped ++ [(s.slots j).pid] }
  | wait {i j : Nat} (hfound : s.zombie n false i = some j) (hj : j < n)
      (hzombie : (s.slots j).state = .ZOMBIE) :
      Effect n s (.wait i)
        { s.set j { (s.slots j).release with pgdir := 0 } with
          reaped := s.reaped ++ [(s.slots j).pid]
          freed :=
            if lastRef s.slots j (List.range n) (some j) = some j then s.freed ++ [(s.slots j).pgdir]
            else s.freed }

variable {n : Nat} {s s' : State} {a : Action}

theorem when_some {i : Nat} {state : Procstate} {t : State} (h : s.when n i state t = some s') :
    i < n ∧ (s.slots i).state = state ∧ s' = t := by
  rw [State.when] at h
  split at h
  · next hi => exact ⟨hi.1, hi.2, (Option.some.inj h).symm⟩
  · cases h

/-- A step that only changes slot `i`. -/
theorem effect_set {i : Nat} {p : Proc} (ha : Quiet n s a) (hp : Moved (s.slots i) p) :
    Effect n s a (s.set i p) := by
  refine .same ha ((forall_set fun j => Moved (s.slots j)).mpr ⟨hp, ?_⟩)
  intro j _
  exact .refl _

theorem effect_sleepForChild {thread : Bool} {i : Nat} (ha : Quiet n s a)
    (hrun : (s.slots i).state = .RUNNING) : Effect n s a (sleepForChild n s thread i) := by
  rw [sleepForChild]
  split
  · exact .same ha fun _ => .refl _
  · exact effect_set ha ⟨rfl, rfl, rfl, by simp [hrun], by simp [Proc.live, hrun]⟩

theorem moved_wakeup1 (chan : Option Nat) (slots : Nat → Proc) (k : Nat) :
    Moved (slots k) (wakeup1 chan slots k) := by
  rw [wakeup1]
  split
  · next h => exact ⟨rfl, rfl, rfl, by simp [h.1], by simp [Proc.live, h.1]⟩
  · exact .refl _

theorem effect_exit {i : Nat} (hrun : (s.slots i).state = .RUNNING) :
    Effect n s (.exit i) (exit n s i) := by
  unfold exit
  extract_lets woken abandoned orphan given slots
  have hwoken : ∀ k, Moved (s.slots k) (woken k) := moved_wakeup1 _ _
  have hgiven : ∀ k, Moved (woken k) (given k) := by
    intro k
    show Moved (woken k) (if abandoned (woken k) then { woken k with parent := some 0 } else woken k)
    split
    · exact ⟨rfl, rfl, rfl, Iff.rfl, id⟩
    · exact .refl _
  have hslots : ∀ k, Moved (s.slots k) (slots k) := by
    intro k
    refine ((hwoken k).trans (hgiven k)).trans ?_
    show Moved (given k) ((if orphan then wakeup1 (some 0) given else given) k)
    split
    · exact moved_wakeup1 _ _ k
    · exact .refl _
  refine .same trivial fun j => ?_
  by_cases h : j = i
  · subst h
    rw [Function.update_self]
    have hused : (slots j).state ≠ .UNUSED := by simp [(hslots j).unused, hrun]
    exact (hslots j).trans ⟨rfl, rfl, rfl, by simp [hused], by simp [Proc.live]⟩
  · rw [Function.update_of_ne h]
    exact hslots j

theorem effect_fork {i : Nat} {memory : Memory} (hi : i < n) (hrun : (s.slots i).state = .RUNNING) :
    Effect n s (.fork i memory) (fork n s i memory) := by
  rw [fork]
  split
  · exact .same trivial fun _ => .refl _
  · next j hfree =>
    obtain ⟨hj, hunused⟩ := free_some hfree
    cases memory with
    | noStack => exact .waste trivial hj hunused hunused (.inl rfl)
    | noCopy => exact .waste trivial hj hunused hunused (.inr rfl)
    | enough => exact .make trivial hi hrun hj hunused rfl rfl (.inl ⟨rfl, rfl⟩)

theorem effect_clone {i : Nat} {memory : Memory} (hi : i < n) (hrun : (s.slots i).state = .RUNNING) :
    Effect n s (.clone i memory) (clone n s i memory) := by
  rw [clone]
  split
  · exact .same trivial fun _ => .refl _
  · next j hfree =>
    obtain ⟨hj, hunused⟩ := free_some hfree
    cases memory with
    | noStack => exact .waste trivial hj hunused hunused (.inl rfl)
    | noCopy | enough => exact .make trivial hi hrun hj hunused rfl rfl (.inr ⟨rfl, rfl, rfl⟩)

theorem effect_join {i : Nat} (hrun : (s.slots i).state = .RUNNING) :
    Effect n s (.join i) (join n s i) := by
  rw [join]
  split
  · next j hfound =>
    obtain ⟨hj, hzombie, hdir⟩ := zombie_some hfound
    exact .join hrun hj hzombie (hdir.mpr rfl)
  · next hnone => exact effect_sleepForChild hnone hrun

theorem effect_wait {i : Nat} (hrun : (s.slots i).state = .RUNNING) :
    Effect n s (.wait i) (wait n s i) := by
  rw [wait]
  split
  · next j hfound =>
    obtain ⟨hj, hzombie, -⟩ := zombie_some hfound
    exact .wait hfound hj hzombie
  · next hnone => exact effect_sleepForChild hnone hrun

/-- **What a step can do.** -/
theorem step_effect (h : step n s a = some s') : Effect n s a s' := by
  cases a with
  | fork i memory =>
    obtain ⟨hi, hrun, rfl⟩ := when_some h
    exact effect_fork hi hrun
  | clone i memory =>
    obtain ⟨hi, hrun, rfl⟩ := when_some h
    exact effect_clone hi hrun
  | growproc i k result =>
    obtain ⟨hi, hrun, rfl⟩ := when_some h
    exact .grow hi hrun
  | exit i =>
    rw [step] at h
    split at h
    · cases h
    · obtain ⟨-, hrun, rfl⟩ := when_some h
      exact effect_exit hrun
  | join i =>
    obtain ⟨-, hrun, rfl⟩ := when_some h
    exact effect_join hrun
  | wait i =>
    obtain ⟨-, hrun, rfl⟩ := when_some h
    exact effect_wait hrun
  | dispatch i | yield i | sleep i | wakeup i =>
    obtain ⟨-, hstate, rfl⟩ := when_some h
    exact effect_set trivial ⟨rfl, rfl, rfl, by simp [hstate], by simp [Proc.live, hstate]⟩
  | kill i =>
    rw [step] at h
    split at h
    · cases h
      refine effect_set trivial ⟨rfl, rfl, rfl, ?_, ?_⟩
      all_goals
        simp only [Proc.live]
        split <;> simp_all
    · cases h

end OstepHw.Threads
