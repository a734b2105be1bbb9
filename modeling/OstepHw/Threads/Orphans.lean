import OstepHw.Threads.Reclaim

/-!
# Processes that nobody can reap

`exit` hands the children of a process over to `init`, but only those with another page directory.  A
thread keeps the slot of its maker as parent, although the maker is a zombie, and later whatever process
gets that slot.

* `Reapable` — every process has a parent that can reap it, its maker or `init`;
* `parents_step` — which steps keep it;
* `reapable_iff_stepsMeet` — in which runs it always holds;
* `leftThread_not_reapable` — a process exits before its thread.
-/

set_option autoImplicit false

namespace OstepHw.Threads

open Machine

/-- Slot `k` holds `init`, or the process that made the one in slot `j`. -/
def State.Answers (s : State) (k j : Nat) : Prop :=
  (s.slots k).pid = 1 ∨ ∃ e ∈ s.made, e.pid = (s.slots j).pid ∧ e.maker = (s.slots k).pid

/-- Every process but `init` has a parent that is not finished, and that is its maker or `init`. -/
def Parents (n : Nat) (s : State) : Prop :=
  ∀ j < n, (s.slots j).state ≠ .UNUSED → (s.slots j).pid ≠ 1 →
    ∃ k < n, (s.slots j).parent = some k ∧ (s.slots k).live ∧ s.Answers k j

structure Reapable (n : Nat) (s : State) : Prop where
  parents : Parents n s
  /-- `join` and `wait` return the pid of a process that the caller has made, or the caller is `init`. -/
  own : ∀ thread i j, s.zombie n thread i = some j → s.Answers i j
  /-- Every zombie is a child of a process that is not finished, for `join` or for `wait`. -/
  zombies : ∀ j < n, (s.slots j).state = .ZOMBIE →
    ∃ k < n, (s.slots k).live ∧ ∃ thread, s.child thread k j = true

/-- A process exits after it has joined its threads. -/
def ThreadsJoined (n : Nat) (s : State) : Action → Prop
  | .exit i => ∀ j < n, (s.slots j).state ≠ .UNUSED → (s.slots j).parent = some i →
      (s.slots j).pgdir ≠ (s.slots i).pgdir
  | _ => True

/-! ## `init` -/

/-- Slot 0 holds `init`, which does not exit. -/
structure InitLives (s : State) : Prop where
  live : (s.slots 0).live
  pid : (s.slots 0).pid = 1
  parent : (s.slots 0).parent = none

variable {n : Nat} {s s' : State} {a : Action}

/-! ## What a step does to parents -/

/-- A slot with the same process, which keeps its parent and does not finish. -/
structure Stays (p p' : Proc) : Prop where
  pid : p'.pid = p.pid
  parent : p'.parent = p.parent
  unused : p'.state = .UNUSED ↔ p.state = .UNUSED
  live : p'.live ↔ p.live

theorem Stays.refl (p : Proc) : Stays p p := ⟨rfl, rfl, Iff.rfl, Iff.rfl⟩

theorem stays_wakeup1 (chan : Option Nat) (slots : Nat → Proc) (k : Nat) :
    Stays (slots k) (wakeup1 chan slots k) := by
  rw [wakeup1]
  split
  · next h => exact ⟨rfl, rfl, by simp [h.1], by simp [Proc.live, h.1]⟩
  · exact .refl _

/-- Every step but `exit`. -/
inductive Kin (n : Nat) (s : State) : State → Prop
  | same {slots : Nat → Proc} (hslots : ∀ j, Stays (s.slots j) (slots j)) : Kin n s { s with slots := slots }
  | clear {j : Nat} {p : Proc} {s' : State} (hdead : ¬ (s.slots j).live) (hp : p.state = .UNUSED)
      (hslots : s'.slots = (s.set j p).slots) (hmade : s'.made = s.made) : Kin n s s'
  | make {i j : Nat} {p : Proc} {s' : State} (hi : i < n) (hrun : (s.slots i).live)
      (hfree : (s.slots j).state = .UNUSED) (hp : p.state = .RUNNABLE) (hpid : p.pid = s.nextpid)
      (hparent : p.parent = some i) (hslots : s'.slots = (s.set j p).slots)
      (hmade : s'.made = s.made ++ [⟨s.nextpid, (s.slots i).pid, p.pgdir⟩]) : Kin n s s'

theorem kin_set {i : Nat} {p : Proc} (hp : Stays (s.slots i) p) : Kin n s (s.set i p) :=
  .same ((forall_set fun j => Stays (s.slots j)).mpr ⟨hp, fun _ _ => .refl _⟩)

theorem kin_sleepForChild {thread : Bool} {i : Nat} (hrun : (s.slots i).state = .RUNNING) :
    Kin n s (sleepForChild n s thread i) := by
  rw [sleepForChild]
  split
  · exact .same fun _ => .refl _
  · exact kin_set ⟨rfl, rfl, by simp [hrun], by simp [Proc.live, hrun]⟩

theorem kin_fork {i : Nat} {memory : Memory} (hi : i < n) (hrun : (s.slots i).live) :
    Kin n s (fork n s i memory) := by
  rw [fork]
  split
  · exact .same fun _ => .refl _
  · next j hfree =>
    obtain ⟨-, hunused⟩ := free_some hfree
    have hdead : ¬ (s.slots j).live := fun hlive => hlive.1 hunused
    cases memory with
    | noStack => exact .clear (p := { s.slots j with pid := s.nextpid }) hdead hunused rfl rfl
    | noCopy => exact .clear (p := { s.slots j with pid := s.nextpid, pgdir := 0 }) hdead hunused rfl rfl
    | enough => exact .make hi hrun hunused rfl rfl rfl rfl rfl

theorem kin_clone {i : Nat} {memory : Memory} (hi : i < n) (hrun : (s.slots i).live) :
    Kin n s (clone n s i memory) := by
  rw [clone]
  split
  · exact .same fun _ => .refl _
  · next j hfree =>
    obtain ⟨-, hunused⟩ := free_some hfree
    have hdead : ¬ (s.slots j).live := fun hlive => hlive.1 hunused
    cases memory with
    | noStack => exact .clear (p := { s.slots j with pid := s.nextpid }) hdead hunused rfl rfl
    | noCopy | enough => exact .make hi hrun hunused rfl rfl rfl rfl rfl

theorem kin_growproc (i : Nat) (k : Int) (result : Nat) : Kin n s (growproc s i k result) := by
  by_cases hfail : k ≠ 0 ∧ result = 0
  · rw [growproc_fails hfail]
    exact .same fun _ => .refl _
  · rw [growproc_succeeds hfail]
    refine .same fun j => ?_
    split
    · exact ⟨rfl, rfl, Iff.rfl, Iff.rfl⟩
    · exact .refl _

theorem kin_join {i : Nat} (hrun : (s.slots i).state = .RUNNING) : Kin n s (join n s i) := by
  rw [join]
  split
  · next j hfound =>
    have hdead : ¬ (s.slots j).live := fun hlive => hlive.2 (zombie_some hfound).2.1
    exact .clear (p := (s.slots j).release) hdead rfl rfl rfl
  · exact kin_sleepForChild hrun

theorem kin_wait {i : Nat} (hrun : (s.slots i).state = .RUNNING) : Kin n s (wait n s i) := by
  rw [wait]
  split
  · next j hfound =>
    have hdead : ¬ (s.slots j).live := fun hlive => hlive.2 (zombie_some hfound).2.1
    exact .clear (p := { (s.slots j).release with pgdir := 0 }) hdead rfl rfl rfl
  · exact kin_sleepForChild hrun

theorem live_of_running {i : Nat} (h : (s.slots i).state = .RUNNING) : (s.slots i).live := by
  simp [Proc.live, h]

theorem step_kin (h : step n s a = some s') (ha : ∀ i, a ≠ .exit i) : Kin n s s' := by
  cases a with
  | fork i memory =>
    obtain ⟨hi, hrun, rfl⟩ := when_some h
    exact kin_fork hi (live_of_running hrun)
  | clone i memory =>
    obtain ⟨hi, hrun, rfl⟩ := when_some h
    exact kin_clone hi (live_of_running hrun)
  | growproc i k result =>
    obtain ⟨-, -, rfl⟩ := when_some h
    exact kin_growproc ..
  | exit i => exact absurd rfl (ha i)
  | join i =>
    obtain ⟨-, hrun, rfl⟩ := when_some h
    exact kin_join hrun
  | wait i =>
    obtain ⟨-, hrun, rfl⟩ := when_some h
    exact kin_wait hrun
  | dispatch i | yield i | sleep i | wakeup i =>
    obtain ⟨-, hstate, rfl⟩ := when_some h
    exact kin_set ⟨rfl, rfl, by simp [hstate], by simp [Proc.live, hstate]⟩
  | kill i =>
    rw [step] at h
    split at h
    · cases h
      refine kin_set ⟨rfl, rfl, ?_, ?_⟩
      all_goals
        simp only [Proc.live]
        split <;> simp_all
    · cases h

/-- What `exit` does to the slots. -/
theorem exit_slots {i : Nat} (hrun : (s.slots i).state = .RUNNING) (j : Nat) :
    ((exit n s i).slots j).pid = (s.slots j).pid ∧
    ((exit n s i).slots j).parent =
      (if (s.slots j).parent = some i ∧ (s.slots j).pgdir ≠ (s.slots i).pgdir then some 0
        else (s.slots j).parent) ∧
    (((exit n s i).slots j).state = .UNUSED ↔ (s.slots j).state = .UNUSED) ∧
    (((exit n s i).slots j).live ↔ (s.slots j).live ∧ j ≠ i) := by
  unfold exit
  extract_lets woken abandoned orphan given slots
  have hwoken : ∀ k, Stays (s.slots k) (woken k) ∧ (woken k).pgdir = (s.slots k).pgdir :=
    fun k => ⟨stays_wakeup1 _ _ k, (moved_wakeup1 _ _ k).pgdir⟩
  have hgiven : (given j).pid = (s.slots j).pid ∧
      (given j).parent = (if (s.slots j).parent = some i ∧ (s.slots j).pgdir ≠ (s.slots i).pgdir then some 0
        else (s.slots j).parent) ∧
      ((given j).state = .UNUSED ↔ (s.slots j).state = .UNUSED) ∧ ((given j).live ↔ (s.slots j).live) := by
    obtain ⟨hstays, hpgdir⟩ := hwoken j
    have hgiven : given j = if abandoned (woken j) then { woken j with parent := some 0 } else woken j := rfl
    rw [hgiven]
    have habandoned : abandoned (woken j) = true ↔
        (s.slots j).parent = some i ∧ (s.slots j).pgdir ≠ (s.slots i).pgdir := by
      simp [abandoned, hstays.parent, hpgdir]
    by_cases h : (s.slots j).parent = some i ∧ (s.slots j).pgdir ≠ (s.slots i).pgdir
    · rw [if_pos (habandoned.mpr h), if_pos h]
      exact ⟨hstays.pid, rfl, hstays.unused, hstays.live⟩
    · rw [if_neg (mt habandoned.mp h), if_neg h]
      exact ⟨hstays.pid, hstays.parent, hstays.unused, hstays.live⟩
  have hslots : Stays (given j) (slots j) := by
    show Stays (given j) ((if orphan then wakeup1 (some 0) given else given) j)
    split
    · exact stays_wakeup1 _ _ j
    · exact .refl _
  have hlive := hslots.live.trans hgiven.2.2.2
  have hunused := hslots.unused.trans hgiven.2.2.1
  dsimp only
  by_cases h : j = i
  · subst h
    rw [Function.update_self]
    exact ⟨hslots.pid.trans hgiven.1, hslots.parent.trans hgiven.2.1, by simp [hrun], by simp [Proc.live]⟩
  · rw [Function.update_of_ne h, hslots.pid, hslots.parent, hunused, hlive]
    exact ⟨hgiven.1, hgiven.2.1, Iff.rfl, by simp [h]⟩

/-! ## `init` -/

theorem initLives_boot : InitLives boot := ⟨⟨nofun, nofun⟩, rfl, rfl⟩

theorem initLives_step (h : InitLives s) (hstep : step n s a = some s') : InitLives s' := by
  by_cases ha : ∃ i, a = .exit i
  · obtain ⟨i, rfl⟩ := ha
    rw [step] at hstep
    split at hstep
    · cases hstep
    · next hi =>
      obtain ⟨-, hrun, rfl⟩ := when_some hstep
      obtain ⟨hpid, hparent, -, hlive⟩ := exit_slots (n := n) hrun 0
      refine ⟨hlive.mpr ⟨h.live, Ne.symm hi⟩, hpid.trans h.pid, ?_⟩
      rw [hparent, h.parent, if_neg fun hchild => absurd hchild.1 (by simp)]
  · have hslot : ∀ {j : Nat} {p : Proc}, ¬ (s.slots j).live → (s.set j p).slots 0 = s.slots 0 :=
      fun hdead => set_of_ne s _ fun h0 => hdead (h0 ▸ h.live)
    cases step_kin hstep (fun i hi => ha ⟨i, hi⟩) with
    | same hslots =>
      exact ⟨(hslots 0).live.mpr h.live, (hslots 0).pid.trans h.pid, (hslots 0).parent.trans h.parent⟩
    | clear hdead hp hslots hmade =>
      have heq : s'.slots 0 = s.slots 0 := by rw [hslots, hslot hdead]
      exact ⟨heq ▸ h.live, heq ▸ h.pid, heq ▸ h.parent⟩
    | make hi hrun hfree hp hpid hparent hslots hmade =>
      have heq : s'.slots 0 = s.slots 0 := by rw [hslots, hslot fun hlive => hlive.1 hfree]
      exact ⟨heq ▸ h.live, heq ▸ h.pid, heq ▸ h.parent⟩

/-! ## Parents -/

/-- Parents that are there stay there. -/
theorem Parents.of_kept (h : Parents n s)
    (hkept : ∀ j < n, (s'.slots j).state ≠ .UNUSED → (s.slots j).state ≠ .UNUSED ∧
      (s'.slots j).pid = (s.slots j).pid ∧ (s'.slots j).parent = (s.slots j).parent)
    (hlive : ∀ k, (s.slots k).live → (s'.slots k).live ∧ (s'.slots k).pid = (s.slots k).pid)
    (hmade : s'.made = s.made) : Parents n s' := by
  intro j hj hu hpid
  obtain ⟨hu', hpid', hparent'⟩ := hkept j hj hu
  obtain ⟨k, hk, hparent, hklive, hanswers⟩ := h j hj hu' (hpid' ▸ hpid)
  obtain ⟨hklive', hkpid⟩ := hlive k hklive
  refine ⟨k, hk, hparent'.trans hparent, hklive', ?_⟩
  rw [State.Answers, hkpid, hmade, hpid']
  exact hanswers

/-- `init` and the maker of a new process answer for it. -/
theorem Parents.make (h : Parents n s) {i j : Nat} {p : Proc} (hi : i < n) (hrun : (s.slots i).live)
    (hfree : (s.slots j).state = .UNUSED) (hpid : p.pid = s.nextpid) (hparent : p.parent = some i)
    (hslots : s'.slots = (s.set j p).slots)
    (hmade : s'.made = s.made ++ [⟨s.nextpid, (s.slots i).pid, p.pgdir⟩]) : Parents n s' := by
  have hlive : ∀ k, (s.slots k).live → (s.set j p).slots k = s.slots k := fun k hk =>
    set_of_used p hfree hk.1
  intro k hk hu hkpid
  by_cases hkj : k = j
  · subst hkj
    refine ⟨i, hi, ?_, ?_, .inr ⟨⟨s.nextpid, (s.slots i).pid, p.pgdir⟩, ?_, ?_, ?_⟩⟩
    · rw [hslots, set_self, hparent]
    · rw [hslots, hlive i hrun]
      exact hrun
    · rw [hmade]
      exact List.mem_append_right _ (List.mem_singleton_self _)
    · rw [hslots, set_self, hpid]
    · rw [hslots, hlive i hrun]
  · rw [hslots, set_of_ne s p hkj] at hu hkpid
    obtain ⟨l, hl, hparent', hllive, hanswers⟩ := h k hk hu hkpid
    refine ⟨l, hl, ?_, ?_, ?_⟩
    · rw [hslots, set_of_ne s p hkj, hparent']
    · rw [hslots, hlive l hllive]
      exact hllive
    · rw [State.Answers, hslots, set_of_ne s p hkj, hlive l hllive, hmade]
      refine hanswers.imp_right ?_
      rintro ⟨e, he, hmine⟩
      exact ⟨e, List.mem_append_left _ he, hmine⟩

theorem parents_exit_iff (hinv : Inv n s) (hinit : InitLives s) (h : Parents n s) {i : Nat} (hi : i < n)
    (h0 : i ≠ 0) (hrun : (s.slots i).state = .RUNNING) :
    Parents n (exit n s i) ↔ ThreadsJoined n s (.exit i) := by
  constructor
  · intro hp j hj hu hparent hpgdir
    obtain ⟨hpid', hparent', hunused', -⟩ := exit_slots (n := n) hrun j
    have hne : (s.slots j).pid ≠ 1 := by
      intro hpid
      have hj0 := hinv.pid_inj j 0 hu hinit.live.1 (hpid.trans hinit.pid.symm)
      rw [hj0, hinit.parent] at hparent
      cases hparent
    obtain ⟨k, -, hk, hlive, -⟩ := hp j hj (mt hunused'.mp hu) (hpid' ▸ hne)
    rw [hparent', if_neg fun hcond => hcond.2 hpgdir, hparent] at hk
    cases hk
    exact ((exit_slots hrun i).2.2.2.mp hlive).2 rfl
  · intro hjoined j hj hu hpid
    obtain ⟨hpid', hparent', hunused', -⟩ := exit_slots (n := n) hrun j
    have hused := mt hunused'.mpr hu
    obtain ⟨k, hk, hparent, hklive, hanswers⟩ := h j hj hused (hpid' ▸ hpid)
    by_cases hki : k = i
    · -- the process is handed over to `init`
      subst hki
      obtain ⟨h0pid, -, -, h0live⟩ := exit_slots (n := n) hrun 0
      refine ⟨0, by omega, ?_, h0live.mpr ⟨hinit.live, Ne.symm h0⟩, .inl (h0pid.trans hinit.pid)⟩
      rw [hparent', if_pos ⟨hparent, hjoined j hj hused hparent⟩]
    · obtain ⟨hkpid, -, -, hklive'⟩ := exit_slots (n := n) hrun k
      refine ⟨k, hk, ?_, hklive'.mpr ⟨hklive, hki⟩, ?_⟩
      · rw [hparent', if_neg fun hcond => hki (Option.some.inj (hparent.symm.trans hcond.1)), hparent]
      · rw [State.Answers, hkpid, hpid']
        exact hanswers

theorem ThreadsJoined.of_ne (ha : ∀ i, a ≠ .exit i) : ThreadsJoined n s a := by
  cases a with
  | exit i => exact absurd rfl (ha i)
  | _ => trivial

/-- **A step keeps the parents** iff it meets the condition. -/
theorem parents_step (hinv : Inv n s) (hinit : InitLives s) (h : Parents n s)
    (hstep : step n s a = some s') : Parents n s' ↔ ThreadsJoined n s a := by
  by_cases ha : ∃ i, a = .exit i
  · obtain ⟨i, rfl⟩ := ha
    rw [step] at hstep
    split at hstep
    · cases hstep
    · next h0 =>
      obtain ⟨hi, hrun, rfl⟩ := when_some hstep
      exact parents_exit_iff hinv hinit h hi h0 hrun
  · have ha : ∀ i, a ≠ .exit i := fun i hi => ha ⟨i, hi⟩
    refine iff_of_true ?_ (.of_ne ha)
    cases step_kin hstep ha with
    | same hslots =>
      refine h.of_kept (fun j _ hu => ?_) (fun k hk => ⟨(hslots k).live.mpr hk, (hslots k).pid⟩) rfl
      exact ⟨mt (hslots j).unused.mpr hu, (hslots j).pid, (hslots j).parent⟩
    | @clear j p _ hdead hp hslots hmade =>
      refine h.of_kept (fun k _ hu => ?_) (fun k hk => ?_) hmade
      · have hkj : k ≠ j := by
          rintro rfl
          rw [hslots, set_self] at hu
          exact hu hp
        rw [hslots, set_of_ne s p hkj] at hu ⊢
        exact ⟨hu, rfl, rfl⟩
      · have hkj : k ≠ j := fun hkj => hdead (hkj ▸ hk)
        rw [hslots, set_of_ne s p hkj]
        exact ⟨hk, rfl⟩
    | make hi hrun hfree hp hpid hparent hslots hmade => exact h.make hi hrun hfree hpid hparent hslots hmade

/-! ## Runs -/

theorem zombie_parent {thread : Bool} {i j : Nat} (h : s.zombie n thread i = some j) :
    (s.slots j).parent = some i := by
  have hj := List.find?_some h
  simp only [State.child, Bool.decide_and, Bool.and_eq_true, decide_eq_true_eq] at hj
  exact hj.1.1

/-- With such parents, `wait` and `join` find the right processes, and all zombies. -/
theorem reapable_iff (hinv : Inv n s) (hinit : InitLives s) : Reapable n s ↔ Parents n s := by
  refine ⟨Reapable.parents, fun h => ⟨h, ?_, ?_⟩⟩
  all_goals
    have hne : ∀ j, (s.slots j).state = .ZOMBIE → (s.slots j).pid ≠ 1 := by
      intro j hzombie hpid
      have hj0 := hinv.pid_inj j 0 (by simp [hzombie]) hinit.live.1 (hpid.trans hinit.pid.symm)
      exact hinit.live.2 (hj0 ▸ hzombie)
  · intro thread i j hfound
    obtain ⟨hj, hzombie, -⟩ := zombie_some hfound
    obtain ⟨k, -, hparent, -, hanswers⟩ := h j hj (by simp [hzombie]) (hne j hzombie)
    obtain rfl := Option.some.inj (hparent.symm.trans (zombie_parent hfound))
    exact hanswers
  · intro j hj hzombie
    obtain ⟨k, hk, hparent, hlive, -⟩ := h j hj (by simp [hzombie]) (hne j hzombie)
    refine ⟨k, hk, hlive, decide ((s.slots j).pgdir = (s.slots k).pgdir), ?_⟩
    simp [State.child, hparent]

/-- **Every process can be reaped in a run** iff no process of the run exits before its threads are joined. -/
theorem reapable_iff_stepsMeet (n : Nat) (l : List Action) :
    Along (step n) (Reapable n) boot l ↔ StepsMeet (step n) (ThreadsJoined n) boot l := by
  refine along_iff_stepsMeet (I := fun s => Inv n s ∧ InitLives s)
    (fun _ _ _ h hstep => ⟨inv_step h.1 hstep, initLives_step h.2 hstep⟩) ?_ ⟨inv_boot n, initLives_boot⟩ ?_
  · intro m a m' h hm hstep
    rw [reapable_iff (inv_step h.1 hstep) (initLives_step h.2 hstep)]
    exact parents_step h.1 h.2 hm.parents hstep
  · rw [reapable_iff (inv_boot n) initLives_boot]
    intro j _ hu hpid
    by_cases hj : j = 0
    · subst hj
      exact absurd rfl hpid
    · exact absurd (by simp [boot, hj]) hu

/-- A process makes a thread and exits, and `init` reaps it; then the thread exits. -/
def leftThread : List Action :=
  [.dispatch 0, .fork 0 .enough, .wait 0, .dispatch 1, .clone 1 .enough, .exit 1, .dispatch 0, .wait 0,
    .dispatch 2, .exit 2]

/-- The thread is a zombie, and its parent is a slot that is not in use. -/
theorem leftThread_not_reapable : ∃ s, run (step 64) boot leftThread = some s ∧
    s.slots 2 = ⟨.ZOMBIE, 3, some 1, none, false, 2, 4096⟩ ∧
    s.slots 1 = ⟨.UNUSED, 0, none, none, false, 0, 4096⟩ ∧ ¬ Reapable 64 s := by
  have hrun : (run (step 64) boot leftThread).map (fun s => (s.slots 2, s.slots 1)) =
      some (⟨.ZOMBIE, 3, some 1, none, false, 2, 4096⟩, ⟨.UNUSED, 0, none, none, false, 0, 4096⟩) := by decide
  obtain ⟨s, hs, heq⟩ := Option.map_eq_some_iff.mp hrun
  obtain ⟨h2, h1⟩ := Prod.mk.inj heq
  refine ⟨s, hs, h2, h1, ?_⟩
  intro h
  obtain ⟨k, -, hparent, hlive, -⟩ := h.parents 2 (by decide) (by simp [h2]) (by simp [h2])
  rw [h2] at hparent
  cases hparent
  rw [h1] at hlive
  exact hlive.1 rfl

end OstepHw.Threads
