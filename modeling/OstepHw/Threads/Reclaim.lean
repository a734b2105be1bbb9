import OstepHw.Threads.Kernel
import Mathlib.Data.List.Nodup

/-!
# Page directories are freed

A page directory is shared by the threads of a process and has no reference count: `wait` frees the
directory of the child it reaps when no other slot of the table has it.  `wait` clears the `pgdir` of the
slot, `join` does not, and a slot that `join` has given back still counts as a reference until it is taken
again.

* `Reclaims` — what the kernel has to achieve;
* `Tracked`, `Inv`, `inv_step` — which processes have which directories, in every state;
* `freed_once` — `freevm` is called once for a directory and when no slot has it, in every run;
* `reclaims_iff_stepsMeet` — in which runs every directory is freed;
* `joinedThread_not_reclaims` — a process with one thread, which it joins, leaks its directory.
-/

set_option autoImplicit false

namespace OstepHw.Threads

open Machine

/-- The directories that were freed are the ones that should be. -/
structure Reclaims (n : Nat) (s : State) : Prop where
  /-- None is in use: in the state after `freevm` and in all later ones. -/
  idle : ∀ d ∈ s.freed, ∀ j < n, (s.slots j).live → (s.slots j).pgdir ≠ d
  once : s.freed.Nodup
  created : ∀ d ∈ s.freed, ∃ e ∈ s.made, e.pgdir = d
  /-- None is forgotten when all its processes are reaped. -/
  all : ∀ e ∈ s.made, (∀ e' ∈ s.made, e'.pgdir = e.pgdir → e'.pid ∈ s.reaped) → e.pgdir ∈ s.freed

/-- When `wait` reaps the last process with some directory, no slot that was given back has it. -/
def LastIsClean (n : Nat) (s : State) : Action → Prop
  | .wait i => ∀ j, s.zombie n false i = some j →
      (∀ q < n, q ≠ j → (s.slots q).pgdir = (s.slots j).pgdir → (s.slots q).state = .UNUSED) →
      ∀ q < n, q ≠ j → (s.slots q).pgdir ≠ (s.slots j).pgdir
  | _ => True

/-! ## The invariant -/

/-- The processes in the table are the ones that were made and not reaped. -/
structure Tracked (s : State) : Prop where
  made_lt : ∀ e ∈ s.made, e.pid < s.nextpid
  reaped_lt : ∀ pid ∈ s.reaped, pid < s.nextpid
  recorded : ∀ j, (s.slots j).state ≠ .UNUSED →
    (∃ e ∈ s.made, e.pid = (s.slots j).pid ∧ e.pgdir = (s.slots j).pgdir) ∧ (s.slots j).pid ∉ s.reaped
  present : ∀ e ∈ s.made, e.pid ∈ s.reaped ∨
    ∃ j, (s.slots j).state ≠ .UNUSED ∧ (s.slots j).pid = e.pid ∧ (s.slots j).pgdir = e.pgdir
  pid_inj : ∀ j k, (s.slots j).state ≠ .UNUSED → (s.slots k).state ≠ .UNUSED →
    (s.slots j).pid = (s.slots k).pid → j = k

structure Inv (n : Nat) (s : State) : Prop extends Tracked s where
  outside : ∀ j, n ≤ j → 0 < j → (s.slots j).pgdir = 0
  pgdir_lt : ∀ j, (s.slots j).pgdir < s.nextpgdir
  made_pgdir : ∀ e ∈ s.made, 0 < e.pgdir ∧ e.pgdir < s.nextpgdir
  freed_made : ∀ d ∈ s.freed, ∃ e ∈ s.made, e.pgdir = d
  /-- Not even a slot that was given back has a freed directory. -/
  unfreed : ∀ j, (s.slots j).pgdir ∉ s.freed
  freed_nodup : s.freed.Nodup

theorem inv_boot (n : Nat) : Inv n boot where
  made_lt := by simp [boot]
  reaped_lt := by simp [boot]
  recorded j hj := by
    by_cases h : j = 0
    · simp [boot, h]
    · simp [boot, h] at hj
  present e he := by
    refine .inr ⟨0, ?_⟩
    simp only [boot, List.mem_singleton] at he
    simp [boot, he]
  pid_inj j k hj hk _ := by
    by_cases h : j = 0 <;> by_cases h' : k = 0 <;> simp_all [boot]
  outside j _ hj := by simp [boot, Nat.ne_of_gt hj]
  pgdir_lt j := by
    show (if j = 0 then _ else _ : Proc).pgdir < 2
    split <;> decide
  made_pgdir := by simp [boot]
  freed_made := by simp [boot]
  unfreed := by simp [boot]
  freed_nodup := List.nodup_nil

variable {n : Nat} {s s' : State}

theorem Tracked.pid_lt (h : Tracked s) {j : Nat} (hj : (s.slots j).state ≠ .UNUSED) :
    (s.slots j).pid < s.nextpid := by
  obtain ⟨⟨e, he, hpid, -⟩, -⟩ := h.recorded j hj
  exact hpid ▸ h.made_lt e he

/-- The directory of a process is not the null pointer. -/
theorem Inv.pgdir_pos (h : Inv n s) {j : Nat} (hj : (s.slots j).state ≠ .UNUSED) :
    0 < (s.slots j).pgdir := by
  obtain ⟨⟨e, he, -, hdir⟩, -⟩ := h.recorded j hj
  exact hdir ▸ (h.made_pgdir e he).1

theorem Inv.zero_not_freed (h : Inv n s) : 0 ∉ s.freed := by
  intro h0
  obtain ⟨e, he, hzero⟩ := h.freed_made 0 h0
  exact absurd hzero (Nat.ne_of_gt (h.made_pgdir e he).1)

/-- Slots that keep their processes and directories keep the invariant. -/
theorem Inv.same (h : Inv n s) {slots : Nat → Proc}
    (hpid : ∀ j, (slots j).pid = (s.slots j).pid) (hpgdir : ∀ j, (slots j).pgdir = (s.slots j).pgdir)
    (hunused : ∀ j, (slots j).state = .UNUSED ↔ (s.slots j).state = .UNUSED) :
    Inv n { s with slots := slots } where
  made_lt := h.made_lt
  reaped_lt := h.reaped_lt
  recorded j hj := by rw [hpid, hpgdir]; exact h.recorded j (mt (hunused j).mpr hj)
  present e he := by simp only [ne_eq, hunused, hpid, hpgdir]; exact h.present e he
  pid_inj j k hj hk := by rw [hpid, hpid]; exact h.pid_inj j k (mt (hunused j).mpr hj) (mt (hunused k).mpr hk)
  outside j hj h0 := by rw [hpgdir, h.outside j hj h0]
  pgdir_lt j := by rw [hpgdir]; exact h.pgdir_lt j
  made_pgdir := h.made_pgdir
  freed_made := h.freed_made
  unfreed j := by rw [hpgdir]; exact h.unfreed j
  freed_nodup := h.freed_nodup

/-! ## A slot is given back -/

theorem Tracked.clear (h : Tracked s) {j nextpid : Nat} {p : Proc} {reaped : List Nat}
    (hp : p.state = .UNUSED) (hnext : s.nextpid ≤ nextpid)
    (hreaped : ∀ pid, pid ∈ reaped ↔
      pid ∈ s.reaped ∨ (s.slots j).state ≠ .UNUSED ∧ pid = (s.slots j).pid) :
    Tracked { s.set j p with nextpid := nextpid, reaped := reaped } := by
  -- the processes that stay are in other slots
  have hstay : ∀ k, ((s.set j p).slots k).state ≠ .UNUSED →
      k ≠ j ∧ (s.set j p).slots k = s.slots k ∧ (s.slots k).state ≠ .UNUSED := by
    intro k hk
    have hne : k ≠ j := by
      rintro rfl
      rw [set_self] at hk
      exact hk hp
    rw [set_of_ne s p hne] at hk ⊢
    exact ⟨hne, rfl, hk⟩
  refine ⟨fun e he => Nat.lt_of_lt_of_le (h.made_lt e he) hnext, ?_, ?_, ?_, ?_⟩
  · intro pid hpid
    refine Nat.lt_of_lt_of_le ?_ hnext
    rcases (hreaped pid).mp hpid with hold | ⟨hu, rfl⟩
    · exact h.reaped_lt pid hold
    · exact h.pid_lt hu
  · intro k hk
    obtain ⟨hne, heq, hu⟩ := hstay k hk
    show (∃ e ∈ s.made, e.pid = ((s.set j p).slots k).pid ∧ _) ∧ _ ∉ reaped
    rw [heq, hreaped]
    refine ⟨(h.recorded k hu).1, ?_⟩
    rintro (hold | ⟨huj, hpid⟩)
    · exact (h.recorded k hu).2 hold
    · exact hne (h.pid_inj k j hu huj hpid)
  · intro e he
    show e.pid ∈ reaped ∨ ∃ k, ((s.set j p).slots k).state ≠ .UNUSED ∧ _
    rw [hreaped]
    rcases h.present e he with hold | ⟨k, hu, hpid, hpgdir⟩
    · exact .inl (.inl hold)
    · by_cases hk : k = j
      · subst hk
        exact .inl (.inr ⟨hu, hpid.symm⟩)
      · refine .inr ⟨k, ?_⟩
        rw [set_of_ne s p hk]
        exact ⟨hu, hpid, hpgdir⟩
  · intro k l hk hl hpid
    obtain ⟨-, hkeq, hku⟩ := hstay k hk
    obtain ⟨-, hleq, hlu⟩ := hstay l hl
    have hpid : ((s.set j p).slots k).pid = ((s.set j p).slots l).pid := hpid
    rw [hkeq, hleq] at hpid
    exact h.pid_inj k l hku hlu hpid

/-- The slot keeps its directory, as in `join`, or loses it. -/
theorem Inv.clear (h : Inv n s) {j nextpid : Nat} {p : Proc} {reaped : List Nat} (hj : j < n)
    (hp : p.state = .UNUSED) (hdir : p.pgdir = (s.slots j).pgdir ∨ p.pgdir = 0)
    (hnext : s.nextpid ≤ nextpid)
    (hreaped : ∀ pid, pid ∈ reaped ↔
      pid ∈ s.reaped ∨ (s.slots j).state ≠ .UNUSED ∧ pid = (s.slots j).pid) :
    Inv n { s.set j p with nextpid := nextpid, reaped := reaped } := by
  refine ⟨h.toTracked.clear hp hnext hreaped, ?_, ?_, h.made_pgdir, h.freed_made, ?_, h.freed_nodup⟩
  · refine (forall_set fun k q => n ≤ k → 0 < k → q.pgdir = 0).mpr ⟨?_, fun k _ => h.outside k⟩
    intro hn
    omega
  · refine (forall_set fun _ q => q.pgdir < s.nextpgdir).mpr ⟨?_, fun k _ => h.pgdir_lt k⟩
    have hlt := h.pgdir_lt j
    show p.pgdir < s.nextpgdir
    omega
  · refine (forall_set fun _ q => q.pgdir ∉ s.freed).mpr ⟨?_, fun k _ => h.unfreed k⟩
    rcases hdir with hdir | hdir
    · rw [hdir]
      exact h.unfreed j
    · rw [hdir]
      exact h.zero_not_freed

/-- `freevm` of a directory that no slot has. -/
theorem Inv.freevm (h : Inv n s) {d : Nat} (hmade : ∃ e ∈ s.made, e.pgdir = d) (hnew : d ∉ s.freed)
    (hnone : ∀ j, (s.slots j).pgdir ≠ d) : Inv n { s with freed := s.freed ++ [d] } :=
  { h with
    freed_made := by
      intro d' hd'
      rcases List.mem_append.mp hd' with hold | hlast
      · exact h.freed_made d' hold
      · rw [List.mem_singleton.mp hlast]
        exact hmade
    unfreed := by
      intro j hj
      rcases List.mem_append.mp hj with hold | hlast
      · exact h.unfreed j hold
      · exact hnone j (List.mem_singleton.mp hlast)
    freed_nodup := by
      rw [List.nodup_append]
      refine ⟨h.freed_nodup, List.nodup_singleton d, ?_⟩
      intro d' hd' e he
      rw [List.mem_singleton.mp he]
      exact fun heq => hnew (heq ▸ hd') }

/-! ## A process is made -/

theorem Tracked.make (h : Tracked s) {j nextpgdir maker : Nat} {p : Proc}
    (hfree : (s.slots j).state = .UNUSED) (hp : p.state ≠ .UNUSED) (hpid : p.pid = s.nextpid) :
    Tracked { s.set j p with
      nextpid := s.nextpid + 1
      nextpgdir := nextpgdir
      made := s.made ++ [⟨s.nextpid, maker, p.pgdir⟩] } := by
  have hothers : ∀ k, (s.slots k).state ≠ .UNUSED → (s.slots k).pid ≠ p.pid := by
    intro k hu
    exact hpid ▸ Nat.ne_of_lt (h.pid_lt hu)
  refine ⟨?_, fun pid hmem => Nat.lt_succ_of_lt (h.reaped_lt pid hmem), ?_, ?_, ?_⟩
  · refine List.forall_mem_append.mpr ⟨fun e he => Nat.lt_succ_of_lt (h.made_lt e he), ?_⟩
    exact List.forall_mem_singleton.mpr (Nat.lt_succ_self _)
  · refine (forall_set fun _ q => q.state ≠ .UNUSED → (∃ e ∈ s.made ++ [⟨s.nextpid, maker, p.pgdir⟩],
      e.pid = q.pid ∧ e.pgdir = q.pgdir) ∧ q.pid ∉ s.reaped).mpr ⟨fun _ => ⟨?_, ?_⟩, fun k _ hu => ?_⟩
    · exact ⟨_, List.mem_append_right _ (List.mem_singleton_self _), hpid.symm, rfl⟩
    · intro hreaped
      have := h.reaped_lt p.pid hreaped
      omega
    · obtain ⟨⟨e, he, heq⟩, hnot⟩ := h.recorded k hu
      exact ⟨⟨e, List.mem_append_left _ he, heq⟩, hnot⟩
  · refine List.forall_mem_append.mpr ⟨fun e he => ?_, List.forall_mem_singleton.mpr (.inr ⟨j, ?_⟩)⟩
    · refine (h.present e he).imp_right ?_
      rintro ⟨k, hu, heq⟩
      refine ⟨k, ?_⟩
      show ((s.set j p).slots k).state ≠ .UNUSED ∧ _
      rw [set_of_used p hfree hu]
      exact ⟨hu, heq⟩
    · show ((s.set j p).slots j).state ≠ .UNUSED ∧ ((s.set j p).slots j).pid = _ ∧
        ((s.set j p).slots j).pgdir = _
      rw [set_self]
      exact ⟨hp, hpid, rfl⟩
  · refine (forall_set fun k q => ∀ l, q.state ≠ .UNUSED → ((s.set j p).slots l).state ≠ .UNUSED →
      q.pid = ((s.set j p).slots l).pid → k = l).mpr ⟨?_, fun k _ => ?_⟩
    · refine (forall_set fun l q => p.state ≠ .UNUSED → q.state ≠ .UNUSED → p.pid = q.pid → j = l).mpr
        ⟨fun _ _ _ => rfl, fun l _ _ hu heq => ?_⟩
      exact absurd heq.symm (hothers l hu)
    · refine (forall_set fun l q => (s.slots k).state ≠ .UNUSED → q.state ≠ .UNUSED →
        (s.slots k).pid = q.pid → k = l).mpr ⟨fun hu _ heq => ?_, fun l _ => h.pid_inj k l⟩
      exact absurd heq (hothers k hu)

/-- The directory is new, or that of another process. -/
theorem Inv.make (h : Inv n s) {j nextpgdir maker : Nat} {p : Proc} (hj : j < n)
    (hfree : (s.slots j).state = .UNUSED) (hp : p.state ≠ .UNUSED) (hpid : p.pid = s.nextpid)
    (hpgdir : 0 < p.pgdir ∧ p.pgdir < nextpgdir) (hnext : s.nextpgdir ≤ nextpgdir)
    (hunfreed : p.pgdir ∉ s.freed) :
    Inv n { s.set j p with
      nextpid := s.nextpid + 1
      nextpgdir := nextpgdir
      made := s.made ++ [⟨s.nextpid, maker, p.pgdir⟩] } := by
  refine ⟨h.toTracked.make hfree hp hpid, ?_, ?_, ?_, ?_, ?_, h.freed_nodup⟩
  · refine (forall_set fun k q => n ≤ k → 0 < k → q.pgdir = 0).mpr ⟨?_, fun k _ => h.outside k⟩
    intro hn
    omega
  · exact (forall_set fun _ q => q.pgdir < nextpgdir).mpr
      ⟨hpgdir.2, fun k _ => Nat.lt_of_lt_of_le (h.pgdir_lt k) hnext⟩
  · refine List.forall_mem_append.mpr ⟨fun e he => ?_, List.forall_mem_singleton.mpr hpgdir⟩
    exact ⟨(h.made_pgdir e he).1, Nat.lt_of_lt_of_le (h.made_pgdir e he).2 hnext⟩
  · intro d hd
    obtain ⟨e, he, heq⟩ := h.freed_made d hd
    exact ⟨e, List.mem_append_left _ he, heq⟩
  · exact (forall_set fun _ q => q.pgdir ∉ s.freed).mpr ⟨hunfreed, fun k _ => h.unfreed k⟩

/-! ## Steps -/

/-- `wait` frees a directory only when no slot at all has it. -/
theorem lastRef_range_iff (h : Inv n s) {j : Nat} (hj : j < n) (hused : (s.slots j).state ≠ .UNUSED) :
    lastRef s.slots j (List.range n) (some j) = some j ↔
      ∀ q, q ≠ j → (s.slots q).pgdir ≠ (s.slots j).pgdir := by
  rw [lastRef_eq_iff]
  simp only [true_and, List.mem_range]
  refine ⟨fun hall q hq => ?_, fun hall q _ => hall q⟩
  by_cases hn : q < n
  · exact hall q hn hq
  · rw [h.outside q (by omega) (by omega)]
    exact Nat.ne_of_lt (h.pgdir_pos hused)

theorem Inv.growproc (h : Inv n s) (i : Nat) (k : Int) (result : Nat) :
    Inv n (growproc s i k result) := by
  by_cases hfail : k ≠ 0 ∧ result = 0
  · rw [growproc_fails hfail]
    exact h
  · rw [growproc_succeeds hfail]
    refine h.same ?_ ?_ ?_
    all_goals
      intro j
      dsimp only
      split <;> rfl

/-- **Every step keeps the invariant.** -/
theorem inv_step {a : Action} (h : Inv n s) (hstep : step n s a = some s') : Inv n s' := by
  cases step_effect hstep with
  | same _ hslots =>
    exact h.same (fun j => (hslots j).pid) (fun j => (hslots j).pgdir) (fun j => (hslots j).unused)
  | waste _ hj hfree hp hdir =>
    exact h.clear hj hp hdir (Nat.le_succ _) (fun pid => by simp [State.set, hfree])
  | @make _ i j nextpgdir p _ hi hrun hj hfree hp hpid hdir =>
    have hpos : 0 < s.nextpgdir := Nat.lt_of_le_of_lt (Nat.zero_le _) (h.pgdir_lt j)
    have hi : 0 < (s.slots i).pgdir := h.pgdir_pos (by simp [hrun])
    have hlt := h.pgdir_lt i
    have hunfreed : p.pgdir ∉ s.freed := by
      rcases hdir with ⟨hdir, -⟩ | ⟨hdir, -⟩
      · intro hd
        obtain ⟨e, he, heq⟩ := h.freed_made _ hd
        have := (h.made_pgdir e he).2
        omega
      · rw [hdir]
        exact h.unfreed i
    exact h.make hj hfree (by simp [hp]) hpid (by omega) (by omega) hunfreed
  | grow hi hrun => exact h.growproc ..
  | join hi hj hzombie hdir =>
    exact h.clear hj rfl (.inl rfl) (Nat.le_refl _) (fun pid => by simp [hzombie])
  | @wait i j hfound hj hzombie =>
    have hused : (s.slots j).state ≠ .UNUSED := by simp [hzombie]
    have hclear : Inv n { s.set j { (s.slots j).release with pgdir := 0 } with
        reaped := s.reaped ++ [(s.slots j).pid] } :=
      h.clear hj rfl (.inr rfl) (Nat.le_refl _) (fun pid => by simp [hzombie])
    by_cases hlast : lastRef s.slots j (List.range n) (some j) = some j
    · rw [if_pos hlast]
      obtain ⟨⟨e, he, -, hdir⟩, -⟩ := h.recorded j hused
      refine hclear.freevm ⟨e, he, hdir⟩ (h.unfreed j) ?_
      refine (forall_set fun _ q => q.pgdir ≠ (s.slots j).pgdir).mpr
        ⟨Nat.ne_of_lt (h.pgdir_pos hused), (lastRef_range_iff h hj hused).mp hlast⟩
    · rw [if_neg hlast]
      exact hclear

/-- **What is freed is out of use**, and is freed once, in every state that can be reached. -/
theorem freed_once (h : Reaches (step n) boot s) :
    s.freed.Nodup ∧ ∀ d ∈ s.freed, (∃ e ∈ s.made, e.pgdir = d) ∧ ∀ j, (s.slots j).pgdir ≠ d := by
  have hinv : Inv n s := invariant (inv_boot n) (fun _ _ _ => inv_step) h
  exact ⟨hinv.freed_nodup, fun d hd => ⟨hinv.freed_made d hd, fun j heq => hinv.unfreed j (heq ▸ hd)⟩⟩

/-! ## Freeing all -/

/-- `Reclaims.all` on the table: a directory that no process has is freed. -/
def Complete (s : State) : Prop :=
  ∀ e ∈ s.made, (∀ j, (s.slots j).state ≠ .UNUSED → (s.slots j).pgdir ≠ e.pgdir) → e.pgdir ∈ s.freed

theorem allReaped_iff (h : Inv n s) {d : Nat} :
    (∀ e ∈ s.made, e.pgdir = d → e.pid ∈ s.reaped) ↔
      ∀ j, (s.slots j).state ≠ .UNUSED → (s.slots j).pgdir ≠ d := by
  constructor
  · intro hall j hj hd
    obtain ⟨⟨e, he, hpid, hdir⟩, hnot⟩ := h.recorded j hj
    exact hnot (hpid ▸ hall e he (hdir.trans hd))
  · intro hnone e he hd
    rcases h.present e he with hreaped | ⟨j, hj, -, hdir⟩
    · exact hreaped
    · exact absurd (hdir.trans hd) (hnone j hj)

theorem reclaims_iff (h : Inv n s) : Reclaims n s ↔ Complete s := by
  constructor
  · intro hr e he hnone
    exact hr.all e he ((allReaped_iff h).mpr hnone)
  · intro hc
    refine ⟨fun d hd j _ _ heq => h.unfreed j (heq ▸ hd), h.freed_nodup, h.freed_made, ?_⟩
    intro e he hall
    exact hc e he ((allReaped_iff h).mp hall)

/-- A step after which every directory that had a process still has one. -/
theorem Complete.mono (h : Complete s) (hfreed : s'.freed = s.freed)
    (hmade : ∀ e ∈ s'.made, e ∈ s.made ∨ ∃ j, (s'.slots j).state ≠ .UNUSED ∧ (s'.slots j).pgdir = e.pgdir)
    (hslots : ∀ j, (s.slots j).state ≠ .UNUSED →
      ∃ k, (s'.slots k).state ≠ .UNUSED ∧ (s'.slots k).pgdir = (s.slots j).pgdir) : Complete s' := by
  intro e he hnone
  rw [hfreed]
  rcases hmade e he with he | ⟨j, hj, hdir⟩
  · refine h e he fun j hj hdir => ?_
    obtain ⟨k, hk, heq⟩ := hslots j hj
    exact hnone k hk (heq.trans hdir)
  · exact absurd hdir (hnone j hj)

theorem Complete.growproc (h : Complete s) (i : Nat) (k : Int) (result : Nat) :
    Complete (growproc s i k result) := by
  by_cases hfail : k ≠ 0 ∧ result = 0
  · rw [growproc_fails hfail]
    exact h
  · rw [growproc_succeeds hfail]
    refine h.mono rfl (fun e he => .inl he) fun j hj => ⟨j, ?_⟩
    dsimp only
    split <;> exact ⟨hj, rfl⟩

/-- `join` leaves a process with the directory: the caller. -/
theorem Complete.join (h : Complete s) {i j : Nat} (hi : (s.slots i).state = .RUNNING)
    (hzombie : (s.slots j).state = .ZOMBIE) (hdir : (s.slots j).pgdir = (s.slots i).pgdir) :
    Complete { s.set j (s.slots j).release with reaped := s.reaped ++ [(s.slots j).pid] } := by
  have hij : i ≠ j := by
    rintro rfl
    rw [hi] at hzombie
    cases hzombie
  refine h.mono rfl (fun e he => .inl he) fun k hk => ?_
  by_cases hkj : k = j
  · subst hkj
    refine ⟨i, ?_⟩
    show ((s.set k (s.slots k).release).slots i).state ≠ .UNUSED ∧ _
    rw [set_of_ne s _ hij]
    exact ⟨by simp [hi], hdir.symm⟩
  · refine ⟨k, ?_⟩
    show ((s.set j (s.slots j).release).slots k).state ≠ .UNUSED ∧ _
    rw [set_of_ne s _ hkj]
    exact ⟨hk, rfl⟩

/-- `LastIsClean` for the slot that `wait` finds. -/
theorem lastIsClean_wait_iff (hi : Inv n s) {i j : Nat} (hfound : s.zombie n false i = some j) (hj : j < n)
    (hused : (s.slots j).state ≠ .UNUSED) :
    LastIsClean n s (.wait i) ↔
      ((∀ q, q ≠ j → (s.slots q).state ≠ .UNUSED → (s.slots q).pgdir ≠ (s.slots j).pgdir) →
        lastRef s.slots j (List.range n) (some j) = some j) := by
  have hpos := hi.pgdir_pos hused
  have hlast : (∀ q < n, q ≠ j → (s.slots q).pgdir = (s.slots j).pgdir → (s.slots q).state = .UNUSED) ↔
      ∀ q, q ≠ j → (s.slots q).state ≠ .UNUSED → (s.slots q).pgdir ≠ (s.slots j).pgdir := by
    constructor
    · intro h q hq hu heq
      by_cases hn : q < n
      · exact hu (h q hn hq heq)
      · have := hi.outside q (by omega) (by omega)
        omega
    · intro h q _ hq heq
      by_contra hu
      exact h q hq hu heq
  simp only [LastIsClean, hfound, Option.some.injEq, forall_eq', hlast, lastRef_eq_iff, true_and,
    List.mem_range]

theorem complete_wait_iff (hi : Inv n s) (h : Complete s) {i j : Nat}
    (hfound : s.zombie n false i = some j) (hj : j < n) (hzombie : (s.slots j).state = .ZOMBIE) :
    Complete { s.set j { (s.slots j).release with pgdir := 0 } with
      reaped := s.reaped ++ [(s.slots j).pid]
      freed :=
        if lastRef s.slots j (List.range n) (some j) = some j then s.freed ++ [(s.slots j).pgdir]
        else s.freed } ↔ LastIsClean n s (.wait i) := by
  have hused : (s.slots j).state ≠ .UNUSED := by simp [hzombie]
  rw [lastIsClean_wait_iff hi hfound hj hused]
  have hnone : ∀ d, (∀ k, ((s.set j { (s.slots j).release with pgdir := 0 }).slots k).state ≠ .UNUSED →
      ((s.set j { (s.slots j).release with pgdir := 0 }).slots k).pgdir ≠ d) ↔
      ∀ k, k ≠ j → (s.slots k).state ≠ .UNUSED → (s.slots k).pgdir ≠ d := by
    intro d
    rw [forall_set fun _ q => q.state ≠ .UNUSED → q.pgdir ≠ d]
    simp [Proc.release]
  constructor
  · intro hc hothers
    obtain ⟨⟨e, he, -, hdir⟩, -⟩ := hi.recorded j hused
    have hfreed := hc e he ((hnone _).mpr (hdir ▸ hothers))
    by_contra hlast
    dsimp only at hfreed
    rw [if_neg hlast, hdir] at hfreed
    exact hi.unfreed j hfreed
  · intro hlast e he hothers
    have hothers := (hnone _).mp hothers
    dsimp only
    by_cases hdir : e.pgdir = (s.slots j).pgdir
    · rw [if_pos (hlast (hdir ▸ hothers)), hdir]
      exact List.mem_append_right _ (List.mem_singleton_self _)
    · have hfreed : e.pgdir ∈ s.freed := by
        refine h e he fun k hk => ?_
        by_cases hkj : k = j
        · rw [hkj]
          exact Ne.symm hdir
        · exact hothers k hkj hk
      split
      · exact List.mem_append_left _ hfreed
      · exact hfreed

theorem Quiet.lastIsClean {a : Action} (h : Quiet n s a) : LastIsClean n s a := by
  cases a with
  | wait i =>
    intro j hj
    have hnone : s.zombie n false i = none := h
    rw [hnone] at hj
    cases hj
  | _ => trivial

/-- **A step keeps `Complete`** iff it meets the condition. -/
theorem complete_step {a : Action} (hi : Inv n s) (h : Complete s) (hstep : step n s a = some s') :
    Complete s' ↔ LastIsClean n s a := by
  cases step_effect hstep with
  | same ha hslots =>
    refine iff_of_true (h.mono rfl (fun e he => .inl he) fun j hj => ⟨j, ?_⟩) ha.lastIsClean
    exact ⟨mt (hslots j).unused.mp hj, (hslots j).pgdir⟩
  | @waste _ j p ha _ hfree _ _ =>
    refine iff_of_true (h.mono rfl (fun e he => .inl he) fun k hk => ⟨k, ?_⟩) ha.lastIsClean
    show ((s.set j p).slots k).state ≠ .UNUSED ∧ ((s.set j p).slots k).pgdir = _
    rw [set_of_used p hfree hk]
    exact ⟨hk, rfl⟩
  | @make _ i j _ p ha _ _ _ hfree hp _ _ =>
    refine iff_of_true (h.mono rfl (fun e he => ?_) fun k hk => ⟨k, ?_⟩) ha.lastIsClean
    · rcases List.mem_append.mp he with he | he
      · exact .inl he
      · refine .inr ⟨j, ?_⟩
        rw [List.mem_singleton.mp he]
        show ((s.set j p).slots j).state ≠ .UNUSED ∧ ((s.set j p).slots j).pgdir = _
        rw [set_self]
        exact ⟨by simp [hp], rfl⟩
    · show ((s.set j p).slots k).state ≠ .UNUSED ∧ ((s.set j p).slots k).pgdir = _
      rw [set_of_used p hfree hk]
      exact ⟨hk, rfl⟩
  | grow => exact iff_of_true (h.growproc _ _ _) trivial
  | join hrun _ hzombie hdir => exact iff_of_true (h.join hrun hzombie hdir) trivial
  | wait hfound hj hzombie => exact complete_wait_iff hi h hfound hj hzombie

/-- **Page directories are freed in a run** iff `wait` never finds the directory of a last process in a
slot that `join` has given back. -/
theorem reclaims_iff_stepsMeet (n : Nat) (l : List Action) :
    Along (step n) (Reclaims n) boot l ↔ StepsMeet (step n) (LastIsClean n) boot l := by
  refine along_iff_stepsMeet (fun _ _ _ => inv_step) ?_ (inv_boot n) ?_
  · intro m a m' hi hm hstep
    rw [reclaims_iff (inv_step hi hstep)]
    exact complete_step hi ((reclaims_iff hi).mp hm) hstep
  · rw [reclaims_iff (inv_boot n)]
    intro e he hnone
    rw [List.mem_singleton.mp he] at hnone
    exact absurd rfl (hnone 0 (by decide))

/-- `init` forks a process and waits; the process makes a thread, joins it, and exits. -/
def joinedThread : List Action :=
  [.dispatch 0, .fork 0 .enough, .wait 0, .dispatch 1, .clone 1 .enough, .join 1, .dispatch 2, .exit 2,
    .dispatch 1, .join 1, .exit 1, .dispatch 0, .wait 0]

/-- The two processes with directory 2 are reaped and nothing has been freed. -/
theorem joinedThread_not_reclaims : ∃ s, run (step 64) boot joinedThread = some s ∧
    s.made = [⟨1, 0, 1⟩, ⟨2, 1, 2⟩, ⟨3, 2, 2⟩] ∧ s.reaped = [3, 2] ∧ s.freed = [] ∧ ¬ Reclaims 64 s := by
  have hrun : (run (step 64) boot joinedThread).map (fun s => (s.made, s.reaped, s.freed)) =
      some ([⟨1, 0, 1⟩, ⟨2, 1, 2⟩, ⟨3, 2, 2⟩], [3, 2], []) := by decide
  obtain ⟨s, hs, heq⟩ := Option.map_eq_some_iff.mp hrun
  obtain ⟨hmade, heq⟩ := Prod.mk.inj heq
  obtain ⟨hreaped, hfreed⟩ := Prod.mk.inj heq
  refine ⟨s, hs, hmade, hreaped, hfreed, ?_⟩
  intro h
  have hall := h.all ⟨2, 1, 2⟩ (by simp [hmade]) (by simp [hmade, hreaped])
  rw [hfreed] at hall
  cases hall

end OstepHw.Threads
