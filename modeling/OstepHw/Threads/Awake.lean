import Mathlib.Logic.Relation
import OstepHw.Threads.Wakeup

/-!
# `join` and `wait` do not deadlock

Whoever sleeps in `join` or `wait` waits for a child, which may itself sleep for a child of its own.  As long as every
process joins its threads before it exits, a child is younger than its parent, so the chain ends at a process that is
awake.

* `Descent` — children have higher pids than their parents;
* `descent_step` — a step keeps that, an exit when the threads are joined;
* `sleeper_awaits_awake` — **the chain of children of a sleeper ends at a process that is awake**;
* `adopted_deadlock` — otherwise two processes may sleep for each other.
-/

set_option autoImplicit false

namespace OstepHw.Threads

open Machine

/-- The process in slot `k` is not finished, and slot `i` is its parent. -/
def State.ParentOf (s : State) (i k : Nat) : Prop := (s.slots k).parent = some i ∧ (s.slots k).live

/-- What makes children younger than their parents. -/
structure Descent (n : Nat) (s : State) : Prop where
  inv : Inv n s
  init : InitLives s
  parents : Parents n s
  younger : ∀ e ∈ s.made, e.maker < e.pid

variable {n : Nat} {s s' : State} {a : Action} {l : List Action}

theorem descent_boot (n : Nat) : Descent n boot where
  inv := inv_boot n
  init := initLives_boot
  parents j _ hused hpid := by
    by_cases h0 : j = 0
    · subst h0
      exact absurd rfl hpid
    · exact absurd (by simp [boot, h0]) hused
  younger e he := by
    rw [List.mem_singleton.1 he]
    exact Nat.zero_lt_one

theorem made_exit (n : Nat) (s : State) (i : Nat) : (exit n s i).made = s.made := rfl

theorem younger_step (hinv : Inv n s) (h : ∀ e ∈ s.made, e.maker < e.pid) (hstep : step n s a = some s') :
    ∀ e ∈ s'.made, e.maker < e.pid := by
  by_cases ha : ∃ i, a = .exit i
  · obtain ⟨i, rfl⟩ := ha
    rw [step] at hstep
    split at hstep
    · cases hstep
    · obtain ⟨-, -, rfl⟩ := when_some hstep
      rw [made_exit]
      exact h
  · cases step_kin hstep fun i hi => ha ⟨i, hi⟩ with
    | same => exact h
    | clear hdead hp hslots hmade =>
      rw [hmade]
      exact h
    | make hi hrun hfree hp hpid hparent hslots hmade =>
      intro e he
      rw [hmade] at he
      rcases List.mem_append.1 he with he | he
      · exact h e he
      · rw [List.mem_singleton.1 he]
        exact hinv.pid_lt hrun.1

theorem descent_step (h : Descent n s) (ha : ThreadsJoined n s a) (hstep : step n s a = some s') : Descent n s' where
  inv := inv_step h.inv hstep
  init := initLives_step h.init hstep
  parents := (parents_step h.inv h.init h.parents hstep).2 ha
  younger := younger_step h.inv h.younger hstep

theorem descent_run (h : run (step n) boot l = some s) (hjoined : StepsMeet (step n) (ThreadsJoined n) boot l) :
    Descent n s := by
  refine run_induction (P := fun l s => StepsMeet (step n) (ThreadsJoined n) boot l → Descent n s)
    (fun _ => descent_boot n) (fun l m a m' hrun hm hstep hjoined => ?_) h hjoined
  obtain ⟨hbefore, hthis⟩ := (stepsMeet_concat hrun).1 hjoined
  exact descent_step (hm hbefore) (hthis m' hstep) hstep

/-- A child is younger than its parent. -/
theorem Descent.pid_lt (h : Descent n s) {i k : Nat} (hk : k < n) (hparent : s.ParentOf i k) :
    (s.slots i).pid < (s.slots k).pid := by
  obtain ⟨hparent, hlive⟩ := hparent
  have hne : (s.slots k).pid ≠ 1 := by
    intro hpid
    have hk0 := h.inv.pid_inj k 0 hlive.1 h.init.live.1 (hpid.trans h.init.pid.symm)
    rw [hk0, h.init.parent] at hparent
    cases hparent
  obtain ⟨i', -, hi', -, hanswers⟩ := h.parents k hk hlive.1 hne
  obtain rfl : i = i' := Option.some.inj (hparent.symm.trans hi')
  rcases hanswers with hinit | ⟨e, he, hmine, hmaker⟩
  · obtain ⟨⟨e, he, hmine, -⟩, -⟩ := h.inv.recorded k hlive.1
    have hlt := h.younger e he
    omega
  · rw [← hmine, ← hmaker]
    exact h.younger e he

/-- **Whoever sleeps in `join` or `wait` waits for somebody who is awake**, in every run in which each process joins
its threads before it exits. -/
theorem sleeper_awaits_awake (n : Nat) (l : List Action) (s : State) (h : run (step n) boot l = some s)
    (hjoined : StepsMeet (step n) (ThreadsJoined n) boot l) (i : Nat) (hi : i < n) (hsleeps : s.Sleeps i) :
    ∃ k < n, Relation.TransGen s.ParentOf i k ∧ ¬s.Sleeps k := by
  have hdescent := descent_run h hjoined
  have hwaits := waits_run h
  -- each child in the chain is younger, and no pid has reached `nextpid`
  induction hleft : s.nextpid - (s.slots i).pid using Nat.strongRecOn generalizing i with
  | _ left ih =>
    obtain ⟨thread, -, hexpects⟩ := hwaits.expects i hi hsleeps
    obtain ⟨k, hk, hkid, hlive⟩ := hexpects.child
    have hparent : s.ParentOf i k := ⟨(child_iff.1 hkid).1, hlive⟩
    by_cases hk' : s.Sleeps k
    · have hlt := hdescent.pid_lt hk hparent
      have hbound := hdescent.inv.pid_lt hlive.1
      obtain ⟨m, hm, hchain, hawake⟩ := ih _ (by omega) k hk hk' rfl
      exact ⟨m, hm, .head hparent hchain, hawake⟩
    · exact ⟨k, hk, .single hparent, hk'⟩

/-- `init` waits for a process that joins its thread, which runs. -/
theorem twoSleepers_await : ∃ s, run (step 64) boot twoSleepers = some s ∧ s.Sleeps 0 ∧
    ∃ k < 64, Relation.TransGen s.ParentOf 0 k ∧ ¬s.Sleeps k := by
  have hrun : (run (step 64) boot twoSleepers).map (fun s => s.slots 0) =
      some ⟨.SLEEPING, 1, none, some 0, false, 1, 4096⟩ := by decide
  obtain ⟨s, hs, h0⟩ := Option.map_eq_some_iff.1 hrun
  have hsleeps : s.Sleeps 0 := by simp [State.Sleeps, h0]
  -- nobody exits
  have hjoined : StepsMeet (step 64) (ThreadsJoined 64) boot twoSleepers :=
    fun _ _ => ⟨trivial, fun _ _ => ⟨trivial, fun _ _ => ⟨trivial, fun _ _ => ⟨trivial, fun _ _ =>
      ⟨trivial, fun _ _ => ⟨trivial, trivial⟩⟩⟩⟩⟩⟩
  exact ⟨s, hs, hsleeps, sleeper_awaits_awake 64 twoSleepers s hs hjoined 0 (by decide) hsleeps⟩

/-- A process exits before its thread; the thread makes a process, which gets the slot of its former parent, and so
becomes its parent. -/
def adopted : List Action :=
  [.dispatch 0, .fork 0 .enough, .dispatch 1, .clone 1 .enough, .exit 1, .wait 0, .dispatch 2, .fork 2 .enough,
    .dispatch 1, .wait 1, .wait 2]

/-- The two sleep for each other. -/
theorem adopted_deadlock : (run (step 64) boot adopted).map (fun s => (s.slots 1, s.slots 2)) =
    some (⟨.SLEEPING, 4, some 2, some 1, false, 3, 4096⟩, ⟨.SLEEPING, 3, some 1, some 2, false, 2, 4096⟩) := by
  decide

end OstepHw.Threads
