import OstepHw.Threads.Reclaim

/-!
# The size of an address space

Each slot has its own copy of the size of its address space.  `growproc` hands a new size to the slots
that have the caller as parent and share its page directory: to the threads that the caller has made, but
not to the process that has made the caller, nor to other threads of that process.

* `Agree` — processes with one page directory have one size;
* `agree_step` — which steps keep it;
* `agree_iff_stepsMeet` — in which runs the sizes agree throughout;
* `growingThread_not_agree` — a thread that grows leaves the process behind.
-/

set_option autoImplicit false

namespace OstepHw.Threads

open Machine

/-- Processes that share a page directory have the same size. -/
def Agree (n : Nat) (s : State) : Prop :=
  ∀ j < n, ∀ k < n, (s.slots j).live → (s.slots k).live → (s.slots j).pgdir = (s.slots k).pgdir →
    (s.slots j).sz = (s.slots k).sz

/-- A size that changes reaches all that share the page directory: the caller of `growproc` has made all of
them. -/
def ReachesAll (n : Nat) (s : State) : Action → Prop
  | .growproc i k result => k = 0 ∨ result = 0 ∨ result = (s.slots i).sz ∨
      ∀ q < n, q ≠ i → (s.slots q).live → (s.slots q).pgdir = (s.slots i).pgdir → (s.slots q).parent = some i
  | _ => True

variable {n : Nat} {s s' : State}

/-- One slot changes. -/
theorem Agree.set (h : Agree n s) {j : Nat} {p : Proc}
    (hp : ∀ k < n, k ≠ j → p.live → (s.slots k).live → (s.slots k).pgdir = p.pgdir →
      (s.slots k).sz = p.sz) : Agree n (s.set j p) := by
  intro k hk l hl
  by_cases hkj : k = j
  · subst hkj
    rw [set_self]
    by_cases hlk : l = k
    · subst hlk
      rw [set_self]
      exact fun _ _ _ => rfl
    · rw [set_of_ne s p hlk]
      exact fun hlive hlive' hdir => (hp l hl hlk hlive hlive' hdir.symm).symm
  · rw [set_of_ne s p hkj]
    by_cases hlj : l = j
    · subst hlj
      rw [set_self]
      exact fun hlive hlive' hdir => hp k hk hkj hlive' hlive hdir
    · rw [set_of_ne s p hlj]
      exact h k hk l hl

/-- A slot is given back. -/
theorem Agree.clear (h : Agree n s) {j : Nat} {p : Proc} (hp : p.state = .UNUSED) :
    Agree n (s.set j p) :=
  h.set fun _ _ _ hlive => absurd hp hlive.1

theorem Agree.same (h : Agree n s) {slots : Nat → Proc} (hslots : ∀ j, Moved (s.slots j) (slots j)) :
    Agree n { s with slots := slots } := by
  intro j hj k hk hlive hlive' hdir
  show (slots j).sz = (slots k).sz
  have hdir : (slots j).pgdir = (slots k).pgdir := hdir
  rw [(hslots j).pgdir, (hslots k).pgdir] at hdir
  rw [(hslots j).sz, (hslots k).sz]
  exact h j hj k hk ((hslots j).live hlive) ((hslots k).live hlive') hdir

/-- The slots of `T`, all with the page directory of slot `i`, get the size `v`. -/
def State.resize (s : State) (T : Nat → Prop) [DecidablePred T] (v : Nat) : State :=
  { s with slots := fun k => if T k then { s.slots k with sz := v } else s.slots k }

theorem agree_resize_iff {T : Nat → Prop} [DecidablePred T] {i v : Nat} (h : Agree n s) (hi : i < n)
    (hlive : (s.slots i).live) (hT : T i) (hdir : ∀ k, T k → (s.slots k).pgdir = (s.slots i).pgdir) :
    Agree n (s.resize T v) ↔ v = (s.slots i).sz ∨
      ∀ q < n, (s.slots q).live → (s.slots q).pgdir = (s.slots i).pgdir → T q := by
  have hslot : ∀ k, ((s.resize T v).slots k).live = (s.slots k).live ∧
      ((s.resize T v).slots k).pgdir = (s.slots k).pgdir ∧
      ((s.resize T v).slots k).sz = if T k then v else (s.slots k).sz := by
    intro k
    simp only [State.resize]
    split <;> exact ⟨rfl, rfl, rfl⟩
  simp only [Agree, hslot]
  constructor
  · intro hall
    by_contra hno
    push Not at hno
    obtain ⟨hv, q, hq, hqlive, hqdir, hqT⟩ := hno
    have heq := hall i hi q hq hlive hqlive hqdir.symm
    rw [if_pos hT, if_neg hqT, h q hq i hi hqlive hlive hqdir] at heq
    exact hv heq
  · rintro (rfl | hall) j hj k hk hjlive hklive hjk
    · -- nothing has changed for a process that is not finished
      have hkeep : ∀ q < n, (s.slots q).live →
          (if T q then (s.slots i).sz else (s.slots q).sz) = (s.slots q).sz := by
        intro q hq hqlive
        split
        · next hqT => exact (h q hq i hi hqlive hlive (hdir q hqT)).symm
        · rfl
      rw [hkeep j hj hjlive, hkeep k hk hklive]
      exact h j hj k hk hjlive hklive hjk
    · by_cases hj' : (s.slots j).pgdir = (s.slots i).pgdir
      · rw [if_pos (hall j hj hjlive hj'), if_pos (hall k hk hklive (hjk.symm.trans hj'))]
      · rw [if_neg (mt (hdir j) hj'), if_neg (mt (hdir k) (hjk ▸ hj'))]
        exact h j hj k hk hjlive hklive hjk

/-- **`growproc` keeps the sizes equal** iff the new size reaches all. -/
theorem agree_growproc_iff (h : Agree n s) {i : Nat} {k : Int} {result : Nat} (hi : i < n)
    (hrun : (s.slots i).state = .RUNNING) :
    Agree n (growproc s i k result) ↔ ReachesAll n s (.growproc i k result) := by
  by_cases hfail : k ≠ 0 ∧ result = 0
  · rw [growproc_fails hfail]
    exact iff_of_true h (.inr (.inl hfail.2))
  have hlive : (s.slots i).live := by simp [Proc.live, hrun]
  have hresize := agree_resize_iff (v := if k = 0 then (s.slots i).sz else result)
    (T := fun q => q = i ∨ (s.slots q).parent = some i ∧ (s.slots q).pgdir = (s.slots i).pgdir)
    h hi hlive (.inl rfl) (by rintro q (rfl | hq); exacts [rfl, hq.2])
  have hthreads : (∀ q < n, (s.slots q).live → (s.slots q).pgdir = (s.slots i).pgdir →
        q = i ∨ (s.slots q).parent = some i ∧ (s.slots q).pgdir = (s.slots i).pgdir) ↔
      ∀ q < n, q ≠ i → (s.slots q).live → (s.slots q).pgdir = (s.slots i).pgdir →
        (s.slots q).parent = some i := by
    constructor
    · intro hall q hq hqi hqlive hqdir
      exact ((hall q hq hqlive hqdir).resolve_left hqi).1
    · intro hall q hq hqlive hqdir
      by_cases hqi : q = i
      · exact .inl hqi
      · exact .inr ⟨hall q hq hqi hqlive hqdir, hqdir⟩
  rw [growproc_succeeds hfail, ReachesAll, ← hthreads]
  refine hresize.trans ?_
  by_cases hk : k = 0
  · rw [if_pos hk]
    exact iff_of_true (.inl rfl) (.inl hk)
  · have hresult : result ≠ 0 := fun h0 => hfail ⟨hk, h0⟩
    rw [if_neg hk, or_iff_right hk, or_iff_right hresult]

theorem Quiet.reachesAll {a : Action} (h : Quiet n s a) : ReachesAll n s a := by
  cases a with
  | growproc => exact h.elim
  | _ => trivial

/-- **A step keeps the sizes equal** iff it meets the condition. -/
theorem agree_step {a : Action} (hi : Inv n s) (h : Agree n s) (hstep : step n s a = some s') :
    Agree n s' ↔ ReachesAll n s a := by
  cases step_effect hstep with
  | same ha hslots => exact iff_of_true (h.same hslots) (Quiet.reachesAll ha)
  | waste ha _ _ hp _ => exact iff_of_true (h.clear hp) (Quiet.reachesAll ha)
  | @make _ i j _ p ha hin hrun _ _ _ _ hdir =>
    refine iff_of_true (h.set fun k hk hkj hlive hlive' hpgdir => ?_) (Quiet.reachesAll ha)
    rcases hdir with ⟨hdir, -⟩ | ⟨hdir, hsz, -⟩
    · -- no other slot has the new directory
      have := hi.pgdir_lt k
      omega
    · rw [hsz]
      exact h k hk i hin hlive' (by simp [Proc.live, hrun]) (hpgdir.trans hdir)
  | grow hin hrun => exact agree_growproc_iff h hin hrun
  | join => exact iff_of_true (h.clear rfl) trivial
  | wait => exact iff_of_true (h.clear rfl) trivial

/-- **Sizes agree throughout a run** iff every size that `growproc` changes reaches all that share the page
directory. -/
theorem agree_iff_stepsMeet (n : Nat) (l : List Action) :
    Along (step n) (Agree n) boot l ↔ StepsMeet (step n) (ReachesAll n) boot l := by
  refine along_iff_stepsMeet (fun _ _ _ => inv_step) (fun _ _ _ => agree_step) (inv_boot n) ?_
  have hinit : ∀ j, (boot.slots j).live → j = 0 := by
    intro j hj
    by_contra h
    exact hj.1 (by simp [boot, h])
  intro j _ k _ hj hk _
  rw [hinit j hj, hinit k hk]

/-- A process makes a thread and joins it; the thread calls `malloc`, which calls `sbrk`. -/
def growingThread : List Action :=
  [.dispatch 0, .fork 0 .enough, .wait 0, .dispatch 1, .clone 1 .enough, .join 1, .dispatch 2,
    .growproc 2 4096 8192]

/-- The thread has the new size, the process that has made it still has the old one. -/
theorem growingThread_not_agree : ∃ s, run (step 64) boot growingThread = some s ∧
    s.slots 1 = ⟨.SLEEPING, 2, some 0, some 1, false, 2, 4096⟩ ∧
    s.slots 2 = ⟨.RUNNING, 3, some 1, none, false, 2, 8192⟩ ∧ ¬ Agree 64 s := by
  have hrun : (run (step 64) boot growingThread).map (fun s => (s.slots 1, s.slots 2)) =
      some (⟨.SLEEPING, 2, some 0, some 1, false, 2, 4096⟩,
        ⟨.RUNNING, 3, some 1, none, false, 2, 8192⟩) := by decide
  obtain ⟨s, hs, heq⟩ := Option.map_eq_some_iff.mp hrun
  obtain ⟨h1, h2⟩ := Prod.mk.inj heq
  refine ⟨s, hs, h1, h2, ?_⟩
  intro h
  have hsz := h 1 (by decide) 2 (by decide) (by simp [h1, Proc.live]) (by simp [h2, Proc.live])
    (by simp [h1, h2])
  rw [h1, h2] at hsz
  cases hsz

end OstepHw.Threads
