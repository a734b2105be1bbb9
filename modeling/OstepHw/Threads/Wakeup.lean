import OstepHw.Threads.Orphans

/-!
# No wakeup is missed

`join` and `wait` sleep when a child is there and none has exited, and `exit` wakes the parent, and `init` when it
hands zombies over to it.  Whoever sleeps in `join` or `wait` must be woken by the exit of its last child.

* `lastCall` — whether a process has last called `join` or `wait`;
* `Expects` — what a process that sleeps there relies on;
* `Unnoticed`, `waits_step` — what a step changes for a sleeper;
* `no_missed_wakeup` — in every run a sleeper has a child that is not finished, and none that has exited.
-/

set_option autoImplicit false

namespace OstepHw.Threads

open Machine

/-- The call of slot `i` that this action is: `join` looks for threads, `wait` for processes. -/
def Action.call (i : Nat) : Action → Option Bool
  | .join k => if k = i then some true else none
  | .wait k => if k = i then some false else none
  | _ => none

def lastCall (l : List Action) (i : Nat) : Option Bool := l.reverse.findSome? (Action.call i)

/-- Slot `i` sleeps in `join` or `wait`. -/
def State.Sleeps (s : State) (i : Nat) : Prop := (s.slots i).state = .SLEEPING ∧ (s.slots i).chan ≠ none

/-- What a process that sleeps in `join` or `wait` relies on. -/
structure Expects (n : Nat) (s : State) (i : Nat) (thread : Bool) : Prop where
  child : ∃ k < n, s.child thread i k = true ∧ (s.slots k).live
  none_exited : ∀ k < n, s.child thread i k = true → (s.slots k).state ≠ .ZOMBIE
  not_killed : (s.slots i).killed = false

structure Waits (n : Nat) (l : List Action) (s : State) : Prop where
  unused : ∀ k, (s.slots k).state = .UNUSED → (s.slots k).parent = none
  chan : ∀ i, s.Sleeps i → (s.slots i).chan = some i
  expects : ∀ i < n, s.Sleeps i → ∃ thread, lastCall l i = some thread ∧ Expects n s i thread

variable {n : Nat} {s s' : State} {a : Action} {l : List Action}

theorem lastCall_concat (l : List Action) (a : Action) (i : Nat) :
    lastCall (l ++ [a]) i = (a.call i).or (lastCall l i) := by
  rw [lastCall, List.reverse_append, List.reverse_singleton, List.singleton_append, List.findSome?_cons]
  cases a.call i <;> rfl

/-! ## What a step changes for a sleeper -/

/-- What a child may do without its parent noticing. -/
structure Alike (p p' : Proc) : Prop where
  parent : p'.parent = p.parent
  pgdir : p'.pgdir = p.pgdir
  live : p'.live ↔ p.live
  zombie : p'.state = .ZOMBIE ↔ p.state = .ZOMBIE

theorem Alike.refl (p : Proc) : Alike p p := ⟨rfl, rfl, Iff.rfl, Iff.rfl⟩

theorem Alike.unused {p p' : Proc} (h : Alike p p') (hp : p'.state = .UNUSED) : p.state = .UNUSED := by
  by_contra hne
  have hzombie : p.state ≠ .ZOMBIE := fun hz => by
    rw [h.zombie.2 hz] at hp
    cases hp
  exact (h.live.2 ⟨hne, hzombie⟩).1 hp

theorem alike_set {i : Nat} {p : Proc} (h : Alike (s.slots i) p) (k : Nat) :
    Alike (s.slots k) ((s.set i p).slots k) := by
  by_cases hk : k = i
  · subst hk
    rw [set_self]
    exact h
  · rw [set_of_ne s p hk]
    exact .refl _

/-- Slot `i` sleeps as before, its children are as they were, and those that it gets have not exited. -/
structure Unnoticed (n : Nat) (s s' : State) (i : Nat) : Prop where
  sleeps : s.Sleeps i
  chan : (s'.slots i).chan = (s.slots i).chan
  pgdir : (s'.slots i).pgdir = (s.slots i).pgdir
  killed : (s'.slots i).killed = (s.slots i).killed
  kids : ∀ k < n, (s.slots k).parent = some i → Alike (s.slots k) (s'.slots k)
  given : ∀ k < n, (s'.slots k).parent = some i → (s'.slots k).state = .ZOMBIE → (s.slots k).parent = some i

theorem child_iff {thread : Bool} {i k : Nat} : s.child thread i k = true ↔
    (s.slots k).parent = some i ∧ ((s.slots k).pgdir = (s.slots i).pgdir ↔ thread = true) := by
  cases thread <;> simp [State.child]

theorem Unnoticed.expects {i : Nat} {thread : Bool} (h : Unnoticed n s s' i) (he : Expects n s i thread) :
    Expects n s' i thread := by
  refine ⟨?_, fun k hk hkid hzombie => ?_, h.killed.trans he.not_killed⟩
  · obtain ⟨k, hk, hkid, hlive⟩ := he.child
    rw [child_iff] at hkid
    obtain ⟨hparent, hpgdir, hlive', -⟩ := h.kids k hk hkid.1
    refine ⟨k, hk, ?_, hlive'.2 hlive⟩
    rw [child_iff, hparent, hpgdir, h.pgdir]
    exact hkid
  · rw [child_iff, h.pgdir] at hkid
    have hkept := h.given k hk hkid.1 hzombie
    obtain ⟨-, hpgdir, -, hzombie'⟩ := h.kids k hk hkept
    refine he.none_exited k hk ?_ (hzombie'.1 hzombie)
    rw [child_iff, ← hpgdir]
    exact ⟨hkept, hkid.2⟩

/-- A step that no sleeper notices. -/
theorem Waits.unnoticed (h : Waits n l s) (hunused : ∀ k, (s'.slots k).state = .UNUSED → (s'.slots k).parent = none)
    (hstep : ∀ i, s'.Sleeps i → a.call i = none ∧ Unnoticed n s s' i) : Waits n (l ++ [a]) s' where
  unused := hunused
  chan i hi := by
    obtain ⟨-, hu⟩ := hstep i hi
    exact hu.chan.trans (h.chan i hu.sleeps)
  expects i hi hsleeps := by
    obtain ⟨hcall, hu⟩ := hstep i hsleeps
    obtain ⟨thread, hlast, he⟩ := h.expects i hi hu.sleeps
    refine ⟨thread, ?_, hu.expects he⟩
    rw [lastCall_concat, hcall]
    exact hlast

/-- Every slot is as it was, for whoever looks at its process. -/
theorem Waits.alike (h : Waits n l s) (hslots : ∀ k, Alike (s.slots k) (s'.slots k))
    (hsleeps : ∀ i, s'.Sleeps i → a.call i = none ∧ s.Sleeps i ∧ (s'.slots i).chan = (s.slots i).chan ∧
      (s'.slots i).killed = (s.slots i).killed) : Waits n (l ++ [a]) s' := by
  refine h.unnoticed (fun k hk => ?_) fun i hi => ?_
  · rw [(hslots k).parent]
    exact h.unused k ((hslots k).unused hk)
  · obtain ⟨hcall, hs, hchan, hkilled⟩ := hsleeps i hi
    refine ⟨hcall, hs, hchan, (hslots i).pgdir, hkilled, fun k _ _ => hslots k, fun k _ hk _ => ?_⟩
    rw [← (hslots k).parent]
    exact hk

/-- Another slot changes. -/
theorem unnoticed_set {i j : Nat} {p : Proc} (hij : i ≠ j) (hsleeps : s.Sleeps i)
    (hslots : s'.slots = (s.set j p).slots)
    (hkid : (s.slots j).parent = some i → Alike (s.slots j) p)
    (hgiven : p.parent = some i → p.state = .ZOMBIE → (s.slots j).parent = some i) : Unnoticed n s s' i := by
  have hself : s'.slots j = p := by rw [hslots, set_self]
  have hother {k : Nat} (hk : k ≠ j) : s'.slots k = s.slots k := by rw [hslots, set_of_ne s p hk]
  refine ⟨hsleeps, by rw [hother hij], by rw [hother hij], by rw [hother hij], fun k _ hparent => ?_,
    fun k _ hparent hzombie => ?_⟩
  · by_cases hkj : k = j
    · subst hkj
      rw [hself]
      exact hkid hparent
    · rw [hother hkj]
      exact .refl _
  · by_cases hkj : k = j
    · subst hkj
      rw [hself] at hparent hzombie
      exact hgiven hparent hzombie
    · rw [hother hkj] at hparent
      exact hparent

/-- A slot that nobody sleeps for is filled or given back, by the process in slot `i`. -/
theorem Waits.fresh (h : Waits n l s) {i j : Nat} {p : Proc} (hslots : s'.slots = (s.set j p).slots)
    (hrun : (s.slots i).state = .RUNNING) (hcall : ∀ k, k ≠ i → a.call k = none)
    (hj : (s.slots j).parent = none ∨ (s.slots j).parent = some i)
    (hp : p.state = .UNUSED ∧ p.parent = none ∨ p.state = .RUNNABLE) : Waits n (l ++ [a]) s' := by
  have hself : s'.slots j = p := by rw [hslots, set_self]
  have hother {k : Nat} (hk : k ≠ j) : s'.slots k = s.slots k := by rw [hslots, set_of_ne s p hk]
  refine h.unnoticed (fun k hk => ?_) fun k hk => ?_
  · by_cases hkj : k = j
    · subst hkj
      rw [hself] at hk ⊢
      rcases hp with hp | hp
      · exact hp.2
      · rw [hp] at hk
        cases hk
    · rw [hother hkj] at hk ⊢
      exact h.unused k hk
  · have hkj : k ≠ j := by
      rintro rfl
      rw [State.Sleeps, hself] at hk
      rcases hp with hp | hp
      · rw [hp.1] at hk
        cases hk.1
      · rw [hp] at hk
        cases hk.1
    rw [State.Sleeps, hother hkj] at hk
    have hki : k ≠ i := by
      rintro rfl
      rw [hrun] at hk
      cases hk.1
    refine ⟨hcall k hki, unnoticed_set hkj hk hslots (fun hparent => ?_) fun _ hzombie => ?_⟩
    · rcases hj with hj | hj <;> rw [hj] at hparent
      · cases hparent
      · exact absurd (Option.some.inj hparent).symm hki
    · rcases hp with hp | hp
      · rw [hp.1] at hzombie
        cases hzombie
      · rw [hp] at hzombie
        cases hzombie

theorem Waits.refl (h : Waits n l s) (hcall : ∀ i, (s.slots i).state = .SLEEPING → a.call i = none) :
    Waits n (l ++ [a]) s :=
  h.alike (fun _ => .refl _) fun i hi => ⟨hcall i hi.1, hi, rfl, rfl⟩

/-! ## The calls -/

theorem waits_fork (h : Waits n l s) {i : Nat} {memory : Memory} (hrun : (s.slots i).state = .RUNNING) :
    Waits n (l ++ [.fork i memory]) (fork n s i memory) := by
  rw [fork]
  split
  · exact h.refl fun _ _ => rfl
  · next j hfree =>
    obtain ⟨-, hunused⟩ := free_some hfree
    have hparent := h.unused j hunused
    cases memory with
    | noStack =>
      exact h.fresh (p := { s.slots j with pid := s.nextpid }) rfl hrun (fun _ _ => rfl) (.inl hparent)
        (.inl ⟨hunused, hparent⟩)
    | noCopy =>
      exact h.fresh (p := { s.slots j with pid := s.nextpid, pgdir := 0 }) rfl hrun (fun _ _ => rfl) (.inl hparent)
        (.inl ⟨hunused, hparent⟩)
    | enough => exact h.fresh rfl hrun (fun _ _ => rfl) (.inl hparent) (.inr rfl)

theorem waits_clone (h : Waits n l s) {i : Nat} {memory : Memory} (hrun : (s.slots i).state = .RUNNING) :
    Waits n (l ++ [.clone i memory]) (clone n s i memory) := by
  rw [clone]
  split
  · exact h.refl fun _ _ => rfl
  · next j hfree =>
    obtain ⟨-, hunused⟩ := free_some hfree
    have hparent := h.unused j hunused
    cases memory with
    | noStack =>
      exact h.fresh (p := { s.slots j with pid := s.nextpid }) rfl hrun (fun _ _ => rfl) (.inl hparent)
        (.inl ⟨hunused, hparent⟩)
    | noCopy | enough => exact h.fresh rfl hrun (fun _ _ => rfl) (.inl hparent) (.inr rfl)

/-- `growproc` changes sizes only. -/
theorem waits_growproc (h : Waits n l s) (i : Nat) (k : Int) (result : Nat) :
    Waits n (l ++ [.growproc i k result]) (growproc s i k result) := by
  by_cases hfail : k ≠ 0 ∧ result = 0
  · rw [growproc_fails hfail]
    exact h.refl fun _ _ => rfl
  · have hslots (j : Nat) : ∃ sz, (growproc s i k result).slots j = { s.slots j with sz := sz } := by
      rw [growproc_succeeds hfail]
      dsimp only
      split
      · exact ⟨_, rfl⟩
      · exact ⟨_, rfl⟩
    refine h.alike (fun j => ?_) fun j hj => ?_
    · obtain ⟨sz, hsz⟩ := hslots j
      rw [hsz]
      exact ⟨rfl, rfl, Iff.rfl, Iff.rfl⟩
    · obtain ⟨sz, hsz⟩ := hslots j
      rw [State.Sleeps, hsz] at hj
      rw [hsz]
      exact ⟨rfl, hj, rfl, rfl⟩

/-- Who goes to sleep has a child, and none that has exited. -/
theorem waits_sleepForChild (h : Waits n l s) {thread : Bool} {i : Nat} (hrun : (s.slots i).state = .RUNNING)
    (hcall : ∀ k, a.call k = if i = k then some thread else none) (hnone : s.zombie n thread i = none) :
    Waits n (l ++ [a]) (sleepForChild n s thread i) := by
  have hne {k : Nat} (hk : (s.slots k).state = .SLEEPING) : i ≠ k := by
    rintro rfl
    rw [hrun] at hk
    cases hk
  rw [sleepForChild]
  split
  · exact h.refl fun k hk => by rw [hcall, if_neg (hne hk)]
  · next hsleep =>
    simp only [Bool.or_eq_true, not_or, Bool.not_eq_true, List.all_eq_false, List.mem_range, Bool.not_eq_eq_eq_not,
      Bool.not_true] at hsleep
    obtain ⟨⟨k, hk, hkid⟩, hkilled⟩ := hsleep
    have hkid : s.child thread i k = true := by simpa using hkid
    have hzombie (m : Nat) (hm : m < n) (hkid : s.child thread i m = true) : (s.slots m).state ≠ .ZOMBIE := by
      intro hz
      have hno := List.find?_eq_none.1 hnone m (List.mem_range.2 hm)
      exact hno (by simp [hkid, hz])
    have hlive : (s.slots k).live := by
      refine ⟨fun hunused => ?_, hzombie k hk hkid⟩
      have hparent := h.unused k hunused
      rw [(child_iff.1 hkid).1] at hparent
      cases hparent
    have hasleep : Alike (s.slots i) { s.slots i with state := .SLEEPING, chan := some i } :=
      ⟨rfl, rfl, by simp [Proc.live, hrun], by simp [hrun]⟩
    have hslots := alike_set hasleep
    have hchild (m : Nat) : (s.set i { s.slots i with state := .SLEEPING, chan := some i }).child thread i m = true ↔
        s.child thread i m = true := by
      rw [child_iff, child_iff, (hslots m).parent, (hslots m).pgdir, (hslots i).pgdir]
    refine ⟨fun m hm => ?_, fun m hm => ?_, fun m hmn hm => ?_⟩
    · rw [(hslots m).parent]
      exact h.unused m ((hslots m).unused hm)
    · by_cases hmi : m = i
      · subst hmi
        rw [set_self]
      · rw [State.Sleeps, set_of_ne _ _ hmi] at hm
        rw [set_of_ne _ _ hmi]
        exact h.chan m hm
    · rw [lastCall_concat, hcall]
      by_cases hmi : m = i
      · subst hmi
        rw [if_pos rfl]
        refine ⟨thread, rfl, ⟨k, hk, (hchild k).2 hkid, (hslots k).live.2 hlive⟩, fun j hj hkid' hz => ?_, ?_⟩
        · exact hzombie j hj ((hchild j).1 hkid') ((hslots j).zombie.1 hz)
        · rw [set_self]
          exact hkilled
      · rw [State.Sleeps, set_of_ne _ _ hmi] at hm
        rw [if_neg (Ne.symm hmi)]
        obtain ⟨t, hlast, he⟩ := h.expects m hmn hm
        have hsame := unnoticed_set (n := n) hmi hm rfl (fun _ => hasleep) fun hparent _ => hparent
        exact ⟨t, hlast, hsame.expects he⟩

theorem waits_join (h : Waits n l s) {i : Nat} (hrun : (s.slots i).state = .RUNNING) :
    Waits n (l ++ [.join i]) (join n s i) := by
  rw [join]
  split
  · next j hfound =>
    exact h.fresh rfl hrun (fun k hk => if_neg (Ne.symm hk)) (.inr (zombie_parent hfound)) (.inl ⟨rfl, rfl⟩)
  · next hnone => exact waits_sleepForChild h hrun (fun _ => rfl) hnone

theorem waits_wait (h : Waits n l s) {i : Nat} (hrun : (s.slots i).state = .RUNNING) :
    Waits n (l ++ [.wait i]) (wait n s i) := by
  rw [wait]
  split
  · next j hfound =>
    exact h.fresh rfl hrun (fun k hk => if_neg (Ne.symm hk)) (.inr (zombie_parent hfound)) (.inl ⟨rfl, rfl⟩)
  · next hnone => exact waits_sleepForChild h hrun (fun _ => rfl) hnone

/-! ## `exit` -/

/-- Whoever still sleeps was not the one to be woken. -/
theorem wakeup1_sleeping {chan : Option Nat} {slots : Nat → Proc} {k : Nat}
    (h : (wakeup1 chan slots k).state = .SLEEPING) :
    (slots k).state = .SLEEPING ∧ wakeup1 chan slots k = slots k ∧ ((slots k).chan = chan → chan = none) := by
  rw [wakeup1] at h ⊢
  split at h
  · cases h
  · next hno =>
    rw [if_neg hno]
    refine ⟨h, rfl, fun hchan => ?_⟩
    by_contra hne
    exact hno ⟨h, hchan, hne⟩

/-- A process that still sleeps for a child is not the parent of the one that exits, and has got no zombie. -/
theorem exit_sleeping {i k : Nat} (hk : ((exit n s i).slots k).state = .SLEEPING) :
    (s.slots k).state = .SLEEPING ∧ ((exit n s i).slots k).chan = (s.slots k).chan ∧
    ((exit n s i).slots k).killed = (s.slots k).killed ∧
    ((s.slots k).chan = (s.slots i).parent → (s.slots k).chan = none) ∧
    ((s.slots k).chan = some 0 → ∀ j < n, ((s.slots j).parent = some i ∧ (s.slots j).pgdir ≠ (s.slots i).pgdir) →
      (s.slots j).state ≠ .ZOMBIE) := by
  revert hk
  unfold exit
  extract_lets woken abandoned orphan given slots
  dsimp only
  by_cases hki : k = i
  · subst hki
    rw [Function.update_self]
    intro hk
    cases hk
  rw [Function.update_of_ne hki]
  intro hk
  have hgiven : (given k).state = .SLEEPING ∧ slots k = given k ∧ ((given k).chan = some 0 → orphan = false) := by
    revert hk
    show ((if orphan then wakeup1 (some 0) given else given) k).state = .SLEEPING →
      (given k).state = .SLEEPING ∧ (if orphan then wakeup1 (some 0) given else given) k = given k ∧ _
    cases orphan with
    | false => exact fun hk => ⟨hk, rfl, fun _ => rfl⟩
    | true =>
      intro hk
      obtain ⟨hstate, heq, hchan⟩ := wakeup1_sleeping hk
      exact ⟨hstate, heq, fun h => absurd (hchan h) (by simp)⟩
  obtain ⟨hstate, heq, horphan⟩ := hgiven
  have hsame : (given k).state = (woken k).state ∧ (given k).chan = (woken k).chan ∧
      (given k).killed = (woken k).killed := by
    have hdef : given k = if abandoned (woken k) then { woken k with parent := some 0 } else woken k := rfl
    rw [hdef]
    split <;> exact ⟨rfl, rfl, rfl⟩
  obtain ⟨hstate', hchan', hkilled'⟩ := hsame
  rw [hstate'] at hstate
  obtain ⟨hslept, hwoken, hparent⟩ := wakeup1_sleeping hstate
  have hwoken : woken k = s.slots k := hwoken
  rw [hwoken] at hchan' hkilled'
  rw [heq]
  refine ⟨hslept, hchan', hkilled', fun h => ?_, fun h0 j hj hmine hzombie => ?_⟩
  · rw [h]
    exact hparent h
  · have hno := horphan (hchan'.trans h0)
    have hstays := stays_wakeup1 (s.slots i).parent s.slots j
    have hmoved := moved_wakeup1 (s.slots i).parent s.slots j
    have hzombie' : (woken j).state = .ZOMBIE := by
      show (wakeup1 _ _ j).state = _
      rw [wakeup1, if_neg (by simp [hzombie])]
      exact hzombie
    rw [List.any_eq_false] at hno
    refine hno j (List.mem_range.2 hj) ?_
    have hmine' : (woken j).parent = some i ∧ (woken j).pgdir ≠ (s.slots i).pgdir := by
      show (wakeup1 _ _ j).parent = some i ∧ (wakeup1 _ _ j).pgdir ≠ _
      rw [hstays.parent, hmoved.pgdir]
      exact hmine
    simp [abandoned, hmine', hzombie']

theorem exit_pgdir (n : Nat) (s : State) (i k : Nat) : ((exit n s i).slots k).pgdir = (s.slots k).pgdir := by
  unfold exit
  extract_lets woken abandoned orphan given slots
  have hgiven : (given k).pgdir = (s.slots k).pgdir := by
    rw [← (moved_wakeup1 (s.slots i).parent s.slots k).pgdir]
    show (if abandoned (woken k) then { woken k with parent := some 0 } else woken k).pgdir = (woken k).pgdir
    split <;> rfl
  have hslots : (slots k).pgdir = (given k).pgdir := by
    show ((if orphan then wakeup1 (some 0) given else given) k).pgdir = (given k).pgdir
    split
    · exact (moved_wakeup1 _ _ k).pgdir
    · rfl
  dsimp only
  by_cases hk : k = i
  · subst hk
    rw [Function.update_self]
    exact hslots.trans hgiven
  · rw [Function.update_of_ne hk]
    exact hslots.trans hgiven

/-- A child that `exit` leaves to its parent. -/
theorem exit_alike {i k : Nat} (hrun : (s.slots i).state = .RUNNING) (hki : k ≠ i) (hk : (s.slots k).parent ≠ some i) :
    Alike (s.slots k) ((exit n s i).slots k) := by
  obtain ⟨-, hparent, hunused, hlive⟩ := exit_slots (n := n) hrun k
  have hlive : ((exit n s i).slots k).live ↔ (s.slots k).live := hlive.trans (and_iff_left hki)
  refine ⟨by rw [hparent, if_neg fun hmine => hk hmine.1], exit_pgdir n s i k, hlive, ?_⟩
  rw [Proc.live, Proc.live, Ne, Ne, Ne, Ne, hunused] at hlive
  by_cases hz : ((exit n s i).slots k).state = .ZOMBIE <;> by_cases hz' : (s.slots k).state = .ZOMBIE <;>
    simp_all

/-- **`exit` wakes everybody who has to know.** -/
theorem waits_exit (h : Waits n l s) {i : Nat} (hrun : (s.slots i).state = .RUNNING) :
    Waits n (l ++ [.exit i]) (exit n s i) := by
  refine h.unnoticed (fun k hk => ?_) fun m hm => ⟨rfl, ?_⟩
  · obtain ⟨-, hparent, hunused, -⟩ := exit_slots (n := n) hrun k
    have hnone := h.unused k (hunused.1 hk)
    rw [hparent, hnone, if_neg fun hmine => by cases hmine.1]
  · obtain ⟨hslept, hchan, hkilled, hnotParent, horphans⟩ := exit_sleeping hm.1
    have hsleeps : s.Sleeps m := ⟨hslept, fun hnone => hm.2 (hchan.trans hnone)⟩
    have hself := h.chan m hsleeps
    have hmi : m ≠ i := by
      rintro rfl
      rw [hrun] at hslept
      cases hslept
    have hexits : (s.slots i).parent ≠ some m := fun hparent =>
      hsleeps.2 (hnotParent (hself.trans hparent.symm))
    refine ⟨hsleeps, hchan, exit_pgdir n s i m, hkilled, fun k _ hk => ?_, fun k hkn hk hzombie => ?_⟩
    · have hki : k ≠ i := by
        rintro rfl
        exact hexits hk
      refine exit_alike hrun hki fun hmine => hmi ?_
      exact Option.some.inj (hk.symm.trans hmine)
    · obtain ⟨-, hparent, hunused, hlive⟩ := exit_slots (n := n) hrun k
      rw [hparent] at hk
      split at hk
      · next hmine =>
        -- the child is handed over to `init`, and has not exited
        exfalso
        have hki : k ≠ i := by
          rintro rfl
          exact hmine.2 rfl
        have h0 : (s.slots m).chan = some 0 := hself.trans hk.symm
        have halive : (s.slots k).live := by
          refine ⟨fun hu => ?_, horphans h0 k hkn hmine⟩
          have hnone := h.unused k hu
          rw [hmine.1] at hnone
          cases hnone
        exact (hlive.2 ⟨halive, hki⟩).2 hzombie
      · exact hk

/-- The parent of the one that exits is woken. -/
theorem exit_wakes {i k : Nat} (hrun : (s.slots k).state = .RUNNING) (hparent : (s.slots k).parent = some i)
    (hasleep : (s.slots i).state = .SLEEPING) (hchan : (s.slots i).chan = some i) :
    ((exit n s k).slots i).state = .RUNNABLE := by
  have hik : i ≠ k := by
    rintro rfl
    rw [hrun] at hasleep
    cases hasleep
  unfold exit
  extract_lets woken abandoned orphan given slots
  dsimp only
  rw [Function.update_of_ne hik]
  have hwoken : (woken i).state = .RUNNABLE := by
    show (wakeup1 (s.slots k).parent s.slots i).state = _
    rw [wakeup1, if_pos (by simp [hasleep, hchan, hparent])]
  have hgiven : (given i).state = .RUNNABLE := by
    show (if abandoned (woken i) then { woken i with parent := some 0 } else woken i).state = _
    split <;> exact hwoken
  show ((if orphan then wakeup1 (some 0) given else given) i).state = _
  split
  · rw [wakeup1, if_neg (by simp [hgiven])]
    exact hgiven
  · exact hgiven

/-! ## Runs -/

theorem waits_boot (n : Nat) : Waits n [] boot := by
  have hnone (i : Nat) : ¬ boot.Sleeps i := by
    intro hi
    have hstate := hi.1
    by_cases h0 : i = 0
    · subst h0
      cases hstate
    · simp [boot, h0] at hstate
  refine ⟨fun k hk => ?_, fun i hi => absurd hi (hnone i), fun i _ hi => absurd hi (hnone i)⟩
  by_cases h0 : k = 0
  · subst h0
    rfl
  · simp [boot, h0]

/-- The process in slot `i` goes on or stops, but it does not sleep for a child. -/
theorem Waits.moves (h : Waits n l s) {i : Nat} {p : Proc} (hcall : ∀ k, a.call k = none)
    (hawake : ¬(p.state = .SLEEPING ∧ p.chan ≠ none)) (hp : Alike (s.slots i) p) : Waits n (l ++ [a]) (s.set i p) := by
  refine h.alike (alike_set hp) fun k hk => ⟨hcall k, ?_⟩
  have hki : k ≠ i := by
    rintro rfl
    rw [State.Sleeps, set_self] at hk
    exact hawake hk
  rw [State.Sleeps, set_of_ne s p hki] at hk
  rw [set_of_ne s p hki]
  exact ⟨hk, rfl, rfl⟩

theorem waits_step (h : Waits n l s) (hstep : step n s a = some s') : Waits n (l ++ [a]) s' := by
  cases a with
  | fork i memory =>
    obtain ⟨-, hrun, rfl⟩ := when_some hstep
    exact waits_fork h hrun
  | clone i memory =>
    obtain ⟨-, hrun, rfl⟩ := when_some hstep
    exact waits_clone h hrun
  | growproc i k result =>
    obtain ⟨-, -, rfl⟩ := when_some hstep
    exact waits_growproc h i k result
  | exit i =>
    rw [step] at hstep
    split at hstep
    · cases hstep
    · obtain ⟨-, hrun, rfl⟩ := when_some hstep
      exact waits_exit h hrun
  | join i =>
    obtain ⟨-, hrun, rfl⟩ := when_some hstep
    exact waits_join h hrun
  | wait i =>
    obtain ⟨-, hrun, rfl⟩ := when_some hstep
    exact waits_wait h hrun
  | dispatch i | yield i | wakeup i =>
    obtain ⟨-, hstate, rfl⟩ := when_some hstep
    exact h.moves (fun _ => rfl) (by simp) ⟨rfl, rfl, by simp [Proc.live, hstate], by simp [hstate]⟩
  | sleep i =>
    obtain ⟨-, hstate, rfl⟩ := when_some hstep
    exact h.moves (fun _ => rfl) (by simp) ⟨rfl, rfl, by simp [Proc.live, hstate], by simp [hstate]⟩
  | kill i =>
    rw [step] at hstep
    split at hstep
    · cases hstep
      refine h.moves (fun _ => rfl) (fun hasleep => ?_) ⟨rfl, rfl, ?_, ?_⟩
      · have hstate := hasleep.1
        dsimp only at hstate
        split at hstate
        · cases hstate
        · next hno => exact hno hstate
      all_goals
        simp only [Proc.live]
        split <;> simp_all
    · cases hstep

theorem waits_run (h : run (step n) boot l = some s) : Waits n l s :=
  run_induction (P := fun l s => Waits n l s) (waits_boot n) (fun _ _ _ _ _ hm hstep => waits_step hm hstep) h

/-- **No wakeup is missed**: a process that sleeps in `join` or `wait` has a child of that kind that is not finished,
and none that has exited, and the exit of a child makes it runnable. -/
theorem no_missed_wakeup (n : Nat) (l : List Action) (s : State) (h : run (step n) boot l = some s) (i : Nat)
    (hi : i < n) (hsleeps : s.Sleeps i) :
    (∃ thread, lastCall l i = some thread ∧ Expects n s i thread) ∧
      ∀ k s', (s.slots k).parent = some i → step n s (.exit k) = some s' → (s'.slots i).state = .RUNNABLE := by
  have hwaits := waits_run h
  refine ⟨hwaits.expects i hi hsleeps, fun k s' hparent hstep => ?_⟩
  rw [step] at hstep
  split at hstep
  · cases hstep
  · obtain ⟨-, hrun, rfl⟩ := when_some hstep
    exact exit_wakes hrun hparent hsleeps.1 (hwaits.chan i hsleeps)

/-- `init` makes a process and waits for it; the process makes a thread and joins it. -/
def twoSleepers : List Action :=
  [.dispatch 0, .fork 0 .enough, .wait 0, .dispatch 1, .clone 1 .enough, .join 1]

theorem no_missed_wakeup_twoSleepers : ∃ s, run (step 64) boot twoSleepers = some s ∧ s.Sleeps 0 ∧ s.Sleeps 1 ∧
    Expects 64 s 0 false ∧ Expects 64 s 1 true := by
  have hrun : (run (step 64) boot twoSleepers).map (fun s => (s.slots 0, s.slots 1)) =
      some (⟨.SLEEPING, 1, none, some 0, false, 1, 4096⟩, ⟨.SLEEPING, 2, some 0, some 1, false, 2, 4096⟩) := by
    decide
  obtain ⟨s, hs, heq⟩ := Option.map_eq_some_iff.1 hrun
  obtain ⟨h0, h1⟩ := Prod.mk.inj heq
  have hsleeps0 : s.Sleeps 0 := by simp [State.Sleeps, h0]
  have hsleeps1 : s.Sleeps 1 := by simp [State.Sleeps, h1]
  obtain ⟨⟨thread, hlast, hexpects⟩, -⟩ := no_missed_wakeup 64 twoSleepers s hs 0 (by decide) hsleeps0
  obtain ⟨⟨thread', hlast', hexpects'⟩, -⟩ := no_missed_wakeup 64 twoSleepers s hs 1 (by decide) hsleeps1
  cases hlast
  cases hlast'
  exact ⟨s, hs, hsleeps0, hsleeps1, hexpects, hexpects'⟩

end OstepHw.Threads
