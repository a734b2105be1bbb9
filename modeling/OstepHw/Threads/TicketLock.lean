import OstepHw.Lib.Program
import Mathlib.Data.List.Nodup
import Mathlib.Data.List.Perm.Basic

/-!
# The ticket lock

Model of `lock_init`, `lock_acquire` and `lock_release` of `threads.patch`: the fetch-add, each read of
`turn` while spinning, and the read and the write of `lock->turn += 1` are single steps.  The counters are
32 bits wide.  The state also records in which order the threads drew their tickets and entered.

* `Inv` — the tickets that were drawn and not yet given back are those of the threads at the lock, in the
  order of drawing, and the turn is the ticket of the first of them;
* `lock_exclusive_inOrder` — one thread at a time, in the order of the tickets.
-/

set_option autoImplicit false

namespace OstepHw.TicketLock

open Machine OstepHw.Count Program

structure Lock where
  ticket : BitVec 32
  turn : BitVec 32
  /-- The threads in the order of their fetch-adds. -/
  drawn : List Nat
  /-- The threads in the order in which `lock_acquire` has returned. -/
  entered : List Nat

def lockInit : Lock := ⟨0, 0, [], []⟩

inductive Place
  | outside
  /-- `while (lock->turn != myturn)` of `lock_acquire`. -/
  | spin (myturn : BitVec 32)
  /-- `lock_acquire` has returned. -/
  | critical
  /-- `lock_release` has read `turn`. -/
  | release (turn : BitVec 32)
  deriving DecidableEq

/-- `lock_acquire` and `lock_release` in turn. -/
def prog : Prog Lock Place
  | i, lock, .outside =>
    some ({ lock with ticket := lock.ticket + 1, drawn := lock.drawn ++ [i] }, .spin lock.ticket)
  | i, lock, .spin myturn =>
    if lock.turn ≠ myturn then some (lock, .spin myturn)
    else some ({ lock with entered := lock.entered ++ [i] }, .critical)
  | _, lock, .critical => some (lock, .release lock.turn)
  | _, lock, .release turn => some ({ lock with turn := turn + 1 }, .outside)

def init : State Lock Place := ⟨lockInit, fun _ => .outside⟩

/-- Between the return of `lock_acquire` and the end of `lock_release`. -/
def Place.inside : Place → Bool
  | .critical | .release _ => true
  | _ => false

/-! ## The tickets -/

/-- The threads of `q` are at the lock, those of `done` have left it. -/
structure Inv (n : Nat) (lock : Lock) (place : Nat → Place) (done q : List Nat) : Prop where
  drawn : lock.drawn = done ++ q
  ticket : lock.ticket = BitVec.ofNat 32 (done.length + q.length)
  turn : lock.turn = BitVec.ofNat 32 done.length
  nodup : q.Nodup
  mem_iff : ∀ i, i ∈ q ↔ i < n ∧ place i ≠ .outside
  myturn : ∀ j i m, q[j]? = some i → place i = .spin m → m = BitVec.ofNat 32 (done.length + j)
  first : ∀ i < n, (place i).inside = true → q.head? = some i
  read : ∀ i < n, ∀ t, place i = .release t → t = lock.turn
  entered : lock.entered = done ++ q.take (count n Place.inside place)

theorem inv_init (n : Nat) : Inv n lockInit (fun _ => .outside) [] [] where
  drawn := rfl
  ticket := rfl
  turn := rfl
  nodup := List.nodup_nil
  mem_iff i := by simp
  myturn j i m h := by simp at h
  first i _ h := by cases h
  read i _ t h := by cases h
  entered := by simp [lockInit]

variable {n : Nat} {lock : Lock} {place : Nat → Place} {done q : List Nat} {i : Nat}

theorem ofNat_succ (k : Nat) : BitVec.ofNat 32 k + 1 = BitVec.ofNat 32 (k + 1) := by
  apply BitVec.eq_of_toNat_eq
  simp

/-- Fewer than `2 ^ 32` tickets in a row differ. -/
theorem ofNat_inj {a b : Nat} (hb : b < 2 ^ 32) (h : BitVec.ofNat 32 a = BitVec.ofNat 32 (a + b)) :
    b = 0 := by
  have hmod := congrArg BitVec.toNat h
  simp only [BitVec.toNat_ofNat] at hmod
  omega

/-- Each thread has at most one ticket. -/
theorem Inv.length_le (h : Inv n lock place done q) : q.length ≤ n := by
  have hsub : q ⊆ List.range n := fun i hi => List.mem_range.mpr ((h.mem_iff i).mp hi).1
  have := (List.subperm_of_subset h.nodup hsub).length_le
  rwa [List.length_range] at this

/-- Only the first thread of the queue can be inside. -/
theorem Inv.count_eq_zero (h : Inv n lock place done q) (hi : ∀ i, q.head? = some i → (place i).inside = false) :
    count n Place.inside place = 0 := by
  rw [Count.count_eq_zero]
  intro j hj
  by_contra hinside
  have hinside : (place j).inside = true := by simpa using hinside
  rw [hi j (h.first j hj hinside)] at hinside
  cases hinside

/-- A thread that is inside is the only one. -/
theorem Inv.count_eq_one (h : Inv n lock place done q) (hi : i < n) (hinside : (place i).inside = true) :
    count n Place.inside place = 1 := by
  have hcount := count_update Place.inside place .outside hi
  have hothers : count n Place.inside (Function.update place i .outside) = 0 := by
    rw [Count.count_eq_zero]
    intro j hj
    rw [Function.update_apply]
    split
    · rfl
    · next hji =>
      by_contra hj'
      have hj' : (place j).inside = true := by simpa using hj'
      exact hji (Option.some.inj ((h.first j hj hj').symm.trans (h.first i hi hinside)))
  rw [hothers, hinside] at hcount
  simp only [Place.inside, Bool.false_eq_true, if_false, if_true] at hcount
  omega

/-! ## Steps -/

/-- A thread that stays inside `q` goes on. -/
theorem Inv.mem_iff_update (h : Inv n lock place done q) {p : Place} (hi : place i ≠ .outside) (hp : p ≠ .outside)
    (j : Nat) : j ∈ q ↔ j < n ∧ Function.update place i p j ≠ .outside := by
  rw [h.mem_iff, Function.update_apply]
  by_cases hj : j = i
  · simp [hj, hi, hp]
  · simp [hj]

/-- A thread goes on that does not spin any more. -/
theorem Inv.myturn_update (h : Inv n lock place done q) {p : Place} (hp : ∀ m, p ≠ .spin m) (j k : Nat)
    (m : BitVec 32) (hk : q[j]? = some k) (hm : Function.update place i p k = .spin m) :
    m = BitVec.ofNat 32 (done.length + j) := by
  rw [Function.update_apply] at hm
  split at hm
  · exact absurd hm (hp m)
  · exact h.myturn j k m hk hm

/-- A thread draws a ticket. -/
theorem inv_draw (h : Inv n lock place done q) (hi : i < n) (hp : place i = .outside) :
    Inv n { lock with ticket := lock.ticket + 1, drawn := lock.drawn ++ [i] }
      (Function.update place i (.spin lock.ticket)) done (q ++ [i]) := by
  have hnew : i ∉ q := fun hmem => ((h.mem_iff i).mp hmem).2 hp
  have hcount := count_update Place.inside place (.spin lock.ticket) hi
  simp only [hp, Place.inside, Bool.false_eq_true, if_false, Nat.add_zero] at hcount
  refine ⟨?_, ?_, h.turn, ?_, ?_, ?_, ?_, ?_, ?_⟩
  · rw [h.drawn, List.append_assoc]
  · show lock.ticket + 1 = _
    rw [h.ticket, ofNat_succ, List.length_append, List.length_singleton, Nat.add_assoc]
  · rw [← List.concat_eq_append]
    exact h.nodup.concat hnew
  · intro j
    rw [List.mem_append, List.mem_singleton, h.mem_iff, Function.update_apply]
    by_cases hj : j = i
    · simp [hj, hi]
    · simp [hj]
  · intro j k m hk hm
    rw [Function.update_apply] at hm
    rcases Nat.lt_or_ge j q.length with hlt | hge
    · rw [List.getElem?_append_left hlt] at hk
      have hki : k ≠ i := fun hki => hnew (hki ▸ List.mem_of_getElem? hk)
      rw [if_neg hki] at hm
      exact h.myturn j k m hk hm
    · rw [List.getElem?_append_right hge, List.getElem?_singleton] at hk
      split at hk
      · next hj =>
        rw [if_pos (Option.some.inj hk).symm] at hm
        cases hm
        rw [h.ticket, show j = q.length by omega]
      · cases hk
  · intro j hj hinside
    rw [Function.update_apply] at hinside
    split at hinside
    · cases hinside
    · rw [List.head?_append, h.first j hj hinside]
      rfl
  · intro j hj t ht
    rw [Function.update_apply] at ht
    split at ht
    · cases ht
    · exact h.read j hj t ht
  · show lock.entered = _
    rw [hcount, h.entered]
    by_cases hin : ∃ j < n, (place j).inside = true
    · obtain ⟨j, hj, hin⟩ := hin
      have hfirst := h.first j hj hin
      rw [h.count_eq_one hj hin]
      cases q with
      | nil => cases hfirst
      | cons k rest => simp
    · have hnone : count n Place.inside place = 0 :=
        Count.count_eq_zero.mpr fun j hj => by simpa using fun hj' => hin ⟨j, hj, hj'⟩
      rw [hnone]
      simp

/-- The thread whose ticket is the turn is the first. -/
theorem Inv.eq_cons_of_turn (hn : n < 2 ^ 32) (h : Inv n lock place done q) (hi : i < n)
    (hp : place i = .spin lock.turn) : ∃ rest, q = i :: rest := by
  have hmem : i ∈ q := (h.mem_iff i).mpr ⟨hi, by simp [hp]⟩
  obtain ⟨j, hj⟩ := List.mem_iff_getElem?.mp hmem
  have hlt : j < q.length := (List.getElem?_eq_some_iff.mp hj).1
  have hle := h.length_le
  have hturn := h.myturn j i _ hj hp
  rw [h.turn] at hturn
  obtain rfl := ofNat_inj (by omega) hturn
  cases q with
  | nil => cases hj
  | cons k rest => exact ⟨rest, by simpa using hj⟩

/-- The thread whose ticket is the turn enters. -/
theorem inv_enter (hn : n < 2 ^ 32) (h : Inv n lock place done q) (hi : i < n)
    (hp : place i = .spin lock.turn) :
    Inv n { lock with entered := lock.entered ++ [i] } (Function.update place i .critical) done q := by
  obtain ⟨rest, rfl⟩ := h.eq_cons_of_turn hn hi hp
  have hnone : count n Place.inside place = 0 := h.count_eq_zero fun j hj => by
    rw [← Option.some.inj hj, hp]
    rfl
  have hcount := count_update Place.inside place .critical hi
  simp only [hp, hnone, Place.inside, Bool.false_eq_true, if_false, if_true] at hcount
  refine ⟨h.drawn, h.ticket, h.turn, h.nodup, h.mem_iff_update (by simp [hp]) (by simp),
    h.myturn_update (by simp), ?_, ?_, ?_⟩
  · intro j hj hinside
    rw [Function.update_apply] at hinside
    split at hinside
    · next hji => rw [hji, List.head?_cons]
    · exact h.first j hj hinside
  · intro j hj t ht
    rw [Function.update_apply] at ht
    split at ht
    · cases ht
    · exact h.read j hj t ht
  · show lock.entered ++ [i] = _
    rw [h.entered, hnone, show count n Place.inside (Function.update place i .critical) = 1 by omega]
    simp

/-- `turn` is read by the thread that gives its ticket back. -/
theorem inv_read (h : Inv n lock place done q) (hi : i < n) (hp : place i = .critical) :
    Inv n lock (Function.update place i (.release lock.turn)) done q := by
  have hcount := count_update Place.inside place (.release lock.turn) hi
  simp only [hp, Place.inside, if_true, Nat.add_right_cancel_iff] at hcount
  refine ⟨h.drawn, h.ticket, h.turn, h.nodup, h.mem_iff_update (by simp [hp]) (by simp),
    h.myturn_update (by simp), ?_, ?_, ?_⟩
  · intro j hj hinside
    rw [Function.update_apply] at hinside
    split at hinside
    · next hji =>
      rw [hji]
      exact h.first i hi (by rw [hp]; rfl)
    · exact h.first j hj hinside
  · intro j hj t ht
    rw [Function.update_apply] at ht
    split at ht
    · cases ht
      rfl
    · exact h.read j hj t ht
  · rw [hcount]
    exact h.entered

/-- The next ticket has its turn. -/
theorem inv_release {t : BitVec 32} (h : Inv n lock place done q) (hi : i < n) (hp : place i = .release t) :
    Inv n { lock with turn := t + 1 } (Function.update place i .outside) (done ++ [i]) q.tail := by
  have hfirst := h.first i hi (by rw [hp]; rfl)
  obtain ⟨rest, rfl⟩ : ∃ rest, q = i :: rest := by
    cases q with
    | nil => cases hfirst
    | cons k rest => exact ⟨rest, by simpa using hfirst⟩
  have hone := h.count_eq_one hi (by rw [hp]; rfl)
  have hcount := count_update Place.inside place .outside hi
  simp only [hp, hone, Place.inside, Bool.false_eq_true, if_false, if_true] at hcount
  have hnotin : i ∉ rest := (List.nodup_cons.mp h.nodup).1
  rw [List.tail_cons]
  refine ⟨?_, ?_, ?_, (List.nodup_cons.mp h.nodup).2, ?_, ?_, ?_, ?_, ?_⟩
  · rw [h.drawn, List.append_assoc, List.singleton_append]
  · rw [h.ticket, List.length_append, List.length_cons, List.length_singleton]
    congr 1
    omega
  · show t + 1 = _
    rw [h.read i hi t hp, h.turn, ofNat_succ, List.length_append, List.length_singleton]
  · intro j
    have hmem := h.mem_iff j
    rw [List.mem_cons] at hmem
    rw [Function.update_apply]
    by_cases hj : j = i
    · simp [hj, hnotin]
    · simpa [hj] using hmem
  · intro j k m hk hm
    rw [Function.update_apply] at hm
    split at hm
    · cases hm
    · have := h.myturn (j + 1) k m (by simpa using hk) hm
      rw [this, List.length_append, List.length_singleton, Nat.add_assoc, Nat.add_comm 1 j]
  · intro j hj hinside
    rw [Function.update_apply] at hinside
    split at hinside
    · cases hinside
    · next hji => exact absurd (Option.some.inj ((h.first j hj hinside).symm.trans hfirst)) hji
  · intro j hj t' ht
    rw [Function.update_apply] at ht
    split at ht
    · cases ht
    · next hji =>
      exact absurd (Option.some.inj ((h.first j hj (by rw [ht]; rfl)).symm.trans hfirst)) hji
  · show lock.entered = _
    rw [h.entered, hone, show count n Place.inside (Function.update place i .outside) = 0 by omega]
    simp

/-- **Every step keeps the invariant.** -/
theorem inv_step (hn : n < 2 ^ 32) {s s' : State Lock Place} (h : Inv n s.shared s.place done q)
    (hstep : step n prog s i = some s') : ∃ done' q', Inv n s'.shared s'.place done' q' := by
  obtain ⟨hi, sh, p, hprog, rfl⟩ := step_eq_some.1 hstep
  cases hp : s.place i with
  | outside =>
    rw [hp] at hprog
    cases hprog
    exact ⟨_, _, inv_draw h hi hp⟩
  | spin myturn =>
    simp only [prog, hp] at hprog
    split at hprog
    · cases hprog
      rw [← hp, Function.update_eq_self]
      exact ⟨_, _, h⟩
    · next hturn =>
      cases hprog
      rw [← not_not.mp hturn] at hp
      exact ⟨_, _, inv_enter hn h hi hp⟩
  | critical =>
    rw [hp] at hprog
    cases hprog
    exact ⟨_, _, inv_read h hi hp⟩
  | release t =>
    rw [hp] at hprog
    cases hprog
    exact ⟨_, _, inv_release h hi hp⟩

/-- **One thread at a time, in the order of the tickets**, for fewer than `2 ^ 32` threads and runs of any
length. -/
theorem lock_exclusive_inOrder (n : Nat) (hn : n < 2 ^ 32) (s : State Lock Place)
    (h : Reaches (step n prog) init s) :
    (∀ i < n, ∀ j < n, (s.place i).inside = true → (s.place j).inside = true → i = j) ∧
      s.shared.entered <+: s.shared.drawn := by
  obtain ⟨done, q, hinv⟩ : ∃ done q, Inv n s.shared s.place done q := by
    refine invariant (I := fun s : State Lock Place => ∃ done q, Inv n s.shared s.place done q) ?_ ?_ h
    · exact ⟨[], [], inv_init n⟩
    · rintro m i m' ⟨done, q, hm⟩ hstep
      exact inv_step hn hm hstep
  constructor
  · intro i hi j hj hii hjj
    exact Option.some.inj ((hinv.first i hi hii).symm.trans (hinv.first j hj hjj))
  · rw [hinv.entered, hinv.drawn, List.prefix_append_right_inj]
    exact List.take_prefix ..

/-- Thread 1 draws first, and thread 0 waits until it has given the lock back. -/
theorem twoThreads_exclusive : ∃ s, run (step 2 prog) init [1, 0, 0, 1, 0, 1, 1, 0] = some s ∧
    s.shared.drawn = [1, 0] ∧ s.shared.entered = [1, 0] ∧ (s.place 0).inside = true ∧
    (∀ j < 2, (s.place j).inside = true → j = 0) ∧ s.shared.entered <+: s.shared.drawn := by
  obtain ⟨hone, horder⟩ := lock_exclusive_inOrder 2 (by decide) _ ⟨[1, 0, 0, 1, 0, 1, 1, 0], rfl⟩
  exact ⟨_, rfl, rfl, rfl, rfl, fun j hj hinside => hone j hj 0 (by decide) hinside rfl, horder⟩

end OstepHw.TicketLock
