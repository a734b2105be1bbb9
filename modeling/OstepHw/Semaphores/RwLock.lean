import OstepHw.Lib.Program

/-!
# The reader-writer lock that does not starve writers

Model of the functions of `reader-writer-nostarve.c` on `rwlock_t`, and of the loops of `reader` and
`writer` over them.  A call on a semaphore is one step, and so is an access to `readers`, which only the
thread that holds `lock` uses.  The state also counts how often each thread has got its lock.

* `Inv` — every semaphore is accounted for, `writelock` by a writer or by the readers together;
* `rwlock_exclusive_progress` — a writer is alone, and nobody is stuck;
* `writer_not_overtaken` — while a writer holds `readlock`.
-/

set_option autoImplicit false

namespace OstepHw.RwLock

open Machine OstepHw.Count Program

structure RwlockT where
  lock : Nat
  writelock : Nat
  readlock : Nat
  readers : Int
  /-- How often `rwlock_acquire_readlock` or `rwlock_acquire_writelock` has returned. -/
  entered : Nat → Nat

def rwlockInit : RwlockT := ⟨1, 1, 1, 0, fun _ => 0⟩

/-- What a thread does next. -/
inductive Pc
  /-- `i < loops` of `reader` -/
  | reader
  /-- `rwlock_acquire_readlock` -/
  | waitReadlock
  | postReadlock
  | waitLock
  | readersInc
  /-- `rw->readers == 1` -/
  | testFirst
  | firstWaitWritelock
  | postLock
  | reading
  /-- `rwlock_release_readlock` -/
  | releaseWaitLock
  | readersDec
  /-- `rw->readers == 0` -/
  | testLast
  | lastPostWritelock
  | releasePostLock
  /-- `i < loops` of `writer` -/
  | writer
  /-- `rwlock_acquire_writelock` -/
  | writerWaitReadlock
  | waitWritelock
  | writing
  /-- `rwlock_release_writelock` -/
  | postWritelock
  | writerPostReadlock
  deriving DecidableEq

structure Place where
  pc : Pc
  /-- The `i` of `reader` or `writer`. -/
  i : Nat

def RwlockT.enter (rw : RwlockT) (i : Nat) : Nat → Nat := Function.update rw.entered i (rw.entered i + 1)

/-- The loops of `reader` and `writer`. -/
def prog (loops : Nat) : Prog RwlockT Place
  | _, rw, ⟨.reader, k⟩ => if k < loops then some (rw, ⟨.waitReadlock, k⟩) else none
  | _, rw, ⟨.waitReadlock, k⟩ => semWait rw.readlock fun v => ({ rw with readlock := v }, ⟨.postReadlock, k⟩)
  | _, rw, ⟨.postReadlock, k⟩ => some ({ rw with readlock := rw.readlock + 1 }, ⟨.waitLock, k⟩)
  | _, rw, ⟨.waitLock, k⟩ => semWait rw.lock fun v => ({ rw with lock := v }, ⟨.readersInc, k⟩)
  | _, rw, ⟨.readersInc, k⟩ => some ({ rw with readers := rw.readers + 1 }, ⟨.testFirst, k⟩)
  | _, rw, ⟨.testFirst, k⟩ => some (rw, ⟨if rw.readers = 1 then .firstWaitWritelock else .postLock, k⟩)
  | _, rw, ⟨.firstWaitWritelock, k⟩ =>
    semWait rw.writelock fun v => ({ rw with writelock := v }, ⟨.postLock, k⟩)
  | i, rw, ⟨.postLock, k⟩ => some ({ rw with lock := rw.lock + 1, entered := rw.enter i }, ⟨.reading, k⟩)
  | _, rw, ⟨.reading, k⟩ => some (rw, ⟨.releaseWaitLock, k⟩)
  | _, rw, ⟨.releaseWaitLock, k⟩ => semWait rw.lock fun v => ({ rw with lock := v }, ⟨.readersDec, k⟩)
  | _, rw, ⟨.readersDec, k⟩ => some ({ rw with readers := rw.readers - 1 }, ⟨.testLast, k⟩)
  | _, rw, ⟨.testLast, k⟩ => some (rw, ⟨if rw.readers = 0 then .lastPostWritelock else .releasePostLock, k⟩)
  | _, rw, ⟨.lastPostWritelock, k⟩ => some ({ rw with writelock := rw.writelock + 1 }, ⟨.releasePostLock, k⟩)
  | _, rw, ⟨.releasePostLock, k⟩ => some ({ rw with lock := rw.lock + 1 }, ⟨.reader, k + 1⟩)
  | _, rw, ⟨.writer, k⟩ => if k < loops then some (rw, ⟨.writerWaitReadlock, k⟩) else none
  | _, rw, ⟨.writerWaitReadlock, k⟩ =>
    semWait rw.readlock fun v => ({ rw with readlock := v }, ⟨.waitWritelock, k⟩)
  | i, rw, ⟨.waitWritelock, k⟩ =>
    semWait rw.writelock fun v => ({ rw with writelock := v, entered := rw.enter i }, ⟨.writing, k⟩)
  | _, rw, ⟨.writing, k⟩ => some (rw, ⟨.postWritelock, k⟩)
  | _, rw, ⟨.postWritelock, k⟩ => some ({ rw with writelock := rw.writelock + 1 }, ⟨.writerPostReadlock, k⟩)
  | _, rw, ⟨.writerPostReadlock, k⟩ => some ({ rw with readlock := rw.readlock + 1 }, ⟨.writer, k + 1⟩)

/-- The threads of `main`: first the readers, then the writers. -/
def init (numReaders : Nat) : State RwlockT Place :=
  ⟨rwlockInit, fun i => ⟨if i < numReaders then .reader else .writer, 0⟩⟩

example : Enabled (prog 1) (init 1) 0 ∧ ¬Enabled (prog 0) (init 1) 0 := by
  simp [Enabled, prog, init]

namespace Place

variable (p : Place)

/-- `reader` or `writer` has returned. -/
def finished (loops : Nat) : Bool :=
  match p.pc with
  | .reader | .writer => loops ≤ p.i
  | _ => false

def isWriter : Bool :=
  match p.pc with
  | .writer | .writerWaitReadlock | .waitWritelock | .writing | .postWritelock | .writerPostReadlock => true
  | _ => false

/-- Between a wait on `readlock` and the post that follows it. -/
def inReadlock : Bool :=
  match p.pc with
  | .postReadlock | .waitWritelock | .writing | .postWritelock | .writerPostReadlock => true
  | _ => false

/-- Between a wait on `lock` and the post that follows it. -/
def inLock : Bool :=
  match p.pc with
  | .readersInc | .testFirst | .firstWaitWritelock | .postLock | .readersDec | .testLast | .lastPostWritelock
  | .releasePostLock => true
  | _ => false

/-- Between the return of `rwlock_acquire_writelock` and the post on `writelock`. -/
def inWrite : Bool :=
  match p.pc with
  | .writing | .postWritelock => true
  | _ => false

/-- Between the return of `rwlock_acquire_readlock` and its end as a reader. -/
def inRead : Bool :=
  match p.pc with
  | .reading | .releaseWaitLock | .readersDec | .testLast | .lastPostWritelock => true
  | _ => false

/-- Between `readers++` and `readers--`. -/
def counted : Bool :=
  match p.pc with
  | .testFirst | .firstWaitWritelock | .postLock | .reading | .releaseWaitLock | .readersDec => true
  | _ => false

/-- One of the readers that have `writelock` together. -/
def sharing : Bool :=
  match p.pc with
  | .postLock | .reading | .releaseWaitLock | .readersDec | .testLast | .lastPostWritelock => true
  | _ => false

end Place

/-- What the thread with `lock` has found out about `readers`. -/
def Known (rw : RwlockT) (p : Place) : Prop :=
  match p.pc with
  | .firstWaitWritelock => rw.readers = 1
  | .lastPostWritelock => rw.readers = 0
  | _ => True

structure Inv (n : Nat) (rw : RwlockT) (place : Nat → Place) : Prop where
  readlock : rw.readlock + count n Place.inReadlock place = 1
  lock : rw.lock + count n Place.inLock place = 1
  readers : rw.readers = count n Place.counted place
  writelock : rw.writelock + count n Place.inWrite place +
    (if 0 < count n Place.sharing place then 1 else 0) = 1
  known : ∀ i < n, Known rw (place i)

/-! ## What one step does -/

section
variable {loops i : Nat} {rw rw' : RwlockT} {p p' : Place}

theorem prog_readlock (h : prog loops i rw p = some (rw', p')) :
    (rw'.readlock : Int) + (if p'.inReadlock then 1 else 0) = rw.readlock + if p.inReadlock then 1 else 0 := by
  obtain ⟨pc, k⟩ := p
  cases pc <;> simp only [prog, semWait_eq_some, Option.some.injEq, Prod.mk.injEq] at h <;>
    grind [Place.inReadlock]

theorem prog_lock (h : prog loops i rw p = some (rw', p')) :
    (rw'.lock : Int) + (if p'.inLock then 1 else 0) = rw.lock + if p.inLock then 1 else 0 := by
  obtain ⟨pc, k⟩ := p
  cases pc <;> simp only [prog, semWait_eq_some, Option.some.injEq, Prod.mk.injEq] at h <;>
    grind [Place.inLock]

theorem prog_readers (h : prog loops i rw p = some (rw', p')) :
    -rw'.readers + (if p'.counted then 1 else 0) = -rw.readers + if p.counted then 1 else 0 := by
  obtain ⟨pc, k⟩ := p
  cases pc <;> simp only [prog, semWait_eq_some, Option.some.injEq, Prod.mk.injEq] at h <;>
    grind [Place.counted]

theorem prog_known (h : prog loops i rw p = some (rw', p')) : Known rw' p' := by
  obtain ⟨pc, k⟩ := p
  cases pc <;> simp only [prog, semWait_eq_some, Option.some.injEq, Prod.mk.injEq] at h <;> grind [Known]

/-- `readers` belongs to the thread with `lock`. -/
theorem prog_other (h : prog loops i rw p = some (rw', p')) (hp : p.inLock = false) :
    rw'.readers = rw.readers := by
  obtain ⟨pc, k⟩ := p
  cases pc
  case readersInc | readersDec => cases hp
  case reader | writer =>
    simp only [prog] at h
    split at h <;> cases h
    rfl
  all_goals
    simp only [prog, semWait_eq_some, Option.some.injEq, Prod.mk.injEq] at h
    first
    | obtain ⟨rfl, -⟩ := h
      rfl
    | obtain ⟨-, rfl, -⟩ := h
      rfl

/-- With `w` writers and `o` readers that have `writelock` besides the thread that moves. -/
theorem prog_writelock (h : prog loops i rw p = some (rw', p')) (hk : Known rw p) {w o : Nat}
    (hreaders : p.inLock = true → rw.readers = o + if p.counted then 1 else 0)
    (he : rw.writelock + (w + if p.inWrite then 1 else 0) +
      (if 0 < o + (if p.sharing then 1 else 0) then 1 else 0) = 1) :
    rw'.writelock + (w + if p'.inWrite then 1 else 0) +
      (if 0 < o + (if p'.sharing then 1 else 0) then 1 else 0) = 1 := by
  obtain ⟨pc, k⟩ := p
  cases pc
  case testFirst | testLast =>
    cases h
    have := hreaders rfl
    grind [Place.inWrite, Place.sharing, Place.counted]
  case firstWaitWritelock =>
    simp only [prog, semWait_eq_some, Prod.mk.injEq] at h
    obtain ⟨hpos, rfl, rfl⟩ := h
    have hfirst : rw.readers = 1 := hk
    have := hreaders rfl
    grind [Place.inWrite, Place.sharing, Place.counted]
  case lastPostWritelock =>
    cases h
    have hlast : rw.readers = 0 := hk
    have := hreaders rfl
    grind [Place.inWrite, Place.sharing, Place.counted]
  case reader | writer =>
    simp only [prog] at h
    split at h <;> cases h
    exact he
  all_goals
    simp only [prog, semWait_eq_some, Option.some.injEq, Prod.mk.injEq] at h
    first
    | obtain ⟨rfl, rfl⟩ := h
      exact he
    | obtain ⟨-, rfl, rfl⟩ := h
      exact he
    | grind [Place.inWrite, Place.sharing]

end

theorem Known.of_readers {rw rw' : RwlockT} {p : Place} (hk : Known rw p) (h : rw'.readers = rw.readers) :
    Known rw' p := by
  unfold Known at *
  rwa [h]

theorem known_of_inLock_eq_false {p : Place} (rw : RwlockT) (h : p.inLock = false) : Known rw p := by
  obtain ⟨pc, k⟩ := p
  cases pc <;> trivial

/-- Outside of `lock` it is the readers that are counted that have `writelock`. -/
theorem sharing_eq_counted {p : Place} (h : p.inLock = false) : p.sharing = p.counted := by
  obtain ⟨pc, k⟩ := p
  cases pc <;> first | rfl | cases h

theorem Place.sharing_of_inRead {p : Place} (h : p.inRead = true) : p.sharing = true := by
  obtain ⟨pc, k⟩ := p
  cases pc <;> first | rfl | cases h

/-! ## The invariant -/

theorem inv_init (n numReaders : Nat) : Inv n (init numReaders).shared (init numReaders).place := by
  have hnone : ∀ p : Place → Bool, p ⟨.reader, 0⟩ = false → p ⟨.writer, 0⟩ = false →
      count n p (init numReaders).place = 0 := by
    intro p hr hw
    refine count_eq_zero.2 fun i _ => ?_
    show p ⟨if i < numReaders then .reader else .writer, 0⟩ = false
    split
    · exact hr
    · exact hw
  refine ⟨?_, ?_, ?_, ?_, fun i _ => known_of_inLock_eq_false _ ?_⟩
  · rw [hnone _ rfl rfl]
    rfl
  · rw [hnone _ rfl rfl]
    rfl
  · rw [hnone _ rfl rfl]
    rfl
  · rw [hnone _ rfl rfl, hnone _ rfl rfl]
    rfl
  · show Place.inLock ⟨if i < numReaders then .reader else .writer, 0⟩ = false
    split <;> rfl

variable {n loops : Nat} {s s' : State RwlockT Place} {i j : Nat}

/-- `lock` has one holder. -/
theorem Inv.eq_of_inLock (h : Inv n s.shared s.place) (hi : i < n) (hj : j < n)
    (hpi : (s.place i).inLock = true) (hpj : (s.place j).inLock = true) : i = j := by
  have := h.lock
  exact eq_of_count_le_one (show count n Place.inLock s.place ≤ 1 by omega) hi hj hpi hpj

/-- While a thread holds `lock`, the other readers that are counted have `writelock`. -/
theorem Inv.readers_eq_others (h : Inv n s.shared s.place) (hi : i < n) (hp : (s.place i).inLock = true) :
    s.shared.readers = others n i Place.sharing s.place + if (s.place i).counted then 1 else 0 := by
  have hothers : others n i Place.sharing s.place = others n i Place.counted s.place :=
    others_congr fun j hj hji => sharing_eq_counted <| by
      by_contra hpj
      exact hji (h.eq_of_inLock hj hi (by simpa using hpj) hp)
  rw [h.readers, hothers, count_eq_others _ _ hi]
  push_cast
  rfl

theorem known_step (h : Inv n s.shared s.place) (hstep : step n (prog loops) s i = some s') (hj : j < n) :
    Known s'.shared (s'.place j) := by
  have hprog := prog_of_step hstep
  have := h.lock
  exact critical_step (q := Place.inLock) (by omega) hstep (fun rw _ => known_of_inLock_eq_false rw)
    (prog_known hprog) (fun hpi _ hk => hk.of_readers (prog_other hprog hpi)) hj (h.known j hj)

/-- **Every step keeps the invariant.** -/
theorem inv_step (h : Inv n s.shared s.place) (hstep : step n (prog loops) s i = some s') :
    Inv n s'.shared s'.place := by
  have hi := lt_of_step hstep
  have hprog := prog_of_step hstep
  have hreadlock := balance_step (g := fun rw => rw.readlock) hstep (prog_readlock hprog)
  have hlock := balance_step (g := fun rw => rw.lock) hstep (prog_lock hprog)
  have hreaders := balance_step (g := fun rw => -rw.readers) hstep (prog_readers hprog)
  have := h.readlock
  have := h.lock
  have := h.readers
  refine ⟨by omega, by omega, by omega, ?_, fun j hj => known_step h hstep hj⟩
  have hwritelock := h.writelock
  rw [count_eq_others _ _ hi, count_eq_others _ _ hi] at hwritelock ⊢
  rw [others_step _ hstep, others_step _ hstep]
  exact prog_writelock hprog (h.known i hi) (h.readers_eq_others hi) hwritelock

theorem inv_of_reaches {numReaders : Nat} (h : Reaches (step n (prog loops)) (init numReaders) s) :
    Inv n s.shared s.place :=
  invariant (I := fun s : State RwlockT Place => Inv n s.shared s.place) (inv_init n numReaders)
    (fun _ _ _ hm hstep => inv_step hm hstep) h

/-! ## Exclusion and progress -/

/-- A thread stops when it has finished, or in front of a semaphore without tokens. -/
def Blocked (loops : Nat) (rw : RwlockT) (p : Place) : Prop :=
  match p.pc with
  | .reader | .writer => loops ≤ p.i
  | .waitReadlock | .writerWaitReadlock => rw.readlock = 0
  | .waitLock | .releaseWaitLock => rw.lock = 0
  | .firstWaitWritelock | .waitWritelock => rw.writelock = 0
  | _ => False

theorem enabled_or_blocked (s : State RwlockT Place) (i : Nat) :
    Enabled (prog loops) s i ∨ Blocked loops s.shared (s.place i) := by
  unfold Enabled
  rcases s.place i with ⟨pc, k⟩
  cases pc
  case reader | writer =>
    simp only [prog, Blocked]
    split <;> simp_all
  case waitReadlock | writerWaitReadlock | waitLock | releaseWaitLock | firstWaitWritelock | waitWritelock =>
    simp only [prog, semWait_isSome, Blocked]
    omega
  all_goals exact .inl rfl

section
variable {rw : RwlockT} {p : Place}

/-- The thread with `lock` waits for nothing but `writelock`. -/
theorem Blocked.of_inLock (h : Blocked loops rw p) (hp : p.inLock = true) :
    p.pc = .firstWaitWritelock ∧ rw.writelock = 0 := by
  obtain ⟨pc, k⟩ := p
  cases pc <;> simp_all [Blocked, Place.inLock]

theorem Blocked.of_inReadlock (h : Blocked loops rw p) (hp : p.inReadlock = true) : rw.writelock = 0 := by
  obtain ⟨pc, k⟩ := p
  cases pc <;> simp_all [Blocked, Place.inReadlock]

/-- The readers with `writelock` wait for nothing but `lock`. -/
theorem Blocked.of_sharing (h : Blocked loops rw p) (hp : p.sharing = true) :
    p.pc = .releaseWaitLock ∧ rw.lock = 0 := by
  obtain ⟨pc, k⟩ := p
  cases pc <;> simp_all [Blocked, Place.sharing]

theorem Blocked.inWrite_eq_false (h : Blocked loops rw p) : p.inWrite = false := by
  obtain ⟨pc, k⟩ := p
  cases pc <;> simp_all [Blocked, Place.inWrite]

theorem Blocked.waits (h : Blocked loops rw p) (hp : p.finished loops = false) :
    rw.readlock = 0 ∨ rw.lock = 0 ∨ rw.writelock = 0 := by
  obtain ⟨pc, k⟩ := p
  cases pc <;> simp_all [Blocked, Place.finished]

end

/-- **No deadlock**: also when the first reader waits for `writelock` with `lock` in its hands. -/
theorem Inv.progress (h : Inv n s.shared s.place) (hi : i < n) (hp : (s.place i).finished loops = false) :
    ∃ j < n, Enabled (prog loops) s j := by
  by_contra hstuck
  have hblocked : ∀ j < n, Blocked loops s.shared (s.place j) := fun j hj =>
    (enabled_or_blocked s j).resolve_left fun hen => hstuck ⟨j, hj, hen⟩
  -- `lock` is in the hands of the first reader, for want of `writelock`
  have hlock : s.shared.lock = 0 →
      ∃ j < n, (s.place j).pc = .firstWaitWritelock ∧ s.shared.writelock = 0 := by
    intro hzero
    have := h.lock
    obtain ⟨j, hj, hpj⟩ := count_pos.1 (show 0 < count n Place.inLock s.place by omega)
    exact ⟨j, hj, (hblocked j hj).of_inLock hpj⟩
  -- `writelock` is with the readers, for want of `lock`: but then that first reader is the only one
  have hwritelock : s.shared.writelock ≠ 0 := by
    intro hzero
    have hone := h.writelock
    have hwrite : count n Place.inWrite s.place = 0 :=
      count_eq_zero.2 fun j hj => (hblocked j hj).inWrite_eq_false
    rw [hzero, hwrite] at hone
    obtain ⟨j, hj, hpj⟩ := count_pos.1 (show 0 < count n Place.sharing s.place by
      split_ifs at hone with hsharing
      · exact hsharing
      · omega)
    obtain ⟨hpcj, hzero⟩ := (hblocked j hj).of_sharing hpj
    obtain ⟨k, hk, hpck, -⟩ := hlock hzero
    have hreaders := h.known k hk
    rw [Known, hpck] at hreaders
    have hjk : j = k := by
      refine eq_of_count_le_one (p := Place.counted) (f := s.place) (n := n) ?_ hj hk ?_ ?_
      · have := h.readers
        omega
      · simp [Place.counted, hpcj]
      · simp [Place.counted, hpck]
    rw [hjk, hpck] at hpcj
    cases hpcj
  rcases (hblocked i hi).waits hp with hzero | hzero | hzero
  · have := h.readlock
    obtain ⟨j, hj, hpj⟩ := count_pos.1 (show 0 < count n Place.inReadlock s.place by omega)
    exact hwritelock ((hblocked j hj).of_inReadlock hpj)
  · obtain ⟨-, -, -, hwl⟩ := hlock hzero
    exact hwritelock hwl
  · exact hwritelock hzero

/-- **Exclusion and progress.** -/
theorem rwlock_exclusive_progress (numReaders numWriters loops : Nat) (s : State RwlockT Place)
    (h : Reaches (step (numReaders + numWriters) (prog loops)) (init numReaders) s) :
    (∀ i < numReaders + numWriters, (s.place i).inWrite = true → ∀ j < numReaders + numWriters, j ≠ i →
      (s.place j).inWrite = false ∧ (s.place j).inRead = false) ∧
    s.shared.readers = count (numReaders + numWriters) Place.counted s.place ∧
    (s.shared.readlock ≤ 1 ∧ s.shared.writelock ≤ 1 ∧ s.shared.lock ≤ 1) ∧
    ∀ i < numReaders + numWriters, (s.place i).finished loops = false →
      ∃ j < numReaders + numWriters, Enabled (prog loops) s j := by
  have hinv := inv_of_reaches h
  refine ⟨?_, hinv.readers, ⟨?_, ?_, ?_⟩, ?_⟩
  · intro i hi hwi j hj hji
    have hwrite := count_pos.2 ⟨i, hi, hwi⟩
    have hwritelock := hinv.writelock
    split_ifs at hwritelock with hsharing
    · omega
    constructor
    · by_contra hwj
      exact hji (eq_of_count_le_one (by omega) hj hi (by simpa using hwj) hwi)
    · by_contra hrj
      exact hsharing (count_pos.2 ⟨j, hj, Place.sharing_of_inRead (by simpa using hrj)⟩)
  · have := hinv.readlock
    omega
  · have := hinv.writelock
    omega
  · have := hinv.lock
    omega
  · intro i hi hp
    exact hinv.progress hi hp

/-- The reader reads, and the writer has begun to wait. -/
theorem oneReader_oneWriter_exclusive_progress :
    ∃ s, run (step (1 + 1) (prog 1)) (init 1) (List.replicate 8 0 ++ [1, 1]) = some s ∧
      (s.place 0).pc = .reading ∧ (s.place 1).pc = .waitWritelock ∧
      s.shared.readers = count 2 Place.counted s.place ∧ ∃ j < 2, Enabled (prog 1) s j :=
  ⟨_, rfl, rfl, rfl,
    (rwlock_exclusive_progress 1 1 1 _ ⟨List.replicate 8 0 ++ [1, 1], rfl⟩).2.1,
    (rwlock_exclusive_progress 1 1 1 _ ⟨List.replicate 8 0 ++ [1, 1], rfl⟩).2.2.2 1 (by decide) rfl⟩

/-! ## Overtaking -/

/-- The step with which a thread gets its lock. -/
def Place.enters (p : Place) : Bool :=
  match p.pc with
  | .postLock | .waitWritelock => true
  | _ => false

/-- A reader that has passed `readlock`. -/
def Place.mayEnter (p : Place) : Bool :=
  match p.pc with
  | .waitLock | .readersInc | .testFirst | .firstWaitWritelock | .postLock => true
  | _ => false

section
variable {rw rw' : RwlockT} {p p' : Place} {u : Nat}

theorem counts_entered : Counts (prog loops) RwlockT.entered Place.enters := by
  intro i rw p rw' p' h
  obtain ⟨pc, k⟩ := p
  cases pc <;> simp only [prog, semWait_eq_some, Option.some.injEq, Prod.mk.injEq] at h <;>
    grind [Place.enters, RwlockT.enter]

/-- Without `readlock`, a thread enters when it could before. -/
theorem prog_mayEnter (h : prog loops i rw p = some (rw', p')) (hp : p.inReadlock = false) :
    (if p.enters then 1 else 0) + (if p'.mayEnter then 1 else 0) = if p.mayEnter then 1 else 0 := by
  obtain ⟨pc, k⟩ := p
  cases pc <;> simp only [prog, semWait_eq_some, Option.some.injEq, Prod.mk.injEq] at h <;>
    grind [Place.inReadlock, Place.enters, Place.mayEnter]

end

/-- Once for a reader that has passed `readlock`. -/
def owed (u : Nat) (s : State RwlockT Place) : Nat := if (s.place u).mayEnter then 1 else 0

/-- Only the writer with `readlock` could let a thread pass, and only with its entry. -/
theorem owed_step {w u : Nat} (h : Inv n s.shared s.place) (hw : w < n)
    (hwait : (s.place w).pc = .waitWritelock) (hstep : step n (prog loops) s i = some s')
    (hent : s'.shared.entered w = s.shared.entered w) :
    (s'.place w).pc = .waitWritelock ∧ s'.shared.entered u + owed u s' ≤ s.shared.entered u + owed u s := by
  have hwi : w ≠ i := by
    rintro rfl
    have := counts_entered.step_self hstep
    rw [if_pos (by simp [Place.enters, hwait])] at this
    omega
  refine ⟨by rw [place_step_of_ne hstep hwi]; exact hwait, ?_⟩
  unfold owed
  rcases eq_or_ne u i with rfl | hui
  · have hgate : (s.place u).inReadlock = false := by
      by_contra hu
      refine hwi (eq_of_count_le_one (p := Place.inReadlock) ?_ hw (lt_of_step hstep) ?_ (by simpa using hu))
      · have := h.readlock
        omega
      · simp [Place.inReadlock, hwait]
    rw [counts_entered.step_self hstep, Nat.add_assoc, prog_mayEnter (prog_of_step hstep) hgate]
  · rw [counts_entered.step_of_ne hstep hui, place_step_of_ne hstep hui]

/-- **Writers are not overtaken for ever**: from its wait on `readlock` until its wait on `writelock` is
over, no other writer gets its lock and no reader gets it twice. -/
theorem writer_not_overtaken (numReaders numWriters loops w : Nat) (l : List Nat)
    (s s₁ s' : State RwlockT Place)
    (hs : Reaches (step (numReaders + numWriters) (prog loops)) (init numReaders) s)
    (hw : (s.place w).pc = .writerWaitReadlock)
    (hstep : step (numReaders + numWriters) (prog loops) s w = some s₁)
    (hrun : run (step (numReaders + numWriters) (prog loops)) s₁ l = some s')
    (hwait : s'.shared.entered w = s₁.shared.entered w) :
    (∀ u, (s₁.place u).isWriter = true → s'.shared.entered u = s₁.shared.entered u) ∧
      ∀ u, s'.shared.entered u ≤ s₁.shared.entered u + 1 := by
  have hplace : (s₁.place w).pc = .waitWritelock := by
    have hprog := prog_of_step hstep
    rcases hp : s.place w with ⟨pc, k⟩
    rw [hp] at hprog hw
    cases hw
    simp only [prog, semWait_eq_some, Prod.mk.injEq] at hprog
    rw [← hprog.2.2]
  have hpaid : ∀ u, s'.shared.entered u + owed u s' ≤ s₁.shared.entered u + owed u s₁ := fun u =>
    counts_entered.overtaking
      (I := fun m => Inv (numReaders + numWriters) m.shared m.place ∧ (m.place w).pc = .waitWritelock)
      (fun m i m' hm hmstep hent =>
        have hnext := owed_step hm.1 (lt_of_step hstep) hm.2 hmstep hent
        ⟨⟨inv_step hm.1 hmstep, hnext.1⟩, hnext.2⟩)
      ⟨inv_step (inv_of_reaches hs) hstep, hplace⟩ hrun hwait
  constructor
  · intro u hu
    have hnone : owed u s₁ = 0 := by
      revert hu
      unfold owed
      rcases s₁.place u with ⟨pc, k⟩
      cases pc <;> simp [Place.isWriter, Place.mayEnter]
    have := hpaid u
    have := counts_entered.run_le hrun u
    omega
  · intro u
    have := hpaid u
    have : owed u s₁ ≤ 1 := by
      unfold owed
      split_ifs <;> omega
    omega

/-- The reader has passed `readlock` and gets its lock before the writer. -/
theorem oneReader_overtakes_writer :
    ∃ s s₁ s', run (step (1 + 1) (prog 1)) (init 1) [0, 0, 0, 1] = some s ∧
      step (1 + 1) (prog 1) s 1 = some s₁ ∧
      run (step (1 + 1) (prog 1)) s₁ [0, 0, 0, 0, 0] = some s' ∧
      s₁.shared.entered 0 = 0 ∧ s'.shared.entered 0 = 1 ∧
      s'.shared.entered 0 ≤ s₁.shared.entered 0 + 1 :=
  ⟨_, _, _, rfl, rfl, rfl, rfl, rfl,
    (writer_not_overtaken 1 1 1 1 [0, 0, 0, 0, 0] _ _ _ ⟨[0, 0, 0, 1], rfl⟩ rfl rfl rfl rfl).2 0⟩

end OstepHw.RwLock
