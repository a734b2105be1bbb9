import OstepHw.Lib.CInt
import OstepHw.Lib.Program

/-!
# The reader-writer lock that starves writers

Model of the functions of `reader-writer.c` on `rwlock_t`, and of `reader` and `writer`.  A call on a semaphore is one
step, and so is an access to `readers` or `value` and a line of output: `value++` reads `value` in one step and writes
it in another.  `value` is an `int` that wraps around; with fewer than `2 ^ 31` rounds of the writers it never does.

* `Inv` — the semaphores are accounted for, and so is every line of output;
* `Inv.value_lt` — there is room for the next write;
* `rwlock_history` — **a writer is alone, and what is printed is the history of a counter**;
* `rwlock_ends` — **every run ends with all rounds of every thread done**;
* `writer_starves` — all reads can come before a writer that has been waiting from the start.
-/

set_option autoImplicit false

namespace OstepHw.ReaderWriter

open Machine OstepHw.Count Program

/-- A line of output. -/
inductive Line
  | read (value : Int)
  | write (value : Int)
  deriving DecidableEq

/-- `lock`, and the globals of the program. -/
structure RwlockT where
  lock : Nat
  writelock : Nat
  readers : Int
  value : Int
  /-- What is on the screen.  The program does not print which thread a line is from. -/
  printed : List (Nat × Line)

namespace RwlockT

variable (rw : RwlockT)

def lines : List Line := rw.printed.map Prod.snd

/-- The lines of thread `i`. -/
def linesOf (i : Nat) : List Line := (rw.printed.filter fun line => line.1 = i).map Prod.snd

end RwlockT

def rwlockInit : RwlockT := ⟨1, 1, 0, 0, []⟩

/-- What a thread does next. -/
inductive Pc
  /-- `i < loops` of `reader` -/
  | reader
  /-- `rwlock_acquire_readlock` -/
  | waitLock
  | readersInc
  /-- `rw->readers == 1` -/
  | testFirst
  | firstWaitWritelock
  | postLock
  | readValue
  | printRead
  /-- `rwlock_release_readlock` -/
  | releaseWaitLock
  | readersDec
  /-- `rw->readers == 0` -/
  | testLast
  | lastPostWritelock
  | releasePostLock
  /-- `i < loops` of `writer` -/
  | writer
  | waitWritelock
  /-- `value++` -/
  | loadValue
  | storeValue
  | rereadValue
  | printWrite
  | postWritelock
  deriving DecidableEq

structure Place where
  pc : Pc
  /-- The `i` of `reader` or `writer`. -/
  i : Nat
  /-- The `value` that was read last. -/
  tmp : Int := 0

/-- `reader` and `writer`. -/
def prog (loops : Nat) : Prog RwlockT Place
  | _, rw, ⟨.reader, k, t⟩ => if k < loops then some (rw, ⟨.waitLock, k, t⟩) else none
  | _, rw, ⟨.waitLock, k, t⟩ => semWait rw.lock fun v => ({ rw with lock := v }, ⟨.readersInc, k, t⟩)
  | _, rw, ⟨.readersInc, k, t⟩ => some ({ rw with readers := rw.readers + 1 }, ⟨.testFirst, k, t⟩)
  | _, rw, ⟨.testFirst, k, t⟩ => some (rw, ⟨if rw.readers = 1 then .firstWaitWritelock else .postLock, k, t⟩)
  | _, rw, ⟨.firstWaitWritelock, k, t⟩ =>
    semWait rw.writelock fun v => ({ rw with writelock := v }, ⟨.postLock, k, t⟩)
  | _, rw, ⟨.postLock, k, t⟩ => some ({ rw with lock := rw.lock + 1 }, ⟨.readValue, k, t⟩)
  | _, rw, ⟨.readValue, k, _⟩ => some (rw, ⟨.printRead, k, rw.value⟩)
  | i, rw, ⟨.printRead, k, t⟩ => some ({ rw with printed := rw.printed ++ [(i, .read t)] }, ⟨.releaseWaitLock, k, t⟩)
  | _, rw, ⟨.releaseWaitLock, k, t⟩ => semWait rw.lock fun v => ({ rw with lock := v }, ⟨.readersDec, k, t⟩)
  | _, rw, ⟨.readersDec, k, t⟩ => some ({ rw with readers := rw.readers - 1 }, ⟨.testLast, k, t⟩)
  | _, rw, ⟨.testLast, k, t⟩ => some (rw, ⟨if rw.readers = 0 then .lastPostWritelock else .releasePostLock, k, t⟩)
  | _, rw, ⟨.lastPostWritelock, k, t⟩ => some ({ rw with writelock := rw.writelock + 1 }, ⟨.releasePostLock, k, t⟩)
  | _, rw, ⟨.releasePostLock, k, t⟩ => some ({ rw with lock := rw.lock + 1 }, ⟨.reader, k + 1, t⟩)
  | _, rw, ⟨.writer, k, t⟩ => if k < loops then some (rw, ⟨.waitWritelock, k, t⟩) else none
  | _, rw, ⟨.waitWritelock, k, t⟩ => semWait rw.writelock fun v => ({ rw with writelock := v }, ⟨.loadValue, k, t⟩)
  | _, rw, ⟨.loadValue, k, _⟩ => some (rw, ⟨.storeValue, k, rw.value⟩)
  | _, rw, ⟨.storeValue, k, t⟩ => some ({ rw with value := CInt.toInt (t + 1) }, ⟨.rereadValue, k, t⟩)
  | _, rw, ⟨.rereadValue, k, _⟩ => some (rw, ⟨.printWrite, k, rw.value⟩)
  | i, rw, ⟨.printWrite, k, t⟩ => some ({ rw with printed := rw.printed ++ [(i, .write t)] }, ⟨.postWritelock, k, t⟩)
  | _, rw, ⟨.postWritelock, k, t⟩ => some ({ rw with writelock := rw.writelock + 1 }, ⟨.writer, k + 1, t⟩)

/-- The threads of `main`: first the readers, then the writers. -/
def init (numReaders : Nat) : State RwlockT Place :=
  ⟨rwlockInit, fun i => ⟨if i < numReaders then .reader else .writer, 0, 0⟩⟩

example : Enabled (prog 1) (init 1) 0 ∧ ¬Enabled (prog 0) (init 1) 0 := by
  simp [Enabled, prog, init]

namespace Place

variable (p : Place)

/-- `reader` or `writer` has returned. -/
def finished (loops : Nat) : Bool :=
  match p.pc with
  | .reader | .writer => loops ≤ p.i
  | _ => false

def isWriter : Bool :=
  match p.pc with
  | .writer | .waitWritelock | .loadValue | .storeValue | .rereadValue | .printWrite | .postWritelock => true
  | _ => false

/-- Between a wait on `lock` and the post that follows it. -/
def inLock : Bool :=
  match p.pc with
  | .readersInc | .testFirst | .firstWaitWritelock | .postLock | .readersDec | .testLast | .lastPostWritelock
  | .releasePostLock => true
  | _ => false

/-- Between the return of `rwlock_acquire_writelock` and the post on `writelock`. -/
def inWrite : Bool :=
  match p.pc with
  | .loadValue | .storeValue | .rereadValue | .printWrite | .postWritelock => true
  | _ => false

/-- Between the return of `rwlock_acquire_readlock` and its end as a reader. -/
def inRead : Bool :=
  match p.pc with
  | .readValue | .printRead | .releaseWaitLock | .readersDec | .testLast | .lastPostWritelock => true
  | _ => false

/-- Between `readers++` and `readers--`. -/
def counted : Bool :=
  match p.pc with
  | .testFirst | .firstWaitWritelock | .postLock | .readValue | .printRead | .releaseWaitLock | .readersDec => true
  | _ => false

/-- One of the readers that have `writelock` together. -/
def sharing : Bool :=
  match p.pc with
  | .postLock | .readValue | .printRead | .releaseWaitLock | .readersDec | .testLast | .lastPostWritelock => true
  | _ => false

/-- The new value is there, and has not been printed. -/
def unprinted : Bool :=
  match p.pc with
  | .rereadValue | .printWrite => true
  | _ => false

/-- The lines that a reader has printed. -/
def reads : Nat :=
  match p.pc with
  | .releaseWaitLock | .readersDec | .testLast | .lastPostWritelock | .releasePostLock => p.i + 1
  | .writer | .waitWritelock | .loadValue | .storeValue | .rereadValue | .printWrite | .postWritelock => 0
  | _ => p.i

/-- The lines that a writer has printed. -/
def writes : Nat :=
  match p.pc with
  | .postWritelock => p.i + 1
  | .writer | .waitWritelock | .loadValue | .storeValue | .rereadValue | .printWrite => p.i
  | _ => 0

/-- An upper bound of the steps that are left of a round. -/
def left : Nat :=
  match p.pc with
  | .reader | .writer => 13
  | .waitLock => 12
  | .readersInc => 11
  | .testFirst => 10
  | .firstWaitWritelock => 9
  | .postLock => 8
  | .readValue => 7
  | .printRead | .waitWritelock => 6
  | .releaseWaitLock | .loadValue => 5
  | .readersDec | .storeValue => 4
  | .testLast | .rereadValue => 3
  | .lastPostWritelock | .printWrite => 2
  | .releasePostLock | .postWritelock => 1

/-- The steps that are left. -/
def rank (loops : Nat) : Nat := 13 * loops + p.left - 13 * (p.i + 1)

end Place

/-- What a thread has found out. -/
def Known (loops : Nat) (rw : RwlockT) (p : Place) : Prop :=
  match p.pc with
  | .reader | .writer => p.i ≤ loops
  | .firstWaitWritelock => rw.readers = 1 ∧ p.i < loops
  | .lastPostWritelock => rw.readers = 0 ∧ p.i < loops
  | .printRead | .storeValue | .printWrite => p.tmp = rw.value ∧ p.i < loops
  | _ => p.i < loops

/-- The lines are those of a counter that was `n`: a write gives it the next number, and a read finds the number that
was written last. -/
def History : Int → List Line → Prop
  | _, [] => True
  | n, .write v :: l => v = n + 1 ∧ History (n + 1) l
  | n, .read v :: l => v = n ∧ History n l

def isRead : Line → Bool
  | .read _ => true
  | .write _ => false

def writesOf (l : List Line) : Nat := l.countP fun line => !isRead line

structure Inv (n numReaders loops : Nat) (rw : RwlockT) (place : Nat → Place) : Prop where
  lock : rw.lock + count n Place.inLock place = 1
  readers : rw.readers = count n Place.counted place
  writelock : rw.writelock + count n Place.inWrite place +
    (if 0 < count n Place.sharing place then 1 else 0) = 1
  known : ∀ i < n, Known loops rw (place i)
  value : rw.value = writesOf rw.lines + count n Place.unprinted place
  history : History 0 rw.lines
  reads : total n Place.reads place = rw.lines.countP isRead
  writes : total n Place.writes place = writesOf rw.lines
  own : ∀ i < n, (rw.linesOf i).countP isRead = (place i).reads ∧ writesOf (rw.linesOf i) = (place i).writes
  kind : ∀ i < n, (place i).isWriter = decide (numReaders ≤ i)

/-! ## The history -/

theorem writesOf_read (v : Int) (l : List Line) : writesOf (.read v :: l) = writesOf l :=
  List.countP_cons_of_neg Bool.false_ne_true

theorem writesOf_write (v : Int) (l : List Line) : writesOf (.write v :: l) = writesOf l + 1 :=
  List.countP_cons_of_pos rfl

theorem history_concat {m : Int} {l : List Line} {line : Line} :
    History m (l ++ [line]) ↔ History m l ∧
      line = if isRead line then .read (m + writesOf l) else .write (m + writesOf l + 1) := by
  induction l generalizing m with
  | nil => cases line <;> simp [History, isRead, writesOf]
  | cons x l ih =>
    cases x with
    | read v => rw [List.cons_append, History, History, ih, writesOf_read, and_assoc]
    | write v =>
      have hshift : m + 1 + (writesOf l : Int) = m + (writesOf l + 1 : Nat) := by omega
      rw [List.cons_append, History, History, ih, writesOf_write, and_assoc, hshift]

theorem countP_isRead_concat (l : List Line) (line : Line) :
    (l ++ [line]).countP isRead = l.countP isRead + if isRead line then 1 else 0 := by
  rw [List.countP_append, List.countP_singleton]

theorem writesOf_concat (l : List Line) (line : Line) :
    writesOf (l ++ [line]) = writesOf l + if isRead line then 0 else 1 := by
  cases line <;> simp [writesOf, isRead]

namespace RwlockT

variable {rw rw' : RwlockT} {i : Nat} {line : Line}

theorem lines_of_printed (h : rw'.printed = rw.printed ++ [(i, line)]) : rw'.lines = rw.lines ++ [line] := by
  rw [lines, h, List.map_append]
  rfl

theorem linesOf_self (h : rw'.printed = rw.printed ++ [(i, line)]) : rw'.linesOf i = rw.linesOf i ++ [line] := by
  rw [linesOf, h, List.filter_append, List.map_append]
  simp [linesOf]

theorem linesOf_of_ne {j : Nat} (h : rw'.printed = rw.printed ++ [(i, line)]) (hji : j ≠ i) :
    rw'.linesOf j = rw.linesOf j := by
  rw [linesOf, h, List.filter_append, List.map_append]
  simp [linesOf, Ne.symm hji]

end RwlockT

/-! ## What one step does -/

section
variable {loops i : Nat} {rw rw' : RwlockT} {p p' : Place}

theorem prog_lock (h : prog loops i rw p = some (rw', p')) :
    (rw'.lock : Int) + (if p'.inLock then 1 else 0) = rw.lock + if p.inLock then 1 else 0 := by
  obtain ⟨pc, k, t⟩ := p
  cases pc <;> simp only [prog, semWait_eq_some, Option.some.injEq, Prod.mk.injEq] at h <;>
    grind [Place.inLock]

theorem prog_readers (h : prog loops i rw p = some (rw', p')) :
    -rw'.readers + (if p'.counted then 1 else 0) = -rw.readers + if p.counted then 1 else 0 := by
  obtain ⟨pc, k, t⟩ := p
  cases pc <;> simp only [prog, semWait_eq_some, Option.some.injEq, Prod.mk.injEq] at h <;>
    grind [Place.counted]

theorem prog_known (h : prog loops i rw p = some (rw', p')) (hk : Known loops rw p) : Known loops rw' p' := by
  obtain ⟨pc, k, t⟩ := p
  cases pc <;> simp only [prog, semWait_eq_some, Option.some.injEq, Prod.mk.injEq] at h <;>
    simp only [Known] at hk <;> grind [Known]

theorem prog_kind (h : prog loops i rw p = some (rw', p')) : p'.isWriter = p.isWriter := by
  obtain ⟨pc, k, t⟩ := p
  cases pc <;> simp only [prog, semWait_eq_some, Option.some.injEq, Prod.mk.injEq] at h <;>
    grind [Place.isWriter]

theorem prog_rank (h : prog loops i rw p = some (rw', p')) (hk : Known loops rw p) :
    p'.rank loops < p.rank loops := by
  obtain ⟨pc, k, t⟩ := p
  cases pc <;> simp only [prog, semWait_eq_some, Option.some.injEq, Prod.mk.injEq] at h <;>
    simp only [Known] at hk <;> grind [Place.rank, Place.left]

/-- A step that prints nothing, or one line. -/
theorem prog_printed (h : prog loops i rw p = some (rw', p')) :
    (rw'.printed = rw.printed ∧ p'.reads = p.reads ∧ p'.writes = p.writes) ∨
    (p.pc = .printRead ∧ rw'.printed = rw.printed ++ [(i, .read p.tmp)] ∧ p'.reads = p.reads + 1 ∧
      p'.writes = p.writes) ∨
    (p.pc = .printWrite ∧ rw'.printed = rw.printed ++ [(i, .write p.tmp)] ∧ p'.reads = p.reads ∧
      p'.writes = p.writes + 1) := by
  obtain ⟨pc, k, t⟩ := p
  cases pc <;> simp only [prog, semWait_eq_some, Option.some.injEq, Prod.mk.injEq] at h <;>
    grind [Place.reads, Place.writes]

/-- `value` belongs to the thread with `writelock`. -/
theorem prog_value (h : prog loops i rw p = some (rw', p')) (hk : Known loops rw p)
    (hfits : p.pc = .storeValue → CInt.toInt (rw.value + 1) = rw.value + 1) :
    rw'.value - writesOf rw'.lines + (if p.unprinted then 1 else 0) =
      rw.value - writesOf rw.lines + if p'.unprinted then 1 else 0 := by
  obtain ⟨pc, k, t⟩ := p
  cases pc <;> simp only [prog, semWait_eq_some, Option.some.injEq, Prod.mk.injEq] at h <;>
    simp only [Known] at hk <;> grind [Place.unprinted, writesOf, isRead, RwlockT.lines]

theorem prog_readers_of_not_inLock (h : prog loops i rw p = some (rw', p')) (hp : p.inLock = false) :
    rw'.readers = rw.readers := by
  obtain ⟨pc, k, t⟩ := p
  cases pc <;> simp only [prog, semWait_eq_some, Option.some.injEq, Prod.mk.injEq] at h <;>
    grind [Place.inLock]

theorem prog_value_of_not_inWrite (h : prog loops i rw p = some (rw', p')) (hp : p.inWrite = false) :
    rw'.value = rw.value := by
  obtain ⟨pc, k, t⟩ := p
  cases pc <;> simp only [prog, semWait_eq_some, Option.some.injEq, Prod.mk.injEq] at h <;>
    grind [Place.inWrite]

end

/-- What a thread knows stays true as long as it has the locks for it. -/
theorem Known.mono {loops : Nat} {rw rw' : RwlockT} {p : Place} (h : Known loops rw p)
    (hreaders : p.inLock = true → rw'.readers = rw.readers)
    (hvalue : p.inWrite = true ∨ p.sharing = true → rw'.value = rw.value) : Known loops rw' p := by
  obtain ⟨pc, k, t⟩ := p
  cases pc <;> simp_all [Known, Place.inLock, Place.inWrite, Place.sharing]

/-- Outside of `lock` it is the readers that are counted that have `writelock`. -/
theorem sharing_eq_counted {p : Place} (h : p.inLock = false) : p.sharing = p.counted := by
  obtain ⟨pc, k, t⟩ := p
  cases pc <;> first | rfl | cases h

theorem Place.sharing_of_inRead {p : Place} (h : p.inRead = true) : p.sharing = true := by
  obtain ⟨pc, k, t⟩ := p
  cases pc <;> first | rfl | cases h

theorem Place.inWrite_of_unprinted {p : Place} (h : p.unprinted = true) : p.inWrite = true := by
  obtain ⟨pc, k, t⟩ := p
  cases pc <;> first | rfl | cases h

/-- With `w` writers and `o` readers that have `writelock` besides the thread that moves. -/
theorem prog_writelock {loops i : Nat} {rw rw' : RwlockT} {p p' : Place}
    (h : prog loops i rw p = some (rw', p')) (hk : Known loops rw p) {w o : Nat}
    (hreaders : p.inLock = true → rw.readers = o + if p.counted then 1 else 0)
    (he : rw.writelock + (w + if p.inWrite then 1 else 0) +
      (if 0 < o + (if p.sharing then 1 else 0) then 1 else 0) = 1) :
    rw'.writelock + (w + if p'.inWrite then 1 else 0) +
      (if 0 < o + (if p'.sharing then 1 else 0) then 1 else 0) = 1 := by
  obtain ⟨pc, k, t⟩ := p
  cases pc
  case testFirst | testLast =>
    cases h
    have := hreaders rfl
    grind [Place.inWrite, Place.sharing, Place.counted]
  case firstWaitWritelock =>
    simp only [prog, semWait_eq_some, Prod.mk.injEq] at h
    obtain ⟨hpos, rfl, rfl⟩ := h
    have hfirst : rw.readers = 1 := hk.1
    have := hreaders rfl
    grind [Place.inWrite, Place.sharing, Place.counted]
  case lastPostWritelock =>
    cases h
    have hlast : rw.readers = 0 := hk.1
    have := hreaders rfl
    grind [Place.inWrite, Place.sharing, Place.counted]
  case reader | writer =>
    simp only [prog] at h
    split at h <;> cases h
    exact he
  all_goals
    simp only [prog, semWait_eq_some, Option.some.injEq, Prod.mk.injEq] at h
    first
    | obtain ⟨rfl, rfl⟩ := h
      exact he
    | obtain ⟨-, rfl, rfl⟩ := h
      exact he
    | grind [Place.inWrite, Place.sharing]

/-! ## The invariant -/

theorem inv_init (n numReaders loops : Nat) :
    Inv n numReaders loops (init numReaders).shared (init numReaders).place := by
  have hstart (i : Nat) : (init numReaders).place i = ⟨.reader, 0, 0⟩ ∧ i < numReaders ∨
      (init numReaders).place i = ⟨.writer, 0, 0⟩ ∧ numReaders ≤ i := by
    by_cases hi : i < numReaders
    · exact .inl ⟨by simp [init, hi], hi⟩
    · exact .inr ⟨by simp [init, hi], Nat.not_lt.1 hi⟩
  have hnone (p : Place → Bool) (hr : p ⟨.reader, 0, 0⟩ = false) (hw : p ⟨.writer, 0, 0⟩ = false) :
      count n p (init numReaders).place = 0 :=
    count_eq_zero.2 fun i _ => by rcases hstart i with ⟨hi, -⟩ | ⟨hi, -⟩ <;> rw [hi] <;> assumption
  have hzero (r : Place → Nat) (hr : r ⟨.reader, 0, 0⟩ = 0) (hw : r ⟨.writer, 0, 0⟩ = 0) :
      total n r (init numReaders).place = 0 :=
    total_eq_zero fun i _ => by rcases hstart i with ⟨hi, -⟩ | ⟨hi, -⟩ <;> rw [hi] <;> assumption
  refine ⟨?_, ?_, ?_, fun i _ => ?_, ?_, trivial, hzero _ rfl rfl, hzero _ rfl rfl, fun i _ => ?_, fun i _ => ?_⟩
  · rw [hnone _ rfl rfl]
    rfl
  · rw [hnone _ rfl rfl]
    rfl
  · rw [hnone _ rfl rfl, hnone _ rfl rfl]
    rfl
  · rcases hstart i with ⟨hi, -⟩ | ⟨hi, -⟩ <;> rw [hi] <;> exact Nat.zero_le _
  · rw [hnone _ rfl rfl]
    rfl
  · rcases hstart i with ⟨hi, -⟩ | ⟨hi, -⟩ <;> rw [hi] <;> exact ⟨rfl, rfl⟩
  · rcases hstart i with ⟨hi, hlt⟩ | ⟨hi, hle⟩
    · rw [hi, decide_eq_false (Nat.not_le.2 hlt)]
      rfl
    · rw [hi, decide_eq_true hle]
      rfl

variable {n numReaders loops : Nat} {s s' : State RwlockT Place} {i j : Nat}

/-- `lock` has one holder. -/
theorem Inv.eq_of_inLock (h : Inv n numReaders loops s.shared s.place) (hi : i < n) (hj : j < n)
    (hpi : (s.place i).inLock = true) (hpj : (s.place j).inLock = true) : i = j := by
  have := h.lock
  exact eq_of_count_le_one (show count n Place.inLock s.place ≤ 1 by omega) hi hj hpi hpj

/-- A writer is alone. -/
theorem Inv.alone (h : Inv n numReaders loops s.shared s.place) (hi : i < n) (hj : j < n) (hji : j ≠ i)
    (hpi : (s.place i).inWrite = true) : (s.place j).inWrite = false ∧ (s.place j).sharing = false := by
  have hwrite := count_pos.2 ⟨i, hi, hpi⟩
  have hwritelock := h.writelock
  split_ifs at hwritelock with hsharing
  · omega
  constructor
  · by_contra hpj
    exact hji (eq_of_count_le_one (by omega) hj hi (by simpa using hpj) hpi)
  · by_contra hpj
    exact hsharing (count_pos.2 ⟨j, hj, by simpa using hpj⟩)

/-- While a thread holds `lock`, the other readers that are counted have `writelock`. -/
theorem Inv.readers_eq_others (h : Inv n numReaders loops s.shared s.place) (hi : i < n)
    (hp : (s.place i).inLock = true) :
    s.shared.readers = others n i Place.sharing s.place + if (s.place i).counted then 1 else 0 := by
  have hothers : others n i Place.sharing s.place = others n i Place.counted s.place :=
    others_congr fun j hj hji => sharing_eq_counted <| by
      by_contra hpj
      exact hji (h.eq_of_inLock hj hi (by simpa using hpj) hp)
  rw [h.readers, hothers, count_eq_others _ _ hi]
  push_cast
  rfl

/-- Only the line that a writer is about to print is missing. -/
theorem Inv.unprinted_eq (h : Inv n numReaders loops s.shared s.place) (hi : i < n)
    (hp : (s.place i).inWrite = true ∨ (s.place i).sharing = true) :
    count n Place.unprinted s.place = if (s.place i).unprinted then 1 else 0 := by
  have hothers : others n i Place.unprinted s.place = 0 := by
    refine List.countP_eq_zero.2 fun j hj => ?_
    have hj := List.mem_range.1 hj
    by_contra hpj
    obtain ⟨hji, hpj⟩ : j ≠ i ∧ (s.place j).unprinted = true := by simpa using hpj
    obtain ⟨hwrite, hsharing⟩ := h.alone hj hi (Ne.symm hji) (Place.inWrite_of_unprinted hpj)
    rcases hp with hp | hp
    · rw [hp] at hwrite
      cases hwrite
    · rw [hp] at hsharing
      cases hsharing
  rw [count_eq_others _ _ hi, hothers, Nat.zero_add]

theorem known_step (h : Inv n numReaders loops s.shared s.place) (hstep : step n (prog loops) s i = some s')
    (hj : j < n) : Known loops s'.shared (s'.place j) := by
  have hprog := prog_of_step hstep
  have hi := lt_of_step hstep
  rcases eq_or_ne j i with rfl | hji
  · exact prog_known hprog (h.known j hj)
  rw [place_step_of_ne hstep hji]
  refine (h.known j hj).mono (fun hlock => ?_) fun hshares => ?_
  · refine prog_readers_of_not_inLock hprog ?_
    by_contra hpi
    exact hji (h.eq_of_inLock hj hi hlock (by simpa using hpi))
  · refine prog_value_of_not_inWrite hprog ?_
    by_contra hpi
    obtain ⟨hwrite, hsharing⟩ := h.alone hi hj hji (by simpa using hpi)
    simp [hwrite, hsharing] at hshares

/-- A line that is printed is the next one of the history, and is counted for the thread that prints it. -/
theorem lines_step (h : Inv n numReaders loops s.shared s.place) (hstep : step n (prog loops) s i = some s') :
    History 0 s'.shared.lines ∧ total n Place.reads s'.place = s'.shared.lines.countP isRead ∧
      total n Place.writes s'.place = writesOf s'.shared.lines := by
  have hi := lt_of_step hstep
  have hreads := total_step Place.reads hstep
  have hwrites := total_step Place.writes hstep
  have hreads₀ := h.reads
  have hwrites₀ := h.writes
  have hvalue := h.value
  have hknown := h.known i hi
  rcases prog_printed (prog_of_step hstep) with ⟨hline, hr, hw⟩ | ⟨hpc, hline, hr, hw⟩ | ⟨hpc, hline, hr, hw⟩
  · rw [RwlockT.lines, hline]
    exact ⟨h.history, by rw [← RwlockT.lines]; omega, by rw [← RwlockT.lines]; omega⟩
  · have hnone := h.unprinted_eq hi (.inr (by rw [Place.sharing, hpc]))
    rw [Place.unprinted, hpc] at hnone
    rw [Known, hpc] at hknown
    rw [RwlockT.lines_of_printed hline, history_concat, countP_isRead_concat, writesOf_concat]
    simp only [isRead, if_true]
    refine ⟨⟨h.history, ?_⟩, by omega, by omega⟩
    rw [hknown.1, hvalue, hnone]
    simp
  · have hown := h.unprinted_eq hi (.inl (by rw [Place.inWrite, hpc]))
    rw [Place.unprinted, hpc] at hown
    rw [Known, hpc] at hknown
    rw [RwlockT.lines_of_printed hline, history_concat, countP_isRead_concat, writesOf_concat]
    simp only [isRead, Bool.false_eq_true, if_false]
    refine ⟨⟨h.history, ?_⟩, by omega, by omega⟩
    rw [hknown.1, hvalue, hown]
    simp

/-- Every thread has printed what its place says. -/
theorem own_step (h : Inv n numReaders loops s.shared s.place) (hstep : step n (prog loops) s i = some s')
    (hj : j < n) : (s'.shared.linesOf j).countP isRead = (s'.place j).reads ∧
      writesOf (s'.shared.linesOf j) = (s'.place j).writes := by
  obtain ⟨hreads, hwrites⟩ := h.own j hj
  have hprinted := prog_printed (prog_of_step hstep)
  rcases eq_or_ne j i with rfl | hji
  · rcases hprinted with ⟨hline, hr, hw⟩ | ⟨-, hline, hr, hw⟩ | ⟨-, hline, hr, hw⟩
    · rw [RwlockT.linesOf, hline, hr, hw]
      exact ⟨hreads, hwrites⟩
    · rw [RwlockT.linesOf_self hline, countP_isRead_concat, writesOf_concat, hreads, hwrites, hr, hw]
      exact ⟨rfl, rfl⟩
    · rw [RwlockT.linesOf_self hline, countP_isRead_concat, writesOf_concat, hreads, hwrites, hr, hw]
      exact ⟨rfl, rfl⟩
  · have hsame : s'.shared.linesOf j = s.shared.linesOf j := by
      rcases hprinted with ⟨hline, -⟩ | ⟨-, hline, -⟩ | ⟨-, hline, -⟩
      · rw [RwlockT.linesOf, hline]
        rfl
      · exact RwlockT.linesOf_of_ne hline hji
      · exact RwlockT.linesOf_of_ne hline hji
    rw [hsame, place_step_of_ne hstep hji]
    exact ⟨hreads, hwrites⟩

/-- The rounds of a thread that writes. -/
theorem Known.writes_le {rw : RwlockT} {p : Place} (h : Known loops rw p) :
    p.writes ≤ if p.isWriter then loops else 0 := by
  obtain ⟨pc, k, t⟩ := p
  cases pc <;> simp only [Known, Place.writes, Place.isWriter, if_true, Bool.false_eq_true, if_false] at h ⊢ <;> omega

theorem Inv.count_isWriter (h : Inv n numReaders loops s.shared s.place) :
    count n Place.isWriter s.place = n - numReaders :=
  count_interval le_rfl fun i hi => by
    rw [h.kind i hi]
    simp [hi]

/-- **There is room for the next write**: the writer has not done all its rounds, and the others have not done more
than theirs. -/
theorem Inv.value_lt (h : Inv n numReaders loops s.shared s.place) (hi : i < n)
    (hpc : (s.place i).pc = .storeValue) : s.shared.value < (loops * (n - numReaders) : Nat) := by
  have hnone := h.unprinted_eq hi (.inl (by rw [Place.inWrite, hpc]))
  rw [Place.unprinted, hpc] at hnone
  have hround : (s.place i).writes < if (s.place i).isWriter then loops else 0 := by
    have hknown := h.known i hi
    rw [Known, hpc] at hknown
    rw [Place.writes, Place.isWriter, hpc]
    exact hknown.2
  have hless : total n Place.writes s.place < total n (fun p => if p.isWriter then loops else 0) s.place :=
    total_lt (fun j hj => (h.known j hj).writes_le) hi hround
  have hrounds : total n (fun p => if p.isWriter then loops else 0) s.place = loops * count n Place.isWriter s.place :=
    total_eq_mul_count fun _ _ => rfl
  rw [hrounds, h.count_isWriter, h.writes] at hless
  rw [h.value, hnone]
  exact Int.ofNat_lt.2 hless

/-- **Every step keeps the invariant.** -/
theorem inv_step (hfits : loops * (n - numReaders) < 2 ^ 31) (h : Inv n numReaders loops s.shared s.place)
    (hstep : step n (prog loops) s i = some s') : Inv n numReaders loops s'.shared s'.place := by
  have hi := lt_of_step hstep
  have hprog := prog_of_step hstep
  have hk := h.known i hi
  have hlock := balance_step (g := fun rw => rw.lock) hstep (prog_lock hprog)
  have hreaders := balance_step (g := fun rw => -rw.readers) hstep (prog_readers hprog)
  have hvalue := count_step Place.unprinted hstep
  have hlocks := h.lock
  have hcounted := h.readers
  have hvalues := h.value
  have hlocal := prog_value hprog hk fun hpc => by
    have hroom := h.value_lt hi hpc
    exact CInt.toInt_of_lt (by omega) (by omega)
  have hlines := lines_step h hstep
  refine ⟨by omega, by omega, ?_, fun j hj => known_step h hstep hj, ?_, hlines.1, hlines.2.1, hlines.2.2,
    fun j hj => own_step h hstep hj, fun j hj => ?_⟩
  · have hwritelock := h.writelock
    rw [count_eq_others _ _ hi, count_eq_others _ _ hi] at hwritelock ⊢
    rw [others_step _ hstep, others_step _ hstep]
    exact prog_writelock hprog hk (h.readers_eq_others hi) hwritelock
  · split_ifs at hvalue hlocal <;> omega
  · rcases eq_or_ne j i with rfl | hji
    · rw [prog_kind hprog]
      exact h.kind j hj
    · rw [place_step_of_ne hstep hji]
      exact h.kind j hj

theorem inv_of_reaches (hfits : loops * (n - numReaders) < 2 ^ 31)
    (h : Reaches (step n (prog loops)) (init numReaders) s) : Inv n numReaders loops s.shared s.place :=
  invariant (I := fun s : State RwlockT Place => Inv n numReaders loops s.shared s.place)
    (inv_init n numReaders loops) (fun _ _ _ hm hstep => inv_step hfits hm hstep) h

/-! ## Progress -/

/-- A thread stops when it has finished, or in front of a semaphore without tokens. -/
def Blocked (loops : Nat) (rw : RwlockT) (p : Place) : Prop :=
  match p.pc with
  | .reader | .writer => loops ≤ p.i
  | .waitLock | .releaseWaitLock => rw.lock = 0
  | .firstWaitWritelock | .waitWritelock => rw.writelock = 0
  | _ => False

theorem enabled_or_blocked (s : State RwlockT Place) (i : Nat) :
    Enabled (prog loops) s i ∨ Blocked loops s.shared (s.place i) := by
  unfold Enabled
  rcases s.place i with ⟨pc, k, t⟩
  cases pc
  case reader | writer =>
    simp only [prog, Blocked]
    split <;> simp_all
  case waitLock | releaseWaitLock | firstWaitWritelock | waitWritelock =>
    simp only [prog, semWait_isSome, Blocked]
    omega
  all_goals exact .inl rfl

section
variable {rw : RwlockT} {p : Place}

/-- The thread with `lock` waits for nothing but `writelock`. -/
theorem Blocked.of_inLock (h : Blocked loops rw p) (hp : p.inLock = true) :
    p.pc = .firstWaitWritelock ∧ rw.writelock = 0 := by
  obtain ⟨pc, k, t⟩ := p
  cases pc <;> simp_all [Blocked, Place.inLock]

/-- The readers with `writelock` wait for nothing but `lock`. -/
theorem Blocked.of_sharing (h : Blocked loops rw p) (hp : p.sharing = true) :
    p.pc = .releaseWaitLock ∧ rw.lock = 0 := by
  obtain ⟨pc, k, t⟩ := p
  cases pc <;> simp_all [Blocked, Place.sharing]

theorem Blocked.inWrite_eq_false (h : Blocked loops rw p) : p.inWrite = false := by
  obtain ⟨pc, k, t⟩ := p
  cases pc <;> simp_all [Blocked, Place.inWrite]

theorem Blocked.waits (h : Blocked loops rw p) (hp : p.finished loops = false) : rw.lock = 0 ∨ rw.writelock = 0 := by
  obtain ⟨pc, k, t⟩ := p
  cases pc <;> simp_all [Blocked, Place.finished]

end

/-- **No deadlock**: also when the first reader waits for `writelock` with `lock` in its hands. -/
theorem Inv.progress (h : Inv n numReaders loops s.shared s.place) (hi : i < n)
    (hp : (s.place i).finished loops = false) : ∃ j < n, Enabled (prog loops) s j := by
  by_contra hstuck
  have hblocked : ∀ j < n, Blocked loops s.shared (s.place j) := fun j hj =>
    (enabled_or_blocked s j).resolve_left fun hen => hstuck ⟨j, hj, hen⟩
  -- `lock` is in the hands of the first reader, for want of `writelock`
  have hlock : s.shared.lock = 0 →
      ∃ j < n, (s.place j).pc = .firstWaitWritelock ∧ s.shared.writelock = 0 := by
    intro hzero
    have := h.lock
    obtain ⟨j, hj, hpj⟩ := count_pos.1 (show 0 < count n Place.inLock s.place by omega)
    exact ⟨j, hj, (hblocked j hj).of_inLock hpj⟩
  -- `writelock` is with the readers, for want of `lock`: but then that first reader is the only one
  have hwritelock : s.shared.writelock ≠ 0 := by
    intro hzero
    have hone := h.writelock
    have hwrite : count n Place.inWrite s.place = 0 :=
      count_eq_zero.2 fun j hj => (hblocked j hj).inWrite_eq_false
    rw [hzero, hwrite] at hone
    obtain ⟨j, hj, hpj⟩ := count_pos.1 (show 0 < count n Place.sharing s.place by
      split_ifs at hone with hsharing
      · exact hsharing
      · omega)
    obtain ⟨hpcj, hzero⟩ := (hblocked j hj).of_sharing hpj
    obtain ⟨k, hk, hpck, -⟩ := hlock hzero
    have hreaders := h.known k hk
    rw [Known, hpck] at hreaders
    have hjk : j = k := by
      refine eq_of_count_le_one (p := Place.counted) (f := s.place) (n := n) ?_ hj hk ?_ ?_
      · have := h.readers
        omega
      · simp [Place.counted, hpcj]
      · simp [Place.counted, hpck]
    rw [hjk, hpck] at hpcj
    cases hpcj
  rcases (hblocked i hi).waits hp with hzero | hzero
  · obtain ⟨-, -, -, hwl⟩ := hlock hzero
    exact hwritelock hwl
  · exact hwritelock hzero

/-- **The lock and the output**: a writer is alone, what is printed is the history of a counter, which counts the
writes, and nobody is stuck. -/
theorem rwlock_history (numReaders numWriters loops : Nat) (hfits : loops * numWriters < 2 ^ 31)
    (s : State RwlockT Place)
    (h : Reaches (step (numReaders + numWriters) (prog loops)) (init numReaders) s) :
    (∀ i < numReaders + numWriters, (s.place i).inWrite = true → ∀ j < numReaders + numWriters, j ≠ i →
      (s.place j).inWrite = false ∧ (s.place j).inRead = false) ∧
    History 0 s.shared.lines ∧
    s.shared.value = writesOf s.shared.lines + count (numReaders + numWriters) Place.unprinted s.place ∧
    ∀ i < numReaders + numWriters, (s.place i).finished loops = false →
      ∃ j < numReaders + numWriters, Enabled (prog loops) s j := by
  rw [← Nat.add_sub_cancel_left numReaders numWriters] at hfits
  have hinv := inv_of_reaches hfits h
  refine ⟨fun i hi hwi j hj hji => ?_, hinv.history, hinv.value, fun i hi hp => hinv.progress hi hp⟩
  obtain ⟨hwrite, hsharing⟩ := hinv.alone hi hj hji hwi
  refine ⟨hwrite, ?_⟩
  by_contra hrj
  rw [Place.sharing_of_inRead (by simpa using hrj)] at hsharing
  cases hsharing

/-- The writer has written, and the reader reads. -/
theorem oneReader_oneWriter_history :
    ∃ s, run (step (1 + 1) (prog 1)) (init 1) (List.replicate 7 1 ++ List.replicate 8 0) = some s ∧
      (s.place 0).inRead = true ∧ s.shared.printed = [(1, .write 1), (0, .read 1)] ∧ History 0 s.shared.lines :=
  ⟨_, rfl, rfl, rfl,
    (rwlock_history 1 1 1 (by decide) _ ⟨List.replicate 7 1 ++ List.replicate 8 0, rfl⟩).2.1⟩

/-! ## The end of a run -/

theorem rank_run (hfits : loops * (n - numReaders) < 2 ^ 31) {l : List Nat}
    (h : run (step n (prog loops)) (init numReaders) l = some s) :
    l.length + total n (Place.rank · loops) s.place ≤ 13 * loops * n := by
  have hall : Inv n numReaders loops s.shared s.place ∧
      l.length + total n (Place.rank · loops) s.place ≤ 13 * loops * n := by
    refine run_induction (P := fun l s => Inv n numReaders loops s.shared s.place ∧
      l.length + total n (Place.rank · loops) s.place ≤ 13 * loops * n) ⟨inv_init _ _ _, ?_⟩ ?_ h
    · rw [total_const (c := 13 * loops)]
      · exact Nat.le_of_eq (Nat.zero_add _)
      · intro i _
        show Place.rank ⟨if i < numReaders then .reader else .writer, 0, 0⟩ loops = 13 * loops
        split <;> exact Nat.add_sub_cancel ..
    · rintro l m i m' - ⟨hm, hle⟩ hstep
      have hless := prog_rank (prog_of_step hstep) (hm.known i (lt_of_step hstep))
      have htotal := total_step (Place.rank · loops) hstep
      rw [List.length_append, List.length_singleton]
      exact ⟨inv_step hfits hm hstep, by omega⟩
  exact hall.2

/-- What a thread that has finished has printed. -/
theorem lines_of_finished {rw : RwlockT} {p : Place} (h : Known loops rw p) (hp : p.finished loops = true) :
    p.reads = (if !p.isWriter then loops else 0) ∧ p.writes = if p.isWriter then loops else 0 := by
  obtain ⟨pc, k, t⟩ := p
  cases pc
  case reader | writer =>
    have hge : loops ≤ k := of_decide_eq_true hp
    have hle : k ≤ loops := h
    simp only [Place.reads, Place.writes, Place.isWriter]
    simp
    omega
  all_goals cases hp

/-- **Every run ends**, with all threads returned, and then no write is lost, and every thread has printed its lines. -/
theorem rwlock_ends (numReaders numWriters loops : Nat) (hfits : loops * numWriters < 2 ^ 31) (l : List Nat)
    (s : State RwlockT Place)
    (h : run (step (numReaders + numWriters) (prog loops)) (init numReaders) l = some s) :
    l.length ≤ 13 * loops * (numReaders + numWriters) ∧
    ((∀ k < numReaders + numWriters, ¬Enabled (prog loops) s k) →
      (∀ k < numReaders + numWriters, (s.place k).finished loops = true) ∧
      s.shared.value = loops * numWriters ∧
      (writesOf s.shared.lines = loops * numWriters ∧ s.shared.lines.countP isRead = loops * numReaders) ∧
      ∀ k < numReaders + numWriters,
        (s.shared.linesOf k).countP isRead = (if k < numReaders then loops else 0) ∧
        writesOf (s.shared.linesOf k) = if k < numReaders then 0 else loops) := by
  rw [← Nat.add_sub_cancel_left numReaders numWriters] at hfits
  have hinv := inv_of_reaches hfits ⟨l, h⟩
  have hrank := rank_run hfits h
  refine ⟨by omega, fun hstuck => ?_⟩
  have hfinished : ∀ k < numReaders + numWriters, (s.place k).finished loops = true := by
    intro k hk
    by_contra hno
    obtain ⟨j, hj, henabled⟩ := hinv.progress hk (by simpa using hno)
    exact hstuck j hj henabled
  have hdone (k : Nat) (hk : k < numReaders + numWriters) := lines_of_finished (hinv.known k hk) (hfinished k hk)
  have hwriters : count (numReaders + numWriters) Place.isWriter s.place = numWriters := by
    rw [hinv.count_isWriter, Nat.add_sub_cancel_left]
  have hreaders := count_add_count_not (numReaders + numWriters) Place.isWriter s.place
  have hwrites := hinv.writes
  rw [total_eq_mul_count fun i hi => (hdone i hi).2, hwriters] at hwrites
  have hreads := hinv.reads
  rw [total_eq_mul_count (p := fun p => !p.isWriter) fun i hi => (hdone i hi).1,
    show count _ (fun p : Place => !p.isWriter) s.place = numReaders by omega] at hreads
  have hprinted : count (numReaders + numWriters) Place.unprinted s.place = 0 := by
    refine count_eq_zero.2 fun i hi => ?_
    have hdone := hfinished i hi
    revert hdone
    rcases s.place i with ⟨pc, k, t⟩
    cases pc <;> simp [Place.finished, Place.unprinted]
  refine ⟨hfinished, ?_, ⟨hwrites.symm, hreads.symm⟩, fun k hk => ?_⟩
  · rw [hinv.value, hprinted, ← hwrites]
    simp
  · rw [(hinv.own k hk).1, (hinv.own k hk).2, (hdone k hk).1, (hdone k hk).2, hinv.kind k hk]
    by_cases hlt : k < numReaders
    · simp [hlt, Nat.not_le.2 hlt]
    · simp [hlt, Nat.not_lt.1 hlt]

theorem oneReader_oneWriter_ends :
    ∃ s, run (step (1 + 1) (prog 1)) (init 1) (List.replicate 7 1 ++ List.replicate 13 0) = some s ∧
      s.shared.value = 1 ∧ (s.shared.linesOf 0).countP isRead = 1 ∧ writesOf (s.shared.linesOf 1) = 1 := by
  have hends := rwlock_ends 1 1 1 (by decide) (List.replicate 7 1 ++ List.replicate 13 0) _ rfl
  obtain ⟨-, hvalue, -, hown⟩ := hends.2 fun k hk => by
    match k, hk with
    | 0, _ => exact Bool.false_ne_true
    | 1, _ => exact Bool.false_ne_true
  exact ⟨_, rfl, hvalue, (hown 0 (by decide)).1, (hown 1 (by decide)).2⟩

/-! ## Starvation -/

/-- The steps that are taken while `writelock` has no token. -/
def guarded (loops : Nat) : Prog RwlockT Place := fun i rw p =>
  if rw.writelock = 0 then prog loops i rw p else none

theorem run_of_guarded {l : List Nat} (h : run (step n (guarded loops)) s l = some s') :
    run (step n (prog loops)) s l = some s' ∧
      StepsMeet (step n (prog loops)) (fun m _ => m.shared.writelock = 0) s l := by
  induction l generalizing s with
  | nil => exact ⟨h, trivial⟩
  | cons i l ih =>
    obtain ⟨m, hm, hrest⟩ := run_cons.1 h
    obtain ⟨hi, rw, p, hprog, rfl⟩ := step_eq_some.1 hm
    rw [guarded] at hprog
    split at hprog
    · next hzero =>
      have hstep : step n (prog loops) s i = some ⟨rw, Function.update s.place i p⟩ :=
        step_eq_some.2 ⟨hi, rw, p, hprog, rfl⟩
      obtain ⟨hrun, hmeets⟩ := ih hrest
      refine ⟨run_cons.2 ⟨_, hstep, hrun⟩, fun m' hm' => ⟨hzero, ?_⟩⟩
      obtain rfl := Option.some.inj (hstep.symm.trans hm')
      exact hmeets
    · cases hprog

/-- One reader has the lock. -/
def oneReads (printed : List (Nat × Line)) : RwlockT := ⟨1, 0, 1, 0, printed⟩

/-- A second reader gets the lock, and then the first one gives it back. -/
theorem reader_relieved {i j k m : Nat} {printed : List (Nat × Line)} (hi : i < n) (hj : j < n) (hij : i ≠ j)
    (hk : k < loops) (hshared : s.shared = oneReads printed) (hpi : s.place i = ⟨.releaseWaitLock, m, 0⟩)
    (hpj : s.place j = ⟨.reader, k, 0⟩) :
    ∃ s', Reaches (step n (guarded loops)) s s' ∧ s'.shared = oneReads (printed ++ [(j, .read 0)]) ∧
      s'.place j = ⟨.releaseWaitLock, k, 0⟩ ∧ s'.place i = ⟨.reader, m + 1, 0⟩ ∧
      ∀ u, u ≠ i → u ≠ j → s'.place u = s.place u := by
  have henter : solo (guarded loops) j 7 (oneReads printed, ⟨.reader, k, 0⟩) =
      some (⟨1, 0, 2, 0, printed ++ [(j, .read 0)]⟩, ⟨.releaseWaitLock, k, 0⟩) := by
    rw [solo_succ (r := (oneReads printed, ⟨.waitLock, k, 0⟩)) (if_pos hk)]
    rfl
  obtain ⟨s₁, hreach₁, hshared₁, hpj₁, hothers₁⟩ := reaches_of_solo hj hshared hpj henter
  have hleave : solo (guarded loops) i 4
      (⟨1, 0, 2, 0, printed ++ [(j, .read 0)]⟩, ⟨.releaseWaitLock, m, 0⟩) =
      some (oneReads (printed ++ [(j, .read 0)]), ⟨.reader, m + 1, 0⟩) := rfl
  obtain ⟨s₂, hreach₂, hshared₂, hpi₂, hothers₂⟩ :=
    reaches_of_solo hi hshared₁ ((hothers₁ i hij).trans hpi) hleave
  refine ⟨s₂, hreach₁.trans hreach₂, hshared₂, ?_, hpi₂, fun u hui huj => ?_⟩
  · rw [hothers₂ j (Ne.symm hij), hpj₁]
  · rw [hothers₂ u hui, hothers₁ u huj]

/-- The lines of `k` rounds of two readers. -/
def turns (k : Nat) : List (Nat × Line) := (List.replicate k [(0, .read 0), (1, .read 0)]).flatten

theorem turns_succ (k : Nat) : turns (k + 1) = turns k ++ [(0, .read 0)] ++ [(1, .read 0)] := by
  rw [turns, List.replicate_succ', List.flatten_append, List.append_assoc]
  rfl

/-- Two readers take turns. -/
theorem readers_take_turns (h0 : 0 < n) (h1 : 1 < n) (hshared : s.shared = oneReads [(0, .read 0)])
    (hp0 : s.place 0 = ⟨.releaseWaitLock, 0, 0⟩) (hp1 : s.place 1 = ⟨.reader, 0, 0⟩) (k : Nat)
    (hk : k < loops) :
    ∃ s', Reaches (step n (guarded loops)) s s' ∧ s'.shared = oneReads (turns k ++ [(0, .read 0)]) ∧
      s'.place 0 = ⟨.releaseWaitLock, k, 0⟩ ∧ s'.place 1 = ⟨.reader, k, 0⟩ ∧
      ∀ u, u ≠ 0 → u ≠ 1 → s'.place u = s.place u := by
  induction k with
  | zero => exact ⟨s, .refl s, hshared, hp0, hp1, fun _ _ _ => rfl⟩
  | succ k ih =>
    obtain ⟨s₁, hreach₁, hshared₁, hp0₁, hp1₁, hothers₁⟩ := ih (by omega)
    obtain ⟨s₂, hreach₂, hshared₂, hp1₂, hp0₂, hothers₂⟩ :=
      reader_relieved h0 h1 Nat.zero_ne_one (Nat.lt_of_succ_lt hk) hshared₁ hp0₁ hp1₁
    rw [← turns_succ] at hshared₂
    obtain ⟨s₃, hreach₃, hshared₃, hp0₃, hp1₃, hothers₃⟩ :=
      reader_relieved h1 h0 Nat.one_ne_zero hk hshared₂ hp1₂ hp0₂
    refine ⟨s₃, (hreach₁.trans hreach₂).trans hreach₃, hshared₃, hp0₃, hp1₃, fun u hu0 hu1 => ?_⟩
    rw [hothers₃ u hu1 hu0, hothers₂ u hu0 hu1, hothers₁ u hu0 hu1]

/-- **Writers starve**: with two readers or more, a writer that waits for `writelock` while one of them reads may have
to wait, without a token to take, until the two have read `loops` times each. -/
theorem writer_starves (numReaders numWriters loops : Nat) (hreaders : 2 ≤ numReaders) (hwriters : 0 < numWriters)
    (hloops : 0 < loops) :
    ∃ s l s', Reaches (step (numReaders + numWriters) (prog loops)) (init numReaders) s ∧
      (s.place numReaders).pc = .waitWritelock ∧ s.shared.printed = [(0, .read 0)] ∧
      run (step (numReaders + numWriters) (prog loops)) s l = some s' ∧
      StepsMeet (step (numReaders + numWriters) (prog loops)) (fun m _ => m.shared.writelock = 0) s l ∧
      s'.shared.writelock = 0 ∧ s'.shared.printed = turns loops ∧
      (s'.place numReaders).pc = .waitWritelock := by
  -- the first reader gets the lock, and the writer begins to wait
  have hread : solo (prog loops) 0 8 (rwlockInit, ⟨.reader, 0, 0⟩) =
      some (oneReads [(0, .read 0)], ⟨.releaseWaitLock, 0, 0⟩) := by
    rw [solo_succ (r := (rwlockInit, ⟨.waitLock, 0, 0⟩)) (if_pos hloops)]
    rfl
  have hstart (i : Nat) (hi : i < numReaders) : (init numReaders).place i = ⟨.reader, 0, 0⟩ := by simp [init, hi]
  obtain ⟨s₁, hreach₁, hshared₁, hp0₁, hothers₁⟩ := reaches_of_solo (n := numReaders + numWriters)
    (by omega) rfl (hstart 0 (by omega)) hread
  have hwait : solo (prog loops) numReaders 1 (oneReads [(0, .read 0)], ⟨.writer, 0, 0⟩) =
      some (oneReads [(0, .read 0)], ⟨.waitWritelock, 0, 0⟩) := solo_succ (if_pos hloops)
  have hwriter : s₁.place numReaders = ⟨.writer, 0, 0⟩ := by
    rw [hothers₁ _ (by omega)]
    simp [init]
  obtain ⟨s₂, hreach₂, hshared₂, hpw₂, hothers₂⟩ := reaches_of_solo (n := numReaders + numWriters)
    (by omega) hshared₁ hwriter hwait
  -- the readers take turns, and the second one reads last
  have hlast : loops - 1 < loops := by omega
  obtain ⟨s₃, hreach₃, hshared₃, hp0₃, hp1₃, hothers₃⟩ := readers_take_turns (n := numReaders + numWriters)
    (by omega) (by omega) hshared₂ (by rw [hothers₂ 0 (by omega), hp0₁])
    (by rw [hothers₂ 1 (by omega), hothers₁ 1 (by omega), hstart 1 (by omega)]) (loops - 1) hlast
  obtain ⟨s₄, hreach₄, hshared₄, -, -, hothers₄⟩ := reader_relieved (n := numReaders + numWriters)
    (by omega) (by omega) Nat.zero_ne_one hlast hshared₃ hp0₃ hp1₃
  obtain ⟨l, hl⟩ := hreach₃.trans hreach₄
  obtain ⟨hrun, hmeets⟩ := run_of_guarded hl
  refine ⟨s₂, l, s₄, hreach₁.trans hreach₂, by rw [hpw₂], by rw [hshared₂]; rfl, hrun, hmeets, by rw [hshared₄]; rfl,
    ?_, ?_⟩
  · rw [hshared₄, ← turns_succ, Nat.sub_add_cancel hloops]
    rfl
  · rw [hothers₄ _ (by omega) (by omega), hothers₃ _ (by omega) (by omega), hpw₂]

theorem twoReaders_starve : ∃ s l s', Reaches (step (2 + 1) (prog 3)) (init 2) s ∧
    run (step (2 + 1) (prog 3)) s l = some s' ∧ s'.shared.linesOf 0 = List.replicate 3 (.read 0) ∧
    s'.shared.linesOf 1 = List.replicate 3 (.read 0) ∧ (s'.place 2).pc = .waitWritelock := by
  obtain ⟨s, l, s', hreach, -, -, hrun, -, -, hprinted, hwaits⟩ :=
    writer_starves 2 1 3 (by decide) (by decide) (by decide)
  refine ⟨s, l, s', hreach, hrun, ?_, ?_, hwaits⟩ <;> rw [RwlockT.linesOf, hprinted] <;> rfl

end OstepHw.ReaderWriter
