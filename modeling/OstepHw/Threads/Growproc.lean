import Mathlib.Algebra.Ring.Int.Defs
import Mathlib.Algebra.Ring.Nat
import OstepHw.Threads.Kernel

/-!
# `growproc` of `threads.patch`

The version before the one of `Threads/Kernel`: it holds the lock of the process table from the start, and therefore
keeps a return value instead of returning early.  `allocuvm` and `deallocuvm` are parameters: functions of the page
directory, the old size and the new size, with 0 for a failure.

* `growproc_table` — what becomes of the table;
* `clean_iff` — when a call that fails leaves all sizes as they were;
* `growproc_eq_kernel` — a call that does not fail does what the later version does.
-/

set_option autoImplicit false

namespace OstepHw.Threads.Locked

/-- Conversion to `uint`. -/
def uint (x : Int) : Nat := (x % 2 ^ 32).toNat

variable (NPROC : Nat) (allocuvm deallocuvm : Nat → Nat → Nat → Nat)

/-- The first part of `growproc`: `sz` and `return_value`. -/
def resize (pgdir sz : Nat) (n : Int) : Nat × Int :=
  if n > 0 then
    let sz := allocuvm pgdir sz (uint (sz + n))
    (sz, if sz = 0 then -1 else 0)
  else if n < 0 then
    let sz := deallocuvm pgdir sz (uint (sz + n))
    (sz, if sz = 0 then -1 else 0)
  else (sz, 0)

def growproc (s : State) (i : Nat) (n : Int) : Int × State :=
  let (sz, returnValue) := resize allocuvm deallocuvm (s.slots i).pgdir (s.slots i).sz n
  let s := s.set i { s.slots i with sz := sz }
  let s :=
    { s with slots := fun k =>
        if k < NPROC ∧ (s.slots k).parent = some i ∧ (s.slots k).pgdir = (s.slots i).pgdir then
          { s.slots k with sz := (s.slots i).sz }
        else s.slots k }
  (returnValue, s)

/-- The caller, and the threads that it has made. -/
def Shares (s : State) (i k : Nat) : Prop :=
  k = i ∨ k < NPROC ∧ (s.slots k).parent = some i ∧ (s.slots k).pgdir = (s.slots i).pgdir

instance (s : State) (i k : Nat) : Decidable (Shares NPROC s i k) :=
  inferInstanceAs (Decidable (_ ∨ _))

/-- `allocuvm` or `deallocuvm` is called and fails. -/
def Fails (s : State) (i : Nat) (n : Int) : Prop :=
  n > 0 ∧ allocuvm (s.slots i).pgdir (s.slots i).sz (uint ((s.slots i).sz + n)) = 0 ∨
    n < 0 ∧ deallocuvm (s.slots i).pgdir (s.slots i).sz (uint ((s.slots i).sz + n)) = 0

/-- If the call returns -1, no process has another size than before. -/
def Clean (s : State) (i : Nat) (n : Int) : Prop :=
  (growproc NPROC allocuvm deallocuvm s i n).1 = -1 →
    ∀ k, ((growproc NPROC allocuvm deallocuvm s i n).2.slots k).sz = (s.slots k).sz

variable {NPROC allocuvm deallocuvm} {s : State} {i : Nat} {n : Int}

theorem growproc_rc : (growproc NPROC allocuvm deallocuvm s i n).1 = -1 ↔ Fails allocuvm deallocuvm s i n := by
  have hflag (sz : Nat) : (if sz = 0 then (-1 : Int) else 0) = -1 ↔ sz = 0 := by
    split <;> simp_all
  unfold growproc resize Fails
  rcases Int.lt_trichotomy n 0 with hneg | rfl | hpos
  · simp [hneg, Int.lt_asymm hneg, hflag]
  · simp
  · simp [hpos, Int.lt_asymm hpos, hflag]

/-- The new size goes to all that share the memory, whatever it is. -/
theorem growproc_table :
    (growproc NPROC allocuvm deallocuvm s i n).2 =
      { s with slots := fun k =>
          if Shares NPROC s i k then
            { s.slots k with sz := (resize allocuvm deallocuvm (s.slots i).pgdir (s.slots i).sz n).1 }
          else s.slots k } := by
  unfold growproc Shares State.set
  simp only [State.mk.injEq, and_true]
  funext k
  by_cases hk : k = i
  · subst hk
    simp
  · simp [hk]

theorem resize_of_fails (hfails : Fails allocuvm deallocuvm s i n) :
    (resize allocuvm deallocuvm (s.slots i).pgdir (s.slots i).sz n).1 = 0 := by
  unfold resize
  rcases hfails with ⟨hpos, hzero⟩ | ⟨hneg, hzero⟩
  · rw [if_pos hpos]
    exact hzero
  · rw [if_neg (Int.lt_asymm hneg), if_pos hneg]
    exact hzero

/-- **A call that fails changes no size** exactly if the caller and its threads have size 0 already. -/
theorem clean_iff (NPROC : Nat) (allocuvm deallocuvm : Nat → Nat → Nat → Nat) (s : State) (i : Nat) (n : Int) :
    Clean NPROC allocuvm deallocuvm s i n ↔
      (Fails allocuvm deallocuvm s i n → ∀ k, Shares NPROC s i k → (s.slots k).sz = 0) := by
  unfold Clean
  rw [growproc_rc]
  refine forall_congr' fun hfails => forall_congr' fun k => ?_
  rw [growproc_table, resize_of_fails hfails]
  by_cases hk : Shares NPROC s i k
  · simp [hk, eq_comm]
  · simp [hk]

/-- `allocuvm` while there is memory: it refuses a size at or above `KERNBASE`. -/
def enoughMemory (_pgdir oldsz newsz : Nat) : Nat :=
  if newsz ≥ 0x80000000 then 0 else if newsz < oldsz then oldsz else newsz

/-- `deallocuvm`. -/
def release (_pgdir oldsz newsz : Nat) : Nat :=
  if newsz ≥ oldsz then oldsz else newsz

/-- The first process and one thread of it, after `clone` in slot 0. -/
def oneThread : State := clone 64 boot 0 .enough

/-- A request that is too large sets the sizes of the process and of its thread to 0. -/
theorem too_large_not_clean :
    (growproc 64 enoughMemory release oneThread 0 0x7fffffff).1 = -1 ∧
      ((growproc 64 enoughMemory release oneThread 0 0x7fffffff).2.slots 0).sz ≠ (oneThread.slots 0).sz ∧
      ((growproc 64 enoughMemory release oneThread 0 0x7fffffff).2.slots 1).sz ≠ (oneThread.slots 1).sz ∧
      ¬Clean 64 enoughMemory release oneThread 0 0x7fffffff := by
  have hrc : (growproc 64 enoughMemory release oneThread 0 0x7fffffff).1 = -1 := by decide
  have hsize : ((growproc 64 enoughMemory release oneThread 0 0x7fffffff).2.slots 0).sz ≠ (oneThread.slots 0).sz := by
    decide
  exact ⟨hrc, hsize, by decide, fun hclean => hsize (hclean hrc 0)⟩

/-- What `growproc` of the later version is told. -/
def result (allocuvm deallocuvm : Nat → Nat → Nat → Nat) (s : State) (i : Nat) (n : Int) : Nat :=
  (resize allocuvm deallocuvm (s.slots i).pgdir (s.slots i).sz n).1

/-- A call that does not fail leaves what the later version leaves. -/
theorem growproc_eq_kernel (htable : ∀ k, NPROC ≤ k → (s.slots k).parent ≠ some i)
    (hfails : ¬Fails allocuvm deallocuvm s i n) :
    (growproc NPROC allocuvm deallocuvm s i n).2 =
      Threads.growproc s i n (result allocuvm deallocuvm s i n) := by
  have hdone : ¬(n ≠ 0 ∧ result allocuvm deallocuvm s i n = 0) := by
    rintro ⟨hne, hzero⟩
    unfold result resize at hzero
    rcases Int.lt_or_gt_of_ne hne with hneg | hpos
    · rw [if_neg (Int.lt_asymm hneg), if_pos hneg] at hzero
      exact hfails (.inr ⟨hneg, hzero⟩)
    · rw [if_pos hpos] at hzero
      exact hfails (.inl ⟨hpos, hzero⟩)
  have hsize : (if n = 0 then (s.slots i).sz else result allocuvm deallocuvm s i n) =
      (resize allocuvm deallocuvm (s.slots i).pgdir (s.slots i).sz n).1 := by
    split
    · next hn => simp [hn, resize]
    · rfl
  have hshares (k : Nat) : Shares NPROC s i k ↔
      k = i ∨ (s.slots k).parent = some i ∧ (s.slots k).pgdir = (s.slots i).pgdir :=
    or_congr_right ⟨fun h => h.2, fun h => ⟨Nat.lt_of_not_le fun hk => htable k hk h.1, h⟩⟩
  rw [growproc_table, growproc_succeeds hdone, hsize]
  simp only [hshares]

end OstepHw.Threads.Locked
