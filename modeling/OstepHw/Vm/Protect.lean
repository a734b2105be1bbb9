import Mathlib.Algebra.Ring.Int.Defs
import Mathlib.Logic.Function.Basic

/-!
# Read-only pages

Model of `sys_mprotect`, `sys_munprotect`, `mprotect`, `munprotect` and `argptr` after
`protect-my-balls_mod.patch`.  A `uint` is a bit vector; a page directory gives the entry of a page by its number, and
none where a page table is missing.  The addresses of the loop are numbers: it stops at `last` before one could
overflow.  Reloading `cr3` changes nothing here.

* `protectLoop_eq`, `protectLoop_first` — what the loop does where all entries exist, and what it always does first;
* `sysProtect_eq`, `reaches_iff` — which calls get to the loop;
* `correct_iff` — the calls for which both system calls do what they are for: all but those that reach the end of
  the process (or end before the fourth byte), and those whose end overflows;
* `not_wraps` — no call overflows in a process that ends below the kernel.
-/

set_option autoImplicit false

namespace OstepHw.Vm

def PGSIZE : Nat := 4096

def PTE_W : BitVec 32 := 0x002

def PGROUNDDOWN (a : Nat) : Nat := a / PGSIZE * PGSIZE

abbrev Pgdir := Nat → Option (BitVec 32)

structure Proc where
  sz : BitVec 32
  pgdir : Pgdir

/-- Never allocates: the call has `alloc` 0. -/
def walkpgdir (pgdir : Pgdir) (va : Nat) : Option (BitVec 32) :=
  pgdir (va / PGSIZE)

/-- The loop of `mprotect` and `munprotect`; `f` is what they do to an entry. -/
def protectLoop (f : BitVec 32 → BitVec 32) (a last : Nat) (pgdir : Pgdir) : Int × Pgdir :=
  match walkpgdir pgdir a with
  | none => (-1, pgdir)
  | some pte =>
    let pgdir := Function.update pgdir (a / PGSIZE) (some (f pte))
    if a ≥ last then (0, pgdir) else protectLoop f (a + PGSIZE) last pgdir
termination_by last - a
decreasing_by unfold PGSIZE; omega

def protect (f : BitVec 32 → BitVec 32) (p : Proc) (addr len : BitVec 32) : Int × Proc :=
  if p.sz ≤ addr ∨ p.sz ≤ addr + len then (-1, p)
  else
    let a := PGROUNDDOWN addr.toNat
    let last := PGROUNDDOWN (addr + len - 1).toNat
    let (rc, pgdir) := protectLoop f a last p.pgdir
    (rc, { p with pgdir })

def mprotect : Proc → BitVec 32 → BitVec 32 → Int × Proc :=
  protect (· &&& ~~~PTE_W)

def munprotect : Proc → BitVec 32 → BitVec 32 → Int × Proc :=
  protect (· ||| PTE_W)

/-- `argint` gives the arguments of the call, as far as they can be read. -/
def argptr (p : Proc) (argint : Nat → Option (BitVec 32)) (n : Nat) (size : BitVec 32) : Option (BitVec 32) :=
  match argint n with
  | none => none
  | some i =>
    if size.toInt < 0 ∨ p.sz ≤ i ∨ p.sz < i + size ∨ i.toNat < PGSIZE then none else some i

/-- The body of the two system calls. -/
def sysProtect (protect : Proc → BitVec 32 → BitVec 32 → Int × Proc) (p : Proc)
    (argint : Nat → Option (BitVec 32)) : Int × Proc :=
  match argptr p argint 0 4, argint 1 with
  | some addr, some len =>
    if addr.toNat % PGSIZE ≠ 0 ∨ len.toInt ≤ 0 ∨ addr.toNat < PGSIZE then (-1, p) else protect p addr len
  | _, _ => (-1, p)

def sysMprotect : Proc → (Nat → Option (BitVec 32)) → Int × Proc :=
  sysProtect mprotect

def sysMunprotect : Proc → (Nat → Option (BitVec 32)) → Int × Proc :=
  sysProtect munprotect

/-- The arguments of a call. -/
def passed (addr len : BitVec 32) : Nat → Option (BitVec 32)
  | 0 => some addr
  | 1 => some len
  | _ => none

/-! ## The loop -/

variable {f : BitVec 32 → BitVec 32} {pgdir : Pgdir} {m n : Nat}

/-- The entries of the pages from `m` to `n` go through `f`. -/
def onPages (f : BitVec 32 → BitVec 32) (m n : Nat) (pgdir : Pgdir) : Pgdir :=
  fun q => if m ≤ q ∧ q ≤ n then (pgdir q).map f else pgdir q

theorem page_div (m : Nat) : m * PGSIZE / PGSIZE = m :=
  Nat.mul_div_cancel m (by decide)

/-- The first page, then the others. -/
theorem onPages_succ (hmn : m < n) {pte : BitVec 32} (hpte : pgdir m = some pte) :
    onPages f (m + 1) n (Function.update pgdir m (some (f pte))) = onPages f m n pgdir := by
  funext q
  unfold onPages
  by_cases hq : q = m
  · subst hq
    rw [if_neg (by omega), if_pos (by omega), Function.update_self, hpte, Option.map_some]
  · have hiff : m + 1 ≤ q ∧ q ≤ n ↔ m ≤ q ∧ q ≤ n := by omega
    simp only [Function.update_of_ne hq, hiff]

theorem onPages_self {pte : BitVec 32} (hpte : pgdir m = some pte) :
    onPages f m m pgdir = Function.update pgdir m (some (f pte)) := by
  funext q
  unfold onPages
  by_cases hq : q = m
  · subst hq
    rw [if_pos (by omega), Function.update_self, hpte, Option.map_some]
  · rw [if_neg (by omega), Function.update_of_ne hq]

/-- Where all entries exist, the loop goes through all pages. -/
theorem protectLoop_eq (hmn : m ≤ n) (hmapped : ∀ q, m ≤ q → q ≤ n → ∃ pte, pgdir q = some pte) :
    protectLoop f (m * PGSIZE) (n * PGSIZE) pgdir = (0, onPages f m n pgdir) := by
  induction hk : n - m generalizing m pgdir with
  | zero =>
    obtain rfl : m = n := by omega
    obtain ⟨pte, hpte⟩ := hmapped m (Nat.le_refl m) (Nat.le_refl m)
    rw [protectLoop, walkpgdir, page_div, hpte, onPages_self hpte]
    simp
  | succ k ih =>
    obtain ⟨pte, hpte⟩ := hmapped m (Nat.le_refl m) hmn
    have hrest : ∀ q, m + 1 ≤ q → q ≤ n →
        ∃ pte', Function.update pgdir m (some (f pte)) q = some pte' := fun q hmq hqn => by
      rw [Function.update_of_ne (by omega)]
      exact hmapped q (by omega) hqn
    have hlast : ¬ m * PGSIZE ≥ n * PGSIZE := by
      have hlt : m * PGSIZE < n * PGSIZE := Nat.mul_lt_mul_of_pos_right (by omega) (by decide)
      omega
    have hstep : m * PGSIZE + PGSIZE = (m + 1) * PGSIZE := (Nat.succ_mul m PGSIZE).symm
    rw [protectLoop, walkpgdir, page_div, hpte]
    simp only [if_neg hlast]
    rw [hstep, ih (by omega) hrest (by omega), onPages_succ (by omega) hpte]

theorem protectLoop_below (a last : Nat) {q : Nat} (hq : q < a / PGSIZE) :
    (protectLoop f a last pgdir).2 q = pgdir q := by
  fun_induction protectLoop f a last pgdir with
  | case1 => rfl
  | case2 a pgdir pte hpte pgdir' hlast => exact Function.update_of_ne (Nat.ne_of_lt hq) _ _
  | case3 a pgdir pte hpte pgdir' hlast ih =>
    have hnext : q < (a + PGSIZE) / PGSIZE := Nat.lt_of_lt_of_le hq (Nat.div_le_div_right (Nat.le_add_right a PGSIZE))
    rw [ih hnext]
    exact Function.update_of_ne (Nat.ne_of_lt hq) _ _

/-- Whatever becomes of the loop, the first entry has gone through `f`. -/
theorem protectLoop_first (a last : Nat) {pte : BitVec 32} (hpte : pgdir (a / PGSIZE) = some pte) :
    (protectLoop f a last pgdir).2 (a / PGSIZE) = some (f pte) := by
  have hnext : a / PGSIZE < (a + PGSIZE) / PGSIZE := by
    rw [Nat.add_div_right a (by decide)]
    exact Nat.lt_succ_self _
  rw [protectLoop, walkpgdir, hpte]
  simp only
  split
  · exact Function.update_self _ _ _
  · rw [protectLoop_below _ _ hnext]
    exact Function.update_self _ _ _

/-! ## Which calls get to the loop -/

variable (p : Proc) (addr len : BitVec 32)

/-- What the three checks leave through. -/
def Reaches : Prop :=
  addr.toNat % PGSIZE = 0 ∧ PGSIZE ≤ addr.toNat ∧ 0 < len.toInt ∧ addr < p.sz ∧ addr + 4 ≤ p.sz ∧ addr + len < p.sz

instance : Decidable (Reaches p addr len) :=
  inferInstanceAs (Decidable (_ ∧ _))

/-- The calls that are to succeed. -/
def Valid : Prop :=
  addr.toNat % PGSIZE = 0 ∧ PGSIZE ≤ addr.toNat ∧ 0 < len.toInt ∧ addr.toNat + len.toInt ≤ p.sz.toNat

/-- The end of the range overflows. -/
def Wraps : Prop :=
  addr.toNat % PGSIZE = 0 ∧ PGSIZE ≤ addr.toNat ∧ addr.toNat + 4 ≤ p.sz.toNat ∧ 2 ^ 32 ≤ addr.toNat + len.toInt

/-- The range ends where the process ends, or the four bytes at `addr` do not all belong to it. -/
def AtEnd : Prop :=
  addr.toNat + len.toInt = p.sz.toNat ∨ p.sz.toNat < addr.toNat + 4

theorem reaches_iff : Reaches p addr len ↔ Valid p addr len ∧ ¬AtEnd p addr len ∨ Wraps p addr len := by
  unfold Reaches Valid AtEnd Wraps PGSIZE
  have hlen := BitVec.toInt_eq_toNat_cond len
  have hfour : (4 : BitVec 32).toNat = 4 := rfl
  simp only [BitVec.lt_def, BitVec.le_def, BitVec.toNat_add]
  have hs := p.sz.isLt
  have ha := addr.isLt
  have hl := len.isLt
  split at hlen <;> omega

theorem sysProtect_eq (f : BitVec 32 → BitVec 32) :
    sysProtect (protect f) p (passed addr len) =
      if Reaches p addr len then
        ((protectLoop f addr.toNat (PGROUNDDOWN (addr + len - 1).toNat) p.pgdir).1,
          { p with pgdir := (protectLoop f addr.toNat (PGROUNDDOWN (addr + len - 1).toNat) p.pgdir).2 })
      else (-1, p) := by
  by_cases hreaches : Reaches p addr len
  · obtain ⟨haligned, hpage, hlen, hstart, hfour, hend⟩ := hreaches
    have hargptr : argptr p (passed addr len) 0 4 = some addr :=
      if_neg (by
        rintro (h | h | h | h)
        · exact absurd h (by decide)
        all_goals bv_omega)
    have hround : PGROUNDDOWN addr.toNat = addr.toNat := Nat.div_mul_cancel (Nat.dvd_of_mod_eq_zero haligned)
    rw [if_pos ⟨haligned, hpage, hlen, hstart, hfour, hend⟩, sysProtect, hargptr]
    simp only [passed]
    rw [if_neg (by omega), protect, if_neg (by bv_omega), hround]
  · rw [if_neg hreaches, sysProtect, argptr]
    simp only [passed]
    by_cases hptr : (4 : BitVec 32).toInt < 0 ∨ p.sz ≤ addr ∨ p.sz < addr + 4 ∨ addr.toNat < PGSIZE
    · rw [if_pos hptr]
    rw [if_neg hptr]
    by_cases hargs : addr.toNat % PGSIZE ≠ 0 ∨ len.toInt ≤ 0 ∨ addr.toNat < PGSIZE
    · exact if_pos hargs
    simp only [if_neg hargs]
    refine if_pos ?_
    by_contra hrange
    exact hreaches ⟨by omega, by omega, by omega, by bv_omega, by bv_omega, by bv_omega⟩

/-! ## What the two system calls are for -/

/-- The page has a byte of the range. -/
def Intersects (q : Nat) : Prop :=
  q * PGSIZE < addr.toNat + len.toInt ∧ addr.toNat < (q + 1) * PGSIZE

/-- `PTE_W`, which is bit 1, becomes `w` in the entries of the pages in `S`; nothing else changes. -/
def Sets (w : Bool) (S : Nat → Prop) (before after : Pgdir) : Prop :=
  (∀ q, ¬S q → after q = before q) ∧
    ∀ q, S q → ∃ pte pte', before q = some pte ∧ after q = some pte' ∧
      ∀ i, pte'.getLsbD i = if i = 1 then w else pte.getLsbD i

/-- One of the system calls does what it is for. -/
structure Meets (sys : Proc → (Nat → Option (BitVec 32)) → Int × Proc) (w : Bool) : Prop where
  accepts : (sys p (passed addr len)).1 = 0 ↔ Valid p addr len
  sets : (sys p (passed addr len)).1 = 0 →
    Sets w (Intersects addr len) p.pgdir (sys p (passed addr len)).2.pgdir
  refuses : (sys p (passed addr len)).1 = -1 → (sys p (passed addr len)).2.pgdir = p.pgdir

structure Correct : Prop where
  mprotect : Meets p addr len sysMprotect false
  munprotect : Meets p addr len sysMunprotect true
  restores : (sysMprotect p (passed addr len)).1 = 0 →
    (∀ q, Intersects addr len q → ∃ pte, p.pgdir q = some pte ∧ pte.getLsbD 1 = true) →
    (sysMunprotect (sysMprotect p (passed addr len)).2 (passed addr len)).2.pgdir = p.pgdir

/-- All pages of the process above the first have an entry. -/
def Proc.Mapped (p : Proc) : Prop :=
  ∀ va, PGSIZE ≤ va → va < p.sz.toNat → ∃ pte, walkpgdir p.pgdir va = some pte

theorem getLsbD_PTE_W (i : Nat) : PTE_W.getLsbD i = decide (i = 1) := by
  have hbit : PTE_W = BitVec.twoPow 32 1 := by rfl
  rw [hbit, BitVec.getLsbD_twoPow]
  simp [eq_comm]

/-- `f` writes `w` to `PTE_W`. -/
def Writes (w : Bool) (f : BitVec 32 → BitVec 32) : Prop :=
  ∀ pte i, (f pte).getLsbD i = if i = 1 then w else pte.getLsbD i

theorem writes_clear : Writes false (· &&& ~~~PTE_W) := by
  intro pte i
  simp only [BitVec.getLsbD_and, BitVec.getLsbD_not, getLsbD_PTE_W]
  by_cases hi : i = 1
  · simp [hi]
  · by_cases hlt : i < 32
    · simp [hi, hlt]
    · simp [hi, BitVec.getLsbD_of_ge pte i (Nat.le_of_not_lt hlt)]

theorem writes_set : Writes true (· ||| PTE_W) := by
  intro pte i
  simp only [BitVec.getLsbD_or, getLsbD_PTE_W]
  by_cases hi : i = 1
  · simp [hi]
  · simp [hi]

variable {p addr len}

/-! ## The calls that succeed -/

theorem end_eq (hvalid : Valid p addr len) :
    ((addr + len - 1).toNat : Int) = addr.toNat + len.toInt - 1 := by
  obtain ⟨_, hpage, hlen, hend⟩ := hvalid
  have hcond := BitVec.toInt_eq_toNat_cond len
  have hs := p.sz.isLt
  unfold PGSIZE at hpage
  split at hcond <;> bv_omega

theorem page_iff (hvalid : Valid p addr len) (q : Nat) :
    addr.toNat / PGSIZE ≤ q ∧ q ≤ (addr + len - 1).toNat / PGSIZE ↔ Intersects addr len q := by
  have hend := end_eq hvalid
  obtain ⟨haligned, -, hlen, -⟩ := hvalid
  unfold Intersects
  unfold PGSIZE at *
  omega

theorem sysProtect_ok (hmapped : p.Mapped) (hvalid : Valid p addr len) (hinside : ¬AtEnd p addr len)
    (f : BitVec 32 → BitVec 32) :
    sysProtect (protect f) p (passed addr len) =
      (0, { p with pgdir := onPages f (addr.toNat / PGSIZE) ((addr + len - 1).toNat / PGSIZE) p.pgdir }) := by
  have hend := end_eq hvalid
  have hloop : protectLoop f addr.toNat (PGROUNDDOWN (addr + len - 1).toNat) p.pgdir =
      (0, onPages f (addr.toNat / PGSIZE) ((addr + len - 1).toNat / PGSIZE) p.pgdir) := by
    obtain ⟨haligned, hpage, hlen, hsz⟩ := hvalid
    have hstart : addr.toNat = addr.toNat / PGSIZE * PGSIZE :=
      (Nat.div_mul_cancel (Nat.dvd_of_mod_eq_zero haligned)).symm
    have hmn : addr.toNat / PGSIZE ≤ (addr + len - 1).toNat / PGSIZE := Nat.div_le_div_right (by omega)
    have hpages : ∀ q, addr.toNat / PGSIZE ≤ q → q ≤ (addr + len - 1).toNat / PGSIZE →
        ∃ pte, p.pgdir q = some pte := fun q hmq hqn => by
      have hentry := hmapped (q * PGSIZE) (by unfold PGSIZE at *; omega) (by unfold PGSIZE at *; omega)
      rwa [walkpgdir, page_div] at hentry
    have hloop := protectLoop_eq (f := f) hmn hpages
    rwa [← hstart] at hloop
  rw [sysProtect_eq, if_pos ((reaches_iff p addr len).2 (.inl ⟨hvalid, hinside⟩)), hloop]

theorem sets_onPages {w : Bool} (hf : Writes w f) {S : Nat → Prop} (hS : ∀ q, m ≤ q ∧ q ≤ n ↔ S q)
    (hmapped : ∀ q, S q → ∃ pte, pgdir q = some pte) : Sets w S pgdir (onPages f m n pgdir) := by
  refine ⟨fun q hq => if_neg fun hmn => hq ((hS q).1 hmn), fun q hq => ?_⟩
  obtain ⟨pte, hpte⟩ := hmapped q hq
  refine ⟨pte, f pte, hpte, ?_, hf pte⟩
  rw [onPages, if_pos ((hS q).2 hq), hpte, Option.map_some]

theorem intersects_mapped (hmapped : p.Mapped) (hvalid : Valid p addr len) (q : Nat)
    (hq : Intersects addr len q) : ∃ pte, p.pgdir q = some pte := by
  have hend := end_eq hvalid
  have hpages := (page_iff hvalid q).2 hq
  obtain ⟨-, hpage, -, hsz⟩ := hvalid
  have hentry := hmapped (q * PGSIZE) (by unfold PGSIZE at *; omega) (by unfold PGSIZE at *; omega)
  rwa [walkpgdir, page_div] at hentry

/-- What a call does that succeeds, for either bit. -/
theorem meets_of_ok (hmapped : p.Mapped) (hvalid : Valid p addr len) (hinside : ¬AtEnd p addr len) {w : Bool}
    (hf : Writes w f) : Meets p addr len (sysProtect (protect f)) w := by
  have hok := sysProtect_ok hmapped hvalid hinside f
  refine ⟨?_, ?_, ?_⟩ <;> rw [hok]
  · exact iff_of_true rfl hvalid
  · exact fun _ => sets_onPages hf (page_iff hvalid) (intersects_mapped hmapped hvalid)
  · intro hrc
    exact absurd hrc (show (0 : Int) ≠ -1 by decide)

/-- What a call does that the checks refuse. -/
theorem meets_of_not_reaches (hreaches : ¬Reaches p addr len) (hvalid : ¬Valid p addr len) (w : Bool) :
    Meets p addr len (sysProtect (protect f)) w := by
  refine ⟨?_, ?_, ?_⟩ <;> rw [sysProtect_eq, if_neg hreaches]
  · exact iff_of_false (show (-1 : Int) ≠ 0 by decide) hvalid
  · intro hrc
    exact absurd hrc (show (-1 : Int) ≠ 0 by decide)
  · exact fun _ => rfl

theorem mapped_onPages {q : Nat} (h : ∃ pte, pgdir q = some pte) : ∃ pte, onPages f m n pgdir q = some pte := by
  obtain ⟨pte, hpte⟩ := h
  unfold onPages
  split
  · exact ⟨f pte, by rw [hpte, Option.map_some]⟩
  · exact ⟨pte, hpte⟩

/-- Pages that were writable are as before after both calls. -/
theorem onPages_onPages {f g : BitVec 32 → BitVec 32} {v : Bool} (hf : Writes v f) (hg : Writes true g)
    (hwritable : ∀ q, m ≤ q ∧ q ≤ n → ∃ pte, pgdir q = some pte ∧ pte.getLsbD 1 = true) :
    onPages g m n (onPages f m n pgdir) = pgdir := by
  funext q
  by_cases hq : m ≤ q ∧ q ≤ n
  · obtain ⟨pte, hpte, hbit⟩ := hwritable q hq
    have hback : g (f pte) = pte := by
      apply BitVec.eq_of_getLsbD_eq
      intro i _
      rw [hg, hf]
      by_cases hi : i = 1
      · rw [if_pos hi, hi, hbit]
      · rw [if_neg hi, if_neg hi]
    rw [onPages, if_pos hq, onPages, if_pos hq, hpte, Option.map_some, Option.map_some, hback]
  · rw [onPages, if_neg hq, onPages, if_neg hq]

theorem correct_of (hmapped : p.Mapped) (hend : ¬(Valid p addr len ∧ AtEnd p addr len))
    (hwraps : ¬Wraps p addr len) : Correct p addr len := by
  by_cases hvalid : Valid p addr len
  · have hinside : ¬AtEnd p addr len := fun h => hend ⟨hvalid, h⟩
    refine ⟨meets_of_ok hmapped hvalid hinside writes_clear, meets_of_ok hmapped hvalid hinside writes_set,
      fun _ hwritable => ?_⟩
    have hfirst := sysProtect_ok hmapped hvalid hinside (· &&& ~~~PTE_W)
    have hmapped' : Proc.Mapped (sysProtect (protect (· &&& ~~~PTE_W)) p (passed addr len)).2 := by
      rw [hfirst]
      exact fun va hva hsz => mapped_onPages (hmapped va hva hsz)
    unfold sysMunprotect sysMprotect munprotect mprotect
    rw [hfirst] at hmapped' ⊢
    rw [sysProtect_ok hmapped' hvalid hinside (· ||| PTE_W)]
    exact onPages_onPages writes_clear writes_set fun q hq => hwritable q ((page_iff hvalid q).1 hq)
  · have hreaches : ¬Reaches p addr len := fun h =>
      ((reaches_iff p addr len).1 h).elim (fun h => hvalid h.1) hwraps
    refine ⟨meets_of_not_reaches hreaches hvalid false, meets_of_not_reaches hreaches hvalid true, fun hrc => ?_⟩
    unfold sysMprotect mprotect at hrc
    rw [sysProtect_eq, if_neg hreaches] at hrc
    exact absurd hrc (show (-1 : Int) ≠ 0 by decide)

/-! ## The calls that go wrong -/

theorem not_valid_of_wraps (hwraps : Wraps p addr len) : ¬Valid p addr len := by
  rintro ⟨-, -, -, hend⟩
  have hs := p.sz.isLt
  have hover := hwraps.2.2.2
  omega

/-- A call that should succeed is refused. -/
theorem not_correct_of_atEnd (hvalid : Valid p addr len) (hend : AtEnd p addr len) : ¬Correct p addr len := by
  intro hcorrect
  have hreaches : ¬Reaches p addr len := fun h =>
    ((reaches_iff p addr len).1 h).elim (fun h => h.2 hend) fun h => not_valid_of_wraps h hvalid
  have hrc := hcorrect.mprotect.accepts.2 hvalid
  unfold sysMprotect mprotect at hrc
  rw [sysProtect_eq, if_neg hreaches] at hrc
  exact absurd hrc (show (-1 : Int) ≠ 0 by decide)

theorem protectLoop_rc (f : BitVec 32 → BitVec 32) (pgdir : Pgdir) (a last : Nat) :
    (protectLoop f a last pgdir).1 = 0 ∨ (protectLoop f a last pgdir).1 = -1 := by
  fun_induction protectLoop f a last pgdir with
  | case1 => exact .inr rfl
  | case2 => exact .inl rfl
  | case3 a pgdir pte hpte pgdir' hlast ih => exact ih

/-- A call that should fail leaves its first entry alone only if that entry already was what the call makes it. -/
theorem first_unchanged (hwraps : Wraps p addr len) {pte : BitVec 32} (hpte : p.pgdir (addr.toNat / PGSIZE) = some pte)
    {w : Bool} (hmeets : Meets p addr len (sysProtect (protect f)) w) : f pte = pte := by
  have hreaches : Reaches p addr len := (reaches_iff p addr len).2 (.inr hwraps)
  obtain ⟨haccepts, -, hrefuses⟩ := hmeets
  rw [sysProtect_eq, if_pos hreaches] at haccepts hrefuses
  rcases protectLoop_rc f p.pgdir addr.toNat (PGROUNDDOWN (addr + len - 1).toNat) with hrc | hrc
  · exact absurd (haccepts.1 hrc) (not_valid_of_wraps hwraps)
  · have hfirst := protectLoop_first (f := f) addr.toNat (PGROUNDDOWN (addr + len - 1).toNat) hpte
    rw [show (protectLoop f addr.toNat (PGROUNDDOWN (addr + len - 1).toNat) p.pgdir).2 = p.pgdir from hrefuses hrc,
      hpte] at hfirst
    exact (Option.some.inj hfirst).symm

theorem not_correct_of_wraps (hmapped : p.Mapped) (hwraps : Wraps p addr len) : ¬Correct p addr len := by
  intro hcorrect
  obtain ⟨pte, hpte⟩ := hmapped addr.toNat hwraps.2.1 (by have := hwraps.2.2.1; omega)
  have hclear := congrArg (fun x => x.getLsbD 1) (first_unchanged hwraps hpte hcorrect.mprotect)
  have hset := congrArg (fun x => x.getLsbD 1) (first_unchanged hwraps hpte hcorrect.munprotect)
  simp only [writes_clear pte 1, if_true] at hclear
  simp only [writes_set pte 1, if_true] at hset
  rw [← hclear] at hset
  exact Bool.noConfusion hset

/-- **Exactly the calls that go wrong**: a range that should be accepted and ends where the process ends (or starts
less than four bytes before), and a range whose end overflows. -/
theorem correct_iff (p : Proc) (hmapped : p.Mapped) (addr len : BitVec 32) :
    Correct p addr len ↔ ¬(Valid p addr len ∧ AtEnd p addr len) ∧ ¬Wraps p addr len := by
  refine ⟨fun hcorrect => ⟨fun h => not_correct_of_atEnd h.1 h.2 hcorrect, fun h =>
    not_correct_of_wraps hmapped h hcorrect⟩, fun ⟨hend, hwraps⟩ => correct_of hmapped hend hwraps⟩

/-- A process that ends at `sz`, all pages below writable. -/
def process (sz : BitVec 32) : Proc where
  sz
  pgdir q := if q * PGSIZE < sz.toNat then some 0x7 else none

theorem process_mapped (sz : BitVec 32) : (process sz).Mapped := by
  intro va _ hva
  have hpage : va / PGSIZE * PGSIZE < sz.toNat := Nat.lt_of_le_of_lt (Nat.div_mul_le_self va PGSIZE) hva
  exact ⟨0x7, if_pos hpage⟩

theorem correct_second_page : Correct (process 12288) 4096 4096 :=
  (correct_iff (process 12288) (process_mapped 12288) 4096 4096).2
    ⟨fun h => absurd h.2 (by rintro (h | h) <;> exact absurd h (by decide)), fun h => absurd h.2.2.2 (by decide)⟩

/-- The page between the first one and the end of the process cannot be protected. -/
theorem last_page_refused : (process 8192).Mapped ∧ ¬Correct (process 8192) 4096 4096 :=
  ⟨process_mapped 8192,
    not_correct_of_atEnd ⟨by decide, by decide, by decide, by decide⟩ (.inl (by decide))⟩

/-- User memory ends below the kernel, at `0x80000000` at the latest: there no end overflows. -/
theorem not_wraps (hsz : p.sz.toNat ≤ 0x80000000) : ¬Wraps p addr len := by
  rintro ⟨haligned, -, hstart, hover⟩
  have hlen := BitVec.toInt_lt (x := len)
  omega

end OstepHw.Vm
