import OstepHw.Fsck.Accept
import OstepHw.Fsck.Contest

/-!
# What the checking pass of the repairing checker leaves behind

On an image whose addresses are in range and whose directories are safe to scan (`DirSafe`) the pass
runs to its end, whatever it prints on the way.

* `Recorded` — the effect of scanning a list of entries of one directory on the tables, the child
  maps and the choice of `lost_found`; address checks have the effect of no entries;
* `checkAddresses_ok_iff` — the address checks of an inode run iff its addresses fit the bitmap (`InBitmap`);
* `scanDir_recorded`, `checkInode_recorded` — one directory, one inode;
* `check_spec` — the whole pass: the tables are those of `xcheck.c`, and what the program takes for `lost_found`
  is the last entry whose name begins so (`lostFound`).
-/

set_option autoImplicit false

namespace OstepHw.Fsck.Contest3

open Loop
open Contest (checksParent)

variable {img : Image}

/-! ## Images on which the pass runs to its end -/

/-- What `main` copies from the image is inside it, and the bitmap loop starts inside the map. -/
@[mk_iff]
structure Layout (sb : Superblock) : Prop where
  ninodes : 0 < sb.ninodes
  table : blockOff sb.inodestart + dinodeSize * sb.ninodes ≤ IMG_SIZE
  bmap : blockOff sb.bmapstart + NBMAP ≤ IMG_SIZE
  start : 0 ≤ bitmapStart sb

/-- All addresses of the inode lie in the bitmap, and its indirect block in the image. -/
@[mk_iff]
structure InBitmap (img : Image) (d : Dinode) : Prop where
  visited : ∀ a ∈ visited img d, a < 8 * NBMAP
  pointer : d.addr NDIRECT < FSSIZE

/-- The address loops can run for all in-use inodes. -/
def AddrsOk (img : Image) : Prop :=
  ∀ i, ROOTINO ≤ i → i < (superblock img).ninodes → (inode img i).type ≠ 0 → InBitmap img (inode img i)

/-- The misdirected trace from `parent_inum` finds an empty record in front of the inode table. -/
@[mk_iff]
structure TraceEnds (img : Image) (parentInum : Nat) : Prop where
  before_table : dinodeSize * (parentInum + 1) ≤ blockOff (superblock img).inodestart
  empty : (dinodeAt img (dinodeSize * parentInum)).size = 0

/-- Directory `i` fits in one block, which is in the image if there are entries to read, all entries name
inodes of the table, and there is room in `maps[i]` for its sub-directories. -/
@[mk_iff]
structure DirFits (img : Image) (i : Nat) : Prop where
  size : (inode img i).size ≤ BSIZE
  block : 0 < entryCount (inode img i) → (inode img i).addr 0 < FSSIZE
  inums : ∀ e ∈ entries img (inode img i), e.inum < (superblock img).ninodes
  children : (entries img (inode img i)).countP (isChild (inode img) i) ≤ MAX_CHILDS

/-- Directory `i` is safe to scan: it fits, and its `.` entries name it.  For a `..` entry, the bytes that
`trace_parent` takes for the parent's record are in front of the table and say that it is empty. -/
@[mk_iff]
structure DirSafe (img : Image) (i : Nat) : Prop extends DirFits img i where
  stays : ∀ e ∈ entries img (inode img i), ¬ breaks i e
  parents : ∀ e ∈ entries img (inode img i), e.isDotDot = true →
    ¬ (i = ROOTINO ∧ e.inum = ROOTINO) → TraceEnds img e.inum

def DirsSafe (img : Image) : Prop :=
  ∀ i, ROOTINO ≤ i → i < (superblock img).ninodes → (inode img i).type = T_DIR → DirSafe img i

instance (sb : Superblock) : Decidable (Layout sb) := decidable_of_iff _ (layout_iff sb).symm

instance (img : Image) (j : Nat) : Decidable (TraceEnds img j) :=
  decidable_of_iff _ (traceEnds_iff img j).symm

instance (i : Nat) (e : Dirent) : Decidable (breaks i e) := inferInstanceAs (Decidable (_ ∧ _))

instance (img : Image) (d : Dinode) : Decidable (InBitmap img d) :=
  decidable_of_iff _ (inBitmap_iff img d).symm

instance (img : Image) : Decidable (AddrsOk img) :=
  decidable_of_iff (∀ i ∈ inums (superblock img).ninodes, (inode img i).type ≠ 0 →
    InBitmap img (inode img i))
    ⟨fun h i h₁ h₂ => h i (mem_inums.2 ⟨h₁, h₂⟩), fun h i hi =>
      h i (mem_inums.1 hi).1 (mem_inums.1 hi).2⟩

instance (img : Image) (i : Nat) : Decidable (DirFits img i) :=
  decidable_of_iff _ (dirFits_iff img i).symm

instance (img : Image) (i : Nat) : Decidable (DirSafe img i) :=
  decidable_of_iff _ (dirSafe_iff img i).symm

instance (img : Image) : Decidable (DirsSafe img) :=
  decidable_of_iff (∀ i ∈ inums (superblock img).ninodes, (inode img i).type = T_DIR → DirSafe img i)
    ⟨fun h i h₁ h₂ => h i (mem_inums.2 ⟨h₁, h₂⟩), fun h i hi =>
      h i (mem_inums.1 hi).1 (mem_inums.1 hi).2⟩

/-- The inode numbers of the entries that name a sub-directory and pass the test for `lost_found`, which
compares the first ten characters only. -/
def lostFounds (img : Image) (i : Nat) (es : List Dirent) : List Nat :=
  (es.filter fun e => isChild (inode img) i e && isLostFound e).map Dirent.inum

def lostFoundsOf (img : Image) (i : Nat) : List Nat :=
  if (inode img i).type = T_DIR then lostFounds img i (entries img (inode img i)) else []

/-- The directory that the program takes for `lost_found`: the last one in the order of the scan. -/
def lostFound (img : Image) : Option Nat :=
  ((inums (superblock img).ninodes).flatMap (lostFoundsOf img)).getLast?

/-! ## The effect of a list of entries -/

/-- Between `s` and `s'` exactly the entries `es` of directory `i` were recorded. -/
structure Recorded (img : Image) (i : Nat) (es : List Dirent) (s s' : Pass) : Prop where
  tables : s'.tables = referAll s.tables (es.map fun e => (i, e.inum))
  children : ∀ j, (s'.maps j).length =
    (s.maps j).length + if j = i then es.countP (isChild (inode img) i) else 0
  lost : s'.lostFoundDirInum = (lostFounds img i es).getLast?.getD s.lostFoundDirInum
  quiet : .err .notFound ∈ s'.stderr → .err .notFound ∈ s.stderr

theorem Recorded.refl (i : Nat) (s : Pass) : Recorded img i [] s s :=
  ⟨rfl, by simp, rfl, id⟩

/-- Only the entries of directory `i` are noted in `maps[i]`. -/
theorem Recorded.maps_eq_nil {i j : Nat} {es : List Dirent} {s s' : Pass} (h : Recorded img i es s s')
    (hj : s.maps j = []) (hes : j = i → es = []) : s'.maps j = [] := by
  apply List.eq_nil_of_length_eq_zero
  rw [h.children j, hj]
  split
  · next heq =>
    rw [hes heq]
    rfl
  · rfl

theorem Recorded.trans {i : Nat} {es es' : List Dirent} {s s' s'' : Pass}
    (h : Recorded img i es s s') (h' : Recorded img i es' s' s'') :
    Recorded img i (es ++ es') s s'' := by
  refine ⟨?_, ?_, ?_, h.quiet ∘ h'.quiet⟩
  · rw [h'.tables, h.tables, List.map_append, referAll_append]
  · intro j
    rw [h'.children, h.children, List.countP_append]
    split <;> omega
  · have happ : lostFounds img i (es ++ es') = lostFounds img i es ++ lostFounds img i es' := by
      simp [lostFounds]
    rw [h'.lost, h.lost, happ, List.getLast?_append]
    cases (lostFounds img i es').getLast? <;> simp

theorem Recorded.sameButLinks {i : Nat} {es : List Dirent} {s s' : Pass}
    (h : Recorded img i es s s') (hs : SameButLinks (inode img) s.tables) :
    SameButLinks (inode img) s'.tables := by
  rw [h.tables]
  exact hs.referAll

/-- A step that keeps the three fields and does not print error 9 records nothing. -/
theorem Recorded.of_fields {s s' : Pass} (i : Nat) (ht : s'.tables = s.tables)
    (hm : s'.maps = s.maps) (hl : s'.lostFoundDirInum = s.lostFoundDirInum)
    (hq : .err .notFound ∈ s'.stderr → .err .notFound ∈ s.stderr) : Recorded img i [] s s' :=
  ⟨ht, by simp [hm], hl, hq⟩

section Print

variable (s : Pass) (p : Prop) [Decidable p] (m : Msg)

@[simp] theorem printIf_tables : (s.printIf p m).tables = s.tables := by
  unfold Pass.printIf
  split <;> rfl

@[simp] theorem printIf_maps : (s.printIf p m).maps = s.maps := by
  unfold Pass.printIf
  split <;> rfl

@[simp] theorem printIf_lost :
    (s.printIf p m).lostFoundDirInum = s.lostFoundDirInum := by
  unfold Pass.printIf
  split <;> rfl

/-- Printing a message adds no other one. -/
theorem mem_printIf {m m' : Msg} (hm : m ≠ m') : m' ∈ (s.printIf p m).stderr ↔ m' ∈ s.stderr := by
  unfold Pass.printIf
  split
  · simp [hm.symm]
  · exact Iff.rfl

end Print

/-- Printing another message than error 9 records nothing. -/
theorem Recorded.printIf (i : Nat) (s : Pass) (p : Prop) [Decidable p] {m : Msg}
    (hm : m ≠ .err .notFound) : Recorded img i [] s (s.printIf p m) :=
  .of_fields i (printIf_tables s p m) (printIf_maps s p m) (printIf_lost s p m)
    (mem_printIf s p hm).mp

/-! ## Addresses -/

/-- An address check that runs records nothing. -/
theorem recorded_of_checkAddress (img : Image) {addr : Nat} {direct : Bool} {ds : Nat}
    {bm : Nat → Nat} (i : Nat) {s s' : Pass} (h : checkAddress addr direct ds bm s = .ok s') :
    Recorded img i [] s s' := by
  unfold checkAddress at h
  have hrange : Msg.err (if direct then .badDirect else .badIndirect) ≠ .err .notFound := by
    cases direct <;> decide
  have htwice : Msg.err (if direct then .directTwice else .indirectTwice) ≠ .err .notFound := by
    cases direct <;> decide
  by_cases h0 : addr = 0
  · simp only [if_pos h0] at h
    cases h
    exact .printIf i s _ hrange
  · simp only [if_neg h0] at h
    rw [bind_eq_ok] at h
    obtain ⟨_, _, h⟩ := h
    cases h
    refine .of_fields i (by simp) (by simp) (by simp) ?_
    rw [mem_printIf _ _ htwice, mem_printIf _ _ (by decide)]
    exact (mem_printIf s _ hrange).mp

theorem checkAddress_ok_iff {addr : Nat} {direct : Bool} {ds : Nat} {bm : Nat → Nat} {s : Pass} :
    (∃ s', checkAddress addr direct ds bm s = .ok s') ↔ addr < 8 * NBMAP := by
  unfold checkAddress
  by_cases h0 : addr = 0
  · rw [h0]
    exact iff_of_true ⟨_, rfl⟩ (by decide)
  · simp only [if_neg h0]
    constructor
    · rintro ⟨s', hrun⟩
      rw [bind_eq_ok] at hrun
      obtain ⟨_, hidx, _⟩ := hrun
      have := index_eq_ok.1 hidx
      omega
    · intro hlt
      rw [index_eq_ok (u := ()).2 (show addr / 8 < NBMAP by omega), ok_bind]
      exact ⟨_, rfl⟩

/-- A loop of address checks. -/
theorem check_list_ok_iff {α : Type} {addr : α → Nat} {direct : Bool} {ds : Nat} {bm : Nat → Nat}
    {l : List α} {s : Pass} :
    (∃ s', l.foldlM (fun s a => checkAddress (addr a) direct ds bm s) s = .ok s') ↔
      ∀ a ∈ l, addr a < 8 * NBMAP := by
  refine foldlM_runs_iff_forall (P := fun _ _ => True) (fun _ _ _ _ _ _ => ?_)
    (fun _ _ _ _ _ _ _ _ => trivial) trivial
  exact checkAddress_ok_iff

/-- A list of address checks that runs records nothing. -/
theorem recorded_of_check_list (img : Image) {α : Type} {addr : α → Nat} {direct : Bool} {ds : Nat}
    {bm : Nat → Nat} (i : Nat) {l : List α} {s s' : Pass}
    (h : l.foldlM (fun s a => checkAddress (addr a) direct ds bm s) s = .ok s') :
    Recorded img i [] s s' :=
  foldlM_ok_invariant (P := fun _ s' => Recorded img i [] s s')
    (fun _ _ _ _ _ _ hs hk => hs.trans (recorded_of_checkAddress img i hk)) (Recorded.refl i s) h

/-- The thirteen-slot loop is the twelve direct slots followed by the indirect block. -/
theorem checkAddresses_eq (img : Image) (ds : Nat) (bm : Nat → Nat) (d : Dinode) (s : Pass) :
    checkAddresses img ds bm d s = (do
      let s ← (List.range NDIRECT).foldlM (fun s j => checkAddress (d.addr j) true ds bm s) s
      let s ← checkAddress (d.addr NDIRECT) false ds bm s
      memmove img (blockOff (d.addr NDIRECT)) (4 * NINDIRECT)
      (List.range NINDIRECT).foldlM (fun s k =>
        checkAddress (indirectWord img (d.addr NDIRECT) k) false ds bm s) s) := by
  unfold checkAddresses
  rw [List.range_succ, List.foldlM_append,
    foldlM_congr (l := List.range NDIRECT) (g := fun s j => checkAddress (d.addr j) true ds bm s)
      (fun s j hj => by rw [if_pos (List.mem_range.mp hj)])]
  congr 1
  funext m
  simp

theorem forall_mem_visited {d : Dinode} {P : Nat → Prop} :
    (∀ a ∈ visited img d, P a) ↔ (∀ j ∈ List.range NDIRECT, P (d.addr j)) ∧ P (d.addr NDIRECT) ∧
      ∀ k ∈ List.range NINDIRECT, P (indirectWord img (d.addr NDIRECT) k) := by
  simp only [visited, List.forall_mem_append, List.forall_mem_map, List.forall_mem_singleton]

theorem memmove_block_iff {a : Nat} (ha : a < 8 * NBMAP) {u : Unit} :
    memmove img (blockOff a) (4 * NINDIRECT) = .ok u ↔ a < FSSIZE := by
  rw [memmove_eq_ok, blockOff]
  simp only [NBMAP, NINDIRECT, FSSIZE, IMG_SIZE, BSIZE] at *
  omega

/-- The address loop runs to its end iff it stays in the bitmap and in the image. -/
theorem checkAddresses_ok_iff {ds : Nat} {bm : Nat → Nat} {d : Dinode} {s : Pass} :
    (∃ s', checkAddresses img ds bm d s = .ok s') ↔ InBitmap img d := by
  rw [inBitmap_iff, forall_mem_visited, checkAddresses_eq]
  constructor
  · rintro ⟨s', hrun⟩
    simp only [bind_eq_ok] at hrun
    obtain ⟨s₁, h₁, s₂, h₂, _, hmove, h₃⟩ := hrun
    have hpointer := checkAddress_ok_iff.1 ⟨s₂, h₂⟩
    exact ⟨⟨check_list_ok_iff.1 ⟨s₁, h₁⟩, hpointer, check_list_ok_iff.1 ⟨s', h₃⟩⟩,
      (memmove_block_iff hpointer).1 hmove⟩
  · rintro ⟨⟨hdirect, hpointer, hwords⟩, hblock⟩
    obtain ⟨s₁, h₁⟩ := check_list_ok_iff.2 hdirect
    obtain ⟨s₂, h₂⟩ := checkAddress_ok_iff.2 hpointer
    obtain ⟨s₃, h₃⟩ := check_list_ok_iff.2 hwords
    rw [h₁, ok_bind, h₂, ok_bind, (memmove_block_iff (u := ()) hpointer).2 hblock, ok_bind]
    exact ⟨s₃, h₃⟩

theorem checkAddresses_relink (img : Image) (ds : Nat) (bm : Nat → Nat) (d : Dinode) (k : Int)
    (s : Pass) : checkAddresses img ds bm (d.relink k) s = checkAddresses img ds bm d s := by
  have haddr : (d.relink k).addr = d.addr := funext (relink_addr d k)
  unfold checkAddresses
  rw [haddr]

/-- An address loop that runs records nothing. -/
theorem recorded_of_checkAddresses {d : Dinode} {ds : Nat} {bm : Nat → Nat} (i : Nat) {s s' : Pass}
    (h : checkAddresses img ds bm d s = .ok s') : Recorded img i [] s s' := by
  rw [checkAddresses_eq] at h
  simp only [bind_eq_ok] at h
  obtain ⟨s₁, h₁, s₂, h₂, _, _, h₃⟩ := h
  exact ((recorded_of_check_list img i h₁).trans (recorded_of_checkAddress img i h₂)).trans
    (recorded_of_check_list img i h₃)

/-! ## One entry -/

theorem isChild_congr {s : Pass} (hs : SameButLinks (inode img) s.tables) (i : Nat) (e : Dirent) :
    isChild s.tables.inodes i e = isChild (inode img) i e := by
  unfold isChild
  rw [hs.type_eq]

/-- An entry is recorded when its inode number and the child map have room. -/
theorem record_recorded {s : Pass} {i n : Nat} {e : Dirent}
    (hs : SameButLinks (inode img) s.tables) (hn : e.inum < n)
    (hroom : isChild (inode img) i e = true → (s.maps i).length < MAX_CHILDS) :
    ∃ s', record n i e s = .ok s' ∧ Recorded img i [e] s s' := by
  have hnum : index e.inum n = .ok () := index_eq_ok.2 hn
  unfold record
  rw [hnum, ok_bind, isChild_congr hs]
  cases hc : isChild (inode img) i e with
  | false =>
    refine ⟨_, rfl, rfl, fun j => ?_, ?_, id⟩
    · simp [hc]
    · simp [lostFounds, hc]
  | true =>
    have hidx : index (s.maps i).length MAX_CHILDS = .ok () := index_eq_ok.2 (hroom hc)
    simp only [if_true, hidx, ok_bind, pure, Except.pure]
    refine ⟨_, rfl, rfl, fun j => ?_, ?_, id⟩
    · by_cases hj : j = i
      · subst hj
        simp [hc]
      · simp [hj]
    · cases hl : isLostFound e <;> simp [lostFounds, hc, hl]

/-- The misdirected trace ends at once when it finds an empty record. -/
theorem checkParent_recorded {s : Pass} {i : Nat} {e : Dirent} (hl : Layout (superblock img))
    (hn : e.inum < (superblock img).ninodes)
    (hrec : TraceEnds img e.inum) :
    ∃ s', checkParent img (superblock img).ninodes i e s = .ok s' ∧ Recorded img i [] s s' := by
  have hmove : memmove img (dinodeSize * e.inum) dinodeSize = .ok () := by
    have h₁ := hl.table
    have h₂ := hrec.before_table
    rw [memmove_eq_ok]
    simp only [dinodeSize] at *
    omega
  have htrace : traceParent (inodesRegion s.tables.inodes (superblock img).ninodes) img i traceFuel
      e.inum = .ok [] := by
    have hoff : offsets (dinodeAt img (dinodeSize * e.inum)).size = [] := by
      rw [hrec.empty]
      rfl
    rw [traceFuel, traceParent, hmove, ok_bind]
    simp only [hoff, List.foldlM_nil]
    rfl
  have hnum : index e.inum (superblock img).ninodes = .ok () := index_eq_ok.2 hn
  unfold checkParent
  rw [hnum, ok_bind]
  simp only [printIf_tables, htrace, ok_bind, pure, Except.pure, List.append_nil]
  refine ⟨_, rfl, .of_fields i rfl (by simp) (by simp) ?_⟩
  exact (mem_printIf s _ (by decide)).mp

/-! ## One directory -/

/-- The scan can read the entry and go on. -/
structure EntrySafe (img : Image) (i : Nat) (e : Dirent) : Prop where
  stays : ¬ breaks i e
  inum : e.inum < (superblock img).ninodes
  parent : e.isDotDot = true → ¬ (i = ROOTINO ∧ e.inum = ROOTINO) → TraceEnds img e.inum

/-- The check made at an entry. -/
def parentStep (img : Image) (i : Nat) (s : Pass) (e : Dirent) : Run Pass :=
  if checksParent i e then checkParent img (superblock img).ninodes i e s else .ok s

/-- The body of the scan for an entry that does not leave the loop. -/
def scanStep (img : Image) (i : Nat) (s : Scan) (e : Dirent) : Run Scan := do
  let pass ← parentStep img i s.pass e
  let pass ← record (superblock img).ninodes i e pass
  return { s with
    countDots := s.countDots + (if e.isDots then 1 else 0)
    rootExist := s.rootExist ||
      (e.isDotDot && (decide (i = ROOTINO) && decide (e.inum = ROOTINO)))
    pass := pass }

theorem scanDir_cons {d : Dinode} {i k : Nat} {offs : List Nat} {s : Scan}
    (ha : d.addr 0 < FSSIZE) (hk : k < 32) (hb : ¬ breaks i (entryAt img d k)) :
    scanDir img (superblock img).ninodes i d (16 * k :: offs) s =
      scanStep img i s (entryAt img d k) >>=
        scanDir img (superblock img).ninodes i d offs := by
  rw [scanDir, readInodeData_ok ha hk, ok_bind]
  generalize hde : entryAt img d k = de at hb
  unfold scanStep parentStep Dirent.isDots
  by_cases hdot : de.isDot = true
  · have hi : de.inum = i := by
      by_contra hne
      exact hb ⟨hdot, hne⟩
    have hdd : de.isDotDot = false := Dirent.not_isDotDot_of_isDot hdot
    have hcheck : ¬ checksParent i de := fun h => by
      rw [h.1] at hdd
      cases hdd
    rw [if_pos hdot, if_neg (not_not.mpr hi), if_neg hcheck, ok_bind]
    simp only [hdot, hdd, Bool.false_and, Bool.or_false, if_true]
    cases record (superblock img).ninodes i de s.pass <;> rfl
  · rw [if_neg hdot]
    by_cases hdd : de.isDotDot = true
    · rw [if_pos hdd]
      by_cases hroot : i = ROOTINO ∧ de.inum = ROOTINO
      · have hcheck : ¬ checksParent i de := fun h => h.2 hroot
        have hflag : (decide (i = ROOTINO) && decide (de.inum = ROOTINO)) = true := by
          rw [Bool.and_eq_true, decide_eq_true_eq, decide_eq_true_eq]
          exact hroot
        rw [if_pos hroot, if_neg hcheck, ok_bind]
        simp only [hdd, hflag, Bool.or_true, Bool.and_true, if_true]
        cases record (superblock img).ninodes i de s.pass <;> rfl
      · have hcheck : checksParent i de := ⟨hdd, hroot⟩
        have hflag : (decide (i = ROOTINO) && decide (de.inum = ROOTINO)) = false := by
          rw [← Bool.not_eq_true, Bool.and_eq_true, decide_eq_true_eq, decide_eq_true_eq]
          exact hroot
        rw [if_neg hroot, if_pos hcheck]
        simp only [hdd, hflag, Bool.or_true, Bool.and_false, Bool.or_false, if_true]
        cases checkParent img (superblock img).ninodes i de s.pass with
        | error e => rfl
        | ok pass =>
          rw [ok_bind, ok_bind]
          cases record (superblock img).ninodes i de pass <;> rfl
    · have hcheck : ¬ checksParent i de := fun h => hdd h.1
      have hdot' : de.isDot = false := by simpa using hdot
      have hdd' : de.isDotDot = false := by simpa using hdd
      rw [if_neg hdd, if_neg hcheck, ok_bind]
      simp only [hdot', hdd', Bool.false_and, Bool.or_false, Bool.false_eq_true, if_false, Nat.add_zero]
      cases record (superblock img).ninodes i de s.pass <;> rfl

/-- One turn of the scan. -/
theorem scanDir_step {d : Dinode} {i k : Nat} {s : Scan} (hl : Layout (superblock img))
    (ha : d.addr 0 < FSSIZE) (hk : k < 32) (hs : SameButLinks (inode img) s.pass.tables)
    (he : EntrySafe img i (entryAt img d k))
    (hroom : isChild (inode img) i (entryAt img d k) = true →
      (s.pass.maps i).length < MAX_CHILDS) (offs : List Nat) :
    ∃ s', scanDir img (superblock img).ninodes i d (16 * k :: offs) s =
        scanDir img (superblock img).ninodes i d offs s' ∧
      Recorded img i [entryAt img d k] s.pass s'.pass := by
  -- the trace prints nothing and leaves the tables for the recording of the entry
  have hparent : ∃ p, parentStep img i s.pass (entryAt img d k) = .ok p ∧ Recorded img i [] s.pass p := by
    unfold parentStep
    by_cases hc : checksParent i (entryAt img d k)
    · rw [if_pos hc]
      exact checkParent_recorded hl he.inum (he.parent hc.1 hc.2)
    · rw [if_neg hc]
      exact ⟨s.pass, rfl, Recorded.refl i s.pass⟩
  obtain ⟨p₁, hp₁, h₁⟩ := hparent
  have hroom₁ : isChild (inode img) i (entryAt img d k) = true →
      (p₁.maps i).length < MAX_CHILDS := by
    intro hc
    rw [h₁.children i]
    simpa using hroom hc
  obtain ⟨p₂, hp₂, h₂⟩ := record_recorded (h₁.sameButLinks hs) he.inum hroom₁
  rw [scanDir_cons ha hk he.stays, scanStep, hp₁, ok_bind, hp₂, ok_bind]
  exact ⟨_, rfl, h₁.trans h₂⟩

/-- The scan goes through a list of safe entries. -/
theorem scanDir_recorded {d : Dinode} {i : Nat} (hl : Layout (superblock img)) (l : List Nat) : ∀ s : Scan,
    SameButLinks (inode img) s.pass.tables →
    (∀ k ∈ l, k < 32 ∧ d.addr 0 < FSSIZE ∧ EntrySafe img i (entryAt img d k)) →
    (s.pass.maps i).length + (l.map (entryAt img d)).countP (isChild (inode img) i) ≤ MAX_CHILDS →
    ∀ offs, ∃ s', scanDir img (superblock img).ninodes i d (l.map (16 * ·) ++ offs) s =
        scanDir img (superblock img).ninodes i d offs s' ∧
      Recorded img i (l.map (entryAt img d)) s.pass s'.pass := by
  induction l with
  | nil => exact fun s _ _ _ _ => ⟨s, rfl, Recorded.refl i s.pass⟩
  | cons k l ih =>
    intro s hs hsafe hroom offs
    obtain ⟨hk, ha, he⟩ := hsafe k List.mem_cons_self
    rw [List.map_cons, List.countP_cons] at hroom
    have hroom₁ : isChild (inode img) i (entryAt img d k) = true →
        (s.pass.maps i).length < MAX_CHILDS := by
      intro hc
      rw [if_pos hc] at hroom
      omega
    obtain ⟨s₁, hrun₁, h₁⟩ := scanDir_step hl ha hk hs he hroom₁ (l.map (16 * ·) ++ offs)
    have hroom₂ : (s₁.pass.maps i).length +
        (l.map (entryAt img d)).countP (isChild (inode img) i) ≤ MAX_CHILDS := by
      rw [h₁.children i, if_pos rfl, List.countP_singleton]
      omega
    obtain ⟨s₂, hrun₂, h₂⟩ := ih s₁ (h₁.sameButLinks hs)
      (fun m hm => hsafe m (List.mem_cons_of_mem _ hm)) hroom₂ offs
    exact ⟨s₂, by rw [List.map_cons, List.cons_append, hrun₁, hrun₂], h₁.trans h₂⟩

theorem DirSafe.entrySafe {i : Nat} (h : DirSafe img i) {e : Dirent}
    (he : e ∈ entries img (inode img i)) : EntrySafe img i e :=
  ⟨h.stays e he, h.inums e he, h.parents e he⟩

/-- The two tests after the scan of a directory only print. -/
theorem Recorded.final {i : Nat} {es : List Dirent} {s₀ : Pass} {s : Scan}
    (h : Recorded img i es s₀ s.pass) :
    Recorded img i es s₀
      ((s.pass.printIf (i = ROOTINO ∧ s.rootExist = false) (.err .rootMissing)).printIf
        (s.dirError = true ∨ s.countDots ≠ 2) (.err .badFormat)) := by
  have h₁ := h.trans
    (.printIf i s.pass (i = ROOTINO ∧ s.rootExist = false)
      (show Msg.err .rootMissing ≠ .err .notFound by decide))
  have h₂ := h₁.trans
    (.printIf i _ (s.dirError = true ∨ s.countDots ≠ 2)
      (show Msg.err .badFormat ≠ .err .notFound by decide))
  simpa only [List.append_nil] using h₂

/-- A whole directory that has no children recorded yet. -/
theorem checkDir_recorded {i : Nat} {s : Pass} (hl : Layout (superblock img)) (hd : DirSafe img i)
    (hs : SameButLinks (inode img) s.tables) (hmaps : s.maps i = []) :
    ∃ s', checkDir img (superblock img).ninodes i (inode img i) s = .ok s' ∧
      Recorded img i (entries img (inode img i)) s s' := by
  have hsafe : ∀ k ∈ List.range (entryCount (inode img i)),
      k < 32 ∧ (inode img i).addr 0 < FSSIZE ∧ EntrySafe img i (entryAt img (inode img i) k) := by
    intro k hk
    have hk' := List.mem_range.mp hk
    have h32 := entryCount_le.2 hd.size
    exact ⟨by omega, hd.block (by omega), hd.entrySafe (mem_entries.2 ⟨k, hk', rfl⟩)⟩
  have hroom : (s.maps i).length +
      (entries img (inode img i)).countP (isChild (inode img) i) ≤ MAX_CHILDS := by
    rw [hmaps, List.length_nil, Nat.zero_add]
    exact hd.children
  obtain ⟨s₁, hrun, h₁⟩ := scanDir_recorded hl (List.range (entryCount (inode img i)))
    { countDots := 0, rootExist := false, dirError := false, pass := s } hs hsafe hroom []
  rw [List.append_nil, scanDir] at hrun
  unfold checkDir
  rw [offsets_size, hrun, ok_bind]
  exact ⟨_, rfl, Recorded.final h₁⟩

/-! ## The whole pass -/

/-- The state of the pass after the inodes of `l`. -/
structure PassAfter (img : Image) (l : List Nat) (s : Pass) : Prop where
  tables : s.tables = referAll (initState img).tables (l.flatMap (refsOf img))
  maps : ∀ j, j ∉ l → s.maps j = []
  lost : s.lostFoundDirInum = ((l.flatMap (lostFoundsOf img)).getLast?).getD 0
  quiet : .err .notFound ∉ s.stderr

theorem PassAfter.sameButLinks {l : List Nat} {s : Pass} (h : PassAfter img l s) :
    SameButLinks (inode img) s.tables := by
  rw [h.tables]
  exact (sameButLinks_initState img).referAll

theorem passAfter_initPass (img : Image) : PassAfter img [] (initPass img) :=
  ⟨rfl, fun _ _ => rfl, rfl, List.not_mem_nil⟩

/-- Recording the entries of inode `i` extends the description. -/
theorem PassAfter.snoc {l : List Nat} {i : Nat} {es : List Dirent} {s s' : Pass}
    (h : PassAfter img l s) (hr : Recorded img i es s s')
    (hrefs : refsOf img i = es.map fun e => (i, e.inum))
    (hlost : lostFoundsOf img i = lostFounds img i es) : PassAfter img (l ++ [i]) s' := by
  refine ⟨?_, ?_, ?_, h.quiet ∘ hr.quiet⟩
  · rw [hr.tables, h.tables, List.flatMap_append, List.flatMap_singleton, referAll_append, hrefs]
  · intro j hj
    simp only [List.mem_append, List.mem_singleton, not_or] at hj
    exact hr.maps_eq_nil (h.maps j hj.1) fun hji => absurd hji hj.2
  · rw [hr.lost, h.lost, List.flatMap_append, List.flatMap_singleton, List.getLast?_append, hlost]
    cases (lostFounds img i es).getLast? <;> simp

/-- The link count of an inode changes only if it is a file and some entry names it. -/
theorem referAll_inodes_of_kept {inodes : Nat → Dinode} {j : Nat} {l : List (Nat × Nat)} :
    ∀ {t : Tables}, SameButLinks inodes t → ((inodes j).type = T_FILE → ∀ p ∈ l, p.2 ≠ j) →
      (referAll t l).inodes j = t.inodes j := by
  induction l with
  | nil => exact fun _ _ => rfl
  | cons p l ih =>
    intro t h hj
    rw [referAll, List.foldl_cons, ← referAll,
      ih (h.refer p.1 p.2) fun hf q hq => hj hf q (List.mem_cons_of_mem _ hq), refer_inodes, if_neg]
    rintro ⟨rfl, hf⟩
    exact hj (h.type_eq p.2 ▸ hf) p List.mem_cons_self rfl

theorem PassAfter.inodes_of_kept {l : List Nat} {s : Pass} (h : PassAfter img l s) {j : Nat}
    (hj : (inode img j).type = T_FILE → ∀ p ∈ l.flatMap (refsOf img), p.2 ≠ j) :
    s.tables.inodes j = inode img j := by
  rw [h.tables, referAll_inodes_of_kept (sameButLinks_initState img) hj]
  rfl

/-- **One turn of the inode loop.** -/
theorem checkInode_recorded {l : List Nat} {i : Nat} {s : Pass} (hl : Layout (superblock img))
    (haddr : (inode img i).type ≠ 0 → InBitmap img (inode img i))
    (hdir : (inode img i).type = T_DIR → DirSafe img i) (h : PassAfter img l s) (hi : i ∉ l) :
    ∃ s', checkInode img s i = .ok s' ∧ PassAfter img (l ++ [i]) s' := by
  obtain ⟨k, hk⟩ := h.sameButLinks i
  have h₀ : Recorded img i [] s (checkInodeType (inode img i).type s) :=
    .printIf i s _ (by decide)
  -- the directory part, from any state in which only addresses were checked
  have hbody : ∀ s₁, Recorded img i [] s s₁ → ∃ s',
      (if (inode img i).type = T_DIR then
        checkDir img (superblock img).ninodes i ((inode img i).relink k) s₁ else pure s₁) = .ok s' ∧
        PassAfter img (l ++ [i]) s' := by
    intro s₁ h₁
    by_cases hd : (inode img i).type = T_DIR
    · have hself : (inode img i).relink k = inode img i :=
        hk ▸ h.inodes_of_kept fun hf => absurd hf (type_ne_file_of_dir hd)
      have hmaps := h₁.maps_eq_nil (h.maps i hi) fun _ => rfl
      obtain ⟨s₂, hrun₂, h₂⟩ :=
        checkDir_recorded hl (hdir hd) (h₁.sameButLinks h.sameButLinks) hmaps
      rw [if_pos hd, hself]
      refine ⟨s₂, hrun₂, h.snoc (h₁.trans h₂) ?_ ?_⟩
      · rw [refsOf, if_pos hd]
        rfl
      · rw [lostFoundsOf, if_pos hd]
        rfl
    · rw [if_neg hd]
      refine ⟨s₁, rfl, h.snoc h₁ ?_ ?_⟩
      · rw [refsOf, if_neg hd]
        rfl
      · rw [lostFoundsOf, if_neg hd]
        rfl
  unfold checkInode
  simp only [hk, relink_type]
  by_cases h0 : (inode img i).type ≠ 0
  · obtain ⟨s₁, hrun₁⟩ := checkAddresses_ok_iff.2 (haddr h0)
    rw [if_pos h0, checkAddresses_relink, hrun₁, ok_bind]
    exact hbody s₁ (h₀.trans (recorded_of_checkAddresses i hrun₁))
  · rw [if_neg h0, pure_bind]
    exact hbody _ h₀

/-- The bitmap loop only prints. -/
theorem checkBitmap_spec {l : List Nat} {s : Pass} (hl : Layout (superblock img))
    (h : PassAfter img l s) :
    ∃ s', checkBitmap (superblock img) (bmap img) s = .ok s' ∧ PassAfter img l s' := by
  unfold checkBitmap
  rw [if_neg (Int.not_lt.mpr hl.start)]
  refine ⟨_, rfl, ?_⟩
  generalize (List.range _).map _ = js
  induction js generalizing s with
  | nil => exact h
  | cons j js ih =>
    rw [List.foldl_cons]
    apply ih
    refine ⟨by rw [printIf_tables, h.tables], by rw [printIf_maps]; exact h.maps,
      by rw [printIf_lost, h.lost], ?_⟩
    rw [mem_printIf _ _ (by decide)]
    exact h.quiet

/-- No inode has its turn twice. -/
theorem not_mem_of_inums_eq {n i : Nat} {pre post : List Nat} (h : inums n = pre ++ i :: post) : i ∉ pre := by
  have hnodup : (inums n).Nodup := List.nodup_range'
  rw [h, List.nodup_append] at hnodup
  exact fun hpre => hnodup.2.2 i hpre i List.mem_cons_self rfl

/-- **The checking pass** runs to its end on every image that is safe to scan. -/
theorem check_spec (hl : Layout (superblock img)) (haddr : AddrsOk img) (hdirs : DirsSafe img) :
    ∃ s, check img = .ok s ∧ PassAfter img (inums (superblock img).ninodes) s := by
  have htable : memmove img (blockOff (superblock img).inodestart)
      (dinodeSize * (superblock img).ninodes) = .ok () := memmove_eq_ok.2 hl.table
  have hbmap : memmove img (blockOff (superblock img).bmapstart) NBMAP = .ok () :=
    memmove_eq_ok.2 hl.bmap
  obtain ⟨s₁, hrun₁, h₁⟩ := foldlM_runs (f := checkInode img) (P := PassAfter img)
    (l := inums (superblock img).ninodes) (fun pre i post s heq hs => by
      have hmem : i ∈ inums (superblock img).ninodes := by rw [heq]; simp
      obtain ⟨h₁, h₂⟩ := mem_inums.1 hmem
      exact checkInode_recorded hl (haddr i h₁ h₂) (hdirs i h₁ h₂) hs (not_mem_of_inums_eq heq))
    (passAfter_initPass img)
  obtain ⟨s₂, hrun₂, h₂⟩ := checkBitmap_spec hl h₁
  refine ⟨s₂, ?_, h₂⟩
  unfold check
  simp only [htable, hbmap, ok_bind]
  rw [hrun₁, ok_bind, hrun₂]

end OstepHw.Fsck.Contest3
