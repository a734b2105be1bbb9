import OstepHw.Fsck.Contest3Pass
import OstepHw.Fsck.Sound

/-!
# The repair

What `xcheck_contest_3.c -r` does with the orphans, the in-use inodes that no directory entry names.

* `Repaired`, `RepairRight` — what a repair should be: the entries that `lost_found` gets, the bytes
  that stay, and that a second run has nothing left to do;
* `WellFormed`, `HasRoom` — the images on which it is: the directory that the program takes for
  `lost_found` is one, and has room for the new entries in its first block;
* `iappend_spec`, `repair_loop_spec`, `main_spec` — what the code then does: one store of all entries
  behind the old ones, and one of the record.
-/

set_option autoImplicit false

namespace OstepHw.Fsck.Contest3

open Loop

variable {img : Image}

/-! ## What a repair should be -/

instance (img : Image) : DecidablePred (Referred img) := fun j =>
  inferInstanceAs (Decidable (∃ p ∈ refs img, p.2 = j))

def Orphan (img : Image) (j : Nat) : Prop := (inode img j).type ≠ 0 ∧ ¬ Referred img j

instance (img : Image) : DecidablePred (Orphan img) := fun _ => inferInstanceAs (Decidable (_ ∧ _))

/-- The orphans in increasing order. -/
def orphans (img : Image) : List Nat := (inums (superblock img).ninodes).filter (Orphan img)

/-- The entry that `mov_lost_found` makes for inode `inum`. -/
def lostEntry (inum : Nat) : Dirent := ⟨inum, fun k => lostName.getD k 0⟩

/-- The image passes the address checks: all addresses are in range, marked, and used once. -/
def BlocksPass (img : Image) : Prop :=
  Passes (dataStart (superblock img)) (bmap img) (fun _ => 0)
    ((inums (superblock img).ninodes).flatMap (visitsOf img))

/-- Where the record of inode `i` starts. -/
def recordAt (img : Image) (i : Nat) : Nat := blockOff (superblock img).inodestart + dinodeSize * i

/-- Byte `a` is in the record of inode `i`. -/
def InRecord (img : Image) (i a : Nat) : Prop := recordAt img i ≤ a ∧ a < recordAt img i + dinodeSize

/-- Block `b` belongs to inode `i`. -/
def Owns (img : Image) (i b : Nat) : Prop :=
  b ≠ 0 ∧ ∃ p : Slot, p.InUse img ∧ p.inum = i ∧ p.addr img = b

/-- Block `b` is meta-data, or in use by some inode. -/
def Taken (img : Image) (b : Nat) : Prop := b < dataStart (superblock img) ∨ Referenced img b

/-- The images agree, except in the record and the blocks of inode `lf` and in blocks that nobody
uses. -/
def Agrees (img : Image) (lf : Nat) (img' : Image) : Prop :=
  ∀ a < IMG_SIZE, ¬ InRecord img lf a → ¬ Owns img lf (a / BSIZE) → Taken img (a / BSIZE) →
    img'.byte a = img.byte a

/-- The repair of `img` with the directory `lf` gave `img'`. -/
structure Repaired (img : Image) (lf : Nat) (img' : Image) : Prop where
  entries : entries img' (inode img' lf) = entries img (inode img lf) ++ (orphans img).map lostEntry
  frame : Agrees img lf img'
  again : ∃ msgs, main img' = .ok (img', msgs) ∧ .err .notFound ∉ msgs

/-- `lf` is a `lost_found` directory: a directory that another one holds under just that name. -/
def LostFoundDir (img : Image) (lf : Nat) : Prop :=
  (inode img lf).type = T_DIR ∧ ∃ i ∈ inums (superblock img).ninodes, (inode img i).type = T_DIR ∧ i ≠ lf ∧
    ∃ e ∈ entries img (inode img i), e.cname = targetDirStr ∧ e.inum = lf

/-- The repair of `img` is as it should be: orphans go to a `lost_found` directory, and without one the
image stays as it is. -/
structure RepairRight (img : Image) : Prop where
  repairs : (∃ lf, LostFoundDir img lf) → ∃ lf, LostFoundDir img lf ∧
    ∃ img' msgs, main img = .ok (img', msgs) ∧ Repaired img lf img'
  leaves : (¬ ∃ lf, LostFoundDir img lf) → ∃ msgs, main img = .ok (img, msgs)

/-! ## When it is -/

/-- The directory `lf` can take entries: it has a first block and ends between two entries, and
`maps[lf]` has room for the directories among the orphans.  Superblock, inode table and data blocks do
not overlap. -/
@[mk_iff]
structure Appendable (img : Image) (lf : Nat) : Prop where
  after_superblock : 2 * BSIZE ≤ recordAt img 0
  before_data : recordAt img (superblock img).ninodes ≤ dataStart (superblock img) * BSIZE
  root_le : ROOTINO ≤ lf
  block : (inode img lf).addr 0 ≠ 0
  aligned : 16 ∣ (inode img lf).size
  children : (entries img (inode img lf) ++ (orphans img).map lostEntry).countP
    (isChild (inode img) lf) ≤ MAX_CHILDS

/-- The image is safe to scan and to append to. -/
@[mk_iff]
structure WellFormed (img : Image) : Prop where
  layout : Layout (superblock img)
  addrs : AddrsOk img
  dirs : DirsSafe img
  lost_found : orphans img ≠ [] → ∀ lf ∈ lostFound img, Appendable img lf
  spare : lostFound img = none → (inode img 0).type = T_FILE → ¬ Referred img 0

/-- The entries of all orphans fit in the first block of the directory `lf`. -/
def Fits (img : Image) (lf : Nat) : Prop :=
  (inode img lf).size + 16 * (orphans img).length ≤ BSIZE

/-- The directory that the program takes for `lost_found` is one, with room for all orphans. -/
def HasRoom (img : Image) : Prop :=
  orphans img ≠ [] → ∃ lf ∈ lostFound img, LostFoundDir img lf ∧ Fits img lf

instance (img : Image) : Decidable (BlocksPass img) :=
  inferInstanceAs (Decidable (Passes _ _ _ _))

instance (img : Image) (lf : Nat) : Decidable (Appendable img lf) :=
  decidable_of_iff _ (appendable_iff img lf).symm

instance (img : Image) : Decidable (WellFormed img) := decidable_of_iff _ (wellFormed_iff img).symm

instance (img : Image) (lf : Nat) : Decidable (Fits img lf) := inferInstanceAs (Decidable (_ ≤ _))

instance (img : Image) (lf : Nat) : Decidable (LostFoundDir img lf) :=
  inferInstanceAs (Decidable (_ ∧ ∃ i ∈ inums (superblock img).ninodes, _))

instance (img : Image) : Decidable (HasRoom img) := inferInstanceAs (Decidable (_ → _))

/-! ## Appending one entry -/

/-- The inode with another size. -/
def resize (d : Dinode) (size : Nat) : Dinode := { d with size := size }

theorem resize_type (d : Dinode) (size : Nat) : (resize d size).type = d.type := rfl

theorem resize_size (d : Dinode) (size : Nat) : (resize d size).size = size := rfl

theorem resize_addr (d : Dinode) (size j : Nat) : (resize d size).addr j = d.addr j := rfl

theorem resize_self (d : Dinode) : resize d d.size = d := rfl

theorem resize_resize (d : Dinode) (size size' : Nat) :
    resize (resize d size) size' = resize d size' := rfl

theorem length_lostBytes (j : Nat) : (lostBytes j).length = 16 := rfl

theorem length_flatMap_lostBytes (l : List Nat) : (l.flatMap lostBytes).length = 16 * l.length := by
  simp [List.length_flatMap, length_lostBytes, Nat.mul_comm]

/-- The block is there already: nothing is allocated. -/
theorem blockFor_zero {a : Append} (h : a.din.addr 0 ≠ 0) : a.blockFor 0 = .ok (a, a.din.addr 0) := by
  have hensure : a.ensureAddr 0 = a := if_neg h
  unfold Append.blockFor
  rw [if_pos (by decide), hensure]

/-- **One append** into the first block. -/
theorem iappend_spec {n lf : Nat} {xp : List UInt8} {r : Repair} (hlf : lf < n)
    (h0 : (r.inodes lf).addr 0 ≠ 0) (hb : (r.inodes lf).addr 0 < FSSIZE) (hxp : xp ≠ [])
    (hfit : (r.inodes lf).size + xp.length ≤ BSIZE) :
    iappend n lf xp r = .ok { r with
      img := r.img.write ((r.inodes lf).addr 0 * BSIZE + (r.inodes lf).size) xp
      inodes := Function.update r.inodes lf
        (resize (r.inodes lf) ((r.inodes lf).size + xp.length)) } := by
  have hlen : 0 < xp.length := List.length_pos_iff.mpr hxp
  obtain ⟨fuel, hfuel⟩ : ∃ fuel, xp.length = fuel + 1 := ⟨xp.length - 1, by omega⟩
  have hfbn : (r.inodes lf).size / BSIZE = 0 := by
    simp only [BSIZE] at hfit ⊢
    omega
  have hmove : memmove r.img ((r.inodes lf).addr 0 * BSIZE) BSIZE = .ok () := by
    rw [memmove_eq_ok]
    simp only [FSSIZE, BSIZE, IMG_SIZE] at *
    omega
  have hn1 : min xp.length ((0 + 1) * BSIZE - (r.inodes lf).size) = xp.length := by omega
  -- the one turn of the loop writes all bytes
  have hloop : iappendLoop xp.length xp ⟨r.img, r.inodes lf, (r.inodes lf).size, r.dataEndBlock⟩ =
      .ok ⟨r.img.write ((r.inodes lf).addr 0 * BSIZE + (r.inodes lf).size) xp, r.inodes lf,
        (r.inodes lf).size + xp.length, r.dataEndBlock⟩ := by
    rw [hfuel, iappendLoop, if_neg hxp, ← hfuel]
    simp only [hfbn]
    rw [if_neg (by decide), blockFor_zero h0]
    simp only [ok_bind, hn1, List.drop_length, List.take_length, blockOff_of_lt hb, hmove,
      Nat.zero_mul, Nat.sub_zero]
    cases fuel <;> simp [iappendLoop]
  have hidx : index lf n = .ok () := index_eq_ok.2 hlf
  unfold iappend
  simp only [hidx, ok_bind, hloop]
  rfl

/-! ## The last loop -/

/-- After entries for the inodes of `l` were appended to `lf`. -/
structure RepairAfter (img : Image) (s : Pass) (lf : Nat) (l : List Nat) (r : Repair) : Prop where
  image : r.img = img.write ((inode img lf).addr 0 * BSIZE + (inode img lf).size) (l.flatMap lostBytes)
  inodes : r.inodes = Function.update s.tables.inodes lf
    (resize (s.tables.inodes lf) ((inode img lf).size + 16 * l.length))
  quiet : l = [] → .err .notFound ∉ r.stderr

theorem PassAfter.inodeDir_eq_zero {s : Pass}
    (h : PassAfter img (inums (superblock img).ninodes) s) {j : Nat} :
    s.tables.inodeDir j = 0 ↔ ¬ Referred img j := by
  have hdir : s.tables.inodeDir j = if (∃ p ∈ refs img, p.2 = j) then 1 else 0 := by
    rw [h.tables]
    exact referAll_inodeDir
  rw [hdir, Referred]
  split <;> simp_all

theorem RepairAfter.type_eq {s : Pass} {lf : Nat} {l : List Nat} {r : Repair}
    (h : RepairAfter img s lf l r) (hs : SameButLinks (inode img) s.tables) (j : Nat) :
    (r.inodes j).type = (inode img j).type := by
  rw [h.inodes, ← hs.type_eq j]
  by_cases hj : j = lf
  · subst hj
    rw [Function.update_self, resize_type]
  · rw [Function.update_of_ne hj]

theorem RepairAfter.self {s : Pass} {lf : Nat} {l : List Nat} {r : Repair}
    (h : RepairAfter img s lf l r) (hs : SameButLinks (inode img) s.tables) :
    (r.inodes lf).addr 0 = (inode img lf).addr 0 ∧
      (r.inodes lf).size = (inode img lf).size + 16 * l.length := by
  obtain ⟨k, hk⟩ := hs lf
  rw [h.inodes, Function.update_self, hk, resize_addr, relink_addr, resize_size]
  exact ⟨rfl, rfl⟩

/-- The messages after the append change nothing else. -/
theorem RepairAfter.printIf {s : Pass} {lf : Nat} {l : List Nat} {r : Repair}
    (h : RepairAfter img s lf l r) (p : Prop) [Decidable p] {m : Msg} (hm : m ≠ .err .notFound) :
    RepairAfter img s lf l (r.printIf p m) := by
  unfold Repair.printIf
  split
  · refine ⟨h.image, h.inodes, fun hl => ?_⟩
    simp [h.quiet hl, hm.symm]
  · exact h

/-- The append of one orphan. -/
theorem movLostFound_spec {s : Pass} {n lf j : Nat} {l : List Nat} {r : Repair}
    (h : RepairAfter img s lf l r) (hs : SameButLinks (inode img) s.tables) (hlf : lf < n)
    (h0 : (inode img lf).addr 0 ≠ 0) (hb : (inode img lf).addr 0 < FSSIZE)
    (hfit : (inode img lf).size + 16 * (l.length + 1) ≤ BSIZE) (stderr : List Msg) :
    ∃ r', movLostFound n j lf { r with stderr := stderr } = .ok r' ∧
      RepairAfter img s lf (l ++ [j]) r' := by
  obtain ⟨haddr, hsize⟩ := h.self hs
  have h0' : (r.inodes lf).addr 0 ≠ 0 := by
    rw [haddr]
    exact h0
  have hb' : (r.inodes lf).addr 0 < FSSIZE := by
    rw [haddr]
    exact hb
  have hfit' : (r.inodes lf).size + (lostBytes j).length ≤ BSIZE := by
    rw [hsize, length_lostBytes]
    omega
  have hne : lostBytes j ≠ [] := List.cons_ne_nil _ _
  have happend := iappend_spec (r := { r with stderr := stderr }) hlf h0' hb' hne hfit'
  refine ⟨_, happend, ?_, ?_, by simp⟩
  · simp only [haddr, hsize]
    rw [h.image, ← Nat.add_assoc, ← length_flatMap_lostBytes, Region.write_append, List.flatMap_append,
      List.flatMap_singleton]
  · simp only [hsize, length_lostBytes]
    rw [h.inodes, Function.update_idem, Function.update_self, resize_resize]
    simp [Nat.mul_add, Nat.add_assoc]

/-- **One turn of the last loop.** -/
theorem checkReferences_spec {s : Pass} {lf j : Nat} {l : List Nat} {r : Repair}
    (hs : PassAfter img (inums (superblock img).ninodes) s) (hlf : s.lostFoundDirInum = lf)
    (h : RepairAfter img s lf l r)
    (hroom : Orphan img j → lf < (superblock img).ninodes ∧ (inode img lf).addr 0 ≠ 0 ∧
      (inode img lf).addr 0 < FSSIZE ∧ (inode img lf).size + 16 * (l.length + 1) ≤ BSIZE) :
    ∃ r', checkReferences s (superblock img).ninodes r j = .ok r' ∧
      RepairAfter img s lf (l ++ [j].filter (Orphan img)) r' := by
  -- the messages that follow, from any state
  have hprint : ∀ {l' : List Nat} {r' : Repair}, RepairAfter img s lf l' r' →
      ∃ r'', (let r := r'.printIf (s.tables.inodeDir j = 1 ∧ (r'.inodes j).type = 0) (.err .referredFree)
        let r := r.printIf ((r.inodes j).type = T_FILE ∧ (r.inodes j).nlink > 0) (.err .badCount)
        (pure (r.printIf ((r.inodes j).type = T_DIR ∧ s.tables.dirLinks j > 1) (.err .dirTwice)) :
          Run Repair)) = .ok r'' ∧ RepairAfter img s lf l' r'' := fun h' =>
    ⟨_, rfl, ((h'.printIf _ (by decide)).printIf _ (by decide)).printIf _ (by decide)⟩
  have hcond : ((r.inodes j).type ≠ 0 ∧ s.tables.inodeDir j = 0) ↔ Orphan img j := by
    rw [h.type_eq hs.sameButLinks, hs.inodeDir_eq_zero, Orphan]
  unfold checkReferences
  by_cases ho : Orphan img j
  · obtain ⟨h₁, h₂, h₃, h₄⟩ := hroom ho
    obtain ⟨r₁, hrun, hr₁⟩ := movLostFound_spec (j := j) h hs.sameButLinks h₁ h₂ h₃ h₄
      (r.stderr ++ [.err .notFound])
    have hfilter : [j].filter (Orphan img) = [j] := by simp [ho]
    rw [if_pos (hcond.mpr ho), hlf, hrun, ok_bind, hfilter]
    exact hprint hr₁
  · have hfilter : [j].filter (Orphan img) = [] := by simp [ho]
    rw [if_neg (mt hcond.mp ho), pure_bind, hfilter, List.append_nil]
    exact hprint h

/-- The image after the repair: the new entries behind those of `lf`, and its record. -/
def repaired (img : Image) (lf : Nat) : Image :=
  (img.write ((inode img lf).addr 0 * BSIZE + (inode img lf).size)
    ((orphans img).flatMap lostBytes)).write (recordAt img lf)
      (resize (inode img lf) ((inode img lf).size + 16 * (orphans img).length)).encode

/-- **The last loop** appends the entries of all orphans. -/
theorem repair_loop_spec {s : Pass} {lf : Nat}
    (hs : PassAfter img (inums (superblock img).ninodes) s) (hlf : s.lostFoundDirInum = lf)
    (hroom : orphans img ≠ [] → lf < (superblock img).ninodes ∧ (inode img lf).addr 0 ≠ 0 ∧
      (inode img lf).addr 0 < FSSIZE ∧
      (inode img lf).size + 16 * (orphans img).length ≤ BSIZE) :
    ∃ r, (inums (superblock img).ninodes).foldlM (checkReferences s (superblock img).ninodes)
        ⟨img, s.tables.inodes, s.dataEndBlock, s.stderr⟩ = .ok r ∧
      RepairAfter img s lf (orphans img) r := by
  refine foldlM_runs (P := fun pre r => RepairAfter img s lf (pre.filter (Orphan img)) r) ?_ ?_
  · intro pre j post r heq hr
    rw [List.filter_append]
    refine checkReferences_spec hs hlf hr fun ho => ?_
    have horphans : orphans img =
        pre.filter (Orphan img) ++ j :: post.filter (Orphan img) := by
      rw [orphans, heq, List.filter_append, List.filter_cons_of_pos (by simpa using ho)]
    have hlen := congrArg List.length horphans
    rw [List.length_append, List.length_cons] at hlen
    obtain ⟨h₁, h₂, h₃, h₄⟩ := hroom (by rw [horphans]; simp)
    exact ⟨h₁, h₂, h₃, by omega⟩
  · refine ⟨?_, ?_, fun _ => hs.quiet⟩
    · exact (Region.write_nil img _).symm
    · obtain ⟨k, hk⟩ := hs.sameButLinks lf
      have hsize : (s.tables.inodes lf).size = (inode img lf).size := by rw [hk, Dinode.relink]
      rw [List.filter_nil, List.length_nil, Nat.mul_zero, Nat.add_zero, ← hsize, resize_self,
        Function.update_eq_self]

/-! ## The whole run -/

theorem recordAt_add_le {i : Nat} (hl : Layout (superblock img)) (hi : i < (superblock img).ninodes) :
    recordAt img i + 64 ≤ IMG_SIZE := by
  have h := hl.table
  unfold recordAt
  simp only [dinodeSize] at *
  omega

/-- **The run with `-r`** on an image that is safe to scan, with room for its orphans. -/
theorem main_spec (hl : Layout (superblock img)) (haddr : AddrsOk img) (hdirs : DirsSafe img)
    {lf : Nat} (hlf : (lostFound img).getD 0 = lf) (hlt : lf < (superblock img).ninodes)
    (hkeep : (inode img lf).type = T_FILE → ¬ Referred img lf)
    (hroom : orphans img ≠ [] → (inode img lf).addr 0 ≠ 0 ∧ (inode img lf).addr 0 < FSSIZE ∧
      (inode img lf).size + 16 * (orphans img).length ≤ BSIZE) :
    ∃ msgs, main img = .ok (repaired img lf, msgs) ∧
      (orphans img = [] → .err .notFound ∉ msgs) := by
  obtain ⟨s, hcheck, hs⟩ := check_spec hl haddr hdirs
  have hlost : s.lostFoundDirInum = lf := hs.lost.trans hlf
  obtain ⟨r, hloop, hr⟩ := repair_loop_spec hs hlost fun ho => ⟨hlt, hroom ho⟩
  -- the record of `lf` was not counted down
  have hself : s.tables.inodes lf = inode img lf :=
    hs.inodes_of_kept fun hf p hp hpj => hkeep hf ⟨p, hp, hpj⟩
  have hstored : r.inodes lf =
      resize (inode img lf) ((inode img lf).size + 16 * (orphans img).length) := by
    rw [hr.inodes, Function.update_self, hself]
  have hidx : index lf (superblock img).ninodes = .ok () := index_eq_ok.2 hlt
  have hmove : memmove r.img (recordAt img lf) dinodeSize = .ok () :=
    memmove_eq_ok.2 (recordAt_add_le hl hlt)
  have hstore : storeInode (superblock img) lf r = .ok { r with img := repaired img lf } := by
    unfold storeInode
    rw [hidx, ok_bind, ← recordAt, hmove, ok_bind, hstored, hr.image]
    rfl
  refine ⟨r.stderr, ?_, hr.quiet⟩
  unfold main
  simp only [hcheck, ok_bind, hloop, hlost, hstore]
  rfl

/-- Without orphans nothing is written that is not there already. -/
theorem repaired_of_no_orphans {lf : Nat} (hl : Layout (superblock img))
    (hlt : lf < (superblock img).ninodes) (h : orphans img = []) : repaired img lf = img := by
  unfold repaired
  rw [h, List.flatMap_nil, Region.write_nil, List.length_nil, Nat.mul_zero, Nat.add_zero, resize_self]
  apply Region.write_self
  · rw [length_encode]
    exact recordAt_add_le hl hlt
  · intro k hk
    rw [getElem_encode, inode, ← recordAt, byte_dinodeAt]
    rwa [length_encode] at hk

/-- **A run that finds no orphan** leaves the image as it is. -/
theorem main_of_no_orphans (hl : Layout (superblock img)) (haddr : AddrsOk img)
    (hdirs : DirsSafe img) {lf : Nat} (hlf : (lostFound img).getD 0 = lf)
    (hlt : lf < (superblock img).ninodes)
    (hkeep : (inode img lf).type = T_FILE → ¬ Referred img lf) (hno : orphans img = []) :
    ∃ msgs, main img = .ok (img, msgs) ∧ .err .notFound ∉ msgs := by
  obtain ⟨msgs, hrun, hquiet⟩ := main_spec hl haddr hdirs hlf hlt hkeep fun ho => absurd hno ho
  rw [repaired_of_no_orphans hl hlt hno] at hrun
  exact ⟨msgs, hrun, hquiet hno⟩

end OstepHw.Fsck.Contest3
