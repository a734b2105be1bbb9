import Mathlib.Data.List.Nodup
import OstepHw.Fsck.Accept

/-!
# What an accepted image guarantees

Everything here is read off `accepts_iff`.

* `accepted_blocks_owned_once` — no data block of an accepted image has two owners;
* `accepted_inUse_iff_referred` — the inodes in use are exactly those that directories name;
* `accepted_dirs_formatted_iff` — the root and the `.`/`..` entries are as they should be iff the
  root inode *is* a directory and no directory has one of the two names twice: the root test is
  nested under the type test, and one counter serves both names;
* `accepted_nlink_eq_iff` — link counts are right iff none is too small: the final test is
  one-sided;
* `accepted_marked_referenced_iff` — the bitmap is right iff it is right on the blocks that the
  comparison loop skips and on those that the boot block happens to name.
-/

set_option autoImplicit false

namespace OstepHw.Fsck

open Loop Bitmap

variable {img : Image}

/-- The verdict as a Boolean, for concrete images. -/
def accepts (img : Image) : Bool :=
  match main img with
  | .ok _ => true
  | .error _ => false

theorem accepts_eq_true : accepts img = true ↔ Accepts img := by
  unfold accepts Accepts
  split
  · rename_i u h; simp [h]
  · rename_i e h; simp [h]

/-! ## Block ownership -/

/-- A place where an inode keeps a block address. -/
inductive Slot where
  | direct (i j : Nat)
  | pointer (i : Nat)
  | entry (i k : Nat)
  deriving DecidableEq, Repr

def Slot.inum : Slot → Nat
  | .direct i _ => i
  | .pointer i => i
  | .entry i _ => i

/-- The address in a slot. -/
def Slot.addr (img : Image) : Slot → Nat
  | .direct i j => (inode img i).addr j
  | .pointer i => (inode img i).addr NDIRECT
  | .entry i k => indirectWord img ((inode img i).addr NDIRECT) k

/-- The slot exists in its inode: an indirect entry only when there is an indirect block. -/
def Slot.exists (img : Image) : Slot → Prop
  | .direct _ j => j < NDIRECT
  | .pointer _ => True
  | .entry i k => (inode img i).addr NDIRECT ≠ 0 ∧ k < NINDIRECT

/-- The slot belongs to an in-use inode of the table. -/
def Slot.InUse (img : Image) (p : Slot) : Prop :=
  ROOTINO ≤ p.inum ∧ p.inum < (superblock img).ninodes ∧ (inode img p.inum).type ≠ 0 ∧
    p.exists img

instance (img : Image) : ∀ p : Slot, Decidable (p.exists img)
  | .direct _ j => inferInstanceAs (Decidable (j < NDIRECT))
  | .pointer _ => inferInstanceAs (Decidable True)
  | .entry _ _ => inferInstanceAs (Decidable (_ ∧ _))

instance (img : Image) (p : Slot) : Decidable (p.InUse img) :=
  inferInstanceAs (Decidable (_ ∧ _ ∧ _ ∧ _))

/-- The slots of inode `i` in the order in which the checker visits them. -/
def slotsOf (i : Nat) : List Slot :=
  (List.range NDIRECT).map (Slot.direct i) ++
    ([Slot.pointer i] ++ (List.range NINDIRECT).map (Slot.entry i))

/-- The slots visited for all inodes of the table. -/
def visitedSlots (img : Image) : List Slot :=
  (inums (superblock img).ninodes).flatMap fun i =>
    if (inode img i).type ≠ 0 then slotsOf i else []

theorem map_addr_slotsOf (img : Image) (i : Nat) :
    (slotsOf i).map (Slot.addr img) = visited img (inode img i) := by
  have hdirect : Slot.addr img ∘ Slot.direct i = (inode img i).addr := rfl
  have hentry : Slot.addr img ∘ Slot.entry i =
      indirectWord img ((inode img i).addr NDIRECT) := rfl
  have hpointer : [Slot.pointer i].map (Slot.addr img) = [(inode img i).addr NDIRECT] := rfl
  unfold slotsOf visited
  rw [List.map_append, List.map_append, List.map_map, List.map_map, hdirect, hentry, hpointer]

theorem map_addr_visitedSlots (img : Image) :
    (visitedSlots img).map (Slot.addr img) =
      (inums (superblock img).ninodes).flatMap (visitsOf img) := by
  have hone : ∀ i, (if (inode img i).type ≠ 0 then slotsOf i else []).map (Slot.addr img) =
      visitsOf img i := by
    intro i
    unfold visitsOf
    split
    · exact map_addr_slotsOf img i
    · rfl
  unfold visitedSlots
  rw [List.map_flatMap]
  simp only [hone]

theorem mem_slotsOf {p : Slot} {i : Nat} (hi : p.inum = i) (hp : p.exists img) :
    p ∈ slotsOf i := by
  unfold slotsOf
  cases p with
  | direct i' j =>
    cases hi
    exact List.mem_append_left _ (List.mem_map_of_mem (List.mem_range.mpr hp))
  | pointer i' =>
    cases hi
    exact List.mem_append_right _ (List.mem_append_left _ (List.mem_singleton.mpr rfl))
  | entry i' k =>
    cases hi
    exact List.mem_append_right _ (List.mem_append_right _
      (List.mem_map_of_mem (List.mem_range.mpr hp.2)))

theorem Slot.InUse.mem_visitedSlots {p : Slot} (hp : p.InUse img) : p ∈ visitedSlots img := by
  obtain ⟨h₁, h₂, h0, hex⟩ := hp
  refine List.mem_flatMap.mpr ⟨p.inum, mem_inums.2 ⟨h₁, h₂⟩, ?_⟩
  rw [if_pos h0]
  exact mem_slotsOf rfl hex

/-- Two visited slots with the same non-zero address are the same slot. -/
theorem slot_eq_of_addr_eq
    (h : (nz ((inums (superblock img).ninodes).flatMap (visitsOf img))).Nodup) {p q : Slot}
    (hp : p ∈ visitedSlots img) (hq : q ∈ visitedSlots img) (h0 : p.addr img ≠ 0)
    (heq : p.addr img = q.addr img) : p = q := by
  rw [← map_addr_visitedSlots, nz, List.filter_map] at h
  have hq0 : q.addr img ≠ 0 := heq ▸ h0
  exact List.inj_on_of_nodup_map h (List.mem_filter.mpr ⟨hp, by simpa using h0⟩)
    (List.mem_filter.mpr ⟨hq, by simpa using hq0⟩) heq

theorem dataStart_ge (sb : Superblock) : (FSSIZE : Int) - sb.nblocks ≤ dataStart sb := by
  unfold dataStart toUint
  have h₁ := Int.emod_nonneg ((FSSIZE : Int) - sb.nblocks) (by decide : (2 ^ 32 : Int) ≠ 0)
  have h₂ : ((FSSIZE : Int) - sb.nblocks) % 2 ^ 32 ≥ (FSSIZE : Int) - sb.nblocks := by
    simp only [FSSIZE]
    omega
  omega

/-- **No data block has two owners.**  In an accepted image every address kept by an in-use inode
lies in the data area and is marked in the bitmap, and two different slots never keep the same
address. -/
theorem accepted_blocks_owned_once (img : Image) (h : Accepts img) :
    (∀ p : Slot, p.InUse img → p.addr img ≠ 0 →
      (FSSIZE : Int) - (superblock img).nblocks ≤ p.addr img ∧ p.addr img < FSSIZE ∧
        Mem (bmap img) (p.addr img)) ∧
    (∀ p q : Slot, p.InUse img → q.InUse img → p.addr img ≠ 0 → p.addr img = q.addr img →
      p = q) := by
  have hok := ((accepts_iff img).mp h).inodes
  refine ⟨fun p hp h0 => ?_, fun p q hp hq h0 heq => ?_⟩
  · have hmem : p.addr img ∈ nz ((inums (superblock img).ninodes).flatMap (visitsOf img)) := by
      rw [← map_addr_visitedSlots]
      exact mem_nz.2 ⟨List.mem_map_of_mem hp.mem_visitedSlots, h0⟩
    obtain ⟨hds, hlt, hm⟩ := hok.blocks.valid _ hmem
    have := dataStart_ge (superblock img)
    exact ⟨by omega, hlt, hm⟩
  · exact slot_eq_of_addr_eq hok.blocks.nodup hp.mem_visitedSlots hq.mem_visitedSlots h0 heq

/-- A file system as `mkfs` makes it from no files: a root directory with `.` and `..` in the
first data block. -/
def rootOnly : Image :=
  ofWords (mkfsWords ++ [(16448, 1), (16452, 65536), (16456, 32), (16460, 59),
    (29696, 0xffffffff), (29700, 0x0fffffff), (30208, 0x002e0001), (30224, 0x2e2e0001)])

/-- What the verdicts on this image need to know of it. -/
theorem rootOnly_facts : accepts rootOnly = true ∧ (superblock rootOnly).ninodes = 200 ∧
    dataStart (superblock rootOnly) = 59 ∧ (inode rootOnly 1).type = T_DIR ∧
    (inode rootOnly 1).addr 0 = 59 ∧
    (∀ i < 200, (inode rootOnly i).type = T_DIR →
      (entries rootOnly (inode rootOnly i)).countP Dirent.isDot ≤ 1 ∧
      (entries rootOnly (inode rootOnly i)).countP Dirent.isDotDot ≤ 1) ∧
    ∀ k < 125, 7 ≤ k → bmap rootOnly k = if k = 7 then 15 else 0 := by
  decide +kernel

theorem accepts_rootOnly : Accepts rootOnly := accepts_eq_true.1 rootOnly_facts.1

theorem rootOnly_slot :
    Slot.InUse rootOnly (.direct 1 0) ∧ Slot.addr rootOnly (.direct 1 0) = 59 := by
  obtain ⟨_, hn, _, hdir, haddr, _⟩ := rootOnly_facts
  refine ⟨⟨by decide, ?_, type_ne_zero_of_dir hdir, ?_⟩, haddr⟩
  · rw [hn]
    decide
  · show 0 < NDIRECT
    decide

/-- The root directory in block 59, with an entry for inode 2: a file with the blocks 60 and 61, an indirect block
in block 62, and the blocks 63 and 64 behind it. -/
def largeFile : Image :=
  ofWords (mkfsWords ++ [(16448, 1), (16452, 65536), (16456, 48), (16460, 59),
    (16512, 2), (16516, 65536), (16520, 7168), (16524, 60), (16528, 61), (16572, 62),
    (29696, 0xffffffff), (29700, 0xffffffff), (29704, 1),
    (30208, 0x002e0001), (30224, 0x2e2e0001), (30240, 0x00610002), (31744, 63), (31748, 64)])

/-- The slots of the image that hold an address. -/
def largeFileSlots : List Slot :=
  [.direct 1 0, .direct 2 0, .direct 2 1, .pointer 2, .entry 2 0, .entry 2 1]

theorem largeFile_facts : accepts largeFile = true ∧ (∀ p ∈ largeFileSlots, p.InUse largeFile) ∧
    largeFileSlots.map (Slot.addr largeFile) = [59, 60, 61, 62, 63, 64] := by
  decide +kernel

theorem largeFile_blocks_owned_once : Accepts largeFile ∧
    largeFileSlots.map (Slot.addr largeFile) = [59, 60, 61, 62, 63, 64] ∧
    ∀ p ∈ largeFileSlots, Mem (bmap largeFile) (p.addr largeFile) ∧
      ∀ q : Slot, q.InUse largeFile → q.addr largeFile = p.addr largeFile → q = p := by
  obtain ⟨haccepts, huse, haddrs⟩ := largeFile_facts
  have haccepts := accepts_eq_true.1 haccepts
  have hne : ∀ p ∈ largeFileSlots, p.addr largeFile ≠ 0 := fun p hp h0 => by
    have hmem : p.addr largeFile ∈ largeFileSlots.map (Slot.addr largeFile) := List.mem_map_of_mem hp
    rw [haddrs, h0] at hmem
    revert hmem
    decide
  obtain ⟨hranges, hones⟩ := accepted_blocks_owned_once largeFile haccepts
  refine ⟨haccepts, haddrs, fun p hp => ⟨(hranges p (huse p hp) (hne p hp)).2.2, fun q hq heq => ?_⟩⟩
  exact (hones p q (huse p hp) hq (hne p hp) heq.symm).symm

/-! ## Inodes in use and directory entries -/

/-- Some directory of the table has, at an entry offset below its size, an entry that names `j`. -/
def EntryNames (img : Image) (j : Nat) : Prop :=
  ∃ i, ROOTINO ≤ i ∧ i < (superblock img).ninodes ∧ (inode img i).type = T_DIR ∧
    ∃ off, direntSize ∣ off ∧ off < (inode img i).size ∧
      ∃ e, readInodeData (inode img i) img off = .ok e ∧ e.inum = j

theorem entryCount_gt_iff {d : Dinode} {k : Nat} : k < entryCount d ↔ 16 * k < d.size := by
  unfold entryCount
  omega

theorem Passes.addr_zero_lt {ds : Nat} {bm mark : Nat → Nat} {l : List Nat} {i : Nat}
    (h : Passes ds bm mark (l.flatMap (visitsOf img))) (hi : i ∈ l)
    (h0 : (inode img i).type ≠ 0) : (inode img i).addr 0 < FSSIZE := by
  refine h.addr_lt (List.mem_flatMap.mpr ⟨i, hi, ?_⟩)
  unfold visitsOf
  rw [if_pos h0]
  exact addr_zero_mem_visited img _

theorem referred_iff_entryNames (h : InodesOk img (inums (superblock img).ninodes)) {j : Nat} :
    Referred img j ↔ EntryNames img j := by
  unfold Referred EntryNames
  constructor
  · rintro ⟨p, hp, rfl⟩
    obtain ⟨h₁, h₂, hd, e, he, hinum⟩ := mem_refs.1 hp
    obtain ⟨k, hk, rfl⟩ := mem_entries.1 he
    have hmem := mem_inums.2 ⟨h₁, h₂⟩
    have hlen := entryCount_le.2 (h.dirs _ hmem hd).size_le
    exact ⟨p.1, h₁, h₂, hd, 16 * k, ⟨k, rfl⟩, entryCount_gt_iff.1 hk, _,
      readInodeData_ok (h.blocks.addr_zero_lt hmem (type_ne_zero_of_dir hd)) (by omega), hinum⟩
  · rintro ⟨i, h₁, h₂, hd, off, ⟨k, rfl⟩, hoff, e, hread, hinum⟩
    have hmem := mem_inums.2 ⟨h₁, h₂⟩
    have hk : k < entryCount (inode img i) := entryCount_gt_iff.2 hoff
    have hlen := entryCount_le.2 (h.dirs _ hmem hd).size_le
    have hread' : readInodeData (inode img i) img (16 * k) =
        .ok (entryAt img (inode img i) k) :=
      readInodeData_ok (h.blocks.addr_zero_lt hmem (type_ne_zero_of_dir hd)) (by omega)
    have he : entryAt img (inode img i) k = e := by
      have : Except.ok (entryAt img (inode img i) k) = (Except.ok e : Run Dirent) := by
        rw [← hread', ← hread]; rfl
      injection this
    refine ⟨(i, j), mem_refs.2 ⟨h₁, h₂, hd, e, ?_, hinum⟩, rfl⟩
    exact mem_entries.2 ⟨k, hk, he⟩

/-- **In-use inodes are the referred ones.**  A scan that breaks off ends in a report, so in an
accepted image every entry of every directory has been seen. -/
theorem accepted_inUse_iff_referred (img : Image) (h : Accepts img) (j : Nat)
    (hj : ROOTINO ≤ j ∧ j < (superblock img).ninodes) :
    (inode img j).type ≠ 0 ↔ EntryNames img j := by
  have hs := (accepts_iff img).mp h
  have hr := hs.refs j (mem_inums.2 hj)
  rw [← referred_iff_entryNames hs.inodes]
  exact ⟨hr.found, hr.used⟩

theorem rootOnly_inUse_iff_referred :
    ((inode rootOnly 1).type ≠ 0 ↔ EntryNames rootOnly 1) ∧
    ((inode rootOnly 2).type ≠ 0 ↔ EntryNames rootOnly 2) := by
  have hn := rootOnly_facts.2.1
  exact ⟨accepted_inUse_iff_referred rootOnly accepts_rootOnly 1 (by rw [hn]; decide),
    accepted_inUse_iff_referred rootOnly accepts_rootOnly 2 (by rw [hn]; decide)⟩

/-! ## Directory format -/

/-- The format rules: the root is a directory and its own parent, and every directory has one `.`
entry, which names the directory, and one `..` entry. -/
structure DirsFormatted (img : Image) : Prop where
  root : ROOTINO < (superblock img).ninodes ∧ (inode img ROOTINO).type = T_DIR ∧
    ∃ e ∈ entries img (inode img ROOTINO), e.isDotDot = true ∧ e.inum = ROOTINO
  dots : ∀ i, ROOTINO ≤ i → i < (superblock img).ninodes → (inode img i).type = T_DIR →
    (entries img (inode img i)).countP Dirent.isDot = 1 ∧
    (∀ e ∈ entries img (inode img i), e.isDot = true → e.inum = i) ∧
    (entries img (inode img i)).countP Dirent.isDotDot = 1

/-- No directory has two entries named `.`, or two named `..`. -/
def NoDotTwice (img : Image) : Prop :=
  ∀ i, ROOTINO ≤ i → i < (superblock img).ninodes → (inode img i).type = T_DIR →
    (entries img (inode img i)).countP Dirent.isDot ≤ 1 ∧
    (entries img (inode img i)).countP Dirent.isDotDot ≤ 1

theorem countP_isDots (l : List Dirent) :
    l.countP Dirent.isDots = l.countP Dirent.isDot + l.countP Dirent.isDotDot := by
  induction l with
  | nil => rfl
  | cons e l ih =>
    simp only [List.countP_cons, ih]
    cases hd : e.isDot with
    | true => simp [Dirent.isDots, hd, Dirent.not_isDotDot_of_isDot hd]; omega
    | false =>
      cases hdd : e.isDotDot <;> simp [Dirent.isDots, hd, hdd]
      omega

/-- **Directory format.**  The two counts of an accepted directory add up to two, whichever names
they count; the root is looked at only if it is a directory. -/
theorem accepted_dirs_formatted_iff (img : Image) (h : Accepts img) :
    DirsFormatted img ↔
      (ROOTINO < (superblock img).ninodes ∧ (inode img ROOTINO).type = T_DIR) ∧
        NoDotTwice img := by
  have hok := ((accepts_iff img).mp h).inodes
  constructor
  · intro hf
    refine ⟨⟨hf.root.1, hf.root.2.1⟩, fun i h₁ h₂ hd => ?_⟩
    obtain ⟨hdot, _, hdd⟩ := hf.dots i h₁ h₂ hd
    exact ⟨by omega, by omega⟩
  · rintro ⟨⟨hn, hroot⟩, honce⟩
    constructor
    · exact ⟨hn, hroot, (hok.dirs ROOTINO (mem_inums.2 ⟨by decide, hn⟩) hroot).root rfl⟩
    · intro i h₁ h₂ hd
      have hdir := hok.dirs i (mem_inums.2 ⟨h₁, h₂⟩) hd
      have hsum := hdir.dots
      rw [countP_isDots] at hsum
      obtain ⟨hdot, hdd⟩ := honce i h₁ h₂ hd
      exact ⟨by omega, hdir.self, by omega⟩

theorem rootOnly_dirs_formatted : Accepts rootOnly ∧ DirsFormatted rootOnly := by
  obtain ⟨_, hn, _, hdir, _, honce, _⟩ := rootOnly_facts
  have hroot : ROOTINO < (superblock rootOnly).ninodes := by
    rw [hn]
    decide
  refine ⟨accepts_rootOnly, (accepted_dirs_formatted_iff rootOnly accepts_rootOnly).mpr
    ⟨⟨hroot, hdir⟩, fun i _ hi hd => honce i (by omega) hd⟩⟩

/-- A superblock and nothing else: every inode is free, the root included. -/
def noRoot : Image := ofWords (superblockWords 8)

/-- A root directory with one file, inode 2, with one link. -/
def oneFile : Image :=
  ofWords (superblockWords 8 ++ [(16448, 1), (16452, 65536), (16456, 48), (16460, 59), (16512, 2),
    (16516, 65536), (29696, 0xffffffff), (29700, 0x0fffffff), (30208, 0x002e0001),
    (30224, 0x2e2e0001), (30240, 0x00660002)])

/-- A root directory with one file, inode 2, whose link count is zero. -/
def unlinkedFile : Image :=
  ofWords (superblockWords 8 ++ [(16448, 1), (16452, 65536), (16456, 48), (16460, 59), (16512, 2),
    (29696, 0xffffffff), (29700, 0x0fffffff), (30208, 0x002e0001), (30224, 0x2e2e0001),
    (30240, 0x00660002)])

/-- The root directory alone, with block 700 marked in the bitmap. -/
def strayMark : Image :=
  ofWords (superblockWords 8 ++ [(16448, 1), (16452, 65536), (16456, 32), (16460, 59),
    (29696, 0xffffffff), (29700, 0x0fffffff), (29780, 0x10000000), (30208, 0x002e0001),
    (30224, 0x2e2e0001)])

/-- What the verdicts on these images need to know of them. -/
theorem images_facts :
    (accepts noRoot = true ∧ (inode noRoot ROOTINO).type ≠ T_DIR) ∧
    (accepts oneFile = true ∧ (superblock oneFile).ninodes = 8 ∧
      ∀ j < 8, (inode oneFile j).type = T_FILE → (refCount oneFile j : Int) ≤ (inode oneFile j).nlink) ∧
    (accepts unlinkedFile = true ∧ 2 < (superblock unlinkedFile).ninodes ∧
      (inode unlinkedFile 2).type = T_FILE ∧ (inode unlinkedFile 2).nlink ≠ refCount unlinkedFile 2) ∧
    accepts strayMark = true ∧ dataStart (superblock strayMark) ≤ 700 ∧ Mem (bmap strayMark) 700 ∧
      700 ∉ (inums (superblock strayMark).ninodes).flatMap (visitsOf strayMark) := by
  decide +kernel

/-- The checker accepts an image without a root directory. -/
theorem noRoot_accepted_not_formatted : Accepts noRoot ∧ ¬ DirsFormatted noRoot := by
  have hfree := images_facts.1
  exact ⟨accepts_eq_true.1 hfree.1, fun h => hfree.2 h.root.2.1⟩

/-! ## Link counts -/

/-- Every file of the table has as many links as there are entries that name it. -/
def LinksRight (img : Image) : Prop :=
  ∀ j, ROOTINO ≤ j → j < (superblock img).ninodes → (inode img j).type = T_FILE →
    (inode img j).nlink = refCount img j

/-- No file has fewer links than entries that name it. -/
def NoLinkMissing (img : Image) : Prop :=
  ∀ j, ROOTINO ≤ j → j < (superblock img).ninodes → (inode img j).type = T_FILE →
    (refCount img j : Int) ≤ (inode img j).nlink

theorem toShort_le (x : Int) : toShort x ≤ 32767 := by
  unfold toShort
  rw [Int.bmod_def]
  split <;> omega

theorem toShort_of_range {x : Int} (h₀ : 0 ≤ x) (h₁ : x ≤ 32767) : toShort x = x := by
  unfold toShort
  rw [Int.bmod_def]
  split <;> omega

/-- **Link counts.**  The scan counts down from `nlink`, and the test at the end only asks
whether something is left over. -/
theorem accepted_nlink_eq_iff (img : Image) (h : Accepts img) :
    LinksRight img ↔ NoLinkMissing img := by
  have hs := (accepts_iff img).mp h
  constructor
  · intro hr j h₁ h₂ hf
    exact Int.le_of_eq (hr j h₁ h₂ hf).symm
  · intro hm j h₁ h₂ hf
    have hle := (hs.refs j (mem_inums.2 ⟨h₁, h₂⟩)).links hf
    have hge := hm j h₁ h₂ hf
    have hmax : (inode img j).nlink ≤ 32767 := by
      rw [← toShort_nlink]
      exact toShort_le _
    rw [toShort_of_range (by omega) (by omega)] at hle
    omega

theorem oneFile_nlink_eq : Accepts oneFile ∧ LinksRight oneFile := by
  obtain ⟨hacc, hn, hlinks⟩ := images_facts.2.1
  have haccepts := accepts_eq_true.1 hacc
  exact ⟨haccepts, (accepted_nlink_eq_iff oneFile haccepts).mpr fun j _ hj hf =>
    hlinks j (by omega) hf⟩

/-- The checker accepts a file with one directory entry and link count zero. -/
theorem unlinkedFile_accepted_not_linksRight :
    Accepts unlinkedFile ∧ ¬ LinksRight unlinkedFile := by
  obtain ⟨hacc, hlt, hfile, hne⟩ := images_facts.2.2.1
  exact ⟨accepts_eq_true.1 hacc, fun h => hne (h 2 (by decide) hlt hfile)⟩

/-! ## The bitmap -/

/-- Block `b` is kept in some slot of an in-use inode. -/
def Referenced (img : Image) (b : Nat) : Prop := b ≠ 0 ∧ ∃ p : Slot, p.InUse img ∧ p.addr img = b

/-- The comparison loop does not reach bit `b`: it starts at the byte after the one that holds
the first data block, and stops at *bit* `NBMAP`, in byte 79. -/
def Skipped (img : Image) (b : Nat) : Prop := b < (bitmapStart (superblock img)).toNat ∨ 640 ≤ b

/-- Block `b` is the value of a word of the boot block. -/
def BootNames (img : Image) (b : Nat) : Prop := ∃ k < NINDIRECT, img.u32 (4 * k) = b

/-- Every marked data block is referenced. -/
def BitmapRight (img : Image) : Prop :=
  ∀ b, dataStart (superblock img) ≤ b → b < FSSIZE → Mem (bmap img) b → Referenced img b

/-- A visited block is referenced, unless it was read through a zero indirect pointer. -/
theorem referenced_or_bootNames {b : Nat} (h : Mem (marks img) b) :
    Referenced img b ∨ BootNames img b := by
  obtain ⟨h0, hb⟩ := mem_marks.1 h
  obtain ⟨i, h₁, h₂, ht, hv⟩ := mem_visits.1 hb
  unfold visited at hv
  rcases List.mem_append.mp hv with hv | hv
  · obtain ⟨j, hj, rfl⟩ := List.mem_map.mp hv
    exact Or.inl ⟨h0, .direct i j, ⟨h₁, h₂, ht, List.mem_range.mp hj⟩, rfl⟩
  rcases List.mem_append.mp hv with hv | hv
  · rw [List.mem_singleton] at hv
    exact Or.inl ⟨h0, .pointer i, ⟨h₁, h₂, ht, trivial⟩, hv.symm⟩
  · obtain ⟨k, hk, hkb⟩ := List.mem_map.mp hv
    by_cases hp : (inode img i).addr NDIRECT = 0
    · refine Or.inr ⟨k, List.mem_range.mp hk, ?_⟩
      rw [hp] at hkb
      simpa [indirectWord, blockOff] using hkb
    · exact Or.inl ⟨h0, .entry i k, ⟨h₁, h₂, ht, hp, List.mem_range.mp hk⟩, hkb⟩

/-- **The bitmap.**  On the blocks that the loop compares, a mark means a reference; so the
bitmap is right iff it is right on the others, and on those that the boot block names. -/
theorem accepted_marked_referenced_iff (img : Image) (h : Accepts img) :
    BitmapRight img ↔
      ∀ b, dataStart (superblock img) ≤ b → b < FSSIZE → Skipped img b ∨ BootNames img b →
        Mem (bmap img) b → Referenced img b := by
  have hs := (accepts_iff img).mp h
  constructor
  · intro hr b hds hlt _ hm
    exact hr b hds hlt hm
  · intro hr b hds hlt hm
    by_cases hskip : Skipped img b
    · exact hr b hds hlt (Or.inl hskip) hm
    · simp only [Skipped, not_or, Nat.not_lt] at hskip
      have hbyte := hs.bitmap (b / 8) (Nat.div_le_div_right hskip.1) (by omega)
      have hmark : Mem (marks img) b := by
        unfold Mem at hm ⊢
        rwa [← hbyte]
      rcases referenced_or_bootNames hmark with hb | hb
      · exact hb
      · exact hr b hds hlt (Or.inr hb) hm

/-- A bitmap in which block 59 is the only marked data block from there on. -/
def FirstMarked (img : Image) : Prop := ∀ k < 125, 7 ≤ k → bmap img k = if k = 7 then 15 else 0

theorem FirstMarked.mem_iff (h : FirstMarked img) {b : Nat} (hlt : b < 1000) (hge : 59 ≤ b) :
    Mem (bmap img) b ↔ b = 59 := by
  unfold Mem
  rw [h (b / 8) (by omega) (by omega)]
  constructor
  · intro hm
    split at hm
    · have hbit : b % 8 < 4 := by
        by_contra hbig
        have hpow : 2 ^ 4 ≤ 2 ^ (b % 8) := Nat.pow_le_pow_right (by decide) (by omega)
        rw [Nat.testBit_lt_two_pow (by omega)] at hm
        cases hm
      omega
    · simp at hm
  · rintro rfl
    rfl

theorem rootOnly_marked_referenced : Accepts rootOnly ∧ BitmapRight rootOnly := by
  obtain ⟨_, _, hds, _, _, _, hmarked⟩ := rootOnly_facts
  refine ⟨accepts_rootOnly, (accepted_marked_referenced_iff rootOnly accepts_rootOnly).mpr ?_⟩
  intro b hb hlt _ hm
  obtain rfl := (FirstMarked.mem_iff hmarked hlt (by omega)).mp hm
  exact ⟨by decide, .direct 1 0, rootOnly_slot⟩

/-- The checker accepts a marked block that nobody uses. -/
theorem strayMark_accepted_not_bitmapRight : Accepts strayMark ∧ ¬ BitmapRight strayMark := by
  obtain ⟨hacc, hds, hmarked, hnot⟩ := images_facts.2.2.2
  refine ⟨accepts_eq_true.1 hacc, fun h => hnot ?_⟩
  obtain ⟨_, p, hp, haddr⟩ := h 700 hds (by decide) hmarked
  rw [← map_addr_visitedSlots]
  exact List.mem_map.mpr ⟨p, hp.mem_visitedSlots, haddr⟩

end OstepHw.Fsck
