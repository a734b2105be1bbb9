import OstepHw.Fsck.Contest3Loop
import OstepHw.Fsck.ParentLoop
import OstepHw.Fsck.ParentMismatch

/-!
# Does contest 3 keep the loop detection of contest 2?

`KeepsCheck`: what contest 2 reports is reported by contest 3 before its directory loop ends, and where
contest 2 goes through all directories without a report, contest 3 does so too.

The climb of contest 3 is the misdirected one of `Misread`.  Where what it takes for the record of a parent
is empty (`EmptyRecord`), as in an empty boot block for all `..` entries below 8, it finds nothing at all.

* `keepsCheck_iff_walks` — the check is kept iff the misdirected walks happen to do what they should;
* `Spared`, `keeps_check` — it is kept where contest 2 finds no loop and the walks of an accessible tree
  come upon empty records; where all these records are empty, it is kept nowhere else.
-/

set_option autoImplicit false

namespace OstepHw.Fsck.Contest3

open Loop Bitmap Climb
open Contest (Tree parent Through)
open Contest2 (Linked Inaccessible Found)

variable {img : Image}

/-- Contest 3 keeps the check of contest 2 on the image. -/
structure KeepsCheck (img : Image) : Prop where
  reported : Contest2.Reported img → Reports img
  silent : (∃ fuel s, Contest2.scanInodes fuel img = .ok s) →
    ∃ s, scanInodes img = .ok s ∧ .inaccessible ∉ s.stderr

/-- All the checks pass that the two programs share, and every directory is accessible. -/
structure Accessible (img : Image) : Prop where
  table : blockOff (superblock img).inodestart + dinodeSize * (superblock img).ninodes ≤ IMG_SIZE
  bitmap : blockOff (superblock img).bmapstart + NBMAP ≤ IMG_SIZE
  through : Through img (superblock img).ninodes
  rooted : ∀ d, ¬ Inaccessible img d

/-! ## What the shared checks are worth -/

/-- Addresses that pass the checks stay in the bitmap. -/
theorem inBitmap_of_passes {ds : Nat} {bm mark : Nat → Nat} {d : Dinode}
    (h : Passes ds bm mark (visited img d)) : InBitmap img d := by
  have hlt : ∀ a ∈ visited img d, a < FSSIZE := fun a ha => by
    by_cases h0 : a = 0
    · rw [h0]
      decide
    · exact (h.valid a (mem_nz.2 ⟨ha, h0⟩)).2.1
  refine ⟨fun a ha => (hlt a ha).trans (by decide), hlt _ ?_⟩
  simp [visited]

theorem inBitmap_of_through {k i : Nat} (h : Through img k) (hi : i ∈ inums k)
    (h0 : (inode img i).type ≠ 0) : InBitmap img (inode img i) := by
  obtain ⟨pre, post, heq⟩ := List.append_of_mem hi
  have hblocks := h.blocks
  rw [heq, List.flatMap_append, List.flatMap_cons, passes_append, passes_append, visitsOf,
    if_pos h0] at hblocks
  exact inBitmap_of_passes hblocks.2.1

/-- After the shared checks only the walks are left. -/
theorem clear_iff_of_through (h : Through img (superblock img).ninodes) :
    (∀ i ∈ inums (superblock img).ninodes, Clear img i) ↔
      ∀ i, IsDir img i → i ≠ ROOTINO → WalkEnds img (parent img i) := by
  constructor
  · intro hclear i hi
    exact (hclear i (mem_inums.2 ⟨hi.1, hi.2.1⟩)).walk hi
  · intro hwalk i hi
    exact ⟨inBitmap_of_through h hi, h.fits i hi, hwalk i⟩

/-! ## The comparison -/

theorem kept_reported_iff (h : Linked img) :
    (Contest2.Reported img → Reports img) ↔
      ∀ d, IsLeast {d | Inaccessible img d} d → Found img d → ∃ i, Gets img i ∧ Prints img i := by
  rw [Contest2.reported_iff h, reports_iff h.tree]
  constructor
  · intro hkept d hleast hfound
    exact (hkept ⟨d, hleast, hfound⟩).2.2
  · rintro hkept ⟨d, hleast, hfound⟩
    exact ⟨hfound.arrives.table, hfound.arrives.bitmap, hkept d hleast hfound⟩

theorem kept_silent_iff (h : Linked img) :
    ((∃ fuel s, Contest2.scanInodes fuel img = .ok s) →
        ∃ s, scanInodes img = .ok s ∧ .inaccessible ∉ s.stderr) ↔
      (Accessible img → ∀ i, IsDir img i → i ≠ ROOTINO →
        WalkEnds img (parent img i) ∧ ¬ Meets img i (parent img i)) := by
  rw [Contest2.scanInodes_ends_iff h]
  constructor
  · rintro hkept ⟨htable, hbitmap, hthrough, hrooted⟩ i hi hne
    obtain ⟨s, hrun, hquiet⟩ := hkept ⟨htable, hbitmap, hthrough, hrooted⟩
    have hclear := ((scanInodes_ok_iff h.tree).1 ⟨s, hrun⟩).2.2
    refine ⟨(clear_iff_of_through hthrough).1 hclear i hi hne, fun hmeets => hquiet ?_⟩
    exact (scanInodes_stderr_iff h.tree hrun).2 ⟨i, hi, hne, hmeets⟩
  · rintro hkept ⟨htable, hbitmap, hthrough, hrooted⟩
    have hwalk := hkept ⟨htable, hbitmap, hthrough, hrooted⟩
    obtain ⟨s, hrun⟩ := (scanInodes_ok_iff h.tree).2 ⟨htable, hbitmap,
      (clear_iff_of_through hthrough).2 fun i hi hne => (hwalk i hi hne).1⟩
    refine ⟨s, hrun, fun hmem => ?_⟩
    obtain ⟨i, hprints⟩ := (scanInodes_stderr_iff h.tree hrun).1 hmem
    exact (hwalk i hprints.dir hprints.ne_root).2 hprints.meets

/-- **The loop detection is kept** on an image with linked directories iff, when contest 2 finds the
first inaccessible directory, some misdirected walk that contest 3 begins meets the directory it began
in, and when all is accessible, every such walk ends without that. -/
theorem keepsCheck_iff_walks (h : Linked img) :
    KeepsCheck img ↔
      (∀ d, IsLeast {d | Inaccessible img d} d → Found img d → ∃ i, Gets img i ∧ Prints img i) ∧
      (Accessible img → ∀ i, IsDir img i → i ≠ ROOTINO →
        WalkEnds img (parent img i) ∧ ¬ Meets img i (parent img i)) := by
  rw [← kept_reported_iff h, ← kept_silent_iff h]
  exact ⟨fun hk => ⟨hk.reported, hk.silent⟩, fun hk => ⟨hk.1, hk.2⟩⟩

/-! ## Empty records -/

/-- The 64 bytes that are taken for the record of directory `p` say that it has no entries. -/
def EmptyRecord (img : Image) (p : Nat) : Prop := (dinodeAt img (dinodeSize * p)).size = 0

instance (img : Image) (p : Nat) : Decidable (EmptyRecord img p) := inferInstanceAs (Decidable (_ = 0))

instance (img : Image) (p k : Nat) : Decidable (InArray img p k) := inferInstanceAs (Decidable (_ ∧ _))

theorem EmptyRecord.entryCount_eq {p : Nat} (h : EmptyRecord img p) : entryCount (misread img p) = 0 := by
  have hsize : (misread img p).size = 0 := h
  rw [entryCount, hsize]

/-- The walk ends where it begins. -/
theorem EmptyRecord.walkEnds {p : Nat} (h : EmptyRecord img p) (hp : dinodeSize * p + dinodeSize ≤ IMG_SIZE) :
    WalkEnds img p := by
  have hcount := h.entryCount_eq
  have hnext : ∀ q, ¬ Next img p q := by
    rintro q ⟨k, hk, _⟩
    omega
  refine ⟨.intro p fun q hq => absurd hq (hnext q), fun q hq => ?_⟩
  rcases hq.cases_head with rfl | ⟨r, hr, _⟩
  · exact ⟨hp, fun k hk => by omega⟩
  · exact absurd hr (hnext r)

theorem EmptyRecord.not_meets {leaf p : Nat} (h : EmptyRecord img p) : ¬ Meets img leaf p := by
  rw [meets_iff]
  rintro ⟨k, hk, _⟩
  have hlt := hk.lt
  rw [h.entryCount_eq] at hlt
  omega

/-- The boot block is all zero. -/
def EmptyBoot (img : Image) : Prop := ∀ a < BSIZE, img.byte a = 0

instance (img : Image) : Decidable (EmptyBoot img) := inferInstanceAs (Decidable (∀ a < BSIZE, _))

/-- An empty boot block holds the records 0 to 7, of directories without entries. -/
theorem emptyRecord_of_small (hboot : EmptyBoot img) {p : Nat} (hp : p < 8) : EmptyRecord img p := by
  have hzero : ∀ k < 4, img.byte (dinodeSize * p + 8 + k) = 0 := fun k hk => hboot _ (by
    simp only [dinodeSize, BSIZE]
    omega)
  have h₀ := hzero 0 (by decide)
  have h₁ := hzero 1 (by decide)
  have h₂ := hzero 2 (by decide)
  have h₃ := hzero 3 (by decide)
  simp only [EmptyRecord, dinodeAt, Region.u32, Region.u16, Nat.add_assoc, Nat.reduceAdd] at *
  omega

/-! ## The result -/

/-- Nothing depends on the misdirected walks: contest 2 has no loop to report, and on an accessible tree what
is taken for the record of a parent is empty. -/
structure Spared (img : Image) : Prop where
  quiet : ∀ d, IsLeast {d | Inaccessible img d} d → ¬ Found img d
  records : Accessible img → ∀ i, IsDir img i → i ≠ ROOTINO → EmptyRecord img (parent img i)

theorem Spared.keepsCheck (h : Linked img) (hs : Spared img) : KeepsCheck img := by
  refine (keepsCheck_iff_walks h).2 ⟨fun d hleast hfound => absurd hfound (hs.quiet d hleast), ?_⟩
  intro hacc i hi hne
  have hempty := hs.records hacc i hi hne
  have htable := hacc.table
  have hp := (h.parents i hi).2.1
  refine ⟨hempty.walkEnds ?_, hempty.not_meets⟩
  simp only [dinodeSize] at *
  omega

/-- Where all these records are empty, contest 3 reports nothing. -/
theorem KeepsCheck.not_found (h : Linked img)
    (hempty : ∀ i, IsDir img i → i ≠ ROOTINO → EmptyRecord img (parent img i)) (hk : KeepsCheck img) {d : Nat}
    (hleast : IsLeast {d | Inaccessible img d} d) : ¬ Found img d := by
  intro hfound
  obtain ⟨i, _, hprints⟩ := ((keepsCheck_iff_walks h).1 hk).1 d hleast hfound
  exact (hempty i hprints.dir hprints.ne_root).not_meets hprints.meets

/-- **When the loop detection is kept**, for every image with linked directories: where nothing depends on the
misdirected walks, and, if they come upon empty records only, nowhere else. -/
theorem keeps_check (img : Image) (h : Linked img) :
    (Spared img → KeepsCheck img) ∧
    ((∀ i, IsDir img i → i ≠ ROOTINO → EmptyRecord img (parent img i)) → KeepsCheck img → Spared img) :=
  ⟨Spared.keepsCheck h, fun hempty hk => ⟨fun _ => hk.not_found h hempty, fun _ => hempty⟩⟩

/-! ## Images -/

/-- Directory 9 is in directory 8, which is in the root. -/
def deepDirs : Image :=
  ofWords (mkfsWords ++
    [(16448, 1), (16452, 65536), (16456, 32), (16460, 59),
     (16896, 1), (16900, 65536), (16904, 32), (16908, 60),
     (16960, 1), (16964, 65536), (16968, 32), (16972, 61),
     (29696, 0xffffffff), (29700, 0x3fffffff),
     (30208, 0x002e0001), (30224, 0x2e2e0001),
     (30720, 0x002e0008), (30736, 0x2e2e0001),
     (31232, 0x002e0009), (31248, 0x2e2e0008)])

/-- What the verdicts on the images need to know of them. -/
theorem check_facts :
    (EmptyBoot Contest2.loopDirs ∧ ∀ i, IsDir Contest2.loopDirs i → parent Contest2.loopDirs i < 8) ∧
    (Linked deepDirs ∧ EmptyBoot deepDirs ∧
      blockOff (superblock deepDirs).inodestart + dinodeSize * (superblock deepDirs).ninodes ≤ IMG_SIZE ∧
      blockOff (superblock deepDirs).bmapstart + NBMAP ≤ IMG_SIZE ∧
      Through deepDirs (superblock deepDirs).ninodes ∧
      (∀ i, IsDir deepDirs i → (parent deepDirs)^[2] i = ROOTINO) ∧
      IsDir deepDirs 9 ∧ parent deepDirs 9 = 8 ∧
      0 < entryCount (misread deepDirs 8) ∧ ¬ InArray deepDirs 8 0) ∧
    Linked Contest1.lateParent ∧ EmptyBoot Contest1.lateParent ∧
      ∀ i, IsDir Contest1.lateParent i → parent Contest1.lateParent i < 8 ∧
        (parent Contest1.lateParent)^[2] i = ROOTINO := by
  decide +kernel

/-- A tree whose directories have small inode numbers. -/
theorem lateParent_kept : KeepsCheck Contest1.lateParent := by
  obtain ⟨hl, hboot, hdirs⟩ := check_facts.2.2
  refine (keeps_check Contest1.lateParent hl).1 ⟨fun d hleast _ => ?_, fun _ i hi _ => ?_⟩
  · exact hleast.1.2 ⟨2, (hdirs d hleast.1.1).2⟩
  · exact emptyRecord_of_small hboot (hdirs i hi).1

/-- Contest 3 misses the loop that contest 2 reports; and on a tree it takes the superblock for the
record of directory 8, and reads outside the array. -/
theorem keeps_check_wrong :
    (Linked Contest2.loopDirs ∧ EmptyBoot Contest2.loopDirs ∧ ¬ KeepsCheck Contest2.loopDirs) ∧
    (Linked deepDirs ∧ EmptyBoot deepDirs ∧ ¬ KeepsCheck deepDirs) := by
  obtain ⟨⟨hboot, hsmall⟩, ⟨hl, hboot', htable, hbitmap, hthrough, hrooted, hd, hp, hlt, hout⟩, _⟩ :=
    check_facts
  have hl' := Contest2.loop_facts.1.1
  refine ⟨⟨hl', hboot, fun hk => ?_⟩, hl, hboot', fun hk => ?_⟩
  · exact hk.not_found hl' (fun i hi _ => emptyRecord_of_small hboot (hsmall i hi))
      Contest2.loopDirs_found.1 Contest2.loopDirs_found.2
  · have hacc : Accessible deepDirs := ⟨htable, hbitmap, hthrough, fun d hin => hin.2 ⟨2, hrooted d hin.1⟩⟩
    have hwalk := ((kept_silent_iff hl).1 hk.silent hacc 9 hd (by decide)).1
    rw [hp] at hwalk
    exact hout ((hwalk.ok 8 .refl).entries 0 hlt)

end OstepHw.Fsck.Contest3
