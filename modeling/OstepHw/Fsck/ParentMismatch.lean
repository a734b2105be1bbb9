import Mathlib.Data.Nat.Find
import OstepHw.Fsck.ContestPass

/-!
# The parent check of contest 1

The children of a directory are recorded while it is scanned, so `maps` holds those of the directories
with a lower number only.  `parent_mismatch_iff`: on an image that passes the other checks, and on
which no directory has more sub-directories than `maps` has room for, the program reports a mismatch
iff the `..` entry of some directory does not name a directory with a lower number that lists it.

The `..` entries are recorded like all others.  That does not matter: a directory whose `..` names a
directory with a higher number is reported itself.
-/

set_option autoImplicit false

namespace OstepHw.Fsck.Contest1

open Contest Loop
open Contest3 (Msg isChild MAX_CHILDS)

variable {img : Image}

/-! ## Images that pass the other checks -/

/-- The inode types and the addresses pass, the root's `..` is the root, and every directory is well
formed: it fits in one block, has one `.` that names it and one `..`, and its entries name inodes of
the table. -/
@[mk_iff]
structure WellFormed (img : Image) : Prop where
  table : blockOff (superblock img).inodestart + dinodeSize * (superblock img).ninodes ≤ IMG_SIZE
  bitmap : blockOff (superblock img).bmapstart + NBMAP ≤ IMG_SIZE
  types : ∀ i ∈ inums (superblock img).ninodes, TypeOk (inode img i).type
  blocks : Passes (dataStart (superblock img)) (bmap img) (fun _ => 0)
    ((inums (superblock img).ninodes).flatMap (visitsOf img))
  tree : Tree img
  inums : ∀ i, IsDir img i → ∀ e ∈ entries img (inode img i), e.inum < (superblock img).ninodes

/-- No directory has more entries that name another directory than `maps` has room for. -/
def FewChildren (img : Image) : Prop :=
  ∀ i, IsDir img i → (entries img (inode img i)).countP (isChild (inode img) i) ≤ MAX_CHILDS

instance (img : Image) : Decidable (WellFormed img) := decidable_of_iff _ (wellFormed_iff img).symm

instance (img : Image) : Decidable (FewChildren img) :=
  inferInstanceAs (Decidable (∀ i, IsDir img i → _))

/-- Directory `p` has an entry other than `.` and `..` for `d`. -/
def Lists (img : Image) (p d : Nat) : Prop :=
  ∃ e ∈ entries img (inode img p), e.isDots = false ∧ e.inum = d

instance (img : Image) (p d : Nat) : Decidable (Lists img p d) :=
  inferInstanceAs (Decidable (∃ e ∈ _, _))

/-- `p` is a directory that was scanned before `d` and lists it. -/
def ListsBefore (img : Image) (p d : Nat) : Prop := IsDir img p ∧ p < d ∧ Lists img p d

theorem WellFormed.parent_lt (h : WellFormed img) {i : Nat} (hi : IsDir img i) :
    parent img i < (superblock img).ninodes := by
  obtain ⟨dd, post, hs⟩ := (h.tree.shape i hi).split
  rw [← hs.inum]
  exact h.inums i hi dd (by rw [hs.eq]; simp)

theorem WellFormed.through (h : WellFormed img) (hfew : FewChildren img) :
    Through img (superblock img).ninodes := by
  refine ⟨h.types, h.blocks, fun i hi hd => ?_⟩
  have hid : IsDir img i := ⟨(mem_inums.1 hi).1, (mem_inums.1 hi).2, hd⟩
  exact ⟨h.inums i hid, hfew i hid⟩

/-! ## The verdict -/

/-- The parent was scanned before, and the directory is among the children recorded for it. -/
def InMaps (img : Image) (d : Nat) : Prop :=
  parent img d ∈ inums d ∧ d ∈ childrenOf img (parent img d)

instance (img : Image) (d : Nat) : Decidable (InMaps img d) := inferInstanceAs (Decidable (_ ∧ _))

def mismatch (img : Image) (d : Nat) : Option Halt :=
  if InMaps img d then none else some .parentMismatch

theorem mismatch_eq_none {d : Nat} : mismatch img d = none ↔ InMaps img d := by
  simp [mismatch]

theorem mismatch_eq_some {d : Nat} : mismatch img d = some .parentMismatch ↔ ¬ InMaps img d := by
  simp [mismatch]

theorem parentMismatch_new : Halt.parentMismatch.New := by
  intro s hs
  cases hs

/-- A directory is never its own child. -/
theorem not_mem_children_self (i : Nat) (es : List Dirent) : i ∉ children img i es := by
  intro h
  obtain ⟨e, he, hei⟩ := List.mem_map.1 h
  have hchild := (List.mem_filter.1 he).2
  simp [isChild, hei] at hchild

/-- What the check finds in `maps` does not depend on the state. -/
theorem mem_maps_iff {d : Nat} {s₀ s : Pass} (h₀ : Arrays img (inums d) s₀)
    (h : Recorded img d (beforeParent img d) s₀ s) : d ∈ s.maps (parent img d) ↔ InMaps img d := by
  rw [h.maps, InMaps]
  by_cases hp : parent img d = d
  · rw [hp, Function.update_self, h₀.maps, if_neg (not_mem_inums_self d), List.nil_append]
    exact iff_of_false (not_mem_children_self d _) fun hc => not_mem_inums_self d hc.1
  · rw [Function.update_of_ne hp, h₀.maps]
    split
    · rename_i hmem
      exact ⟨fun hd => ⟨hmem, hd⟩, fun hd => hd.2⟩
    · rename_i hmem
      simp [hmem]

theorem judgesAll (h : WellFormed img) :
    JudgesAll (checkParent (superblock img).ninodes) img (mismatch img) := by
  intro d hd s₀ h₀ _ s hs
  have hidx : lift (index (parent img d) (superblock img).ninodes) = .ok () :=
    lift_eq_ok.2 (index_eq_ok.2 (h.parent_lt hd))
  unfold checkParent mismatch
  rw [hidx, ok_bind, if_congr (mem_maps_iff h₀ hs) rfl rfl]
  split <;> rfl

/-! ## What the verdict means -/

theorem mem_childrenOf_iff {p d : Nat} (hd : IsDir img d) (hne : p ≠ d) :
    d ∈ childrenOf img p ↔
      (inode img p).type = T_DIR ∧ ∃ e ∈ entries img (inode img p), e.inum = d := by
  unfold childrenOf
  split
  · rename_i hp
    simp only [children, List.mem_map, List.mem_filter, hp, true_and, isChild, decide_eq_true_eq]
    constructor
    · rintro ⟨e, ⟨he, _⟩, hed⟩
      exact ⟨e, he, hed⟩
    · rintro ⟨e, he, hed⟩
      exact ⟨e, ⟨he, by rw [hed]; exact ⟨hd.2.2, hne⟩⟩, hed⟩
  · rename_i hp
    exact iff_of_false List.not_mem_nil fun h => hp h.1

/-- A directory that is listed before is found in `maps`. -/
theorem inMaps_of_listsBefore {d : Nat} (hd : IsDir img d) (h : ListsBefore img (parent img d) d) :
    InMaps img d := by
  obtain ⟨hp, hlt, e, he, _, hed⟩ := h
  refine ⟨mem_inums.2 ⟨hp.1, hlt⟩, (mem_childrenOf_iff hd (Nat.ne_of_lt hlt)).2 ⟨hp.2.2, e, he, hed⟩⟩

/-- A directory that is found in `maps` is listed before, or its parent names it as its own parent and
is not found in `maps`. -/
theorem listsBefore_of_inMaps (h : Tree img) {d : Nat} (hd : IsDir img d) (hne : d ≠ ROOTINO)
    (hm : InMaps img d) : ListsBefore img (parent img d) d ∨
      (IsDir img (parent img d) ∧ parent img d ≠ ROOTINO ∧ ¬ InMaps img (parent img d)) := by
  obtain ⟨hmem, hchild⟩ := hm
  obtain ⟨h₁, h₂⟩ := mem_inums.1 hmem
  obtain ⟨htype, e, he, hed⟩ := (mem_childrenOf_iff hd (Nat.ne_of_lt h₂)).1 hchild
  have hp : IsDir img (parent img d) := ⟨h₁, Nat.lt_trans h₂ hd.2.1, htype⟩
  cases hdots : e.isDots with
  | false => exact Or.inl ⟨hp, h₂, e, he, hdots, hed⟩
  | true =>
    right
    have hdd : e.isDotDot = true := by
      rcases Bool.or_eq_true_iff.1 hdots with hdot | hdd
      · have hself := (h.shape _ hp).self e he hdot
        rw [hed] at hself
        exact absurd hself.symm (Nat.ne_of_lt h₂)
      · exact hdd
    -- the parent's own `..` names `d`, which comes later
    have hback : parent img (parent img d) = d := by
      rw [← parent_eq_of_mem (h.shape _ hp) he hdd, hed]
    refine ⟨hp, fun hroot => ?_, fun hm => ?_⟩
    · rw [hroot, h.root] at hback
      exact hne hback.symm
    · rw [InMaps, hback] at hm
      exact Nat.lt_asymm h₂ (mem_inums.1 hm.1).2

theorem exists_not_inMaps_iff (h : Tree img) :
    (∃ d, IsDir img d ∧ d ≠ ROOTINO ∧ ¬ InMaps img d) ↔
      ∃ d, IsDir img d ∧ d ≠ ROOTINO ∧ ¬ ListsBefore img (parent img d) d := by
  constructor
  · rintro ⟨d, hd, hne, hnot⟩
    exact ⟨d, hd, hne, fun hb => hnot (inMaps_of_listsBefore hd hb)⟩
  · rintro ⟨d, hd, hne, hnot⟩
    by_cases hm : InMaps img d
    · rcases listsBefore_of_inMaps h hd hne hm with hb | hp
      · exact absurd hb hnot
      · exact ⟨parent img d, hp⟩
    · exact ⟨d, hd, hne, hm⟩

/-! ## The run -/

/-- `maps[i].child_num` stays within its array as far as the loop gets. -/
def ChildrenFit (img : Image) : Prop :=
  scanInodes (checkParent (superblock img).ninodes) img ≠ .error (.stop .outOfRange) ∧
    ∀ k ≤ (superblock img).ninodes, ∀ s,
      (inums k).foldlM (Contest.checkInode (checkParent (superblock img).ninodes) img) (initPass img) =
        .ok s → ∀ i, (s.maps i).length ≤ MAX_CHILDS

/-- The least directory, if any, that is not found in `maps`. -/
theorem exists_least_not_inMaps {d : Nat} (hd : IsDir img d) (hne : d ≠ ROOTINO)
    (hnot : ¬ InMaps img d) : ∃ d, IsDir img d ∧ d ≠ ROOTINO ∧
      (∀ i < d, IsDir img i → i ≠ ROOTINO → mismatch img i = none) ∧
      mismatch img d = some .parentMismatch := by
  classical
  have hex : ∃ d, IsDir img d ∧ d ≠ ROOTINO ∧ ¬ InMaps img d := ⟨d, hd, hne, hnot⟩
  obtain ⟨hd', hne', hnot'⟩ := Nat.find_spec hex
  refine ⟨Nat.find hex, hd', hne', fun i hi hid hine => ?_, mismatch_eq_some.2 hnot'⟩
  rw [mismatch_eq_none]
  by_contra hm
  exact Nat.find_min hex hi ⟨hid, hine, hm⟩

theorem main_eq_parentMismatch_iff (h : WellFormed img) (hfew : FewChildren img) :
    main img = .error .parentMismatch ↔ ∃ d, IsDir img d ∧ d ≠ ROOTINO ∧ ¬ InMaps img d := by
  unfold main
  rw [main_halt_iff h.tree (judgesAll h) parentMismatch_new]
  constructor
  · rintro ⟨d, hd, hne, _, _, hv⟩
    exact ⟨d, hd, hne, mismatch_eq_some.1 hv⟩
  · rintro ⟨d, hd, hne, hnot⟩
    obtain ⟨d, hd, hne, hbefore, hv⟩ := exists_least_not_inMaps hd hne hnot
    exact ⟨d, hd, hne, (h.through hfew).arrives h.table h.bitmap hd, hbefore, hv⟩

theorem childrenFit (h : WellFormed img) (hfew : FewChildren img) : ChildrenFit img := by
  refine ⟨fun hrun => ?_, fun k hk s hrun i => ?_⟩
  · by_cases hex : ∃ d, IsDir img d ∧ d ≠ ROOTINO ∧ ¬ InMaps img d
    · obtain ⟨d, hd, hne, hnot⟩ := hex
      obtain ⟨d, hd, hne, hbefore, hv⟩ := exists_least_not_inMaps hd hne hnot
      have hhalt := (scanInodes_halt_iff h.tree (judgesAll h) parentMismatch_new).2
        ⟨d, hd, hne, (h.through hfew).arrives h.table h.bitmap hd, hbefore, hv⟩
      rw [hrun] at hhalt
      cases hhalt
    · have hgood : ∀ i, IsDir img i → i ≠ ROOTINO → mismatch img i = none := fun i hi hne => by
        rw [mismatch_eq_none]
        by_contra hm
        exact hex ⟨i, hi, hne, hm⟩
      obtain ⟨s, hs⟩ := (scanInodes_ok_iff h.tree (judgesAll h)).2
        ⟨h.table, h.bitmap, h.through hfew, hgood⟩
      rw [hrun] at hs
      cases hs
  · rw [(inode_loop_visited h.tree hk hrun).maps, childrenOf]
    split
    · rename_i hi
      split
      · rename_i hd
        rw [length_children]
        have hik := mem_inums.1 hi
        exact hfew i ⟨hik.1, Nat.lt_of_lt_of_le hik.2 hk, hd⟩
      · exact Nat.zero_le _
    · exact Nat.zero_le _

/-! ## Images -/

/-- Directory 2 is a sub-directory of directory 3, which has the higher number. -/
def lateParent : Image :=
  ofWords (mkfsWords ++
    [(16448, 1), (16452, 65536), (16456, 48), (16460, 59),
     (16512, 1), (16516, 65536), (16520, 32), (16524, 60),
     (16576, 1), (16580, 65536), (16584, 48), (16588, 61),
     (29696, 0xffffffff), (29700, 0x3fffffff),
     (30208, 0x002e0001), (30224, 0x2e2e0001), (30240, 0x00620003),
     (30720, 0x002e0002), (30736, 0x2e2e0003),
     (31232, 0x002e0003), (31248, 0x2e2e0001), (31264, 0x00610002)])

/-- The root has eleven entries for directory 2. -/
def crowded : Image :=
  ofWords (mkfsWords ++
    [(16448, 1), (16452, 65536), (16456, 208), (16460, 59),
     (16512, 1), (16516, 65536), (16520, 32), (16524, 60),
     (29696, 0xffffffff), (29700, 0x1fffffff),
     (30208, 0x002e0001), (30224, 0x2e2e0001)] ++
    (List.range 11).map (fun k => (30240 + 16 * k, 0x00610002 + 65536 * k)) ++
    [(30720, 0x002e0002), (30736, 0x2e2e0001)])

/-- The `..` of directory 2, a sub-directory of the root, names inode 0. -/
def strayParent : Image :=
  ofWords (mkfsWords ++
    [(16448, 1), (16452, 65536), (16456, 48), (16460, 59),
     (16512, 1), (16516, 65536), (16520, 32), (16524, 60),
     (29696, 0xffffffff), (29700, 0x1fffffff),
     (30208, 0x002e0001), (30224, 0x2e2e0001), (30240, 0x00620002),
     (30720, 0x002e0002), (30736, 0x2e2e0000)])

/-- What the verdicts on the images need to know of them. -/
theorem mismatch_facts :
    (WellFormed lateParent ∧ FewChildren lateParent ∧ IsDir lateParent 2 ∧ parent lateParent 2 = 3 ∧
      ¬ InMaps lateParent 2 ∧
      ∀ d, IsDir lateParent d → d ≠ ROOTINO → Lists lateParent (parent lateParent d) d) ∧
    (WellFormed strayParent ∧ FewChildren strayParent ∧ IsDir strayParent 2 ∧ ¬ InMaps strayParent 2 ∧
      ∀ d, IsDir strayParent d → d ≠ ROOTINO → ¬ IsDir strayParent (parent strayParent d)) ∧
    WellFormed crowded ∧
      verdict (scanInodes (checkParent (superblock crowded).ninodes) crowded) =
        some (.stop .outOfRange) := by
  decide +kernel

/-! ## The result -/

/-- **The parent check.** On an image that passes the other checks and gives no directory too many
sub-directories, the program reports a mismatch iff the `..` of some directory but the root does not
name a directory with a lower number that lists it; and `maps` is never written out of range. -/
theorem parent_mismatch_iff (img : Image) (h : WellFormed img) (hfew : FewChildren img) :
    (main img = .error .parentMismatch ↔
      ∃ d, IsDir img d ∧ d ≠ ROOTINO ∧ ¬ ListsBefore img (parent img d) d) ∧
    ChildrenFit img :=
  ⟨(main_eq_parentMismatch_iff h hfew).trans (exists_not_inMaps_iff h.tree), childrenFit h hfew⟩

/-- The check reports the directory whose parent comes after it. -/
theorem lateParent_mismatch :
    main lateParent = .error .parentMismatch ∧ ChildrenFit lateParent := by
  obtain ⟨hwf, hfew, hd, hp, _⟩ := mismatch_facts.1
  have h := parent_mismatch_iff lateParent hwf hfew
  refine ⟨h.1.2 ⟨2, hd, by decide, fun hb => ?_⟩, h.2⟩
  rw [hp] at hb
  exact absurd hb.2.1 (by decide)

/-- The parent of directory 2 lists it, and yet the image is reported; so is the image on which a `..`
names no directory; and eleven entries of the root for one directory are one too many for `maps`. -/
theorem parent_mismatch_wrong :
    (WellFormed lateParent ∧ ¬ (main lateParent = .error .parentMismatch ↔
      ∃ d, IsDir lateParent d ∧ d ≠ ROOTINO ∧ IsDir lateParent (parent lateParent d) ∧
        ¬ Lists lateParent (parent lateParent d) d)) ∧
    (WellFormed strayParent ∧ ¬ (main strayParent = .error .parentMismatch ↔
      ∃ d, IsDir strayParent d ∧ d ≠ ROOTINO ∧ IsDir strayParent (parent strayParent d) ∧
        ¬ Lists strayParent (parent strayParent d) d)) ∧
    (WellFormed crowded ∧ ¬ ChildrenFit crowded) := by
  obtain ⟨⟨hwf, hfew, hd, _, hnot, hlists⟩, ⟨hwf', hfew', hd', hnot', hno'⟩, hwf'', hrun⟩ :=
    mismatch_facts
  refine ⟨⟨hwf, fun h => ?_⟩, ⟨hwf', fun h => ?_⟩, hwf'', fun h => h.1 (verdict_eq_some.1 hrun)⟩
  · obtain ⟨d, hdir, hne, _, hno⟩ :=
      h.1 ((main_eq_parentMismatch_iff hwf hfew).2 ⟨2, hd, by decide, hnot⟩)
    exact hno (hlists d hdir hne)
  · obtain ⟨d, hdir, hne, hp, _⟩ :=
      h.1 ((main_eq_parentMismatch_iff hwf' hfew').2 ⟨2, hd', by decide, hnot'⟩)
    exact hno' d hdir hne hp

end OstepHw.Fsck.Contest1
