import OstepHw.Fsck.Sound

/-!
# The checker on damaged images

The inode numbers in directory entries and the sizes of directories are used before anything
is known about them: an entry indexes three arrays of `ninodes` cells, and an offset past the
first block fails the assertion of `read_inode_data`.

`robust_iff` says exactly on which images with the superblock of `mkfs` a run ends by accepting or
by a report: whenever the run reaches a directory (`Reached`), the entries of the directory must be
safe as far as the scan goes (`EntriesSafe`).  Every other access is in range.
-/

set_option autoImplicit false

namespace OstepHw.Fsck

open Loop

variable {img : Image}

/-- The superblock that `mkfs` writes: `nmeta = 2 + nlog + ninodeblocks + nbitmap` is 59. -/
def mkfsSuperblock : Superblock :=
  { size := 1000, nblocks := 941, ninodes := 200, nlog := 30, logstart := 2, inodestart := 32,
    bmapstart := 58 }

def MkfsLayout (img : Image) : Prop := superblock img = mkfsSuperblock

instance (img : Image) : Decidable (MkfsLayout img) := inferInstanceAs (Decidable (_ = _))

/-- The run gets as far as scanning directory `i`: all inodes before it have passed, and so have the
addresses of `i`. -/
structure Reached (img : Image) (i : Nat) : Prop where
  before : InodesOk img (inums i)
  blocks : Passes (dataStart (superblock img)) (bmap img) (fun _ => 0)
    ((inums (i + 1)).flatMap (visitsOf img))

/-- Up to the first `.` entry that names another inode, the entries of directory `i` lie in its
first block and name inodes of the table. -/
def EntriesSafe (img : Image) (i : Nat) : Prop :=
  ∀ k < entryCount (inode img i),
    (∀ m < k, ¬ breaks i (entryAt img (inode img i) m)) →
      k < 32 ∧ (breaks i (entryAt img (inode img i) k) ∨
        (entryAt img (inode img i) k).inum < (superblock img).ninodes)

theorem range_eq_append_cons {n k : Nat} {pre post : List Nat}
    (h : List.range n = pre ++ k :: post) : pre = List.range k ∧ k < n := by
  have hlen := congrArg List.length h
  simp only [List.length_range, List.length_append, List.length_cons] at hlen
  have hk : k = pre.length := by
    have := congrArg (fun l : List Nat => l[pre.length]?) h
    simp only [List.getElem?_append_right (Nat.le_refl _), Nat.sub_self, List.getElem?_cons_zero,
      List.getElem?_range (by omega : pre.length < n), Option.some.injEq] at this
    exact this.symm
  have hpre : pre = (List.range n).take pre.length := by rw [h]; simp
  rw [List.take_range, ← hk] at hpre
  exact ⟨by rw [hpre]; congr 1; omega, by omega⟩

theorem range_append_cons {n k : Nat} (h : k < n) :
    List.range n = List.range k ++ k :: (List.range n).drop (k + 1) := by
  have hk : k < (List.range n).length := by simpa using h
  have hdrop := List.drop_eq_getElem_cons hk
  rw [List.getElem_range] at hdrop
  rw [← hdrop]
  have htake : (List.range n).take k = List.range k := by
    rw [List.take_range]; congr 1; omega
  rw [← htake, List.take_append_drop]

theorem map_range_append_cons {α : Type} (f : Nat → α) {n k : Nat} (h : k < n) :
    (List.range n).map f =
      (List.range k).map f ++ f k :: ((List.range n).drop (k + 1)).map f := by
  rw [range_append_cons h, List.map_append, List.map_cons, ← range_append_cons h]

/-- An indexed list splits at its elements only. -/
theorem map_range_eq_append_cons {α : Type} {f : Nat → α} {n : Nat} {pre post : List α} {a : α}
    (h : (List.range n).map f = pre ++ a :: post) :
    ∃ k < n, pre = (List.range k).map f ∧ a = f k := by
  obtain ⟨l₁, l₂, hl, hl₁, hl₂⟩ := List.map_eq_append_iff.mp h
  obtain ⟨k, l₃, rfl, hk, _⟩ := List.map_eq_cons_iff.mp hl₂
  obtain ⟨rfl, hlt⟩ := range_eq_append_cons hl
  exact ⟨k, hlt, hl₁.symm, hk.symm⟩

theorem scanSafe_iff {i : Nat} :
    ScanSafe img (superblock img).ninodes i (inode img i) ↔ EntriesSafe img i := by
  constructor
  · intro h k hk hpre
    refine h (List.range k) k _ (range_append_cons hk) fun m hm => ?_
    exact hpre m (List.mem_range.mp hm)
  · intro h pre k post hl hpre
    obtain ⟨rfl, hk⟩ := range_eq_append_cons hl
    exact h k hk fun m hm => hpre m (List.mem_range.mpr hm)

theorem inums_succ {i : Nat} (h : ROOTINO ≤ i) : inums (i + 1) = inums i ++ [i] := by
  simp only [inums, ROOTINO] at *
  obtain ⟨j, rfl⟩ : ∃ j, i = 1 + j := ⟨i - 1, by omega⟩
  rw [show 1 + j + 1 - 1 = j + 1 by omega, show 1 + j - 1 = j by omega, List.range'_1_concat]

theorem inums_eq_map (n : Nat) : inums n = (List.range (n - 1)).map (1 + ·) := by
  rw [inums, List.range'_eq_map_range]
  rfl

theorem inums_eq_append_cons {n i : Nat} {pre post : List Nat} (h : inums n = pre ++ i :: post) :
    pre = inums i ∧ ROOTINO ≤ i ∧ i < n := by
  rw [inums_eq_map] at h
  obtain ⟨k, hk, rfl, rfl⟩ := map_range_eq_append_cons h
  refine ⟨?_, by simp, by omega⟩
  rw [inums_eq_map]
  congr 2
  omega

theorem inums_append_cons {n i : Nat} (h₁ : ROOTINO ≤ i) (h₂ : i < n) :
    ∃ post, inums n = inums i ++ i :: post := by
  simp only [ROOTINO] at h₁
  refine ⟨((List.range (n - 1)).drop (i - 1 + 1)).map (1 + ·), ?_⟩
  rw [inums_eq_map, map_range_append_cons _ (show i - 1 < n - 1 by omega), ← inums_eq_map,
    show 1 + (i - 1) = i by omega]

/-- After the turns before it, an inode is reached iff its addresses pass the checks. -/
theorem reached_iff {i : Nat} (hi : ROOTINO ≤ i) (hpre : InodesOk img (inums i))
    (h0 : (inode img i).type ≠ 0) : Reached img i ↔
      Passes (dataStart (superblock img)) (bmap img) (stateAfter img (inums i)).bmapMark
        (visited img (inode img i)) := by
  have hblocks : (inums (i + 1)).flatMap (visitsOf img) =
      (inums i).flatMap (visitsOf img) ++ visited img (inode img i) := by
    rw [inums_succ hi, List.flatMap_append, List.flatMap_singleton, visitsOf, if_pos h0]
  constructor
  · intro h
    have hp := h.blocks
    rw [hblocks, passes_append] at hp
    exact hp.2
  · intro hp
    refine ⟨hpre, ?_⟩
    rw [hblocks, passes_append]
    exact ⟨hpre.blocks, hp⟩

/-- One turn of the inode loop stops without a report iff it reaches a scan that is not safe. -/
theorem checkInode_reports_iff {i : Nat} (hi : ROOTINO ≤ i) (hpre : InodesOk img (inums i)) :
    Reports (checkInode img (stateAfter img (inums i)) i) ↔
      ((inode img i).type = T_DIR → Reached img i → EntriesSafe img i) := by
  obtain ⟨k, hk⟩ := sameButLinks_stateAfter img (inums i) i
  unfold checkInode
  simp only [hk, relink_type]
  by_cases hd : (inode img i).type = T_DIR
  · have h0 : (inode img i).type ≠ 0 := type_ne_zero_of_dir hd
    have htype : checkInodeType (inode img i).type = .ok () :=
      checkInodeType_eq_ok.2 (Or.inr (Or.inl hd))
    rw [htype, ok_bind, if_pos h0]
    simp only [hd, if_true, true_implies]
    rw [reached_iff hi hpre h0, ← visited_relink img _ k]
    cases hc : checkAddresses img (dataStart (superblock img)) (bmap img)
        ((inode img i).relink k) (stateAfter img (inums i)).bmapMark with
    | error e =>
      obtain ⟨r, rfl⟩ := checkAddresses_reports img _ e hc
      rw [error_bind]
      refine ⟨fun _ hp => ?_, fun _ e he => ?_⟩
      · rw [checkAddresses_ok_iff.2 ⟨hp, rfl⟩] at hc
        cases hc
      · cases he
        exact ⟨r, rfl⟩
    | ok mark =>
      have hp := (checkAddresses_ok_iff.1 hc).1
      have ha : (inode img i).addr 0 < FSSIZE := by
        rw [← relink_addr (inode img i) k]
        exact hp.addr_lt (addr_zero_mem_visited img _)
      rw [ok_bind, checkDir_relink]
      have hiff : Reports (checkDir img (superblock img).ninodes i (inode img i)
          (stateAfter img (inums i)).tables) ↔ _ := checkDir_reports_iff ha
      rw [scanSafe_iff] at hiff
      constructor
      · intro h _
        refine hiff.mp fun e he => ?_
        rw [he, error_bind] at h
        exact h e rfl
      · intro h
        exact (hiff.mpr (h hp)).bind fun _ _ => Reports.ok _
  · have hreports : Reports (checkInodeType (inode img i).type) := Reports.rejectIf _ _
    simp only [hd, if_false, false_implies, iff_true]
    refine hreports.bind fun _ _ => ?_
    split
    · exact (checkAddresses_reports img _).bind fun _ _ =>
        (Reports.ok _).bind fun _ _ => Reports.ok _
    · exact (Reports.ok _).bind fun _ _ => (Reports.ok _).bind fun _ _ => Reports.ok _

/-- The inode loop stops without a report iff it reaches an unsafe scan. -/
theorem inode_loop_reports_iff {n : Nat} :
    Reports ((inums n).foldlM (checkInode img) (initState img)) ↔
      ∀ i, ROOTINO ≤ i → i < n → (inode img i).type = T_DIR → Reached img i →
        EntriesSafe img i := by
  constructor
  · intro h i h₁ h₂ hd hr
    obtain ⟨post, hpost⟩ := inums_append_cons h₁ h₂
    have hrun := inode_loop_ok_iff.2 ⟨hr.before, rfl⟩
    refine (checkInode_reports_iff h₁ hr.before).mp (fun e he => h e ?_) hd hr
    exact foldlM_eq_error_iff.2 ⟨inums i, i, post, _, hpost, hrun, he⟩
  · intro h e he
    obtain ⟨pre, i, post, s, hl, hs, hstep⟩ := foldlM_eq_error_iff.1 he
    obtain ⟨rfl, h₁, h₂⟩ := inums_eq_append_cons hl
    obtain ⟨hok, rfl⟩ := inode_loop_ok_iff.1 hs
    exact (checkInode_reports_iff h₁ hok).mpr (h i h₁ h₂) e hstep

theorem checkBitmap_reports {sb : Superblock} (h : 0 ≤ bitmapStart sb) (bm mark : Nat → Nat) :
    Reports (checkBitmap sb bm mark) := by
  unfold checkBitmap
  rw [if_neg (by omega)]
  exact Reports.foldlM (fun _ _ _ => Reports.rejectIf _ _) _

theorem checkReferences_reports (t : Tables) (j : Nat) : Reports (checkReferences t j) := by
  unfold checkReferences
  exact (Reports.rejectIf _ _).bind fun _ _ => (Reports.rejectIf _ _).bind fun _ _ =>
    (Reports.rejectIf _ _).bind fun _ _ => Reports.rejectIf _ _

/-- The run ends by accepting the image or by one of the reported errors. -/
def Robust (img : Image) : Prop := main img = .ok () ∨ ∃ e, main img = .error (.report e)

theorem robust_iff_reports : Robust img ↔ Reports (main img) := by
  unfold Robust Reports
  cases main img with
  | ok u => simp
  | error e =>
    constructor
    · rintro (h | ⟨r, h⟩)
      · cases h
      · rintro e' he'
        rw [h] at he'
        cases he'
        exact ⟨r, rfl⟩
    · intro h
      obtain ⟨r, rfl⟩ := h e rfl
      exact Or.inr ⟨r, rfl⟩

/-- **Robustness.**  On an image with the superblock of `mkfs`, a run ends by accepting or by a
report iff every directory it reaches is safe to scan. -/
theorem robust_iff (img : Image) (hsb : MkfsLayout img) :
    Robust img ↔
      ∀ i, ROOTINO ≤ i → i < (superblock img).ninodes → (inode img i).type = T_DIR →
        Reached img i → EntriesSafe img i := by
  have hsb' : superblock img = mkfsSuperblock := hsb
  have htable : memmove img (blockOff (superblock img).inodestart)
      (dinodeSize * (superblock img).ninodes) = .ok () := by
    rw [memmove_eq_ok, hsb']; decide
  have hbmap : memmove img (blockOff (superblock img).bmapstart) NBMAP = .ok () := by
    rw [memmove_eq_ok, hsb']; decide
  have hstart : 0 ≤ bitmapStart (superblock img) := by rw [hsb']; decide
  rw [robust_iff_reports, ← inode_loop_reports_iff]
  unfold main
  simp only [htable, hbmap, ok_bind]
  constructor
  · intro h e he
    rw [he, error_bind] at h
    exact h e rfl
  · intro h
    exact h.bind fun s _ => (checkBitmap_reports hstart _ _).bind fun _ _ =>
      Reports.foldlM (fun j _ _ => checkReferences_reports _ j) _

/-- How a run stops, for concrete images. -/
def stopOf (img : Image) : Option Stop :=
  match main img with
  | .ok _ => none
  | .error e => some e

/-- A root directory whose third entry names inode 65535. -/
def wildEntry : Image :=
  ofWords (mkfsWords ++ [(16448, 1), (16452, 65536), (16456, 48), (16460, 59),
    (29696, 0xffffffff), (29700, 0x0fffffff), (30208, 0x002e0001), (30224, 0x2e2e0001),
    (30240, 0x0066ffff)])

/-- What the verdicts on the two images need to know of them. -/
theorem robust_facts : (MkfsLayout rootOnly ∧ ∀ i < 200, (inode rootOnly i).type = T_DIR →
      ∀ k < entryCount (inode rootOnly i),
        k < 32 ∧ (entryAt rootOnly (inode rootOnly i) k).inum < 200) ∧
    MkfsLayout wildEntry ∧ stopOf wildEntry = some .outOfRange := by
  decide +kernel

/-- The root directory alone is safe to check. -/
theorem rootOnly_robust : MkfsLayout rootOnly ∧ Robust rootOnly := by
  obtain ⟨hsb, hall⟩ := robust_facts.1
  have hn := rootOnly_facts.2.1
  refine ⟨hsb, (robust_iff rootOnly hsb).mpr fun i _ hi hd _ k hk _ => ?_⟩
  rw [hn] at hi ⊢
  exact ⟨(hall i hi hd k hk).1, Or.inr (hall i hi hd k hk).2⟩

/-- The entry's inode number indexes `inode_dir` far outside its 200 cells. -/
theorem wildEntry_not_robust : MkfsLayout wildEntry ∧ ¬ Robust wildEntry := by
  obtain ⟨hsb, h⟩ := robust_facts.2
  refine ⟨hsb, ?_⟩
  unfold stopOf at h
  rintro (hm | ⟨e, hm⟩)
  · rw [hm] at h; cases h
  · rw [hm] at h; cases h

end OstepHw.Fsck
