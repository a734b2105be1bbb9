import OstepHw.Fsck.Dirs

/-!
# Exactly which images the checker accepts

`accepts_iff` describes the accepted images without the loops: the inode table and the bitmap
lie in the image, every inode type is valid, the addresses of all in-use inodes pass together
(`Passes`), every directory is well formed (`DirOk`), the compared bytes of the bitmap are those of the
marks, and the four reference tests hold of every inode.  The properties of the checker are all
read off this description.

`inode_loop_ok_iff` is the loop invariant behind it: after any prefix of the inode loop the
state is a function of the inodes already visited.
-/

set_option autoImplicit false

namespace OstepHw.Fsck

open Loop Bitmap

/-! ## One inode -/

def TypeOk (type : Int) : Prop := type = 0 ∨ type = T_DIR ∨ type = T_FILE ∨ type = T_DEV

instance (type : Int) : Decidable (TypeOk type) := inferInstanceAs (Decidable (_ ∨ _ ∨ _ ∨ _))

theorem checkInodeType_eq_ok {type : Int} {u : Unit} :
    checkInodeType type = .ok u ↔ TypeOk type := by
  unfold checkInodeType TypeOk
  rw [rejectIf_eq_ok]
  tauto

/-- The addresses visited for inode `i`: none when it is free. -/
def visitsOf (img : Image) (i : Nat) : List Nat :=
  if (inode img i).type ≠ 0 then visited img (inode img i) else []

/-- The entries of inode `i`, with the directory they are in: none when it is no directory. -/
def refsOf (img : Image) (i : Nat) : List (Nat × Nat) :=
  if (inode img i).type = T_DIR then (entries img (inode img i)).map fun e => (i, e.inum) else []

theorem type_ne_zero_of_dir {img : Image} {i : Nat} (h : (inode img i).type = T_DIR) :
    (inode img i).type ≠ 0 := by
  rw [h]
  decide

theorem type_ne_file_of_dir {img : Image} {i : Nat} (h : (inode img i).type = T_DIR) :
    (inode img i).type ≠ T_FILE := by
  rw [h]
  decide

theorem readInodeData_relink {n : Nat} (img : Region n) (d : Dinode) (k : Int) (off : Nat) :
    readInodeData (d.relink k) img off = readInodeData d img off := by
  have haddr : (d.relink k).addr = d.addr := funext (relink_addr d k)
  rw [readInodeData, readInodeData, haddr]

theorem scanDir_relink (img : Image) (n i : Nat) (d : Dinode) (k : Int) :
    ∀ (l : List Nat) (s : Scan), scanDir img n i (d.relink k) l s = scanDir img n i d l s
  | [], _ => rfl
  | off :: l, s => by
    unfold scanDir
    rw [readInodeData_relink]
    simp only [scanDir_relink img n i d k l]

/-- The directory checks do not look at the directory's own link count. -/
theorem checkDir_relink (img : Image) (n i : Nat) (d : Dinode) (k : Int) (t : Tables) :
    checkDir img n i (d.relink k) t = checkDir img n i d t := by
  have hsize : (d.relink k).size = d.size := rfl
  unfold checkDir
  rw [hsize, scanDir_relink]

theorem Passes.addr_lt {ds : Nat} {bm mark : Nat → Nat} {l : List Nat} (h : Passes ds bm mark l)
    {a : Nat} (ha : a ∈ l) : a < FSSIZE := by
  by_cases h0 : a = 0
  · subst h0; simp
  · exact (h.valid a (mem_nz.2 ⟨ha, h0⟩)).2.1

theorem addr_zero_mem_visited (img : Image) (d : Dinode) : d.addr 0 ∈ visited img d :=
  List.mem_append_left _ (List.mem_map_of_mem (by simp))

variable {img : Image}

/-- **One turn of the inode loop.** -/
theorem checkInode_ok_iff {s s' : State} {i : Nat} (hs : SameButLinks (inode img) s.tables) :
    checkInode img s i = .ok s' ↔
      TypeOk (inode img i).type ∧
      Passes (dataStart (superblock img)) (bmap img) s.bmapMark (visitsOf img i) ∧
      ((inode img i).type = T_DIR → DirOk img (superblock img).ninodes i (inode img i)) ∧
      s' = ⟨insertAll s.bmapMark (nz (visitsOf img i)), referAll s.tables (refsOf img i)⟩ := by
  obtain ⟨k, hk⟩ := hs i
  unfold checkInode
  simp only [hk, relink_type, bind_eq_ok, checkInodeType_eq_ok, pure, Except.pure]
  by_cases h0 : (inode img i).type = 0
  · have hd : (0 : Int) ≠ T_DIR := by decide
    have hv : visitsOf img i = [] := by simp [visitsOf, h0]
    have hr : refsOf img i = [] := by simp [refsOf, h0]
    rw [hv, hr]
    simp only [h0, ne_eq, not_true_eq_false, if_false, hd, ok_bind, Except.ok.injEq,
      false_implies, true_and]
    constructor
    · rintro ⟨_, ht, rfl⟩; exact ⟨ht, Passes.nil, rfl⟩
    · rintro ⟨ht, _, rfl⟩; exact ⟨(), ht, rfl⟩
  · have hv : visitsOf img i = visited img (inode img i) := by simp [visitsOf, h0]
    simp only [ne_eq, h0, not_false_eq_true, if_true, hv]
    by_cases hd : (inode img i).type = T_DIR
    · have hr : refsOf img i = (entries img (inode img i)).map fun e => (i, e.inum) := by
        simp [refsOf, hd]
      rw [hr]
      simp only [hd, if_true, true_implies, bind_eq_ok, checkAddresses_ok_iff, visited_relink,
        Except.ok.injEq]
      constructor
      · rintro ⟨_, ht, m, ⟨hp, rfl⟩, t, hdir, rfl⟩
        have ha := hp.addr_lt (addr_zero_mem_visited img _)
        rw [checkDir_relink, checkDir_ok_iff ha] at hdir
        obtain ⟨hok, rfl⟩ := hdir
        exact ⟨ht, hp, hok, rfl⟩
      · rintro ⟨ht, hp, hok, rfl⟩
        have ha := hp.addr_lt (addr_zero_mem_visited img _)
        refine ⟨(), ht, _, ⟨hp, rfl⟩, _, ?_, rfl⟩
        rw [checkDir_relink, checkDir_ok_iff ha]
        exact ⟨hok, rfl⟩
    · have hr : refsOf img i = [] := by simp only [refsOf, hd, if_false]
      rw [hr]
      simp only [hd, if_false, bind_eq_ok, checkAddresses_ok_iff, visited_relink,
        Except.ok.injEq, exists_eq_left', false_implies, true_and]
      constructor
      · rintro ⟨_, ht, m, ⟨hp, rfl⟩, rfl⟩; exact ⟨ht, hp, rfl⟩
      · rintro ⟨ht, hp, rfl⟩; exact ⟨(), ht, _, ⟨hp, rfl⟩, rfl⟩

/-! ## The inode loop -/

/-- What the inode loop establishes of the inodes it has passed. -/
structure InodesOk (img : Image) (l : List Nat) : Prop where
  types : ∀ i ∈ l, TypeOk (inode img i).type
  blocks : Passes (dataStart (superblock img)) (bmap img) (fun _ => 0) (l.flatMap (visitsOf img))
  dirs : ∀ i ∈ l, (inode img i).type = T_DIR →
    DirOk img (superblock img).ninodes i (inode img i)

/-- The state of the inode loop after the inodes of `l`. -/
def stateAfter (img : Image) (l : List Nat) : State :=
  ⟨insertAll (fun _ => 0) (nz (l.flatMap (visitsOf img))),
    referAll (initState img).tables (l.flatMap (refsOf img))⟩

theorem initState_eq (img : Image) : initState img = stateAfter img [] := rfl

theorem sameButLinks_initState (img : Image) : SameButLinks (inode img) (initState img).tables :=
  fun j => ⟨(inode img j).nlink, (relink_nlink_self _).symm⟩

theorem sameButLinks_stateAfter (img : Image) (l : List Nat) :
    SameButLinks (inode img) (stateAfter img l).tables := by
  unfold stateAfter
  exact (sameButLinks_initState img).referAll

theorem stateAfter_snoc (img : Image) (l : List Nat) (i : Nat) :
    stateAfter img (l ++ [i]) =
      ⟨insertAll (stateAfter img l).bmapMark (nz (visitsOf img i)),
        referAll (stateAfter img l).tables (refsOf img i)⟩ := by
  simp only [stateAfter, List.flatMap_append, List.flatMap_singleton, nz_append,
    insertAll_append, referAll_append]

theorem inodesOk_snoc {l : List Nat} {i : Nat} :
    InodesOk img (l ++ [i]) ↔
      InodesOk img l ∧ TypeOk (inode img i).type ∧
      Passes (dataStart (superblock img)) (bmap img) (stateAfter img l).bmapMark
        (visitsOf img i) ∧
      ((inode img i).type = T_DIR → DirOk img (superblock img).ninodes i (inode img i)) := by
  constructor
  · intro ⟨ht, hb, hd⟩
    rw [List.flatMap_append, List.flatMap_singleton, passes_append] at hb
    exact ⟨⟨fun j hj => ht j (by simp [hj]), hb.1, fun j hj => hd j (by simp [hj])⟩,
      ht i (by simp), hb.2, hd i (by simp)⟩
  · rintro ⟨⟨ht, hb, hd⟩, ht', hb', hd'⟩
    refine ⟨?_, ?_, ?_⟩
    · intro j hj
      rcases List.mem_append.mp hj with hj | hj
      · exact ht j hj
      · rw [List.mem_singleton.mp hj]; exact ht'
    · rw [List.flatMap_append, List.flatMap_singleton, passes_append]
      exact ⟨hb, hb'⟩
    · intro j hj
      rcases List.mem_append.mp hj with hj | hj
      · exact hd j hj
      · rw [List.mem_singleton.mp hj]; exact hd'

/-- **The inode loop**: the induction is on the part of the list already run, whose effect on the
state is `stateAfter`. -/
theorem inode_loop_ok_iff_aux {s' : State} :
    ∀ {l pre : List Nat}, InodesOk img pre →
      (l.foldlM (checkInode img) (stateAfter img pre) = .ok s' ↔
        InodesOk img (pre ++ l) ∧ s' = stateAfter img (pre ++ l))
  | [], pre, hpre => by
    simp only [List.foldlM_nil, pure, Except.pure, Except.ok.injEq, List.append_nil, hpre,
      true_and]
    exact eq_comm
  | i :: l, pre, hpre => by
    have hstep : ∀ s, checkInode img (stateAfter img pre) i = .ok s ↔ _ := fun s =>
      checkInode_ok_iff (sameButLinks_stateAfter img pre)
    have happ : pre ++ i :: l = (pre ++ [i]) ++ l := by simp
    rw [List.foldlM_cons, bind_eq_ok, happ]
    constructor
    · rintro ⟨s, hs, hl⟩
      obtain ⟨ht, hp, hd, rfl⟩ := (hstep s).mp hs
      rw [← stateAfter_snoc] at hl
      exact (inode_loop_ok_iff_aux (inodesOk_snoc.2 ⟨hpre, ht, hp, hd⟩)).mp hl
    · rintro ⟨hok, rfl⟩
      have hi : InodesOk img (pre ++ [i]) := by
        refine ⟨fun j hj => hok.types j (List.mem_append_left _ hj), ?_,
          fun j hj => hok.dirs j (List.mem_append_left _ hj)⟩
        have hb := hok.blocks
        rw [List.flatMap_append, passes_append] at hb
        exact hb.1
      obtain ⟨_, ht, hp, hd⟩ := inodesOk_snoc.1 hi
      refine ⟨stateAfter img (pre ++ [i]), (hstep _).mpr ⟨ht, hp, hd, stateAfter_snoc img pre i⟩, ?_⟩
      exact (inode_loop_ok_iff_aux hi).mpr ⟨hok, rfl⟩

theorem inodesOk_nil : InodesOk img [] := ⟨by simp, Passes.nil, by simp⟩

theorem inode_loop_ok_iff {s' : State} {l : List Nat} :
    l.foldlM (checkInode img) (initState img) = .ok s' ↔
      InodesOk img l ∧ s' = stateAfter img l := by
  have h : l.foldlM (checkInode img) (stateAfter img []) = .ok s' ↔
      InodesOk img ([] ++ l) ∧ s' = stateAfter img ([] ++ l) := inode_loop_ok_iff_aux inodesOk_nil
  rw [initState_eq]
  simpa using h

/-! ## The bitmap loop -/

theorem bitmapStart_mod (sb : Superblock) : bitmapStart sb % 8 = 0 := by
  unfold bitmapStart
  generalize (toInt (dataStart sb)).tdiv 8 + 1 = x
  unfold toInt
  rw [Int.bmod_def]
  split <;> omega

/-- The number of bytes of the bitmap that the loop can reach: `j < NBMAP` bounds the *bit*. -/
theorem checkBitmap_ok_iff {sb : Superblock} {bm mark : Nat → Nat} {u : Unit} :
    checkBitmap sb bm mark = .ok u ↔
      0 ≤ bitmapStart sb ∧
      ∀ k, (bitmapStart sb).toNat / 8 ≤ k → k < 80 → bm k = mark k := by
  have h8 := bitmapStart_mod sb
  unfold checkBitmap
  by_cases hneg : bitmapStart sb < 0
  · simp only [hneg, if_true]
    constructor
    · intro h; cases h
    · rintro ⟨h, _⟩; omega
  · rw [if_neg hneg]
    simp only [NBMAP, FSSIZE, BSIZE]
    generalize hj : (bitmapStart sb).toNat = j₀
    have hj8 : j₀ % 8 = 0 := by omega
    rw [foldlM_all_ok_iff]
    constructor
    · intro h
      refine ⟨by omega, fun k hk hk80 => ?_⟩
      have := h (8 * k) (List.mem_map.mpr ⟨k - j₀ / 8, List.mem_range.mpr (by omega), by omega⟩)
      rw [rejectIf_eq_ok, not_not, Nat.mul_div_cancel_left _ (by decide : 0 < 8)] at this
      exact Nat.xor_eq_zero_iff.mp this
    · rintro ⟨_, h⟩ j hjm
      obtain ⟨m, hm, rfl⟩ := List.mem_map.mp hjm
      have hm' := List.mem_range.mp hm
      rw [rejectIf_eq_ok, not_not, h _ (by omega) (by omega)]
      exact Nat.xor_self _

/-! ## The accepted images -/

/-- All entries of all directories, each with the directory it is in. -/
def refs (img : Image) : List (Nat × Nat) :=
  (inums (superblock img).ninodes).flatMap (refsOf img)

/-- Some directory has an entry that names `j`. -/
def Referred (img : Image) (j : Nat) : Prop := ∃ p ∈ refs img, p.2 = j

/-- The number of directory entries that name `j`. -/
def refCount (img : Image) (j : Nat) : Nat := (refs img).countP fun p => decide (p.2 = j)

/-- The number of entries of other directories that name `j`. -/
def foreignCount (img : Image) (j : Nat) : Nat :=
  (refs img).countP fun p => decide (p.2 = j ∧ p.1 ≠ j)

/-- The marks at the end of the inode loop. -/
def marks (img : Image) : Nat → Nat :=
  insertAll (fun _ => 0) (nz ((inums (superblock img).ninodes).flatMap (visitsOf img)))

/-- What the last loop tests of inode `j`. -/
structure RefOk (img : Image) (j : Nat) : Prop where
  found : (inode img j).type ≠ 0 → Referred img j
  used : Referred img j → (inode img j).type ≠ 0
  links : (inode img j).type = T_FILE → toShort ((inode img j).nlink - refCount img j) ≤ 0
  once : (inode img j).type = T_DIR → foreignCount img j ≤ 1

/-- The accepted images. -/
structure AcceptSpec (img : Image) : Prop where
  table_in : blockOff (superblock img).inodestart + dinodeSize * (superblock img).ninodes ≤ IMG_SIZE
  bmap_in : blockOff (superblock img).bmapstart + NBMAP ≤ IMG_SIZE
  inodes : InodesOk img (inums (superblock img).ninodes)
  start : 0 ≤ bitmapStart (superblock img)
  bitmap : ∀ k, (bitmapStart (superblock img)).toNat / 8 ≤ k → k < 80 → bmap img k = marks img k
  refs : ∀ j ∈ inums (superblock img).ninodes, RefOk img j

theorem toShort_nlink (img : Image) (j : Nat) :
    toShort (inode img j).nlink = (inode img j).nlink := by
  simp [inode, dinodeAt, toShort]

/-- The last loop tests exactly `RefOk`. -/
theorem checkReferences_ok_iff {j : Nat} {u : Unit} :
    checkReferences (stateAfter img (inums (superblock img).ninodes)).tables j = .ok u ↔
      RefOk img j := by
  have hsame := sameButLinks_initState img
  have htables : (stateAfter img (inums (superblock img).ninodes)).tables =
      referAll (initState img).tables (refs img) := rfl
  rw [htables]
  have htype : ((referAll (initState img).tables (refs img)).inodes j).type =
      (inode img j).type := hsame.referAll.type_eq j
  have hdir := referAll_inodeDir (j := j) (l := refs img) (t := (initState img).tables)
  have hdir0 : (referAll (initState img).tables (refs img)).inodeDir j = 0 ↔
      ¬ Referred img j := by
    rw [hdir]; unfold Referred; split <;> simp_all [initState]
  have hdir1 : (referAll (initState img).tables (refs img)).inodeDir j = 1 ↔
      Referred img j := by
    rw [hdir]; unfold Referred; split <;> simp_all [initState]
  have hlink : (inode img j).type = T_FILE →
      ((referAll (initState img).tables (refs img)).inodes j).nlink =
        toShort ((inode img j).nlink - refCount img j) := fun hf =>
    referAll_nlink hf hsame (toShort_nlink img j)
  have honce : (inode img j).type = T_DIR →
      (referAll (initState img).tables (refs img)).dirLinks j = foreignCount img j := fun hd => by
    have := referAll_dirLinks hd (l := refs img) hsame
    simpa [initState, foreignCount] using this
  unfold checkReferences
  simp only [bind_eq_ok, rejectIf_eq_ok, htype, hdir0, hdir1]
  constructor
  · rintro ⟨_, h9, _, h10, _, h11, h12⟩
    refine ⟨?_, ?_, ?_, ?_⟩
    · intro ht; by_contra hr; exact h9 ⟨ht, hr⟩
    · intro hr ht; exact h10 ⟨hr, ht⟩
    · intro hf; by_contra hl; exact h11 ⟨hf, by rw [hlink hf]; omega⟩
    · intro hd; by_contra hl; exact h12 ⟨hd, by rw [honce hd]; omega⟩
  · intro h
    refine ⟨(), ?_, (), ?_, (), ?_, ?_⟩
    · rintro ⟨ht, hr⟩; exact hr (h.found ht)
    · rintro ⟨hr, ht⟩; exact h.used hr ht
    · rintro ⟨hf, hl⟩
      rw [hlink hf] at hl
      have := h.links hf
      omega
    · rintro ⟨hd, hl⟩
      rw [honce hd] at hl
      have := h.once hd
      omega

/-- **The checker accepts exactly these images.** -/
theorem accepts_iff (img : Image) : Accepts img ↔ AcceptSpec img := by
  unfold Accepts main
  simp only [bind_eq_ok, memmove_eq_ok, inode_loop_ok_iff, checkBitmap_ok_iff, foldlM_all_ok_iff]
  constructor
  · rintro ⟨_, h₁, _, h₂, _, ⟨h₃, rfl⟩, _, ⟨h₄, h₅⟩, h₆⟩
    exact ⟨h₁, h₂, h₃, h₄, h₅, fun j hj => checkReferences_ok_iff.1 (h₆ j hj)⟩
  · intro h
    exact ⟨(), h.table_in, (), h.bmap_in, _, ⟨h.inodes, rfl⟩, (), ⟨h.start, h.bitmap⟩,
      fun j hj => checkReferences_ok_iff.2 (h.refs j hj)⟩

/-! ## Membership in the lists of the description -/

theorem mem_inums {j n : Nat} : j ∈ inums n ↔ ROOTINO ≤ j ∧ j < n := by
  simp only [inums, List.mem_range'_1, ROOTINO]
  omega

theorem mem_refs {p : Nat × Nat} :
    p ∈ refs img ↔ ROOTINO ≤ p.1 ∧ p.1 < (superblock img).ninodes ∧
      (inode img p.1).type = T_DIR ∧ ∃ e ∈ entries img (inode img p.1), e.inum = p.2 := by
  unfold refs refsOf
  simp only [List.mem_flatMap, mem_inums]
  constructor
  · rintro ⟨i, ⟨h₁, h₂⟩, hp⟩
    split at hp
    · rename_i hd
      obtain ⟨e, he, rfl⟩ := List.mem_map.mp hp
      exact ⟨h₁, h₂, hd, e, he, rfl⟩
    · simp at hp
  · rintro ⟨h₁, h₂, hd, e, he, hp⟩
    refine ⟨p.1, ⟨h₁, h₂⟩, ?_⟩
    rw [if_pos hd]
    exact List.mem_map.mpr ⟨e, he, by rw [hp]⟩

theorem mem_visits {a n : Nat} :
    a ∈ (inums n).flatMap (visitsOf img) ↔
      ∃ i, ROOTINO ≤ i ∧ i < n ∧ (inode img i).type ≠ 0 ∧ a ∈ visited img (inode img i) := by
  unfold visitsOf
  simp only [List.mem_flatMap, mem_inums]
  constructor
  · rintro ⟨i, ⟨h₁, h₂⟩, ha⟩
    split at ha
    · rename_i h0; exact ⟨i, h₁, h₂, h0, ha⟩
    · simp at ha
  · rintro ⟨i, h₁, h₂, h0, ha⟩
    exact ⟨i, ⟨h₁, h₂⟩, by rw [if_pos h0]; exact ha⟩

theorem mem_marks {b : Nat} :
    Mem (marks img) b ↔ b ≠ 0 ∧ b ∈ (inums (superblock img).ninodes).flatMap (visitsOf img) := by
  unfold marks
  rw [mem_insertAll, mem_nz]
  simp [and_comm]

end OstepHw.Fsck
