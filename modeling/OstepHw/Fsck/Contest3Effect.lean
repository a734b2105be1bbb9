import OstepHw.Fsck.Contest3Repair

/-!
# The repaired image

What a second run reads is followed through the repair.

* `Agrees` suffices for the meta-data and for all inodes but `lost_found`: `superblock_eq`,
  `inode_eq_of_ne`, `visited_eq_of_ne`, `entries_eq_of_ne`, `dirSafe_of_ne`;
* `inode_repaired_self`, `entries_repaired_self` — `lost_found` itself, after the two stores of
  `repaired`;
* `orphans_repaired`, `lostFound_repaired`, `dirsSafe_repaired` — what the second run finds;
* `repairRight_of_hasRoom` — the repair is as it should be when `lost_found` has room.
-/

set_option autoImplicit false

namespace OstepHw.Fsck.Contest3

open Loop

variable {img : Image}

/-! ## The setting -/

/-- `lf` is the `lost_found` directory of an image that passes the block checks, and can take
entries. -/
structure Setting (img : Image) (lf : Nat) : Prop where
  layout : Layout (superblock img)
  blocks : BlocksPass img
  dirs : DirsSafe img
  found : lostFound img = some lf
  appendable : Appendable img lf

/-- What the program takes for `lost_found` is a directory that some entry names. -/
theorem lostFound_spec {lf : Nat} (h : lostFound img = some lf) :
    (inode img lf).type = T_DIR ∧ ∃ i, ROOTINO ≤ i ∧ i < (superblock img).ninodes ∧
      (inode img i).type = T_DIR ∧ ∃ e ∈ entries img (inode img i), e.inum = lf := by
  obtain ⟨i, hi, hlf⟩ := List.mem_flatMap.mp (List.mem_of_getLast? h)
  obtain ⟨h₁, h₂⟩ := mem_inums.1 hi
  unfold lostFoundsOf at hlf
  split at hlf
  · rename_i hd
    obtain ⟨e, he, rfl⟩ := List.mem_map.mp hlf
    obtain ⟨hmem, hc⟩ := List.mem_filter.mp he
    simp only [isChild, Bool.and_eq_true, decide_eq_true_eq] at hc
    exact ⟨hc.1.1, i, h₁, h₂, hd, e, hmem, rfl⟩
  · exact absurd hlf List.not_mem_nil

theorem lostFound_lt {lf : Nat} (hdirs : DirsSafe img) (h : lostFound img = some lf) :
    lf < (superblock img).ninodes := by
  obtain ⟨_, i, h₁, h₂, hd, e, he, rfl⟩ := lostFound_spec h
  exact (hdirs i h₁ h₂ hd).inums e he

/-- A `lost_found` directory passes the test of the program. -/
theorem LostFoundDir.lostFound_ne_none {lf : Nat} (h : LostFoundDir img lf) : lostFound img ≠ none := by
  obtain ⟨hlf, i, hi, hd, hne, e, he, hname, rfl⟩ := h
  have hc : isChild (inode img) i e = true := decide_eq_true ⟨hlf, hne⟩
  have hl : isLostFound e = true := by
    rw [isLostFound, hname]
    rfl
  have hmem : e.inum ∈ (inums (superblock img).ninodes).flatMap (lostFoundsOf img) := by
    refine List.mem_flatMap.mpr ⟨i, hi, ?_⟩
    rw [lostFoundsOf, if_pos hd]
    exact List.mem_map.mpr ⟨e, List.mem_filter.mpr ⟨he, by rw [hc, hl]; rfl⟩, rfl⟩
  intro hnone
  rw [lostFound, List.getLast?_eq_none_iff] at hnone
  rw [hnone] at hmem
  cases hmem

theorem mem_orphans {j : Nat} :
    j ∈ orphans img ↔ (ROOTINO ≤ j ∧ j < (superblock img).ninodes) ∧ Orphan img j := by
  unfold orphans
  rw [List.mem_filter, mem_inums, decide_eq_true_eq]

/-! ## Where the blocks are -/

/-- A visited address is zero or a data block. -/
theorem BlocksPass.visited_cases (h : BlocksPass img) {i a : Nat} (h₁ : ROOTINO ≤ i)
    (h₂ : i < (superblock img).ninodes) (h0 : (inode img i).type ≠ 0)
    (ha : a ∈ visited img (inode img i)) :
    a < FSSIZE ∧ (a = 0 ∨ dataStart (superblock img) ≤ a) := by
  have hmem := mem_visits.2 ⟨i, h₁, h₂, h0, ha⟩
  refine ⟨h.addr_lt hmem, ?_⟩
  by_cases hz : a = 0
  · exact Or.inl hz
  · exact Or.inr (h.valid a (mem_nz.2 ⟨hmem, hz⟩)).1

/-- The blocks of an inode are data blocks. -/
theorem BlocksPass.not_owns (h : BlocksPass img) (i : Nat) {b : Nat} (hb : b < dataStart (superblock img)) :
    ¬ Owns img i b := by
  rintro ⟨h0, p, hp, _, rfl⟩
  have hmem : p.addr img ∈ (inums (superblock img).ninodes).flatMap (visitsOf img) := by
    rw [← map_addr_visitedSlots]
    exact List.mem_map_of_mem hp.mem_visitedSlots
  have hds := (h.valid _ (mem_nz.2 ⟨hmem, h0⟩)).1
  omega

theorem pointer_mem_visited (img : Image) (d : Dinode) : d.addr NDIRECT ∈ visited img d :=
  List.mem_append_right _ (List.mem_append_left _ (List.mem_singleton.mpr rfl))

theorem inBitmap_of_lt {d : Dinode} (h : ∀ a ∈ visited img d, a < FSSIZE) : InBitmap img d :=
  ⟨fun a ha => (h a ha).trans (by decide), h _ (pointer_mem_visited img d)⟩

theorem BlocksPass.addrsOk (h : BlocksPass img) : AddrsOk img := fun _ h₁ h₂ h0 =>
  inBitmap_of_lt fun _ ha => (h.visited_cases h₁ h₂ h0 ha).1

section Setting

variable {lf : Nat} (h : Setting img lf)

include h

theorem Setting.lt : lf < (superblock img).ninodes := lostFound_lt h.dirs h.found

theorem Setting.isDir : (inode img lf).type = T_DIR := (lostFound_spec h.found).1

theorem Setting.inUse : (Slot.direct lf 0).InUse img :=
  ⟨h.appendable.root_le, h.lt, type_ne_zero_of_dir h.isDir, by simp [Slot.exists]⟩

/-- The block that is written is a data block. -/
theorem Setting.block_range :
    (inode img lf).addr 0 < FSSIZE ∧ dataStart (superblock img) ≤ (inode img lf).addr 0 := by
  obtain ⟨hlt, h0 | hds⟩ := h.blocks.visited_cases h.appendable.root_le h.lt
    (type_ne_zero_of_dir h.isDir) (addr_zero_mem_visited img _)
  · exact absurd h0 h.appendable.block
  · exact ⟨hlt, hds⟩

/-- No block has a slot in `lf` and one in another inode. -/
theorem Setting.not_owns_of_slot {p : Slot} (hp : p.InUse img) (hne : p.inum ≠ lf) :
    ¬ Owns img lf (p.addr img) := by
  rintro ⟨h0, q, hq, hnum, heq⟩
  have hpq := slot_eq_of_addr_eq h.blocks.nodup hp.mem_visitedSlots hq.mem_visitedSlots h0 heq.symm
  exact hne (hpq ▸ hnum)

end Setting

/-! ## Images that agree -/

/-- The addresses visited depend on the addresses of the inode and on its indirect block. -/
theorem visited_congr {img' : Image} {d d' : Dinode} (haddr : d'.addr = d.addr)
    (hlt : d.addr NDIRECT < FSSIZE)
    (hbytes : ∀ o < BSIZE, img'.byte (d.addr NDIRECT * BSIZE + o) =
      img.byte (d.addr NDIRECT * BSIZE + o)) : visited img' d' = visited img d := by
  have hwords : ∀ k ∈ List.range NINDIRECT,
      indirectWord img' (d.addr NDIRECT) k = indirectWord img (d.addr NDIRECT) k := by
    intro k hk
    have hk' := List.mem_range.mp hk
    unfold indirectWord
    rw [blockOff_of_lt hlt]
    apply Region.u32_congr
    intro m hm
    rw [Nat.add_assoc]
    apply hbytes
    simp only [BSIZE, NINDIRECT] at *
    omega
  unfold visited
  rw [haddr, List.map_congr_left hwords]

/-- The entries of a short directory depend on its first block. -/
theorem entries_congr {img' : Image} {d : Dinode} (hsize : d.size ≤ BSIZE) (hlt : d.addr 0 < FSSIZE)
    (hbytes : ∀ o < BSIZE, img'.byte (d.addr 0 * BSIZE + o) = img.byte (d.addr 0 * BSIZE + o)) :
    entries img' d = entries img d := by
  have hcount := entryCount_le.2 hsize
  unfold entries
  apply List.map_congr_left
  intro k hk
  have hk' := List.mem_range.mp hk
  unfold entryAt
  rw [blockOff_of_lt hlt]
  apply direntAt_congr
  intro m hm
  rw [Nat.add_assoc]
  apply hbytes
  simp only [BSIZE]
  omega

section Agree

variable {lf : Nat} {img' : Image} (h : Setting img lf) (ha : Agrees img lf img')

include h ha

/-- The meta-data stay, the record of `lf` apart. -/
theorem byte_eq_of_meta {x : Nat} (hx : x < recordAt img (superblock img).ninodes)
    (hrec : ¬ InRecord img lf x) : img'.byte x = img.byte x := by
  have hd := h.appendable.before_data
  have ht := h.layout.table
  have hblock : x / BSIZE < dataStart (superblock img) := by
    simp only [BSIZE] at *
    omega
  refine ha x ?_ hrec (h.blocks.not_owns lf hblock) (Or.inl hblock)
  unfold recordAt at hx
  omega

theorem byte_eq_of_front {x : Nat} (hx : x < recordAt img 0) : img'.byte x = img.byte x := by
  apply byte_eq_of_meta h ha
  · unfold recordAt at *
    omega
  · unfold InRecord recordAt at *
    omega

/-- The blocks of all other inodes stay. -/
theorem byte_eq_of_slot {p : Slot} (hp : p.InUse img) (hne : p.inum ≠ lf)
    (hlt : p.addr img < FSSIZE) {o : Nat} (ho : o < BSIZE) :
    img'.byte (p.addr img * BSIZE + o) = img.byte (p.addr img * BSIZE + o) := by
  have hs := h.appendable.after_superblock
  by_cases h0 : p.addr img = 0
  · apply byte_eq_of_front h ha
    simp only [h0, BSIZE] at *
    omega
  have hmem : p.addr img ∈ (inums (superblock img).ninodes).flatMap (visitsOf img) := by
    rw [← map_addr_visitedSlots]
    exact List.mem_map_of_mem hp.mem_visitedSlots
  have hds := (h.blocks.valid _ (mem_nz.2 ⟨hmem, h0⟩)).1
  have hd := h.appendable.before_data
  have hin := h.lt
  have hblock : (p.addr img * BSIZE + o) / BSIZE = p.addr img := by
    simp only [BSIZE] at *
    omega
  apply ha
  · simp only [FSSIZE, BSIZE, IMG_SIZE] at *
    omega
  · simp only [InRecord, recordAt, BSIZE, dinodeSize] at *
    omega
  · rw [hblock]
    exact h.not_owns_of_slot hp hne
  · rw [hblock]
    exact Or.inr ⟨h0, p, hp, rfl⟩

theorem superblock_eq : superblock img' = superblock img := by
  have hs := h.appendable.after_superblock
  have hword : ∀ a, a + 4 ≤ 2 * BSIZE → img'.u32 a = img.u32 a := by
    intro a hle
    apply Region.u32_congr
    intro k hk
    apply byte_eq_of_front h ha
    omega
  simp only [superblock, Superblock.mk.injEq]
  exact ⟨hword _ (by decide), hword _ (by decide), hword _ (by decide), hword _ (by decide),
    hword _ (by decide), hword _ (by decide), hword _ (by decide)⟩

theorem recordAt_eq (i : Nat) : recordAt img' i = recordAt img i := by
  rw [recordAt, superblock_eq h ha, ← recordAt]

theorem inode_eq_of_ne {i : Nat} (hi : i < (superblock img).ninodes) (hne : i ≠ lf) :
    inode img' i = inode img i := by
  rw [inode, inode, ← recordAt, ← recordAt, recordAt_eq h ha]
  apply dinodeAt_congr
  intro k hk
  apply byte_eq_of_meta h ha
  · simp only [recordAt, dinodeSize]
    omega
  · simp only [InRecord, recordAt, dinodeSize]
    omega

theorem visited_eq_of_ne {i : Nat} (h₁ : ROOTINO ≤ i) (h₂ : i < (superblock img).ninodes)
    (h0 : (inode img i).type ≠ 0) (hne : i ≠ lf) :
    visited img' (inode img' i) = visited img (inode img i) := by
  obtain ⟨hlt, _⟩ := h.blocks.visited_cases h₁ h₂ h0 (pointer_mem_visited img _)
  rw [inode_eq_of_ne h ha h₂ hne]
  exact visited_congr rfl hlt fun o ho =>
    byte_eq_of_slot h ha (p := .pointer i) ⟨h₁, h₂, h0, trivial⟩ hne hlt ho

theorem entries_eq_of_ne {i : Nat} (h₁ : ROOTINO ≤ i) (h₂ : i < (superblock img).ninodes)
    (hd : (inode img i).type = T_DIR) (hne : i ≠ lf) :
    entries img' (inode img' i) = entries img (inode img i) := by
  have h0 := type_ne_zero_of_dir hd
  obtain ⟨hlt, _⟩ := h.blocks.visited_cases h₁ h₂ h0 (addr_zero_mem_visited img _)
  rw [inode_eq_of_ne h ha h₂ hne]
  exact entries_congr (h.dirs i h₁ h₂ hd).size hlt fun o ho =>
    byte_eq_of_slot h ha (p := .direct i 0) ⟨h₁, h₂, h0, by simp [Slot.exists]⟩ hne hlt ho

theorem traceEnds_of_agrees {j : Nat} (hj : TraceEnds img j) : TraceEnds img' j := by
  have hbefore := hj.before_table
  refine ⟨by rw [superblock_eq h ha]; exact hbefore, ?_⟩
  have hsame : dinodeAt img' (dinodeSize * j) = dinodeAt img (dinodeSize * j) := by
    apply dinodeAt_congr
    intro k hk
    apply byte_eq_of_front h ha
    simp only [recordAt, dinodeSize] at *
    omega
  rw [hsame]
  exact hj.empty

variable (hdir : (inode img' lf).type = T_DIR)

include hdir

theorem type_eq {i : Nat} (hi : i < (superblock img).ninodes) :
    (inode img' i).type = (inode img i).type := by
  by_cases hne : i = lf
  · rw [hne, hdir, h.isDir]
  · rw [inode_eq_of_ne h ha hi hne]

theorem isChild_eq (i : Nat) {e : Dirent} (he : e.inum < (superblock img).ninodes) :
    isChild (inode img') i e = isChild (inode img) i e := by
  unfold isChild
  rw [type_eq h ha hdir he]

theorem countP_isChild_eq (i : Nat) {es : List Dirent}
    (hes : ∀ e ∈ es, e.inum < (superblock img).ninodes) :
    es.countP (isChild (inode img') i) = es.countP (isChild (inode img) i) :=
  List.countP_congr fun e he => by rw [isChild_eq h ha hdir i (hes e he)]

/-- **All other directories are still safe to scan.** -/
theorem dirSafe_of_ne {i : Nat} (h₁ : ROOTINO ≤ i) (h₂ : i < (superblock img).ninodes)
    (hd : (inode img i).type = T_DIR) (hne : i ≠ lf) : DirSafe img' i := by
  have hsafe := h.dirs i h₁ h₂ hd
  have hes := entries_eq_of_ne h ha h₁ h₂ hd hne
  have hinode := inode_eq_of_ne h ha h₂ hne
  refine ⟨⟨?_, ?_, ?_, ?_⟩, ?_, ?_⟩
  · rw [hinode]
    exact hsafe.size
  · rw [hinode]
    exact hsafe.block
  · rw [hes, superblock_eq h ha]
    exact hsafe.inums
  · rw [hes, countP_isChild_eq h ha hdir i hsafe.inums]
    exact hsafe.children
  · rw [hes]
    exact hsafe.stays
  · rw [hes]
    exact fun e he hdd hroot => traceEnds_of_agrees h ha (hsafe.parents e he hdd hroot)

end Agree

/-! ## Entries of orphans -/

theorem isDot_lostEntry (j : Nat) : (lostEntry j).isDot = false := rfl

theorem isDotDot_lostEntry (j : Nat) : (lostEntry j).isDotDot = false := rfl

theorem isLostFound_lostEntry (j : Nat) : isLostFound (lostEntry j) = false := rfl

/-- The old and the new entries of `lost_found` are safe to scan. -/
theorem Setting.entrySafe {lf : Nat} {img' : Image} (h : Setting img lf) (ha : Agrees img lf img')
    {e : Dirent} (he : e ∈ entries img (inode img lf) ++ (orphans img).map lostEntry) :
    EntrySafe img' lf e := by
  have hsafe := h.dirs lf h.appendable.root_le h.lt h.isDir
  rcases List.mem_append.mp he with he | he
  · have hold := hsafe.entrySafe he
    refine ⟨hold.stays, ?_, fun hdd hroot => traceEnds_of_agrees h ha (hold.parent hdd hroot)⟩
    rw [superblock_eq h ha]
    exact hold.inum
  · obtain ⟨j, hj, rfl⟩ := List.mem_map.mp he
    refine ⟨fun hb => ?_, ?_, fun hdd => ?_⟩
    · have := hb.1
      rw [isDot_lostEntry] at this
      cases this
    · rw [superblock_eq h ha]
      exact (mem_orphans.1 hj).1.2
    · rw [isDotDot_lostEntry] at hdd
      cases hdd

/-- The entry is read back from its bytes. -/
theorem direntAt_of_lostBytes {n : Nat} {r : Region n} {a j : Nat} (hj : j < 65536)
    (h : ∀ k (hk : k < (lostBytes j).length), r.byte (a + k) = (lostBytes j)[k].toNat) :
    direntAt r a = lostEntry j := by
  have hinum : r.u16 a = j := by
    apply Region.u16_of_bytes hj
    intro k hk
    have hk' : k = 0 ∨ k = 1 := by omega
    rcases hk' with rfl | rfl
    · exact h 0 (by simp [length_lostBytes])
    · exact h 1 (by simp [length_lostBytes])
  have hname : ∀ k : Fin 14, UInt8.ofNat (r.byte (a + 2 + k)) = lostName.getD k 0 := by
    intro k
    have hlen : k.val < lostName.length := k.isLt
    have hbyte := h (k.val + 2) (by rw [length_lostBytes]; omega)
    rw [Nat.add_assoc, Nat.add_comm 2 k.val, hbyte, UInt8.ofNat_toNat,
      List.getD_eq_getElem _ _ hlen]
    rfl
  unfold direntAt lostEntry
  rw [hinum, funext hname]

/-- The entries are read back from one store of them all. -/
theorem dirents_write {n : Nat} (l : List Nat) : ∀ (r : Region n) (a : Nat),
    a + 16 * l.length ≤ n → (∀ j ∈ l, j < 65536) →
    (List.range l.length).map (fun t => direntAt (r.write a (l.flatMap lostBytes)) (a + 16 * t)) =
      l.map lostEntry := by
  induction l with
  | nil => exact fun _ _ _ _ => rfl
  | cons j l ih =>
    intro r a ha hl
    rw [List.length_cons] at ha
    -- the rest is a store of its own, behind the first entry
    have hwrite : r.write a ((j :: l).flatMap lostBytes) =
        (r.write a (lostBytes j)).write (a + 16) (l.flatMap lostBytes) := by
      rw [List.flatMap_cons, ← Region.write_append, length_lostBytes]
    have hfirst : direntAt (r.write a ((j :: l).flatMap lostBytes)) a = lostEntry j := by
      apply direntAt_of_lostBytes (hl j List.mem_cons_self)
      intro k hk
      have hk' := hk
      rw [length_lostBytes] at hk'
      rw [hwrite, Region.byte_write_of_outside _ (Or.inl (by omega)),
        Region.byte_write_of_inside r hk (by rw [length_lostBytes]; omega)]
    have hrest := ih (r.write a (lostBytes j)) (a + 16) (by omega)
      fun i hi => hl i (List.mem_cons_of_mem _ hi)
    rw [List.length_cons, List.range_succ_eq_map, List.map_cons, Nat.mul_zero, Nat.add_zero, hfirst,
      List.map_cons, ← hrest, List.map_map, hwrite]
    congr 1
    apply List.map_congr_left
    intro t _
    rw [Function.comp_apply]
    congr 1
    omega

/-! ## After the two stores -/

/-- The entries of the orphans fit. -/
structure Ready (img : Image) (lf : Nat) : Prop extends Setting img lf where
  fits : Fits img lf

theorem byte_repaired_of_not_inRecord {lf x : Nat} (hrec : ¬ InRecord img lf x) :
    (repaired img lf).byte x =
      (img.write ((inode img lf).addr 0 * BSIZE + (inode img lf).size)
        ((orphans img).flatMap lostBytes)).byte x := by
  apply Region.byte_write_of_outside
  rw [length_encode]
  simp only [InRecord, dinodeSize] at hrec
  omega

/-- **The frame of the repair.** -/
theorem byte_repaired {lf x : Nat} (hrec : ¬ InRecord img lf x)
    (hx : x < (inode img lf).addr 0 * BSIZE + (inode img lf).size ∨
      (inode img lf).addr 0 * BSIZE + (inode img lf).size + 16 * (orphans img).length ≤ x) :
    (repaired img lf).byte x = img.byte x := by
  rw [byte_repaired_of_not_inRecord hrec, Region.byte_write_of_outside]
  rw [length_flatMap_lostBytes]
  exact hx

theorem inRange_resize {d : Dinode} (hd : d.InRange) {size : Nat} (hs : size < 4294967296) :
    (resize d size).InRange :=
  ⟨hd.type, hd.major, hd.minor, hd.nlink, hs, hd.addrs⟩

section Ready

variable {lf : Nat} (h : Ready img lf)

include h

/-- Only the record and the first block of `lf` change. -/
theorem Ready.agrees : Agrees img lf (repaired img lf) := by
  intro a _ hrec hown _
  have hfit : (inode img lf).size + 16 * (orphans img).length ≤ BSIZE := h.fits
  have hne : a / BSIZE ≠ (inode img lf).addr 0 := fun heq =>
    hown ⟨heq ▸ h.appendable.block, .direct lf 0, h.inUse, rfl, heq.symm⟩
  apply byte_repaired hrec
  simp only [BSIZE] at *
  omega

theorem Ready.superblock_eq : superblock (repaired img lf) = superblock img :=
  Contest3.superblock_eq h.toSetting h.agrees

/-- Of the record of `lf` only the size changes. -/
theorem inode_repaired_self : inode (repaired img lf) lf =
    resize (inode img lf) ((inode img lf).size + 16 * (orphans img).length) := by
  have hfit : (inode img lf).size + 16 * (orphans img).length ≤ BSIZE := h.fits
  have hrange : (inode img lf).InRange := inRange_dinodeAt img _
  rw [inode, ← recordAt, recordAt_eq h.toSetting h.agrees]
  apply dinodeAt_of_bytes
  · intro k hk
    have hk' : k < (resize (inode img lf)
        ((inode img lf).size + 16 * (orphans img).length)).encode.length := by
      rwa [length_encode]
    unfold repaired
    rw [Region.byte_write_of_inside _ hk', getElem_encode]
    rw [length_encode]
    exact recordAt_add_le h.layout h.lt
  · apply inRange_resize hrange
    simp only [BSIZE] at hfit
    omega

theorem Ready.isDir_repaired : (inode (repaired img lf) lf).type = T_DIR := by
  rw [inode_repaired_self h, resize_type]
  exact h.isDir

theorem type_repaired {i : Nat} (hi : i < (superblock img).ninodes) :
    (inode (repaired img lf) i).type = (inode img i).type :=
  type_eq h.toSetting h.agrees h.isDir_repaired hi

/-- The indirect block of `lf` was not written. -/
theorem visited_repaired_self :
    visited (repaired img lf) (inode (repaired img lf) lf) = visited img (inode img lf) := by
  have hroot := h.appendable.root_le
  have h0 := type_ne_zero_of_dir h.isDir
  obtain ⟨hlt, hc⟩ := h.blocks.visited_cases hroot h.lt h0 (pointer_mem_visited img _)
  have hne : (inode img lf).addr NDIRECT ≠ (inode img lf).addr 0 := by
    intro heq
    have hslot := slot_eq_of_addr_eq h.blocks.nodup (p := .pointer lf) (q := .direct lf 0)
      (Slot.InUse.mem_visitedSlots ⟨hroot, h.lt, h0, trivial⟩) h.inUse.mem_visitedSlots
      (by rw [Slot.addr, heq]; exact h.appendable.block) heq
    cases hslot
  rw [inode_repaired_self h]
  refine visited_congr (funext fun j => resize_addr _ _ j) hlt fun o ho => ?_
  have hin := h.lt
  have hd := h.appendable.before_data
  have hs := h.appendable.after_superblock
  have hfit : (inode img lf).size + 16 * (orphans img).length ≤ BSIZE := h.fits
  apply byte_repaired
  · simp only [InRecord, recordAt, BSIZE, dinodeSize] at *
    omega
  · simp only [BSIZE] at *
    omega

theorem addrsOk_repaired : AddrsOk (repaired img lf) := by
  intro i h₁ h₂ h0
  rw [h.superblock_eq] at h₂
  rw [type_repaired h h₂] at h0
  have hsame : visited (repaired img lf) (inode (repaired img lf) i) = visited img (inode img i) := by
    by_cases hne : i = lf
    · rw [hne, visited_repaired_self h]
    · rw [visited_eq_of_ne h.toSetting h.agrees h₁ h₂ h0 hne]
  apply inBitmap_of_lt
  rw [hsame]
  exact fun a ha => (h.blocks.visited_cases h₁ h₂ h0 ha).1

/-- **`lost_found` gets the entries of the orphans behind its own.** -/
theorem entries_repaired_self : entries (repaired img lf) (inode (repaired img lf) lf) =
    entries img (inode img lf) ++ (orphans img).map lostEntry := by
  obtain ⟨q, hq⟩ := h.appendable.aligned
  have hfit : (inode img lf).size + 16 * (orphans img).length ≤ BSIZE := h.fits
  have hb := h.block_range
  have hd := h.appendable.before_data
  have hlt := h.lt
  have hnum : ∀ j ∈ orphans img, j < 65536 := by
    intro j hj
    have hj' := (mem_orphans.1 hj).1.2
    have ht := h.layout.table
    simp only [IMG_SIZE, FSSIZE, BSIZE, dinodeSize] at ht
    omega
  have hcount : entryCount (inode img lf) = q := by
    unfold entryCount
    omega
  have hcount' : entryCount (inode (repaired img lf) lf) = q + (orphans img).length := by
    rw [inode_repaired_self h, entryCount, resize_size]
    omega
  have haddr : blockOff ((inode (repaired img lf) lf).addr 0) = (inode img lf).addr 0 * BSIZE := by
    rw [inode_repaired_self h, resize_addr, blockOff_of_lt hb.1]
  -- the record is not in the block
  have houter : ∀ x, (inode img lf).addr 0 * BSIZE ≤ x → ¬ InRecord img lf x := by
    intro x hx
    simp only [InRecord, recordAt, BSIZE, dinodeSize] at *
    omega
  have hold : ∀ k ∈ List.range q, entryAt (repaired img lf) (inode (repaired img lf) lf) k =
      entryAt img (inode img lf) k := by
    intro k hk
    have hk' := List.mem_range.mp hk
    unfold entryAt
    rw [haddr, blockOff_of_lt hb.1]
    apply direntAt_congr
    intro m hm
    exact byte_repaired (houter _ (by omega)) (Or.inl (by omega))
  have hnew : ∀ t ∈ List.range (orphans img).length,
      entryAt (repaired img lf) (inode (repaired img lf) lf) (q + t) =
        direntAt (img.write ((inode img lf).addr 0 * BSIZE + (inode img lf).size)
          ((orphans img).flatMap lostBytes))
          ((inode img lf).addr 0 * BSIZE + (inode img lf).size + 16 * t) := by
    intro t _
    have hpos : (inode img lf).addr 0 * BSIZE + 16 * (q + t) =
        (inode img lf).addr 0 * BSIZE + (inode img lf).size + 16 * t := by omega
    unfold entryAt
    rw [haddr, hpos]
    exact direntAt_congr fun m _ => byte_repaired_of_not_inRecord (houter _ (by omega))
  have hall := dirents_write (orphans img) img
    ((inode img lf).addr 0 * BSIZE + (inode img lf).size) (by
      simp only [IMG_SIZE, FSSIZE, BSIZE] at *
      omega) hnum
  unfold entries
  rw [hcount', hcount, List.range_add, List.map_append, List.map_congr_left hold, List.map_map,
    ← hall, ← List.map_congr_left hnew]
  rfl

end Ready

/-! ## The second run -/

theorem lostFounds_append (i : Nat) (es es' : List Dirent) :
    lostFounds img i (es ++ es') = lostFounds img i es ++ lostFounds img i es' := by
  simp [lostFounds]

/-- The new entries do not look like a `lost_found`. -/
theorem lostFounds_lostEntry (i : Nat) (l : List Nat) : lostFounds img i (l.map lostEntry) = [] := by
  simp [lostFounds, isLostFound_lostEntry]

section SecondRun

variable {lf : Nat} (h : Ready img lf)

include h

theorem lostFounds_repaired (i : Nat) {es : List Dirent}
    (hes : ∀ e ∈ es, e.inum < (superblock img).ninodes) :
    lostFounds (repaired img lf) i es = lostFounds img i es := by
  unfold lostFounds
  rw [List.filter_congr fun e he => by
    rw [isChild_eq h.toSetting h.agrees h.isDir_repaired i (hes e he)]]

theorem lostFoundsOf_repaired {i : Nat} (h₁ : ROOTINO ≤ i) (h₂ : i < (superblock img).ninodes) :
    lostFoundsOf (repaired img lf) i = lostFoundsOf img i := by
  unfold lostFoundsOf
  rw [type_repaired h h₂]
  by_cases hd : (inode img i).type = T_DIR
  · have hes := (h.dirs i h₁ h₂ hd).inums
    rw [if_pos hd, if_pos hd]
    by_cases hne : i = lf
    · subst hne
      have hnew := @lostFounds_lostEntry (repaired img i) i (orphans img)
      rw [entries_repaired_self h, lostFounds_append, hnew, List.append_nil,
        lostFounds_repaired h i hes]
    · rw [entries_eq_of_ne h.toSetting h.agrees h₁ h₂ hd hne, lostFounds_repaired h i hes]
  · rw [if_neg hd, if_neg hd]

/-- The second run takes the same directory for `lost_found`. -/
theorem lostFound_repaired : lostFound (repaired img lf) = some lf := by
  rw [← h.found]
  unfold lostFound
  rw [h.superblock_eq, List.flatMap_congr fun i hi => by
    obtain ⟨h₁, h₂⟩ := mem_inums.1 hi
    exact lostFoundsOf_repaired h h₁ h₂]

/-- Every inode that was referred to still is, and so are the orphans. -/
theorem referred_repaired {j : Nat} (hj : Referred img j ∨ j ∈ orphans img) :
    Referred (repaired img lf) j := by
  have hlf : ∀ e ∈ entries img (inode img lf) ++ (orphans img).map lostEntry,
      Referred (repaired img lf) e.inum := by
    intro e he
    refine ⟨(lf, e.inum), mem_refs.2 ⟨h.appendable.root_le, ?_, ?_, e, ?_, rfl⟩, rfl⟩
    · rw [h.superblock_eq]
      exact h.lt
    · rw [type_repaired h h.lt]
      exact h.isDir
    · rw [entries_repaired_self h]
      exact he
  rcases hj with ⟨p, hp, rfl⟩ | hj
  · obtain ⟨h₁, h₂, hd, e, he, hinum⟩ := mem_refs.1 hp
    by_cases hne : p.1 = lf
    · rw [← hinum]
      exact hlf e (List.mem_append_left _ (hne ▸ he))
    · refine ⟨p, mem_refs.2 ⟨h₁, ?_, ?_, e, ?_, hinum⟩, rfl⟩
      · rw [h.superblock_eq]
        exact h₂
      · rw [type_repaired h h₂]
        exact hd
      · rw [entries_eq_of_ne h.toSetting h.agrees h₁ h₂ hd hne]
        exact he
  · exact hlf (lostEntry j) (List.mem_append_right _ (List.mem_map_of_mem hj))

theorem orphans_repaired : orphans (repaired img lf) = [] := by
  apply List.eq_nil_iff_forall_not_mem.mpr
  intro j hj
  obtain ⟨⟨h₁, h₂⟩, h0, hnot⟩ := mem_orphans.1 hj
  rw [h.superblock_eq] at h₂
  rw [type_repaired h h₂] at h0
  apply hnot
  apply referred_repaired h
  by_cases hr : Referred img j
  · exact Or.inl hr
  · exact Or.inr (mem_orphans.2 ⟨⟨h₁, h₂⟩, h0, hr⟩)

/-- **`lost_found` is still safe to scan.** -/
theorem dirSafe_repaired_self : DirSafe (repaired img lf) lf := by
  have hes := entries_repaired_self h
  have hsafe := fun e he => h.toSetting.entrySafe h.agrees (e := e) he
  refine ⟨⟨?_, fun _ => ?_, ?_, ?_⟩, ?_, ?_⟩
  · rw [inode_repaired_self h, resize_size]
    exact h.fits
  · rw [inode_repaired_self h, resize_addr]
    exact h.block_range.1
  · rw [hes]
    exact fun e he => (hsafe e he).inum
  · rw [hes, countP_isChild_eq h.toSetting h.agrees h.isDir_repaired lf fun e he =>
      h.superblock_eq ▸ (hsafe e he).inum]
    exact h.appendable.children
  · rw [hes]
    exact fun e he => (hsafe e he).stays
  · rw [hes]
    exact fun e he => (hsafe e he).parent

theorem dirsSafe_repaired : DirsSafe (repaired img lf) := by
  intro i h₁ h₂ hd
  rw [h.superblock_eq] at h₂
  rw [type_repaired h h₂] at hd
  by_cases hne : i = lf
  · rw [hne]
    exact dirSafe_repaired_self h
  · exact dirSafe_of_ne h.toSetting h.agrees h.isDir_repaired h₁ h₂ hd hne

/-- **The second run** finds no orphan and changes nothing. -/
theorem main_repaired : ∃ msgs, main (repaired img lf) = .ok (repaired img lf, msgs) ∧
    .err .notFound ∉ msgs := by
  have hl : Layout (superblock (repaired img lf)) := by
    rw [h.superblock_eq]
    exact h.layout
  have hlt : lf < (superblock (repaired img lf)).ninodes := by
    rw [h.superblock_eq]
    exact h.lt
  have hdir : (inode (repaired img lf) lf).type = T_DIR := by
    rw [type_repaired h h.lt]
    exact h.isDir
  exact main_of_no_orphans hl (addrsOk_repaired h) (dirsSafe_repaired h)
    (by rw [lostFound_repaired h]; rfl) hlt (fun hf => absurd hf (type_ne_file_of_dir hdir))
    (orphans_repaired h)

end SecondRun

/-- The directory that is looked up is in the table, and its record is not counted down. -/
theorem WellFormed.target (hw : WellFormed img) {lf : Nat} (hlf : (lostFound img).getD 0 = lf) :
    lf < (superblock img).ninodes ∧ ((inode img lf).type = T_FILE → ¬ Referred img lf) := by
  cases hfound : lostFound img with
  | none =>
    rw [hfound] at hlf
    exact hlf ▸ ⟨hw.layout.ninodes, hw.spare hfound⟩
  | some lf' =>
    rw [hfound] at hlf
    obtain rfl : lf' = lf := hlf
    exact ⟨lostFound_lt hw.dirs hfound, fun hf => absurd hf (type_ne_file_of_dir (lostFound_spec hfound).1)⟩

/-- **The repair is as it should be** when there is room. -/
theorem repairRight_of_hasRoom (hb : (∃ lf, LostFoundDir img lf) → BlocksPass img) (hw : WellFormed img)
    (hr : HasRoom img) : RepairRight img := by
  by_cases hno : orphans img = []
  · -- nothing is written, whatever the lookup finds
    obtain ⟨hlt, hkeep⟩ := hw.target rfl
    obtain ⟨msgs, hrun, hquiet⟩ := main_of_no_orphans hw.layout hw.addrs hw.dirs rfl hlt hkeep hno
    refine ⟨?_, fun _ => ⟨msgs, hrun⟩⟩
    rintro ⟨lf, hlf⟩
    refine ⟨lf, hlf, img, msgs, hrun, ?_, fun _ _ _ _ _ => rfl, msgs, hrun, hquiet⟩
    rw [hno, List.map_nil, List.append_nil]
  · obtain ⟨lf, hfound, hdir, hfits⟩ := hr hno
    have h : Ready img lf :=
      ⟨⟨hw.layout, hb ⟨lf, hdir⟩, hw.dirs, hfound, hw.lost_found hno lf hfound⟩, hfits⟩
    obtain ⟨msgs, hrun, _⟩ := main_spec hw.layout hw.addrs hw.dirs (by rw [hfound]; rfl) h.lt
      (fun hf => absurd hf (type_ne_file_of_dir h.isDir))
      fun _ => ⟨h.appendable.block, h.toSetting.block_range.1, hfits⟩
    exact ⟨fun _ => ⟨lf, hdir, repaired img lf, msgs, hrun, entries_repaired_self h, h.agrees, main_repaired h⟩,
      fun hnone => absurd ⟨lf, hdir⟩ hnone⟩

end OstepHw.Fsck.Contest3
