import OstepHw.Fsck.Contest3Effect
import OstepHw.Fsck.Contest3Loop

/-!
# When the repair is right

* `iappend_grows`, `checkReferences_grows`, `main_grows` — whatever blocks are written, a run that ends
  has made the directory that it takes for `lost_found` longer by one entry for each orphan;
* `main_too_long` — a run does not end when a directory is longer than one block, because of the
  assertion in `read_inode_data`; so the second run does not when the entries did not fit;
* `main_ne_self`, `Repaired.lostFound_eq` — with orphans some record grows, and only that of the right
  directory may;
* `hasRoom_of_repairRight` — the repair of a well-formed image is right only if `lost_found` has room;
* `scans_of_main` — what every run needs to come to its end, on any image;
* `repair_right` — the verdict on all images.

The block that `iappend` allocates, `data_end_block`, is the last block that was checked, and belongs to
some file (`fullLostFound_not_repairRight`).
-/

set_option autoImplicit false

namespace OstepHw.Fsck.Contest3

open Loop

variable {img : Image}

/-! ## Appending, with or without room -/

/-- What `iappend` keeps of the inode it works on: the type, and the first block if there is one. -/
structure Kept (d d' : Dinode) : Prop where
  type : d'.type = d.type
  block : d.addr 0 ≠ 0 → d'.addr 0 = d.addr 0

theorem Kept.refl (d : Dinode) : Kept d d := ⟨rfl, fun _ => rfl⟩

theorem Kept.trans {d₁ d₂ d₃ : Dinode} (h : Kept d₁ d₂) (h' : Kept d₂ d₃) : Kept d₁ d₃ := by
  refine ⟨h'.type.trans h.type, fun h0 => ?_⟩
  have h₂ := h.block h0
  rw [h'.block (by rw [h₂]; exact h0), h₂]

theorem ensureAddr_kept (a : Append) (j : Nat) :
    (a.ensureAddr j).off = a.off ∧ Kept a.din (a.ensureAddr j).din := by
  unfold Append.ensureAddr
  split
  · rename_i hz
    refine ⟨rfl, rfl, fun h0 => ?_⟩
    have hj : j ≠ 0 := fun hj => h0 (hj ▸ hz)
    simp [setAddr, Dinode.addr, Ne.symm hj]
  · exact ⟨rfl, Kept.refl _⟩

theorem blockFor_kept {a a' : Append} {fbn x : Nat} (h : a.blockFor fbn = .ok (a', x)) :
    a'.off = a.off ∧ Kept a.din a'.din := by
  unfold Append.blockFor at h
  by_cases hf : fbn < NDIRECT
  · rw [if_pos hf] at h
    cases h
    exact ensureAddr_kept a fbn
  · rw [if_neg hf] at h
    simp only [bind_eq_ok] at h
    obtain ⟨_, _, h⟩ := h
    split at h <;> cases h <;> exact ensureAddr_kept a NDIRECT

/-- A loop that runs has written all bytes, below the largest file size. -/
theorem iappendLoop_grows (fuel : Nat) : ∀ {p : List UInt8} {a a' : Append}, p.length ≤ fuel →
    iappendLoop fuel p a = .ok a' →
    a'.off = a.off + p.length ∧ Kept a.din a'.din ∧ (p ≠ [] → a'.off ≤ MAXFILE * BSIZE) := by
  induction fuel with
  | zero =>
    intro p a a' hp h
    obtain rfl : p = [] := List.eq_nil_of_length_eq_zero (by omega)
    cases h
    exact ⟨rfl, Kept.refl _, fun hne => absurd rfl hne⟩
  | succ fuel ih =>
    intro p a a' hp h
    rw [iappendLoop] at h
    by_cases hne : p = []
    · rw [if_pos hne] at h
      cases h
      subst hne
      exact ⟨rfl, Kept.refl _, fun hne => absurd rfl hne⟩
    rw [if_neg hne] at h
    by_cases hmax : MAXFILE ≤ a.off / BSIZE
    · simp only [if_pos hmax] at h
      cases h
    simp only [if_neg hmax, bind_eq_ok] at h
    obtain ⟨⟨a₁, x⟩, hblock, _, _, h⟩ := h
    obtain ⟨hoff, hkept⟩ := blockFor_kept hblock
    simp only [hoff] at h
    have hlen : 0 < p.length := List.length_pos_iff.mpr hne
    -- one turn writes up to the end of the block at most
    generalize hn1 : min p.length ((a.off / BSIZE + 1) * BSIZE - a.off) = n1 at h
    have hpos : 0 < n1 ∧ n1 ≤ p.length ∧ a.off + n1 ≤ MAXFILE * BSIZE := by
      simp only [BSIZE, MAXFILE, NDIRECT, NINDIRECT] at *
      omega
    obtain ⟨hoff', hkept', hbound⟩ := ih (by rw [List.length_drop]; omega) h
    rw [List.length_drop] at hoff'
    refine ⟨by rw [hoff']; simp only; omega, hkept.trans hkept', fun _ => ?_⟩
    by_cases hrest : p.drop n1 = []
    · have hdone := congrArg List.length hrest
      rw [List.length_drop, List.length_nil] at hdone
      rw [hoff']
      simp only
      omega
    · exact hbound hrest

theorem iappend_grows {n lf : Nat} {xp : List UInt8} {r r' : Repair} (hxp : xp ≠ [])
    (h : iappend n lf xp r = .ok r') : ∃ d, r'.inodes = Function.update r.inodes lf d ∧
      Kept (r.inodes lf) d ∧ d.size = (r.inodes lf).size + xp.length ∧
      d.size ≤ MAXFILE * BSIZE := by
  unfold iappend at h
  simp only [bind_eq_ok] at h
  obtain ⟨_, _, a, hloop, h⟩ := h
  cases h
  obtain ⟨hoff, hkept, hbound⟩ := iappendLoop_grows xp.length le_rfl hloop
  exact ⟨_, rfl, ⟨hkept.type, hkept.block⟩, hoff, hbound hxp⟩

/-- After entries for the inodes of `l` were appended to `lf`, wherever they went. -/
structure Grown (img : Image) (lf : Nat) (l : List Nat) (r : Repair) : Prop where
  types : ∀ j, (r.inodes j).type = (inode img j).type
  block : (inode img lf).addr 0 ≠ 0 → (r.inodes lf).addr 0 = (inode img lf).addr 0
  size : (r.inodes lf).size = (inode img lf).size + 16 * l.length
  bound : l ≠ [] → (r.inodes lf).size ≤ MAXFILE * BSIZE

theorem Grown.printIf {lf : Nat} {l : List Nat} {r : Repair} (h : Grown img lf l r) (p : Prop)
    [Decidable p] (m : Msg) : Grown img lf l (r.printIf p m) := by
  unfold Repair.printIf
  split
  · exact ⟨h.types, h.block, h.size, h.bound⟩
  · exact h

theorem movLostFound_grows {n lf j : Nat} {l : List Nat} {r r' : Repair} (h : Grown img lf l r)
    {stderr : List Msg} (hrun : movLostFound n j lf { r with stderr := stderr } = .ok r') :
    Grown img lf (l ++ [j]) r' := by
  have hne : lostBytes j ≠ [] := List.cons_ne_nil _ _
  obtain ⟨d, hinodes, hkept, hsize, hbound⟩ := iappend_grows hne hrun
  simp only at hinodes hkept hsize
  constructor
  · intro k
    rw [hinodes]
    by_cases hk : k = lf
    · rw [hk, Function.update_self, hkept.type, h.types]
    · rw [Function.update_of_ne hk, h.types]
  · intro h0
    have hb := h.block h0
    rw [hinodes, Function.update_self, hkept.block (by rw [hb]; exact h0), hb]
  · rw [hinodes, Function.update_self, hsize, h.size, length_lostBytes, List.length_append,
      List.length_singleton]
    omega
  · intro _
    rw [hinodes, Function.update_self]
    exact hbound

/-- **One turn of the last loop**, if it runs. -/
theorem checkReferences_grows {s : Pass} {lf j : Nat} {l : List Nat} {r r' : Repair}
    (hs : PassAfter img (inums (superblock img).ninodes) s) (hlf : s.lostFoundDirInum = lf)
    (h : Grown img lf l r)
    (hrun : checkReferences s (superblock img).ninodes r j = .ok r') :
    Grown img lf (l ++ [j].filter (Orphan img)) r' := by
  have hcond : ((r.inodes j).type ≠ 0 ∧ s.tables.inodeDir j = 0) ↔ Orphan img j := by
    rw [h.types, hs.inodeDir_eq_zero, Orphan]
  unfold checkReferences at hrun
  by_cases ho : Orphan img j
  · have hfilter : [j].filter (Orphan img) = [j] := by simp [ho]
    rw [if_pos (hcond.mpr ho), hlf, bind_eq_ok] at hrun
    obtain ⟨r₁, hmov, hrun⟩ := hrun
    cases hrun
    rw [hfilter]
    exact (((movLostFound_grows h hmov).printIf _ _).printIf _ _).printIf _ _
  · have hfilter : [j].filter (Orphan img) = [] := by simp [ho]
    rw [if_neg (mt hcond.mp ho), pure_bind] at hrun
    cases hrun
    rw [hfilter, List.append_nil]
    exact ((h.printIf _ _).printIf _ _).printIf _ _

/-- **Every run** with `-r` writes back a record of `lost_found` that has grown by the entries of all
orphans. -/
theorem main_grows {img' : Image} {msgs : List Msg} (hl : Layout (superblock img))
    (haddr : AddrsOk img) (hdirs : DirsSafe img) {lf : Nat} (hlf : (lostFound img).getD 0 = lf)
    (hrun : main img = .ok (img', msgs)) :
    ∃ r : Repair, Grown img lf (orphans img) r ∧
      ∀ k < 64, img'.byte (recordAt img lf + k) = ((r.inodes lf).byte k).toNat := by
  obtain ⟨s, hcheck, hs⟩ := check_spec hl haddr hdirs
  have hlost : s.lostFoundDirInum = lf := hs.lost.trans hlf
  unfold main at hrun
  simp only [hcheck, ok_bind, bind_eq_ok] at hrun
  obtain ⟨r, hloop, r', hstore, hret⟩ := hrun
  cases hret
  have hgrown : Grown img lf (orphans img) r := by
    refine foldlM_ok_invariant (P := fun pre r => Grown img lf (pre.filter (Orphan img)) r)
      (fun pre j _ r r' _ hr hstep => ?_) ?_ hloop
    · rw [List.filter_append]
      exact checkReferences_grows hs hlost hr hstep
    · obtain ⟨k, hk⟩ := hs.sameButLinks lf
      refine ⟨fun j => hs.sameButLinks.type_eq j, fun _ => ?_, ?_, fun hne => absurd rfl hne⟩
      · show (s.tables.inodes lf).addr 0 = _
        rw [hk, relink_addr]
      · show (s.tables.inodes lf).size = _
        rw [hk, Dinode.relink, List.filter_nil, List.length_nil, Nat.mul_zero, Nat.add_zero]
  refine ⟨r, hgrown, fun k hk => ?_⟩
  unfold storeInode at hstore
  simp only [hlost, bind_eq_ok] at hstore
  obtain ⟨_, hidx, _, _, hret⟩ := hstore
  cases hret
  have hk' : k < (r.inodes lf).encode.length := by
    rw [length_encode]
    exact hk
  rw [recordAt, Region.byte_write_of_inside _ hk', getElem_encode]
  rw [length_encode, ← recordAt]
  exact recordAt_add_le hl (index_eq_ok.1 hidx)

/-! ## A directory that is too long -/

/-- The scan of a directory with more than 32 entries reaches the second block. -/
theorem checkDir_too_long {i : Nat} {s : Pass} (hl : Layout (superblock img))
    (ha : (inode img i).addr 0 < FSSIZE) (hlong : 32 < entryCount (inode img i))
    (hsafe : ∀ e ∈ entries img (inode img i), EntrySafe img i e)
    (hchildren : (entries img (inode img i)).countP (isChild (inode img) i) ≤ MAX_CHILDS)
    (hs : SameButLinks (inode img) s.tables) (hmaps : s.maps i = []) :
    checkDir img (superblock img).ninodes i (inode img i) s = .error .assertion := by
  obtain ⟨t, ht⟩ : ∃ t, entryCount (inode img i) = 32 + (t + 1) :=
    ⟨entryCount (inode img i) - 33, by omega⟩
  have hrange : List.range (entryCount (inode img i)) =
      List.range 32 ++ 32 :: (List.range t).map (33 + ·) := by
    rw [ht, List.range_add, List.range_succ_eq_map (n := t), List.map_cons, List.map_map]
    congr 2
    apply List.map_congr_left
    intro k _
    simp only [Function.comp_apply]
    omega
  have hfirst : ∀ k ∈ List.range 32, k < 32 ∧ (inode img i).addr 0 < FSSIZE ∧
      EntrySafe img i (entryAt img (inode img i) k) := by
    intro k hk
    have hk' := List.mem_range.mp hk
    exact ⟨hk', ha, hsafe _ (mem_entries.2 ⟨k, by omega, rfl⟩)⟩
  have hroom : (s.maps i).length +
      ((List.range 32).map (entryAt img (inode img i))).countP (isChild (inode img) i) ≤
        MAX_CHILDS := by
    rw [entries, hrange, List.map_append, List.countP_append] at hchildren
    rw [hmaps, List.length_nil]
    omega
  obtain ⟨s₁, hrun, _⟩ := scanDir_recorded hl (List.range 32)
    { countDots := 0, rootExist := false, dirError := false, pass := s } hs hfirst hroom
    (16 * 32 :: ((List.range t).map (33 + ·)).map (16 * ·))
  have hoffs : offsets (inode img i).size = (List.range 32).map (16 * ·) ++
      16 * 32 :: ((List.range t).map (33 + ·)).map (16 * ·) := by
    rw [offsets_size, hrange, List.map_append, List.map_cons]
  unfold checkDir
  rw [hoffs, hrun, scanDir, readInodeData_assertion le_rfl, error_bind, error_bind]

/-- The pass stops at such a directory. -/
theorem checkInode_too_long {l : List Nat} {i : Nat} {s : Pass} (hl : Layout (superblock img))
    (hd : (inode img i).type = T_DIR) (ha : (inode img i).addr 0 < FSSIZE)
    (hlong : 32 < entryCount (inode img i))
    (hsafe : ∀ e ∈ entries img (inode img i), EntrySafe img i e)
    (hchildren : (entries img (inode img i)).countP (isChild (inode img) i) ≤ MAX_CHILDS)
    (h : PassAfter img l s) (hi : i ∉ l) (s' : Pass) : checkInode img s i ≠ .ok s' := by
  intro hrun
  have hself : s.tables.inodes i = inode img i :=
    h.inodes_of_kept fun hf => absurd hf (type_ne_file_of_dir hd)
  unfold checkInode at hrun
  simp only [hself] at hrun
  rw [if_pos (type_ne_zero_of_dir hd), bind_eq_ok] at hrun
  obtain ⟨s₁, haddrs, hrun⟩ := hrun
  have h₀ : Recorded img i [] s (checkInodeType (inode img i).type s) :=
    .printIf i s _ (by decide)
  have h₁ := h₀.trans (recorded_of_checkAddresses i haddrs)
  have hmaps := h₁.maps_eq_nil (h.maps i hi) fun _ => rfl
  rw [if_pos hd, checkDir_too_long hl ha hlong hsafe hchildren
    (h₁.sameButLinks h.sameButLinks) hmaps] at hrun
  cases hrun

/-- **A run with such a directory** does not reach its end. -/
theorem main_too_long {lf : Nat} (hl : Layout (superblock img))
    (hlf : lf ∈ inums (superblock img).ninodes) (hd : (inode img lf).type = T_DIR)
    (ha : (inode img lf).addr 0 < FSSIZE) (hlong : 32 < entryCount (inode img lf))
    (hsafe : ∀ e ∈ entries img (inode img lf), EntrySafe img lf e)
    (hchildren : (entries img (inode img lf)).countP (isChild (inode img) lf) ≤ MAX_CHILDS)
    (haddr : ∀ i ∈ inums (superblock img).ninodes, i ≠ lf → (inode img i).type ≠ 0 →
      InBitmap img (inode img i))
    (hdirs : ∀ i ∈ inums (superblock img).ninodes, i ≠ lf → (inode img i).type = T_DIR →
      DirSafe img i) (r : Image × List Msg) : main img ≠ .ok r := by
  intro hrun
  unfold main check at hrun
  simp only [bind_eq_ok] at hrun
  obtain ⟨_, ⟨_, _, _, _, s, hloop, _⟩, _⟩ := hrun
  obtain ⟨pre, post, heq⟩ := List.append_of_mem hlf
  have hne : ∀ i ∈ pre, i ≠ lf := fun i hi hilf => not_mem_of_inums_eq heq (hilf ▸ hi)
  have hmem : ∀ i ∈ pre, i ∈ inums (superblock img).ninodes := fun i hi => by
    rw [heq]
    exact List.mem_append_left _ hi
  -- the pass gets as far as `lf`
  obtain ⟨s₁, hrun₁, h₁⟩ := foldlM_runs (f := checkInode img) (P := PassAfter img) (l := pre)
    (fun p i q s hpre hs => by
      have hi : i ∈ pre := by rw [hpre]; simp
      have hip : i ∉ p := by
        rw [hpre, List.append_assoc, List.cons_append] at heq
        exact not_mem_of_inums_eq heq
      exact checkInode_recorded hl (haddr i (hmem i hi) (hne i hi))
        (hdirs i (hmem i hi) (hne i hi)) hs hip)
    (passAfter_initPass img)
  rw [heq, List.foldlM_append, hrun₁, ok_bind, List.foldlM_cons, bind_eq_ok] at hloop
  obtain ⟨s₂, hstop, _⟩ := hloop
  exact checkInode_too_long hl hd ha hlong hsafe hchildren h₁ (fun hmem => hne lf hmem rfl) s₂ hstop

/-! ## No room -/

/-- The record of the directory that is looked up has grown. -/
theorem size_of_run (hw : WellFormed img) (ho : orphans img ≠ []) {lf : Nat}
    (hlf : (lostFound img).getD 0 = lf) {img' : Image} {msgs : List Msg} (hrun : main img = .ok (img', msgs)) :
    (inode img lf).size < (dinodeAt img' (recordAt img lf)).size := by
  obtain ⟨r, hr, hbytes⟩ := main_grows hw.layout hw.addrs hw.dirs hlf hrun
  have hbound := hr.bound ho
  have hsize : (dinodeAt img' (recordAt img lf)).size = (r.inodes lf).size := by
    apply size_of_bytes hbytes
    simp only [MAXFILE, NDIRECT, NINDIRECT, BSIZE] at hbound
    omega
  have hlen := List.length_pos_iff.mpr ho
  have hgrows := hr.size
  omega

/-- With orphans the image changes. -/
theorem main_ne_self (hw : WellFormed img) (ho : orphans img ≠ []) (msgs : List Msg) :
    main img ≠ .ok (img, msgs) := by
  intro hrun
  have hgrows := size_of_run hw ho rfl hrun
  rw [inode, ← recordAt] at hgrows
  exact Nat.lt_irrefl _ hgrows

/-- **Only the directory that is looked up can be repaired**: its record has grown, which the frame allows in
no other case. -/
theorem Repaired.lostFound_eq (hb : BlocksPass img) (hw : WellFormed img) (ho : orphans img ≠ []) {lf lf' : Nat}
    (hfound : lostFound img = some lf') {img' : Image} {msgs : List Msg} (hrun : main img = .ok (img', msgs))
    (hrep : Repaired img lf img') : lf' = lf := by
  by_contra hne
  have hlt := lostFound_lt hw.dirs hfound
  have hend := recordAt_add_le hw.layout hlt
  have hdata := (hw.lost_found ho lf' hfound).before_data
  have hsame : dinodeAt img' (recordAt img lf') = inode img lf' := by
    rw [inode, ← recordAt]
    apply dinodeAt_congr
    intro k hk
    have hblock : (recordAt img lf' + k) / BSIZE < dataStart (superblock img) := by
      simp only [recordAt, dinodeSize, BSIZE] at *
      omega
    refine hrep.frame _ (by omega) ?_ (hb.not_owns lf hblock) (Or.inl hblock)
    simp only [InRecord, recordAt, dinodeSize]
    omega
  have hlf : (lostFound img).getD 0 = lf' := by
    rw [hfound]
    rfl
  have hgrows := size_of_run hw ho hlf hrun
  rw [hsame] at hgrows
  exact Nat.lt_irrefl _ hgrows

section Repaired

variable {lf : Nat} {img' : Image} {msgs : List Msg} (h : Setting img lf)
  (hrun : main img = .ok (img', msgs)) (hrep : Repaired img lf img')

include h hrun hrep

/-- The record that is written back. -/
theorem record_of_run : (inode img' lf).type = T_DIR ∧ (inode img' lf).addr 0 < FSSIZE := by
  have hlost : (lostFound img).getD 0 = lf := by rw [h.found]; rfl
  obtain ⟨r, hr, hbytes⟩ := main_grows h.layout h.blocks.addrsOk h.dirs hlost hrun
  have htype : (r.inodes lf).type = T_DIR := (hr.types lf).trans h.isDir
  have haddr : (r.inodes lf).addr 0 = (inode img lf).addr 0 := hr.block h.appendable.block
  have hlt := h.block_range.1
  rw [inode, ← recordAt, recordAt_eq h hrep.frame]
  constructor
  · rw [type_of_bytes hbytes (by rw [htype]; decide), htype]
  · rw [addr_of_bytes hbytes (by decide) (by rw [haddr]; simp only [FSSIZE] at hlt; omega), haddr]
    exact hlt

/-- **The second run ends**, so `lost_found` is still in one block. -/
theorem fits_of_repaired : Fits img lf := by
  obtain ⟨hdir, hlt⟩ := record_of_run h hrun hrep
  have hes := hrep.entries
  have hsafe := fun e he => h.entrySafe hrep.frame (e := e) he
  have hsb := superblock_eq h hrep.frame
  by_contra hfull
  have hlong : 32 < entryCount (inode img' lf) := by
    obtain ⟨q, hq⟩ := h.appendable.aligned
    have hlen := congrArg List.length hes
    simp only [entries, List.length_append, List.length_map, List.length_range] at hlen
    rw [hlen]
    unfold entryCount
    simp only [Fits, BSIZE] at hfull
    omega
  obtain ⟨msgs', hagain, _⟩ := hrep.again
  refine main_too_long ?_ ?_ hdir hlt hlong ?_ ?_ ?_ ?_ _ hagain
  · rw [hsb]
    exact h.layout
  · rw [hsb]
    exact mem_inums.2 ⟨h.appendable.root_le, h.lt⟩
  · rw [hes]
    exact hsafe
  · rw [hes, countP_isChild_eq h hrep.frame hdir lf fun e he => hsb ▸ (hsafe e he).inum]
    exact h.appendable.children
  · intro i hi hne h0
    rw [hsb] at hi
    obtain ⟨h₁, h₂⟩ := mem_inums.1 hi
    rw [type_eq h hrep.frame hdir h₂] at h0
    apply inBitmap_of_lt
    rw [visited_eq_of_ne h hrep.frame h₁ h₂ h0 hne]
    exact fun a ha => (h.blocks.visited_cases h₁ h₂ h0 ha).1
  · intro i hi hne hd
    rw [hsb] at hi
    obtain ⟨h₁, h₂⟩ := mem_inums.1 hi
    rw [type_eq h hrep.frame hdir h₂] at hd
    exact dirSafe_of_ne h hrep.frame hdir h₁ h₂ hd hne

end Repaired

/-- **Room is needed**: on a well-formed image the repair is right only with it. -/
theorem hasRoom_of_repairRight (hb : (∃ lf, LostFoundDir img lf) → BlocksPass img) (hw : WellFormed img)
    (hright : RepairRight img) : HasRoom img := by
  intro ho
  by_cases hex : ∃ lf, LostFoundDir img lf
  · obtain ⟨lf, hdir, img', msgs, hrun, hrep⟩ := hright.repairs hex
    obtain ⟨lf', hfound⟩ := Option.ne_none_iff_exists'.mp hdir.lostFound_ne_none
    obtain rfl := hrep.lostFound_eq (hb hex) hw ho hfound hrun
    have h : Setting img lf' := ⟨hw.layout, hb hex, hw.dirs, hfound, hw.lost_found ho lf' hfound⟩
    exact ⟨lf', hfound, hdir, fits_of_repaired h hrun hrep⟩
  · obtain ⟨msgs, hrun⟩ := hright.leaves hex
    exact absurd hrun (main_ne_self hw ho msgs)

/-! ## What every run needs -/

/-- The image can be scanned to its end: the tables are in the image and all addresses in the bitmap, and
the directories fit, unless a `.` entry that names another directory ends their scan. -/
structure Scans (img : Image) : Prop where
  layout : Layout (superblock img)
  addrs : AddrsOk img
  dirs : ∀ i, ROOTINO ≤ i → i < (superblock img).ninodes → (inode img i).type = T_DIR →
    (∀ e ∈ entries img (inode img i), ¬ breaks i e) → DirFits img i

/-- The scan of a directory reads its entries until it leaves the loop. -/
theorem reads_of_scanDir {d : Dinode} {i n : Nat} : ∀ {l : List Nat} {s s' : Scan},
    (∀ k ∈ l, ¬ breaks i (entryAt img d k)) → scanDir img n i d (l.map (16 * ·)) s = .ok s' →
    ∀ k ∈ l, k < 32 ∧ blockOff (d.addr 0) + 16 * k + direntSize ≤ IMG_SIZE
  | [], _, _, _, _ => by simp
  | k :: l, s, s', hb, hrun => by
    rw [List.forall_mem_cons] at hb ⊢
    rw [List.map_cons, scanDir, bind_eq_ok] at hrun
    obtain ⟨de, hread, hrun⟩ := hrun
    obtain ⟨hin, hde⟩ := readInodeData_eq_ok.1 hread
    obtain rfl : de = entryAt img d k := hde
    have hrest : ∃ t, scanDir img n i d (l.map (16 * ·)) t = .ok s' := by
      split at hrun
      · rename_i hdot
        rw [if_neg fun hne => hb.1 ⟨hdot, hne⟩, bind_eq_ok] at hrun
        obtain ⟨_, _, hrun⟩ := hrun
        exact ⟨_, hrun⟩
      · split at hrun
        · split at hrun
          · rw [bind_eq_ok] at hrun
            obtain ⟨_, _, hrun⟩ := hrun
            exact ⟨_, hrun⟩
          · simp only [bind_eq_ok] at hrun
            obtain ⟨_, _, _, _, hrun⟩ := hrun
            exact ⟨_, hrun⟩
        · rw [bind_eq_ok] at hrun
          obtain ⟨_, _, hrun⟩ := hrun
          exact ⟨_, hrun⟩
    obtain ⟨t, hrest⟩ := hrest
    exact ⟨hin, reads_of_scanDir hb.2 hrest⟩

/-- Whatever entries a scan gets to, it records some of them and nothing else. -/
theorem exists_recorded_of_scanDir {d : Dinode} {i : Nat} : ∀ {offs : List Nat} {s s' : Scan},
    SameButLinks (inode img) s.pass.tables → scanDir img (superblock img).ninodes i d offs s = .ok s' →
    ∃ es, Recorded img i es s.pass s'.pass
  | [], s, s', _, hrun => by
    cases hrun
    exact ⟨[], Recorded.refl i s.pass⟩
  | off :: offs, s, s', hs, hrun => by
    rw [scanDir, bind_eq_ok] at hrun
    obtain ⟨de, _, hrun⟩ := hrun
    -- an entry that is recorded, and the rest of the scan
    have hgo : ∀ {p p' : Pass} {t : Scan}, Recorded img i [] s.pass p →
        record (superblock img).ninodes i de p = .ok p' → t.pass = p' →
        scanDir img (superblock img).ninodes i d offs t = .ok s' → ∃ es, Recorded img i es s.pass s'.pass := by
      rintro p p' t hp hrec rfl hrest
      have hp' := hp.trans (recorded_of_record (hp.sameButLinks hs) hrec).1
      obtain ⟨es, hes⟩ := exists_recorded_of_scanDir (hp'.sameButLinks hs) hrest
      exact ⟨_, hp'.trans hes⟩
    split at hrun
    · split at hrun
      · cases hrun
        exact ⟨[], Recorded.refl i s.pass⟩
      · rw [bind_eq_ok] at hrun
        obtain ⟨p', hrec, hrest⟩ := hrun
        exact hgo (Recorded.refl i s.pass) hrec rfl hrest
    · split at hrun
      · split at hrun
        · rw [bind_eq_ok] at hrun
          obtain ⟨p', hrec, hrest⟩ := hrun
          exact hgo (Recorded.refl i s.pass) hrec rfl hrest
        · simp only [bind_eq_ok] at hrun
          obtain ⟨p, hparent, p', hrec, hrest⟩ := hrun
          exact hgo (checkParent_effect hs hparent).1 hrec rfl hrest
      · rw [bind_eq_ok] at hrun
        obtain ⟨p', hrec, hrest⟩ := hrun
        exact hgo (Recorded.refl i s.pass) hrec rfl hrest

/-- What the pass keeps on any image, after the inodes of `l`. -/
structure Fresh (img : Image) (l : List Nat) (s : Pass) : Prop where
  sameButLinks : SameButLinks (inode img) s.tables
  dirs : ∀ j, (inode img j).type = T_DIR → s.tables.inodes j = inode img j
  maps : ∀ j, j ∉ l → s.maps j = []

theorem fresh_initPass (img : Image) : Fresh img [] (initPass img) :=
  ⟨sameButLinks_initState img, fun _ _ => rfl, fun _ _ => rfl⟩

theorem Fresh.recorded {l : List Nat} {i : Nat} {es : List Dirent} {s s' : Pass} (h : Fresh img l s)
    (hr : Recorded img i es s s') : Fresh img (l ++ [i]) s' := by
  refine ⟨hr.sameButLinks h.sameButLinks, fun j hj => ?_, fun j hj => ?_⟩
  · rw [hr.tables, referAll_inodes_of_kept h.sameButLinks fun hf => absurd hf (type_ne_file_of_dir hj)]
    exact h.dirs j hj
  · simp only [List.mem_append, List.mem_singleton, not_or] at hj
    exact hr.maps_eq_nil (h.maps j hj.1) fun hji => absurd hji hj.2

/-- A directory whose scan ends without leaving the loop fits. -/
theorem dirFits_of_checkDir {i : Nat} {s s' : Pass} (hs : SameButLinks (inode img) s.tables)
    (hmaps : s.maps i = []) (ha : InBitmap img (inode img i))
    (hb : ∀ e ∈ entries img (inode img i), ¬ breaks i e)
    (hrun : checkDir img (superblock img).ninodes i (inode img i) s = .ok s') : DirFits img i := by
  unfold checkDir at hrun
  rw [offsets_size, bind_eq_ok] at hrun
  obtain ⟨t, hscan, _⟩ := hrun
  have hstays : ∀ k ∈ List.range (entryCount (inode img i)), ¬ breaks i (entryAt img (inode img i) k) :=
    fun k hk => hb _ (mem_entries.2 ⟨k, List.mem_range.1 hk, rfl⟩)
  have hreads := reads_of_scanDir hstays hscan
  have hblock : 0 < entryCount (inode img i) → (inode img i).addr 0 < FSSIZE := by
    intro hpos
    have hin := (hreads 0 (List.mem_range.2 hpos)).2
    have hlt := ha.visited _ (addr_zero_mem_visited img _)
    rw [blockOff] at hin
    simp only [NBMAP, FSSIZE, BSIZE, IMG_SIZE, direntSize] at *
    omega
  have hlen : entryCount (inode img i) ≤ 32 := by
    by_contra hlong
    have := (hreads 32 (List.mem_range.2 (by omega))).1
    omega
  rw [scanDir_eq_foldlM fun k hk => ⟨(hreads k hk).1, hblock (by have := List.mem_range.1 hk; omega),
    hstays k hk⟩, ← entries] at hscan
  obtain ⟨hfits, _⟩ := (scan_entries_ok_iff hs hmaps (List.append_nil _).symm (scanned_nil i s)).1 ⟨t, hscan⟩
  exact ⟨entryCount_le.1 hlen, hblock, hfits.inums, hfits.children⟩

/-- **One turn of the inode loop**, on any image. -/
theorem checkInode_needs {l : List Nat} {i : Nat} {s s' : Pass} (h : Fresh img l s) (hi : i ∉ l)
    (hrun : checkInode img s i = .ok s') : Fresh img (l ++ [i]) s' ∧
      ((inode img i).type ≠ 0 → InBitmap img (inode img i)) ∧
      ((inode img i).type = T_DIR → (∀ e ∈ entries img (inode img i), ¬ breaks i e) → DirFits img i) := by
  by_cases hd : (inode img i).type = T_DIR
  · rw [checkInode_of_dir (h.dirs i hd) hd, bind_eq_ok] at hrun
    obtain ⟨s₁, haddrs, hrun⟩ := hrun
    have hbitmap := checkAddresses_ok_iff.1 ⟨s₁, haddrs⟩
    obtain ⟨h₁, _⟩ := checked_addresses haddrs
    have hs₁ := h₁.sameButLinks h.sameButLinks
    have hmaps := h₁.maps_eq_nil (h.maps i hi) fun _ => rfl
    refine ⟨?_, fun _ => hbitmap, fun _ hb => dirFits_of_checkDir hs₁ hmaps hbitmap hb hrun⟩
    unfold checkDir at hrun
    rw [bind_eq_ok] at hrun
    obtain ⟨t, hscan, hrun⟩ := hrun
    cases hrun
    obtain ⟨es, hes⟩ := exists_recorded_of_scanDir (s := ⟨0, false, false, s₁⟩) hs₁ hscan
    exact h.recorded (h₁.trans (Recorded.final hes))
  · rw [checkInode_of_not_dir h.sameButLinks hd] at hrun
    split at hrun
    · exact ⟨h.recorded (checked_addresses hrun).1, fun _ => checkAddresses_ok_iff.1 ⟨s', hrun⟩,
        fun h => absurd h hd⟩
    · rename_i h0
      obtain rfl := Except.ok.inj hrun
      exact ⟨h.recorded (recorded_checkInodeType _ s), fun hne => absurd hne h0, fun h => absurd h hd⟩

/-- **Every run** that comes to its end has scanned such an image. -/
theorem scans_of_main {r : Image × List Msg} (hrun : main img = .ok r) : Scans img := by
  unfold main check at hrun
  simp only [bind_eq_ok] at hrun
  obtain ⟨s, ⟨_, htable, _, hbmap, s₁, hloop, hbitmap⟩, _, _, _, hstore, _⟩ := hrun
  have hinv := foldlM_ok_invariant (P := fun pre s => Fresh img pre s ∧ ∀ i ∈ pre,
      ((inode img i).type ≠ 0 → InBitmap img (inode img i)) ∧
      ((inode img i).type = T_DIR → (∀ e ∈ entries img (inode img i), ¬ breaks i e) → DirFits img i))
    (fun pre i post s s' heq hpre hstep => by
      obtain ⟨hfresh, hneeds⟩ := checkInode_needs hpre.1 (not_mem_of_inums_eq heq) hstep
      rw [List.forall_mem_append, List.forall_mem_singleton]
      exact ⟨hfresh, hpre.2, hneeds⟩)
    ⟨fresh_initPass img, by simp⟩ hloop
  refine ⟨⟨?_, memmove_eq_ok.1 htable, memmove_eq_ok.1 hbmap, ?_⟩,
    fun i h₁ h₂ => (hinv.2 i (mem_inums.2 ⟨h₁, h₂⟩)).1, fun i h₁ h₂ => (hinv.2 i (mem_inums.2 ⟨h₁, h₂⟩)).2⟩
  · unfold storeInode at hstore
    rw [bind_eq_ok] at hstore
    obtain ⟨_, hidx, _⟩ := hstore
    have := index_eq_ok.1 hidx
    omega
  · unfold checkBitmap at hbitmap
    split at hbitmap
    · cases hbitmap
    · omega

/-- A root directory with one sub-directory of the given size, inode 2 in block 60, called `lost_found` and the
given suffix, and a file that no directory names, inode 3 in block 61. -/
def orphanWords (size suffix : Nat) : List (Nat × Nat) :=
  superblockWords 8 ++ [(16448, 1), (16452, 65536), (16456, 48), (16460, 59),
    (16512, 1), (16516, 65536), (16520, size), (16524, 60), (16576, 2), (16584, 512), (16588, 61),
    (29696, 0xffffffff), (29700, 0x3fffffff), (30208, 0x002e0001), (30224, 0x2e2e0001),
    (30240, 0x6f6c0002), (30244, 0x665f7473), (30248, 0x646e756f), (30252, suffix), (30720, 0x002e0002),
    (30736, 0x2e2e0001)]

/-- `lost_found` has its two first entries only. -/
def roomyLostFound : Image := ofWords (orphanWords 32 0)

/-- `lost_found` fills its block. -/
def fullLostFound : Image := ofWords (orphanWords 512 0)

/-- There is a directory `lost_found2`, and no `lost_found`. -/
def lostFound2 : Image := ofWords (orphanWords 32 0x32)

/-- What the verdicts on the images need to know of them.  In the second one the entry goes to block 61,
the first block of the file that is to be saved. -/
theorem lostFound_facts : (BlocksPass roomyLostFound ∧ WellFormed roomyLostFound ∧ HasRoom roomyLostFound ∧
      orphans roomyLostFound = [3]) ∧
    (BlocksPass fullLostFound ∧ WellFormed fullLostFound ∧ LostFoundDir fullLostFound 2 ∧
      ¬ HasRoom fullLostFound ∧ (inode fullLostFound 3).addr 0 = 61 ∧ fullLostFound.byte 31232 = 0 ∧
      (main fullLostFound).toOption.map (fun r => (r.1.byte 31232, r.2)) = some (3, [.err .notFound])) ∧
    WellFormed lostFound2 ∧ orphans lostFound2 ≠ [] ∧
    ∀ i ∈ inums (superblock lostFound2).ninodes, ∀ e ∈ entries lostFound2 (inode lostFound2 i),
      e.cname ≠ targetDirStr := by
  decide +kernel

end OstepHw.Fsck.Contest3
