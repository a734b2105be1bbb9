import OstepHw.Fsck.Misread

/-!
# The directory loop of contest 3

A failed check does not end the loop of `xcheck_contest_3.c`, but it must be able to go on: `Clear`
collects what it needs for one inode, addresses inside the bitmap, entries that fit, and a walk from the
parent that ends.

* `inode_loop_ok_iff`, `scanInodes_ok_iff` — the loop comes to its end iff all inodes are clear;
* `scanInodes_stderr_iff` — it has then reported an inaccessible directory iff the message is due in
  one (`Prints`);
* `reports_iff` — the message is printed, before the end or not, iff the loop gets to a `..` entry where
  it is due.
-/

set_option autoImplicit false

namespace OstepHw.Fsck.Contest3

open Loop Climb
open Contest (Tree DirShape parent beforeParent checksParent)

variable {img : Image}

/-! ## Addresses -/

/-- The address checks print other messages. -/
theorem checkAddress_reports {addr : Nat} {direct : Bool} {ds : Nat} {bm : Nat → Nat} {s s' : Pass}
    (h : checkAddress addr direct ds bm s = .ok s') :
    .inaccessible ∈ s'.stderr ↔ .inaccessible ∈ s.stderr := by
  unfold checkAddress at h
  by_cases h0 : addr = 0
  · simp only [if_pos h0] at h
    cases h
    exact mem_printIf s _ (by simp)
  · simp only [if_neg h0, bind_eq_ok] at h
    obtain ⟨_, _, h⟩ := h
    cases h
    rw [mem_printIf _ _ (by simp), mem_printIf _ _ (by simp), mem_printIf s _ (by simp)]

theorem check_list_reports {α : Type} {addr : α → Nat} {direct : Bool} {ds : Nat} {bm : Nat → Nat}
    {l : List α} {s s' : Pass}
    (h : l.foldlM (fun s a => checkAddress (addr a) direct ds bm s) s = .ok s') :
    .inaccessible ∈ s'.stderr ↔ .inaccessible ∈ s.stderr :=
  foldlM_ok_invariant (P := fun _ (s' : Pass) => .inaccessible ∈ s'.stderr ↔ .inaccessible ∈ s.stderr)
    (fun _ _ _ _ _ _ hs hrun => (checkAddress_reports hrun).trans hs) Iff.rfl h

theorem checkAddresses_reports {ds : Nat} {bm : Nat → Nat} {d : Dinode} {s s' : Pass}
    (h : checkAddresses img ds bm d s = .ok s') :
    .inaccessible ∈ s'.stderr ↔ .inaccessible ∈ s.stderr := by
  rw [checkAddresses_eq] at h
  simp only [bind_eq_ok] at h
  obtain ⟨s₁, h₁, s₂, h₂, _, _, h₃⟩ := h
  rw [check_list_reports h₃, checkAddress_reports h₂, check_list_reports h₁]

/-! ## One entry -/

/-- The entry names an inode of the table and `maps[i]` has room for it. -/
def RoomFor (img : Image) (i : Nat) (s : Pass) (e : Dirent) : Prop :=
  e.inum < (superblock img).ninodes ∧
    (isChild (inode img) i e = true → (s.maps i).length < MAX_CHILDS)

theorem record_ok_iff {i : Nat} {s : Pass} {e : Dirent} (hs : SameButLinks (inode img) s.tables) :
    (∃ s', record (superblock img).ninodes i e s = .ok s') ↔ RoomFor img i s e := by
  constructor
  · rintro ⟨s', hrun⟩
    unfold record at hrun
    rw [bind_eq_ok] at hrun
    obtain ⟨_, hidx, hrun⟩ := hrun
    refine ⟨index_eq_ok.1 hidx, fun hc => ?_⟩
    simp only [isChild_congr hs, hc, if_true, bind_eq_ok] at hrun
    obtain ⟨_, hroom, _⟩ := hrun
    exact index_eq_ok.1 hroom
  · rintro ⟨hn, hroom⟩
    obtain ⟨s', hrun, _⟩ := record_recorded hs hn hroom
    exact ⟨s', hrun⟩

/-- What recording an entry leaves behind. -/
theorem recorded_of_record {i : Nat} {s s' : Pass} {e : Dirent}
    (hs : SameButLinks (inode img) s.tables) (hrun : record (superblock img).ninodes i e s = .ok s') :
    Recorded img i [e] s s' ∧ s'.stderr = s.stderr := by
  obtain ⟨hn, hroom⟩ := (record_ok_iff hs).1 ⟨s', hrun⟩
  obtain ⟨s'', hrun', hrec⟩ := record_recorded hs hn hroom
  rw [hrun] at hrun'
  cases hrun'
  refine ⟨hrec, ?_⟩
  unfold record at hrun
  rw [bind_eq_ok] at hrun
  obtain ⟨_, _, hrun⟩ := hrun
  dsimp only at hrun
  split at hrun
  · rw [bind_eq_ok] at hrun
    obtain ⟨_, _, hrun⟩ := hrun
    cases hrun
    rfl
  · cases hrun
    rfl

/-- The branch for `..` comes to its end iff the walk does. -/
theorem checkParent_ok_iff {i : Nat} {s : Pass} {e : Dirent}
    (hs : SameButLinks (inode img) s.tables) (he : e.inum < 2 ^ 16) :
    (∃ s', checkParent img (superblock img).ninodes i e s = .ok s') ↔
      e.inum < (superblock img).ninodes ∧ WalkEnds img e.inum := by
  rw [← within_traceFuel_iff he, ← traceParent_ok_iff hs]
  unfold checkParent
  simp only [bind_eq_ok, index_eq_ok, exists_const, printIf_tables, pure, Except.pure,
    Except.ok.injEq, exists_and_left]
  refine and_congr_right fun _ => ?_
  constructor
  · rintro ⟨s', printed, h, _⟩
    exact ⟨printed, h⟩
  · rintro ⟨printed, h⟩
    exact ⟨_, printed, h, rfl⟩

theorem checkParent_effect {i : Nat} {s s' : Pass} {e : Dirent}
    (hs : SameButLinks (inode img) s.tables)
    (hrun : checkParent img (superblock img).ninodes i e s = .ok s') :
    Recorded img i [] s s' ∧
      (.inaccessible ∈ s'.stderr ↔ .inaccessible ∈ s.stderr ∨ Meets img i e.inum) := by
  unfold checkParent at hrun
  simp only [bind_eq_ok, printIf_tables] at hrun
  obtain ⟨_, _, printed, htrace, hrun⟩ := hrun
  cases hrun
  constructor
  · refine .of_fields i rfl (printIf_maps s _ _) (printIf_lost s _ _) fun hmem => ?_
    rcases List.mem_append.1 hmem with hmem | hmem
    · exact (mem_printIf s _ (by simp)).1 hmem
    · cases traceParent_prints_only hs htrace _ hmem
  · rw [List.mem_append, mem_printIf s _ (by simp), traceParent_prints_iff hs htrace]

/-! ## One directory -/

theorem parentStep_ok_iff {i : Nat} {s : Pass} {e : Dirent} (hs : SameButLinks (inode img) s.tables)
    (he : e.inum < 2 ^ 16) :
    (∃ s', parentStep img i s e = .ok s') ↔
      (checksParent i e → e.inum < (superblock img).ninodes ∧ WalkEnds img e.inum) := by
  unfold parentStep
  by_cases hc : checksParent i e
  · rw [if_pos hc, checkParent_ok_iff hs he]
    simp only [hc, true_implies]
  · simp [hc]

theorem parentStep_effect {i : Nat} {s s' : Pass} {e : Dirent}
    (hs : SameButLinks (inode img) s.tables) (hrun : parentStep img i s e = .ok s') :
    Recorded img i [] s s' ∧ (.inaccessible ∈ s'.stderr ↔
      .inaccessible ∈ s.stderr ∨ (checksParent i e ∧ Meets img i e.inum)) := by
  unfold parentStep at hrun
  by_cases hc : checksParent i e
  · rw [if_pos hc] at hrun
    simpa only [hc, true_and] using checkParent_effect hs hrun
  · rw [if_neg hc] at hrun
    cases hrun
    exact ⟨Recorded.refl i s, by simp [hc]⟩

/-- The scan has gone through the entries `es` of directory `i`, from `s₀` on. -/
structure Scanned (img : Image) (i : Nat) (s₀ : Pass) (es : List Dirent) (s : Scan) : Prop where
  dirError : s.dirError = false
  recorded : Recorded img i es s₀ s.pass
  reports : .inaccessible ∈ s.pass.stderr ↔
    .inaccessible ∈ s₀.stderr ∨ ∃ e ∈ es, checksParent i e ∧ Meets img i e.inum

theorem scanStep_ok_iff {i : Nat} {s : Scan} {e : Dirent}
    (hs : SameButLinks (inode img) s.pass.tables) (he : e.inum < 2 ^ 16) :
    (∃ s', scanStep img i s e = .ok s') ↔
      (checksParent i e → WalkEnds img e.inum) ∧ RoomFor img i s.pass e := by
  have hroom : ∀ {p : Pass}, Recorded img i [] s.pass p →
      (RoomFor img i p e ↔ RoomFor img i s.pass e) := fun hp => by
    have hlen := hp.children i
    rw [List.countP_nil, ite_self, Nat.add_zero] at hlen
    rw [RoomFor, RoomFor, hlen]
  unfold scanStep
  constructor
  · rintro ⟨s', hrun⟩
    rw [bind_eq_ok] at hrun
    obtain ⟨p, hp, hrun⟩ := hrun
    rw [bind_eq_ok] at hrun
    obtain ⟨p', hp', _⟩ := hrun
    obtain ⟨hrec, _⟩ := parentStep_effect hs hp
    exact ⟨fun hc => ((parentStep_ok_iff hs he).1 ⟨p, hp⟩ hc).2,
      (hroom hrec).1 ((record_ok_iff (hrec.sameButLinks hs)).1 ⟨p', hp'⟩)⟩
  · rintro ⟨hwalk, hfits⟩
    obtain ⟨p, hp⟩ := (parentStep_ok_iff (i := i) hs he).2 fun hc => ⟨hfits.1, hwalk hc⟩
    obtain ⟨hrec, _⟩ := parentStep_effect hs hp
    obtain ⟨p', hp'⟩ := (record_ok_iff (hrec.sameButLinks hs)).2 ((hroom hrec).2 hfits)
    rw [hp, ok_bind, hp', ok_bind]
    exact ⟨_, rfl⟩

theorem scanStep_scanned {i : Nat} {s₀ : Pass} {es : List Dirent} {s s' : Scan} {e : Dirent}
    (hs : SameButLinks (inode img) s₀.tables) (h : Scanned img i s₀ es s)
    (hrun : scanStep img i s e = .ok s') : Scanned img i s₀ (es ++ [e]) s' := by
  have hs₁ := h.recorded.sameButLinks hs
  unfold scanStep at hrun
  rw [bind_eq_ok] at hrun
  obtain ⟨p, hp, hrun⟩ := hrun
  rw [bind_eq_ok] at hrun
  obtain ⟨p', hp', hrun⟩ := hrun
  cases hrun
  obtain ⟨hrec, hprint⟩ := parentStep_effect hs₁ hp
  obtain ⟨hrec', hstderr⟩ := recorded_of_record (hrec.sameButLinks hs₁) hp'
  refine ⟨h.dirError, h.recorded.trans (hrec.trans hrec'), ?_⟩
  rw [hstderr, hprint, h.reports, or_assoc]
  simp only [List.mem_append, List.mem_singleton, or_and_right, exists_or, exists_eq_left]

/-- Over entries of the first block that do not leave the loop, the scan is the loop of its body. -/
theorem scanDir_eq_foldlM {d : Dinode} {i : Nat} :
    ∀ {l : List Nat} {s : Scan}, (∀ k ∈ l, k < 32 ∧ d.addr 0 < FSSIZE ∧ ¬ breaks i (entryAt img d k)) →
      scanDir img (superblock img).ninodes i d (l.map (16 * ·)) s =
        (l.map (entryAt img d)).foldlM (scanStep img i) s
  | [], _, _ => rfl
  | k :: l, s, hl => by
    rw [List.forall_mem_cons] at hl
    obtain ⟨⟨hk, ha, hb⟩, hl⟩ := hl
    rw [List.map_cons, scanDir_cons ha hk hb, List.map_cons, List.foldlM_cons]
    congr 1
    funext s'
    exact scanDir_eq_foldlM hl

/-- The entries of a directory whose `.` entry names it are such entries. -/
theorem DirShape.readable {i k : Nat} (hi : DirShape img i) (hk : k < entryCount (inode img i)) :
    k < 32 ∧ (inode img i).addr 0 < FSSIZE ∧ ¬ breaks i (entryAt img (inode img i) k) := by
  have hlen := entryCount_le.2 hi.size
  exact ⟨by omega, hi.block, fun hb => hb.2 (hi.self _ (mem_entries.2 ⟨k, hk, rfl⟩) hb.1)⟩

theorem entry_inum_lt {d : Dinode} {e : Dirent} (he : e ∈ entries img d) : e.inum < 2 ^ 16 := by
  obtain ⟨k, _, rfl⟩ := mem_entries.1 he
  exact Region.u16_lt _ _

/-- The message is due at the `..` of directory `i`. -/
structure Prints (img : Image) (i : Nat) : Prop where
  dir : IsDir img i
  ne_root : i ≠ ROOTINO
  meets : Meets img i (parent img i)

section Directory

variable {i : Nat} {s₀ : Pass}

/-- The `..` of every directory but the root is checked, and nothing else. -/
theorem exists_checksParent_iff (hi : DirShape img i) (hroot : i = ROOTINO → parent img i = ROOTINO)
    {P : Nat → Prop} :
    (∃ e ∈ entries img (inode img i), checksParent i e ∧ P e.inum) ↔
      i ≠ ROOTINO ∧ P (parent img i) := by
  constructor
  · rintro ⟨e, he, hc, hp⟩
    obtain ⟨hdd, hne⟩ := (Contest.checksParent_iff hi hroot he).1 hc
    exact ⟨hne, Contest.parent_eq_of_mem hi he hdd ▸ hp⟩
  · rintro ⟨hne, hp⟩
    obtain ⟨dd, post, hsplit⟩ := hi.split
    have hmem : dd ∈ entries img (inode img i) := by rw [hsplit.eq]; simp
    exact ⟨dd, hmem, (Contest.checksParent_iff hi hroot hmem).2 ⟨hsplit.isDotDot, hne⟩,
      hsplit.inum.symm ▸ hp⟩

theorem scanned_nil (i : Nat) (s : Pass) : Scanned img i s []
    { countDots := 0, rootExist := false, dirError := false, pass := s } :=
  ⟨rfl, Recorded.refl i s, by simp⟩

/-- The scan of directory `i` as `checkDir` begins it. -/
theorem scanDir_start (hi : DirShape img i) (s : Scan) :
    scanDir img (superblock img).ninodes i (inode img i) (offsets (inode img i).size) s =
      (entries img (inode img i)).foldlM (scanStep img i) s :=
  scanDir_eq_foldlM fun _ hk => DirShape.readable hi (List.mem_range.1 hk)

/-- The scan of `es`, the entries of directory `i` up to some point. -/
theorem scan_entries_ok_iff (hs : SameButLinks (inode img) s₀.tables) (hmaps : s₀.maps i = [])
    {es rest : List Dirent} (hes : entries img (inode img i) = es ++ rest) {s : Scan}
    (h : Scanned img i s₀ [] s) :
    (∃ s', es.foldlM (scanStep img i) s = .ok s') ↔
      Contest.Fits img i es ∧ ∀ e ∈ es, checksParent i e → WalkEnds img e.inum := by
  rw [foldlM_runs_iff (P := Scanned img i s₀) (C := fun pre e =>
    (checksParent i e → WalkEnds img e.inum) ∧ e.inum < (superblock img).ninodes ∧
      (isChild (inode img) i e = true → (Contest.children img i pre).length < MAX_CHILDS))
    (fun pre e post s heq hs₁ => ?_) (fun _ _ _ _ _ _ hs₁ hrun => scanStep_scanned hs hs₁ hrun) h,
    Contest.fits_iff_room]
  · constructor
    · intro hall
      refine ⟨fun pre e post heq => (hall pre e post heq).2, fun e he => ?_⟩
      obtain ⟨pre, post, heq⟩ := List.append_of_mem he
      exact (hall pre e post heq).1
    · rintro ⟨hfits, hwalk⟩ pre e post heq
      exact ⟨hwalk e (by rw [heq]; simp), hfits pre e post heq⟩
  · have hlen := hs₁.recorded.children i
    rw [hmaps, List.length_nil, Nat.zero_add, if_pos rfl, ← Contest.length_children] at hlen
    have he : e ∈ entries img (inode img i) := by rw [hes, heq]; simp
    rw [scanStep_ok_iff (hs₁.recorded.sameButLinks hs) (entry_inum_lt he), RoomFor, hlen]

theorem scan_entries_scanned (hs : SameButLinks (inode img) s₀.tables) {es : List Dirent}
    {s s' : Scan} (h : Scanned img i s₀ [] s) (hrun : es.foldlM (scanStep img i) s = .ok s') :
    Scanned img i s₀ es s' :=
  foldlM_ok_invariant (fun _ _ _ _ _ _ hs₁ hrun => scanStep_scanned hs hs₁ hrun) h hrun

/-- **One directory** is scanned to its end iff its entries fit and the walk from its parent ends. -/
theorem checkDir_ok_iff (hi : DirShape img i) (hroot : i = ROOTINO → parent img i = ROOTINO)
    (hs : SameButLinks (inode img) s₀.tables) (hmaps : s₀.maps i = []) :
    (∃ s, checkDir img (superblock img).ninodes i (inode img i) s₀ = .ok s) ↔
      Contest.Fits img i (entries img (inode img i)) ∧
        (i ≠ ROOTINO → WalkEnds img (parent img i)) := by
  have hwalk : (∀ e ∈ entries img (inode img i), checksParent i e → WalkEnds img e.inum) ↔
      (i ≠ ROOTINO → WalkEnds img (parent img i)) := by
    have := not_congr (exists_checksParent_iff hi hroot (P := fun p => ¬ WalkEnds img p))
    simpa only [not_exists, not_and, not_not] using this
  rw [← hwalk, ← scan_entries_ok_iff hs hmaps (List.append_nil _).symm (scanned_nil i s₀)]
  unfold checkDir
  rw [scanDir_start hi]
  constructor
  · rintro ⟨s, hrun⟩
    rw [bind_eq_ok] at hrun
    obtain ⟨s', hs', _⟩ := hrun
    exact ⟨s', hs'⟩
  · rintro ⟨s', hs'⟩
    rw [hs', ok_bind]
    exact ⟨_, rfl⟩

theorem checkDir_effect (hi : DirShape img i) (hs : SameButLinks (inode img) s₀.tables) {s : Pass}
    (hrun : checkDir img (superblock img).ninodes i (inode img i) s₀ = .ok s) :
    Recorded img i (entries img (inode img i)) s₀ s ∧ (.inaccessible ∈ s.stderr ↔
      .inaccessible ∈ s₀.stderr ∨
        ∃ e ∈ entries img (inode img i), checksParent i e ∧ Meets img i e.inum) := by
  unfold checkDir at hrun
  rw [scanDir_start hi, bind_eq_ok] at hrun
  obtain ⟨s', hs', hrun⟩ := hrun
  cases hrun
  have hscan := scan_entries_scanned hs (scanned_nil i s₀) hs'
  constructor
  · exact hscan.recorded.final
  · rw [mem_printIf _ _ (by decide), mem_printIf _ _ (by decide), hscan.reports]

end Directory

/-! ## One inode -/

/-- What the loop needs for inode `i`: its addresses stay in the bitmap, the entries of a directory fit,
and the walk from its parent ends. -/
structure Clear (img : Image) (i : Nat) : Prop where
  addresses : (inode img i).type ≠ 0 → InBitmap img (inode img i)
  fits : (inode img i).type = T_DIR → Contest.Fits img i (entries img (inode img i))
  walk : IsDir img i → i ≠ ROOTINO → WalkEnds img (parent img i)

section Turn

variable {l : List Nat} {i : Nat} {s s' : Pass}

theorem checkInode_of_not_dir (h : SameButLinks (inode img) s.tables) (hd : (inode img i).type ≠ T_DIR) :
    checkInode img s i = if (inode img i).type ≠ 0 then
        checkAddresses img (dataStart (superblock img)) (bmap img) (inode img i)
          (checkInodeType (inode img i).type s)
      else .ok (checkInodeType (inode img i).type s) := by
  obtain ⟨k, hk⟩ := h i
  unfold checkInode
  simp only [hk, relink_type, checkAddresses_relink, if_neg hd, bind_pure]
  rfl

/-- A directory inode is as it was in the image when its turn comes. -/
theorem inode_of_dir (h : PassAfter img l s) (hd : (inode img i).type = T_DIR) :
    s.tables.inodes i = inode img i :=
  h.inodes_of_kept fun hf => absurd hf (type_ne_file_of_dir hd)

theorem checkInode_of_dir (h : s.tables.inodes i = inode img i) (hd : (inode img i).type = T_DIR) :
    checkInode img s i =
      checkAddresses img (dataStart (superblock img)) (bmap img) (inode img i)
          (checkInodeType (inode img i).type s) >>=
        checkDir img (superblock img).ninodes i (inode img i) := by
  unfold checkInode
  simp only [h, if_pos hd, if_pos (type_ne_zero_of_dir hd)]

theorem checkInodeType_reports (type : Int) (s : Pass) :
    .inaccessible ∈ (checkInodeType type s).stderr ↔ .inaccessible ∈ s.stderr :=
  mem_printIf s _ (by simp)

theorem recorded_checkInodeType (type : Int) (s : Pass) :
    Recorded img i [] s (checkInodeType type s) := .printIf i s _ (by decide)

/-- Between the start of a turn and the scan only addresses are checked. -/
theorem checked_addresses (h : checkAddresses img (dataStart (superblock img)) (bmap img) (inode img i)
      (checkInodeType (inode img i).type s) = .ok s') :
    Recorded img i [] s s' ∧ (.inaccessible ∈ s'.stderr ↔ .inaccessible ∈ s.stderr) := by
  refine ⟨(recorded_checkInodeType _ s).trans (recorded_of_checkAddresses i h), ?_⟩
  rw [checkAddresses_reports h, checkInodeType_reports]

/-- Nothing is recorded for directory `i` before its turn. -/
theorem PassAfter.maps_nil (hs : PassAfter img (inums i) s) (h : Recorded img i [] s s') :
    s'.maps i = [] :=
  h.maps_eq_nil (hs.maps i (Contest.not_mem_inums_self i)) fun _ => rfl

/-- **One turn** comes to its end iff the inode is clear. -/
theorem checkInode_ok_iff (ht : Tree img) (h₁ : ROOTINO ≤ i) (h₂ : i < (superblock img).ninodes)
    (hs : PassAfter img (inums i) s) : (∃ s', checkInode img s i = .ok s') ↔ Clear img i := by
  by_cases hd : (inode img i).type = T_DIR
  · have hi : IsDir img i := ⟨h₁, h₂, hd⟩
    have hdir : ∀ {s'}, Recorded img i [] s s' →
        ((∃ s'', checkDir img (superblock img).ninodes i (inode img i) s' = .ok s'') ↔ _) := fun hrec =>
      checkDir_ok_iff (ht.shape i hi) ht.root_of_eq (hrec.sameButLinks hs.sameButLinks)
        (hs.maps_nil hrec)
    rw [checkInode_of_dir (inode_of_dir hs hd) hd]
    constructor
    · rintro ⟨s', hrun⟩
      rw [bind_eq_ok] at hrun
      obtain ⟨s₁, haddr, hrun⟩ := hrun
      obtain ⟨hfits, hwalk⟩ := (hdir (checked_addresses haddr).1).1 ⟨s', hrun⟩
      exact ⟨fun _ => checkAddresses_ok_iff.1 ⟨s₁, haddr⟩, fun _ => hfits, fun _ => hwalk⟩
    · intro hclear
      obtain ⟨s₁, haddr⟩ := checkAddresses_ok_iff.2 (hclear.addresses (type_ne_zero_of_dir hd))
      rw [haddr, ok_bind]
      exact (hdir (checked_addresses haddr).1).2 ⟨hclear.fits hd, hclear.walk hi⟩
  · rw [checkInode_of_not_dir hs.sameButLinks hd]
    constructor
    · rintro ⟨s', hrun⟩
      refine ⟨fun h0 => ?_, fun h => absurd h hd, fun h => absurd h.2.2 hd⟩
      rw [if_pos h0] at hrun
      exact checkAddresses_ok_iff.1 ⟨s', hrun⟩
    · intro hclear
      by_cases h0 : (inode img i).type ≠ 0
      · rw [if_pos h0]
        exact checkAddresses_ok_iff.2 (hclear.addresses h0)
      · rw [if_neg h0]
        exact ⟨_, rfl⟩

/-- What one turn leaves behind. -/
theorem checkInode_effect (ht : Tree img) (h₁ : ROOTINO ≤ i) (h₂ : i < (superblock img).ninodes)
    (hs : PassAfter img (inums i) s) (hrun : checkInode img s i = .ok s') :
    PassAfter img (inums i ++ [i]) s' ∧
      (.inaccessible ∈ s'.stderr ↔ .inaccessible ∈ s.stderr ∨ Prints img i) := by
  by_cases hd : (inode img i).type = T_DIR
  · have hi : IsDir img i := ⟨h₁, h₂, hd⟩
    rw [checkInode_of_dir (inode_of_dir hs hd) hd, bind_eq_ok] at hrun
    obtain ⟨s₁, haddr, hrun⟩ := hrun
    obtain ⟨hrec, hsame⟩ := checked_addresses haddr
    obtain ⟨hrec', hprint⟩ :=
      checkDir_effect (ht.shape i hi) (hrec.sameButLinks hs.sameButLinks) hrun
    refine ⟨hs.snoc (hrec.trans hrec') ?_ ?_, ?_⟩
    · rw [refsOf, if_pos hd]
      rfl
    · rw [lostFoundsOf, if_pos hd]
      rfl
    · have hmeets := exists_checksParent_iff (ht.shape i hi) ht.root_of_eq (P := Meets img i)
      have hprints : Prints img i ↔ i ≠ ROOTINO ∧ Meets img i (parent img i) :=
        ⟨fun h => ⟨h.ne_root, h.meets⟩, fun h => ⟨hi, h.1, h.2⟩⟩
      rw [hprint, hsame, hmeets, hprints]
  · have hnone : ¬ Prints img i := fun h => hd h.dir.2.2
    have hafter : Recorded img i [] s s' ∧ (.inaccessible ∈ s'.stderr ↔ .inaccessible ∈ s.stderr) := by
      rw [checkInode_of_not_dir hs.sameButLinks hd] at hrun
      split at hrun
      · exact checked_addresses hrun
      · rw [← Except.ok.inj hrun]
        exact ⟨recorded_checkInodeType _ s, checkInodeType_reports _ s⟩
    obtain ⟨hrec, hsame⟩ := hafter
    refine ⟨hs.snoc hrec ?_ ?_, ?_⟩
    · rw [refsOf, if_neg hd]
      rfl
    · rw [lostFoundsOf, if_neg hd]
      rfl
    · simp only [hsame, hnone, or_false]

end Turn

/-! ## The loop -/

/-- The loop has gone through the inodes of `l`. -/
structure Passed (img : Image) (l : List Nat) (s : Pass) : Prop extends PassAfter img l s where
  reports : .inaccessible ∈ s.stderr ↔ ∃ i ∈ l, Prints img i

theorem passed_initPass (img : Image) : Passed img [] (initPass img) :=
  ⟨passAfter_initPass img, by simp [initPass]⟩

section Loop

variable {k : Nat}

theorem checkInode_passed (ht : Tree img) {i : Nat} {s s' : Pass} (h₁ : ROOTINO ≤ i)
    (h₂ : i < (superblock img).ninodes) (hs : Passed img (inums i) s)
    (hrun : checkInode img s i = .ok s') : Passed img (inums i ++ [i]) s' := by
  obtain ⟨hafter, hprint⟩ := checkInode_effect ht h₁ h₂ hs.toPassAfter hrun
  refine ⟨hafter, ?_⟩
  rw [hprint, hs.reports]
  simp only [List.mem_append, List.mem_singleton, or_and_right, exists_or, exists_eq_left]

theorem inums_eq_append_cons_le (hk : k ≤ (superblock img).ninodes) {pre post : List Nat} {i : Nat}
    (heq : inums k = pre ++ i :: post) : pre = inums i ∧ ROOTINO ≤ i ∧ i < (superblock img).ninodes := by
  obtain ⟨hpre, h₁, h₂⟩ := inums_eq_append_cons heq
  exact ⟨hpre, h₁, by omega⟩

/-- **The loop** runs over the inodes below `k` iff all of them are clear. -/
theorem inode_loop_ok_iff (ht : Tree img) (hk : k ≤ (superblock img).ninodes) :
    (∃ s, (inums k).foldlM (checkInode img) (initPass img) = .ok s) ↔ ∀ i ∈ inums k, Clear img i := by
  refine foldlM_runs_iff_forall (P := Passed img) (fun pre i post s heq hs => ?_)
    (fun pre i post s s' heq hs hrun => ?_) (passed_initPass img)
  · obtain ⟨rfl, h₁, h₂⟩ := inums_eq_append_cons_le hk heq
    exact checkInode_ok_iff ht h₁ h₂ hs.toPassAfter
  · obtain ⟨rfl, h₁, h₂⟩ := inums_eq_append_cons_le hk heq
    exact checkInode_passed ht h₁ h₂ hs hrun

theorem inode_loop_passed (ht : Tree img) (hk : k ≤ (superblock img).ninodes) {s : Pass}
    (hrun : (inums k).foldlM (checkInode img) (initPass img) = .ok s) : Passed img (inums k) s := by
  refine foldlM_ok_invariant (P := Passed img) (fun pre i post s s' heq hs hstep => ?_)
    (passed_initPass img) hrun
  obtain ⟨rfl, h₁, h₂⟩ := inums_eq_append_cons_le hk heq
  exact checkInode_passed ht h₁ h₂ hs hstep

end Loop

/-- `main` up to the end of the directory loop. -/
def scanInodes (img : Image) : Run Pass := do
  let sb := superblock img
  memmove img (blockOff sb.inodestart) (dinodeSize * sb.ninodes)
  memmove img (blockOff sb.bmapstart) NBMAP
  (inums sb.ninodes).foldlM (checkInode img) (initPass img)

theorem check_eq (img : Image) :
    check img = scanInodes img >>= checkBitmap (superblock img) (bmap img) := by
  unfold check scanInodes
  simp only [bind_assoc]

/-- **The directory loop** of `main` comes to its end iff all inodes are clear. -/
theorem scanInodes_ok_iff (ht : Tree img) :
    (∃ s, scanInodes img = .ok s) ↔
      blockOff (superblock img).inodestart + dinodeSize * (superblock img).ninodes ≤ IMG_SIZE ∧
      blockOff (superblock img).bmapstart + NBMAP ≤ IMG_SIZE ∧
      ∀ i ∈ inums (superblock img).ninodes, Clear img i := by
  rw [← inode_loop_ok_iff ht (Nat.le_refl _)]
  unfold scanInodes
  simp only [bind_eq_ok, memmove_eq_ok, exists_const, exists_and_left]

theorem scanInodes_passed (ht : Tree img) {s : Pass} (hrun : scanInodes img = .ok s) :
    Passed img (inums (superblock img).ninodes) s := by
  unfold scanInodes at hrun
  simp only [bind_eq_ok] at hrun
  obtain ⟨_, _, _, _, hrun⟩ := hrun
  exact inode_loop_passed ht (Nat.le_refl _) hrun

/-- It has then printed the message iff it is due in some directory. -/
theorem scanInodes_stderr_iff (ht : Tree img) {s : Pass} (hrun : scanInodes img = .ok s) :
    .inaccessible ∈ s.stderr ↔ ∃ i, Prints img i := by
  rw [(scanInodes_passed ht hrun).reports]
  exact exists_congr fun i => and_iff_right_of_imp fun h => mem_inums.2 ⟨h.dir.1, h.dir.2.1⟩

/-! ## Messages before the end -/

/-- In its turn, begun with `s`, the scan of directory `i` gets to the `..` entry `de`, with `sc`. -/
structure AtParent (img : Image) (i : Nat) (s : Pass) (de : Dirent) (sc : Scan) : Prop where
  dir : (s.tables.inodes i).type = T_DIR
  scanned : ∃ s₁ pre off post,
    checkAddresses img (dataStart (superblock img)) (bmap img) (s.tables.inodes i)
      (checkInodeType (s.tables.inodes i).type s) = .ok s₁ ∧
    offsets (s.tables.inodes i).size = pre ++ off :: post ∧
    scanDir img (superblock img).ninodes i (s.tables.inodes i) pre
      { countDots := 0, rootExist := false, dirError := false, pass := s₁ } = .ok sc ∧
    readInodeData (s.tables.inodes i) img off = .ok de
  continues : sc.dirError = false
  checked : checksParent i de
  inum : de.inum < (superblock img).ninodes

/-- `main` reports an inaccessible directory in its directory loop, whether the loop comes to its end
or not: the trace that begins at some `..` entry prints the message. -/
def Reports (img : Image) : Prop :=
  memmove img (blockOff (superblock img).inodestart) (dinodeSize * (superblock img).ninodes) = .ok () ∧
  memmove img (blockOff (superblock img).bmapstart) NBMAP = .ok () ∧
  ∃ i s de sc, ROOTINO ≤ i ∧ i < (superblock img).ninodes ∧
    (inums i).foldlM (checkInode img) (initPass img) = .ok s ∧ AtParent img i s de sc ∧
    TracePrints img sc.pass.tables i de.inum

/-- The loop gets to the `..` entry of directory `i`. -/
structure Gets (img : Image) (i : Nat) : Prop where
  before : ∀ j ∈ inums i, Clear img j
  addresses : InBitmap img (inode img i)
  fits : Contest.Fits img i (beforeParent img i)
  inum : parent img i < (superblock img).ninodes

section Parent

variable {i : Nat} {s : Pass}

/-- The scan that gets to a `..` entry gets to the only one. -/
theorem AtParent.gets (ht : Tree img) (h₁ : ROOTINO ≤ i) (h₂ : i < (superblock img).ninodes)
    (hs : Passed img (inums i) s) {de : Dirent} {sc : Scan} (h : AtParent img i s de sc) :
    IsDir img i ∧ i ≠ ROOTINO ∧ de.inum = parent img i ∧ InBitmap img (inode img i) ∧
      Contest.Fits img i (beforeParent img i) ∧ SameButLinks (inode img) sc.pass.tables := by
  have hd : (inode img i).type = T_DIR := hs.sameButLinks.type_eq i ▸ h.dir
  have hi := ht.shape i ⟨h₁, h₂, hd⟩
  obtain ⟨s₁, pre, off, post, haddr, hoff, hscan, hread⟩ := h.scanned
  rw [inode_of_dir hs.toPassAfter hd] at haddr hoff hscan hread
  rw [offsets_size] at hoff
  obtain ⟨k, hk, rfl, rfl⟩ := map_range_eq_append_cons hoff
  have hlen := entryCount_le.2 hi.size
  rw [readInodeData_ok hi.block (by omega)] at hread
  obtain rfl := Except.ok.inj hread
  have hall : entries img (inode img i) = _ := map_range_append_cons _ hk
  have hmem : entryAt img (inode img i) k ∈ entries img (inode img i) := mem_entries.2 ⟨k, hk, rfl⟩
  obtain ⟨hdd, hne⟩ := (Contest.checksParent_iff hi ht.root_of_eq hmem).1 h.checked
  obtain ⟨hrec, _⟩ := checked_addresses haddr
  have hs₁ := hrec.sameButLinks hs.sameButLinks
  rw [scanDir_eq_foldlM fun j hj => DirShape.readable hi ((List.mem_range.1 hj).trans hk)] at hscan
  rw [Contest.beforeParent_eq hi hall hdd]
  exact ⟨⟨h₁, h₂, hd⟩, hne, Contest.parent_eq_of_mem hi hmem hdd,
    checkAddresses_ok_iff.1 ⟨s₁, haddr⟩,
    ((scan_entries_ok_iff hs₁ (hs.maps_nil hrec) hall (scanned_nil i s₁)).1 ⟨sc, hscan⟩).1,
    (scan_entries_scanned hs₁ (scanned_nil i s₁) hscan).recorded.sameButLinks hs₁⟩

theorem Gets.atParent (ht : Tree img) (hd : IsDir img i) (hne : i ≠ ROOTINO)
    (hs : Passed img (inums i) s) (h : Gets img i) :
    ∃ de sc, AtParent img i s de sc ∧ de.inum = parent img i ∧
      SameButLinks (inode img) sc.pass.tables := by
  have hi := ht.shape i hd
  have hself := inode_of_dir hs.toPassAfter hd.2.2
  obtain ⟨dd, rest, hsplit⟩ := hi.split
  obtain ⟨k, hk, hbefore, rfl⟩ := map_range_eq_append_cons hsplit.eq
  have hlen := entryCount_le.2 hi.size
  obtain ⟨s₁, haddr⟩ := checkAddresses_ok_iff.2 h.addresses
  obtain ⟨hrec, _⟩ := checked_addresses haddr
  have hs₁ := hrec.sameButLinks hs.sameButLinks
  obtain ⟨sc, hscan⟩ := (scan_entries_ok_iff hs₁ (hs.maps_nil hrec) hsplit.eq
    (scanned_nil i s₁)).2 ⟨h.fits, fun e he hc => by
      have hdd := hsplit.before e he
      rw [hc.1] at hdd
      cases hdd⟩
  have hdone := scan_entries_scanned hs₁ (scanned_nil i s₁) hscan
  rw [hbefore, ← scanDir_eq_foldlM fun j hj => DirShape.readable hi ((List.mem_range.1 hj).trans hk)] at hscan
  refine ⟨_, sc, ⟨hself ▸ hd.2.2, ?_, hdone.dirError, ⟨hsplit.isDotDot, fun h => hne h.1⟩, ?_⟩,
    hsplit.inum, hdone.recorded.sameButLinks hs₁⟩
  · rw [hself]
    have hoff : offsets (inode img i).size = _ := map_range_append_cons (16 * ·) hk
    exact ⟨s₁, _, _, _, haddr, hoff, hscan, readInodeData_ok hi.block (by omega)⟩
  · rw [hsplit.inum]
    exact h.inum

end Parent

/-- **The message** is printed iff the loop gets to the `..` entry of a directory where it is due. -/
theorem reports_iff (ht : Tree img) :
    Reports img ↔
      blockOff (superblock img).inodestart + dinodeSize * (superblock img).ninodes ≤ IMG_SIZE ∧
      blockOff (superblock img).bmapstart + NBMAP ≤ IMG_SIZE ∧ ∃ i, Gets img i ∧ Prints img i := by
  unfold Reports
  rw [memmove_eq_ok, memmove_eq_ok]
  refine and_congr_right fun _ => and_congr_right fun _ => ?_
  constructor
  · rintro ⟨i, s, de, sc, h₁, h₂, hrun, hat, htrace⟩
    have hs := inode_loop_passed ht (Nat.le_of_lt h₂) hrun
    obtain ⟨hd, hne, hinum, haddr, hfits, hsame⟩ := hat.gets ht h₁ h₂ hs
    refine ⟨i, ⟨(inode_loop_ok_iff ht (Nat.le_of_lt h₂)).1 ⟨s, hrun⟩, haddr, hfits, ?_⟩, hd, hne, ?_⟩
    · rw [← hinum]
      exact hat.inum
    · rw [← hinum, ← tracePrints_iff hsame]
      exact htrace
  · rintro ⟨i, hgets, hprints⟩
    have hd := hprints.dir
    obtain ⟨s, hrun⟩ := (inode_loop_ok_iff ht (Nat.le_of_lt hd.2.1)).2 hgets.before
    have hs := inode_loop_passed ht (Nat.le_of_lt hd.2.1) hrun
    obtain ⟨de, sc, hat, hinum, hsame⟩ := hgets.atParent ht hd hprints.ne_root hs
    refine ⟨i, s, de, sc, hd.1, hd.2.1, hrun, hat, ?_⟩
    rw [tracePrints_iff hsame, hinum]
    exact hprints.meets

/-- When all inodes are clear, the loop gets to every `..` entry. -/
theorem gets_of_clear (ht : Tree img) (h : ∀ i ∈ inums (superblock img).ninodes, Clear img i) {i : Nat}
    (hd : IsDir img i) : Gets img i := by
  have hclear := h i (mem_inums.2 ⟨hd.1, hd.2.1⟩)
  have hfits := hclear.fits hd.2.2
  obtain ⟨dd, post, hsplit⟩ := (ht.shape i hd).split
  refine ⟨fun j hj => h j ((Contest.inums_mono (Nat.le_of_lt hd.2.1)).subset hj),
    hclear.addresses (type_ne_zero_of_dir hd.2.2), hfits.beforeParent, ?_⟩
  rw [← hsplit.inum]
  exact hfits.inums dd (by rw [hsplit.eq]; simp)

/-- In a loop that comes to its end, what is printed is what `stderr` holds. -/
theorem reports_iff_stderr (ht : Tree img) {s : Pass} (hrun : scanInodes img = .ok s) :
    Reports img ↔ .inaccessible ∈ s.stderr := by
  obtain ⟨htable, hbitmap, hclear⟩ := (scanInodes_ok_iff ht).1 ⟨s, hrun⟩
  rw [reports_iff ht, scanInodes_stderr_iff ht hrun]
  constructor
  · rintro ⟨_, _, i, _, hprints⟩
    exact ⟨i, hprints⟩
  · rintro ⟨i, hprints⟩
    exact ⟨htable, hbitmap, i, gets_of_clear ht hclear hprints.dir, hprints⟩

end OstepHw.Fsck.Contest3
