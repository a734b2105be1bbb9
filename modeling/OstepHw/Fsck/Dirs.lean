import OstepHw.Fsck.Blocks

/-!
# What the directory scan establishes

The scan of one directory folds every entry into a counter, two flags and the three tables, and
has one way out in the middle (a `.` entry with a foreign inode number).

* `readInodeData_ok` — inside the first block the scan reads exactly the entries of the block;
* `scanDir_ok_iff` — when the scan runs to its end at all (`ScanSafe`);
* `checkDir_ok_iff` — the directory is accepted iff it is well formed (`DirOk`), and its entries
  are then recorded in the tables one by one;
* `referAll_*` — what recording a list of entries does to each table.
-/

set_option autoImplicit false

namespace OstepHw.Fsck

open Loop

/-! ## Entries -/

/-- Entry `k` of a directory, as the checker reads it through the first address slot. -/
def entryAt (img : Image) (d : Dinode) (k : Nat) : Dirent :=
  direntAt img (blockOff (d.addr 0) + 16 * k)

/-- The number of entries the scan loops over. -/
def entryCount (d : Dinode) : Nat := (d.size + 15) / 16

theorem offsets_size (d : Dinode) : offsets d.size = (List.range (entryCount d)).map (16 * ·) := rfl

/-- The entries of a directory. -/
def entries (img : Image) (d : Dinode) : List Dirent :=
  (List.range (entryCount d)).map (entryAt img d)

theorem mem_entries {img : Image} {d : Dinode} {e : Dirent} :
    e ∈ entries img d ↔ ∃ k < entryCount d, entryAt img d k = e := by
  simp [entries]

theorem entryCount_le {d : Dinode} : entryCount d ≤ 32 ↔ d.size ≤ BSIZE := by
  unfold entryCount
  simp only [BSIZE]
  omega

theorem readInodeData_ok {img : Image} {d : Dinode} {k : Nat} (ha : d.addr 0 < FSSIZE)
    (hk : k < 32) : readInodeData d img (16 * k) = .ok (entryAt img d k) := by
  have hb : 16 * k / BSIZE = 0 := by simp only [BSIZE]; omega
  have hm : 16 * k % BSIZE = 16 * k := by simp only [BSIZE]; omega
  have hmv : memmove img (blockOff (d.addr 0) + 16 * k) direntSize = .ok () := by
    rw [memmove_eq_ok, blockOff_of_lt ha]
    simp only [FSSIZE, BSIZE, IMG_SIZE, direntSize] at *
    omega
  unfold readInodeData
  simp only [hb, hm, ne_eq, not_true_eq_false, if_false]
  rw [if_pos (by decide : 0 < NDIRECT)]
  simp only [pure, Except.pure, ok_bind]
  rw [hmv, ok_bind]
  rfl

theorem readInodeData_assertion {img : Image} {d : Dinode} {k : Nat} (hk : 32 ≤ k) :
    readInodeData d img (16 * k) = .error .assertion := by
  have hb : 16 * k / BSIZE ≠ 0 := by simp only [BSIZE]; omega
  unfold readInodeData
  simp only [ne_eq, hb, not_false_eq_true, if_true]
  rfl

/-! ## The scan -/

/-- The entry makes the scan of directory `i` leave its loop. -/
def breaks (i : Nat) (e : Dirent) : Prop := e.isDot = true ∧ e.inum ≠ i

instance (i : Nat) (e : Dirent) : Decidable (breaks i e) := inferInstanceAs (Decidable (_ ∧ _))

/-- The entry is named `.` or `..`. -/
def Dirent.isDots (e : Dirent) : Bool := e.isDot || e.isDotDot

/-- The body of the loop for an entry that does not leave it. -/
def Scan.step (i : Nat) (s : Scan) (e : Dirent) : Scan :=
  { s with
    countDots := s.countDots + (if e.isDots then 1 else 0)
    rootExist := s.rootExist ||
      (e.isDotDot && (decide (i = ROOTINO) && decide (e.inum = ROOTINO)))
    tables := s.tables.refer i e.inum }

theorem scanDir_cons {img : Image} {d : Dinode} {n i k : Nat} {offs : List Nat} {s : Scan}
    (ha : d.addr 0 < FSSIZE) (hk : k < 32) :
    scanDir img n i d (16 * k :: offs) s =
      if breaks i (entryAt img d k) then
        .ok { s with countDots := s.countDots + 1, dirError := true }
      else if (entryAt img d k).inum < n then
        scanDir img n i d offs (s.step i (entryAt img d k))
      else .error .outOfRange := by
  rw [scanDir, readInodeData_ok ha hk, ok_bind]
  unfold breaks Scan.step Dirent.isDots index
  by_cases hd : (entryAt img d k).isDot = true
  · have hdd := Dirent.not_isDotDot_of_isDot hd
    by_cases hi : (entryAt img d k).inum = i
    · by_cases hn : i < n <;> simp [hd, hi, hdd, hn, bind, Except.bind]
    · simp [hd, hi, pure, Except.pure]
  · by_cases hdd : (entryAt img d k).isDotDot = true
    · by_cases hn : (entryAt img d k).inum < n <;> simp [hd, hdd, hn, bind, Except.bind]
    · by_cases hn : (entryAt img d k).inum < n <;> simp [hd, hdd, hn, bind, Except.bind]

theorem scanDir_assertion {img : Image} {d : Dinode} {n i k : Nat} {offs : List Nat} {s : Scan}
    (hk : 32 ≤ k) : scanDir img n i d (16 * k :: offs) s = .error .assertion := by
  rw [scanDir, readInodeData_assertion hk]
  rfl

/-- Up to the first entry that leaves the loop, every entry lies in the first block and names an
inode of the table. -/
def SafeEntries (img : Image) (n i : Nat) (d : Dinode) (l : List Nat) : Prop :=
  ∀ pre k post, l = pre ++ k :: post → (∀ m ∈ pre, ¬ breaks i (entryAt img d m)) →
    k < 32 ∧ (breaks i (entryAt img d k) ∨ (entryAt img d k).inum < n)

theorem safeEntries_cons {img : Image} {n i k : Nat} {d : Dinode} {l : List Nat} :
    SafeEntries img n i d (k :: l) ↔
      k < 32 ∧ (breaks i (entryAt img d k) ∨
        ((entryAt img d k).inum < n ∧ SafeEntries img n i d l)) := by
  constructor
  · intro h
    obtain ⟨hk, hb⟩ := h [] k l rfl (by simp)
    refine ⟨hk, ?_⟩
    by_cases hbk : breaks i (entryAt img d k)
    · exact Or.inl hbk
    · refine Or.inr ⟨hb.resolve_left hbk, ?_⟩
      intro pre m post hl hpre
      refine h (k :: pre) m post (by rw [hl]; rfl) ?_
      intro m' hm'
      rcases List.mem_cons.mp hm' with rfl | hm'
      · exact hbk
      · exact hpre m' hm'
  · rintro ⟨hk, hrest⟩ pre m post hl hpre
    cases pre with
    | nil =>
      simp only [List.nil_append, List.cons.injEq] at hl
      obtain ⟨rfl, _⟩ := hl
      refine ⟨hk, ?_⟩
      rcases hrest with hb | ⟨hn, _⟩
      · exact Or.inl hb
      · exact Or.inr hn
    | cons c pre =>
      simp only [List.cons_append, List.cons.injEq] at hl
      obtain ⟨rfl, rfl⟩ := hl
      rcases hrest with hb | ⟨_, hs⟩
      · exact absurd hb (hpre k List.mem_cons_self)
      · exact hs pre m post rfl fun m' hm' => hpre m' (List.mem_cons_of_mem _ hm')

/-- **The scan comes to an end** iff its entries are safe; it never reports anything itself. -/
theorem scanDir_ok_iff {img : Image} {d : Dinode} {n i : Nat} (ha : d.addr 0 < FSSIZE) :
    ∀ {l : List Nat} {s : Scan},
      (∃ s', scanDir img n i d (l.map (16 * ·)) s = .ok s') ↔ SafeEntries img n i d l
  | [], s => by
    constructor
    · intro _ pre k post hl
      simp at hl
    · intro _
      exact ⟨s, rfl⟩
  | k :: l, s => by
    rw [List.map_cons, safeEntries_cons]
    by_cases hk : k < 32
    · rw [scanDir_cons ha hk]
      by_cases hb : breaks i (entryAt img d k)
      · simp [hb, hk]
      · by_cases hn : (entryAt img d k).inum < n
        · simp only [hb, hn, if_true, if_false, hk, true_and, false_or]
          exact scanDir_ok_iff ha
        · simp [hb, hn]
    · rw [scanDir_assertion (by omega)]
      simp [hk]

theorem scanDir_not_report {img : Image} {d : Dinode} {n i : Nat} (ha : d.addr 0 < FSSIZE)
    {r : Err} :
    ∀ {l : List Nat} {s : Scan}, scanDir img n i d (l.map (16 * ·)) s ≠ .error (.report r)
  | [], s => by
    intro h
    cases h
  | k :: l, s => by
    rw [List.map_cons]
    by_cases hk : k < 32
    · rw [scanDir_cons ha hk]
      split
      · intro h; cases h
      · split
        · exact scanDir_not_report ha
        · intro h; cases h
    · rw [scanDir_assertion (by omega)]
      intro h
      cases h

/-- The scan ends without a directory error iff no entry leaves the loop, and its result is then
the fold of the loop's body over all entries. -/
theorem scanDir_clean_iff {img : Image} {d : Dinode} {n i : Nat} (ha : d.addr 0 < FSSIZE) :
    ∀ {l : List Nat} {s s' : Scan}, s.dirError = false →
      ((scanDir img n i d (l.map (16 * ·)) s = .ok s' ∧ s'.dirError = false) ↔
        (∀ k ∈ l, k < 32 ∧ ¬ breaks i (entryAt img d k) ∧ (entryAt img d k).inum < n) ∧
          s' = (l.map (entryAt img d)).foldl (Scan.step i) s)
  | [], s, s', hs => by
    simp only [List.map_nil, scanDir, Except.ok.injEq, List.foldl_nil]
    constructor
    · rintro ⟨rfl, _⟩; exact ⟨by simp, rfl⟩
    · rintro ⟨_, rfl⟩; exact ⟨rfl, hs⟩
  | k :: l, s, s', hs => by
    rw [List.map_cons, List.map_cons, List.foldl_cons, List.forall_mem_cons]
    by_cases hk : k < 32
    · rw [scanDir_cons ha hk]
      by_cases hb : breaks i (entryAt img d k)
      · simp only [hb, if_true, Except.ok.injEq, not_true_eq_false, false_and, and_false, iff_false]
        rintro ⟨rfl, h⟩
        simp at h
      · by_cases hn : (entryAt img d k).inum < n
        · simp only [hb, hn, hk, if_false, if_true, not_false_eq_true, true_and]
          exact scanDir_clean_iff ha hs
        · simp [hb, hn]
    · rw [scanDir_assertion (by omega)]
      simp [hk]

/-! ## The tables -/

/-- A list of entries `(i, inum)` recorded one after the other. -/
def referAll (t : Tables) (l : List (Nat × Nat)) : Tables :=
  l.foldl (fun t p => t.refer p.1 p.2) t

theorem referAll_append (t : Tables) (l₁ l₂ : List (Nat × Nat)) :
    referAll t (l₁ ++ l₂) = referAll (referAll t l₁) l₂ := List.foldl_append

/-- The inode with another link count. -/
def Dinode.relink (d : Dinode) (k : Int) : Dinode := { d with nlink := k }

theorem relink_type (d : Dinode) (k : Int) : (d.relink k).type = d.type := rfl

theorem relink_addr (d : Dinode) (k : Int) (j : Nat) : (d.relink k).addr j = d.addr j := rfl

theorem visited_relink (img : Image) (d : Dinode) (k : Int) :
    visited img (d.relink k) = visited img d := by
  have haddr : (d.relink k).addr = d.addr := funext (relink_addr d k)
  rw [visited, visited, haddr]

theorem relink_nlink_self (d : Dinode) : d.relink d.nlink = d := rfl

/-- The tables' inodes differ from `inodes` in their link counts only. -/
def SameButLinks (inodes : Nat → Dinode) (t : Tables) : Prop :=
  ∀ j, ∃ k, t.inodes j = (inodes j).relink k

theorem refer_inodes (t : Tables) (i inum j : Nat) :
    (t.refer i inum).inodes j =
      if j = inum ∧ (t.inodes inum).type = T_FILE then (t.inodes j).unlink else t.inodes j := by
  unfold Tables.refer
  by_cases hf : (t.inodes inum).type = T_FILE
  · by_cases hj : j = inum
    · subst hj; simp [hf]
    · simp [hf, hj]
  · simp only [hf, and_false, if_false]
    split <;> rfl

theorem refer_inodeDir (t : Tables) (i inum j : Nat) :
    (t.refer i inum).inodeDir j = if j = inum then 1 else t.inodeDir j := by
  unfold Tables.refer
  by_cases hf : (t.inodes inum).type = T_FILE
  · simp only [hf, if_true, Function.update_apply]
  · simp only [hf, if_false]
    split <;> simp only [Function.update_apply]

theorem refer_dirLinks (t : Tables) (i inum j : Nat) :
    (t.refer i inum).dirLinks j =
      if j = inum ∧ (t.inodes inum).type = T_DIR ∧ i ≠ inum then t.dirLinks j + 1
      else t.dirLinks j := by
  unfold Tables.refer
  by_cases hf : (t.inodes inum).type = T_FILE
  · have hd : (t.inodes inum).type ≠ T_DIR := by rw [hf]; decide
    simp [hf]
  · simp only [hf, if_false]
    by_cases hd : (t.inodes inum).type = T_DIR ∧ i ≠ inum
    · by_cases hj : j = inum
      · subst hj; simp [hd]
      · simp [hd, hj]
    · rw [if_neg hd, if_neg (fun h => hd h.2)]

theorem SameButLinks.refer {inodes : Nat → Dinode} {t : Tables} (h : SameButLinks inodes t)
    (i inum : Nat) : SameButLinks inodes (t.refer i inum) := by
  intro j
  obtain ⟨k, hk⟩ := h j
  rw [refer_inodes]
  split
  · exact ⟨toShort (k - 1), by rw [hk]; rfl⟩
  · exact ⟨k, hk⟩

theorem SameButLinks.referAll {inodes : Nat → Dinode} :
    ∀ {l : List (Nat × Nat)} {t : Tables}, SameButLinks inodes t →
      SameButLinks inodes (referAll t l)
  | [], _, h => h
  | p :: l, _, h => SameButLinks.referAll (l := l) (h.refer p.1 p.2)

theorem SameButLinks.type_eq {inodes : Nat → Dinode} {t : Tables} (h : SameButLinks inodes t)
    (j : Nat) : (t.inodes j).type = (inodes j).type := by
  obtain ⟨k, hk⟩ := h j
  rw [hk, relink_type]

/-- An inode number is flagged iff it was so before or occurs in the list. -/
theorem referAll_inodeDir {j : Nat} :
    ∀ {l : List (Nat × Nat)} {t : Tables},
      (referAll t l).inodeDir j = if (∃ p ∈ l, p.2 = j) then 1 else t.inodeDir j
  | [], t => by simp [referAll]
  | p :: l, t => by
    have ih := referAll_inodeDir (j := j) (l := l) (t := t.refer p.1 p.2)
    rw [referAll, List.foldl_cons, ← referAll, ih, refer_inodeDir]
    by_cases hl : ∃ q ∈ l, q.2 = j
    · obtain ⟨q, hq, hqj⟩ := hl
      rw [if_pos ⟨q, hq, hqj⟩, if_pos ⟨q, List.mem_cons_of_mem _ hq, hqj⟩]
    · rw [if_neg hl]
      by_cases hp : j = p.2
      · rw [if_pos hp, if_pos ⟨p, List.mem_cons_self, hp.symm⟩]
      · rw [if_neg hp, if_neg]
        rintro ⟨q, hq, hqj⟩
        rcases List.mem_cons.mp hq with rfl | hq
        · exact hp hqj.symm
        · exact hl ⟨q, hq, hqj⟩

/-- `dir_links` counts the entries of *other* directories that name a directory. -/
theorem referAll_dirLinks {inodes : Nat → Dinode} {j : Nat} (hj : (inodes j).type = T_DIR) :
    ∀ {l : List (Nat × Nat)} {t : Tables}, SameButLinks inodes t →
      (referAll t l).dirLinks j =
        t.dirLinks j + l.countP (fun p => decide (p.2 = j ∧ p.1 ≠ j))
  | [], t, _ => by simp [referAll]
  | p :: l, t, h => by
    have ih := referAll_dirLinks hj (l := l) (h.refer p.1 p.2)
    rw [referAll, List.foldl_cons, ← referAll, ih, refer_dirLinks, List.countP_cons]
    by_cases hp : p.2 = j
    · rw [← hp] at hj
      have ht := h.type_eq p.2
      rw [hj] at ht
      by_cases hi : p.1 = p.2
      · simp [← hp, hi]
      · simp [← hp, ht, hi]
        omega
    · have hp' : ¬ j = p.2 := fun h => hp h.symm
      simp [hp, hp']

theorem toShort_toShort_sub (x k : Int) : toShort (toShort x - k) = toShort (x - k) := by
  unfold toShort
  rw [Int.bmod_sub_bmod]

/-- The link count of a file goes down by one for every entry that names it. -/
theorem referAll_nlink {inodes : Nat → Dinode} {j : Nat} (hj : (inodes j).type = T_FILE) :
    ∀ {l : List (Nat × Nat)} {t : Tables}, SameButLinks inodes t →
      toShort (t.inodes j).nlink = (t.inodes j).nlink →
      ((referAll t l).inodes j).nlink =
        toShort ((t.inodes j).nlink - l.countP (fun p => decide (p.2 = j)))
  | [], t, _, hs => by simp [referAll, hs]
  | p :: l, t, h, hs => by
    have hfile : (t.inodes j).type = T_FILE := by rw [h.type_eq, hj]
    rw [referAll, List.foldl_cons, ← referAll, List.countP_cons]
    by_cases hp : p.2 = j
    · have hstep : ((t.refer p.1 p.2).inodes j).nlink = toShort ((t.inodes j).nlink - 1) := by
        rw [refer_inodes, if_pos ⟨hp.symm, by rw [hp]; exact hfile⟩]
        rfl
      rw [referAll_nlink hj (h.refer p.1 p.2) (by rw [hstep]; unfold toShort; simp), hstep,
        toShort_toShort_sub]
      congr 1
      simp [hp]
      omega
    · have hstep : (t.refer p.1 p.2).inodes j = t.inodes j := by
        rw [refer_inodes, if_neg (fun hc => hp hc.1.symm)]
      rw [referAll_nlink hj (h.refer p.1 p.2) (by rw [hstep]; exact hs), hstep]
      simp [hp]

/-! ## One directory -/

/-- What the checks of one directory amount to. -/
structure DirOk (img : Image) (n i : Nat) (d : Dinode) : Prop where
  size_le : d.size ≤ BSIZE
  in_range : ∀ e ∈ entries img d, e.inum < n
  self : ∀ e ∈ entries img d, e.isDot = true → e.inum = i
  dots : (entries img d).countP Dirent.isDots = 2
  root : i = ROOTINO → ∃ e ∈ entries img d, e.isDotDot = true ∧ e.inum = ROOTINO

theorem foldl_step_countDots (i : Nat) :
    ∀ (l : List Dirent) (s : Scan),
      (l.foldl (Scan.step i) s).countDots = s.countDots + l.countP Dirent.isDots
  | [], s => by simp
  | e :: l, s => by
    rw [List.foldl_cons, foldl_step_countDots, List.countP_cons]
    simp only [Scan.step]
    omega

theorem foldl_step_rootExist (i : Nat) :
    ∀ (l : List Dirent) (s : Scan),
      (l.foldl (Scan.step i) s).rootExist = true ↔
        s.rootExist = true ∨
          (i = ROOTINO ∧ ∃ e ∈ l, e.isDotDot = true ∧ e.inum = ROOTINO)
  | [], s => by simp
  | e :: l, s => by
    rw [List.foldl_cons, foldl_step_rootExist]
    simp only [Scan.step, Bool.or_eq_true, Bool.and_eq_true, decide_eq_true_eq, List.mem_cons,
      exists_eq_or_imp]
    tauto

theorem foldl_step_tables (i : Nat) :
    ∀ (l : List Dirent) (s : Scan),
      (l.foldl (Scan.step i) s).tables = referAll s.tables (l.map fun e => (i, e.inum))
  | [], s => rfl
  | e :: l, s => by
    rw [List.foldl_cons, foldl_step_tables]
    rfl

/-- The slots that the loop goes through are fine iff the directory is short and its entries are. -/
theorem forall_slots_iff {img : Image} {n i : Nat} {d : Dinode} :
    (∀ k ∈ List.range (entryCount d),
        k < 32 ∧ ¬ breaks i (entryAt img d k) ∧ (entryAt img d k).inum < n) ↔
      d.size ≤ BSIZE ∧ (∀ e ∈ entries img d, e.inum < n) ∧
        ∀ e ∈ entries img d, e.isDot = true → e.inum = i := by
  constructor
  · intro hall
    refine ⟨?_, fun e he => ?_, fun e he hdot => ?_⟩
    · rw [← entryCount_le]
      by_contra hgt
      have := (hall (entryCount d - 1) (List.mem_range.mpr (by omega))).1
      omega
    · obtain ⟨k, hk, rfl⟩ := mem_entries.1 he
      exact (hall k (List.mem_range.mpr hk)).2.2
    · obtain ⟨k, hk, rfl⟩ := mem_entries.1 he
      by_contra hne
      exact (hall k (List.mem_range.mpr hk)).2.1 ⟨hdot, hne⟩
  · rintro ⟨hsize, hrange, hself⟩ k hk
    have hlen := entryCount_le.2 hsize
    have hk' := List.mem_range.mp hk
    have he : entryAt img d k ∈ entries img d := mem_entries.2 ⟨k, hk', rfl⟩
    exact ⟨by omega, fun hb => hb.2 (hself _ he hb.1), hrange _ he⟩

/-- **One directory**: it is accepted iff it is well formed, and all its entries are recorded. -/
theorem checkDir_ok_iff {img : Image} {n i : Nat} {d : Dinode} {t t' : Tables}
    (ha : d.addr 0 < FSSIZE) :
    checkDir img n i d t = .ok t' ↔
      DirOk img n i d ∧ t' = referAll t ((entries img d).map fun e => (i, e.inum)) := by
  have hclean : ∀ s', (scanDir img n i d ((List.range (entryCount d)).map (16 * ·))
      ⟨0, false, false, t⟩ = .ok s' ∧ s'.dirError = false) ↔ _ := fun s' =>
    scanDir_clean_iff ha rfl
  -- the values of the variables after the loop
  have hdots := foldl_step_countDots i (entries img d) ⟨0, false, false, t⟩
  have hroot := foldl_step_rootExist i (entries img d) ⟨0, false, false, t⟩
  simp only [Nat.zero_add, Bool.false_eq_true, false_or] at hdots hroot
  unfold checkDir
  simp only [bind_eq_ok, rejectIf_eq_ok, offsets_size, pure, Except.pure, Except.ok.injEq]
  constructor
  · rintro ⟨s, hs, _, hnoroot, _, hfmt, rfl⟩
    have hd : s.dirError = false := by
      cases h : s.dirError with
      | false => rfl
      | true => exact absurd (Or.inl h) hfmt
    obtain ⟨hall, hfold⟩ := (hclean s).mp ⟨hs, hd⟩
    obtain ⟨hsize, hrange, hself⟩ := forall_slots_iff.1 hall
    rw [← entries] at hfold
    rw [← hfold] at hdots hroot
    refine ⟨⟨hsize, hrange, hself, ?_, fun hi => ?_⟩, ?_⟩
    · rw [← hdots]
      by_contra hne
      exact hfmt (Or.inr hne)
    · cases hr : s.rootExist with
      | true => exact (hroot.mp hr).2
      | false => exact absurd ⟨hi, hr⟩ hnoroot
    · rw [hfold, foldl_step_tables]
  · rintro ⟨hok, rfl⟩
    have hall := forall_slots_iff.2 ⟨hok.size_le, hok.in_range, hok.self⟩
    obtain ⟨hs, hd⟩ := (hclean ((entries img d).foldl (Scan.step i) ⟨0, false, false, t⟩)).mpr
      ⟨hall, rfl⟩
    refine ⟨_, hs, (), ?_, (), ?_, foldl_step_tables ..⟩
    · rintro ⟨hi, hr⟩
      rw [hroot.mpr ⟨hi, hok.root hi⟩] at hr
      cases hr
    · rintro (h | h)
      · rw [hd] at h
        cases h
      · exact h (hdots.trans hok.dots)

/-- The scan of directory `d` stays inside its arrays and does not fail its assertion. -/
def ScanSafe (img : Image) (n i : Nat) (d : Dinode) : Prop :=
  SafeEntries img n i d (List.range (entryCount d))

/-- The checks of one directory stop without a report iff the scan is not safe. -/
theorem checkDir_reports_iff {img : Image} {n i : Nat} {d : Dinode} {t : Tables}
    (ha : d.addr 0 < FSSIZE) : Reports (checkDir img n i d t) ↔ ScanSafe img n i d := by
  unfold checkDir ScanSafe
  rw [offsets_size, ← scanDir_ok_iff (s := ⟨0, false, false, t⟩) ha]
  constructor
  · intro h
    cases hs : scanDir img n i d ((List.range (entryCount d)).map (16 * ·))
        ⟨0, false, false, t⟩ with
    | ok s => exact ⟨s, rfl⟩
    | error e =>
      rw [hs] at h
      obtain ⟨r, rfl⟩ := h e rfl
      exact absurd hs (scanDir_not_report ha)
  · rintro ⟨s, hs⟩
    rw [hs, ok_bind]
    exact (Reports.rejectIf _ _).bind fun _ _ => (Reports.rejectIf _ _).bind fun _ _ => Reports.ok _

end OstepHw.Fsck
