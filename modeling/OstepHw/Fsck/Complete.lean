import OstepHw.Fsck.Robust

/-!
# The checker on consistent images

`Consistent` states the twelve rules of the checker over the file system itself, not over what the
checker reads: a directory is the sequence of entries in its blocks, direct or indirect, a block
that is not allocated holds nothing, and an entry with inode number zero is a free slot.

`consistent_accepts_iff` says which consistent images with the superblock of `mkfs` are accepted.
Four things make the checker raise a false alarm:

* an in-use inode has no indirect block and the boot block is not zero, because the zero pointer
  is followed;
* a directory is longer than one block;
* a directory is named by two entries of other directories, be they the `..` entries of its
  sub-directories;
* a free slot still carries the name `.` or `..`.
-/

set_option autoImplicit false

namespace OstepHw.Fsck

open Loop Bitmap

variable {img : Image}

/-! ## Directories as the file system has them -/

/-- Block `fbn` of a file; 0 when it has none. -/
def fileBlock (img : Image) (d : Dinode) (fbn : Nat) : Nat :=
  if fbn < NDIRECT then d.addr fbn
  else if d.addr NDIRECT ≠ 0 ∧ fbn - NDIRECT < NINDIRECT then
    indirectWord img (d.addr NDIRECT) (fbn - NDIRECT)
  else 0

/-- Entry `k` of a directory; a block that is not allocated holds free slots only. -/
def dirEntry (img : Image) (d : Dinode) (k : Nat) : Dirent :=
  if fileBlock img d (16 * k / BSIZE) = 0 then { inum := 0, name := fun _ => 0 }
  else direntAt img (blockOff (fileBlock img d (16 * k / BSIZE)) + 16 * k % BSIZE)

/-- All entry slots of a directory, the free ones included. -/
def dirSlots (img : Image) (d : Dinode) : List Dirent :=
  (List.range (entryCount d)).map (dirEntry img d)

/-- The entries of a directory: the slots that are not free. -/
def live (img : Image) (d : Dinode) : List Dirent := (dirSlots img d).filter (·.inum ≠ 0)

/-- Inode `i` of the table is a directory. -/
def IsDir (img : Image) (i : Nat) : Prop :=
  ROOTINO ≤ i ∧ i < (superblock img).ninodes ∧ (inode img i).type = T_DIR

/-- The entries of inode `i`, each with `i`: none when it is no directory. -/
def linksOf (img : Image) (i : Nat) : List (Nat × Dirent) :=
  if (inode img i).type = T_DIR then (live img (inode img i)).map fun e => (i, e) else []

/-- All entries of all directories, each with the directory it is in. -/
def links (img : Image) : List (Nat × Dirent) :=
  (inums (superblock img).ninodes).flatMap (linksOf img)

/-- The rules of a consistent file system. -/
structure Consistent (img : Image) : Prop where
  types : ∀ i, ROOTINO ≤ i → i < (superblock img).ninodes → TypeOk (inode img i).type
  valid : ∀ p : Slot, p.InUse img → p.addr img ≠ 0 →
    ValidAddr (dataStart (superblock img)) (bmap img) (p.addr img)
  once : ∀ p q : Slot, p.InUse img → q.InUse img → p.addr img ≠ 0 → p.addr img = q.addr img → p = q
  root : IsDir img ROOTINO ∧
    ∃ e ∈ live img (inode img ROOTINO), e.isDotDot = true ∧ e.inum = ROOTINO
  dots : ∀ i, IsDir img i →
    (live img (inode img i)).countP Dirent.isDot = 1 ∧
    (∀ e ∈ live img (inode img i), e.isDot = true → e.inum = i) ∧
    (live img (inode img i)).countP Dirent.isDotDot = 1
  bitmap : BitmapRight img
  used : ∀ p ∈ links img, p.2.inum < (superblock img).ninodes ∧ (inode img p.2.inum).type ≠ 0
  found : ∀ j, ROOTINO ≤ j → j < (superblock img).ninodes → (inode img j).type ≠ 0 →
    ∃ p ∈ links img, p.2.inum = j
  nlink : ∀ j, ROOTINO ≤ j → j < (superblock img).ninodes → (inode img j).type = T_FILE →
    (inode img j).nlink = (links img).countP fun p => decide (p.2.inum = j)
  single : ∀ j, IsDir img j →
    (links img).countP (fun p => decide (p.2.inum = j) && !p.2.isDots) ≤ 1

/-! ## What the checker does not take into account -/

/-- No zero indirect pointer leads to a boot block with contents. -/
def BootHarmless (img : Image) : Prop :=
  (∀ k < NINDIRECT, img.u32 (4 * k) = 0) ∨
    ∀ i, ROOTINO ≤ i → i < (superblock img).ninodes → (inode img i).type ≠ 0 →
      (inode img i).addr NDIRECT ≠ 0

/-- Every directory fits in one block. -/
def DirsShort (img : Image) : Prop := ∀ i, IsDir img i → (inode img i).size ≤ BSIZE

/-- Every directory is named by at most one entry of other directories. -/
def NamedOnce (img : Image) : Prop :=
  ∀ j, IsDir img j → (links img).countP (fun p => decide (p.2.inum = j ∧ p.1 ≠ j)) ≤ 1

/-- No free slot carries one of the two reserved names. -/
def FreeSlotsPlain (img : Image) : Prop :=
  ∀ i, IsDir img i → ∀ e ∈ dirSlots img (inode img i), e.inum = 0 → e.isDots = false

/-! ## The two readings of a directory agree -/

theorem dirEntry_eq_entryAt {d : Dinode} {k : Nat} (hk : k < 32) (ha : d.addr 0 ≠ 0) :
    dirEntry img d k = entryAt img d k := by
  have hb : 16 * k / BSIZE = 0 := by simp only [BSIZE]; omega
  have hm : 16 * k % BSIZE = 16 * k := by simp only [BSIZE]; omega
  have hf : fileBlock img d 0 = d.addr 0 := by
    unfold fileBlock
    rw [if_pos (by decide)]
  unfold dirEntry entryAt
  rw [hb, hm, hf, if_neg ha]

theorem addr_zero_ne_zero {d : Dinode} (hsize : d.size ≤ BSIZE) (hlive : live img d ≠ []) :
    d.addr 0 ≠ 0 := by
  intro h0
  apply hlive
  unfold live
  rw [List.filter_eq_nil_iff]
  intro e he
  obtain ⟨k, hk, rfl⟩ := List.mem_map.mp he
  have hk' := List.mem_range.mp hk
  have hlen := entryCount_le.2 hsize
  have hb : 16 * k / BSIZE = 0 := by simp only [BSIZE]; omega
  have hf : fileBlock img d 0 = 0 := by
    unfold fileBlock
    rw [if_pos (by decide), h0]
  unfold dirEntry
  rw [hb, if_pos hf]
  simp

theorem dirSlots_eq_entries {d : Dinode} (hsize : d.size ≤ BSIZE) (hlive : live img d ≠ []) :
    dirSlots img d = entries img d := by
  have ha := addr_zero_ne_zero hsize hlive
  have hlen := entryCount_le.2 hsize
  unfold dirSlots entries
  apply List.map_congr_left
  intro k hk
  exact dirEntry_eq_entryAt (by have := List.mem_range.mp hk; omega) ha

theorem Consistent.live_ne_nil (h : Consistent img) {i : Nat} (hi : IsDir img i) :
    live img (inode img i) ≠ [] := by
  intro hnil
  have := (h.dots i hi).1
  rw [hnil] at this
  simp at this

theorem Consistent.slots_eq (h : Consistent img) (hs : DirsShort img) {i : Nat}
    (hi : IsDir img i) : dirSlots img (inode img i) = entries img (inode img i) :=
  dirSlots_eq_entries (hs i hi) (h.live_ne_nil hi)

theorem mem_links {p : Nat × Dirent} :
    p ∈ links img ↔ IsDir img p.1 ∧ p.2 ∈ live img (inode img p.1) := by
  unfold links IsDir
  simp only [List.mem_flatMap, mem_inums]
  unfold linksOf
  constructor
  · rintro ⟨i, ⟨h₁, h₂⟩, hp⟩
    split at hp
    · rename_i hd
      obtain ⟨e, he, rfl⟩ := List.mem_map.mp hp
      exact ⟨⟨h₁, h₂, hd⟩, he⟩
    · simp at hp
  · rintro ⟨⟨h₁, h₂, hd⟩, he⟩
    refine ⟨p.1, ⟨h₁, h₂⟩, ?_⟩
    rw [if_pos hd]
    exact List.mem_map.mpr ⟨p.2, he, rfl⟩

theorem countP_refsOf (h : Consistent img) (hs : DirsShort img) {q : Nat × Nat → Bool}
    (hq : ∀ i, q (i, 0) = false) {i : Nat} (hi : ROOTINO ≤ i ∧ i < (superblock img).ninodes) :
    (refsOf img i).countP q = (linksOf img i).countP fun p => q (p.1, p.2.inum) := by
  unfold refsOf linksOf
  by_cases hd : (inode img i).type = T_DIR
  · rw [if_pos hd, if_pos hd, ← h.slots_eq hs ⟨hi.1, hi.2, hd⟩, List.countP_map,
      List.countP_map, live, List.countP_filter]
    apply List.countP_congr
    intro e _
    by_cases he : e.inum = 0
    · simp [he, hq]
    · simp [he]
  · rw [if_neg hd, if_neg hd]
    rfl

theorem countP_flatMap_congr {α β γ : Type} {f : α → List β} {g : α → List γ} {p : β → Bool}
    {q : γ → Bool} {l : List α} (h : ∀ a ∈ l, (f a).countP p = (g a).countP q) :
    (l.flatMap f).countP p = (l.flatMap g).countP q := by
  induction l with
  | nil => rfl
  | cons a l ih =>
    rw [List.flatMap_cons, List.flatMap_cons, List.countP_append, List.countP_append,
      h a List.mem_cons_self, ih fun b hb => h b (List.mem_cons_of_mem _ hb)]

/-- What the checker records of the directories is their entries and the free slots. -/
theorem countP_refs (h : Consistent img) (hs : DirsShort img) (q : Nat × Nat → Bool)
    (hq : ∀ i, q (i, 0) = false) :
    (refs img).countP q = (links img).countP fun p => q (p.1, p.2.inum) :=
  countP_flatMap_congr fun _ hi => countP_refsOf h hs hq (mem_inums.1 hi)

theorem referred_iff_links (h : Consistent img) (hs : DirsShort img) {j : Nat} (hj : ROOTINO ≤ j) :
    Referred img j ↔ ∃ p ∈ links img, p.2.inum = j := by
  have hcount := countP_refs h hs (fun p => decide (p.2 = j)) fun i => by
    simp only [ROOTINO] at hj
    simp; omega
  have hl := List.countP_pos_iff (p := fun p : Nat × Nat => decide (p.2 = j)) (l := refs img)
  have hr := List.countP_pos_iff (p := fun p : Nat × Dirent => decide (p.2.inum = j))
    (l := links img)
  simp only [decide_eq_true_eq] at hl hr
  unfold Referred
  rw [← hl, ← hr, hcount]

/-! ## From the rules to acceptance -/

theorem nodup_slotsOf (i : Nat) : (slotsOf i).Nodup := by
  have hdir : ((List.range NDIRECT).map (Slot.direct i)).Nodup :=
    List.nodup_range.map fun a b h => by cases h; rfl
  have hent : ((List.range NINDIRECT).map (Slot.entry i)).Nodup :=
    List.nodup_range.map fun a b h => by cases h; rfl
  unfold slotsOf
  rw [List.nodup_append, List.nodup_append]
  refine ⟨hdir, ⟨List.nodup_singleton _, hent, ?_⟩, ?_⟩
  · intro a ha b hb hab
    rw [List.mem_singleton] at ha
    obtain ⟨k, _, rfl⟩ := List.mem_map.mp hb
    rw [ha] at hab
    cases hab
  · intro a ha b hb hab
    obtain ⟨j, _, rfl⟩ := List.mem_map.mp ha
    subst hab
    rcases List.mem_append.mp hb with hb | hb
    · cases List.mem_singleton.mp hb
    · obtain ⟨k, _, hk⟩ := List.mem_map.mp hb
      cases hk

theorem inum_of_mem_slotsOf {p : Slot} {i : Nat} (h : p ∈ slotsOf i) : p.inum = i := by
  unfold slotsOf at h
  rcases List.mem_append.mp h with h | h
  · obtain ⟨j, _, rfl⟩ := List.mem_map.mp h; rfl
  rcases List.mem_append.mp h with h | h
  · rw [List.mem_singleton.mp h]; rfl
  · obtain ⟨k, _, rfl⟩ := List.mem_map.mp h; rfl

theorem nodup_visitedSlots (img : Image) : (visitedSlots img).Nodup := by
  unfold visitedSlots
  rw [List.nodup_flatMap]
  refine ⟨fun i _ => ?_, ?_⟩
  · split
    · exact nodup_slotsOf i
    · exact List.nodup_nil
  · refine (List.nodup_range' (h := by decide)).imp ?_
    intro i j hij p hp hq
    apply hij
    have hp' : p.inum = i := by
      simp only [] at hp
      split at hp
      · exact inum_of_mem_slotsOf hp
      · simp at hp
    have hq' : p.inum = j := by
      simp only [] at hq
      split at hq
      · exact inum_of_mem_slotsOf hq
      · simp at hq
    rw [← hp', hq']

/-- A visited slot with a non-zero address is one that its inode has. -/
theorem inUse_of_visited (hb : BootHarmless img) {p : Slot} (hp : p ∈ visitedSlots img)
    (h0 : p.addr img ≠ 0) : p.InUse img := by
  obtain ⟨i, hi, hp⟩ := List.mem_flatMap.mp hp
  obtain ⟨h₁, h₂⟩ := mem_inums.1 hi
  split at hp
  · rename_i ht
    have hinum := inum_of_mem_slotsOf hp
    refine ⟨by rw [hinum]; exact h₁, by rw [hinum]; exact h₂, by rw [hinum]; exact ht, ?_⟩
    unfold slotsOf at hp
    rcases List.mem_append.mp hp with hp | hp
    · obtain ⟨j, hj, rfl⟩ := List.mem_map.mp hp
      exact List.mem_range.mp hj
    rcases List.mem_append.mp hp with hp | hp
    · rw [List.mem_singleton.mp hp]; trivial
    · obtain ⟨k, hk, rfl⟩ := List.mem_map.mp hp
      refine ⟨?_, List.mem_range.mp hk⟩
      intro hz
      rcases hb with hb | hb
      · apply h0
        rw [Slot.addr, hz]
        simpa [indirectWord, blockOff] using hb k (List.mem_range.mp hk)
      · exact hb i h₁ h₂ ht hz
  · simp at hp

theorem Consistent.passes (h : Consistent img) (hb : BootHarmless img) :
    Passes (dataStart (superblock img)) (bmap img) (fun _ => 0)
      ((inums (superblock img).ninodes).flatMap (visitsOf img)) := by
  rw [← map_addr_visitedSlots]
  constructor
  · intro a ha
    obtain ⟨ha, h0⟩ := mem_nz.1 ha
    obtain ⟨p, hp, rfl⟩ := List.mem_map.mp ha
    exact h.valid p (inUse_of_visited hb hp h0) h0
  · intro a _ hm
    exact not_mem_zero a hm
  · rw [nz, List.filter_map]
    refine List.Nodup.map_on ?_ ((nodup_visitedSlots img).filter _)
    intro p hp q hq heq
    obtain ⟨hp, hp0⟩ := List.mem_filter.mp hp
    obtain ⟨hq, hq0⟩ := List.mem_filter.mp hq
    simp only [Function.comp_apply, ne_eq, decide_eq_true_eq] at hp0 hq0
    exact h.once p q (inUse_of_visited hb hp hp0) (inUse_of_visited hb hq hq0) hp0 heq

theorem countP_live_isDots (img : Image) (d : Dinode) :
    (live img d).countP Dirent.isDots +
      (dirSlots img d).countP (fun e => e.isDots && decide (e.inum = 0)) =
      (dirSlots img d).countP Dirent.isDots := by
  unfold live
  rw [List.countP_filter]
  induction dirSlots img d with
  | nil => rfl
  | cons e l ih =>
    simp only [List.countP_cons]
    by_cases h0 : e.inum = 0
    · cases hd : e.isDots <;> simp [h0] at ih ⊢ <;> omega
    · cases hd : e.isDots <;> simp [h0] at ih ⊢ <;> omega

theorem Consistent.dirOk (h : Consistent img) (hs : DirsShort img) (hf : FreeSlotsPlain img)
    (hn : 0 < (superblock img).ninodes) {i : Nat} (hi : IsDir img i) :
    DirOk img (superblock img).ninodes i (inode img i) := by
  have heq := h.slots_eq hs hi
  have hlive : ∀ e ∈ entries img (inode img i), e.inum ≠ 0 → e ∈ live img (inode img i) := by
    intro e he h0
    rw [← heq] at he
    exact List.mem_filter.mpr ⟨he, by simpa using h0⟩
  obtain ⟨hdot, hself, hdd⟩ := h.dots i hi
  refine ⟨hs i hi, ?_, ?_, ?_, ?_⟩
  · intro e he
    by_cases h0 : e.inum = 0
    · omega
    · exact (h.used (i, e) (mem_links.2 ⟨hi, hlive e he h0⟩)).1
  · intro e he hd
    refine hself e (hlive e he fun h0 => ?_) hd
    have := hf i hi e (by rw [heq]; exact he) h0
    simp [Dirent.isDots, hd] at this
  · rw [← heq, ← countP_live_isDots, countP_isDots, hdot, hdd, List.countP_eq_zero.mpr]
    intro e he hc
    simp only [Bool.and_eq_true, decide_eq_true_eq] at hc
    have := hf i hi e he hc.2
    rw [hc.1] at this
    cases this
  · rintro rfl
    obtain ⟨_, e, he, hd, h1⟩ := h.root
    refine ⟨e, ?_, hd, h1⟩
    rw [← heq]
    exact (List.mem_filter.mp he).1

theorem bmap_bytes (img : Image) : Bytes (bmap img) := fun _ => Region.byte_lt _ _

/-- The compared bytes agree: the marks are the used blocks. -/
theorem Consistent.bitmap_eq (h : Consistent img) (hb : BootHarmless img) {k : Nat}
    (hlo : dataStart (superblock img) ≤ 8 * k) (hhi : 8 * k + 8 ≤ FSSIZE) :
    bmap img k = marks img k := by
  have hmarks : Bytes (marks img) := Bytes.insertAll fun _ => by decide
  refine byte_eq_of_mem_iff (bmap_bytes img) hmarks fun b hb8 => ?_
  rw [mem_marks, ← map_addr_visitedSlots]
  constructor
  · intro hm
    obtain ⟨h0, p, hp, haddr⟩ := h.bitmap (8 * k + b) (by omega) (by omega) hm
    exact ⟨h0, List.mem_map.mpr ⟨p, hp.mem_visitedSlots, haddr⟩⟩
  · rintro ⟨h0, hm⟩
    obtain ⟨p, hp, haddr⟩ := List.mem_map.mp hm
    rw [← haddr] at h0 ⊢
    exact (h.valid p (inUse_of_visited hb hp h0) h0).2.2

theorem Consistent.refOk (h : Consistent img) (hs : DirsShort img) (hn : NamedOnce img) {j : Nat}
    (h₁ : ROOTINO ≤ j) (h₂ : j < (superblock img).ninodes) : RefOk img j := by
  have hj0 : ¬ (0 : Nat) = j := by
    simp only [ROOTINO] at h₁
    omega
  have hiff := referred_iff_links h hs h₁
  refine ⟨?_, ?_, ?_, ?_⟩
  · intro ht
    exact hiff.mpr (h.found j h₁ h₂ ht)
  · intro hr
    obtain ⟨p, hp, rfl⟩ := hiff.mp hr
    exact (h.used p hp).2
  · intro hf
    have hc := countP_refs h hs (fun p => decide (p.2 = j)) fun i => by simp [hj0]
    rw [refCount, hc, h.nlink j h₁ h₂ hf, Int.sub_self]
    decide
  · intro hd
    have hc := countP_refs h hs (fun p => decide (p.2 = j ∧ p.1 ≠ j)) fun i => by simp [hj0]
    rw [foreignCount, hc]
    exact hn j ⟨h₁, h₂, hd⟩

/-! ## From acceptance to the conditions -/

theorem bootHarmless_of_accepts (hc : Consistent img) (h : AcceptSpec img) : BootHarmless img := by
  by_contra hnot
  simp only [BootHarmless, not_or, not_forall] at hnot
  obtain ⟨⟨k, hk, hw⟩, i, h₁, h₂, ht, hz⟩ := hnot
  have hz : (inode img i).addr NDIRECT = 0 := not_not.mp hz
  have haddr : Slot.addr img (.entry i k) = img.u32 (4 * k) := by
    rw [Slot.addr, hz]
    simp [indirectWord, blockOff]
  have hvis : Slot.entry i k ∈ visitedSlots img := by
    refine List.mem_flatMap.mpr ⟨i, mem_inums.2 ⟨h₁, h₂⟩, ?_⟩
    rw [if_pos ht]
    exact List.mem_append_right _ (List.mem_append_right _
      (List.mem_map_of_mem (List.mem_range.mpr hk)))
  have hnz : Slot.addr img (.entry i k) ≠ 0 := by rw [haddr]; exact hw
  have hmem : Slot.addr img (.entry i k) ∈
      nz ((inums (superblock img).ninodes).flatMap (visitsOf img)) := by
    rw [← map_addr_visitedSlots]
    exact mem_nz.2 ⟨List.mem_map_of_mem hvis, hnz⟩
  obtain ⟨hds, hlt, hm⟩ := h.inodes.blocks.valid _ hmem
  -- the block that the boot block names is marked, so an inode really uses it: two visits
  obtain ⟨_, q, hq, hqaddr⟩ := hc.bitmap _ hds hlt hm
  have heq := slot_eq_of_addr_eq h.inodes.blocks.nodup hvis hq.mem_visitedSlots hnz hqaddr.symm
  subst heq
  exact hq.2.2.2.1 hz

theorem freeSlotsPlain_of_accepts (hc : Consistent img) (hs : DirsShort img)
    (h : AcceptSpec img) : FreeSlotsPlain img := by
  intro i hi e he h0
  have hdir := h.inodes.dirs i (mem_inums.2 ⟨hi.1, hi.2.1⟩) hi.2.2
  obtain ⟨hdot, _, hdd⟩ := hc.dots i hi
  have hsum := countP_live_isDots img (inode img i)
  rw [hc.slots_eq hs hi, hdir.dots, countP_isDots, hdot, hdd] at hsum
  have hzero : (entries img (inode img i)).countP
      (fun e => e.isDots && decide (e.inum = 0)) = 0 := by omega
  rw [hc.slots_eq hs hi] at he
  have := List.countP_eq_zero.mp hzero e he
  cases hd : e.isDots with
  | false => rfl
  | true => simp [hd, h0] at this

theorem namedOnce_of_accepts (hc : Consistent img) (hs : DirsShort img) (h : AcceptSpec img) :
    NamedOnce img := by
  intro j hj
  have honce := (h.refs j (mem_inums.2 ⟨hj.1, hj.2.1⟩)).once hj.2.2
  have hj0 : ¬ (0 : Nat) = j := by
    have := hj.1
    simp only [ROOTINO] at this
    omega
  have hcount := countP_refs hc hs (fun p => decide (p.2 = j ∧ p.1 ≠ j)) fun i => by simp [hj0]
  rw [foreignCount, hcount] at honce
  exact honce

/-- **When a consistent image is accepted.** -/
theorem consistent_accepts_iff (img : Image) (hsb : MkfsLayout img) (hc : Consistent img) :
    Accepts img ↔ BootHarmless img ∧ DirsShort img ∧ NamedOnce img ∧ FreeSlotsPlain img := by
  have hsb' : superblock img = mkfsSuperblock := hsb
  rw [accepts_iff]
  constructor
  · intro h
    have hs : DirsShort img := fun i hi =>
      (h.inodes.dirs i (mem_inums.2 ⟨hi.1, hi.2.1⟩) hi.2.2).size_le
    exact ⟨bootHarmless_of_accepts hc h, hs, namedOnce_of_accepts hc hs h,
      freeSlotsPlain_of_accepts hc hs h⟩
  · rintro ⟨hb, hs, hn, hf⟩
    have hstart : bitmapStart (superblock img) = 64 := by rw [hsb']; decide
    have hds : dataStart (superblock img) = 59 := by rw [hsb']; decide
    have hpos : 0 < (superblock img).ninodes := by rw [hsb']; decide
    refine ⟨by rw [hsb']; decide, by rw [hsb']; decide, ⟨?_, hc.passes hb, ?_⟩, ?_, ?_, ?_⟩
    · intro i hi
      exact hc.types i (mem_inums.1 hi).1 (mem_inums.1 hi).2
    · intro i hi hd
      exact hc.dirOk hs hf hpos ⟨(mem_inums.1 hi).1, (mem_inums.1 hi).2, hd⟩
    · rw [hstart]; decide
    · intro k hk hk80
      rw [hstart] at hk
      have hk8 : 8 ≤ k := hk
      exact hc.bitmap_eq hb (by rw [hds]; omega) (by simp only [FSSIZE]; omega)
    · intro j hj
      exact hc.refOk hs hn (mem_inums.1 hj).1 (mem_inums.1 hj).2

/-! ## A root directory alone -/

/-- The image holds a root directory with its two entries in block 59, and nothing else; nothing
is said about the boot block. -/
@[mk_iff]
structure RootAlone (img : Image) : Prop where
  layout : MkfsLayout img
  only : ∀ i < 200, 1 ≤ i → (inode img i).type ≠ 0 → i = 1
  dir : (inode img 1).type = T_DIR
  addrs : ∀ j < 13, (inode img 1).addr j = if j = 0 then 59 else 0
  live : (live img (inode img 1)).map (fun e => (e.inum, e.isDot, e.isDotDot)) =
    [(1, true, false), (1, false, true)]
  marked : FirstMarked img

theorem RootAlone.inum_eq (h : RootAlone img) {i : Nat} (h₁ : ROOTINO ≤ i)
    (h₂ : i < (superblock img).ninodes) (ht : (inode img i).type ≠ 0) : i = 1 := by
  have hn : (superblock img).ninodes = 200 := by
    have := h.layout
    rw [MkfsLayout] at this
    rw [this]
    rfl
  exact h.only i (by omega) h₁ ht

theorem RootAlone.slot (h : RootAlone img) {p : Slot} (hp : p.InUse img) (h0 : p.addr img ≠ 0) :
    p = .direct 1 0 ∧ p.addr img = 59 := by
  obtain ⟨h₁, h₂, ht, hex⟩ := hp
  have hi := h.inum_eq h₁ h₂ ht
  cases p with
  | direct i j =>
    obtain rfl : i = 1 := hi
    have hlt : j < 12 := hex
    have ha := h.addrs j (by omega)
    by_cases hj : j = 0
    · subst hj; exact ⟨rfl, ha⟩
    · rw [if_neg hj] at ha; exact absurd ha h0
  | pointer i =>
    obtain rfl : i = 1 := hi
    exact absurd (h.addrs 12 (by decide)) h0
  | entry i k =>
    obtain rfl : i = 1 := hi
    exact absurd (h.addrs 12 (by decide)) hex.1

theorem RootAlone.entry (h : RootAlone img) {e : Dirent}
    (he : e ∈ Fsck.live img (inode img 1)) :
    e.inum = 1 ∧ (e.isDotDot = false → e.isDot = true) := by
  have hm := List.mem_map_of_mem (f := fun e : Dirent => (e.inum, e.isDot, e.isDotDot)) he
  rw [h.live] at hm
  simp only [List.mem_cons, List.not_mem_nil, or_false, Prod.mk.injEq] at hm
  rcases hm with ⟨hi, hd, hdd⟩ | ⟨hi, hd, hdd⟩
  · exact ⟨hi, fun _ => hd⟩
  · exact ⟨hi, fun hc => by rw [hdd] at hc; cases hc⟩

theorem RootAlone.countP_live (h : RootAlone img) (q : Nat × Bool × Bool → Bool) :
    (Fsck.live img (inode img 1)).countP (fun e => q (e.inum, e.isDot, e.isDotDot)) =
      [(1, true, false), (1, false, true)].countP q := by
  rw [← h.live, List.countP_map]
  rfl

theorem RootAlone.consistent (h : RootAlone img) : Consistent img := by
  have hsb : superblock img = mkfsSuperblock := h.layout
  have hroot : IsDir img 1 := ⟨by decide, by rw [hsb]; decide, h.dir⟩
  have hdirs : ∀ i, IsDir img i → i = 1 := fun i hi =>
    h.inum_eq hi.1 hi.2.1 (type_ne_zero_of_dir hi.2.2)
  have hlinks : ∀ p ∈ links img, p.2.inum = 1 := by
    intro p hp
    obtain ⟨hp₁, hp₂⟩ := mem_links.1 hp
    rw [hdirs _ hp₁] at hp₂
    exact (h.entry hp₂).1
  have hds : dataStart (superblock img) = 59 := by rw [hsb]; decide
  have hdd : ∃ e ∈ Fsck.live img (inode img 1), e.isDotDot = true := by
    have := h.countP_live fun t => t.2.2
    have hpos : 0 < (Fsck.live img (inode img 1)).countP Dirent.isDotDot := by
      rw [show (Dirent.isDotDot) = fun e : Dirent => e.isDotDot from rfl, this]; decide
    simpa using List.countP_pos_iff.mp hpos
  constructor
  · intro i h₁ h₂
    by_cases ht : (inode img i).type = 0
    · exact Or.inl ht
    · rw [h.inum_eq h₁ h₂ ht]; exact Or.inr (Or.inl h.dir)
  · intro p hp h0
    rw [(h.slot hp h0).2, hds]
    exact ⟨by decide, by decide, (h.marked.mem_iff (by decide) (by decide)).mpr rfl⟩
  · intro p q hp hq h0 heq
    rw [(h.slot hp h0).1, (h.slot hq (heq ▸ h0)).1]
  · obtain ⟨e, he, hd⟩ := hdd
    exact ⟨hroot, e, he, hd, (h.entry he).1⟩
  · intro i hi
    rw [hdirs i hi]
    exact ⟨h.countP_live fun t => t.2.1, fun e he _ => (h.entry he).1,
      h.countP_live fun t => t.2.2⟩
  · intro b hlo hlt hm
    rw [hds] at hlo
    rw [(h.marked.mem_iff hlt hlo).mp hm]
    have haddr : Slot.addr img (.direct 1 0) = 59 := h.addrs 0 (by decide)
    refine ⟨by decide, .direct 1 0, ⟨hroot.1, hroot.2.1, type_ne_zero_of_dir h.dir, ?_⟩, haddr⟩
    show 0 < NDIRECT
    decide
  · intro p hp
    rw [hlinks p hp]
    exact ⟨hroot.2.1, type_ne_zero_of_dir h.dir⟩
  · intro j h₁ h₂ ht
    obtain ⟨e, he, _⟩ := hdd
    exact ⟨(1, e), mem_links.2 ⟨hroot, he⟩, by rw [h.inum_eq h₁ h₂ ht]; exact (h.entry he).1⟩
  · intro j h₁ h₂ hf
    have ht : (inode img j).type ≠ 0 := by rw [hf]; decide
    rw [h.inum_eq h₁ h₂ ht, h.dir] at hf
    exact absurd hf (by decide)
  · intro j hj
    have hzero : ∀ p ∈ links img, ¬ (decide (p.2.inum = j) && !p.2.isDots) = true := by
      intro p hp hc
      obtain ⟨hp₁, hp₂⟩ := mem_links.1 hp
      rw [hdirs _ hp₁] at hp₂
      simp only [Bool.and_eq_true, decide_eq_true_eq, Bool.not_eq_true', Dirent.isDots,
        Bool.or_eq_false_iff] at hc
      have := (h.entry hp₂).2 hc.2.2
      rw [hc.2.1] at this
      cases this
    rw [List.countP_eq_zero.mpr hzero]
    decide

/-- The root directory alone, on a disk that boots: the first word of the boot block is not zero. -/
def bootable : Image :=
  ofWords ((0, 0x8ec031fa) :: mkfsWords ++ [(16448, 1), (16452, 65536), (16456, 32), (16460, 59),
    (29696, 0xffffffff), (29700, 0x0fffffff), (30208, 0x002e0001), (30224, 0x2e2e0001)])

/-- What the verdicts on the two images need to know of them. -/
theorem rootAlone_facts : (RootAlone rootOnly ∧ RootAlone bootable) ∧ accepts bootable = false ∧
    (∀ k < NINDIRECT, rootOnly.u32 (4 * k) = 0) ∧ (inode rootOnly 1).size ≤ BSIZE ∧
    (links rootOnly).countP (fun p => decide (p.2.inum = 1 ∧ p.1 ≠ 1)) ≤ 1 ∧
    ∀ e ∈ dirSlots rootOnly (inode rootOnly 1), e.inum = 0 → e.isDots = false := by
  rw [rootAlone_iff, rootAlone_iff]
  unfold FirstMarked
  decide +kernel

/-- The root directory alone is accepted: all four conditions hold of it. -/
theorem rootOnly_consistent_accepted : Consistent rootOnly ∧ Accepts rootOnly := by
  obtain ⟨⟨halone, _⟩, _, hboot, hsize, hnamed, hplain⟩ := rootAlone_facts
  have hdirs : ∀ i, IsDir rootOnly i → i = 1 := fun i hi =>
    halone.inum_eq hi.1 hi.2.1 (type_ne_zero_of_dir hi.2.2)
  have hc := halone.consistent
  refine ⟨hc, (consistent_accepts_iff rootOnly halone.layout hc).mpr ⟨Or.inl hboot, ?_, ?_, ?_⟩⟩
  · intro i hi
    rw [hdirs i hi]
    exact hsize
  · intro j hj
    rw [hdirs j hj]
    exact hnamed
  · intro i hi
    rw [hdirs i hi]
    exact hplain

/-- The checker follows the root's zero indirect pointer and rejects a consistent image. -/
theorem bootable_consistent_rejected :
    MkfsLayout bootable ∧ Consistent bootable ∧ ¬ Accepts bootable := by
  obtain ⟨⟨_, halone⟩, hrej, _⟩ := rootAlone_facts
  refine ⟨halone.layout, halone.consistent, fun h => ?_⟩
  have hacc := accepts_eq_true.2 h
  rw [hrej] at hacc
  cases hacc

end OstepHw.Fsck
