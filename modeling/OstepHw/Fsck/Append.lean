import OstepHw.Fsck.Contest3Repair
import Mathlib.Data.Finset.Image
import Mathlib.Data.Finset.Range

/-!
# `iappend` in general

A file of up to `MAXFILE` blocks, the first `NDIRECT` of which are named in its inode and the others in the indirect
block.

* `Allocated` — the first `m` blocks are there, and nothing else is;
* `Appended` — what an append does to the image and to the inode, composed by `Appended.trans`;
* `blockFor_old`, `blockFor_new`, `write_appended` — the parts of one turn of the loop;
* `iappendLoop_spec`, `iappend_appends` — **the whole call**, for every size.
-/

set_option autoImplicit false

namespace OstepHw.Fsck.Contest3

open Loop

/-! ## Files -/

/-- The block in which file block `b` is, through the direct addresses and the indirect block. -/
def fileBlock (img : Image) (din : Dinode) (b : Nat) : Nat :=
  if b < NDIRECT then din.addr b else indirectWord img (din.addr NDIRECT) (b - NDIRECT)

/-- Byte `o` of the file. -/
def fileByte (img : Image) (din : Dinode) (o : Nat) : Nat :=
  img.byte (fileBlock img din (o / BSIZE) * BSIZE + o % BSIZE)

def content (img : Image) (din : Dinode) : List Nat := (List.range din.size).map (fileByte img din)

/-- `ceil(size / BSIZE)`. -/
def blocksFor (size : Nat) : Nat := (size + (BSIZE - 1)) / BSIZE

/-- The blocks of the file with the indirect block. -/
def usedBlocks (m : Nat) : Nat := if NDIRECT < m then m + 1 else m

/-- The blocks that belong to a file of `m` blocks. -/
def ownBlocks (img : Image) (din : Dinode) (m : Nat) : Finset Nat :=
  (Finset.range m).image (fileBlock img din) ∪ if NDIRECT < m then {din.addr NDIRECT} else ∅

/-- The first `m` blocks of the file are different blocks below `d`, and so is the indirect block if there is one; all
further addresses are zero. -/
structure Allocated (img : Image) (din : Dinode) (m d : Nat) : Prop where
  lt : ∀ b < m, fileBlock img din b < d
  distinct : ∀ b < m, ∀ c < m, fileBlock img din b = fileBlock img din c → b = c
  indirect : NDIRECT < m →
    din.addr NDIRECT ≠ 0 ∧ din.addr NDIRECT < d ∧ ∀ b < m, fileBlock img din b ≠ din.addr NDIRECT
  free : ∀ b, m ≤ b → b < NDIRECT → din.addr b = 0
  no_indirect : m ≤ NDIRECT → din.addr NDIRECT = 0
  free_entries : NDIRECT < m → ∀ b, m ≤ b → b < MAXFILE → fileBlock img din b = 0

/-- Two images have the same bytes in block `x`. -/
def SameBlock (img img' : Image) (x : Nat) : Prop := ∀ i < BSIZE, img'.byte (x * BSIZE + i) = img.byte (x * BSIZE + i)

/-- The blocks from `d` to `e` are zero. -/
def ZeroBlocks (img : Image) (d e : Nat) : Prop := ∀ x, d ≤ x → x < e → ∀ i < BSIZE, img.byte (x * BSIZE + i) = 0

variable {img img' : Image} {din : Dinode} {a a' a'' : Append} {b m m' m'' d x : Nat}

theorem mem_ownBlocks : x ∈ ownBlocks img din m ↔
    (∃ b < m, fileBlock img din b = x) ∨ (NDIRECT < m ∧ din.addr NDIRECT = x) := by
  unfold ownBlocks
  split
  · next h =>
    simp only [Finset.mem_union, Finset.mem_image, Finset.mem_range, Finset.mem_singleton, h, true_and,
      eq_comm]
  · next h => simp only [Finset.mem_union, Finset.mem_image, Finset.mem_range, Finset.notMem_empty, h, false_and]

theorem fileBlock_direct (hb : b < NDIRECT) : fileBlock img din b = din.addr b := if_pos hb

theorem fileBlock_indirect (hb : NDIRECT ≤ b) :
    fileBlock img din b = indirectWord img (din.addr NDIRECT) (b - NDIRECT) := if_neg (Nat.not_lt.mpr hb)

theorem Allocated.own_lt (h : Allocated img din m d) (hx : x ∈ ownBlocks img din m) : x < d := by
  rcases mem_ownBlocks.1 hx with ⟨b, hb, rfl⟩ | ⟨hm, rfl⟩
  · exact h.lt b hb
  · exact (h.indirect hm).2.1

theorem usedBlocks_mono (h : m ≤ m') : usedBlocks m ≤ usedBlocks m' := by
  unfold usedBlocks
  split <;> split <;> omega

/-! ## Bytes -/

theorem SameBlock.trans {img'' : Image} (h : SameBlock img img' x) (h' : SameBlock img' img'' x) :
    SameBlock img img'' x := fun i hi => (h' i hi).trans (h i hi)

theorem sameBlock_write {y o : Nat} {bytes : List UInt8} (ho : o + bytes.length ≤ BSIZE) (hne : y ≠ x) :
    SameBlock img (img.write (x * BSIZE + o) bytes) y := by
  intro i hi
  simp only [BSIZE] at *
  exact Region.byte_write_of_outside _ (by omega)

theorem indirectWord_congr {k : Nat} (h : SameBlock img img' x) (hx : x < FSSIZE) (hk : k < NINDIRECT) :
    indirectWord img' x k = indirectWord img x k := by
  rw [indirectWord, indirectWord, blockOff_of_lt hx]
  apply Region.u32_congr
  intro i hi
  rw [Nat.add_assoc]
  refine h (4 * k + i) ?_
  simp only [NINDIRECT, BSIZE] at *
  omega

/-- The file is where it was when its indirect block is. -/
theorem fileBlock_congr (h : NDIRECT ≤ b → SameBlock img img' (din.addr NDIRECT)) (hlt : din.addr NDIRECT < FSSIZE)
    (hb : b < MAXFILE) : fileBlock img' din b = fileBlock img din b := by
  by_cases hd : b < NDIRECT
  · rw [fileBlock_direct hd, fileBlock_direct hd]
  · rw [fileBlock_indirect (Nat.not_lt.mp hd), fileBlock_indirect (Nat.not_lt.mp hd)]
    refine indirectWord_congr (h (Nat.not_lt.mp hd)) hlt ?_
    simp only [MAXFILE] at hb
    omega

/-- The entry `j` of the indirect block `x` is set. -/
theorem indirectWord_write {j k w : Nat} (hx : x < FSSIZE) (hj : j < NINDIRECT) (hk : k < NINDIRECT)
    (hw : w < 4294967296) :
    indirectWord (img.write (x * BSIZE + 4 * j) ((List.range 4).map (byteOf w))) x k =
      if k = j then w else indirectWord img x k := by
  have hlen : ((List.range 4).map (byteOf w)).length = 4 := rfl
  simp only [indirectWord, blockOff_of_lt hx]
  simp only [NINDIRECT, FSSIZE, BSIZE] at *
  split
  · next heq =>
    subst heq
    refine Region.u32_of_bytes hw fun i hi => ?_
    rw [Region.byte_write_of_inside _ (by omega) (by simp only [IMG_SIZE, FSSIZE, BSIZE]; omega), List.getElem_map,
      List.getElem_range]
  · next hne =>
    exact Region.u32_congr fun i hi => Region.byte_write_of_outside _ (by omega)

theorem fileBlock_write {y : Nat} (hx : din.addr NDIRECT < FSSIZE) (hm : NDIRECT ≤ m) (hmax : m < MAXFILE)
    (hy : y < 4294967296) (hb : b < MAXFILE) :
    fileBlock (img.write (din.addr NDIRECT * BSIZE + 4 * (m - NDIRECT)) ((List.range 4).map (byteOf y))) din b =
      if b = m then y else fileBlock img din b := by
  simp only [MAXFILE] at hmax hb
  by_cases hd : b < NDIRECT
  · rw [fileBlock_direct hd, fileBlock_direct hd, if_neg (by omega)]
  · rw [fileBlock_indirect (Nat.not_lt.mp hd), fileBlock_indirect (Nat.not_lt.mp hd),
      indirectWord_write hx (by omega) (by omega) hy]
    exact if_congr (by omega) rfl rfl

theorem indirectWord_zero {k : Nat} (hzero : ∀ i < BSIZE, img.byte (x * BSIZE + i) = 0) (hx : x < FSSIZE)
    (hk : k < NINDIRECT) : indirectWord img x k = 0 := by
  rw [indirectWord, blockOff_of_lt hx]
  refine Region.u32_of_bytes (by decide) fun i hi => ?_
  rw [Nat.add_assoc, hzero (4 * k + i) (by simp only [NINDIRECT, BSIZE] at *; omega), toNat_byteOf, Nat.zero_div]

theorem addr_setAddr {i j : Nat} (hi : i < 13) (y : Nat) :
    (setAddr din j y).addr i = if i = j then y else din.addr i := by
  simp only [setAddr, Dinode.addr, dif_pos hi]

/-! ## Appending -/

/-- The bytes `p` are appended to a file of `m` blocks, which has `m'` blocks then. -/
structure Appended (a a' : Append) (m m' : Nat) (p : List UInt8) : Prop where
  alloc : Allocated a'.img a'.din m' a'.dataEndBlock
  next : a'.dataEndBlock + usedBlocks m = a.dataEndBlock + usedBlocks m'
  own : ∀ x, x ∈ ownBlocks a'.img a'.din m' ↔
    x ∈ ownBlocks a.img a.din m ∨ (a.dataEndBlock ≤ x ∧ x < a'.dataEndBlock)
  same : ∀ b < m, fileBlock a'.img a'.din b = fileBlock a.img a.din b
  fields : ∃ addrs, a'.din = { a.din with addrs := addrs }
  off : a'.off = a.off + p.length
  old : ∀ o < a.off, fileByte a'.img a'.din o = fileByte a.img a.din o
  new : ∀ i (hi : i < p.length), fileByte a'.img a'.din (a.off + i) = p[i].toNat
  frame : ∀ x, x ∉ ownBlocks a.img a.din m → ¬(a.dataEndBlock ≤ x ∧ x < a'.dataEndBlock) →
    SameBlock a.img a'.img x

theorem Appended.le {p : List UInt8} (h : Appended a a' m m' p) (hm : m ≤ m') :
    a.dataEndBlock ≤ a'.dataEndBlock := by
  have := h.next
  have := usedBlocks_mono hm
  omega

theorem Appended.trans {p q : List UInt8} (h : Appended a a' m m' p) (h' : Appended a' a'' m' m'' q) (hm : m ≤ m')
    (hm' : m' ≤ m'') : Appended a a'' m m'' (p ++ q) where
  alloc := h'.alloc
  next := by
    have := h.next
    have := h'.next
    omega
  own x := by
    have hle := h.le hm
    have hle' := h'.le hm'
    rw [h'.own, h.own, or_assoc]
    refine or_congr_right ⟨fun hx => ?_, fun hx => ?_⟩
    · omega
    · omega
  same b hb := (h'.same b (hb.trans_le hm)).trans (h.same b hb)
  fields := by
    obtain ⟨addrs, haddrs⟩ := h.fields
    obtain ⟨addrs', haddrs'⟩ := h'.fields
    exact ⟨addrs', by rw [haddrs', haddrs]⟩
  off := by rw [h'.off, h.off, List.length_append, Nat.add_assoc]
  old o ho := (h'.old o (by have := h.off; omega)).trans (h.old o ho)
  new i hi := by
    rw [List.length_append] at hi
    by_cases hp : i < p.length
    · rw [List.getElem_append_left hp, h'.old _ (by have := h.off; omega), h.new i hp]
    · rw [List.getElem_append_right (by omega)]
      have hnew := h'.new (i - p.length) (by omega)
      have hpos : a'.off + (i - p.length) = a.off + i := by
        have := h.off
        omega
      rwa [hpos] at hnew
  frame x hx hnew := by
    have := h.le hm
    have := h'.le hm'
    have hx' : x ∉ ownBlocks a'.img a'.din m' := by
      rw [h.own]
      exact fun h => h.elim hx fun h => hnew ⟨h.1, by omega⟩
    exact (h.frame x hx fun h => hnew ⟨h.1, by omega⟩).trans (h'.frame x hx' fun h => hnew ⟨by omega, h.2⟩)

/-! ## Writing into the last block -/

/-- The file does not change when its indirect block does not. -/
theorem Allocated.fileBlock_eq (h : Allocated img din m d) (hd : d ≤ FSSIZE)
    (hind : NDIRECT < m → SameBlock img img' (din.addr NDIRECT)) (hb : b < MAXFILE) (hbm : b < m ∨ NDIRECT < m) :
    fileBlock img' din b = fileBlock img din b := by
  refine fileBlock_congr (fun hge => hind (by omega)) ?_ hb
  by_cases hm : NDIRECT < m
  · exact (h.indirect hm).2.1.trans_le hd
  · rw [h.no_indirect (Nat.not_lt.mp hm)]
    decide

theorem Allocated.congr (h : Allocated img din m d) (hd : d ≤ FSSIZE) (hm : m ≤ MAXFILE)
    (hind : NDIRECT < m → SameBlock img img' (din.addr NDIRECT)) : Allocated img' din m d := by
  have hsame : ∀ b < m, fileBlock img' din b = fileBlock img din b := fun b hb =>
    h.fileBlock_eq hd hind (hb.trans_le hm) (.inl hb)
  refine ⟨fun b hb => ?_, fun b hb c hc heq => ?_, fun hlt => ?_, h.free, h.no_indirect, fun hlt b hmb hb => ?_⟩
  · rw [hsame b hb]
    exact h.lt b hb
  · rw [hsame b hb, hsame c hc] at heq
    exact h.distinct b hb c hc heq
  · obtain ⟨hne, hltd, hdiff⟩ := h.indirect hlt
    refine ⟨hne, hltd, fun b hb => ?_⟩
    rw [hsame b hb]
    exact hdiff b hb
  · rw [h.fileBlock_eq hd hind hb (.inr hlt)]
    exact h.free_entries hlt b hmb hb

/-- The bytes `q` fit into the block of the next byte. -/
theorem write_appended {q : List UInt8} (h : Allocated a.img a.din m a.dataEndBlock) (hd : a.dataEndBlock ≤ FSSIZE)
    (hm : a.off / BSIZE + 1 = m) (hmax : m ≤ MAXFILE) (hq : a.off % BSIZE + q.length ≤ BSIZE) :
    Appended a { a with
      img := a.img.write (fileBlock a.img a.din (a.off / BSIZE) * BSIZE + a.off % BSIZE) q
      off := a.off + q.length } m m q := by
  have hlast : a.off / BSIZE < m := by omega
  have hxd := h.lt _ hlast
  have hind : NDIRECT < m → SameBlock a.img
      (a.img.write (fileBlock a.img a.din (a.off / BSIZE) * BSIZE + a.off % BSIZE) q) (a.din.addr NDIRECT) :=
    fun hlt => sameBlock_write hq ((h.indirect hlt).2.2 _ hlast).symm
  have hsame : ∀ b < m, fileBlock (a.img.write (fileBlock a.img a.din (a.off / BSIZE) * BSIZE + a.off % BSIZE) q)
      a.din b = fileBlock a.img a.din b := fun b hb => h.fileBlock_eq hd hind (hb.trans_le hmax) (.inl hb)
  refine ⟨h.congr hd hmax hind, rfl, fun x => ?_, hsame, ⟨_, rfl⟩, rfl, fun o ho => ?_, fun i hi => ?_,
    fun x hx _ => ?_⟩
  · rw [mem_ownBlocks, mem_ownBlocks]
    have hiff : (∃ b < m, fileBlock (a.img.write (fileBlock a.img a.din (a.off / BSIZE) * BSIZE + a.off % BSIZE) q)
        a.din b = x) ↔ ∃ b < m, fileBlock a.img a.din b = x :=
      exists_congr fun b => and_congr_right fun hb => by rw [hsame b hb]
    rw [hiff]
    exact (or_iff_left (fun h => absurd h.1 (Nat.not_le.mpr h.2))).symm
  · have hob : o / BSIZE < m := by
      simp only [BSIZE] at *
      omega
    rw [fileByte, fileByte, hsame _ hob]
    by_cases heq : fileBlock a.img a.din (o / BSIZE) = fileBlock a.img a.din (a.off / BSIZE)
    · -- in the block of the next byte, but before it
      have hblock := h.distinct _ hob _ hlast heq
      rw [heq]
      refine Region.byte_write_of_outside _ ?_
      simp only [BSIZE] at *
      omega
    · exact sameBlock_write hq heq _ (Nat.mod_lt _ (by decide))
  · have hdiv : (a.off + i) / BSIZE = a.off / BSIZE := by
      simp only [BSIZE] at *
      omega
    have hmod : (a.off + i) % BSIZE = a.off % BSIZE + i := by
      simp only [BSIZE] at *
      omega
    rw [fileByte, hdiv, hsame _ hlast, hmod, ← Nat.add_assoc]
    refine Region.byte_write_of_inside _ hi ?_
    simp only [BSIZE, FSSIZE, IMG_SIZE] at *
    omega
  · refine sameBlock_write hq fun heq => hx ?_
    exact mem_ownBlocks.2 (.inl ⟨_, hlast, heq.symm⟩)

/-! ## The block of the next byte -/

theorem Appended.refl (h : Allocated a.img a.din m a.dataEndBlock) : Appended a a m m [] where
  alloc := h
  next := rfl
  own _ := (or_iff_left fun h => absurd h.1 (Nat.not_le.mpr h.2)).symm
  same _ _ := rfl
  fields := ⟨a.din.addrs, rfl⟩
  off := rfl
  old _ _ := rfl
  new i hi := absurd hi (Nat.not_lt_zero i)
  frame _ _ _ _ _ := rfl

/-- It is there already. -/
theorem blockFor_old (h : Allocated a.img a.din m a.dataEndBlock) (hd : a.dataEndBlock ≤ FSSIZE) (hb : b < m)
    (hne : fileBlock a.img a.din b ≠ 0) : a.blockFor b = .ok (a, fileBlock a.img a.din b) := by
  unfold Append.blockFor
  by_cases hdir : b < NDIRECT
  · rw [if_pos hdir, fileBlock_direct hdir] at *
    have hensure : a.ensureAddr b = a := if_neg hne
    rw [hensure]
  · obtain ⟨hind, hindd, -⟩ := h.indirect (by omega)
    have hensure : a.ensureAddr NDIRECT = a := if_neg hind
    have hmove : memmove a.img (blockOff (a.din.addr NDIRECT)) (4 * NINDIRECT) = .ok () := by
      rw [blockOff_of_lt (hindd.trans_le hd), memmove_eq_ok]
      simp only [NINDIRECT, BSIZE, FSSIZE, IMG_SIZE] at *
      omega
    rw [fileBlock_indirect (Nat.not_lt.mp hdir)] at hne ⊢
    simp only [if_neg hdir, hensure, hmove, ok_bind, if_neg hne]
    rfl

/-- The file has got its block `m`, which is `y`; the first one behind the direct addresses comes with the indirect
block. -/
structure NewBlock (a a' : Append) (m y : Nat) : Prop where
  same : ∀ b < m, fileBlock a'.img a'.din b = fileBlock a.img a.din b
  block : fileBlock a'.img a'.din m = y
  direct : m < NDIRECT → y = a.dataEndBlock ∧ a'.dataEndBlock = a.dataEndBlock + 1 ∧ a'.din.addr NDIRECT = 0
  first : m = NDIRECT → a'.din.addr NDIRECT = a.dataEndBlock ∧ a.dataEndBlock ≠ 0 ∧
    y = a.dataEndBlock + 1 ∧ a'.dataEndBlock = a.dataEndBlock + 2
  entry : NDIRECT < m → a'.din.addr NDIRECT = a.din.addr NDIRECT ∧ y = a.dataEndBlock ∧
    a'.dataEndBlock = a.dataEndBlock + 1
  free : ∀ b, m < b → b < NDIRECT → a'.din.addr b = 0
  free_entries : NDIRECT ≤ m → ∀ b, m < b → b < MAXFILE → fileBlock a'.img a'.din b = 0
  fields : ∃ addrs, a'.din = { a.din with addrs := addrs }
  off : a'.off = a.off
  frame : ∀ x, (NDIRECT ≤ m → x ≠ a'.din.addr NDIRECT) → SameBlock a.img a'.img x

namespace NewBlock

variable {y : Nat} (hnew : NewBlock a a' m y) (h : Allocated a.img a.din m a.dataEndBlock)

include hnew

/-- Where it is, and how many blocks there are now. -/
theorem range : a.dataEndBlock ≤ y ∧ y < a'.dataEndBlock ∧
    a'.dataEndBlock + usedBlocks m = a.dataEndBlock + usedBlocks (m + 1) := by
  unfold usedBlocks
  rcases Nat.lt_trichotomy m NDIRECT with hm | hm | hm
  · have := hnew.direct hm
    rw [if_neg (by omega), if_neg (by omega)]
    omega
  · have := hnew.first hm
    rw [if_neg (by omega), if_pos (by omega)]
    omega
  · have := hnew.entry hm
    rw [if_pos (by omega), if_pos (by omega)]
    omega

/-- Which of the new blocks is `x`. -/
theorem new_iff : (a.dataEndBlock ≤ x ∧ x < a'.dataEndBlock) ↔
    y = x ∨ NDIRECT = m ∧ a'.din.addr NDIRECT = x := by
  rcases Nat.lt_trichotomy m NDIRECT with hm | hm | hm
  · have := hnew.direct hm
    omega
  · have := hnew.first hm
    omega
  · have := hnew.entry hm
    omega

include h

theorem old_lt (hb : b < m) : fileBlock a'.img a'.din b < a.dataEndBlock := by
  rw [hnew.same b hb]
  exact h.lt b hb

theorem cases (hb : b < m + 1) :
    b < m ∧ fileBlock a'.img a'.din b < a.dataEndBlock ∨ b = m ∧ fileBlock a'.img a'.din b = y := by
  rcases Nat.eq_or_lt_of_le (Nat.le_of_lt_succ hb) with rfl | hb
  · exact .inr ⟨rfl, hnew.block⟩
  · exact .inl ⟨hb, hnew.old_lt h hb⟩

theorem indirect (hge : NDIRECT ≤ m) : a'.din.addr NDIRECT ≠ 0 ∧ a'.din.addr NDIRECT < a'.dataEndBlock ∧
    y ≠ a'.din.addr NDIRECT ∧ ∀ b < m, fileBlock a'.img a'.din b ≠ a'.din.addr NDIRECT := by
  rcases Nat.eq_or_lt_of_le hge with hm | hm
  · obtain ⟨hi, hne, hy, hd⟩ := hnew.first hm.symm
    refine ⟨by omega, by omega, by omega, fun b hb => ?_⟩
    have := hnew.old_lt h hb
    omega
  · obtain ⟨hi, hy, hd⟩ := hnew.entry hm
    obtain ⟨hne, hlt, hdiff⟩ := h.indirect hm
    refine ⟨by omega, by omega, by omega, fun b hb => ?_⟩
    rw [hi, hnew.same b hb]
    exact hdiff b hb

theorem distinct {c : Nat} (hb : b < m + 1) (hc : c < m + 1)
    (heq : fileBlock a'.img a'.din b = fileBlock a'.img a'.din c) : b = c := by
  have hrange := hnew.range
  rcases hnew.cases h hb with ⟨hbm, hlt⟩ | ⟨rfl, hby⟩
  · rcases hnew.cases h hc with ⟨hcm, -⟩ | ⟨rfl, hcy⟩
    · rw [hnew.same b hbm, hnew.same c hcm] at heq
      exact h.distinct b hbm c hcm heq
    · omega
  · rcases hnew.cases h hc with ⟨-, hlt⟩ | ⟨rfl, -⟩
    · omega
    · rfl

theorem allocated : Allocated a'.img a'.din (m + 1) a'.dataEndBlock where
  lt b hb := by
    have hrange := hnew.range
    rcases hnew.cases h hb with ⟨-, hlt⟩ | ⟨-, heq⟩
    · omega
    · omega
  distinct b hb c hc heq := hnew.distinct h hb hc heq
  indirect hm := by
    obtain ⟨hne, hlt, hyi, hdiff⟩ := hnew.indirect h (Nat.le_of_lt_succ hm)
    refine ⟨hne, hlt, fun b hb => ?_⟩
    rcases hnew.cases h hb with ⟨hbm, -⟩ | ⟨rfl, hby⟩
    · exact hdiff b hbm
    · rwa [hby]
  free b hb hd := hnew.free b hb hd
  no_indirect hm := (hnew.direct (Nat.lt_of_succ_le hm)).2.2
  free_entries hm b hb hmax := hnew.free_entries (Nat.le_of_lt_succ hm) b hb hmax

theorem own (x : Nat) : x ∈ ownBlocks a'.img a'.din (m + 1) ↔
    x ∈ ownBlocks a.img a.din m ∨ a.dataEndBlock ≤ x ∧ x < a'.dataEndBlock := by
  have hiff : (∃ b < m + 1, fileBlock a'.img a'.din b = x) ↔ (∃ b < m, fileBlock a.img a.din b = x) ∨ y = x := by
    constructor
    · rintro ⟨b, hb, rfl⟩
      rcases hnew.cases h hb with ⟨hbm, -⟩ | ⟨-, hby⟩
      · exact .inl ⟨b, hbm, (hnew.same b hbm).symm⟩
      · exact .inr hby.symm
    · rintro (⟨b, hb, rfl⟩ | rfl)
      · exact ⟨b, Nat.lt_succ_of_lt hb, hnew.same b hb⟩
      · exact ⟨m, Nat.lt_succ_self m, hnew.block⟩
  rw [mem_ownBlocks, mem_ownBlocks, hiff, or_assoc, or_assoc, hnew.new_iff]
  refine or_congr_right ?_
  rcases Nat.lt_trichotomy m NDIRECT with hm | hm | hm
  · omega
  · omega
  · have := (hnew.entry hm).1
    omega

theorem appended (hpos : ∀ o < a.off, o / BSIZE < m) : Appended a a' m (m + 1) [] where
  alloc := hnew.allocated h
  next := hnew.range.2.2
  own := hnew.own h
  same := hnew.same
  fields := hnew.fields
  off := hnew.off
  old o ho := by
    have hb := hpos o ho
    rw [fileByte, fileByte, hnew.same _ hb]
    refine hnew.frame _ (fun hge => ?_) _ (Nat.mod_lt _ (by decide))
    rw [← hnew.same _ hb]
    exact (hnew.indirect h hge).2.2.2 _ hb
  new i hi := absurd hi (Nat.not_lt_zero i)
  frame x hx hfree := by
    refine hnew.frame x fun hge => ?_
    rcases Nat.eq_or_lt_of_le hge with hm | hm
    · have := hnew.first hm.symm
      omega
    · rw [(hnew.entry hm).1]
      exact fun heq => hx (mem_ownBlocks.2 (.inr ⟨hm, heq.symm⟩))

end NewBlock

section New

variable (h : Allocated a.img a.din m a.dataEndBlock) (hpos : ∀ o < a.off, o / BSIZE < m)

include h hpos

/-- It gets a direct address. -/
theorem blockFor_direct (hlt : m < NDIRECT) (hroom : a.dataEndBlock + 1 ≤ FSSIZE) :
    ∃ a', a.blockFor m = .ok (a', fileBlock a'.img a'.din m) ∧ Appended a a' m (m + 1) [] := by
  have hincr : (a.dataEndBlock + 1) % 2 ^ 32 = a.dataEndBlock + 1 := by
    simp only [FSSIZE] at hroom
    omega
  have hensure : a.ensureAddr m =
      { a with dataEndBlock := a.dataEndBlock + 1, din := setAddr a.din m a.dataEndBlock } := by
    rw [Append.ensureAddr, if_pos (h.free m le_rfl hlt), Append.allocated, hincr]
  have haddr : ∀ b < 13, (setAddr a.din m a.dataEndBlock).addr b =
      if b = m then a.dataEndBlock else a.din.addr b := fun b hb => addr_setAddr hb _
  have hfile : ∀ b < NDIRECT, fileBlock a.img (setAddr a.din m a.dataEndBlock) b =
      if b = m then a.dataEndBlock else fileBlock a.img a.din b := fun b hb => by
    rw [fileBlock_direct hb, fileBlock_direct hb, haddr b (by simp only [NDIRECT] at hb; omega)]
  refine ⟨{ a with dataEndBlock := a.dataEndBlock + 1, din := setAddr a.din m a.dataEndBlock }, ?_, ?_⟩
  · unfold Append.blockFor
    simp only [if_pos hlt, hensure]
    rw [fileBlock_direct hlt]
  · refine NewBlock.appended (y := a.dataEndBlock) ⟨fun b hb => ?_, ?_, fun _ => ⟨rfl, rfl, ?_⟩,
      fun heq => absurd heq (Nat.ne_of_lt hlt), fun hgt => absurd hgt (Nat.lt_asymm hlt), fun b hb hd => ?_,
      fun hge => absurd hge (Nat.not_le.mpr hlt), ⟨_, rfl⟩, rfl, fun x _ _ _ => rfl⟩ h hpos
    · rw [hfile b (hb.trans hlt), if_neg (Nat.ne_of_lt hb)]
    · rw [hfile m hlt, if_pos rfl]
    · rw [haddr NDIRECT (by decide), if_neg (Nat.ne_of_gt hlt), h.no_indirect hlt.le]
    · rw [haddr b (by simp only [NDIRECT] at hd; omega), if_neg (Nat.ne_of_gt hb), h.free b hb.le hd]

/-- It gets the first entry of the indirect block, which is allocated as well. -/
theorem blockFor_first (heq : m = NDIRECT) {e : Nat} (hroom : a.dataEndBlock + 2 ≤ e) (he : e ≤ FSSIZE)
    (hzero : ZeroBlocks a.img a.dataEndBlock e) :
    ∃ a', a.blockFor m = .ok (a', fileBlock a'.img a'.din m) ∧ Appended a a' m (m + 1) [] := by
  subst heq
  have hlt : a.dataEndBlock < FSSIZE := by omega
  have hincr : (a.dataEndBlock + 1) % 2 ^ 32 = a.dataEndBlock + 1 := by
    simp only [FSSIZE] at hlt
    omega
  have hincr' : (a.dataEndBlock + 1 + 1) % 2 ^ 32 = a.dataEndBlock + 2 := by
    simp only [FSSIZE] at hlt
    omega
  have hdpos : a.dataEndBlock ≠ 0 := by
    have := h.lt 0 (by decide)
    omega
  have hensure : a.ensureAddr NDIRECT =
      { a with dataEndBlock := a.dataEndBlock + 1, din := setAddr a.din NDIRECT a.dataEndBlock } := by
    rw [Append.ensureAddr, if_pos (h.no_indirect le_rfl), Append.allocated, hincr]
  have haddr : ∀ b < 13, (setAddr a.din NDIRECT a.dataEndBlock).addr b =
      if b = NDIRECT then a.dataEndBlock else a.din.addr b := fun b hb => addr_setAddr hb _
  have hind : (setAddr a.din NDIRECT a.dataEndBlock).addr NDIRECT = a.dataEndBlock := by
    rw [haddr NDIRECT (by decide), if_pos rfl]
  have hentry : ∀ k < NINDIRECT, indirectWord a.img a.dataEndBlock k = 0 := fun k hk =>
    indirectWord_zero (hzero a.dataEndBlock le_rfl (by omega)) hlt hk
  have hmove : memmove a.img (a.dataEndBlock * BSIZE) (4 * NINDIRECT) = .ok () := by
    rw [memmove_eq_ok]
    simp only [NINDIRECT, BSIZE, FSSIZE, IMG_SIZE] at *
    omega
  have hfile : ∀ b < MAXFILE, fileBlock (a.img.write (a.dataEndBlock * BSIZE + 4 * 0)
      ((List.range 4).map (byteOf (a.dataEndBlock + 1)))) (setAddr a.din NDIRECT a.dataEndBlock) b =
        if b = NDIRECT then a.dataEndBlock + 1
        else fileBlock a.img (setAddr a.din NDIRECT a.dataEndBlock) b := by
    intro b hb
    rw [← fileBlock_write (hind ▸ hlt) le_rfl (by decide) (by simp only [FSSIZE] at hlt; omega) hb, hind, Nat.sub_self]
  refine ⟨{ a with
    img := a.img.write (a.dataEndBlock * BSIZE + 4 * 0) ((List.range 4).map (byteOf (a.dataEndBlock + 1)))
    dataEndBlock := a.dataEndBlock + 2
    din := setAddr a.din NDIRECT a.dataEndBlock }, ?_, ?_⟩
  · unfold Append.blockFor
    simp only [if_neg (Nat.lt_irrefl NDIRECT), hensure, hind, blockOff_of_lt hlt, hmove, ok_bind, Nat.sub_self,
      hentry 0 (by decide), if_true, Append.allocated, hincr', hfile NDIRECT (by decide)]
    rfl
  · refine NewBlock.appended (y := a.dataEndBlock + 1) ⟨fun b hb => ?_, ?_,
      fun hlt => absurd hlt (Nat.lt_irrefl _), fun _ => ⟨hind, hdpos, rfl, rfl⟩,
      fun hgt => absurd hgt (Nat.lt_irrefl _), fun b hb hd => absurd hb (Nat.lt_asymm hd), fun _ b hb hmax => ?_,
      ⟨_, rfl⟩, rfl, fun x hx => ?_⟩ h hpos
    · rw [hfile b (hb.trans (by decide)), if_neg (Nat.ne_of_lt hb), fileBlock_direct hb, fileBlock_direct hb,
        haddr b (by simp only [NDIRECT] at hb; omega), if_neg (Nat.ne_of_lt hb)]
    · rw [hfile NDIRECT (by decide), if_pos rfl]
    · rw [hfile b hmax, if_neg (Nat.ne_of_gt hb), fileBlock_indirect hb.le, hind]
      exact hentry _ (by simp only [MAXFILE] at hmax; omega)
    · have hlen : 4 * 0 + ((List.range 4).map (byteOf (a.dataEndBlock + 1))).length ≤ BSIZE := by
        rw [List.length_map, List.length_range]
        decide
      exact sameBlock_write hlen (hind ▸ hx le_rfl)

/-- It gets a further entry. -/
theorem blockFor_entry (hgt : NDIRECT < m) (hm : m < MAXFILE) (hroom : a.dataEndBlock + 1 ≤ FSSIZE) :
    ∃ a', a.blockFor m = .ok (a', fileBlock a'.img a'.din m) ∧ Appended a a' m (m + 1) [] := by
  obtain ⟨hne, hindd, hdiff⟩ := h.indirect hgt
  have hlt : a.din.addr NDIRECT < FSSIZE := by omega
  have hincr : (a.dataEndBlock + 1) % 2 ^ 32 = a.dataEndBlock + 1 := by
    simp only [FSSIZE] at hroom
    omega
  have hensure : a.ensureAddr NDIRECT = a := if_neg hne
  have hmove : memmove a.img (a.din.addr NDIRECT * BSIZE) (4 * NINDIRECT) = .ok () := by
    rw [memmove_eq_ok]
    simp only [NINDIRECT, BSIZE, FSSIZE, IMG_SIZE] at *
    omega
  have hentry : indirectWord a.img (a.din.addr NDIRECT) (m - NDIRECT) = 0 := by
    rw [← fileBlock_indirect hgt.le]
    exact h.free_entries hgt m le_rfl hm
  have hfile : ∀ b < MAXFILE, fileBlock (a.img.write (a.din.addr NDIRECT * BSIZE + 4 * (m - NDIRECT))
      ((List.range 4).map (byteOf a.dataEndBlock))) a.din b =
        if b = m then a.dataEndBlock else fileBlock a.img a.din b := fun b hb =>
    fileBlock_write hlt hgt.le hm (by simp only [FSSIZE] at hroom; omega) hb
  refine ⟨{ a with
    img := a.img.write (a.din.addr NDIRECT * BSIZE + 4 * (m - NDIRECT)) ((List.range 4).map (byteOf a.dataEndBlock))
    dataEndBlock := a.dataEndBlock + 1 }, ?_, ?_⟩
  · unfold Append.blockFor
    simp only [if_neg (Nat.not_lt.mpr hgt.le), hensure, blockOff_of_lt hlt, hmove, ok_bind, hentry, if_true,
      Append.allocated, hincr, hfile m hm]
    rfl
  · refine NewBlock.appended (y := a.dataEndBlock) ⟨fun b hb => ?_, ?_,
      fun hlt => absurd hlt (Nat.lt_asymm hgt), fun heq => absurd heq (Nat.ne_of_gt hgt),
      fun _ => ⟨rfl, rfl, rfl⟩, fun b hb hd => absurd hgt (Nat.lt_asymm (hb.trans hd)), fun _ b hb hmax => ?_,
      ⟨_, rfl⟩, rfl, fun x hx => ?_⟩ h hpos
    · rw [hfile b (hb.trans hm), if_neg (Nat.ne_of_lt hb)]
    · rw [hfile m hm, if_pos rfl]
    · rw [hfile b hmax, if_neg (Nat.ne_of_gt hb)]
      exact h.free_entries hgt b hb.le hmax
    · refine sameBlock_write ?_ (hx hgt.le)
      simp only [List.length_map, List.length_range, MAXFILE, NINDIRECT, BSIZE] at *
      omega

/-- It is allocated. -/
theorem blockFor_new (hm : m < MAXFILE) {e : Nat} (hroom : a.dataEndBlock + usedBlocks (m + 1) ≤ e + usedBlocks m)
    (he : e ≤ FSSIZE) (hzero : ZeroBlocks a.img a.dataEndBlock e) :
    ∃ a', a.blockFor m = .ok (a', fileBlock a'.img a'.din m) ∧ Appended a a' m (m + 1) [] := by
  unfold usedBlocks at hroom
  rcases Nat.lt_trichotomy m NDIRECT with hlt | heq | hgt
  · rw [if_neg (by omega), if_neg (by omega)] at hroom
    exact blockFor_direct h hpos hlt (by omega)
  · rw [if_pos (by omega), if_neg (by omega)] at hroom
    exact blockFor_first h hpos heq (by omega) he hzero
  · rw [if_pos (by omega), if_pos (by omega)] at hroom
    exact blockFor_entry h hpos hgt hm (by omega)

end New

/-! ## The loop -/

theorem blocksFor_of_mod_eq {o : Nat} (h : o % BSIZE = 0) : blocksFor o = o / BSIZE := by
  simp only [blocksFor, BSIZE] at *
  omega

theorem blocksFor_of_mod_ne {o : Nat} (h : o % BSIZE ≠ 0) : blocksFor o = o / BSIZE + 1 := by
  simp only [blocksFor, BSIZE] at *
  omega

theorem blocksFor_mono {o o' : Nat} (h : o ≤ o') : blocksFor o ≤ blocksFor o' :=
  Nat.div_le_div_right (Nat.add_le_add_right h _)

/-- The bytes that a turn writes end in the block of the first one. -/
theorem blocksFor_turn {o k : Nat} (hk : 0 < k) (hle : o % BSIZE + k ≤ BSIZE) : blocksFor (o + k) = o / BSIZE + 1 := by
  simp only [blocksFor, BSIZE] at *
  omega

/-- A turn finds or allocates the block of the next byte. -/
theorem turn_block (h : Allocated a.img a.din (blocksFor a.off) a.dataEndBlock)
    (hlast : a.off % BSIZE ≠ 0 → fileBlock a.img a.din (a.off / BSIZE) ≠ 0) (hmax : a.off / BSIZE < MAXFILE) {e : Nat}
    (hroom : a.dataEndBlock + usedBlocks (a.off / BSIZE + 1) ≤ e + usedBlocks (blocksFor a.off)) (he : e ≤ FSSIZE)
    (hzero : ZeroBlocks a.img a.dataEndBlock e) :
    ∃ a', a.blockFor (a.off / BSIZE) = .ok (a', fileBlock a'.img a'.din (a.off / BSIZE)) ∧
      Appended a a' (blocksFor a.off) (a.off / BSIZE + 1) [] := by
  by_cases hmod : a.off % BSIZE = 0
  · rw [blocksFor_of_mod_eq hmod] at h hroom ⊢
    refine blockFor_new h (fun o ho => ?_) hmax hroom he hzero
    simp only [BSIZE] at *
    omega
  · rw [blocksFor_of_mod_ne hmod] at h hroom ⊢
    exact ⟨a, blockFor_old h (by omega) (Nat.lt_succ_self _) (hlast hmod), Appended.refl h⟩

/-- The blocks that an append has not come to are still zero. -/
theorem Appended.zeroBlocks {p : List UInt8} {e : Nat} (happ : Appended a a' m m' p) (hm : m ≤ m')
    (h : Allocated a.img a.din m a.dataEndBlock) (hzero : ZeroBlocks a.img a.dataEndBlock e) :
    ZeroBlocks a'.img a'.dataEndBlock e := by
  intro x hx hxe i hi
  have hle := happ.le hm
  rw [happ.frame x (fun hown => ?_) (fun hnew => ?_) i hi]
  · exact hzero x (hle.trans hx) hxe i hi
  · have := h.own_lt hown
    omega
  · exact absurd hx (Nat.not_le.mpr hnew.2)

/-- How many bytes a turn writes: they fit into the block of the first one. -/
theorem turn_fit {o k n1 : Nat} (hk : 0 < k) (hn1 : n1 = min k ((o / BSIZE + 1) * BSIZE - o)) :
    0 < n1 ∧ n1 ≤ k ∧ o % BSIZE + n1 ≤ BSIZE ∧ (n1 < k → (o + n1) % BSIZE = 0) := by
  simp only [BSIZE] at *
  omega

/-- **A turn** appends the bytes that fit into the block. -/
theorem iappendLoop_turn {p : List UInt8} {n1 e : Nat} (fuel : Nat) (hp : p ≠ [])
    (hn1 : n1 = min p.length ((a.off / BSIZE + 1) * BSIZE - a.off))
    (h : Allocated a.img a.din (blocksFor a.off) a.dataEndBlock)
    (hlast : a.off % BSIZE ≠ 0 → fileBlock a.img a.din (a.off / BSIZE) ≠ 0) (hmax : a.off + p.length ≤ MAXFILE * BSIZE)
    (hroom : a.dataEndBlock + usedBlocks (blocksFor (a.off + n1)) ≤ e + usedBlocks (blocksFor a.off))
    (he : e ≤ FSSIZE) (hzero : ZeroBlocks a.img a.dataEndBlock e) :
    ∃ a', iappendLoop (fuel + 1) p a = iappendLoop fuel (p.drop n1) a' ∧
      Appended a a' (blocksFor a.off) (blocksFor (a.off + n1)) (p.take n1) := by
  have hlen : 0 < p.length := List.length_pos_iff.mpr hp
  obtain ⟨hpos, hle, hfit, -⟩ := turn_fit hlen hn1
  have htake : (p.take n1).length = n1 := by rw [List.length_take, Nat.min_eq_left hle]
  have hblocks : blocksFor (a.off + n1) = a.off / BSIZE + 1 := blocksFor_turn hpos hfit
  have hfbn : a.off / BSIZE < MAXFILE := by
    simp only [BSIZE, MAXFILE] at *
    omega
  obtain ⟨a₁, hrun, happ⟩ := turn_block h hlast hfbn (hblocks ▸ hroom) he hzero
  have hoff : a₁.off = a.off := happ.off
  have hd : a₁.dataEndBlock ≤ e := by
    have := happ.next
    rw [hblocks] at hroom
    omega
  have hx := happ.alloc.lt (a.off / BSIZE) (Nat.lt_succ_self _)
  have hwrite := write_appended (q := p.take n1) happ.alloc (hd.trans he) (by rw [hoff]) (by omega)
    (by rw [hoff, htake]; exact hfit)
  rw [hoff, htake] at hwrite
  have hturn := happ.trans hwrite (by rw [← hblocks]; exact blocksFor_mono (Nat.le_add_right _ _)) le_rfl
  rw [List.nil_append, ← hblocks] at hturn
  refine ⟨_, ?_, hturn⟩
  have hmove : memmove a₁.img (fileBlock a₁.img a₁.din (a.off / BSIZE) * BSIZE) BSIZE = .ok () := by
    rw [memmove_eq_ok]
    simp only [BSIZE, FSSIZE, IMG_SIZE] at *
    omega
  have hstart : a.off - a.off / BSIZE * BSIZE = a.off % BSIZE := by
    simp only [BSIZE]
    omega
  rw [iappendLoop]
  simp only [if_neg hp, if_neg (Nat.not_le.mpr hfbn), hrun, ok_bind, hoff, ← hn1,
    blockOff_of_lt (hx.trans_le (hd.trans he)), hmove, hstart]

/-- **The loop** appends all bytes. -/
theorem iappendLoop_spec : ∀ (fuel : Nat) (p : List UInt8) (a : Append) {e : Nat}, p.length ≤ fuel →
    Allocated a.img a.din (blocksFor a.off) a.dataEndBlock →
    (p ≠ [] → a.off % BSIZE ≠ 0 → fileBlock a.img a.din (a.off / BSIZE) ≠ 0) → a.off + p.length ≤ MAXFILE * BSIZE →
    a.dataEndBlock + usedBlocks (blocksFor (a.off + p.length)) ≤ e + usedBlocks (blocksFor a.off) → e ≤ FSSIZE →
    ZeroBlocks a.img a.dataEndBlock e →
    ∃ a', iappendLoop fuel p a = .ok a' ∧ Appended a a' (blocksFor a.off) (blocksFor (a.off + p.length)) p
  | 0, p, a, e, hfuel, h, _, _, _, _, _ => by
    obtain rfl : p = [] := List.eq_nil_of_length_eq_zero (Nat.le_zero.mp hfuel)
    exact ⟨a, rfl, Appended.refl h⟩
  | fuel + 1, p, a, e, hfuel, h, hlast, hmax, hroom, he, hzero => by
    by_cases hp : p = []
    · subst hp
      exact ⟨a, rfl, Appended.refl h⟩
    have hlen : 0 < p.length := List.length_pos_iff.mpr hp
    obtain ⟨n1, hn1⟩ : ∃ n1, n1 = min p.length ((a.off / BSIZE + 1) * BSIZE - a.off) := ⟨_, rfl⟩
    obtain ⟨hpos, hle, -, hfull⟩ := turn_fit hlen hn1
    have hmono : usedBlocks (blocksFor (a.off + n1)) ≤ usedBlocks (blocksFor (a.off + p.length)) :=
      usedBlocks_mono (blocksFor_mono (Nat.add_le_add_left hle _))
    have hblocks : blocksFor a.off ≤ blocksFor (a.off + n1) := blocksFor_mono (Nat.le_add_right _ _)
    obtain ⟨a₁, hturn, happ⟩ := iappendLoop_turn fuel hp hn1 h (hlast hp) hmax (by omega) he hzero
    -- the bytes that are left
    have hoff : a₁.off = a.off + n1 := by
      rw [happ.off, List.length_take, Nat.min_eq_left hle]
    have hdrop : (p.drop n1).length = p.length - n1 := List.length_drop
    have hrest : a₁.off + (p.drop n1).length = a.off + p.length := by omega
    have hnext := happ.next
    -- if there are any, the block is full
    have hstart : p.drop n1 ≠ [] → a₁.off % BSIZE ≠ 0 → fileBlock a₁.img a₁.din (a₁.off / BSIZE) ≠ 0 := by
      intro hne hmod
      have hleft := List.length_pos_iff.mpr hne
      rw [hoff] at hmod
      exact absurd (hfull (by omega)) hmod
    rw [← hoff] at hblocks happ hnext
    obtain ⟨a', hloop, happ'⟩ := iappendLoop_spec fuel (p.drop n1) a₁ (by omega) happ.alloc hstart (by omega)
      (by rw [hrest]; omega) he (happ.zeroBlocks hblocks h hzero)
    have hboth := happ.trans happ' hblocks (blocksFor_mono (Nat.le_add_right _ _))
    rw [List.take_append_drop, hrest] at hboth
    exact ⟨a', hturn.trans hloop, hboth⟩

/-! ## The call -/

/-- The blocks that are needed for `n` more bytes. -/
def newBlocks (size n : Nat) : Nat := usedBlocks (blocksFor (size + n)) - usedBlocks (blocksFor size)

theorem Appended.content_eq {p : List UInt8} (happ : Appended a a' m m' p) (hsize : a.off = a.din.size) :
    content a'.img { a'.din with size := a'.off } = content a.img a.din ++ p.map UInt8.toNat := by
  have hoff := happ.off
  apply List.ext_getElem
  · simp [content, hoff, hsize]
  · intro o hlt _
    have ho : o < a'.off := by simpa [content] using hlt
    have hbyte : (content a'.img { a'.din with size := a'.off })[o] = fileByte a'.img a'.din o := by
      simp only [content, List.getElem_map, List.getElem_range]
      rfl
    rw [hbyte]
    by_cases hold : o < a.off
    · rw [List.getElem_append_left (by simpa [content, ← hsize] using hold), happ.old o hold]
      simp only [content, List.getElem_map, List.getElem_range]
    · have hnew := happ.new (o - a.off) (by omega)
      rw [Nat.add_sub_cancel' (Nat.not_lt.mp hold)] at hnew
      rw [List.getElem_append_right (by simpa [content, ← hsize] using Nat.not_lt.mp hold), hnew]
      simp [content, hsize]

/-- **`iappend`**: the bytes `xp` are behind the old content, in the free space of the last block and in new blocks
from `data_end_block` on, and no other block changes. -/
theorem iappend_appends (ninodes saveDirInum : Nat) (xp : List UInt8) (r : Repair) (hinum : saveDirInum < ninodes)
    (hmax : (r.inodes saveDirInum).size + xp.length ≤ MAXFILE * BSIZE)
    (halloc : Allocated r.img (r.inodes saveDirInum) (blocksFor (r.inodes saveDirInum).size) r.dataEndBlock)
    (hne : ∀ b < blocksFor (r.inodes saveDirInum).size, fileBlock r.img (r.inodes saveDirInum) b ≠ 0)
    (hroom : r.dataEndBlock + newBlocks (r.inodes saveDirInum).size xp.length ≤ FSSIZE)
    (hzero : ZeroBlocks r.img r.dataEndBlock
      (r.dataEndBlock + newBlocks (r.inodes saveDirInum).size xp.length)) :
    ∃ r', iappend ninodes saveDirInum xp r = .ok r' ∧
      content r'.img (r'.inodes saveDirInum) =
        content r.img (r.inodes saveDirInum) ++ xp.map UInt8.toNat ∧
      (r'.inodes saveDirInum).size = (r.inodes saveDirInum).size + xp.length ∧
      r'.dataEndBlock = r.dataEndBlock + newBlocks (r.inodes saveDirInum).size xp.length ∧
      (∀ x, x ∈ ownBlocks r'.img (r'.inodes saveDirInum) (blocksFor (r'.inodes saveDirInum).size) ↔
        x ∈ ownBlocks r.img (r.inodes saveDirInum) (blocksFor (r.inodes saveDirInum).size) ∨
          (r.dataEndBlock ≤ x ∧ x < r'.dataEndBlock)) ∧
      (∀ x, x ∉ ownBlocks r.img (r.inodes saveDirInum) (blocksFor (r.inodes saveDirInum).size) →
        ¬(r.dataEndBlock ≤ x ∧ x < r'.dataEndBlock) → SameBlock r.img r'.img x) ∧
      Allocated r'.img (r'.inodes saveDirInum) (blocksFor (r'.inodes saveDirInum).size) r'.dataEndBlock ∧
      (∀ j, j ≠ saveDirInum → r'.inodes j = r.inodes j) ∧ r'.stderr = r.stderr := by
  obtain ⟨din, hdin⟩ : ∃ din, din = r.inodes saveDirInum := ⟨_, rfl⟩
  rw [← hdin] at hmax halloc hne hroom hzero ⊢
  have hmono : usedBlocks (blocksFor din.size) ≤ usedBlocks (blocksFor (din.size + xp.length)) :=
    usedBlocks_mono (blocksFor_mono (Nat.le_add_right _ _))
  have hlast : din.size % BSIZE ≠ 0 → fileBlock r.img din (din.size / BSIZE) ≠ 0 := by
    intro hmod
    refine hne _ ?_
    rw [blocksFor_of_mod_ne hmod]
    exact Nat.lt_succ_self _
  have hroom' : r.dataEndBlock + usedBlocks (blocksFor (din.size + xp.length)) ≤
      r.dataEndBlock + newBlocks din.size xp.length + usedBlocks (blocksFor din.size) := by
    unfold newBlocks
    omega
  obtain ⟨a, hloop, happ⟩ := iappendLoop_spec xp.length xp ⟨r.img, din, din.size, r.dataEndBlock⟩ le_rfl halloc
    (fun _ => hlast) hmax hroom' hroom hzero
  have hoff : a.off = din.size + xp.length := happ.off
  have hnext : a.dataEndBlock = r.dataEndBlock + newBlocks din.size xp.length := by
    have hnext : a.dataEndBlock + usedBlocks (blocksFor din.size) =
        r.dataEndBlock + usedBlocks (blocksFor (din.size + xp.length)) := happ.next
    unfold newBlocks
    omega
  have hcontent : content a.img { a.din with size := a.off } = content r.img din ++ xp.map UInt8.toNat :=
    happ.content_eq rfl
  refine ⟨{ r with
    img := a.img
    inodes := Function.update r.inodes saveDirInum { a.din with size := a.off }
    dataEndBlock := a.dataEndBlock }, ?_, ?_⟩
  · have hidx : index saveDirInum ninodes = .ok () := index_eq_ok.2 hinum
    unfold iappend
    simp only [hidx, ok_bind, ← hdin, hloop]
    rfl
  · simp only [Function.update_self]
    refine ⟨hcontent, hoff, hnext, ?_, happ.frame, ?_, fun j hj => Function.update_of_ne hj _ _, trivial⟩
    · rw [hoff]
      exact happ.own
    · rw [hoff]
      exact ⟨happ.alloc.lt, happ.alloc.distinct, happ.alloc.indirect, happ.alloc.free, happ.alloc.no_indirect,
        happ.alloc.free_entries⟩

/-- A directory with 12 blocks, the last one with room for 4 bytes. -/
def twelveBlocks : Dinode where
  type := T_DIR
  major := 0
  minor := 0
  nlink := 1
  size := 6140
  addrs j := if j.val < 12 then 20 + j.val else 0

def beforeAppend : Repair := ⟨fun _ => 0, fun _ => twelveBlocks, 32, []⟩

/-- Eight bytes go to the last block and to a new one, for which the indirect block is allocated as well. -/
theorem iappend_allocates_indirect :
    ∃ r', iappend 200 5 (List.replicate 8 7) beforeAppend = .ok r' ∧
      content r'.img (r'.inodes 5) = content beforeAppend.img twelveBlocks ++ List.replicate 8 7 ∧
      r'.dataEndBlock = 34 := by
  have hblock : ∀ b < 12, fileBlock beforeAppend.img twelveBlocks b = 20 + b := by decide
  have halloc : Allocated beforeAppend.img twelveBlocks 12 32 := by
    refine ⟨fun b hb => ?_, fun b hb c hc heq => ?_, fun hlt => absurd hlt (by decide), fun b hb hd => ?_, fun _ => rfl,
      fun hlt => absurd hlt (by decide)⟩
    · rw [hblock b hb]
      omega
    · rw [hblock b hb, hblock c hc] at heq
      omega
    · exact absurd hd (Nat.not_lt.mpr hb)
  have hzero : ZeroBlocks beforeAppend.img 32 34 := by
    intro x _ _ i _
    simp [Region.byte, beforeAppend]
  have hne : ∀ b < 12, fileBlock beforeAppend.img twelveBlocks b ≠ 0 := fun b hb => by
    rw [hblock b hb]
    omega
  obtain ⟨r', hrun, hcontent, -, hnext, -⟩ := iappend_appends 200 5 (List.replicate 8 7) beforeAppend (by decide)
    (by decide) halloc hne (by decide) hzero
  exact ⟨r', hrun, hcontent, hnext⟩

end OstepHw.Fsck.Contest3
