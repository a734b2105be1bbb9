import Mathlib.Tactic.Ring

/-!
# The block checksums

Model of `create-csum.c` and `check-csum.c`.  A file is its bytes, `read` returns full blocks until the last one, and
the checksum file is fresh when `create-csum` opens it.

* `create`, `check` — the two programs: both keep one `xor` for the whole file;
* `fine_iff` — **what is compared**: the blocks of the data file, against nothing where the other file has ended;
* `fine_iff_same_blocks` — when this is a comparison of the two files.
-/

set_option autoImplicit false

namespace OstepHw.BlockChecksums

def BUFFSIZE : Nat := 4096

/-- What the calls of `read` return until one returns nothing. -/
def reads (file : List (BitVec 8)) : List (List (BitVec 8)) :=
  if file = [] then [] else file.take BUFFSIZE :: reads (file.drop BUFFSIZE)
termination_by file.length
decreasing_by
  rename_i hne
  rw [List.length_drop]
  exact Nat.sub_lt (List.length_pos_iff.2 hne) (Nat.succ_pos _)

/-- The loop over the bytes of `buff`. -/
def xorLoop (xor : BitVec 8) (buff : List (BitVec 8)) : BitVec 8 :=
  buff.foldl (fun xor byte => xor ^^^ byte) xor

/-- The loop of `create-csum`: what it writes. -/
def createLoop (xor : BitVec 8) : List (List (BitVec 8)) → List (BitVec 8)
  | [] => []
  | buff :: rest =>
    let xor := xorLoop xor buff
    xor :: createLoop xor rest

def create (file : List (BitVec 8)) : List (BitVec 8) :=
  createLoop 0 (reads file)

inductive Outcome
  | corrupted
  | fine
  deriving DecidableEq, Repr

/-- `read(fdb, &buff_b, 1)`: at the end of the file `buff_b` stays as it is. -/
def readByte (buffB : BitVec 8) : List (BitVec 8) → BitVec 8 × List (BitVec 8)
  | [] => (buffB, [])
  | byte :: rest => (byte, rest)

/-- The loop of `check-csum`: only the data file ends it. -/
def checkLoop (xor buffB : BitVec 8) : List (List (BitVec 8)) → (csum : List (BitVec 8)) → Outcome
  | [], _ => .fine
  | buffA :: rest, csum =>
    let xor := xorLoop xor buffA
    let (buffB, csum) := readByte buffB csum
    if xor ≠ buffB then .corrupted else checkLoop xor buffB rest csum

def check (file csum : List (BitVec 8)) : Outcome :=
  checkLoop 0 0 (reads file) csum

/-! ## Blocks -/

def numBlocks (file : List (BitVec 8)) : Nat := (file.length + (BUFFSIZE - 1)) / BUFFSIZE

def block (file : List (BitVec 8)) (k : Nat) : List (BitVec 8) := (file.drop (BUFFSIZE * k)).take BUFFSIZE

/-- The XOR of all bytes of block `k`. -/
def blockXor (file : List (BitVec 8)) (k : Nat) : BitVec 8 := xorLoop 0 (block file k)

theorem reads_of_ne_nil {file : List (BitVec 8)} (hne : file ≠ []) :
    reads file = block file 0 :: reads (file.drop BUFFSIZE) := by
  rw [reads, if_neg hne]
  rfl

theorem block_drop (file : List (BitVec 8)) (k : Nat) : block (file.drop BUFFSIZE) k = block file (k + 1) := by
  rw [block, List.drop_drop, block, Nat.mul_succ, Nat.add_comm]

theorem numBlocks_drop {file : List (BitVec 8)} (hne : file ≠ []) :
    numBlocks file = numBlocks (file.drop BUFFSIZE) + 1 := by
  have hpos := List.length_pos_iff.2 hne
  unfold numBlocks BUFFSIZE
  rw [List.length_drop]
  omega

/-- Past the end there is nothing. -/
theorem blockXor_of_numBlocks_le {file : List (BitVec 8)} {k : Nat} (hk : numBlocks file ≤ k) :
    blockXor file k = 0 := by
  have hend : file.length ≤ BUFFSIZE * k := by
    unfold numBlocks BUFFSIZE at *
    omega
  rw [blockXor, block, List.drop_of_length_le hend]
  rfl

theorem xorLoop_eq (xor : BitVec 8) (buff : List (BitVec 8)) : xorLoop xor buff = xor ^^^ xorLoop 0 buff := by
  unfold xorLoop
  induction buff generalizing xor with
  | nil => exact BitVec.xor_zero.symm
  | cons byte buff ih =>
    have hbyte : 0 ^^^ byte = byte := BitVec.zero_xor
    rw [List.foldl_cons, List.foldl_cons, ih, ih (0 ^^^ byte), hbyte, BitVec.xor_assoc]

theorem xorLoop_inj {xor : BitVec 8} {buffA buffB : List (BitVec 8)} :
    xorLoop xor buffA = xorLoop xor buffB ↔ xorLoop 0 buffA = xorLoop 0 buffB := by
  rw [xorLoop_eq xor buffA, xorLoop_eq xor buffB, BitVec.xor_right_inj]

/-! ## The comparison -/

/-- A checksum file that has ended stands for blocks with nothing in them. -/
theorem readByte_createLoop (xor : BitVec 8) (f : List (BitVec 8)) :
    readByte xor (createLoop xor (reads f)) =
      (xorLoop xor (block f 0), createLoop (xorLoop xor (block f 0)) (reads (f.drop BUFFSIZE))) := by
  by_cases hf : f = []
  · subst hf
    rw [List.drop_nil, reads, if_pos rfl]
    rfl
  · rw [reads_of_ne_nil hf]
    rfl

/-- At the head of the loop `buff_b` is `xor`. -/
theorem checkLoop_eq_fine (f g : List (BitVec 8)) (xor : BitVec 8) :
    checkLoop xor xor (reads g) (createLoop xor (reads f)) = .fine ↔
      ∀ k < numBlocks g, blockXor g k = blockXor f k := by
  induction g using reads.induct generalizing f xor with
  | case1 =>
    rw [reads, if_pos rfl]
    exact iff_of_true rfl fun k hk => absurd hk (Nat.not_lt_zero k)
  | case2 g hg ih =>
    rw [reads_of_ne_nil hg, checkLoop, readByte_createLoop, numBlocks_drop hg, Nat.forall_lt_succ_left]
    dsimp only
    by_cases hfirst : xorLoop xor (block g 0) = xorLoop xor (block f 0)
    · rw [if_neg (not_not_intro hfirst), hfirst, ih]
      simp only [blockXor, block_drop]
      exact (and_iff_right (xorLoop_inj.1 hfirst)).symm
    · rw [if_pos hfirst]
      exact iff_of_false (by intro h; cases h) fun h => hfirst (xorLoop_inj.2 h.1)

/-- **What is compared**: the blocks of `g`, past the end of `f` with nothing. -/
theorem check_create_eq_fine (f g : List (BitVec 8)) :
    check g (create f) = .fine ↔ ∀ k < numBlocks g, blockXor g k = blockXor f k :=
  checkLoop_eq_fine f g 0

/-- The two files have the same blocks as far as one XOR a block tells. -/
def SameBlocks (f g : List (BitVec 8)) : Prop :=
  numBlocks g = numBlocks f ∧ ∀ k < numBlocks f, blockXor g k = blockXor f k

/-- **When `check-csum` compares the two files**: exactly when they are of one length in blocks, or differ in a block
that both have, or a block that only `g` has does not cancel out. -/
theorem fine_iff_same_blocks (f g : List (BitVec 8)) :
    (check g (create f) = .fine ↔ SameBlocks f g) ↔
      numBlocks g = numBlocks f ∨
        (∃ k, k < numBlocks f ∧ k < numBlocks g ∧ blockXor g k ≠ blockXor f k) ∨
        ∃ k, numBlocks f ≤ k ∧ k < numBlocks g ∧ blockXor g k ≠ 0 := by
  rw [check_create_eq_fine]
  constructor
  · intro hiff
    by_cases hsame : ∀ k < numBlocks g, blockXor g k = blockXor f k
    · exact .inl (hiff.1 hsame).1
    · push Not at hsame
      obtain ⟨k, hk, hne⟩ := hsame
      rcases Nat.lt_or_ge k (numBlocks f) with hboth | hpast
      · exact .inr (.inl ⟨k, hboth, hk, hne⟩)
      · rw [blockXor_of_numBlocks_le hpast] at hne
        exact .inr (.inr ⟨k, hpast, hk, hne⟩)
  · rintro (hlen | ⟨k, hboth, hk, hne⟩ | ⟨k, hpast, hk, hne⟩)
    · rw [SameBlocks, hlen]
      exact ⟨fun h => ⟨rfl, h⟩, And.right⟩
    · exact iff_of_false (fun h => hne (h k hk)) fun h => hne (h.2 k hboth)
    · refine iff_of_false (fun h => hne ?_) fun h => ?_
      · rw [h k hk, blockXor_of_numBlocks_le hpast]
      · exact absurd hk (h.1 ▸ Nat.not_lt_of_le hpast)

/-- A file that has lost its second block is fine. -/
theorem truncated_file_fine : ¬∀ f g, check g (create f) = .fine ↔ SameBlocks f g := by
  intro hall
  have hf : numBlocks (List.replicate 4097 0x61) = 2 := by
    rw [numBlocks, List.length_replicate]
    rfl
  have hg : numBlocks (List.replicate 4096 0x61) = 1 := by
    rw [numBlocks, List.length_replicate]
    rfl
  have hfine : check (List.replicate 4096 0x61) (create (List.replicate 4097 0x61)) = .fine := by
    apply (check_create_eq_fine _ _).2
    intro k hk
    obtain rfl : k = 0 := by omega
    rw [blockXor, blockXor, block, block, List.drop_replicate, List.drop_replicate, List.take_replicate,
      List.take_replicate]
    rfl
  have hlen := ((hall _ _).1 hfine).1
  rw [hf, hg] at hlen
  omega

end OstepHw.BlockChecksums
