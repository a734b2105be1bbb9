import OstepHw.Lib.Bitmap
import OstepHw.Fsck.Disk

/-!
# The file-system checker (`xcheck.c`)

A transcription of `xcheck.c`.  A run either goes on with the new state or stops:

* `Stop.report e` — one of the `ERROR:` messages is printed and the program exits;
* `Stop.assertion` — the `assert` of `read_inode_data` fails;
* `Stop.outOfRange` — an array or the mapped image is accessed outside its bounds (undefined
  behaviour in C, so nothing further is said about the run).

The arrays of `main` are functions of the index; every access whose index comes from the image
is preceded by its bounds test (`index`).  `inodes` is the in-memory copy whose `nlink` fields
the directory scan counts down.  The debugging output on `stdout` is left out.
-/

set_option autoImplicit false

namespace OstepHw.Fsck

/-! ## Results of a run -/

/-- The errors the checker names. -/
inductive Err where
  | badInode
  | badDirect
  | badIndirect
  | rootMissing
  | badFormat
  | markedFree
  | notInUse
  | directTwice
  | indirectTwice
  | notFound
  | referredFree
  | badCount
  | dirTwice
  deriving DecidableEq, Repr

def Err.message : Err → String
  | .badInode => "ERROR: bad inode.\n"
  | .badDirect => "ERROR: bad direct address in inode.\n"
  | .badIndirect => "ERROR: bad indirect address in inode.\n"
  | .rootMissing => "ERROR: root directory does not exist.\n"
  | .badFormat => "ERROR: directory not properly formatted.\n"
  | .markedFree => "ERROR: address used by inode but marked free in bitmap.\n"
  | .notInUse => "ERROR: bitmap marks block in use but it is not in use.\n"
  | .directTwice => "ERROR: direct address used more than once.\n"
  | .indirectTwice => "ERROR: indirect address used more than once.\n"
  | .notFound => "ERROR: inode marked use but not found in a directory.\n"
  | .referredFree => "ERROR: inode referred to in directory but marked free.\n"
  | .badCount => "ERROR: bad reference count for file.\n"
  | .dirTwice => "ERROR: directory appears more than once in file system.\n"

inductive Stop where
  | report (e : Err)
  | assertion
  | outOfRange
  deriving DecidableEq, Repr

abbrev Run := Except Stop

/-- The access `a[i]` to an array of `n` cells is in range. -/
def index (i n : Nat) : Run Unit := if i < n then .ok () else .error .outOfRange

/-- `fprintf(stderr, ...); exit(EXIT_FAILURE)` when the test holds. -/
def rejectIf (p : Prop) [Decidable p] (e : Err) : Run Unit :=
  if p then .error (.report e) else .ok ()

/-! ## Inode types and block addresses -/

/-- `NBMAP`, the size in bytes of `bmap` and `bmap_mark`. -/
@[simp] def NBMAP : Nat := FSSIZE / 8 + BSIZE

def checkInodeType (type : Int) : Run Unit :=
  rejectIf (type ≠ 0 ∧ type ≠ T_DIR ∧ type ≠ T_FILE ∧ type ≠ T_DEV) .badInode

/-- `check_address`; the result is the new `bmap_mark`. -/
def checkAddress (addr : Nat) (direct : Bool) (dataStart : Nat) (bmap bmapMark : Nat → Nat) :
    Run (Nat → Nat) := do
  rejectIf ((addr < dataStart ∧ addr ≠ 0) ∨ addr ≥ FSSIZE)
    (if direct then .badDirect else .badIndirect)
  if addr = 0 then return bmapMark
  let b := 1 <<< (addr % 8)
  index (addr / 8) NBMAP
  rejectIf (bmap (addr / 8) &&& b = 0) .markedFree
  rejectIf (bmapMark (addr / 8) &&& b ≠ 0) (if direct then .directTwice else .indirectTwice)
  return Function.update bmapMark (addr / 8) (bmapMark (addr / 8) ||| b)

/-- `memmove(dst, imgp + start, len)` reads inside the region. -/
def memmove {n : Nat} (_ : Region n) (start len : Nat) : Run Unit :=
  if start + len ≤ n then .ok () else .error .outOfRange

/-- `imgp + b * BSIZE`: the product is computed as a `uint`. -/
def blockOff (b : Nat) : Nat := b * BSIZE % 2 ^ 32

/-- `indirect[k]` after `memmove(indirect, imgp + addr * BSIZE, sizeof(indirect))`. -/
def indirectWord {n : Nat} (img : Region n) (addr k : Nat) : Nat := img.u32 (blockOff addr + 4 * k)

/-- The address loop for one in-use inode: slots `0 … NDIRECT - 1`, then the indirect pointer
and the entries of the block it names (block 0 when it is zero). -/
def checkAddresses (img : Image) (dataStart : Nat) (bmap : Nat → Nat) (inode : Dinode)
    (bmapMark : Nat → Nat) : Run (Nat → Nat) :=
  (List.range (NDIRECT + 1)).foldlM (fun mark j => do
    if j < NDIRECT then
      checkAddress (inode.addr j) true dataStart bmap mark
    else
      let mark ← checkAddress (inode.addr NDIRECT) false dataStart bmap mark
      memmove img (blockOff (inode.addr NDIRECT)) (4 * NINDIRECT)
      (List.range NINDIRECT).foldlM (fun mark k =>
        checkAddress (indirectWord img (inode.addr NDIRECT) k) false dataStart bmap mark) mark)
    bmapMark

/-! ## Directories -/

/-- `read_inode_data(inode, imgp, &de, offset, sizeof(de))`. -/
def readInodeData {n : Nat} (inode : Dinode) (img : Region n) (offset : Nat) : Run Dirent := do
  let blockNum := offset / BSIZE
  if blockNum ≠ 0 then throw .assertion
  let addr ←
    if blockNum < NDIRECT then pure (inode.addr blockNum)
    else if blockNum - NDIRECT < NINDIRECT then do
      memmove img (blockOff (inode.addr NDIRECT)) (4 * NINDIRECT)
      pure (indirectWord img (inode.addr NDIRECT) (blockNum - NDIRECT))
    else pure 0
  memmove img (blockOff addr + offset % BSIZE) direntSize
  return direntAt img (blockOff addr + offset % BSIZE)

/-- The arrays that the directory scan updates. -/
structure Tables where
  inodes : Nat → Dinode
  inodeDir : Nat → Nat
  dirLinks : Nat → Nat

/-- `inode.nlink--`. -/
def Dinode.unlink (d : Dinode) : Dinode := { d with nlink := toShort (d.nlink - 1) }

/-- The end of the scan's body: the entry `inum`, found in directory `i`, is recorded. -/
def Tables.refer (t : Tables) (i inum : Nat) : Tables :=
  let t := { t with inodeDir := Function.update t.inodeDir inum 1 }
  if (t.inodes inum).type = T_FILE then
    { t with inodes := Function.update t.inodes inum (t.inodes inum).unlink }
  else if (t.inodes inum).type = T_DIR ∧ i ≠ inum then
    { t with dirLinks := Function.update t.dirLinks inum (t.dirLinks inum + 1) }
  else t

/-- The locals of one directory scan, with the tables. -/
structure Scan where
  countDots : Nat
  rootExist : Bool
  dirError : Bool
  tables : Tables

/-- The offsets `0, sizeof(de), …` below `size`. -/
def offsets (size : Nat) : List Nat := (List.range ((size + 15) / 16)).map (16 * ·)

/-- The scan of directory `i` over the remaining offsets; a `.` that does not point to `i` leaves
the loop. -/
def scanDir (img : Image) (ninodes i : Nat) (inode : Dinode) : List Nat → Scan → Run Scan
  | [], s => .ok s
  | off :: offs, s => do
    let de ← readInodeData inode img off
    if de.isDot then
      if de.inum ≠ i then
        return { s with countDots := s.countDots + 1, dirError := true }
      index de.inum ninodes
      scanDir img ninodes i inode offs
        { s with countDots := s.countDots + 1, tables := s.tables.refer i de.inum }
    else if de.isDotDot then
      index de.inum ninodes
      scanDir img ninodes i inode offs
        { s with
          countDots := s.countDots + 1
          rootExist := s.rootExist || (decide (i = ROOTINO) && decide (de.inum = ROOTINO))
          tables := s.tables.refer i de.inum }
    else
      index de.inum ninodes
      scanDir img ninodes i inode offs { s with tables := s.tables.refer i de.inum }

/-- The directory checks of `main` for a `T_DIR` inode. -/
def checkDir (img : Image) (ninodes i : Nat) (inode : Dinode) (t : Tables) : Run Tables := do
  let s ← scanDir img ninodes i inode (offsets inode.size)
    { countDots := 0, rootExist := false, dirError := false, tables := t }
  rejectIf (i = ROOTINO ∧ s.rootExist = false) .rootMissing
  rejectIf (s.dirError = true ∨ s.countDots ≠ 2) .badFormat
  return s.tables

/-! ## `main` -/

/-- The state of the inode loop. -/
structure State where
  bmapMark : Nat → Nat
  tables : Tables

/-- `int data_start = FSSIZE - sb.nblocks`, as the `uint` that `check_address` gets. -/
def dataStart (sb : Superblock) : Nat := toUint (FSSIZE - sb.nblocks)

/-- `inodes[i]` as copied from the image. -/
def inode (img : Image) (i : Nat) : Dinode :=
  dinodeAt img (blockOff (superblock img).inodestart + dinodeSize * i)

/-- `bmap[k]` as copied from the image. -/
def bmap (img : Image) (k : Nat) : Nat := img.byte (blockOff (superblock img).bmapstart + k)

/-- The body of the inode loop. -/
def checkInode (img : Image) (s : State) (i : Nat) : Run State := do
  let sb := superblock img
  let inode := s.tables.inodes i
  checkInodeType inode.type
  let mark ←
    if inode.type ≠ 0 then checkAddresses img (dataStart sb) (bmap img) inode s.bmapMark
    else pure s.bmapMark
  let tables ←
    if inode.type = T_DIR then checkDir img sb.ninodes i inode s.tables
    else pure s.tables
  return { bmapMark := mark, tables := tables }

/-- The first `j` of the bitmap loop: `(data_start / 8 + 1) * 8`, computed as an `int`. -/
def bitmapStart (sb : Superblock) : Int := toInt (((toInt (dataStart sb)).tdiv 8 + 1) * 8)

/-- The bitmap loop (error 6): `j` goes up by 8 and stays below `NBMAP`. -/
def checkBitmap (sb : Superblock) (bmap bmapMark : Nat → Nat) : Run Unit :=
  if bitmapStart sb < 0 then .error .outOfRange
  else
    let j₀ := (bitmapStart sb).toNat
    ((List.range ((NBMAP - j₀ + 7) / 8)).map (j₀ + 8 * ·)).foldlM (fun _ j =>
      rejectIf (bmap (j / 8) ^^^ bmapMark (j / 8) ≠ 0) .notInUse) ()

/-- One turn of the last loop (errors 9 to 12). -/
def checkReferences (t : Tables) (j : Nat) : Run Unit := do
  rejectIf ((t.inodes j).type ≠ 0 ∧ t.inodeDir j = 0) .notFound
  rejectIf (t.inodeDir j = 1 ∧ (t.inodes j).type = 0) .referredFree
  rejectIf ((t.inodes j).type = T_FILE ∧ (t.inodes j).nlink > 0) .badCount
  rejectIf ((t.inodes j).type = T_DIR ∧ t.dirLinks j > 1) .dirTwice

/-- The inode numbers `ROOTINO … n - 1`. -/
def inums (n : Nat) : List Nat := List.range' ROOTINO (n - ROOTINO)

/-- The arrays before the inode loop. -/
def initState (img : Image) : State :=
  { bmapMark := fun _ => 0
    tables := { inodes := inode img, inodeDir := fun _ => 0, dirLinks := fun _ => 0 } }

/-- `main`, from the mapped image on. -/
def main (img : Image) : Run Unit := do
  let sb := superblock img
  memmove img (blockOff sb.inodestart) (dinodeSize * sb.ninodes)
  memmove img (blockOff sb.bmapstart) NBMAP
  let s ← (inums sb.ninodes).foldlM (checkInode img) (initState img)
  checkBitmap sb (bmap img) s.bmapMark
  (inums sb.ninodes).foldlM (fun _ j => checkReferences s.tables j) ()

/-- The run reaches the end of `main` without printing an error. -/
def Accepts (img : Image) : Prop := main img = .ok ()

end OstepHw.Fsck
