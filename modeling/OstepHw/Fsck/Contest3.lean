import OstepHw.Fsck.Encode
import OstepHw.Fsck.Xcheck

/-!
# The repairing checker (`xcheck_contest_3.c` with `-r`)

The program works on a copy of the image.  It runs the checks of `xcheck.c`, but every
`exit(EXIT_FAILURE)` is commented out: a failed check only prints its message (`stderr`) and the run
goes on.  Two things that the checks leave behind steer the repair: the global `data_end_block`,
which is the last non-zero address that was checked, and the inode number of `lost_found`.
The repair then appends one entry to `lost_found` for every in-use inode that no directory entry
names, and stores the inode record of `lost_found`.

As in the model of `xcheck.c` a run stops at a failed assertion or at an access outside an array or
the image.  `trace_parent` can recurse for ever, which exhausts the C stack: that is an access out of
range too (`traceFuel`).  The debugging output on `stdout` is left out.
-/

set_option autoImplicit false

namespace OstepHw.Fsck.Contest3

/-! ## Messages and state -/

/-- The messages on `stderr`: those of `xcheck.c` and two new ones. -/
inductive Msg where
  | err (e : Err)
  | parentMismatch
  | inaccessible
  deriving DecidableEq, Repr

def Msg.message : Msg → String
  | .err e => e.message
  | .parentMismatch => "ERROR: parent directory mismatch.\n"
  | .inaccessible => "ERROR: inaccessible directory exists.\n"

/-- What the checking pass updates. `maps i` holds `maps[i].child_inum[0 … child_num)`. -/
structure Pass where
  bmapMark : Nat → Nat
  dataEndBlock : Nat
  tables : Tables
  maps : Nat → List Nat
  lostFoundDirInum : Nat
  stderr : List Msg

/-- `fprintf(stderr, …)` when the test holds. -/
def Pass.printIf (s : Pass) (p : Prop) [Decidable p] (m : Msg) : Pass :=
  if p then { s with stderr := s.stderr ++ [m] } else s

/-! ## Addresses -/

def checkInodeType (type : Int) (s : Pass) : Pass :=
  s.printIf (type ≠ 0 ∧ type ≠ T_DIR ∧ type ≠ T_FILE ∧ type ≠ T_DEV) (.err .badInode)

def checkAddress (addr : Nat) (direct : Bool) (dataStart : Nat) (bmap : Nat → Nat) (s : Pass) :
    Run Pass := do
  let s := s.printIf ((addr < dataStart ∧ addr ≠ 0) ∨ addr ≥ FSSIZE)
    (.err (if direct then .badDirect else .badIndirect))
  if addr = 0 then return s
  let s := { s with dataEndBlock := addr }
  let b := 1 <<< (addr % 8)
  index (addr / 8) NBMAP
  let s := s.printIf (bmap (addr / 8) &&& b = 0) (.err .markedFree)
  let s := s.printIf (s.bmapMark (addr / 8) &&& b ≠ 0)
    (.err (if direct then .directTwice else .indirectTwice))
  return { s with bmapMark := Function.update s.bmapMark (addr / 8) (s.bmapMark (addr / 8) ||| b) }

/-- The address loop for one in-use inode. -/
def checkAddresses (img : Image) (dataStart : Nat) (bmap : Nat → Nat) (inode : Dinode) (s : Pass) :
    Run Pass :=
  (List.range (NDIRECT + 1)).foldlM (fun s j => do
    if j < NDIRECT then
      checkAddress (inode.addr j) true dataStart bmap s
    else
      let s ← checkAddress (inode.addr NDIRECT) false dataStart bmap s
      memmove img (blockOff (inode.addr NDIRECT)) (4 * NINDIRECT)
      (List.range NINDIRECT).foldlM (fun s k =>
        checkAddress (indirectWord img (inode.addr NDIRECT) k) false dataStart bmap s) s) s

/-! ## Directories -/

/-- The recursion of `trace_parent` depends on a 16-bit inode number only, so a chain of calls longer
than this repeats one and never ends. -/
def traceFuel : Nat := 2 ^ 16 + 1

/-- `trace_parent` over the two memories it is given; the result is what it prints. -/
def traceParent {n m : Nat} (imgPtr : Region n) (inodesPtr : Region m) (leaf : Nat) :
    Nat → Nat → Run (List Msg)
  | 0, _ => .error .outOfRange
  | fuel + 1, parentInum => do
    memmove inodesPtr (dinodeSize * parentInum) dinodeSize
    let inode := dinodeAt inodesPtr (dinodeSize * parentInum)
    (offsets inode.size).foldlM (fun printed off => do
      let de ← readInodeData inode imgPtr off
      let printed := if de.isDot ∧ de.inum = leaf then printed ++ [.inaccessible] else printed
      if de.isDotDot then
        let deeper ← traceParent imgPtr inodesPtr leaf fuel de.inum
        return printed ++ deeper
      else return printed) []

/-- The array `inodes` as memory. -/
def inodesRegion (inodes : Nat → Dinode) (ninodes : Nat) : Region (dinodeSize * ninodes) :=
  fun a => (inodes (a.val / dinodeSize)).byte (a.val % dinodeSize)

/-- The branch for `..`.  The call of `trace_parent` has its first two arguments swapped: inode records
are read from the image, directory contents from the array `inodes`. -/
def checkParent (img : Image) (ninodes i : Nat) (de : Dirent) (s : Pass) : Run Pass := do
  index de.inum ninodes
  let s := s.printIf (i ∉ s.maps de.inum) .parentMismatch
  let printed ← traceParent (inodesRegion s.tables.inodes ninodes) img i traceFuel de.inum
  return { s with stderr := s.stderr ++ printed }

@[simp] def MAX_CHILDS : Nat := 10

/-- `"lost_found"`. -/
def targetDirStr : List UInt8 := [0x6c, 0x6f, 0x73, 0x74, 0x5f, 0x66, 0x6f, 0x75, 0x6e, 0x64]

/-- `strncmp(de.name, target_dir_str, strlen(target_dir_str)) == 0`. -/
def isLostFound (de : Dirent) : Bool := de.cname.take targetDirStr.length == targetDirStr

/-- The entry names a directory other than the one it is in. -/
def isChild (inodes : Nat → Dinode) (i : Nat) (de : Dirent) : Bool :=
  decide ((inodes de.inum).type = T_DIR ∧ i ≠ de.inum)

/-- The end of the scan's body: the entry, found in directory `i`, is recorded. -/
def record (ninodes i : Nat) (de : Dirent) (s : Pass) : Run Pass := do
  index de.inum ninodes
  let child := isChild s.tables.inodes i de
  let s := { s with tables := s.tables.refer i de.inum }
  if child then
    index (s.maps i).length MAX_CHILDS
    return { s with
      maps := Function.update s.maps i (s.maps i ++ [de.inum])
      lostFoundDirInum := if isLostFound de then de.inum else s.lostFoundDirInum }
  else return s

/-- The locals of one directory scan, with the state of the pass. -/
structure Scan where
  countDots : Nat
  rootExist : Bool
  dirError : Bool
  pass : Pass

/-- The scan of directory `i` over the remaining offsets. -/
def scanDir (img : Image) (ninodes i : Nat) (inode : Dinode) : List Nat → Scan → Run Scan
  | [], s => .ok s
  | off :: offs, s => do
    let de ← readInodeData inode img off
    if de.isDot then
      if de.inum ≠ i then
        return { s with countDots := s.countDots + 1, dirError := true }
      let pass ← record ninodes i de s.pass
      scanDir img ninodes i inode offs { s with countDots := s.countDots + 1, pass := pass }
    else if de.isDotDot then
      if i = ROOTINO ∧ de.inum = ROOTINO then
        let pass ← record ninodes i de s.pass
        scanDir img ninodes i inode offs
          { s with countDots := s.countDots + 1, rootExist := true, pass := pass }
      else
        let pass ← checkParent img ninodes i de s.pass
        let pass ← record ninodes i de pass
        scanDir img ninodes i inode offs { s with countDots := s.countDots + 1, pass := pass }
    else
      let pass ← record ninodes i de s.pass
      scanDir img ninodes i inode offs { s with pass := pass }

/-- The directory checks of `main` for a `T_DIR` inode. -/
def checkDir (img : Image) (ninodes i : Nat) (inode : Dinode) (s : Pass) : Run Pass := do
  let s ← scanDir img ninodes i inode (offsets inode.size)
    { countDots := 0, rootExist := false, dirError := false, pass := s }
  let pass := s.pass.printIf (i = ROOTINO ∧ s.rootExist = false) (.err .rootMissing)
  return pass.printIf (s.dirError = true ∨ s.countDots ≠ 2) (.err .badFormat)

/-- The body of the inode loop. -/
def checkInode (img : Image) (s : Pass) (i : Nat) : Run Pass := do
  let sb := superblock img
  let inode := s.tables.inodes i
  let s := checkInodeType inode.type s
  let s ← if inode.type ≠ 0 then checkAddresses img (dataStart sb) (bmap img) inode s else pure s
  if inode.type = T_DIR then checkDir img sb.ninodes i inode s else pure s

/-- The bitmap loop, which only prints. -/
def checkBitmap (sb : Superblock) (bmap : Nat → Nat) (s : Pass) : Run Pass :=
  if bitmapStart sb < 0 then .error .outOfRange
  else
    let j₀ := (bitmapStart sb).toNat
    .ok (((List.range ((NBMAP - j₀ + 7) / 8)).map (j₀ + 8 * ·)).foldl (fun s j =>
      s.printIf (bmap (j / 8) ^^^ s.bmapMark (j / 8) ≠ 0) (.err .notInUse)) s)

/-- The arrays and globals before the inode loop. -/
def initPass (img : Image) : Pass :=
  { bmapMark := fun _ => 0
    dataEndBlock := 0
    tables := (initState img).tables
    maps := fun _ => []
    lostFoundDirInum := 0
    stderr := [] }

/-- `main` up to the last loop. -/
def check (img : Image) : Run Pass := do
  let sb := superblock img
  memmove img (blockOff sb.inodestart) (dinodeSize * sb.ninodes)
  memmove img (blockOff sb.bmapstart) NBMAP
  let s ← (inums sb.ninodes).foldlM (checkInode img) (initPass img)
  checkBitmap sb (bmap img) s

/-! ## Appending to a file -/

/-- `MAXFILE`, the blocks of the largest file. -/
@[simp] def MAXFILE : Nat := NDIRECT + NINDIRECT

/-- `din.addrs[j] = x`. -/
def setAddr (d : Dinode) (j x : Nat) : Dinode :=
  { d with addrs := fun k => if k.val = j then x else d.addrs k }

/-- What the loop of `iappend` updates. -/
structure Append where
  img : Image
  din : Dinode
  off : Nat
  dataEndBlock : Nat

/-- `data_end_block++`. -/
def Append.allocated (a : Append) : Append :=
  { a with dataEndBlock := (a.dataEndBlock + 1) % 2 ^ 32 }

/-- `if (din.addrs[j] == 0) din.addrs[j] = data_end_block++`. -/
def Append.ensureAddr (a : Append) (j : Nat) : Append :=
  if a.din.addr j = 0 then { a.allocated with din := setAddr a.din j a.dataEndBlock } else a

/-- The block `x` that holds file block `fbn`, allocated when there is none. -/
def Append.blockFor (a : Append) (fbn : Nat) : Run (Append × Nat) :=
  if fbn < NDIRECT then
    let a := a.ensureAddr fbn
    .ok (a, a.din.addr fbn)
  else do
    let a := a.ensureAddr NDIRECT
    let k := fbn - NDIRECT
    memmove a.img (blockOff (a.din.addr NDIRECT)) (4 * NINDIRECT)
    if indirectWord a.img (a.din.addr NDIRECT) k = 0 then
      let x := a.dataEndBlock
      let bytes := (List.range 4).map (byteOf x)
      let img := a.img.write (blockOff (a.din.addr NDIRECT) + 4 * k) bytes
      return ({ a.allocated with img := img }, x)
    else return (a, indirectWord a.img (a.din.addr NDIRECT) k)

/-- `while (n > 0)` with the bytes from `p` on.  Every turn writes at least one byte, so as many
turns as there are bytes are enough fuel. -/
def iappendLoop : Nat → List UInt8 → Append → Run Append
  | 0, _, a => .ok a
  | fuel + 1, p, a =>
    if p = [] then .ok a
    else do
      let fbn := a.off / BSIZE
      if MAXFILE ≤ fbn then throw .assertion
      let (a, x) ← a.blockFor fbn
      let n1 := min p.length ((fbn + 1) * BSIZE - a.off)
      memmove a.img (blockOff x) BSIZE
      iappendLoop fuel (p.drop n1)
        { a with
          img := a.img.write (blockOff x + (a.off - fbn * BSIZE)) (p.take n1)
          off := a.off + n1 }

/-- What the last loop updates. -/
structure Repair where
  img : Image
  inodes : Nat → Dinode
  dataEndBlock : Nat
  stderr : List Msg

def Repair.printIf (r : Repair) (p : Prop) [Decidable p] (m : Msg) : Repair :=
  if p then { r with stderr := r.stderr ++ [m] } else r

def iappend (ninodes saveDirInum : Nat) (xp : List UInt8) (r : Repair) : Run Repair := do
  index saveDirInum ninodes
  let din := r.inodes saveDirInum
  let a ← iappendLoop xp.length xp ⟨r.img, din, din.size, r.dataEndBlock⟩
  return { r with
    img := a.img
    inodes := Function.update r.inodes saveDirInum { a.din with size := a.off }
    dataEndBlock := a.dataEndBlock }

/-- `"lost_inodes"`, padded to `DIRSIZ` bytes. -/
def lostName : List UInt8 :=
  [0x6c, 0x6f, 0x73, 0x74, 0x5f, 0x69, 0x6e, 0x6f, 0x64, 0x65, 0x73, 0, 0, 0]

/-- The 16 bytes of the entry for inode `inum`. -/
def lostBytes (inum : Nat) : List UInt8 := byteOf inum 0 :: byteOf inum 1 :: lostName

def movLostFound (ninodes inum saveDir : Nat) (r : Repair) : Run Repair :=
  iappend ninodes saveDir (lostBytes inum) r

/-- One turn of the last loop (errors 9 to 12). -/
def checkReferences (s : Pass) (ninodes : Nat) (r : Repair) (j : Nat) : Run Repair := do
  let r ←
    if (r.inodes j).type ≠ 0 ∧ s.tables.inodeDir j = 0 then
      movLostFound ninodes j s.lostFoundDirInum
        { r with stderr := r.stderr ++ [.err .notFound] }
    else pure r
  let r := r.printIf (s.tables.inodeDir j = 1 ∧ (r.inodes j).type = 0) (.err .referredFree)
  let r := r.printIf ((r.inodes j).type = T_FILE ∧ (r.inodes j).nlink > 0) (.err .badCount)
  return r.printIf ((r.inodes j).type = T_DIR ∧ s.tables.dirLinks j > 1) (.err .dirTwice)

/-- The record of `lost_found` is copied back to the image. -/
def storeInode (sb : Superblock) (lf : Nat) (r : Repair) : Run Repair := do
  index lf sb.ninodes
  memmove r.img (blockOff sb.inodestart + dinodeSize * lf) dinodeSize
  return { r with
    img := r.img.write (blockOff sb.inodestart + dinodeSize * lf) (r.inodes lf).encode }

/-- `main` with `-r`: the repaired image and the messages. -/
def main (img : Image) : Run (Image × List Msg) := do
  let sb := superblock img
  let s ← check img
  let r ← (inums sb.ninodes).foldlM (checkReferences s sb.ninodes)
    ⟨img, s.tables.inodes, s.dataEndBlock, s.stderr⟩
  let r ← storeInode sb s.lostFoundDirInum r
  return (r.img, r.stderr)

end OstepHw.Fsck.Contest3
