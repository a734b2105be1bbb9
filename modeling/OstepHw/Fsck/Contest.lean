import OstepHw.Fsck.Contest3

/-!
# The contest checkers (`xcheck_contest_1.c` and `xcheck_contest_2.c`)

Both are `xcheck.c` with a table `maps` of the sub-directories met so far and one more check at every
`..` entry but the root's own:

* contest 1 stops when the directory is not among the children recorded for the parent that `..` names;
* contest 2 only prints that message, and then climbs from the parent towards the root
  (`trace_parent`); it stops when the climb meets the directory it started from.

The two programs are the same text elsewhere, so the scan takes the check as a parameter.  The climb
can go on for ever: it has fuel, and `Halt.diverges` is the end of the fuel.
-/

set_option autoImplicit false

namespace OstepHw.Fsck.Contest

open Contest3 (Msg isChild MAX_CHILDS)

/-- The reasons for which a run stops: those of `xcheck.c`, the two new messages that end the program,
and a recursion that has used up its fuel. -/
inductive Halt where
  | stop (s : Stop)
  | parentMismatch
  | inaccessible
  | diverges
  deriving DecidableEq, Repr

abbrev Exec := Except Halt

/-- A part of `xcheck.c` as a part of the contest programs. -/
def lift {α : Type} (x : Run α) : Exec α := x.mapError Halt.stop

/-- What the directory loop updates. `maps i` holds `maps[i].child_inum[0 … child_num)`. -/
structure Pass where
  bmapMark : Nat → Nat
  tables : Tables
  maps : Nat → List Nat
  stderr : List Msg

/-- `fprintf(stderr, …)`. -/
def Pass.print (s : Pass) (printed : List Msg) : Pass := { s with stderr := s.stderr ++ printed }

/-! ## The directory scan -/

/-- The end of the scan's body: the entry, found in directory `i`, is recorded. -/
def record (ninodes i : Nat) (de : Dirent) (s : Pass) : Exec Pass := do
  lift (index de.inum ninodes)
  let child := isChild s.tables.inodes i de
  let s := { s with tables := s.tables.refer i de.inum }
  if child then
    lift (index (s.maps i).length MAX_CHILDS)
    return { s with maps := Function.update s.maps i (s.maps i ++ [de.inum]) }
  else return s

/-- The locals of one directory scan, with the state of the loop. -/
structure Scan where
  countDots : Nat
  rootExist : Bool
  dirError : Bool
  pass : Pass

/-- The check made in a directory at a `..` entry with the given inode number; the result is what it
prints. -/
abbrev ParentCheck := Nat → Nat → Pass → Exec (List Msg)

/-- The `..` entry is checked, unless it is the root's and names the root. -/
def checksParent (i : Nat) (de : Dirent) : Prop :=
  de.isDotDot = true ∧ ¬ (i = ROOTINO ∧ de.inum = ROOTINO)

instance (i : Nat) (de : Dirent) : Decidable (checksParent i de) :=
  inferInstanceAs (Decidable (_ ∧ _))

/-- The branch for `..`; the result is what it prints. -/
def checkEntry (checkParent : ParentCheck) (i : Nat) (de : Dirent) (s : Pass) : Exec (List Msg) :=
  if checksParent i de then checkParent i de.inum s else .ok []

/-- The body of the scan for an entry that does not leave the loop. -/
def scanEntry (checkParent : ParentCheck) (ninodes i : Nat) (s : Scan) (de : Dirent) : Exec Scan := do
  let printed ← checkEntry checkParent i de s.pass
  let pass ← record ninodes i de (s.pass.print printed)
  return { s with
    countDots := s.countDots + (if de.isDot || de.isDotDot then 1 else 0)
    rootExist := s.rootExist ||
      (de.isDotDot && (decide (i = ROOTINO) && decide (de.inum = ROOTINO)))
    pass := pass }

/-- The scan of directory `i` over the remaining offsets; a `.` that does not point to `i` leaves
the loop. -/
def scanDir (checkParent : ParentCheck) (img : Image) (ninodes i : Nat) (inode : Dinode) :
    List Nat → Scan → Exec Scan
  | [], s => .ok s
  | off :: offs, s => do
    let de ← lift (readInodeData inode img off)
    if de.isDot ∧ de.inum ≠ i then
      return { s with countDots := s.countDots + 1, dirError := true }
    let s ← scanEntry checkParent ninodes i s de
    scanDir checkParent img ninodes i inode offs s

/-- The directory checks for a `T_DIR` inode. -/
def checkDir (checkParent : ParentCheck) (img : Image) (ninodes i : Nat) (inode : Dinode)
    (s : Pass) : Exec Pass := do
  let s ← scanDir checkParent img ninodes i inode (offsets inode.size)
    { countDots := 0, rootExist := false, dirError := false, pass := s }
  lift (rejectIf (i = ROOTINO ∧ s.rootExist = false) .rootMissing)
  lift (rejectIf (s.dirError = true ∨ s.countDots ≠ 2) .badFormat)
  return s.pass

/-! ## `main` -/

/-- The address checks of an in-use inode. -/
def markAddresses (img : Image) (inode : Dinode) (bmapMark : Nat → Nat) : Exec (Nat → Nat) :=
  if inode.type ≠ 0 then
    lift (checkAddresses img (dataStart (superblock img)) (bmap img) inode bmapMark)
  else .ok bmapMark

/-- The body of the inode loop. -/
def checkInode (checkParent : ParentCheck) (img : Image) (s : Pass) (i : Nat) : Exec Pass := do
  let sb := superblock img
  let inode := s.tables.inodes i
  lift (checkInodeType inode.type)
  let mark ← markAddresses img inode s.bmapMark
  let s := { s with bmapMark := mark }
  if inode.type = T_DIR then checkDir checkParent img sb.ninodes i inode s else return s

/-- The arrays before the inode loop. -/
def initPass (img : Image) : Pass :=
  { bmapMark := fun _ => 0
    tables := (initState img).tables
    maps := fun _ => []
    stderr := [] }

/-- `main` up to the end of the inode loop. -/
def scanInodes (checkParent : ParentCheck) (img : Image) : Exec Pass := do
  let sb := superblock img
  lift (memmove img (blockOff sb.inodestart) (dinodeSize * sb.ninodes))
  lift (memmove img (blockOff sb.bmapstart) NBMAP)
  (inums sb.ninodes).foldlM (checkInode checkParent img) (initPass img)

/-- `main`, from the mapped image on. -/
def main (checkParent : ParentCheck) (img : Image) : Exec Unit := do
  let sb := superblock img
  let s ← scanInodes checkParent img
  lift (checkBitmap sb (bmap img) s.bmapMark)
  lift ((inums sb.ninodes).foldlM (fun _ j => checkReferences s.tables j) ())

end OstepHw.Fsck.Contest

/-! ## Contest 1 -/

namespace OstepHw.Fsck.Contest1

open Contest

/-- The branch for `..`: the message ends the program. -/
def checkParent (ninodes : Nat) : ParentCheck := fun i parentInum s => do
  lift (index parentInum ninodes)
  if i ∈ s.maps parentInum then return [] else throw .parentMismatch

def main (img : Image) : Exec Unit := Contest.main (checkParent (superblock img).ninodes) img

end OstepHw.Fsck.Contest1

/-! ## Contest 2 -/

namespace OstepHw.Fsck.Contest2

open Contest

/-- The body of the loop of `trace_parent`; `trace` is the recursive call. -/
def traceEntry (leaf_dir_in_subtree : Nat) (trace : Nat → Exec Unit) (de : Dirent) : Exec Unit :=
  if de.isDot = true ∧ de.inum = leaf_dir_in_subtree then .error .inaccessible
  else if de.isDotDot = true ∧ de.inum ≠ ROOTINO then trace de.inum
  else .ok ()

/-- `trace_parent`, which reads the directory contents from the image and the records from the
array `inodes`. -/
def traceParent (img : Image) (inodes : Nat → Dinode) (ninodes leaf_dir_in_subtree : Nat) :
    Nat → Nat → Exec Unit
  | 0, _ => .error .diverges
  | fuel + 1, parentInum => do
    lift (index parentInum ninodes)
    let inode := inodes parentInum
    (offsets inode.size).foldlM (fun _ off => do
      let de ← lift (readInodeData inode img off)
      traceEntry leaf_dir_in_subtree
        (traceParent img inodes ninodes leaf_dir_in_subtree fuel) de) ()

/-- The branch for `..`: the message is printed, then the climb begins. -/
def checkParent (img : Image) (ninodes fuel : Nat) : ParentCheck := fun i parentInum s => do
  lift (index parentInum ninodes)
  let printed := if i ∈ s.maps parentInum then [] else [Contest3.Msg.parentMismatch]
  traceParent img s.tables.inodes ninodes i fuel parentInum
  return printed

/-- `main` up to the end of the inode loop, with the given fuel for each climb. -/
def scanInodes (fuel : Nat) (img : Image) : Exec Pass :=
  Contest.scanInodes (checkParent img (superblock img).ninodes fuel) img

def main (fuel : Nat) (img : Image) : Exec Unit :=
  Contest.main (checkParent img (superblock img).ninodes fuel) img

end OstepHw.Fsck.Contest2
