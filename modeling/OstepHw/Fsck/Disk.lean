import Mathlib.Algebra.Ring.Int.Defs
import Mathlib.Algebra.Ring.Nat
import Mathlib.Data.Int.DivMod

/-!
# The xv6 disk format (`fs.h`, `param.h`, `stat.h`)

An image is the `IMG_SIZE` bytes that `main` maps.  The on-disk structures are decoded from
it field by field, little-endian as on the machine the checker runs on:

* `superblock` — `memmove(&sb, imgp + BSIZE, sizeof(sb))`;
* `dinodeAt` — one 64-byte inode record at a byte address;
* `direntAt` — one 16-byte directory entry at a byte address.

`uint` and `ushort` fields are natural numbers below `2 ^ 32` and `2 ^ 16` (`u32_lt`,
`u16_lt`), `short` fields are integers (`toShort`).  A `Region n` is any block of `n` bytes that
a `void *` can point to: the mapped image is one, and so is an array of inodes.
-/

set_option autoImplicit false

namespace OstepHw.Fsck

/-! ## Constants -/

@[simp] def ROOTINO : Nat := 1
@[simp] def BSIZE : Nat := 512
@[simp] def FSSIZE : Nat := 1000
@[simp] def IMG_SIZE : Nat := FSSIZE * BSIZE
@[simp] def NDIRECT : Nat := 12
@[simp] def NINDIRECT : Nat := BSIZE / 4

@[simp] def T_DIR : Int := 1
@[simp] def T_FILE : Int := 2
@[simp] def T_DEV : Int := 3

/-- `sizeof(struct dinode)`. -/
@[simp] def dinodeSize : Nat := 64

/-- `sizeof(struct dirent)`. -/
@[simp] def direntSize : Nat := 16

/-! ## Machine integers -/

/-- Conversion to `uint`. -/
def toUint (x : Int) : Nat := (x % 2 ^ 32).toNat

/-- Conversion to `int`. -/
def toInt (x : Int) : Int := Int.bmod x (2 ^ 32)

/-- Conversion to `short`. -/
def toShort (x : Int) : Int := Int.bmod x (2 ^ 16)

/-! ## Memory -/

/-- A block of `n` bytes. -/
abbrev Region (n : Nat) := Fin n → UInt8

/-- The mapped file-system image. -/
abbrev Image := Region IMG_SIZE

variable {n : Nat}

/-- The byte at address `a` (the callers check that `a` is inside the region). -/
def Region.byte (r : Region n) (a : Nat) : Nat := if h : a < n then (r ⟨a, h⟩).toNat else 0

/-- A little-endian `ushort`. -/
def Region.u16 (r : Region n) (a : Nat) : Nat := r.byte a + 256 * r.byte (a + 1)

/-- A little-endian `uint`. -/
def Region.u32 (r : Region n) (a : Nat) : Nat := r.u16 a + 65536 * r.u16 (a + 2)

theorem Region.byte_lt (r : Region n) (a : Nat) : r.byte a < 256 := by
  unfold Region.byte
  split
  · exact UInt8.toNat_lt _
  · decide

theorem Region.u16_lt (r : Region n) (a : Nat) : r.u16 a < 65536 := by
  have h₀ := r.byte_lt a
  have h₁ := r.byte_lt (a + 1)
  unfold Region.u16
  omega

theorem Region.u32_lt (r : Region n) (a : Nat) : r.u32 a < 4294967296 := by
  have h₀ := r.u16_lt a
  have h₁ := r.u16_lt (a + 2)
  unfold Region.u32
  omega

/-- Two regions read the same `ushort` where their bytes agree. -/
theorem Region.u16_congr {m : Nat} {r : Region n} {q : Region m} {a b : Nat}
    (h : ∀ k < 2, r.byte (a + k) = q.byte (b + k)) : r.u16 a = q.u16 b := by
  have h₀ := h 0 (by omega)
  have h₁ := h 1 (by omega)
  simp only [Nat.add_zero] at h₀
  rw [Region.u16, Region.u16, h₀, h₁]

/-- Two regions read the same `uint` where their bytes agree. -/
theorem Region.u32_congr {m : Nat} {r : Region n} {q : Region m} {a b : Nat}
    (h : ∀ k < 4, r.byte (a + k) = q.byte (b + k)) : r.u32 a = q.u32 b := by
  have h₀ := Region.u16_congr (a := a) (b := b) fun k hk => h k (by omega)
  have h₂ := Region.u16_congr (a := a + 2) (b := b + 2) (r := r) (q := q) fun k hk => by
    have := h (2 + k) (by omega)
    rwa [← Nat.add_assoc, ← Nat.add_assoc] at this
  rw [Region.u32, Region.u32, h₀, h₂]

/-! ## On-disk structures -/

/-- `struct superblock`. -/
structure Superblock where
  size : Nat
  nblocks : Nat
  ninodes : Nat
  nlog : Nat
  logstart : Nat
  inodestart : Nat
  bmapstart : Nat
  deriving DecidableEq, Repr

def superblock (img : Image) : Superblock :=
  { size := img.u32 BSIZE
    nblocks := img.u32 (BSIZE + 4)
    ninodes := img.u32 (BSIZE + 8)
    nlog := img.u32 (BSIZE + 12)
    logstart := img.u32 (BSIZE + 16)
    inodestart := img.u32 (BSIZE + 20)
    bmapstart := img.u32 (BSIZE + 24) }

/-- `struct dinode`; `addrs` has `NDIRECT + 1` cells. -/
structure Dinode where
  type : Int
  major : Int
  minor : Int
  nlink : Int
  size : Nat
  addrs : Fin 13 → Nat

/-- `inode.addrs[j]`. -/
def Dinode.addr (d : Dinode) (j : Nat) : Nat := if h : j < 13 then d.addrs ⟨j, h⟩ else 0

/-- The inode record at byte address `a`. -/
def dinodeAt (r : Region n) (a : Nat) : Dinode :=
  { type := toShort (r.u16 a)
    major := toShort (r.u16 (a + 2))
    minor := toShort (r.u16 (a + 4))
    nlink := toShort (r.u16 (a + 6))
    size := r.u32 (a + 8)
    addrs := fun j => r.u32 (a + 12 + 4 * j) }

/-- `struct dirent`. -/
structure Dirent where
  inum : Nat
  name : Fin 14 → UInt8

/-- The directory entry at byte address `a`. -/
def direntAt (r : Region n) (a : Nat) : Dirent :=
  { inum := r.u16 a
    name := fun k => UInt8.ofNat (r.byte (a + 2 + k)) }

/-- The word at address `a` in a list of `(address, uint)` pairs with ascending addresses. -/
def wordAt (a : Nat) : List (Nat × Nat) → Nat
  | [] => 0
  | (b, w) :: l => bif Nat.blt a b then 0 else bif Nat.beq a b then w else wordAt a l

/-- The image that is zero except for the given words, at aligned, ascending addresses. -/
def ofWords (l : List (Nat × Nat)) : Image :=
  fun a => UInt8.ofNat (wordAt (a.val / 4 * 4) l / 256 ^ (a.val % 4) % 256)

/-- A superblock with the layout that `mkfs` makes for `FSSIZE` blocks. -/
def superblockWords (ninodes : Nat) : List (Nat × Nat) :=
  [(512, 1000), (516, 941), (520, ninodes), (524, 30), (528, 2), (532, 32), (536, 58)]

/-- The superblock that `mkfs` writes: 200 inodes. -/
def mkfsWords : List (Nat × Nat) := superblockWords 200

/-- The C string in `de.name`: the bytes before the first NUL. -/
def Dirent.cname (de : Dirent) : List UInt8 := (List.ofFn de.name).takeWhile (· != 0)

/-- `strcmp(de.name, ".") == 0`. -/
def Dirent.isDot (de : Dirent) : Bool := de.cname == [0x2e]

/-- `strcmp(de.name, "..") == 0`. -/
def Dirent.isDotDot (de : Dirent) : Bool := de.cname == [0x2e, 0x2e]

theorem Dirent.not_isDotDot_of_isDot {de : Dirent} (h : de.isDot = true) :
    de.isDotDot = false := by
  simp only [Dirent.isDot, beq_iff_eq] at h
  simp [Dirent.isDotDot, h]

end OstepHw.Fsck
