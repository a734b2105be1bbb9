import OstepHw.Fsck.Disk

/-!
# Writing to the image

The repairing checker stores bytes in the mapped image and copies inode records back to it.

* `Region.write` — `memmove` into a region: `byte_write_of_outside` is its frame, `write_append`
  and `write_self` say how writes compose;
* `Dinode.encode` — the 64 bytes of an inode record: `byte_dinodeAt` and `dinodeAt_of_bytes` are the two
  directions of the round trip.
-/

set_option autoImplicit false

namespace OstepHw.Fsck

/-! ## Stores -/

variable {n : Nat}

/-- `memmove(r + a, bytes, …)`: the callers check that the target is inside the region. -/
def Region.write (r : Region n) (a : Nat) (bytes : List UInt8) : Region n :=
  fun i => if h : a ≤ i.val ∧ i.val - a < bytes.length then bytes.get ⟨i.val - a, h.2⟩ else r i

theorem Region.byte_write_of_outside (r : Region n) {a x : Nat} {bytes : List UInt8}
    (h : x < a ∨ a + bytes.length ≤ x) : (r.write a bytes).byte x = r.byte x := by
  unfold Region.byte Region.write
  split
  · rw [dif_neg (by simp only; omega)]
  · rfl

theorem Region.byte_write_of_inside (r : Region n) {a k : Nat} {bytes : List UInt8}
    (hk : k < bytes.length) (ha : a + bytes.length ≤ n) :
    (r.write a bytes).byte (a + k) = bytes[k].toNat := by
  unfold Region.byte Region.write
  rw [dif_pos (by omega), dif_pos (by simp only; omega)]
  simp

/-- Two regions with the same bytes are equal. -/
theorem Region.ext_byte {r q : Region n} (h : ∀ x < n, r.byte x = q.byte x) : r = q := by
  funext i
  have hi := h i.val i.isLt
  unfold Region.byte at hi
  rw [dif_pos i.isLt, dif_pos i.isLt] at hi
  exact UInt8.toNat_inj.mp hi

theorem Region.write_nil (r : Region n) (a : Nat) : r.write a [] = r := by
  funext i
  simp [Region.write]

/-- A store right behind another one makes one longer store. -/
theorem Region.write_append (r : Region n) (a : Nat) (bs cs : List UInt8) :
    (r.write a bs).write (a + bs.length) cs = r.write a (bs ++ cs) := by
  funext i
  unfold Region.write
  by_cases hc : a + bs.length ≤ i.val ∧ i.val - (a + bs.length) < cs.length
  · have hbc : a ≤ i.val ∧ i.val - a < (bs ++ cs).length := by
      rw [List.length_append]
      omega
    rw [dif_pos hc, dif_pos hbc]
    simp only [List.get_eq_getElem]
    rw [List.getElem_append_right (by omega)]
    congr 1
    omega
  · rw [dif_neg hc]
    by_cases hb : a ≤ i.val ∧ i.val - a < bs.length
    · have hbc : a ≤ i.val ∧ i.val - a < (bs ++ cs).length := by
        rw [List.length_append]
        omega
      rw [dif_pos hb, dif_pos hbc]
      simp only [List.get_eq_getElem]
      rw [List.getElem_append_left hb.2]
    · have hbc : ¬ (a ≤ i.val ∧ i.val - a < (bs ++ cs).length) := by
        rw [List.length_append]
        omega
      rw [dif_neg hb, dif_neg hbc]

/-- Storing what is there already changes nothing. -/
theorem Region.write_self {r : Region n} {a : Nat} {bytes : List UInt8}
    (ha : a + bytes.length ≤ n) (h : ∀ k (hk : k < bytes.length), r.byte (a + k) = bytes[k].toNat) :
    r.write a bytes = r := by
  apply Region.ext_byte
  intro x _
  by_cases hx : a ≤ x ∧ x < a + bytes.length
  · obtain ⟨k, rfl⟩ : ∃ k, x = a + k := ⟨x - a, by omega⟩
    have hk : k < bytes.length := by omega
    rw [Region.byte_write_of_inside r hk ha, h k hk]
  · exact Region.byte_write_of_outside r (by omega)

/-! ## Little-endian bytes -/

/-- Byte `k` of a word. -/
def byteOf (w k : Nat) : UInt8 := UInt8.ofNat (w / 256 ^ k % 256)

/-- Conversion to `ushort`. -/
def toUshort (x : Int) : Nat := (x % 2 ^ 16).toNat

theorem toNat_byteOf (w k : Nat) : (byteOf w k).toNat = w / 256 ^ k % 256 := by
  rw [byteOf, UInt8.toNat_ofNat']
  omega

/-- A `ushort` is read back from its two bytes. -/
theorem Region.u16_of_bytes {r : Region n} {a w : Nat} (hw : w < 65536)
    (h : ∀ k < 2, r.byte (a + k) = (byteOf w k).toNat) : r.u16 a = w := by
  have h₀ := h 0 (by omega)
  have h₁ := h 1 (by omega)
  rw [toNat_byteOf] at h₀ h₁
  simp only [Nat.add_zero, Nat.pow_zero, Nat.pow_one] at h₀ h₁
  rw [Region.u16, h₀, h₁]
  omega

/-- A `uint` is read back from its four bytes. -/
theorem Region.u32_of_bytes {r : Region n} {a w : Nat} (hw : w < 4294967296)
    (h : ∀ k < 4, r.byte (a + k) = (byteOf w k).toNat) : r.u32 a = w := by
  have h₀ : r.u16 a = w % 65536 := by
    apply Region.u16_of_bytes (by omega)
    intro k hk
    rw [h k (by omega), toNat_byteOf, toNat_byteOf]
    have hk' : k = 0 ∨ k = 1 := by omega
    rcases hk' with rfl | rfl <;> omega
  have h₂ : r.u16 (a + 2) = w / 65536 := by
    apply Region.u16_of_bytes (by omega)
    intro k hk
    rw [Nat.add_assoc, h (2 + k) (by omega), toNat_byteOf, toNat_byteOf]
    have hk' : k = 0 ∨ k = 1 := by omega
    rcases hk' with rfl | rfl <;> omega
  rw [Region.u32, h₀, h₂]
  omega

/-- The bytes of a `ushort` that was read. -/
theorem Region.byteOf_u16 (r : Region n) (a : Nat) {k : Nat} (hk : k < 2) :
    (byteOf (r.u16 a) k).toNat = r.byte (a + k) := by
  have h₀ := r.byte_lt a
  have h₁ := r.byte_lt (a + 1)
  have hk' : k = 0 ∨ k = 1 := by omega
  rw [toNat_byteOf, Region.u16]
  rcases hk' with rfl | rfl
  · simp only [Nat.add_zero, Nat.pow_zero]
    omega
  · simp only [Nat.pow_one]
    omega

/-- The bytes of a `uint` that was read. -/
theorem Region.byteOf_u32 (r : Region n) (a : Nat) {k : Nat} (hk : k < 4) :
    (byteOf (r.u32 a) k).toNat = r.byte (a + k) := by
  have hu₀ := r.u16_lt a
  have hu₂ := r.u16_lt (a + 2)
  have hlow : ∀ j < 2, r.u32 a / 256 ^ j % 256 = r.u16 a / 256 ^ j % 256 := by
    intro j hj
    have hj' : j = 0 ∨ j = 1 := by omega
    rw [Region.u32]
    rcases hj' with rfl | rfl <;> omega
  have hhigh : ∀ j < 2, r.u32 a / 256 ^ (2 + j) % 256 = r.u16 (a + 2) / 256 ^ j % 256 := by
    intro j hj
    have hj' : j = 0 ∨ j = 1 := by omega
    rw [Region.u32]
    rcases hj' with rfl | rfl <;> omega
  rw [toNat_byteOf]
  by_cases hk2 : k < 2
  · rw [hlow k hk2, ← toNat_byteOf, Region.byteOf_u16 r a hk2]
  · obtain ⟨j, rfl⟩ : ∃ j, k = 2 + j := ⟨k - 2, by omega⟩
    rw [hhigh j (by omega), ← toNat_byteOf, Region.byteOf_u16 r (a + 2) (by omega), Nat.add_assoc]

/-! ## Inode records -/

/-- Byte `k` of the record of an inode. -/
def Dinode.byte (d : Dinode) (k : Nat) : UInt8 :=
  if k < 2 then byteOf (toUshort d.type) k
  else if k < 4 then byteOf (toUshort d.major) (k - 2)
  else if k < 6 then byteOf (toUshort d.minor) (k - 4)
  else if k < 8 then byteOf (toUshort d.nlink) (k - 6)
  else if k < 12 then byteOf d.size (k - 8)
  else byteOf (d.addr ((k - 12) / 4)) ((k - 12) % 4)

/-- The record of an inode. -/
def Dinode.encode (d : Dinode) : List UInt8 := (List.range dinodeSize).map d.byte

theorem toUshort_toShort {w : Nat} (hw : w < 65536) : toUshort (toShort w) = w := by
  unfold toUshort toShort
  rw [Int.bmod_def]
  split <;> omega

theorem length_encode (d : Dinode) : d.encode.length = 64 := by
  simp [Dinode.encode]

theorem getElem_encode (d : Dinode) {k : Nat} (hk : k < d.encode.length) :
    d.encode[k] = d.byte k := by
  simp [Dinode.encode]

theorem byte_addr (d : Dinode) {j k : Nat} (hk : k < 4) :
    d.byte (12 + 4 * j + k) = byteOf (d.addr j) k := by
  have hj : (12 + 4 * j + k - 12) / 4 = j := by omega
  have hm : (12 + 4 * j + k - 12) % 4 = k := by omega
  unfold Dinode.byte
  rw [if_neg (by omega), if_neg (by omega), if_neg (by omega), if_neg (by omega),
    if_neg (by omega), hj, hm]

theorem dinodeAt_type (r : Region n) (a : Nat) : (dinodeAt r a).type = toShort (r.u16 a) := by
  rw [dinodeAt]

theorem dinodeAt_size (r : Region n) (a : Nat) : (dinodeAt r a).size = r.u32 (a + 8) := rfl

theorem dinodeAt_addr (r : Region n) (a : Nat) {j : Nat} (hj : j < 13) :
    (dinodeAt r a).addr j = r.u32 (a + 12 + 4 * j) := by
  unfold Dinode.addr
  rw [dif_pos hj]
  rfl

/-- A `short` field of a record that was read. -/
theorem byteOf_short (r : Region n) (a o : Nat) {k : Nat} (h₁ : o ≤ k) (h₂ : k < o + 2) :
    (byteOf (toUshort (toShort (r.u16 (a + o)))) (k - o)).toNat = r.byte (a + k) := by
  rw [toUshort_toShort (r.u16_lt _), r.byteOf_u16 _ (by omega)]
  congr 1
  omega

/-- **Encoding a record that was read gives its bytes back.** -/
theorem byte_dinodeAt (r : Region n) (a : Nat) {k : Nat} (hk : k < 64) :
    ((dinodeAt r a).byte k).toNat = r.byte (a + k) := by
  by_cases h12 : k < 12
  · unfold Dinode.byte
    simp only [if_pos h12, dinodeAt]
    split
    · exact byteOf_short r a 0 (by omega) (by omega)
    split
    · exact byteOf_short r a 2 (by omega) (by omega)
    split
    · exact byteOf_short r a 4 (by omega) (by omega)
    split
    · exact byteOf_short r a 6 (by omega) (by omega)
    have h := r.byteOf_u32 (a + 8) (show k - 8 < 4 by omega)
    rw [show a + 8 + (k - 8) = a + k by omega] at h
    exact h
  · obtain ⟨j, m, hm, rfl⟩ : ∃ j m, m < 4 ∧ k = 12 + 4 * j + m :=
      ⟨(k - 12) / 4, (k - 12) % 4, by omega, by omega⟩
    rw [byte_addr _ hm, dinodeAt_addr r a (by omega), r.byteOf_u32 _ hm]
    congr 1
    omega

/-- The fields fit in the words that hold them. -/
structure Dinode.InRange (d : Dinode) : Prop where
  type : toShort (toUshort d.type) = d.type
  major : toShort (toUshort d.major) = d.major
  minor : toShort (toUshort d.minor) = d.minor
  nlink : toShort (toUshort d.nlink) = d.nlink
  size : d.size < 4294967296
  addrs : ∀ j, d.addrs j < 4294967296

theorem inRange_dinodeAt (r : Region n) (a : Nat) : (dinodeAt r a).InRange := by
  have hshort : ∀ x, toShort (toUshort (toShort (r.u16 x))) = toShort (r.u16 x) := fun x => by
    rw [toUshort_toShort (r.u16_lt x)]
  constructor <;> simp only [dinodeAt]
  · exact hshort a
  · exact hshort (a + 2)
  · exact hshort (a + 4)
  · exact hshort (a + 6)
  · exact r.u32_lt _
  · exact fun j => r.u32_lt _

/-- A `short` field is read back. -/
theorem short_of_bytes {r : Region n} {a : Nat} {x : Int} (hx : toShort (toUshort x) = x)
    (h : ∀ k < 2, r.byte (a + k) = (byteOf (toUshort x) k).toNat) : toShort (r.u16 a) = x := by
  have hlt : toUshort x < 65536 := by
    unfold toUshort
    omega
  rw [Region.u16_of_bytes hlt h, hx]

section Stored

variable {r : Region n} {a : Nat} {d : Dinode} (h : ∀ k < 64, r.byte (a + k) = (d.byte k).toNat)

include h

theorem type_of_bytes (hd : toShort (toUshort d.type) = d.type) : (dinodeAt r a).type = d.type := by
  rw [dinodeAt_type]
  apply short_of_bytes hd
  intro k hk
  rw [h k (by omega), Dinode.byte, if_pos hk]

theorem size_of_bytes (hd : d.size < 4294967296) : (dinodeAt r a).size = d.size := by
  rw [dinodeAt_size]
  apply Region.u32_of_bytes hd
  intro k hk
  rw [Nat.add_assoc, h (8 + k) (by omega), Dinode.byte, if_neg (by omega), if_neg (by omega),
    if_neg (by omega), if_neg (by omega), if_pos (by omega), Nat.add_sub_cancel_left]

theorem addr_of_bytes {j : Nat} (hj : j < 13) (hd : d.addr j < 4294967296) :
    (dinodeAt r a).addr j = d.addr j := by
  rw [dinodeAt_addr r a hj]
  apply Region.u32_of_bytes hd
  intro k hk
  rw [show a + 12 + 4 * j + k = a + (12 + 4 * j + k) by omega, h _ (by omega), byte_addr d hk]

/-- **A record that was stored is read back.** -/
theorem dinodeAt_of_bytes (hd : d.InRange) : dinodeAt r a = d := by
  have h₂ : ∀ k < 2, r.byte (a + 2 + k) = (byteOf (toUshort d.major) k).toNat := by
    intro k hk
    rw [Nat.add_assoc, h (2 + k) (by omega), Dinode.byte, if_neg (by omega), if_pos (by omega),
      Nat.add_sub_cancel_left]
  have h₄ : ∀ k < 2, r.byte (a + 4 + k) = (byteOf (toUshort d.minor) k).toNat := by
    intro k hk
    rw [Nat.add_assoc, h (4 + k) (by omega), Dinode.byte, if_neg (by omega), if_neg (by omega),
      if_pos (by omega), Nat.add_sub_cancel_left]
  have h₆ : ∀ k < 2, r.byte (a + 6 + k) = (byteOf (toUshort d.nlink) k).toNat := by
    intro k hk
    rw [Nat.add_assoc, h (6 + k) (by omega), Dinode.byte, if_neg (by omega), if_neg (by omega),
      if_neg (by omega), if_pos (by omega), Nat.add_sub_cancel_left]
  have haddr : ∀ j : Fin 13, r.u32 (a + 12 + 4 * j.val) = d.addrs j := by
    intro j
    have hj : d.addr j.val = d.addrs j := by
      rw [Dinode.addr, dif_pos j.isLt]
    have haddr := addr_of_bytes h j.isLt (by rw [hj]; exact hd.addrs j)
    rwa [dinodeAt_addr r a j.isLt, hj] at haddr
  have htype : toShort (r.u16 a) = d.type := by
    rw [← dinodeAt_type]
    exact type_of_bytes h hd.type
  have hmajor := short_of_bytes hd.major h₂
  have hminor := short_of_bytes hd.minor h₄
  have hnlink := short_of_bytes hd.nlink h₆
  have hsize : r.u32 (a + 8) = d.size := by
    rw [← dinodeAt_size]
    exact size_of_bytes h hd.size
  unfold dinodeAt
  rw [htype, hmajor, hminor, hnlink, hsize, funext haddr]

end Stored

/-! ## Records with the same bytes -/

variable {m : Nat} {r : Region n} {q : Region m} {a b : Nat}

theorem dinodeAt_congr (h : ∀ k < 64, r.byte (a + k) = q.byte (b + k)) :
    dinodeAt r a = dinodeAt q b := by
  refine dinodeAt_of_bytes (fun k hk => ?_) (inRange_dinodeAt q b)
  rw [h k hk, byte_dinodeAt q b hk]

theorem direntAt_congr (h : ∀ k < 16, r.byte (a + k) = q.byte (b + k)) :
    direntAt r a = direntAt q b := by
  have hinum : r.u16 a = q.u16 b := Region.u16_congr fun k hk => h k (by omega)
  have hname : ∀ k : Fin 14, r.byte (a + 2 + k) = q.byte (b + 2 + k) := by
    intro k
    rw [Nat.add_assoc, h (2 + k) (by omega), Nat.add_assoc]
  unfold direntAt
  simp only [hinum, hname]

end OstepHw.Fsck
