import OstepHw.Lib.Climb
import OstepHw.Fsck.ContestPass

/-!
# The misdirected climb of contest 3

`xcheck_contest_3.c` calls `trace_parent` with its first two arguments swapped.  The record of the
parent is read from the front of the image, at 64 bytes for each inode number, and the entries of the
directory from the array `inodes`.  This walk has nothing to do with the directories of the image:

* `Next`, `Readable` — the inode numbers it goes on with, and when it can;
* `traceParent_ok_iff` — it comes to an end iff `WalkEnds`; the fuel of the model is enough;
* `tracePrints_iff` — it prints the message, at its end or before it is stopped, iff it comes to a `.` entry
  with the number of the directory it began in (`Meets`);
* `traceParent_prints_iff` — when it comes to its end, the message is then in the result.

The array changes during the run, but only in the link counts, which no name of an entry depends on.
-/

set_option autoImplicit false

namespace OstepHw.Fsck.Contest3

open Loop Climb

variable {img : Image}

/-! ## Entries read from inode records -/

theorem exists_ofFn_name (de : Dirent) :
    ∃ rest, List.ofFn de.name = de.name 0 :: de.name 1 :: de.name 2 :: rest :=
  ⟨_, by rw [List.ofFn_succ, List.ofFn_succ, List.ofFn_succ]; rfl⟩

theorem isDot_iff (de : Dirent) : de.isDot = true ↔ de.name 0 = 0x2e ∧ de.name 1 = 0 := by
  obtain ⟨rest, hrest⟩ := exists_ofFn_name de
  unfold Dirent.isDot Dirent.cname
  rw [hrest]
  by_cases h₀ : de.name 0 = 0
  · simp [h₀]
  · by_cases h₁ : de.name 1 = 0 <;> simp [List.takeWhile_cons, h₀, h₁]

theorem isDotDot_iff (de : Dirent) :
    de.isDotDot = true ↔ de.name 0 = 0x2e ∧ de.name 1 = 0x2e ∧ de.name 2 = 0 := by
  obtain ⟨rest, hrest⟩ := exists_ofFn_name de
  unfold Dirent.isDotDot Dirent.cname
  rw [hrest]
  by_cases h₀ : de.name 0 = 0
  · simp [h₀]
  · by_cases h₁ : de.name 1 = 0
    · simp [h₀, h₁]
    · by_cases h₂ : de.name 2 = 0 <;> simp [h₀, h₁, h₂]

/-- The link count has bytes 6 and 7 of the record. -/
theorem byte_relink (d : Dinode) (c : Int) {k : Nat} (hk : k < 6 ∨ 8 ≤ k) :
    (d.relink c).byte k = d.byte k := by
  have haddr : (d.relink c).addr = d.addr := funext (relink_addr d c)
  unfold Dinode.byte
  rw [haddr, relink_type]
  by_cases h₂ : k < 6
  · have h₃ : k < 8 := by omega
    simp only [h₂, if_true]
    rfl
  · have h₃ : ¬ k < 8 := by omega
    have h₄ : ¬ k < 2 := by omega
    have h₅ : ¬ k < 4 := by omega
    simp only [h₂, h₃, h₄, h₅, if_false]
    rfl

theorem region_byte_relinked {inodes : Nat → Dinode} {t : Tables} (ht : SameButLinks inodes t) (n : Nat)
    {a : Nat} (ha : a % 64 < 6 ∨ 8 ≤ a % 64) :
    (inodesRegion t.inodes n).byte a = (inodesRegion inodes n).byte a := by
  unfold Region.byte
  split
  · obtain ⟨c, hc⟩ := ht (a / dinodeSize)
    unfold inodesRegion
    rw [hc]
    exact congrArg UInt8.toNat (byte_relink _ c ha)
  · rfl

/-- The inode array as the program copies it from the image. -/
def table (img : Image) : Region (dinodeSize * (superblock img).ninodes) :=
  inodesRegion (inode img) (superblock img).ninodes

/-- The number and the kind of an entry do not depend on the link counts. -/
structure SameEntry (e e' : Dirent) : Prop where
  inum : e.inum = e'.inum
  isDot : e.isDot = e'.isDot
  isDotDot : e.isDotDot = e'.isDotDot

theorem sameEntry_relinked {t : Tables} (ht : SameButLinks (inode img) t) {a : Nat} (ha : a % 16 = 0) :
    SameEntry (direntAt (inodesRegion t.inodes (superblock img).ninodes) a) (direntAt (table img) a) := by
  have hbyte : ∀ k < 5, (inodesRegion t.inodes (superblock img).ninodes).byte (a + k) =
      (table img).byte (a + k) := fun k hk => region_byte_relinked ht _ (by omega)
  have hname : ∀ k : Fin 14, k.val < 3 →
      (direntAt (inodesRegion t.inodes (superblock img).ninodes) a).name k =
        (direntAt (table img) a).name k := fun k hk => by
    have := hbyte (2 + k) (by omega)
    rw [← Nat.add_assoc] at this
    exact congrArg UInt8.ofNat this
  refine ⟨Region.u16_congr fun k hk => hbyte k (by omega), Bool.eq_iff_iff.2 ?_, Bool.eq_iff_iff.2 ?_⟩
  · rw [isDot_iff, isDot_iff, hname 0 (by decide), hname 1 (by decide)]
  · rw [isDotDot_iff, isDotDot_iff, hname 0 (by decide), hname 1 (by decide), hname 2 (by decide)]

theorem blockOff_mod_sixteen (b : Nat) : blockOff b % 16 = 0 := by
  unfold blockOff
  simp only [BSIZE]
  omega

/-- What a read inside a region of `m` bytes gives. -/
theorem readInodeData_eq_ok {m : Nat} {r : Region m} {d : Dinode} {k : Nat} {e : Dirent} :
    readInodeData d r (16 * k) = .ok e ↔
      (k < 32 ∧ blockOff (d.addr 0) + 16 * k + direntSize ≤ m) ∧
        e = direntAt r (blockOff (d.addr 0) + 16 * k) := by
  by_cases hk : k < 32
  · have hb : 16 * k / BSIZE = 0 := by simp only [BSIZE]; omega
    have hm : 16 * k % BSIZE = 16 * k := by simp only [BSIZE]; omega
    unfold readInodeData
    simp only [hb, hm, ne_eq, not_true_eq_false, if_false]
    rw [if_pos (by decide : 0 < NDIRECT)]
    simp only [pure, Except.pure, ok_bind, bind_eq_ok, memmove_eq_ok, exists_const, Except.ok.injEq, hk,
      true_and, eq_comm (a := e)]
  · have hb : 16 * k / BSIZE ≠ 0 := by simp only [BSIZE]; omega
    unfold readInodeData
    simp only [ne_eq, hb, not_false_eq_true, if_true, hk, false_and, iff_false]
    intro h
    cases h

/-! ## The walk -/

/-- The record that is taken for that of inode `p`. -/
def misread (img : Image) (p : Nat) : Dinode := dinodeAt img (dinodeSize * p)

/-- What is taken for entry `k` of the directory with that record. -/
def misreadEntry (img : Image) (p k : Nat) : Dirent :=
  direntAt (table img) (blockOff ((misread img p).addr 0) + 16 * k)

/-- Entry `k` lies in the first block of the directory and in the array. -/
def InArray (img : Image) (p k : Nat) : Prop :=
  k < 32 ∧
    blockOff ((misread img p).addr 0) + 16 * k + direntSize ≤ dinodeSize * (superblock img).ninodes

/-- The record lies in the image, and the entries in the array. -/
structure Readable (img : Image) (p : Nat) : Prop where
  record : dinodeSize * p + dinodeSize ≤ IMG_SIZE
  entries : ∀ k < entryCount (misread img p), InArray img p k

/-- At `p` the walk meets a `..` entry with the number `q`. -/
def Next (img : Image) (p q : Nat) : Prop :=
  ∃ k < entryCount (misread img p),
    (misreadEntry img p k).isDotDot = true ∧ (misreadEntry img p k).inum = q

/-- The walk from `p` comes to its end. -/
def WalkEnds (img : Image) (p : Nat) : Prop := Ends (Readable img) (Next img) p

/-- The walk gets to entry `k` of the directory at `p`: it can read the entries up to there, and comes
back from the `..` entries before it. -/
structure Reaches (img : Image) (p k : Nat) : Prop where
  record : dinodeSize * p + dinodeSize ≤ IMG_SIZE
  lt : k < entryCount (misread img p)
  entries : ∀ j ≤ k, InArray img p j
  back : ∀ j < k, (misreadEntry img p j).isDotDot = true → WalkEnds img (misreadEntry img p j).inum

/-- The walk from `p` comes to a `.` entry with the number `leaf`. -/
inductive Meets (img : Image) (leaf : Nat) : Nat → Prop where
  | dot {p k : Nat} (hk : Reaches img p k) (hdot : (misreadEntry img p k).isDot = true)
      (hleaf : (misreadEntry img p k).inum = leaf) : Meets img leaf p
  | dotDot {p k : Nat} (hk : Reaches img p k) (hdd : (misreadEntry img p k).isDotDot = true)
      (h : Meets img leaf (misreadEntry img p k).inum) : Meets img leaf p

/-- Entry `k` prints the message, or leads to a record that does. -/
def MeetsAt (img : Image) (leaf p k : Nat) : Prop :=
  ((misreadEntry img p k).isDot = true ∧ (misreadEntry img p k).inum = leaf) ∨
    ((misreadEntry img p k).isDotDot = true ∧ Meets img leaf (misreadEntry img p k).inum)

theorem meets_iff {leaf p : Nat} : Meets img leaf p ↔ ∃ k, Reaches img p k ∧ MeetsAt img leaf p k := by
  constructor
  · intro h
    cases h with
    | dot hk hdot hleaf => exact ⟨_, hk, Or.inl ⟨hdot, hleaf⟩⟩
    | dotDot hk hdd h => exact ⟨_, hk, Or.inr ⟨hdd, h⟩⟩
  · rintro ⟨k, hk, ⟨hdot, hleaf⟩ | ⟨hdd, h⟩⟩
    · exact .dot hk hdot hleaf
    · exact .dotDot hk hdd h

/-- A walk that ends gets to every entry. -/
theorem WalkEnds.reaches {p k : Nat} (h : WalkEnds img p) (hk : k < entryCount (misread img p)) :
    Reaches img p k := by
  have hread := h.ok p .refl
  refine ⟨hread.record, hk, fun j hj => hread.entries j (by omega), fun j hj hdd => ?_⟩
  exact h.of_next ⟨j, by omega, hdd, rfl⟩

/-! ## The fuel -/

theorem next_lt {p q : Nat} (h : Next img p q) : q < 2 ^ 16 := by
  obtain ⟨k, _, _, rfl⟩ := h
  exact Region.u16_lt _ _

/-- The fuel of the model is enough for every walk that ends. -/
theorem within_traceFuel_iff {p : Nat} (hp : p < 2 ^ 16) :
    Within (Readable img) (Next img) traceFuel p ↔ WalkEnds img p := by
  refine within_iff_ends (S := Finset.range (2 ^ 16)) (fun q hq => ?_) ?_
  · rw [Finset.mem_range]
    rcases hq.cases_tail with rfl | ⟨r, _, hr⟩
    · exact hp
    · exact next_lt hr
  · rw [Finset.card_range]
    exact Nat.le_succ _

/-! ## The recursion -/

section Trace

variable {t : Tables} {leaf : Nat}

/-- The body of the loop of `trace_parent` for entry `k`. -/
def traceStep (img : Image) (t : Tables) (leaf fuel p : Nat) (printed : List Msg) (k : Nat) :
    Run (List Msg) := do
  let de ← readInodeData (misread img p) (inodesRegion t.inodes (superblock img).ninodes) (16 * k)
  let printed := if de.isDot ∧ de.inum = leaf then printed ++ [.inaccessible] else printed
  if de.isDotDot then
    let deeper ← traceParent (inodesRegion t.inodes (superblock img).ninodes) img leaf fuel de.inum
    return printed ++ deeper
  else return printed

theorem traceParent_succ (img : Image) (t : Tables) (leaf fuel p : Nat) :
    traceParent (inodesRegion t.inodes (superblock img).ninodes) img leaf (fuel + 1) p = (do
      memmove img (dinodeSize * p) dinodeSize
      (List.range (entryCount (misread img p))).foldlM (traceStep img t leaf fuel p) []) := by
  rw [traceParent]
  congr 1
  funext _
  rw [← misread]
  dsimp only
  rw [offsets_size, List.foldlM_map]
  rfl

theorem misread_aligned (img : Image) (p k : Nat) :
    (blockOff ((misread img p).addr 0) + 16 * k) % 16 = 0 := by
  have := blockOff_mod_sixteen ((misread img p).addr 0)
  omega

/-- One turn of the loop, read off the image. -/
theorem traceStep_eq (ht : SameButLinks (inode img) t) {fuel p k : Nat} {printed printed' : List Msg} :
    traceStep img t leaf fuel p printed k = .ok printed' ↔
      InArray img p k ∧ ∃ deeper, (if (misreadEntry img p k).isDotDot = true then
          traceParent (inodesRegion t.inodes (superblock img).ninodes) img leaf fuel
            (misreadEntry img p k).inum else .ok []) = .ok deeper ∧
        printed' = (if (misreadEntry img p k).isDot = true ∧ (misreadEntry img p k).inum = leaf then
          printed ++ [.inaccessible] else printed) ++ deeper := by
  have hsame := sameEntry_relinked ht (misread_aligned img p k)
  rw [← misreadEntry] at hsame
  unfold traceStep
  rw [bind_eq_ok]
  constructor
  · rintro ⟨de, hread, hrun⟩
    obtain ⟨hin, rfl⟩ := readInodeData_eq_ok.1 hread
    refine ⟨hin, ?_⟩
    simp only [hsame.inum, hsame.isDot, hsame.isDotDot] at hrun
    split at hrun
    · rename_i hdd
      rw [bind_eq_ok] at hrun
      obtain ⟨deeper, hdeeper, hrun⟩ := hrun
      cases hrun
      exact ⟨deeper, by rw [if_pos hdd, hdeeper], rfl⟩
    · rename_i hdd
      cases hrun
      exact ⟨[], by rw [if_neg hdd], by rw [List.append_nil]⟩
  · rintro ⟨hin, deeper, hdeeper, rfl⟩
    refine ⟨_, readInodeData_eq_ok.2 ⟨hin, rfl⟩, ?_⟩
    simp only [hsame.inum, hsame.isDot, hsame.isDotDot]
    by_cases hdd : (misreadEntry img p k).isDotDot = true
    · rw [if_pos hdd] at hdeeper ⊢
      rw [hdeeper]
      rfl
    · rw [if_neg hdd] at hdeeper ⊢
      cases hdeeper
      rw [List.append_nil]
      rfl

/-- The loop runs over the first `k` entries iff it can read them and comes back from their calls. -/
theorem trace_entries_ok_iff (ht : SameButLinks (inode img) t) {fuel p k : Nat} :
    (∃ printed, (List.range k).foldlM (traceStep img t leaf fuel p) [] = .ok printed) ↔
      ∀ j < k, InArray img p j ∧ ((misreadEntry img p j).isDotDot = true → ∃ deeper,
        traceParent (inodesRegion t.inodes (superblock img).ninodes) img leaf fuel
          (misreadEntry img p j).inum = .ok deeper) := by
  simp only [← List.mem_range (n := k)]
  refine foldlM_runs_iff_forall (P := fun _ _ => True) (fun pre j post printed _ _ => ?_)
    (fun _ _ _ _ _ _ _ _ => trivial) trivial
  simp only [traceStep_eq ht, exists_and_left]
  refine and_congr_right fun _ => ?_
  by_cases hdd : (misreadEntry img p j).isDotDot = true <;> simp [hdd]

/-- **The recursion ends** within its fuel iff the walk is within as many levels. -/
theorem traceParent_ok_iff (ht : SameButLinks (inode img) t) : ∀ {fuel p : Nat},
    (∃ printed, traceParent (inodesRegion t.inodes (superblock img).ninodes) img leaf fuel p =
      .ok printed) ↔ Within (Readable img) (Next img) fuel p
  | 0, p => by simp [traceParent, Within]
  | fuel + 1, p => by
    rw [traceParent_succ, Within]
    simp only [bind_eq_ok, memmove_eq_ok, exists_const, exists_and_left, trace_entries_ok_iff ht,
      traceParent_ok_iff ht]
    constructor
    · rintro ⟨hrec, hall⟩
      refine ⟨⟨hrec, fun k hk => (hall k hk).1⟩, ?_⟩
      rintro q ⟨k, hk, hdd, rfl⟩
      exact (hall k hk).2 hdd
    · rintro ⟨hread, hnext⟩
      exact ⟨hread.record, fun k hk => ⟨hread.entries k hk, fun hdd => hnext _ ⟨k, hk, hdd, rfl⟩⟩⟩

/-- A walk that comes to its end has printed the message iff it meets the number of the directory it
began in. -/
theorem traceParent_prints_iff (ht : SameButLinks (inode img) t) : ∀ {fuel p : Nat}
    {printed : List Msg},
    traceParent (inodesRegion t.inodes (superblock img).ninodes) img leaf fuel p = .ok printed →
      (.inaccessible ∈ printed ↔ Meets img leaf p)
  | 0, _, _, h => by cases h
  | fuel + 1, p, printed, h => by
    have hends := ends_of_within ((traceParent_ok_iff ht).1 ⟨printed, h⟩)
    rw [traceParent_succ, bind_eq_ok] at h
    obtain ⟨_, _, hrun⟩ := h
    have hinv := foldlM_ok_invariant
      (P := fun pre printed => .inaccessible ∈ printed ↔ ∃ k ∈ pre, MeetsAt img leaf p k)
      (fun pre k _ printed printed' _ hpre hstep => by
        obtain ⟨_, deeper, hdeeper, rfl⟩ := (traceStep_eq ht).1 hstep
        have hdeep : .inaccessible ∈ deeper ↔ (misreadEntry img p k).isDotDot = true ∧
            Meets img leaf (misreadEntry img p k).inum := by
          by_cases hdd : (misreadEntry img p k).isDotDot = true
          · rw [if_pos hdd] at hdeeper
            simp [hdd, traceParent_prints_iff ht hdeeper]
          · rw [if_neg hdd] at hdeeper
            cases hdeeper
            simp [hdd]
        have hdot : .inaccessible ∈ (if (misreadEntry img p k).isDot = true ∧
            (misreadEntry img p k).inum = leaf then printed ++ [.inaccessible] else printed) ↔
            .inaccessible ∈ printed ∨
              ((misreadEntry img p k).isDot = true ∧ (misreadEntry img p k).inum = leaf) := by
          split
          · rename_i hdot
            simp [hdot]
          · rename_i hdot
            simp only [hdot, or_false]
        rw [List.mem_append, hdot, hdeep, hpre, or_assoc]
        simp only [List.mem_append, List.mem_singleton, or_and_right, exists_or, exists_eq_left,
          MeetsAt]) (by simp) hrun
    rw [hinv, meets_iff]
    refine exists_congr fun k => and_congr_left fun _ => ?_
    rw [List.mem_range]
    exact ⟨fun hk => WalkEnds.reaches hends hk, fun hk => hk.lt⟩

/-- It prints nothing else. -/
theorem traceParent_prints_only (ht : SameButLinks (inode img) t) : ∀ {fuel p : Nat}
    {printed : List Msg},
    traceParent (inodesRegion t.inodes (superblock img).ninodes) img leaf fuel p = .ok printed →
      ∀ m ∈ printed, m = .inaccessible
  | 0, _, _, h => by cases h
  | fuel + 1, p, printed, h => by
    rw [traceParent_succ, bind_eq_ok] at h
    obtain ⟨_, _, hrun⟩ := h
    refine foldlM_ok_invariant (P := fun _ (printed : List Msg) => ∀ m ∈ printed, m = .inaccessible)
      (fun pre k _ printed printed' _ hpre hstep => ?_) (by simp) hrun
    obtain ⟨_, deeper, hdeeper, rfl⟩ := (traceStep_eq ht).1 hstep
    have hdeep : ∀ m ∈ deeper, m = .inaccessible := by
      split at hdeeper
      · exact traceParent_prints_only ht hdeeper
      · cases hdeeper
        simp
    rw [List.forall_mem_append]
    refine ⟨?_, hdeep⟩
    split
    · rw [List.forall_mem_append]
      exact ⟨hpre, by simp⟩
    · exact hpre

/-! ## Before the end -/

/-- The loop of `trace_parent` gets to entry `k` and reads it. -/
structure GetsTo (img : Image) (t : Tables) (leaf p k : Nat) (de : Dirent) : Prop where
  record : memmove img (dinodeSize * p) dinodeSize = .ok ()
  lt : k < entryCount (misread img p)
  before : ∃ fuel printed, (List.range k).foldlM (traceStep img t leaf fuel p) [] = .ok printed
  read : readInodeData (misread img p) (inodesRegion t.inodes (superblock img).ninodes) (16 * k) =
    .ok de

/-- The call of `trace_parent` prints the message, whether it comes to its end or not: the loop gets to
an entry and prints the message there, or the recursive call does. -/
inductive TracePrints (img : Image) (t : Tables) (leaf : Nat) : Nat → Prop where
  | dot {p k : Nat} {de : Dirent} (hk : GetsTo img t leaf p k de) (hdot : de.isDot = true)
      (hleaf : de.inum = leaf) : TracePrints img t leaf p
  | dotDot {p k : Nat} {de : Dirent} (hk : GetsTo img t leaf p k de) (hdd : de.isDotDot = true)
      (h : TracePrints img t leaf de.inum) : TracePrints img t leaf p

theorem GetsTo.reaches {p k : Nat} {de : Dirent} (ht : SameButLinks (inode img) t)
    (h : GetsTo img t leaf p k de) : Reaches img p k ∧ SameEntry de (misreadEntry img p k) := by
  obtain ⟨fuel, hbefore⟩ := h.before
  have hall := (trace_entries_ok_iff ht).1 hbefore
  obtain ⟨hin, rfl⟩ := readInodeData_eq_ok.1 h.read
  refine ⟨⟨memmove_eq_ok.1 h.record, h.lt, fun j hj => ?_, fun j hj hdd => ?_⟩,
    sameEntry_relinked ht (misread_aligned img p k)⟩
  · rcases Nat.lt_or_eq_of_le hj with hj | rfl
    · exact (hall j hj).1
    · exact hin
  · exact ends_of_within ((traceParent_ok_iff ht).1 ((hall j hj).2 hdd))

theorem Reaches.getsTo {p k : Nat} (ht : SameButLinks (inode img) t) (h : Reaches img p k) :
    ∃ de, GetsTo img t leaf p k de ∧ SameEntry de (misreadEntry img p k) := by
  refine ⟨_, ⟨memmove_eq_ok.2 h.record, h.lt, ⟨traceFuel, ?_⟩,
    readInodeData_eq_ok.2 ⟨h.entries k (Nat.le_refl k), rfl⟩⟩,
    sameEntry_relinked ht (misread_aligned img p k)⟩
  refine (trace_entries_ok_iff ht).2 fun j hj => ⟨h.entries j (by omega), fun hdd => ?_⟩
  exact (traceParent_ok_iff ht).2 ((within_traceFuel_iff (Region.u16_lt _ _)).2 (h.back j hj hdd))

/-- **The message** is printed, before the end or not, iff the walk meets the number of the directory
it began in. -/
theorem tracePrints_iff {p : Nat} (ht : SameButLinks (inode img) t) :
    TracePrints img t leaf p ↔ Meets img leaf p := by
  constructor
  · intro h
    induction h with
    | dot hk hdot hleaf =>
      obtain ⟨hreach, hsame⟩ := hk.reaches ht
      exact .dot hreach (hsame.isDot ▸ hdot) (hsame.inum ▸ hleaf)
    | dotDot hk hdd _ ih =>
      obtain ⟨hreach, hsame⟩ := hk.reaches ht
      exact .dotDot hreach (hsame.isDotDot ▸ hdd) (hsame.inum ▸ ih)
  · intro h
    induction h with
    | dot hk hdot hleaf =>
      obtain ⟨de, hget, hsame⟩ := hk.getsTo ht
      exact .dot hget (hsame.isDot.trans hdot) (hsame.inum.trans hleaf)
    | dotDot hk hdd _ ih =>
      obtain ⟨de, hget, hsame⟩ := hk.getsTo ht
      exact .dotDot hget (hsame.isDotDot.trans hdd) (hsame.inum ▸ ih)

end Trace

end OstepHw.Fsck.Contest3
