import Mathlib.Data.List.Induction
import Mathlib.Data.List.TakeWhile
import OstepHw.Fsck.Complete
import OstepHw.Fsck.Contest
import OstepHw.Fsck.Contest3Pass

/-!
# The directory loop of the contest checkers

What the loop does on an image whose directories have the expected shape (`DirShape`: one block, one
`.` that names the directory, one `..`), for any check of the `..` entries.  After the inodes of `l`
the arrays are known (`Visited`), so the check in directory `i` has one verdict `v i`.

* `checkDir_ok_iff`, `checkDir_halt_iff` — one directory;
* `inode_loop_ok_iff` — the loop runs over a prefix iff the other checks pass (`Through`) and the
  verdicts on all its directories are good;
* `main_halt_iff` — the program ends with one of the new messages iff the loop gets to the `..` of a
  directory with that verdict (`Arrives`), and the verdicts on the directories before it are good.
-/

set_option autoImplicit false

namespace OstepHw.Fsck.Contest

open Loop Bitmap
open Contest3 (Msg isChild MAX_CHILDS)

variable {img : Image}

/-! ## Stops -/

/-- The stop is one of the three that `xcheck.c` does not have. -/
def Halt.New (h : Halt) : Prop := ∀ s, h ≠ .stop s

theorem lift_eq_ok {α : Type} {x : Run α} {a : α} : lift x = .ok a ↔ x = .ok a := by
  cases x <;> simp [lift, Except.mapError]

theorem lift_ok {α : Type} (a : α) : lift (.ok a) = .ok a := rfl

theorem lift_ne_new {α : Type} {x : Run α} {h : Halt} (hnew : h.New) : lift x ≠ .error h := by
  intro hx
  cases x with
  | ok a => cases hx
  | error s =>
    cases hx
    exact hnew s rfl

/-- How a computation stops, if it does. -/
def verdict {α : Type} : Exec α → Option Halt
  | .ok _ => none
  | .error h => some h

theorem verdict_eq_none {α : Type} {x : Exec α} : verdict x = none ↔ ∃ a, x = .ok a := by
  cases x <;> simp [verdict]

theorem verdict_eq_some {α : Type} {x : Exec α} {h : Halt} : verdict x = some h ↔ x = .error h := by
  cases x <;> simp [verdict]

/-! ## Directories -/

/-- Directory `i` fits in one block of the image, its one `.` entry names it, and it has one `..`. -/
@[mk_iff]
structure DirShape (img : Image) (i : Nat) : Prop where
  size : (inode img i).size ≤ BSIZE
  block : (inode img i).addr 0 < FSSIZE
  dot : (entries img (inode img i)).countP Dirent.isDot = 1
  self : ∀ e ∈ entries img (inode img i), e.isDot = true → e.inum = i
  dotDot : (entries img (inode img i)).countP Dirent.isDotDot = 1

instance (img : Image) (i : Nat) : Decidable (DirShape img i) :=
  decidable_of_iff _ (dirShape_iff img i).symm

instance (img : Image) (i : Nat) : Decidable (IsDir img i) :=
  inferInstanceAs (Decidable (_ ∧ _ ∧ _))

instance (img : Image) (P : Nat → Prop) [DecidablePred P] : Decidable (∀ i, IsDir img i → P i) :=
  decidable_of_iff (∀ i ∈ inums (superblock img).ninodes, (inode img i).type = T_DIR → P i)
    ⟨fun h i hi => h i (mem_inums.2 ⟨hi.1, hi.2.1⟩) hi.2.2, fun h i hi hd =>
      h i ⟨(mem_inums.1 hi).1, (mem_inums.1 hi).2, hd⟩⟩

/-- The inode that the `..` entry of directory `i` names. -/
def parent (img : Image) (i : Nat) : Nat :=
  (((entries img (inode img i)).find? Dirent.isDotDot).map Dirent.inum).getD 0

/-- The entries of directory `i` in front of `..`. -/
def beforeParent (img : Image) (i : Nat) : List Dirent :=
  (entries img (inode img i)).takeWhile (! ·.isDotDot)

/-- The list falls apart at its one element with `p`. -/
theorem split_of_countP_one {α : Type} {p : α → Bool} {l : List α} (h : l.countP p = 1) :
    ∃ a post, l = l.takeWhile (! p ·) ++ a :: post ∧ l.find? p = some a ∧ p a = true ∧
      ∀ b ∈ post, p b = false := by
  induction l with
  | nil => simp at h
  | cons c l ih =>
    cases hc : p c with
    | true =>
      have hl : l.countP p = 0 := by simpa [List.countP_cons, hc] using h
      refine ⟨c, l, by simp [hc], by simp [hc], hc, fun b hb => ?_⟩
      simpa using (List.countP_eq_zero.1 hl) b hb
    | false =>
      have hl : l.countP p = 1 := by simpa [List.countP_cons, hc] using h
      obtain ⟨a, post, heq, hfind, ha, hpost⟩ := ih hl
      refine ⟨a, post, ?_, by simp [hc, hfind], ha, hpost⟩
      rw [List.takeWhile_cons, if_pos (by simp [hc]), List.cons_append, ← heq]

/-- The `..` entry among the entries of its directory. -/
structure Split (img : Image) (i : Nat) (dd : Dirent) (post : List Dirent) : Prop where
  eq : entries img (inode img i) = beforeParent img i ++ dd :: post
  isDotDot : dd.isDotDot = true
  inum : dd.inum = parent img i
  before : ∀ e ∈ beforeParent img i, e.isDotDot = false
  after : ∀ e ∈ post, e.isDotDot = false

theorem DirShape.split {i : Nat} (h : DirShape img i) : ∃ dd post, Split img i dd post := by
  obtain ⟨dd, post, heq, hfind, hdd, hpost⟩ := split_of_countP_one h.dotDot
  refine ⟨dd, post, heq, hdd, ?_, fun e he => ?_, hpost⟩
  · rw [parent, hfind]
    rfl
  · simpa using List.mem_takeWhile_imp he

theorem parent_eq_of_mem {i : Nat} (h : DirShape img i) {e : Dirent}
    (he : e ∈ entries img (inode img i)) (hdd : e.isDotDot = true) : e.inum = parent img i := by
  obtain ⟨dd, post, hs⟩ := h.split
  rw [hs.eq, List.mem_append, List.mem_cons] at he
  rcases he with he | rfl | he
  · rw [hs.before e he] at hdd
    cases hdd
  · exact hs.inum
  · rw [hs.after e he] at hdd
    cases hdd

/-- The entries in front of an entry `..` are those in front of the only one. -/
theorem beforeParent_eq {i : Nat} (h : DirShape img i) {pre post : List Dirent} {e : Dirent}
    (heq : entries img (inode img i) = pre ++ e :: post) (hdd : e.isDotDot = true) :
    beforeParent img i = pre := by
  have hcount := h.dotDot
  rw [heq, List.countP_append, List.countP_cons, if_pos hdd] at hcount
  have hpre : pre.countP Dirent.isDotDot = 0 := by omega
  have hnone : ∀ b ∈ pre, (!b.isDotDot) = true := fun b hb => by
    simpa using (List.countP_eq_zero.1 hpre) b hb
  rw [beforeParent, heq, List.takeWhile_append_of_pos hnone, List.takeWhile_cons, if_neg (by simp [hdd]),
    List.append_nil]

/-! ## Recording entries -/

/-- The sub-directories that entries of directory `i` name. -/
def children (img : Image) (i : Nat) (es : List Dirent) : List Nat :=
  (es.filter (isChild (inode img) i)).map Dirent.inum

theorem length_children (i : Nat) (es : List Dirent) :
    (children img i es).length = es.countP (isChild (inode img) i) := by
  rw [children, List.length_map, List.countP_eq_length_filter]

theorem children_append (i : Nat) (es es' : List Dirent) :
    children img i (es ++ es') = children img i es ++ children img i es' := by
  simp [children]

/-- All children of inode `i`: none when it is no directory. -/
def childrenOf (img : Image) (i : Nat) : List Nat :=
  if (inode img i).type = T_DIR then children img i (entries img (inode img i)) else []

/-- Between `s` and `s'` the entries `es` of directory `i` were recorded. -/
structure Recorded (img : Image) (i : Nat) (es : List Dirent) (s s' : Pass) : Prop where
  bmapMark : s'.bmapMark = s.bmapMark
  tables : s'.tables = referAll s.tables (es.map fun e => (i, e.inum))
  maps : s'.maps = Function.update s.maps i (s.maps i ++ children img i es)

theorem Recorded.refl (i : Nat) (s : Pass) : Recorded img i [] s s :=
  ⟨rfl, rfl, by simp [children]⟩

theorem Recorded.trans {i : Nat} {es es' : List Dirent} {s s' s'' : Pass}
    (h : Recorded img i es s s') (h' : Recorded img i es' s' s'') :
    Recorded img i (es ++ es') s s'' := by
  refine ⟨by rw [h'.bmapMark, h.bmapMark], ?_, ?_⟩
  · rw [h'.tables, h.tables, List.map_append, referAll_append]
  · rw [h'.maps, h.maps, children_append]
    simp

theorem Recorded.sameButLinks {i : Nat} {es : List Dirent} {s s' : Pass}
    (h : Recorded img i es s s') (hs : SameButLinks (inode img) s.tables) :
    SameButLinks (inode img) s'.tables := by
  rw [h.tables]
  exact hs.referAll

/-- The entry names an inode of the table and `maps[i]` has room for it. -/
def HasRoom (img : Image) (i : Nat) (s : Pass) (e : Dirent) : Prop :=
  e.inum < (superblock img).ninodes ∧
    (isChild (inode img) i e = true → (s.maps i).length < MAX_CHILDS)

theorem record_ok_iff {i : Nat} {s s' : Pass} {e : Dirent}
    (hs : SameButLinks (inode img) s.tables) :
    record (superblock img).ninodes i e s = .ok s' ↔
      HasRoom img i s e ∧ s' = { s with
        tables := s.tables.refer i e.inum
        maps := Function.update s.maps i (s.maps i ++ children img i [e]) } := by
  have hchild : isChild s.tables.inodes i e = isChild (inode img) i e := by
    unfold isChild
    rw [hs.type_eq]
  unfold record HasRoom
  simp only [hchild, bind_eq_ok, lift_eq_ok, index_eq_ok, exists_const, pure, Except.pure]
  cases hc : isChild (inode img) i e with
  | false => simp [children, hc, eq_comm]
  | true =>
    have hone : children img i [e] = [e.inum] := by simp [children, hc]
    simp only [if_true, bind_eq_ok, lift_eq_ok, index_eq_ok, exists_const, true_implies, hone,
      Except.ok.injEq, eq_comm (a := s'), and_assoc]

theorem record_ne_new {i n : Nat} {s : Pass} {e : Dirent} {h : Halt} (hnew : h.New) :
    record n i e s ≠ .error h := by
  intro hr
  unfold record at hr
  rcases bind_eq_error.1 hr with hr | ⟨_, _, hr⟩
  · exact lift_ne_new hnew hr
  · dsimp only at hr
    split at hr
    · rcases bind_eq_error.1 hr with hr | ⟨_, _, hr⟩
      · exact lift_ne_new hnew hr
      · cases hr
    · cases hr

/-! ## One entry -/

section Scan

variable {checkParent : ParentCheck}

/-- The scan has gone through the entries `es` of directory `i`, from `s₀` on. -/
structure Scanned (img : Image) (i : Nat) (s₀ : Pass) (es : List Dirent) (s : Scan) : Prop where
  countDots : s.countDots = es.countP Dirent.isDots
  rootExist : s.rootExist = true ↔
    i = ROOTINO ∧ ∃ e ∈ es, e.isDotDot = true ∧ e.inum = ROOTINO
  dirError : s.dirError = false
  recorded : Recorded img i es s₀ s.pass

theorem scanned_nil (i : Nat) (s : Pass) : Scanned img i s []
    { countDots := 0, rootExist := false, dirError := false, pass := s } :=
  ⟨rfl, by simp, rfl, Recorded.refl i s⟩

theorem checkEntry_ok_iff {i : Nat} {s : Pass} {e : Dirent} :
    (∃ printed, checkEntry checkParent i e s = .ok printed) ↔
      (checksParent i e → verdict (checkParent i e.inum s) = none) := by
  unfold checkEntry
  rw [verdict_eq_none]
  by_cases hc : checksParent i e <;> simp [hc]

/-- An entry is passed when its check is good and there is room to record it. -/
theorem scanEntry_ok_iff {i : Nat} {s : Scan} {e : Dirent}
    (hs : SameButLinks (inode img) s.pass.tables) :
    (∃ s', scanEntry checkParent (superblock img).ninodes i s e = .ok s') ↔
      (checksParent i e → verdict (checkParent i e.inum s.pass) = none) ∧
        HasRoom img i s.pass e := by
  unfold scanEntry
  constructor
  · rintro ⟨s', hrun⟩
    rw [bind_eq_ok] at hrun
    obtain ⟨printed, hp, hrun⟩ := hrun
    rw [bind_eq_ok] at hrun
    obtain ⟨pass, hpass, _⟩ := hrun
    have hs' : SameButLinks (inode img) (s.pass.print printed).tables := hs
    exact ⟨checkEntry_ok_iff.1 ⟨printed, hp⟩, ((record_ok_iff hs').1 hpass).1⟩
  · rintro ⟨hgood, hroom⟩
    obtain ⟨printed, hp⟩ := checkEntry_ok_iff.2 hgood
    have hs' : SameButLinks (inode img) (s.pass.print printed).tables := hs
    rw [hp, ok_bind, (record_ok_iff hs').2 ⟨hroom, rfl⟩]
    exact ⟨_, rfl⟩

theorem scanEntry_scanned {i : Nat} {s₀ : Pass} {es : List Dirent} {s s' : Scan} {e : Dirent}
    (hs : SameButLinks (inode img) s₀.tables) (h : Scanned img i s₀ es s)
    (hrun : scanEntry checkParent (superblock img).ninodes i s e = .ok s') :
    Scanned img i s₀ (es ++ [e]) s' := by
  unfold scanEntry at hrun
  simp only [bind_eq_ok, pure, Except.pure, Except.ok.injEq] at hrun
  obtain ⟨printed, _, pass, hpass, rfl⟩ := hrun
  have hs' : SameButLinks (inode img) (s.pass.print printed).tables := h.recorded.sameButLinks hs
  obtain ⟨_, rfl⟩ := (record_ok_iff hs').1 hpass
  refine ⟨?_, ?_, h.dirError, h.recorded.trans ⟨rfl, rfl, rfl⟩⟩
  · simp only [h.countDots, List.countP_append, List.countP_singleton]
    rfl
  · simp only [Bool.or_eq_true, h.rootExist, Bool.and_eq_true, decide_eq_true_eq, List.mem_append,
      List.mem_singleton, or_and_right, exists_or, exists_eq_left]
    rw [and_left_comm, ← and_or_left]

/-- Only the check of a `..` entry stops the scan with a new message. -/
theorem scanEntry_halt_iff {i n : Nat} {s : Scan} {e : Dirent} {h : Halt} (hnew : h.New) :
    scanEntry checkParent n i s e = .error h ↔
      checksParent i e ∧ verdict (checkParent i e.inum s.pass) = some h := by
  have hcheck : checkEntry checkParent i e s.pass = .error h ↔
      checksParent i e ∧ verdict (checkParent i e.inum s.pass) = some h := by
    unfold checkEntry
    rw [verdict_eq_some]
    by_cases hc : checksParent i e <;> simp [hc]
  rw [← hcheck]
  unfold scanEntry
  constructor
  · intro hr
    rcases bind_eq_error.1 hr with hr | ⟨_, _, hr⟩
    · exact hr
    · rcases bind_eq_error.1 hr with hr | ⟨_, _, hr⟩
      · exact absurd hr (record_ne_new hnew)
      · cases hr
  · intro hr
    rw [hr, error_bind]

/-! ## One directory -/

/-- In a directory whose `.` entry names it, the scan is the loop of its body over the entries. -/
theorem scanDir_eq_foldlM {d : Dinode} {i n : Nat} (ha : d.addr 0 < FSSIZE) :
    ∀ {l : List Nat} {s : Scan}, (∀ k ∈ l, k < 32 ∧ ¬ breaks i (entryAt img d k)) →
      scanDir checkParent img n i d (l.map (16 * ·)) s =
        (l.map (entryAt img d)).foldlM (scanEntry checkParent n i) s
  | [], _, _ => rfl
  | k :: l, s, hl => by
    rw [List.forall_mem_cons] at hl
    have hread : lift (readInodeData d img (16 * k)) = .ok (entryAt img d k) :=
      lift_eq_ok.2 (readInodeData_ok ha hl.1.1)
    have hbreak : ¬ ((entryAt img d k).isDot = true ∧ (entryAt img d k).inum ≠ i) := hl.1.2
    rw [List.map_cons, scanDir, hread, ok_bind, if_neg hbreak, List.map_cons, List.foldlM_cons]
    congr 1
    funext s'
    exact scanDir_eq_foldlM ha hl.2

/-- The entries name inodes of the table and not too many of them are sub-directories. -/
@[mk_iff]
structure Fits (img : Image) (i : Nat) (es : List Dirent) : Prop where
  inums : ∀ e ∈ es, e.inum < (superblock img).ninodes
  children : es.countP (isChild (inode img) i) ≤ MAX_CHILDS

instance (img : Image) (i : Nat) (es : List Dirent) : Decidable (Fits img i es) :=
  decidable_of_iff _ (fits_iff img i es).symm

theorem Fits.beforeParent {i : Nat} (h : Fits img i (entries img (inode img i))) :
    Fits img i (beforeParent img i) := by
  have hsub : Contest.beforeParent img i <+: entries img (inode img i) := List.takeWhile_prefix _
  exact ⟨fun e he => h.inums e (hsub.subset he), hsub.sublist.countP_le.trans h.children⟩

/-- Entries fit iff there is room for each of them after those before it. -/
theorem fits_iff_room {i : Nat} {es : List Dirent} :
    Fits img i es ↔ ∀ pre e post, es = pre ++ e :: post → e.inum < (superblock img).ninodes ∧
      (isChild (inode img) i e = true → (children img i pre).length < MAX_CHILDS) := by
  constructor
  · rintro ⟨hin, hch⟩ pre e post rfl
    refine ⟨hin e (by simp), fun hc => ?_⟩
    rw [length_children]
    simp only [List.countP_append, List.countP_cons, hc, if_true] at hch
    omega
  · intro h
    refine ⟨fun e he => ?_, ?_⟩
    · obtain ⟨pre, post, rfl⟩ := List.append_of_mem he
      exact (h pre e post rfl).1
    · induction es using List.reverseRecOn with
      | nil => simp
      | append_singleton es e ih =>
        have hes : es.countP (isChild (inode img) i) ≤ MAX_CHILDS :=
          ih fun pre e' post heq => h pre e' (post ++ [e]) (by simp [heq])
        have he := (h es e [] rfl).2
        rw [length_children] at he
        rw [List.countP_append, List.countP_singleton]
        split
        · rename_i hc
          exact he hc
        · exact hes

/-- `v` is the verdict on the `..` of directory `i`, whatever the state in which the scan gets there
from `s₀`. -/
def Judges (checkParent : ParentCheck) (img : Image) (i : Nat) (s₀ : Pass) (v : Option Halt) : Prop :=
  i ≠ ROOTINO → ∀ s, Recorded img i (beforeParent img i) s₀ s →
    verdict (checkParent i (parent img i) s) = v

variable {i : Nat} {s₀ : Pass} {v : Option Halt}

theorem checksParent_iff (hi : DirShape img i) (hroot : i = ROOTINO → parent img i = ROOTINO)
    {e : Dirent} (he : e ∈ entries img (inode img i)) :
    checksParent i e ↔ e.isDotDot = true ∧ i ≠ ROOTINO := by
  constructor
  · rintro ⟨hdd, hne⟩
    exact ⟨hdd, fun h => hne ⟨h, (parent_eq_of_mem hi he hdd).trans (hroot h)⟩⟩
  · rintro ⟨hdd, hne⟩
    exact ⟨hdd, fun h => hne h.1⟩

/-- The scan of `es`, the entries of directory `i` up to some point. -/
theorem scan_entries_ok_iff (hi : DirShape img i) (hroot : i = ROOTINO → parent img i = ROOTINO)
    (hs : SameButLinks (inode img) s₀.tables) (hmaps : s₀.maps i = [])
    (hv : Judges checkParent img i s₀ v) {es rest : List Dirent}
    (hes : entries img (inode img i) = es ++ rest) {s : Scan} (h : Scanned img i s₀ [] s) :
    (∃ s', es.foldlM (scanEntry checkParent (superblock img).ninodes i) s = .ok s') ↔
      Fits img i es ∧ ((∃ e ∈ es, e.isDotDot = true) → i ≠ ROOTINO → v = none) := by
  have hstep := foldlM_runs_iff (P := Scanned img i s₀) (l := es)
    (f := scanEntry checkParent (superblock img).ninodes i)
    (C := fun pre e => (e.isDotDot = true → i ≠ ROOTINO → v = none) ∧
      e.inum < (superblock img).ninodes ∧
        (isChild (inode img) i e = true → (children img i pre).length < MAX_CHILDS))
    (fun pre e post s heq hs₁ => by
      have hall : entries img (inode img i) = pre ++ e :: (post ++ rest) := by
        rw [hes, heq]
        simp
      have he : e ∈ entries img (inode img i) := by rw [hall]; simp
      rw [scanEntry_ok_iff (hs₁.recorded.sameButLinks hs), checksParent_iff hi hroot he, HasRoom,
        hs₁.recorded.maps, Function.update_self, hmaps, List.nil_append, and_imp]
      refine and_congr_left fun _ => forall_congr' fun hdd => forall_congr' fun hne => ?_
      -- the only `..` of the directory: its verdict does not depend on the state
      have hrec := hs₁.recorded
      rw [← beforeParent_eq hi hall hdd] at hrec
      rw [parent_eq_of_mem hi he hdd, hv hne _ hrec])
    (fun _ _ _ _ _ _ hs₁ hrun => scanEntry_scanned hs hs₁ hrun) h
  rw [hstep, fits_iff_room]
  constructor
  · intro hall
    refine ⟨fun pre e post heq => (hall pre e post heq).2, ?_⟩
    rintro ⟨e, he, hdd⟩
    obtain ⟨pre, post, heq⟩ := List.append_of_mem he
    exact (hall pre e post heq).1 hdd
  · rintro ⟨hfits, hgood⟩ pre e post heq
    exact ⟨fun hdd => hgood ⟨e, by rw [heq]; simp, hdd⟩, hfits pre e post heq⟩

theorem scan_entries_scanned (hs : SameButLinks (inode img) s₀.tables) {es : List Dirent}
    {s s' : Scan} (h : Scanned img i s₀ [] s)
    (hrun : es.foldlM (scanEntry checkParent (superblock img).ninodes i) s = .ok s') :
    Scanned img i s₀ es s' :=
  foldlM_ok_invariant (fun _ _ _ _ _ _ hs₁ hrun => scanEntry_scanned hs hs₁ hrun) h hrun

/-- The scan of directory `i` as `checkDir` begins it. -/
theorem scanDir_start (hi : DirShape img i) (n : Nat) :
    scanDir checkParent img n i (inode img i) (offsets (inode img i).size)
        { countDots := 0, rootExist := false, dirError := false, pass := s₀ } =
      (entries img (inode img i)).foldlM (scanEntry checkParent n i)
        { countDots := 0, rootExist := false, dirError := false, pass := s₀ } := by
  have hlen := entryCount_le.2 hi.size
  refine scanDir_eq_foldlM hi.block fun k hk => ?_
  have hk' : k < entryCount (inode img i) := List.mem_range.1 hk
  exact ⟨by omega, fun hb => hb.2 (hi.self _ (mem_entries.2 ⟨k, hk', rfl⟩) hb.1)⟩

/-- After the whole directory the two final tests are passed. -/
theorem scanned_final (hi : DirShape img i) (hroot : i = ROOTINO → parent img i = ROOTINO) {s : Scan}
    (h : Scanned img i s₀ (entries img (inode img i)) s) :
    ¬ (i = ROOTINO ∧ s.rootExist = false) ∧ ¬ (s.dirError = true ∨ s.countDots ≠ 2) := by
  obtain ⟨dd, post, hsplit⟩ := hi.split
  constructor
  · rintro ⟨hi₁, hno⟩
    have hmem : dd ∈ entries img (inode img i) := by rw [hsplit.eq]; simp
    have hyes := h.rootExist.2 ⟨hi₁, dd, hmem, hsplit.isDotDot, hsplit.inum.trans (hroot hi₁)⟩
    rw [hno] at hyes
    cases hyes
  · rintro (herr | hcount)
    · rw [h.dirError] at herr
      cases herr
    · rw [h.countDots, countP_isDots, hi.dot, hi.dotDot] at hcount
      exact hcount rfl

/-- **One directory** is passed iff its entries fit and the verdict on its `..` is good. -/
theorem checkDir_ok_iff (hi : DirShape img i) (hroot : i = ROOTINO → parent img i = ROOTINO)
    (hs : SameButLinks (inode img) s₀.tables) (hmaps : s₀.maps i = [])
    (hv : Judges checkParent img i s₀ v) :
    (∃ s, checkDir checkParent img (superblock img).ninodes i (inode img i) s₀ = .ok s) ↔
      Fits img i (entries img (inode img i)) ∧ (i ≠ ROOTINO → v = none) := by
  have hdd : ∃ e ∈ entries img (inode img i), e.isDotDot = true := by
    obtain ⟨dd, post, hsplit⟩ := hi.split
    exact ⟨dd, by rw [hsplit.eq]; simp, hsplit.isDotDot⟩
  have hscan := scan_entries_ok_iff hi hroot hs hmaps hv (List.append_nil _).symm (scanned_nil i s₀)
  unfold checkDir
  rw [scanDir_start hi]
  simp only [hdd, true_implies] at hscan
  rw [← hscan]
  constructor
  · rintro ⟨s, hrun⟩
    rw [bind_eq_ok] at hrun
    obtain ⟨s', hs', _⟩ := hrun
    exact ⟨s', hs'⟩
  · rintro ⟨s', hs'⟩
    obtain ⟨hexist, hformat⟩ := scanned_final hi hroot (scan_entries_scanned hs (scanned_nil i s₀) hs')
    rw [hs', ok_bind, rejectIf_eq_ok (u := ()).2 hexist, rejectIf_eq_ok (u := ()).2 hformat]
    exact ⟨_, rfl⟩

theorem checkDir_recorded (hi : DirShape img i) (hs : SameButLinks (inode img) s₀.tables)
    {s : Pass} (hrun : checkDir checkParent img (superblock img).ninodes i (inode img i) s₀ = .ok s) :
    Recorded img i (entries img (inode img i)) s₀ s := by
  unfold checkDir at hrun
  rw [scanDir_start hi, bind_eq_ok] at hrun
  obtain ⟨s', hs', hrun⟩ := hrun
  have hrec := (scan_entries_scanned hs (scanned_nil i s₀) hs').recorded
  simp only [bind_eq_ok] at hrun
  obtain ⟨_, _, _, _, hrun⟩ := hrun
  cases hrun
  exact hrec

/-- **One directory** ends the program with a new message iff the entries in front of its `..` fit and
the verdict is that message. -/
theorem checkDir_halt_iff (hi : DirShape img i) (hroot : i = ROOTINO → parent img i = ROOTINO)
    (hs : SameButLinks (inode img) s₀.tables) (hmaps : s₀.maps i = [])
    (hv : Judges checkParent img i s₀ v) {h : Halt} (hnew : h.New) :
    checkDir checkParent img (superblock img).ninodes i (inode img i) s₀ = .error h ↔
      i ≠ ROOTINO ∧ Fits img i (beforeParent img i) ∧ v = some h := by
  obtain ⟨dd, post, hsplit⟩ := hi.split
  have hmem : dd ∈ entries img (inode img i) := by rw [hsplit.eq]; simp
  have hnone : ¬ ∃ e ∈ beforeParent img i, e.isDotDot = true := by
    rintro ⟨e, he, hdd⟩
    rw [hsplit.before e he] at hdd
    cases hdd
  have hbefore := scan_entries_ok_iff hi hroot hs hmaps hv hsplit.eq (scanned_nil i s₀)
  simp only [hnone, false_implies, and_true] at hbefore
  have hfinal : checkDir checkParent img (superblock img).ninodes i (inode img i) s₀ = .error h ↔
      (entries img (inode img i)).foldlM (scanEntry checkParent (superblock img).ninodes i)
        { countDots := 0, rootExist := false, dirError := false, pass := s₀ } = .error h := by
    unfold checkDir
    rw [scanDir_start hi]
    constructor
    · intro hr
      rcases bind_eq_error.1 hr with hr | ⟨_, _, hr⟩
      · exact hr
      · rcases bind_eq_error.1 hr with hr | ⟨_, _, hr⟩
        · exact absurd hr (lift_ne_new hnew)
        · rcases bind_eq_error.1 hr with hr | ⟨_, _, hr⟩
          · exact absurd hr (lift_ne_new hnew)
          · cases hr
    · intro hr
      rw [hr, error_bind]
  rw [hfinal, foldlM_eq_error_iff]
  constructor
  · rintro ⟨pre, e, rest, s, heq, hpre, he⟩
    rw [scanEntry_halt_iff hnew, checksParent_iff hi hroot (by rw [heq]; simp)] at he
    obtain ⟨⟨hdd, hne⟩, hverdict⟩ := he
    have hbp := beforeParent_eq hi heq hdd
    have hrec := (scan_entries_scanned hs (scanned_nil i s₀) hpre).recorded
    rw [← hbp] at hpre hrec
    rw [parent_eq_of_mem hi (by rw [heq]; simp) hdd, hv hne _ hrec] at hverdict
    exact ⟨hne, hbefore.1 ⟨s, hpre⟩, hverdict⟩
  · rintro ⟨hne, hfits, hverdict⟩
    obtain ⟨s, hpre⟩ := hbefore.2 hfits
    have hrec := (scan_entries_scanned hs (scanned_nil i s₀) hpre).recorded
    refine ⟨_, dd, post, s, hsplit.eq, hpre, ?_⟩
    rw [scanEntry_halt_iff hnew, checksParent_iff hi hroot hmem, hsplit.inum, hv hne _ hrec]
    exact ⟨⟨hsplit.isDotDot, hne⟩, hverdict⟩

end Scan

/-! ## One inode -/

/-- The tables and child maps after the inodes of `l`. -/
structure Arrays (img : Image) (l : List Nat) (s : Pass) : Prop where
  tables : s.tables = (stateAfter img l).tables
  maps : ∀ j, s.maps j = if j ∈ l then childrenOf img j else []

/-- All that the loop has built after the inodes of `l`. -/
structure Visited (img : Image) (l : List Nat) (s : Pass) : Prop extends Arrays img l s where
  bmapMark : s.bmapMark = (stateAfter img l).bmapMark

theorem Arrays.sameButLinks {l : List Nat} {s : Pass} (h : Arrays img l s) :
    SameButLinks (inode img) s.tables := by
  rw [h.tables]
  exact sameButLinks_stateAfter img l

/-- Marking addresses leaves these arrays. -/
theorem Arrays.marked {l : List Nat} {s : Pass} (h : Arrays img l s) (mark : Nat → Nat) :
    Arrays img l { s with bmapMark := mark } := ⟨h.tables, h.maps⟩

theorem visited_initPass (img : Image) : Visited img [] (initPass img) :=
  ⟨⟨rfl, fun _ => rfl⟩, rfl⟩

theorem markAddresses_relink (d : Dinode) (k : Int) (mark : Nat → Nat) :
    markAddresses img (d.relink k) mark = markAddresses img d mark := by
  have haddr : (d.relink k).addr = d.addr := funext (relink_addr d k)
  unfold markAddresses checkAddresses
  rw [haddr, relink_type]

section Turn

variable {checkParent : ParentCheck} {l : List Nat} {i : Nat} {s : Pass}

theorem checkInode_of_not_dir (h : Arrays img l s) (hd : (inode img i).type ≠ T_DIR) :
    checkInode checkParent img s i = (do
      lift (checkInodeType (inode img i).type)
      let mark ← markAddresses img (inode img i) s.bmapMark
      return { s with bmapMark := mark }) := by
  obtain ⟨k, hk⟩ := h.sameButLinks i
  unfold checkInode
  simp only [hk, relink_type, markAddresses_relink, if_neg hd]

/-- A directory inode is as it was in the image when its turn comes. -/
theorem checkInode_of_dir (h : Arrays img l s) (hd : (inode img i).type = T_DIR) :
    checkInode checkParent img s i = (do
      let mark ← markAddresses img (inode img i) s.bmapMark
      checkDir checkParent img (superblock img).ninodes i (inode img i)
        { s with bmapMark := mark }) := by
  have hself : s.tables.inodes i = inode img i := by
    rw [h.tables, stateAfter, Contest3.referAll_inodes_of_kept (sameButLinks_initState img)
      fun hf => absurd hf (type_ne_file_of_dir hd)]
    rfl
  have htype : checkInodeType (inode img i).type = .ok () :=
    checkInodeType_eq_ok.2 (Or.inr (Or.inl hd))
  unfold checkInode
  simp only [hself, if_pos hd]
  rw [htype, lift_ok, ok_bind]

end Turn

/-! ## The inode loop -/

/-- What is asked of the directories: their shape, and that the root is its own parent. -/
@[mk_iff]
structure Tree (img : Image) : Prop where
  shape : ∀ i, IsDir img i → DirShape img i
  root : parent img ROOTINO = ROOTINO

instance (img : Image) : Decidable (Tree img) := decidable_of_iff _ (tree_iff img).symm

theorem Tree.root_of_eq {i : Nat} (h : Tree img) (hi : i = ROOTINO) : parent img i = ROOTINO := by
  rw [hi]
  exact h.root

section Loop

variable {checkParent : ParentCheck} {v : Nat → Option Halt}

/-- In every directory the check has the verdict `v`. -/
def JudgesAll (checkParent : ParentCheck) (img : Image) (v : Nat → Option Halt) : Prop :=
  ∀ i, IsDir img i → ∀ s, Arrays img (inums i) s → Judges checkParent img i s (v i)

theorem not_mem_inums_self (i : Nat) : i ∉ inums i := fun h => Nat.lt_irrefl i (mem_inums.1 h).2

variable {i : Nat} {s s' : Pass}

theorem markAddresses_ok_iff {mark : Nat → Nat} (hs : Visited img (inums i) s) :
    markAddresses img (inode img i) s.bmapMark = .ok mark ↔
      Passes (dataStart (superblock img)) (bmap img) (stateAfter img (inums i)).bmapMark
        (visitsOf img i) ∧
        mark = insertAll (stateAfter img (inums i)).bmapMark (nz (visitsOf img i)) := by
  rw [hs.bmapMark, markAddresses, visitsOf]
  split
  · rw [lift_eq_ok, checkAddresses_ok_iff]
  · simp only [Except.ok.injEq, Passes.nil, true_and]
    exact eq_comm

/-- **One turn** of the loop is passed iff the type, the addresses and the directory are. -/
theorem checkInode_ok_iff (ht : Tree img) (hv : JudgesAll checkParent img v)
    (h₁ : ROOTINO ≤ i) (h₂ : i < (superblock img).ninodes) (hs : Visited img (inums i) s) :
    (∃ s', checkInode checkParent img s i = .ok s') ↔
      TypeOk (inode img i).type ∧
      Passes (dataStart (superblock img)) (bmap img) (stateAfter img (inums i)).bmapMark
        (visitsOf img i) ∧
      (IsDir img i → Fits img i (entries img (inode img i)) ∧ (i ≠ ROOTINO → v i = none)) := by
  by_cases hd : (inode img i).type = T_DIR
  · have hi : IsDir img i := ⟨h₁, h₂, hd⟩
    have htype : TypeOk (inode img i).type := Or.inr (Or.inl hd)
    have hmaps : s.maps i = [] := by rw [hs.maps, if_neg (not_mem_inums_self i)]
    have hdir : ∀ mark, (∃ s', checkDir checkParent img (superblock img).ninodes i (inode img i)
        { s with bmapMark := mark } = .ok s') ↔ _ := fun mark =>
      checkDir_ok_iff (ht.shape i hi) ht.root_of_eq (hs.toArrays.marked mark).sameButLinks hmaps
        (hv i hi _ (hs.toArrays.marked mark))
    rw [checkInode_of_dir hs.toArrays hd]
    simp only [htype, hi, true_and, true_implies]
    constructor
    · rintro ⟨s', hrun⟩
      rw [bind_eq_ok] at hrun
      obtain ⟨mark, hmark, hrun⟩ := hrun
      exact ⟨((markAddresses_ok_iff hs).1 hmark).1, (hdir mark).1 ⟨s', hrun⟩⟩
    · rintro ⟨hpass, hfits⟩
      obtain ⟨s', hrun⟩ := (hdir _).2 hfits
      exact ⟨s', bind_eq_ok.2 ⟨_, (markAddresses_ok_iff hs).2 ⟨hpass, rfl⟩, hrun⟩⟩
  · have hi : ¬ IsDir img i := fun h => hd h.2.2
    rw [checkInode_of_not_dir hs.toArrays hd]
    simp only [hi, false_implies, and_true]
    constructor
    · rintro ⟨s', hrun⟩
      rw [bind_eq_ok] at hrun
      obtain ⟨_, htype, hrun⟩ := hrun
      rw [bind_eq_ok] at hrun
      obtain ⟨mark, hmark, _⟩ := hrun
      exact ⟨checkInodeType_eq_ok.1 (lift_eq_ok.1 htype), ((markAddresses_ok_iff hs).1 hmark).1⟩
    · rintro ⟨htype, hpass⟩
      rw [checkInodeType_eq_ok (u := ()).2 htype, lift_ok, ok_bind,
        (markAddresses_ok_iff hs).2 ⟨hpass, rfl⟩, ok_bind]
      exact ⟨_, rfl⟩

/-- The entries of inode `i` recorded in the arrays. -/
theorem Arrays.snoc (hs : Arrays img (inums i) s)
    (htables : s'.tables = referAll s.tables (refsOf img i))
    (hmaps : s'.maps = Function.update s.maps i (childrenOf img i)) :
    Arrays img (inums i ++ [i]) s' := by
  refine ⟨?_, fun j => ?_⟩
  · rw [htables, hs.tables, stateAfter_snoc]
  · by_cases hj : j = i
    · simp [hmaps, hj]
    · rw [hmaps, Function.update_of_ne hj, hs.maps]
      simp [hj]

theorem checkInode_visited (ht : Tree img) (h₁ : ROOTINO ≤ i) (h₂ : i < (superblock img).ninodes)
    (hs : Visited img (inums i) s) (hrun : checkInode checkParent img s i = .ok s') :
    Visited img (inums i ++ [i]) s' := by
  have hmaps : s.maps i = [] := by rw [hs.maps, if_neg (not_mem_inums_self i)]
  by_cases hd : (inode img i).type = T_DIR
  · rw [checkInode_of_dir hs.toArrays hd, bind_eq_ok] at hrun
    obtain ⟨mark, hmark, hrun⟩ := hrun
    have hrec := checkDir_recorded (ht.shape i ⟨h₁, h₂, hd⟩)
      (hs.toArrays.marked mark).sameButLinks hrun
    refine ⟨hs.toArrays.snoc ?_ ?_, ?_⟩
    · rw [hrec.tables, refsOf, if_pos hd]
    · rw [hrec.maps, childrenOf, if_pos hd, hmaps, List.nil_append]
    · rw [hrec.bmapMark, ((markAddresses_ok_iff hs).1 hmark).2, stateAfter_snoc]
  · rw [checkInode_of_not_dir hs.toArrays hd, bind_eq_ok] at hrun
    obtain ⟨_, _, hrun⟩ := hrun
    rw [bind_eq_ok] at hrun
    obtain ⟨mark, hmark, hrun⟩ := hrun
    cases hrun
    refine ⟨hs.toArrays.snoc ?_ ?_, ?_⟩
    · rw [refsOf, if_neg hd]
      rfl
    · rw [childrenOf, if_neg hd, ← hmaps, Function.update_eq_self]
    · rw [((markAddresses_ok_iff hs).1 hmark).2, stateAfter_snoc]

/-- **One turn** ends the program with a new message iff the scan of a directory does. -/
theorem checkInode_halt_iff (ht : Tree img) (hv : JudgesAll checkParent img v)
    (h₁ : ROOTINO ≤ i) (h₂ : i < (superblock img).ninodes) (hs : Visited img (inums i) s) {h : Halt}
    (hnew : h.New) :
    checkInode checkParent img s i = .error h ↔
      IsDir img i ∧ i ≠ ROOTINO ∧
      Passes (dataStart (superblock img)) (bmap img) (stateAfter img (inums i)).bmapMark
        (visitsOf img i) ∧ Fits img i (beforeParent img i) ∧ v i = some h := by
  have hmark_new : ∀ mark, markAddresses img (inode img i) mark ≠ .error h := by
    intro mark hm
    unfold markAddresses at hm
    split at hm
    · exact lift_ne_new hnew hm
    · cases hm
  by_cases hd : (inode img i).type = T_DIR
  · have hi : IsDir img i := ⟨h₁, h₂, hd⟩
    have hmaps : s.maps i = [] := by rw [hs.maps, if_neg (not_mem_inums_self i)]
    have hdir : ∀ mark, checkDir checkParent img (superblock img).ninodes i (inode img i)
        { s with bmapMark := mark } = .error h ↔ _ := fun mark =>
      checkDir_halt_iff (ht.shape i hi) ht.root_of_eq (hs.toArrays.marked mark).sameButLinks hmaps
        (hv i hi _ (hs.toArrays.marked mark)) hnew
    rw [checkInode_of_dir hs.toArrays hd]
    simp only [hi, true_and]
    constructor
    · intro hrun
      rcases bind_eq_error.1 hrun with hrun | ⟨mark, hmark, hrun⟩
      · exact absurd hrun (hmark_new _)
      · obtain ⟨hne, hfits, hverdict⟩ := (hdir mark).1 hrun
        exact ⟨hne, ((markAddresses_ok_iff hs).1 hmark).1, hfits, hverdict⟩
    · rintro ⟨hne, hpass, hfits, hverdict⟩
      rw [(markAddresses_ok_iff hs).2 ⟨hpass, rfl⟩, ok_bind]
      exact (hdir _).2 ⟨hne, hfits, hverdict⟩
  · have hi : ¬ IsDir img i := fun h => hd h.2.2
    rw [checkInode_of_not_dir hs.toArrays hd]
    simp only [hi, false_and, iff_false]
    intro hrun
    rcases bind_eq_error.1 hrun with hrun | ⟨_, _, hrun⟩
    · exact lift_ne_new hnew hrun
    · rcases bind_eq_error.1 hrun with hrun | ⟨_, _, hrun⟩
      · exact hmark_new _ hrun
      · cases hrun

/-- The checks of `xcheck.c` pass for the inodes below `k`, and there is room for their entries. -/
@[mk_iff]
structure Through (img : Image) (k : Nat) : Prop where
  types : ∀ i ∈ inums k, TypeOk (inode img i).type
  blocks : Passes (dataStart (superblock img)) (bmap img) (fun _ => 0)
    ((inums k).flatMap (visitsOf img))
  fits : ∀ i ∈ inums k, (inode img i).type = T_DIR → Fits img i (entries img (inode img i))

instance (img : Image) (k : Nat) : Decidable (Through img k) :=
  decidable_of_iff _ (through_iff img k).symm

theorem blocks_succ {k : Nat} (hk : ROOTINO ≤ k) :
    Passes (dataStart (superblock img)) (bmap img) (fun _ => 0)
        ((inums (k + 1)).flatMap (visitsOf img)) ↔
      Passes (dataStart (superblock img)) (bmap img) (fun _ => 0)
        ((inums k).flatMap (visitsOf img)) ∧
      Passes (dataStart (superblock img)) (bmap img) (stateAfter img (inums k)).bmapMark
        (visitsOf img k) := by
  rw [inums_succ hk, List.flatMap_append, List.flatMap_singleton, passes_append]
  rfl

/-- The addresses pass iff those of every inode do, after the inodes before it. -/
theorem blocks_iff {k : Nat} :
    Passes (dataStart (superblock img)) (bmap img) (fun _ => 0) ((inums k).flatMap (visitsOf img)) ↔
      ∀ i ∈ inums k, Passes (dataStart (superblock img)) (bmap img)
        (stateAfter img (inums i)).bmapMark (visitsOf img i) := by
  induction k with
  | zero => exact iff_of_true Passes.nil (by simp [inums])
  | succ k ih =>
    by_cases h0 : ROOTINO ≤ k
    · rw [blocks_succ h0, ih, inums_succ h0, List.forall_mem_append, List.forall_mem_singleton]
    · have hk0 : k = 0 := by simpa using h0
      subst hk0
      exact iff_of_true Passes.nil (by simp [inums])

theorem inode_loop_visited (ht : Tree img) {k : Nat} (hk : k ≤ (superblock img).ninodes)
    (hrun : (inums k).foldlM (checkInode checkParent img) (initPass img) = .ok s) :
    Visited img (inums k) s := by
  refine foldlM_ok_invariant (P := Visited img) (fun pre i post s s' heq hs hstep => ?_)
    (visited_initPass img) hrun
  obtain ⟨rfl, h₁, h₂⟩ := inums_eq_append_cons heq
  exact checkInode_visited ht h₁ (by omega) hs hstep

theorem inums_mono {j k : Nat} (h : j ≤ k) : inums j <+: inums k := by
  induction k, h using Nat.le_induction with
  | base => exact List.prefix_refl _
  | succ k _ ih =>
    by_cases hk : ROOTINO ≤ k
    · rw [inums_succ hk]
      exact ih.trans (List.prefix_append _ _)
    · have hk0 : k = 0 := by simpa using hk
      subst hk0
      exact ih

theorem blocks_mono {j k : Nat} (hjk : j ≤ k)
    (h : Passes (dataStart (superblock img)) (bmap img) (fun _ => 0)
      ((inums k).flatMap (visitsOf img))) :
    Passes (dataStart (superblock img)) (bmap img) (fun _ => 0)
      ((inums j).flatMap (visitsOf img)) := by
  obtain ⟨rest, hrest⟩ := inums_mono hjk
  rw [← hrest, List.flatMap_append, passes_append] at h
  exact h.1

theorem Through.mono {j k : Nat} (hjk : j ≤ k) (h : Through img k) : Through img j := by
  have hsub := (inums_mono hjk).subset
  exact ⟨fun i hi => h.types i (hsub hi), blocks_mono hjk h.blocks, fun i hi => h.fits i (hsub hi)⟩

/-- **The inode loop** runs over the inodes below `k` iff the checks of `xcheck.c` pass and all
verdicts are good. -/
theorem inode_loop_ok_iff (ht : Tree img) (hv : JudgesAll checkParent img v) {k : Nat}
    (hk : k ≤ (superblock img).ninodes) :
    (∃ s, (inums k).foldlM (checkInode checkParent img) (initPass img) = .ok s) ↔
      Through img k ∧ ∀ i < k, IsDir img i → i ≠ ROOTINO → v i = none := by
  rw [foldlM_runs_iff_forall (P := Visited img) (C := fun i => TypeOk (inode img i).type ∧
    Passes (dataStart (superblock img)) (bmap img) (stateAfter img (inums i)).bmapMark
      (visitsOf img i) ∧
    (IsDir img i → Fits img i (entries img (inode img i)) ∧ (i ≠ ROOTINO → v i = none)))
    (fun pre i post s heq hs => ?_) (fun pre i post s s' heq hs hstep => ?_) (visited_initPass img),
    through_iff, blocks_iff]
  · constructor
    · intro h
      refine ⟨⟨fun i hi => (h i hi).1, fun i hi => (h i hi).2.1, fun i hi hd => ?_⟩, fun i hi hd hne => ?_⟩
      · obtain ⟨h₁, h₂⟩ := mem_inums.1 hi
        exact ((h i hi).2.2 ⟨h₁, by omega, hd⟩).1
      · exact ((h i (mem_inums.2 ⟨hd.1, hi⟩)).2.2 hd).2 hne
    · rintro ⟨⟨htypes, hpass, hfits⟩, hgood⟩ i hi
      exact ⟨htypes i hi, hpass i hi, fun hd => ⟨hfits i hi hd.2.2, hgood i (mem_inums.1 hi).2 hd⟩⟩
  · obtain ⟨rfl, h₁, h₂⟩ := inums_eq_append_cons heq
    exact checkInode_ok_iff ht hv h₁ (by omega) hs
  · obtain ⟨rfl, h₁, h₂⟩ := inums_eq_append_cons heq
    exact checkInode_visited ht h₁ (by omega) hs hstep

end Loop

/-! ## `main` -/

/-- The checks that precede it let `main` get to the `..` of directory `d`: what is copied from the
image is inside it, the inodes below `d` pass, and so do the addresses of `d` and its entries up to
`..`. -/
@[mk_iff]
structure Arrives (img : Image) (d : Nat) : Prop where
  table : blockOff (superblock img).inodestart + dinodeSize * (superblock img).ninodes ≤ IMG_SIZE
  bitmap : blockOff (superblock img).bmapstart + NBMAP ≤ IMG_SIZE
  before : Through img d
  blocks : Passes (dataStart (superblock img)) (bmap img) (fun _ => 0)
    ((inums (d + 1)).flatMap (visitsOf img))
  fits : Fits img d (beforeParent img d)

instance (img : Image) (d : Nat) : Decidable (Arrives img d) :=
  decidable_of_iff _ (arrives_iff img d).symm

/-- When all inodes pass, every directory is got to. -/
theorem Through.arrives
    (htable : blockOff (superblock img).inodestart + dinodeSize * (superblock img).ninodes ≤ IMG_SIZE)
    (hbitmap : blockOff (superblock img).bmapstart + NBMAP ≤ IMG_SIZE)
    (h : Through img (superblock img).ninodes) {d : Nat} (hd : IsDir img d) : Arrives img d := by
  exact ⟨htable, hbitmap, h.mono (Nat.le_of_lt hd.2.1), blocks_mono hd.2.1 h.blocks,
    (h.fits d (mem_inums.2 ⟨hd.1, hd.2.1⟩) hd.2.2).beforeParent⟩

section Main

variable {checkParent : ParentCheck} {v : Nat → Option Halt}

theorem scanInodes_ok_iff (ht : Tree img) (hv : JudgesAll checkParent img v) :
    (∃ s, scanInodes checkParent img = .ok s) ↔
      blockOff (superblock img).inodestart + dinodeSize * (superblock img).ninodes ≤ IMG_SIZE ∧
      blockOff (superblock img).bmapstart + NBMAP ≤ IMG_SIZE ∧
      Through img (superblock img).ninodes ∧ ∀ i, IsDir img i → i ≠ ROOTINO → v i = none := by
  have hloop := inode_loop_ok_iff ht hv (Nat.le_refl (superblock img).ninodes)
  have hall : (∀ i < (superblock img).ninodes, IsDir img i → i ≠ ROOTINO → v i = none) ↔
      ∀ i, IsDir img i → i ≠ ROOTINO → v i = none :=
    ⟨fun h i hi => h i hi.2.1 hi, fun h i _ => h i⟩
  rw [hall] at hloop
  unfold scanInodes
  rw [← hloop]
  simp only [bind_eq_ok, lift_eq_ok, memmove_eq_ok, exists_const]
  constructor
  · rintro ⟨s, h₁, h₂, hs⟩
    exact ⟨h₁, h₂, s, hs⟩
  · rintro ⟨h₁, h₂, s, hs⟩
    exact ⟨s, h₁, h₂, hs⟩

theorem scanInodes_halt_iff (ht : Tree img) (hv : JudgesAll checkParent img v) {h : Halt}
    (hnew : h.New) :
    scanInodes checkParent img = .error h ↔
      ∃ d, IsDir img d ∧ d ≠ ROOTINO ∧ Arrives img d ∧
        (∀ i < d, IsDir img i → i ≠ ROOTINO → v i = none) ∧ v d = some h := by
  have hcopy : scanInodes checkParent img = .error h ↔
      blockOff (superblock img).inodestart + dinodeSize * (superblock img).ninodes ≤ IMG_SIZE ∧
      blockOff (superblock img).bmapstart + NBMAP ≤ IMG_SIZE ∧
      (inums (superblock img).ninodes).foldlM (checkInode checkParent img) (initPass img) =
        .error h := by
    unfold scanInodes
    simp only [bind_eq_error, lift_ne_new hnew, lift_eq_ok, memmove_eq_ok, exists_const, false_or]
  rw [hcopy, foldlM_eq_error_iff]
  constructor
  · rintro ⟨h₁, h₂, pre, d, post, m, heq, hpre, hd⟩
    obtain ⟨rfl, hd₁, hd₂⟩ := inums_eq_append_cons heq
    have hvis := inode_loop_visited ht (Nat.le_of_lt hd₂) hpre
    obtain ⟨hthrough, hgood⟩ := (inode_loop_ok_iff ht hv (Nat.le_of_lt hd₂)).1 ⟨m, hpre⟩
    obtain ⟨hid, hne, hpass, hfits, hverdict⟩ :=
      (checkInode_halt_iff ht hv hd₁ hd₂ hvis hnew).1 hd
    exact ⟨d, hid, hne, ⟨h₁, h₂, hthrough, (blocks_succ hd₁).2 ⟨hthrough.blocks, hpass⟩, hfits⟩, hgood,
      hverdict⟩
  · rintro ⟨d, hid, hne, ⟨h₁, h₂, hthrough, hblocks, hfits⟩, hgood, hverdict⟩
    obtain ⟨post, heq⟩ := inums_append_cons hid.1 hid.2.1
    obtain ⟨m, hpre⟩ := (inode_loop_ok_iff ht hv (Nat.le_of_lt hid.2.1)).2 ⟨hthrough, hgood⟩
    have hvis := inode_loop_visited ht (Nat.le_of_lt hid.2.1) hpre
    refine ⟨h₁, h₂, inums d, d, post, m, heq, hpre, ?_⟩
    exact (checkInode_halt_iff ht hv hid.1 hid.2.1 hvis hnew).2
      ⟨hid, hne, ((blocks_succ hid.1).1 hblocks).2, hfits, hverdict⟩

/-- **The program** ends with a new message iff it gets to the `..` of a directory with that verdict
and the verdicts on the directories before it are good. -/
theorem main_halt_iff (ht : Tree img) (hv : JudgesAll checkParent img v) {h : Halt}
    (hnew : h.New) :
    main checkParent img = .error h ↔
      ∃ d, IsDir img d ∧ d ≠ ROOTINO ∧ Arrives img d ∧
        (∀ i < d, IsDir img i → i ≠ ROOTINO → v i = none) ∧ v d = some h := by
  rw [← scanInodes_halt_iff ht hv hnew]
  unfold main
  simp only [bind_eq_error, lift_ne_new hnew, or_false, and_false, exists_false]

end Main

end OstepHw.Fsck.Contest
