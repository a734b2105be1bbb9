import Mathlib.Order.Filter.Finite
import Mathlib.Order.Nat
import OstepHw.Lib.Climb
import OstepHw.Fsck.ContestPass

/-!
# The loop detection of contest 2

`trace_parent` is the climb of `Lib.Climb` along the `..` entries (`traceParent_eq`): it starts at the
parent of a directory, and looks for that directory before it goes further up when the `.` entry stands
before the `..` entry there.  It keeps no record of the directories it has passed.

`loop_detection_iff`: the program ends and reports an inaccessible directory exactly when there is one,
iff the first inaccessible directory, if any, lies on a cycle of `..` entries, has its `.` before its
`..`, and is got to before another check stops the run.
-/

set_option autoImplicit false

namespace OstepHw.Fsck.Contest2

open Contest Loop Climb
open Contest3 (Msg)

variable {img : Image}

/-! ## The images -/

/-- The directories have the expected shape, every `..` names a directory, and that of the root names
the root. -/
@[mk_iff]
structure Linked (img : Image) : Prop where
  tree : Tree img
  root : IsDir img ROOTINO
  parents : ∀ i, IsDir img i → IsDir img (parent img i)

instance (img : Image) : Decidable (Linked img) := decidable_of_iff _ (linked_iff img).symm

/-- The `.` entry of directory `d` stands before its `..` entry. -/
def dotFirst (img : Image) (d : Nat) : Bool := (beforeParent img d).any Dirent.isDot

/-! ## The climb -/

/-- The result of a climb as the program has it. -/
def ofOutcome : Outcome → Exec Unit
  | .home => .ok ()
  | .back => .error .inaccessible
  | .lost => .error .diverges

section Entries

variable {leaf : Nat} {trace : Nat → Exec Unit} {l : List Dirent}

/-- Entries other than `..` are passed when none is the `.` of `leaf`. -/
theorem trace_entries_pass (hdd : ∀ e ∈ l, e.isDotDot = false)
    (hdot : ∀ e ∈ l, e.isDot = true → e.inum ≠ leaf) :
    l.foldlM (fun _ e => traceEntry leaf trace e) () = .ok () := by
  rw [foldlM_all_ok_iff]
  intro e he
  rw [traceEntry, if_neg fun h => hdot e he h.1 h.2, if_neg fun h => by simp [hdd e he] at h]

/-- Entries other than `..` end the program when the `.` of `leaf` is among them. -/
theorem trace_entries_found (hdd : ∀ e ∈ l, e.isDotDot = false)
    (hself : ∀ e ∈ l, e.isDot = true → e.inum = leaf) (hdot : ∃ e ∈ l, e.isDot = true) :
    l.foldlM (fun _ e => traceEntry leaf trace e) () = .error .inaccessible := by
  induction l with
  | nil => simp at hdot
  | cons e l ih =>
    rw [List.forall_mem_cons] at hdd hself
    rw [List.foldlM_cons, traceEntry]
    by_cases he : e.isDot = true
    · rw [if_pos ⟨he, hself.1 he⟩, error_bind]
    · rw [if_neg fun h => he h.1, if_neg fun h => by simp [hdd.1] at h, ok_bind]
      refine ih hdd.2 hself.2 ?_
      obtain ⟨e', he', hdot'⟩ := hdot
      rcases List.mem_cons.1 he' with rfl | he'
      · exact absurd hdot' he
      · exact ⟨e', he', hdot'⟩

end Entries

section Trace

variable {t : Tables} {leaf fuel p : Nat}

/-- One level of the climb goes through the entries of directory `p`. -/
theorem traceParent_succ (ht : SameButLinks (inode img) t) (hp : IsDir img p)
    (hshape : DirShape img p) :
    traceParent img t.inodes (superblock img).ninodes leaf (fuel + 1) p =
      (entries img (inode img p)).foldlM (fun _ e => traceEntry leaf
        (traceParent img t.inodes (superblock img).ninodes leaf fuel) e) () := by
  obtain ⟨k, hk⟩ := ht p
  have hidx : lift (index p (superblock img).ninodes) = .ok () :=
    lift_eq_ok.2 (index_eq_ok.2 hp.2.1)
  have hlen := entryCount_le.2 hshape.size
  have hoff : offsets ((inode img p).relink k).size =
      (List.range (entryCount (inode img p))).map (16 * ·) := rfl
  rw [traceParent, hidx, ok_bind]
  simp only [hk, hoff]
  rw [List.foldlM_map, entries, List.foldlM_map]
  refine foldlM_congr (fun _ m hm => ?_) ()
  have hm' := List.mem_range.1 hm
  rw [readInodeData_relink, readInodeData_ok hshape.block (by omega), lift_ok, ok_bind]

variable {trace : Nat → Exec Unit}

/-- At the `..` entry a level goes on with the parent. -/
theorem traceEntry_dotDot {dd : Dirent} {post : List Dirent} (hs : Split img p dd post) :
    traceEntry leaf trace dd =
      if parent img p = ROOTINO then .ok () else trace (parent img p) := by
  have hdot : dd.isDot = false := by
    cases h : dd.isDot with
    | false => rfl
    | true =>
      have hdd := Dirent.not_isDotDot_of_isDot h
      rw [hs.isDotDot] at hdd
      cases hdd
  rw [traceEntry, if_neg fun h => by simp [hdot] at h, hs.inum]
  by_cases hr : parent img p = ROOTINO
  · rw [if_neg fun h => h.2 hr, if_pos hr]
  · rw [if_pos ⟨hs.isDotDot, hr⟩, if_neg hr]

/-- Away from `leaf` a level only goes on with the parent. -/
theorem trace_level_of_ne (hshape : DirShape img p) (hne : p ≠ leaf) :
    (entries img (inode img p)).foldlM (fun _ e => traceEntry leaf trace e) () =
      if parent img p = ROOTINO then .ok () else trace (parent img p) := by
  obtain ⟨dd, post, hs⟩ := hshape.split
  have hdot : ∀ e ∈ entries img (inode img p), e.isDot = true → e.inum ≠ leaf := fun e he h => by
    rw [hshape.self e he h]
    exact hne
  rw [hs.eq] at hdot ⊢
  have hpost : post.foldlM (fun _ e => traceEntry leaf trace e) () = .ok () :=
    trace_entries_pass hs.after fun e he => hdot e (by simp [he])
  rw [List.foldlM_append, trace_entries_pass hs.before fun e he => hdot e (by simp [he]), ok_bind,
    List.foldlM_cons, traceEntry_dotDot hs]
  split
  · exact hpost
  · cases trace (parent img p) with
    | error e => rfl
    | ok u => exact hpost

/-- At `leaf` a level finds the `.` entry, at once or when it comes back from the parent. -/
theorem trace_level_leaf (hshape : DirShape img p) :
    (entries img (inode img p)).foldlM (fun _ e => traceEntry p trace e) () =
      if dotFirst img p = true then .error .inaccessible
      else (if parent img p = ROOTINO then .ok () else trace (parent img p)) >>=
        fun _ => .error .inaccessible := by
  obtain ⟨dd, post, hs⟩ := hshape.split
  have hself := hshape.self
  have hone : ∃ e ∈ entries img (inode img p), e.isDot = true :=
    List.countP_pos_iff.1 (by rw [hshape.dot]; decide)
  rw [hs.eq] at hself hone ⊢
  rw [List.foldlM_append]
  by_cases hfirst : dotFirst img p = true
  · have hdot : ∃ e ∈ beforeParent img p, e.isDot = true := by simpa [dotFirst] using hfirst
    rw [if_pos hfirst, trace_entries_found hs.before (fun e he => hself e (by simp [he])) hdot,
      error_bind]
  · have hnodot : ∀ e ∈ beforeParent img p, e.isDot = false := by simpa [dotFirst] using hfirst
    have hdot : ∃ e ∈ post, e.isDot = true := by
      obtain ⟨e, he, hd⟩ := hone
      rcases List.mem_append.1 he with he | he
      · rw [hnodot e he] at hd
        cases hd
      · rcases List.mem_cons.1 he with rfl | he
        · have hdd := Dirent.not_isDotDot_of_isDot hd
          rw [hs.isDotDot] at hdd
          cases hdd
        · exact ⟨e, he, hd⟩
    rw [if_neg hfirst, trace_entries_pass hs.before fun e he h => by simp [hnodot e he] at h, ok_bind,
      List.foldlM_cons, traceEntry_dotDot hs]
    congr 1
    funext u
    exact trace_entries_found hs.after (fun e he => hself e (by simp [he])) hdot

/-- **The recursion is the climb** along the `..` entries. -/
theorem traceParent_eq (h : Linked img) (ht : SameButLinks (inode img) t) :
    ∀ {fuel p : Nat}, IsDir img p →
      traceParent img t.inodes (superblock img).ninodes leaf fuel p =
        ofOutcome (climb (parent img) ROOTINO leaf (dotFirst img leaf) fuel p)
  | 0, _, _ => rfl
  | fuel + 1, p, hp => by
    have ih : traceParent img t.inodes (superblock img).ninodes leaf fuel (parent img p) = _ :=
      traceParent_eq h ht (h.parents p hp)
    rw [traceParent_succ ht hp (h.tree.shape p hp)]
    by_cases hne : p = leaf
    · subst hne
      rw [trace_level_leaf (h.tree.shape p hp), ih, climb]
      cases dotFirst img p with
      | true => simp only [and_self, if_true, ofOutcome]
      | false =>
        simp only [Bool.false_eq_true, and_false, if_false, if_true]
        by_cases hr : parent img p = ROOTINO
        · simp only [if_pos hr]
          rfl
        · simp only [if_neg hr]
          cases climb (parent img) ROOTINO p false fuel (parent img p) <;> rfl
    · rw [trace_level_of_ne (h.tree.shape p hp) hne, ih, climb_of_ne hne]
      split <;> rfl

end Trace

/-! ## The verdict -/

/-- The result of the climb that starts in directory `d`. -/
def search (img : Image) (fuel d : Nat) : Outcome :=
  climb (parent img) ROOTINO d (dotFirst img d) fuel (parent img d)

def outcome (img : Image) (fuel d : Nat) : Option Halt := verdict (ofOutcome (search img fuel d))

theorem judgesAll (h : Linked img) (fuel : Nat) :
    JudgesAll (checkParent img (superblock img).ninodes fuel) img (outcome img fuel) := by
  intro d hd s₀ h₀ _ s hs
  have hp := h.parents d hd
  have hidx : lift (index (parent img d) (superblock img).ninodes) = .ok () :=
    lift_eq_ok.2 (index_eq_ok.2 hp.2.1)
  have htrace : traceParent img s.tables.inodes (superblock img).ninodes d fuel (parent img d) = _ :=
    traceParent_eq h (hs.sameButLinks h₀.sameButLinks) hp
  unfold checkParent
  rw [hidx, ok_bind]
  simp only [htrace]
  rw [outcome, search]
  cases climb (parent img) ROOTINO d (dotFirst img d) fuel (parent img d) <;> rfl

theorem outcome_eq_none {fuel d : Nat} : outcome img fuel d = none ↔ search img fuel d = .home := by
  unfold outcome
  cases search img fuel d <;> simp [ofOutcome, verdict]

theorem outcome_eq_inaccessible {fuel d : Nat} :
    outcome img fuel d = some .inaccessible ↔ search img fuel d = .back := by
  unfold outcome
  cases search img fuel d <;> simp [ofOutcome, verdict]

theorem inaccessible_new : Halt.inaccessible.New := by
  intro s hs
  cases hs

theorem diverges_new : Halt.diverges.New := by
  intro s hs
  cases hs

/-! ## Inaccessible directories -/

/-- The chain of `..` entries from directory `d` never comes to the root. -/
def Inaccessible (img : Image) (d : Nat) : Prop :=
  IsDir img d ∧ ¬ Rooted (parent img) ROOTINO d

/-- The recursion of every climb that the program starts comes to its end. -/
def Terminates (img : Image) : Prop := ∃ fuel, main fuel img ≠ .error .diverges

/-- The program ends by reporting an inaccessible directory. -/
def Reported (img : Image) : Prop := ∃ fuel, main fuel img = .error .inaccessible

/-- The loop detection is right on the image. -/
def DetectsLoops (img : Image) : Prop :=
  Terminates img ∧ (Reported img ↔ ∃ d, Inaccessible img d)

/-- The climb that starts in directory `d` finds it, and the program gets to start it. -/
structure Found (img : Image) (d : Nat) : Prop where
  cycle : d ∈ Function.periodicPts (parent img)
  dotFirst : dotFirst img d = true
  arrives : Arrives img d

theorem Inaccessible.ne_root {d : Nat} (hd : Inaccessible img d) : d ≠ ROOTINO := by
  rintro rfl
  exact hd.2 ⟨0, rfl⟩

/-- Enough fuel leads home all the accessible directories below `k`. -/
theorem eventually_outcome_none (h : Linked img) {k : Nat}
    (hk : ∀ i < k, IsDir img i → Rooted (parent img) ROOTINO i) :
    ∀ᶠ fuel in Filter.atTop, ∀ i < k, IsDir img i → i ≠ ROOTINO → outcome img fuel i = none := by
  have hfin : ∀ᶠ fuel in Filter.atTop, ∀ i ∈ Finset.range k, IsDir img i → i ≠ ROOTINO →
      outcome img fuel i = none := by
    rw [Filter.eventually_all_finset]
    intro i hi
    by_cases hd : IsDir img i ∧ i ≠ ROOTINO
    · filter_upwards [eventually_home h.tree.root hd.2 (hk i (Finset.mem_range.1 hi) hd.1)]
        with fuel hfuel _ _
      exact outcome_eq_none.2 hfuel
    · exact Filter.Eventually.of_forall fun _ hid hne => absurd ⟨hid, hne⟩ hd
  simpa only [Finset.mem_range] using hfin

theorem rooted_of_outcome_none {fuel d : Nat} (h : outcome img fuel d = none) :
    Rooted (parent img) ROOTINO d := rooted_of_home (outcome_eq_none.1 h)

/-- The program reports a directory only if it is the first inaccessible one, and finds it. -/
theorem found_of_reported (h : Linked img) (hr : Reported img) :
    ∃ d, IsLeast {d | Inaccessible img d} d ∧ Found img d := by
  obtain ⟨fuel, hrun⟩ := hr
  obtain ⟨d, hd, hne, harr, hbefore, hv⟩ :=
    (main_halt_iff h.tree (judgesAll h fuel) inaccessible_new).1 hrun
  have hback := outcome_eq_inaccessible.1 hv
  have hcycle := periodic_of_back hback
  refine ⟨d, ⟨⟨hd, not_rooted_of_periodic h.tree.root hne hcycle⟩, fun i hi => ?_⟩, hcycle,
    early_of_back h.tree.root hne hback, harr⟩
  by_contra hlt
  exact hi.2 (rooted_of_outcome_none (hbefore i (by omega) hi.1 hi.ne_root))

/-- With enough fuel the program reports the first inaccessible directory, if it finds it. -/
theorem eventually_reported (h : Linked img) {d : Nat} (hleast : IsLeast {d | Inaccessible img d} d)
    (hfound : Found img d) : ∀ᶠ fuel in Filter.atTop, main fuel img = .error .inaccessible := by
  have hne := Inaccessible.ne_root hleast.1
  have hbefore : ∀ i < d, IsDir img i → Rooted (parent img) ROOTINO i := fun i hi hid => by
    by_contra hr
    exact absurd (hleast.2 ⟨hid, hr⟩) (by omega)
  filter_upwards [eventually_outcome_none h hbefore,
    eventually_back h.tree.root hne hfound.dotFirst hfound.cycle] with fuel hgood hback
  exact (main_halt_iff h.tree (judgesAll h fuel) inaccessible_new).2
    ⟨d, hleast.1.1, hne, hfound.arrives, hgood, outcome_eq_inaccessible.2 hback⟩

theorem reported_iff (h : Linked img) :
    Reported img ↔ ∃ d, IsLeast {d | Inaccessible img d} d ∧ Found img d := by
  constructor
  · exact found_of_reported h
  · rintro ⟨d, hleast, hfound⟩
    exact (eventually_reported h hleast hfound).exists

/-- The directory loop comes to its end iff the other checks pass and every directory is accessible. -/
theorem scanInodes_ends_iff (h : Linked img) :
    (∃ fuel s, scanInodes fuel img = .ok s) ↔
      blockOff (superblock img).inodestart + dinodeSize * (superblock img).ninodes ≤ IMG_SIZE ∧
      blockOff (superblock img).bmapstart + NBMAP ≤ IMG_SIZE ∧
      Through img (superblock img).ninodes ∧ ∀ d, ¬ Inaccessible img d := by
  have hends : ∀ fuel, (∃ s, scanInodes fuel img = .ok s) ↔ _ := fun fuel =>
    scanInodes_ok_iff h.tree (judgesAll h fuel)
  constructor
  · rintro ⟨fuel, hrun⟩
    obtain ⟨htable, hbitmap, hthrough, hgood⟩ := (hends fuel).1 hrun
    exact ⟨htable, hbitmap, hthrough, fun d hd =>
      hd.2 (rooted_of_outcome_none (hgood d hd.1 hd.ne_root))⟩
  · rintro ⟨htable, hbitmap, hthrough, hnone⟩
    have hall : ∀ i < (superblock img).ninodes, IsDir img i → Rooted (parent img) ROOTINO i :=
      fun i _ hi => by
        by_contra hr
        exact hnone i ⟨hi, hr⟩
    obtain ⟨fuel, hgood⟩ := (eventually_outcome_none h hall).exists
    exact ⟨fuel, (hends fuel).2 ⟨htable, hbitmap, hthrough, fun i hi => hgood i hi.2.1 hi⟩⟩

/-- Without inaccessible directories every climb comes to its end. -/
theorem eventually_not_diverges (h : Linked img) (hnone : ¬ ∃ d, Inaccessible img d) :
    ∀ᶠ fuel in Filter.atTop, main fuel img ≠ .error .diverges := by
  have hall : ∀ i < (superblock img).ninodes, IsDir img i → Rooted (parent img) ROOTINO i :=
    fun i _ hi => by
      by_contra hr
      exact hnone ⟨i, hi, hr⟩
  filter_upwards [eventually_outcome_none h hall] with fuel hgood hrun
  obtain ⟨d, hd, hne, _, _, hv⟩ := (main_halt_iff h.tree (judgesAll h fuel) diverges_new).1 hrun
  rw [hgood d hd.2.1 hd hne] at hv
  cases hv

/-- **Loop detection.** On an image whose directories are linked by their `..` entries, the program
ends and reports an inaccessible directory exactly when there is one, iff it finds the first one. -/
theorem loop_detection_iff (img : Image) (h : Linked img) :
    DetectsLoops img ↔ ∀ d, IsLeast {d | Inaccessible img d} d → Found img d := by
  classical
  constructor
  · rintro ⟨_, hreport⟩ d hleast
    obtain ⟨d', hleast', hfound⟩ := found_of_reported h (hreport.2 ⟨d, hleast.1⟩)
    rw [hleast.unique hleast']
    exact hfound
  · intro hfirst
    by_cases hex : ∃ d, Inaccessible img d
    · have hleast : IsLeast {d | Inaccessible img d} (Nat.find hex) := Nat.isLeast_find hex
      obtain ⟨fuel, hrun⟩ := (eventually_reported h hleast (hfirst _ hleast)).exists
      exact ⟨⟨fuel, by rw [hrun]; simp⟩, iff_of_true ⟨fuel, hrun⟩ hex⟩
    · refine ⟨(eventually_not_diverges h hex).exists, iff_of_false (fun hr => ?_) hex⟩
      obtain ⟨d, hleast, _⟩ := found_of_reported h hr
      exact hex ⟨d, hleast.1⟩

/-! ## Images -/

/-- Directories 2 and 3 name each other as parents. -/
def loopDirs : Image :=
  ofWords (mkfsWords ++
    [(16448, 1), (16452, 65536), (16456, 32), (16460, 59),
     (16512, 1), (16516, 65536), (16520, 32), (16524, 60),
     (16576, 1), (16580, 65536), (16584, 32), (16588, 61),
     (29696, 0xffffffff), (29700, 0x3fffffff),
     (30208, 0x002e0001), (30224, 0x2e2e0001),
     (30720, 0x002e0002), (30736, 0x2e2e0003),
     (31232, 0x002e0003), (31248, 0x2e2e0002)])

/-- Directories 3 and 4 name each other as parents, and directory 2 leads to them. -/
def leadsToLoop : Image :=
  ofWords (mkfsWords ++
    [(16448, 1), (16452, 65536), (16456, 32), (16460, 59),
     (16512, 1), (16516, 65536), (16520, 32), (16524, 60),
     (16576, 1), (16580, 65536), (16584, 32), (16588, 61),
     (16640, 1), (16644, 65536), (16648, 32), (16652, 62),
     (29696, 0xffffffff), (29700, 0x7fffffff),
     (30208, 0x002e0001), (30224, 0x2e2e0001),
     (30720, 0x002e0002), (30736, 0x2e2e0003),
     (31232, 0x002e0003), (31248, 0x2e2e0004),
     (31744, 0x002e0004), (31760, 0x2e2e0003)])

/-- What the verdicts on the two images need to know of them. -/
theorem loop_facts :
    (Linked loopDirs ∧ IsDir loopDirs 2 ∧ parent loopDirs 2 = 3 ∧ parent loopDirs 3 = 2 ∧
      dotFirst loopDirs 2 = true ∧ Arrives loopDirs 2) ∧
    (Linked leadsToLoop ∧ IsDir leadsToLoop 2 ∧ parent leadsToLoop 2 = 3 ∧
      parent leadsToLoop 3 = 4 ∧ parent leadsToLoop 4 = 3) := by
  decide +kernel

/-- If directory 2 is inaccessible, it is the first one. -/
theorem isLeast_two {img : Image} (h : Inaccessible img 2) : IsLeast {d | Inaccessible img d} 2 := by
  refine ⟨h, fun d hd => ?_⟩
  have h₁ := hd.1.1
  have h₂ := hd.ne_root
  simp only [ROOTINO] at h₁ h₂
  omega

/-- The loop is found in its first directory. -/
theorem loopDirs_found : IsLeast {d | Inaccessible loopDirs d} 2 ∧ Found loopDirs 2 := by
  obtain ⟨hl, hd, h₂, h₃, hfirst, harr⟩ := loop_facts.1
  have hcycle : 2 ∈ Function.periodicPts (parent loopDirs) :=
    ⟨2, by decide, by simp [Function.IsPeriodicPt, Function.IsFixedPt, h₂, h₃]⟩
  have hin : Inaccessible loopDirs 2 := ⟨hd, not_rooted_of_periodic hl.tree.root (by decide) hcycle⟩
  exact ⟨isLeast_two hin, hcycle, hfirst, harr⟩

theorem loopDirs_detected : DetectsLoops loopDirs := by
  refine (loop_detection_iff loopDirs loop_facts.1.1).2 fun d hleast => ?_
  rw [hleast.unique loopDirs_found.1]
  exact loopDirs_found.2

/-- The climb from directory 2 goes round the loop for ever. -/
theorem loop_detection_wrong : Linked leadsToLoop ∧ ¬ DetectsLoops leadsToLoop := by
  obtain ⟨hl, hd, h₂, h₃, h₄⟩ := loop_facts.2
  refine ⟨hl, fun hdet => ?_⟩
  have hmaps : Set.MapsTo (parent leadsToLoop) {3, 4} {3, 4} := by
    rintro p (rfl | rfl)
    · rw [h₃]; simp
    · rw [h₄]; simp
  have hchain : ∀ m, (parent leadsToLoop)^[m + 1] 2 ∈ ({3, 4} : Set Nat) := fun m => by
    rw [Function.iterate_succ_apply, h₂]
    exact hmaps.iterate m (by simp)
  have hin : Inaccessible leadsToLoop 2 := by
    refine ⟨hd, ?_⟩
    rintro ⟨m, hm⟩
    cases m with
    | zero => cases hm
    | succ m =>
      have := hchain m
      rw [hm] at this
      simp at this
  obtain ⟨d, hleast, hfound⟩ := found_of_reported hl (hdet.2.2 ⟨2, hin⟩)
  rw [hleast.unique (isLeast_two hin)] at hfound
  obtain ⟨n, hn, hper⟩ := hfound.cycle
  obtain ⟨m, rfl⟩ : ∃ m, n = m + 1 := ⟨n - 1, by omega⟩
  have := hchain m
  rw [hper] at this
  simp at this

end OstepHw.Fsck.Contest2
