import OstepHw.Lib.Loop
import OstepHw.Fsck.Xcheck

/-!
# What the address checks establish

The inode loop threads `bmap_mark` through three nested loops of `check_address` calls.  All of
them together are one pass over a list of addresses, and that pass succeeds exactly when every
non-zero address lies in the data area, is marked in the on-disk bitmap and has not been met
before (`Passes`).  The marks it leaves are the marks it started from with the non-zero
addresses added.

* `checkAddress_ok_iff` — one call;
* `check_list_ok_iff` — a list of calls;
* `checkAddresses_ok_iff` — the loop over one inode's thirteen slots and its indirect block;
* `checkAddresses_reports` — that loop never leaves the mapped image.
-/

set_option autoImplicit false

namespace OstepHw.Fsck

open Loop Bitmap

/-! ## Runs that stop only with a report -/

/-- A run that can stop only by reporting an error. -/
def Reports {α : Type} (x : Run α) : Prop := ∀ e, x = .error e → ∃ r, e = .report r

theorem Reports.ok {α : Type} (a : α) : Reports (.ok a : Run α) := by
  intro e h
  cases h

theorem Reports.rejectIf (p : Prop) [Decidable p] (r : Err) : Reports (rejectIf p r) := by
  intro e h
  unfold Fsck.rejectIf at h
  split at h
  · cases h; exact ⟨r, rfl⟩
  · cases h

theorem Reports.bind {α β : Type} {x : Run α} {f : α → Run β} (hx : Reports x)
    (hf : ∀ a, x = .ok a → Reports (f a)) : Reports (x >>= f) := by
  intro e h
  rcases bind_eq_error.1 h with h | ⟨a, ha, h⟩
  · exact hx e h
  · exact hf a ha e h

theorem Reports.foldlM {α σ : Type} {f : σ → α → Run σ} {l : List α}
    (hf : ∀ a ∈ l, ∀ s, Reports (f s a)) (s : σ) : Reports (l.foldlM f s) := by
  intro e h
  obtain ⟨pre, a, post, m, hl, _, ha⟩ := foldlM_eq_error_iff.1 h
  exact hf a (by rw [hl]; simp) m e ha

theorem rejectIf_eq_ok {p : Prop} [Decidable p] {r : Err} {u : Unit} :
    rejectIf p r = .ok u ↔ ¬ p := by
  unfold rejectIf
  split <;> simp_all

theorem index_eq_ok {i n : Nat} {u : Unit} : index i n = .ok u ↔ i < n := by
  unfold index
  split <;> simp_all

theorem memmove_eq_ok {n : Nat} {r : Region n} {start len : Nat} {u : Unit} :
    memmove r start len = .ok u ↔ start + len ≤ n := by
  unfold memmove
  split <;> simp_all

/-! ## One address -/

/-- The non-zero addresses of a list, the only ones that are looked at. -/
def nz (l : List Nat) : List Nat := l.filter (· ≠ 0)

theorem mem_nz {a : Nat} {l : List Nat} : a ∈ nz l ↔ a ∈ l ∧ a ≠ 0 := by
  simp [nz]

theorem nz_append (l₁ l₂ : List Nat) : nz (l₁ ++ l₂) = nz l₁ ++ nz l₂ := by
  simp [nz]

/-- `addr` is a data block that the on-disk bitmap marks. -/
def ValidAddr (ds : Nat) (bm : Nat → Nat) (addr : Nat) : Prop :=
  ds ≤ addr ∧ addr < FSSIZE ∧ Mem bm addr

instance (ds : Nat) (bm : Nat → Nat) (addr : Nat) : Decidable (ValidAddr ds bm addr) :=
  inferInstanceAs (Decidable (_ ∧ _ ∧ _))

theorem checkAddress_zero (direct : Bool) (ds : Nat) (bm mark : Nat → Nat) :
    checkAddress 0 direct ds bm mark = .ok mark := by
  simp [checkAddress, rejectIf, bind, Except.bind, pure, Except.pure]

/-- **One call of `check_address`**: it accepts a zero address without looking further, and
marks any other one that is valid and not yet marked. -/
theorem checkAddress_ok_iff {addr ds : Nat} {direct : Bool} {bm mark mark' : Nat → Nat} :
    checkAddress addr direct ds bm mark = .ok mark' ↔
      (addr ≠ 0 → ValidAddr ds bm addr ∧ ¬ Mem mark addr) ∧ mark' = insertAll mark (nz [addr]) := by
  by_cases h0 : addr = 0
  · subst h0
    rw [checkAddress_zero]
    simp [nz, insertAll, eq_comm]
  · have hnz : nz [addr] = [addr] := by simp [nz, h0]
    have hins : insertAll mark (nz [addr]) = Bitmap.insert mark addr := by rw [hnz]; rfl
    unfold checkAddress
    simp only [h0, if_false, bind_eq_ok, rejectIf_eq_ok, index_eq_ok, pure, Except.pure,
      Except.ok.injEq]
    rw [hins]
    constructor
    · rintro ⟨_, hr, _, _, _, hb, _, hm, rfl⟩
      refine ⟨fun _ => ⟨⟨?_, ?_, land_shift_ne_zero.1 hb⟩, land_shift_eq_zero.1 (not_not.mp hm)⟩, rfl⟩
      · by_contra hlt; exact hr (Or.inl ⟨by omega, h0⟩)
      · by_contra hge; exact hr (Or.inr (by omega))
    · rintro ⟨h, rfl⟩
      obtain ⟨⟨hds, hlt, hb⟩, hm⟩ := h h0
      refine ⟨(), ?_, (), ?_, (), land_shift_ne_zero.2 hb, (), ?_, rfl⟩
      · rintro (⟨h₁, _⟩ | h₁) <;> omega
      · simp at hlt ⊢; omega
      · exact not_not.mpr (land_shift_eq_zero.2 hm)

theorem checkAddress_reports (addr : Nat) (direct : Bool) (ds : Nat) (bm mark : Nat → Nat) :
    Reports (checkAddress addr direct ds bm mark) := by
  unfold checkAddress
  refine (Reports.rejectIf _ _).bind fun _ hr => ?_
  rw [rejectIf_eq_ok] at hr
  split
  · exact Reports.ok _
  · have hidx : index (addr / 8) NBMAP = .ok () := by
      rw [index_eq_ok]
      simp only [FSSIZE, NBMAP, BSIZE] at hr ⊢
      omega
    rw [hidx, ok_bind]
    exact (Reports.rejectIf _ _).bind fun _ _ => (Reports.rejectIf _ _).bind fun _ _ => Reports.ok _

/-! ## A list of addresses -/

/-- The condition under which a list of addresses passes, given the marks already there. -/
structure Passes (ds : Nat) (bm mark : Nat → Nat) (l : List Nat) : Prop where
  valid : ∀ a ∈ nz l, ValidAddr ds bm a
  fresh : ∀ a ∈ nz l, ¬ Mem mark a
  nodup : (nz l).Nodup

instance (ds : Nat) (bm mark : Nat → Nat) (l : List Nat) : Decidable (Passes ds bm mark l) :=
  decidable_of_iff (_ ∧ _ ∧ _) ⟨fun h => ⟨h.1, h.2.1, h.2.2⟩, fun h => ⟨h.valid, h.fresh, h.nodup⟩⟩

variable {ds : Nat} {bm mark mark' : Nat → Nat}

theorem Passes.nil : Passes ds bm mark [] := by
  constructor <;> simp [nz]

theorem passes_singleton {addr : Nat} :
    Passes ds bm mark [addr] ↔ (addr ≠ 0 → ValidAddr ds bm addr ∧ ¬ Mem mark addr) := by
  by_cases h0 : addr = 0
  · have hnz : nz [addr] = [] := by simp [nz, h0]
    constructor
    · intro _ h; exact absurd h0 h
    · intro _; constructor <;> simp [hnz]
  · have hnz : nz [addr] = [addr] := by simp [nz, h0]
    constructor
    · intro h _
      exact ⟨h.valid addr (by simp [hnz]), h.fresh addr (by simp [hnz])⟩
    · intro h
      constructor
      · intro a ha; simp only [hnz, List.mem_singleton] at ha; subst ha; exact (h h0).1
      · intro a ha; simp only [hnz, List.mem_singleton] at ha; subst ha; exact (h h0).2
      · simp [hnz]

theorem passes_append {l₁ l₂ : List Nat} :
    Passes ds bm mark (l₁ ++ l₂) ↔
      Passes ds bm mark l₁ ∧ Passes ds bm (insertAll mark (nz l₁)) l₂ := by
  constructor
  · intro ⟨hv, hf, hn⟩
    rw [nz_append] at hv hf hn
    rw [List.nodup_append] at hn
    obtain ⟨hn₁, hn₂, hd⟩ := hn
    refine ⟨⟨fun a ha => hv a (List.mem_append_left _ ha),
      fun a ha => hf a (List.mem_append_left _ ha), hn₁⟩,
      ⟨fun a ha => hv a (List.mem_append_right _ ha), ?_, hn₂⟩⟩
    intro a ha hm
    rcases mem_insertAll.1 hm with h | h
    · exact hd a h a ha rfl
    · exact hf a (List.mem_append_right _ ha) h
  · intro ⟨h₁, h₂⟩
    constructor
    · intro a ha
      rw [nz_append] at ha
      rcases List.mem_append.mp ha with ha | ha
      · exact h₁.valid a ha
      · exact h₂.valid a ha
    · intro a ha
      rw [nz_append] at ha
      rcases List.mem_append.mp ha with ha | ha
      · exact h₁.fresh a ha
      · exact fun hm => h₂.fresh a ha (mem_insertAll.2 (Or.inr hm))
    · rw [nz_append, List.nodup_append]
      refine ⟨h₁.nodup, h₂.nodup, ?_⟩
      intro a ha b hb hab
      subst hab
      exact h₂.fresh a hb (mem_insertAll.2 (Or.inl ha))

/-- **A list of calls** succeeds iff the list passes, and leaves the non-zero addresses marked. -/
theorem check_list_ok_iff {α : Type} {addr : α → Nat} {direct : Bool} :
    ∀ {l : List α} {mark mark' : Nat → Nat},
      l.foldlM (fun m a => checkAddress (addr a) direct ds bm m) mark = .ok mark' ↔
        Passes ds bm mark (l.map addr) ∧ mark' = insertAll mark (nz (l.map addr))
  | [], mark, mark' => by
    simp only [List.foldlM_nil, pure, Except.pure, Except.ok.injEq, List.map_nil]
    constructor
    · rintro rfl; exact ⟨Passes.nil, rfl⟩
    · rintro ⟨_, rfl⟩; rfl
  | a :: l, mark, mark' => by
    have hsplit : (a :: l).map addr = [addr a] ++ l.map addr := rfl
    rw [List.foldlM_cons, bind_eq_ok, hsplit, passes_append, nz_append, insertAll_append]
    constructor
    · rintro ⟨m, h₁, h₂⟩
      obtain ⟨hp₁, rfl⟩ := checkAddress_ok_iff.1 h₁
      obtain ⟨hp₂, rfl⟩ := check_list_ok_iff.1 h₂
      exact ⟨⟨passes_singleton.2 hp₁, hp₂⟩, rfl⟩
    · rintro ⟨⟨hp₁, hp₂⟩, rfl⟩
      exact ⟨_, checkAddress_ok_iff.2 ⟨passes_singleton.1 hp₁, rfl⟩,
        check_list_ok_iff.2 ⟨hp₂, rfl⟩⟩

/-! ## One inode -/

/-- The addresses that the loop visits for one inode, in order. -/
def visited (img : Image) (d : Dinode) : List Nat :=
  (List.range NDIRECT).map d.addr ++
    ([d.addr NDIRECT] ++ (List.range NINDIRECT).map (indirectWord img (d.addr NDIRECT)))

theorem blockOff_of_lt {b : Nat} (h : b < FSSIZE) : blockOff b = b * BSIZE := by
  simp only [FSSIZE, blockOff, BSIZE] at *
  omega

/-- The thirteen-slot loop is the twelve direct slots followed by the indirect block. -/
theorem checkAddresses_eq (img : Image) (d : Dinode) :
    checkAddresses img ds bm d mark = (do
      let m ← (List.range NDIRECT).foldlM
        (fun m j => checkAddress (d.addr j) true ds bm m) mark
      let m ← checkAddress (d.addr NDIRECT) false ds bm m
      memmove img (blockOff (d.addr NDIRECT)) (4 * NINDIRECT)
      (List.range NINDIRECT).foldlM (fun m k =>
        checkAddress (indirectWord img (d.addr NDIRECT) k) false ds bm m) m) := by
  unfold checkAddresses
  rw [List.range_succ, List.foldlM_append,
    foldlM_congr (l := List.range NDIRECT) (g := fun m j => checkAddress (d.addr j) true ds bm m)
      (fun m j hj => by rw [if_pos (List.mem_range.mp hj)])]
  congr 1
  funext m
  simp

/-- A pointer that passed its check names a block of the image. -/
theorem memmove_block_ok (img : Image) {a : Nat} (h : a ≠ 0 → ValidAddr ds bm a) :
    memmove img (blockOff a) (4 * NINDIRECT) = .ok () := by
  have hlt : a < FSSIZE := by
    by_cases h0 : a = 0
    · simp [h0]
    · exact (h h0).2.1
  rw [memmove_eq_ok, blockOff_of_lt hlt]
  simp only [FSSIZE, BSIZE, NINDIRECT, IMG_SIZE] at *
  omega

/-- **One inode's addresses.** -/
theorem checkAddresses_ok_iff {img : Image} {d : Dinode} :
    checkAddresses img ds bm d mark = .ok mark' ↔
      Passes ds bm mark (visited img d) ∧ mark' = insertAll mark (nz (visited img d)) := by
  rw [checkAddresses_eq, visited, passes_append, passes_append, nz_append, nz_append,
    insertAll_append, insertAll_append]
  simp only [bind_eq_ok]
  constructor
  · rintro ⟨m₁, h₁, m₂, h₂, _, _, h₃⟩
    obtain ⟨p₁, rfl⟩ := check_list_ok_iff.1 h₁
    obtain ⟨p₂, rfl⟩ := checkAddress_ok_iff.1 h₂
    obtain ⟨p₃, rfl⟩ := check_list_ok_iff.1 h₃
    exact ⟨⟨p₁, passes_singleton.2 p₂, p₃⟩, rfl⟩
  · rintro ⟨⟨p₁, p₂, p₃⟩, rfl⟩
    refine ⟨_, check_list_ok_iff.2 ⟨p₁, rfl⟩, _,
      checkAddress_ok_iff.2 ⟨passes_singleton.1 p₂, rfl⟩, (), ?_,
      check_list_ok_iff.2 ⟨p₃, rfl⟩⟩
    exact memmove_block_ok img fun h => (passes_singleton.1 p₂ h).1

/-- The address loop reads the indirect block only through a pointer it has checked, so it never
leaves the image. -/
theorem checkAddresses_reports (img : Image) (d : Dinode) :
    Reports (checkAddresses img ds bm d mark) := by
  rw [checkAddresses_eq]
  refine (Reports.foldlM (fun j _ m => checkAddress_reports _ _ _ _ _) _).bind fun m _ => ?_
  refine (checkAddress_reports _ _ _ _ _).bind fun m' hm => ?_
  rw [memmove_block_ok img fun h => ((checkAddress_ok_iff.1 hm).1 h).1, ok_bind]
  exact Reports.foldlM (fun k _ m => checkAddress_reports _ _ _ _ _) _

end OstepHw.Fsck
