import Mathlib.Data.List.Nodup
import OstepHw.Lib.Path

/-!
# `myfind.c`: searching a directory tree

Model of `find_dir` in `39/myfind.c` on a file system that no one changes meanwhile: `opendir` gives the records that
`readdir` returns one after the other, for a path name.  A run is what it writes to the standard output, and what
has stopped it if it has not returned.

* `findDir_stop` — when it returns;
* `mem_findDir`, `nodup_findDir` — what it prints then;
* `finds_iff` — **the trees of which it prints all that is asked for**.
-/

set_option autoImplicit false

namespace OstepHw.Myfind

open OstepHw.Path

def STRINGSIZE : Nat := 1024

def DT_DIR : UInt8 := 4

structure Dirent where
  dName : List UInt8
  dType : UInt8
deriving DecidableEq

/-- What `opendir` and `readdir` say about a path name; `denied` is the error `EACCES`. -/
inductive Opendir where
  | opened (entries : List Dirent)
  | denied
  | failed
deriving DecidableEq

/-- `handle_error`, or a write behind the end of `filePath`. -/
inductive Stop where
  | exit
  | undefined
  | fuel
deriving DecidableEq

structure Run where
  out : List (List UInt8)
  stop : Option Stop
deriving DecidableEq

def Run.andThen (r s : Run) : Run := if r.stop = none then ⟨r.out ++ s.out, s.stop⟩ else r

/-- `strncmp(s, t, n) == 0` -/
def strnEq (s t : List UInt8) (n : Nat) : Prop := s.take n = t.take n

instance (s t : List UInt8) (n : Nat) : Decidable (strnEq s t n) := inferInstanceAs (Decidable (_ = _))

/-- `preg == NULL || regexec(preg, name, ...) != REG_NOMATCH` -/
def isMatch (preg : Option (List UInt8 → Bool)) (name : List UInt8) : Bool := preg.all (· name)

/-- The path name of an entry of `pathname`. -/
def filePath (pathname dName : List UInt8) : List UInt8 :=
  (if pathname.getLast? = some slash then pathname else pathname ++ [slash]) ++ dName

/-- The body of the `while`; `find` is the recursive call. -/
def visit (preg : Option (List UInt8 → Bool)) (pathname : List UInt8) (find : List UInt8 → Run) (d : Dirent) : Run :=
  let filePath := filePath pathname d.dName
  if pathname = [] ∨ STRINGSIZE ≤ filePath.length then ⟨[], some .undefined⟩
  else if ¬strnEq d.dName [dot] 1 ∧ ¬strnEq d.dName dotdot 2 then
    Run.andThen ⟨if isMatch preg d.dName then [filePath] else [], none⟩
      (if d.dType = DT_DIR then find filePath else ⟨[], none⟩)
  else ⟨[], none⟩

def visitAll (f : Dirent → Run) : List Dirent → Run
  | [] => ⟨[], none⟩
  | d :: entries => (f d).andThen (visitAll f entries)

def findDir (opendir : List UInt8 → Opendir) (preg : Option (List UInt8 → Bool)) (maxDepth : Nat) :
    (fuel : Nat) → (pathname : List UInt8) → (currentDepth : Nat) → Run
  | 0, _, _ => ⟨[], some .fuel⟩
  | fuel + 1, pathname, currentDepth =>
    if currentDepth > maxDepth then ⟨[], none⟩
    else
      match opendir pathname with
      | .denied => ⟨[], none⟩
      | .failed => ⟨[], some .exit⟩
      | .opened entries =>
        visitAll (visit preg pathname fun filePath =>
          findDir opendir preg maxDepth fuel filePath (currentDepth + 1)) entries

/-! ## The tree -/

variable {opendir : List UInt8 → Opendir} {preg : Option (List UInt8 → Bool)} {maxDepth fuel depth : Nat}
  {path n : List UInt8} {ns : List (List UInt8)} {entries : List Dirent} {d : Dirent}

/-- `.` and `..` -/
def Special (n : List UInt8) : Prop := n = [dot] ∨ n = dotdot

/-- The directory has an entry of that name. -/
def Listed (opendir : List UInt8 → Opendir) (path n : List UInt8) : Prop :=
  ∃ entries, opendir path = .opened entries ∧ ∃ d ∈ entries, d.dName = n

/-- The names lead from the directory down to an entry, from one directory to the next. -/
def Node (opendir : List UInt8 → Opendir) : (path : List UInt8) → List (List UInt8) → Prop
  | _, [] => True
  | path, n :: ns => Listed opendir path n ∧ ¬Special n ∧ Node opendir (filePath path n) ns

/-- Where the names lead to. -/
def descend (path : List UInt8) (ns : List (List UInt8)) : List UInt8 := ns.foldl filePath path

/-- The records of a directory: names that differ, and the type of a directory for those that can be opened. -/
structure Directory (opendir : List UInt8 → Opendir) (path : List UInt8) (entries : List Dirent) : Prop where
  distinct : (entries.map Dirent.dName).Nodup
  name : ∀ d ∈ entries, d.dName ≠ [] ∧ slash ∉ d.dName
  opens : ∀ d ∈ entries, ¬Special d.dName → d.dType = DT_DIR → opendir (filePath path d.dName) ≠ .failed
  type : ∀ d ∈ entries, ¬Special d.dName → ∀ es, opendir (filePath path d.dName) = .opened es → d.dType = DT_DIR

/-- A directory tree, parts of which may be closed to the caller. -/
structure Tree (opendir : List UInt8 → Opendir) (path : List UInt8) : Prop where
  nonempty : path ≠ []
  opens : opendir path ≠ .failed
  directory : ∀ ns, Node opendir path ns → ∀ entries, opendir (descend path ns) = .opened entries →
    Directory opendir (descend path ns) entries

/-- The start path and the names of the entries, joined by single slashes. -/
def pathOf (start : List UInt8) (ns : List (List UInt8)) : List UInt8 :=
  joined (if start.getLast? = some slash then start.dropLast else start) ns

theorem node_append {ms : List (List UInt8)} :
    Node opendir path (ns ++ ms) ↔ Node opendir path ns ∧ Node opendir (descend path ns) ms := by
  induction ns generalizing path with
  | nil => exact (and_iff_right trivial).symm
  | cons n ns ih =>
    show Listed opendir path n ∧ ¬Special n ∧ Node opendir (filePath path n) (ns ++ ms) ↔ _
    rw [ih]
    exact ⟨fun ⟨hl, hs, ha, hb⟩ => ⟨⟨hl, hs, ha⟩, hb⟩, fun ⟨⟨hl, hs, ha⟩, hb⟩ => ⟨hl, hs, ha, hb⟩⟩

/-- A directory in which names lead anywhere can be opened. -/
theorem opened_of_node (hnode : Node opendir path ns) (hlisted : Listed opendir (descend path ns) n) :
    ∃ es, opendir path = .opened es := by
  cases ns with
  | nil =>
    obtain ⟨es, hes, -⟩ := hlisted
    exact ⟨es, hes⟩
  | cons m ns =>
    obtain ⟨⟨es, hes, -⟩, -⟩ := hnode
    exact ⟨es, hes⟩

/-- Names of entries are not empty and have no slash. -/
theorem Tree.name (htree : Tree opendir path) (hnode : Node opendir path ns) : ∀ n ∈ ns, n ≠ [] ∧ slash ∉ n := by
  intro n hn
  obtain ⟨a, b, rfl⟩ := List.append_of_mem hn
  obtain ⟨ha, ⟨es, hes, d, hd, rfl⟩, -⟩ := node_append.1 hnode
  exact (htree.directory a ha es hes).name d hd

theorem Tree.child (htree : Tree opendir path) (hopened : opendir path = .opened entries) (hd : d ∈ entries)
    (hspecial : ¬Special d.dName) (htype : d.dType = DT_DIR) : Tree opendir (filePath path d.dName) := by
  have hroot := htree.directory [] trivial entries hopened
  refine ⟨?_, hroot.opens d hd hspecial htype, fun ns hns es hes => ?_⟩
  · unfold filePath
    exact List.append_ne_nil_of_right_ne_nil _ (hroot.name d hd).1
  · exact htree.directory (d.dName :: ns) ⟨⟨entries, hopened, d, hd, rfl⟩, hspecial, hns⟩ es hes

/-! ## Path names -/

theorem length_filePath (hn : n ≠ []) : path.length < (filePath path n).length := by
  have hpos := List.length_pos_iff.2 hn
  unfold filePath
  split
  · rw [List.length_append]
    omega
  · rw [List.length_append, List.length_append]
    omega

theorem filePath_eq (path n : List UInt8) :
    filePath path n = (if path.getLast? = some slash then path.dropLast else path) ++ slash :: n := by
  unfold filePath
  split
  next hlast =>
    obtain ⟨a, rfl⟩ := List.getLast?_eq_some_iff.1 hlast
    rw [List.dropLast_concat, List.append_assoc, List.singleton_append]
  next => rw [List.append_assoc, List.singleton_append]

theorem getLast?_ne_slash (path : List UInt8) (hne : n ≠ []) (hslash : slash ∉ n) :
    (path ++ slash :: n).getLast? ≠ some slash := by
  obtain ⟨m, c, rfl⟩ := (List.eq_nil_or_concat n).resolve_left hne
  rw [List.concat_eq_append] at hslash
  rw [List.concat_eq_append, ← List.cons_append, ← List.append_assoc, List.getLast?_concat]
  intro hc
  obtain rfl := Option.some.inj hc
  exact hslash (by simp)

theorem descend_eq (hns : ∀ n ∈ ns, n ≠ [] ∧ slash ∉ n) (hpath : path.getLast? ≠ some slash) :
    descend path ns = joined path ns := by
  induction ns generalizing path with
  | nil => exact (List.append_nil path).symm
  | cons n ns ih =>
    obtain ⟨⟨hne, hslash⟩, hns⟩ := List.forall_mem_cons.1 hns
    rw [joined_cons, ← ih hns (getLast?_ne_slash path hne hslash)]
    show descend (filePath path n) ns = _
    rw [filePath_eq, if_neg hpath]

/-- The entries of the tree are where their path names say. -/
theorem descend_eq_pathOf (hne : ns ≠ []) (hns : ∀ n ∈ ns, n ≠ [] ∧ slash ∉ n) : descend path ns = pathOf path ns := by
  obtain ⟨n, ns, rfl⟩ := List.exists_cons_of_ne_nil hne
  obtain ⟨⟨hn, hslash⟩, hns⟩ := List.forall_mem_cons.1 hns
  rw [pathOf, joined_cons, ← descend_eq hns (getLast?_ne_slash _ hn hslash), ← filePath_eq]
  rfl

/-- Different entries have different path names. -/
theorem Tree.descend_injective {ms : List (List UInt8)} (htree : Tree opendir path) (hns : Node opendir path ns)
    (hms : Node opendir path ms) (hne : ns ≠ []) (hme : ms ≠ []) (h : descend path ns = descend path ms) : ns = ms := by
  have hns := htree.name hns
  have hms := htree.name hms
  rw [descend_eq_pathOf hne hns, descend_eq_pathOf hme hms] at h
  exact joined_injective (fun n hn => (hns n hn).2) (fun m hm => (hms m hm).2) h

/-! ## The loop -/

theorem visitAll_stop {f : Dirent → Run} : (visitAll f entries).stop = none ↔ ∀ d ∈ entries, (f d).stop = none := by
  induction entries with
  | nil => exact iff_of_true rfl fun _ h => absurd h List.not_mem_nil
  | cons d entries ih =>
    rw [List.forall_mem_cons, ← ih, visitAll, Run.andThen]
    by_cases hd : (f d).stop = none
    · rw [if_pos hd, and_iff_right hd]
    · rw [if_neg hd]
      exact iff_of_false hd fun h => hd h.1

theorem visitAll_out {f : Dirent → Run} (h : ∀ d ∈ entries, (f d).stop = none) :
    (visitAll f entries).out = entries.flatMap fun d => (f d).out := by
  induction entries with
  | nil => rfl
  | cons d entries ih =>
    obtain ⟨hd, hrest⟩ := List.forall_mem_cons.1 h
    rw [visitAll, Run.andThen, if_pos hd, List.flatMap_cons, ← ih hrest]

/-- The names that `find_dir` passes over. -/
def Hidden (n : List UInt8) : Prop := strnEq n [dot] 1

instance (n : List UInt8) : Decidable (Hidden n) := inferInstanceAs (Decidable (strnEq n [dot] 1))

/-- `.` and `..` are among them. -/
theorem not_special (hn : ¬Hidden n) : ¬Special n := by
  rintro (rfl | rfl)
  · exact hn rfl
  · exact hn rfl

/-- The second comparison adds nothing. -/
theorem shown_iff : ¬strnEq n [dot] 1 ∧ ¬strnEq n dotdot 2 ↔ ¬Hidden n := by
  refine and_iff_left_of_imp fun hn h => hn ?_
  have hone := congrArg (List.take 1) h
  rw [List.take_take, List.take_take] at hone
  exact hone

variable {find : List UInt8 → Run}

theorem visit_eq (hpath : path ≠ []) :
    visit preg path find d =
      if STRINGSIZE ≤ (filePath path d.dName).length then ⟨[], some .undefined⟩
      else if Hidden d.dName then ⟨[], none⟩
      else
        ⟨(if isMatch preg d.dName then [filePath path d.dName] else []) ++
          (if d.dType = DT_DIR then find (filePath path d.dName) else ⟨[], none⟩).out,
          (if d.dType = DT_DIR then find (filePath path d.dName) else ⟨[], none⟩).stop⟩ := by
  unfold visit
  dsimp only
  by_cases hlong : STRINGSIZE ≤ (filePath path d.dName).length
  · rw [if_pos (.inr hlong), if_pos hlong]
  · rw [if_neg (not_or.2 ⟨hpath, hlong⟩), if_neg hlong]
    by_cases hn : Hidden d.dName
    · rw [if_neg (fun h => shown_iff.1 h hn), if_pos hn]
    · rw [if_pos (shown_iff.2 hn), if_neg hn]
      rfl

theorem visit_stop (hpath : path ≠ []) :
    (visit preg path find d).stop = none ↔
      (filePath path d.dName).length < STRINGSIZE ∧
        (¬Hidden d.dName → d.dType = DT_DIR → (find (filePath path d.dName)).stop = none) := by
  rw [visit_eq hpath]
  by_cases hlong : STRINGSIZE ≤ (filePath path d.dName).length
  · rw [if_pos hlong]
    exact iff_of_false (by rintro ⟨⟩) fun h => Nat.not_lt.2 hlong h.1
  · rw [if_neg hlong, and_iff_right (Nat.not_le.1 hlong)]
    by_cases hn : Hidden d.dName
    · rw [if_pos hn]
      exact iff_of_true rfl fun h => absurd hn h
    · rw [if_neg hn]
      by_cases htype : d.dType = DT_DIR
      · rw [if_pos htype]
        exact ⟨fun h _ _ => h, fun h => h hn htype⟩
      · rw [if_neg htype]
        exact iff_of_true rfl fun _ h => absurd h htype

theorem mem_visit {q : List UInt8} (hpath : path ≠ []) (h : (visit preg path find d).stop = none) :
    q ∈ (visit preg path find d).out ↔
      ¬Hidden d.dName ∧ (isMatch preg d.dName ∧ q = filePath path d.dName ∨
        d.dType = DT_DIR ∧ q ∈ (find (filePath path d.dName)).out) := by
  have hshort := ((visit_stop hpath).1 h).1
  rw [visit_eq hpath, if_neg (Nat.not_le.2 hshort)]
  by_cases hn : Hidden d.dName
  · rw [if_pos hn]
    exact iff_of_false List.not_mem_nil fun h => h.1 hn
  · rw [if_neg hn, and_iff_right hn, List.mem_append]
    apply or_congr
    · split
      next hmatch => rw [List.mem_singleton, and_iff_right hmatch]
      next hmatch => exact iff_of_false List.not_mem_nil fun h => hmatch h.1
    · split
      next htype => rw [and_iff_right htype]
      next htype => exact iff_of_false List.not_mem_nil fun h => htype h.1

theorem nodup_visit (hpath : path ≠ [])
    (hfind : ¬Hidden d.dName → d.dType = DT_DIR → (find (filePath path d.dName)).out.Nodup ∧
      filePath path d.dName ∉ (find (filePath path d.dName)).out) :
    (visit preg path find d).out.Nodup := by
  rw [visit_eq hpath]
  split
  · exact List.nodup_nil
  split
  · exact List.nodup_nil
  next hn =>
    by_cases htype : d.dType = DT_DIR
    · obtain ⟨hnodup, hnew⟩ := hfind hn htype
      rw [if_pos htype]
      split
      · exact List.nodup_cons.2 ⟨hnew, hnodup⟩
      · exact hnodup
    · rw [if_neg htype]
      split
      · exact List.nodup_singleton _
      · exact List.nodup_nil

/-! ## The run -/

/-- The path names that are built on the way through the tree fit `filePath`. -/
def Fits (opendir : List UInt8 → Opendir) (maxDepth : Nat) (path : List UInt8) (depth : Nat) : Prop :=
  ∀ ns, Node opendir path ns → (∀ n ∈ ns, ¬Hidden n) → depth + ns.length ≤ maxDepth →
    ∀ n, Listed opendir (descend path ns) n → (filePath (descend path ns) n).length < STRINGSIZE

/-- `q` is the path name of an entry with a name that matches, and no hidden name on the way to it. -/
def Shown (opendir : List UInt8 → Opendir) (preg : Option (List UInt8 → Bool)) (maxDepth : Nat) (path : List UInt8)
    (depth : Nat) (q : List UInt8) : Prop :=
  ∃ ns n, Node opendir path (ns ++ [n]) ∧ (∀ m ∈ ns ++ [n], ¬Hidden m) ∧ depth + ns.length ≤ maxDepth ∧
    isMatch preg n ∧ q = descend path (ns ++ [n])

theorem findDir_of_opened (hopened : opendir path = .opened entries) (hdepth : depth ≤ maxDepth) :
    findDir opendir preg maxDepth (fuel + 1) path depth =
      visitAll (visit preg path fun filePath => findDir opendir preg maxDepth fuel filePath (depth + 1)) entries := by
  rw [findDir, if_neg (Nat.not_lt.2 hdepth), hopened]

/-- A directory that is too deep, or that is not opened. -/
theorem findDir_of_not_read (htree : Tree opendir path)
    (h : maxDepth < depth ∨ ∀ entries, opendir path ≠ .opened entries) :
    findDir opendir preg maxDepth (fuel + 1) path depth = ⟨[], none⟩ := by
  rw [findDir]
  split
  · rfl
  next hdepth =>
    have hnot := h.resolve_left hdepth
    match hopen : opendir path with
    | .denied => rfl
    | .failed => exact absurd hopen htree.opens
    | .opened entries => exact absurd hopen (hnot entries)

theorem fits_of_opened (htree : Tree opendir path) (hopened : opendir path = .opened entries)
    (hdepth : depth ≤ maxDepth) :
    Fits opendir maxDepth path depth ↔
      ∀ d ∈ entries, (filePath path d.dName).length < STRINGSIZE ∧
        (¬Hidden d.dName → d.dType = DT_DIR → Fits opendir maxDepth (filePath path d.dName) (depth + 1)) := by
  have hroot := htree.directory [] trivial entries hopened
  constructor
  · intro h d hd
    have hlisted : Listed opendir path d.dName := ⟨entries, hopened, d, hd, rfl⟩
    refine ⟨h [] trivial (fun _ hn => absurd hn List.not_mem_nil) hdepth _ hlisted, fun hn _ ns hnode hns hdeep => ?_⟩
    exact h (d.dName :: ns) ⟨hlisted, not_special hn, hnode⟩ (List.forall_mem_cons.2 ⟨hn, hns⟩)
      (by rw [List.length_cons]; omega)
  · rintro h (_ | ⟨m, ns⟩) hnode hns hdeep n hlisted
    · obtain ⟨es, hes, d, hd, rfl⟩ := hlisted
      obtain rfl : entries = es := Opendir.opened.inj (hopened.symm.trans hes)
      exact (h d hd).1
    · obtain ⟨⟨es, hes, d, hd, rfl⟩, hspecial, hnode⟩ := hnode
      obtain rfl : entries = es := Opendir.opened.inj (hopened.symm.trans hes)
      obtain ⟨hn, hns⟩ := List.forall_mem_cons.1 hns
      obtain ⟨es, hes⟩ := opened_of_node hnode hlisted
      exact (h d hd).2 hn (hroot.type d hd hspecial es hes) ns hnode hns (by rw [List.length_cons] at hdeep; omega)
        n hlisted

theorem shown_of_opened {q : List UInt8} (htree : Tree opendir path) (hopened : opendir path = .opened entries)
    (hdepth : depth ≤ maxDepth) :
    Shown opendir preg maxDepth path depth q ↔
      ∃ d ∈ entries, ¬Hidden d.dName ∧ (isMatch preg d.dName ∧ q = filePath path d.dName ∨
        d.dType = DT_DIR ∧ Shown opendir preg maxDepth (filePath path d.dName) (depth + 1) q) := by
  have hroot := htree.directory [] trivial entries hopened
  constructor
  · rintro ⟨_ | ⟨m, ns⟩, n, ⟨⟨es, hes, d, hd, rfl⟩, hspecial, hnode⟩, hns, hdeep, hmatch, rfl⟩
    · obtain rfl : entries = es := Opendir.opened.inj (hopened.symm.trans hes)
      exact ⟨d, hd, hns _ List.mem_cons_self, .inl ⟨hmatch, rfl⟩⟩
    · obtain rfl : entries = es := Opendir.opened.inj (hopened.symm.trans hes)
      obtain ⟨hn, hns⟩ := List.forall_mem_cons.1 hns
      obtain ⟨hbelow, hlast⟩ := node_append.1 hnode
      obtain ⟨es, hes⟩ := opened_of_node hbelow hlast.1
      refine ⟨d, hd, hn, .inr ⟨hroot.type d hd hspecial es hes, ns, n, hnode, hns, ?_, hmatch, rfl⟩⟩
      rw [List.length_cons] at hdeep
      omega
  · rintro ⟨d, hd, hn, ⟨hmatch, rfl⟩ | ⟨_, ns, n, hnode, hns, hdeep, hmatch, rfl⟩⟩
    · refine ⟨[], d.dName, ⟨⟨entries, hopened, d, hd, rfl⟩, not_special hn, trivial⟩, ?_, hdepth, hmatch, rfl⟩
      exact List.forall_mem_singleton.2 hn
    · refine ⟨d.dName :: ns, n, ⟨⟨entries, hopened, d, hd, rfl⟩, not_special hn, hnode⟩,
        List.forall_mem_cons.2 ⟨hn, hns⟩, ?_, hmatch, rfl⟩
      rw [List.length_cons]
      omega

/-- Without a directory that is read, nothing is built and nothing shown. -/
theorem not_listed_of_not_read (h : maxDepth < depth ∨ ∀ entries, opendir path ≠ .opened entries)
    (hnode : Node opendir path ns) (hdeep : depth + ns.length ≤ maxDepth) : ¬Listed opendir (descend path ns) n := by
  intro hlisted
  rcases h with hdepth | hnot
  · omega
  · obtain ⟨es, hes⟩ := opened_of_node hnode hlisted
    exact hnot es hes

/-- Either the directory is read, or it is too deep or not opened. -/
theorem read_or_not (opendir : List UInt8 → Opendir) (maxDepth depth : Nat) (path : List UInt8) :
    (∃ entries, opendir path = .opened entries ∧ depth ≤ maxDepth) ∨
      (maxDepth < depth ∨ ∀ entries, opendir path ≠ .opened entries) := by
  by_cases hdepth : depth ≤ maxDepth
  · by_cases hopened : ∃ entries, opendir path = .opened entries
    · obtain ⟨entries, hopened⟩ := hopened
      exact .inl ⟨entries, hopened, hdepth⟩
    · exact .inr (.inr (not_exists.1 hopened))
  · exact .inr (.inl (Nat.not_le.1 hdepth))

/-- **It returns if and only if the path names on the way fit.** -/
theorem findDir_stop (htree : Tree opendir path) (hpos : 0 < fuel) (hfuel : STRINGSIZE ≤ fuel + path.length) :
    (findDir opendir preg maxDepth fuel path depth).stop = none ↔ Fits opendir maxDepth path depth := by
  induction fuel generalizing path depth with
  | zero => exact absurd hpos (Nat.lt_irrefl 0)
  | succ fuel ih =>
    rcases read_or_not opendir maxDepth depth path with ⟨entries, hopened, hdepth⟩ | hnot
    · have hroot := htree.directory [] trivial entries hopened
      rw [findDir_of_opened hopened hdepth, visitAll_stop, fits_of_opened htree hopened hdepth]
      refine forall₂_congr fun d hd => ?_
      rw [visit_stop htree.nonempty]
      refine and_congr_right fun hshort => forall₂_congr fun hn htype => ?_
      have hlonger : path.length < (filePath path d.dName).length := length_filePath (hroot.name d hd).1
      exact ih (htree.child hopened hd (not_special hn) htype) (by omega) (by omega)
    · rw [findDir_of_not_read htree hnot]
      exact iff_of_true rfl fun ns hnode _ hdeep n hlisted =>
        absurd hlisted (not_listed_of_not_read hnot hnode hdeep)

/-- **What it prints, if it returns.** -/
theorem mem_findDir {q : List UInt8} (htree : Tree opendir path)
    (hstop : (findDir opendir preg maxDepth fuel path depth).stop = none) :
    q ∈ (findDir opendir preg maxDepth fuel path depth).out ↔ Shown opendir preg maxDepth path depth q := by
  induction fuel generalizing path depth with
  | zero => cases hstop
  | succ fuel ih =>
    rcases read_or_not opendir maxDepth depth path with ⟨entries, hopened, hdepth⟩ | hnot
    · rw [findDir_of_opened hopened hdepth] at hstop ⊢
      have hvisits := visitAll_stop.1 hstop
      rw [visitAll_out hvisits, List.mem_flatMap, shown_of_opened htree hopened hdepth]
      refine exists_congr fun d => and_congr_right fun hd => ?_
      have hvisit := hvisits d hd
      rw [mem_visit htree.nonempty hvisit]
      refine and_congr_right fun hn => or_congr_right (and_congr_right fun htype => ?_)
      exact ih (htree.child hopened hd (not_special hn) htype) (((visit_stop htree.nonempty).1 hvisit).2 hn htype)
    · rw [findDir_of_not_read htree hnot]
      refine iff_of_false List.not_mem_nil ?_
      rintro ⟨ns, n, hnode, _, hdeep, _⟩
      obtain ⟨hnode, hlast⟩ := node_append.1 hnode
      exact not_listed_of_not_read hnot hnode hdeep hlast.1

/-- What is printed for an entry is its path name or that of one below it. -/
theorem node_of_mem_visit {q : List UInt8} (htree : Tree opendir path) (hopened : opendir path = .opened entries)
    (hd : d ∈ entries)
    (hstop : (visit preg path (fun filePath => findDir opendir preg maxDepth fuel filePath depth) d).stop = none)
    (hq : q ∈ (visit preg path (fun filePath => findDir opendir preg maxDepth fuel filePath depth) d).out) :
    ∃ ns, Node opendir path (d.dName :: ns) ∧ q = descend path (d.dName :: ns) := by
  obtain ⟨hn, hprinted⟩ := (mem_visit htree.nonempty hstop).1 hq
  have hlisted : Listed opendir path d.dName := ⟨entries, hopened, d, hd, rfl⟩
  rcases hprinted with ⟨_, rfl⟩ | ⟨htype, hbelow⟩
  · exact ⟨[], ⟨hlisted, not_special hn, trivial⟩, rfl⟩
  · have hchild := htree.child hopened hd (not_special hn) htype
    obtain ⟨ns, n, hnode, _, _, _, rfl⟩ :=
      (mem_findDir hchild (((visit_stop htree.nonempty).1 hstop).2 hn htype)).1 hbelow
    exact ⟨ns ++ [n], ⟨hlisted, not_special hn, hnode⟩, rfl⟩

/-- **Nothing is printed twice.** -/
theorem nodup_findDir (htree : Tree opendir path)
    (hstop : (findDir opendir preg maxDepth fuel path depth).stop = none) :
    (findDir opendir preg maxDepth fuel path depth).out.Nodup := by
  induction fuel generalizing path depth with
  | zero => cases hstop
  | succ fuel ih =>
    rcases read_or_not opendir maxDepth depth path with ⟨entries, hopened, hdepth⟩ | hnot
    · have hroot := htree.directory [] trivial entries hopened
      rw [findDir_of_opened hopened hdepth] at hstop ⊢
      have hvisits := visitAll_stop.1 hstop
      rw [visitAll_out hvisits, List.nodup_flatMap]
      constructor
      · refine fun d hd => nodup_visit htree.nonempty fun hn htype => ?_
        have hchild := htree.child hopened hd (not_special hn) htype
        have hrest := ((visit_stop htree.nonempty).1 (hvisits d hd)).2 hn htype
        refine ⟨ih hchild hrest, fun hmem => ?_⟩
        obtain ⟨ns, n, hnode, _, _, _, heq⟩ := (mem_findDir hchild hrest).1 hmem
        have hlisted : Listed opendir path d.dName := ⟨entries, hopened, d, hd, rfl⟩
        have hsame : [d.dName] = d.dName :: (ns ++ [n]) :=
          htree.descend_injective ⟨hlisted, not_special hn, trivial⟩ ⟨hlisted, not_special hn, hnode⟩
            (List.cons_ne_nil _ _) (List.cons_ne_nil _ _) heq
        exact List.append_ne_nil_of_right_ne_nil ns (List.cons_ne_nil n []) (List.cons.inj hsame).2.symm
      · refine (List.pairwise_map.1 hroot.distinct).imp_of_mem fun {d d'} hd hd' hne q hq hq' => hne ?_
        obtain ⟨ns, hns, rfl⟩ := node_of_mem_visit htree hopened hd (hvisits d hd) hq
        obtain ⟨ns', hns', heq⟩ := node_of_mem_visit htree hopened hd' (hvisits d' hd') hq'
        exact (List.cons.inj (htree.descend_injective hns hns' (List.cons_ne_nil _ _) (List.cons_ne_nil _ _) heq)).1
    · rw [findDir_of_not_read htree hnot]
      exact List.nodup_nil

/-! ## The search -/

/-- What is asked for: every entry down to `maxDepth` with a name that matches, once, and nothing else. -/
structure Finds (opendir : List UInt8 → Opendir) (preg : Option (List UInt8 → Bool)) (maxDepth : Nat)
    (start : List UInt8) (r : Run) : Prop where
  returns : r.stop = none
  once : r.out.Nodup
  exact : ∀ q, q ∈ r.out ↔ ∃ ns n, Node opendir start (ns ++ [n]) ∧ ns.length + 1 ≤ maxDepth ∧ isMatch preg n ∧
    q = pathOf start (ns ++ [n])

/-- No entry that is asked for has a name that begins with a dot, or is below one. -/
def NoneHidden (opendir : List UInt8 → Opendir) (preg : Option (List UInt8 → Bool)) (maxDepth : Nat)
    (start : List UInt8) : Prop :=
  ∀ ns n, Node opendir start (ns ++ [n]) → ns.length + 1 ≤ maxDepth → isMatch preg n → ∀ m ∈ ns ++ [n], ¬Hidden m

/-- **`find_dir` prints what is asked for if and only if none of it is hidden**, and the path names fit. -/
theorem finds_iff {start : List UInt8} (htree : Tree opendir start) (hfuel : STRINGSIZE ≤ fuel) :
    Finds opendir preg maxDepth start (findDir opendir preg maxDepth fuel start 1) ↔
      Fits opendir maxDepth start 1 ∧ NoneHidden opendir preg maxDepth start := by
  have hpos : 0 < fuel := Nat.lt_of_lt_of_le (by decide) hfuel
  have hstop : (findDir opendir preg maxDepth fuel start 1).stop = none ↔ Fits opendir maxDepth start 1 :=
    findDir_stop htree hpos (by omega)
  have hpath {ns : List (List UInt8)} {n : List UInt8} (hnode : Node opendir start (ns ++ [n])) :
      descend start (ns ++ [n]) = pathOf start (ns ++ [n]) :=
    descend_eq_pathOf (by simp) (htree.name hnode)
  constructor
  · intro h
    refine ⟨hstop.1 h.returns, fun ns n hnode hdeep hmatch => ?_⟩
    have hprinted := (h.exact _).2 ⟨ns, n, hnode, hdeep, hmatch, rfl⟩
    obtain ⟨ns', n', hnode', hshown, _, _, heq⟩ := (mem_findDir htree h.returns).1 hprinted
    rw [← hpath hnode] at heq
    rw [htree.descend_injective hnode hnode' (by simp) (by simp) heq]
    exact hshown
  · rintro ⟨hfits, hnone⟩
    have hreturns := hstop.2 hfits
    refine ⟨hreturns, nodup_findDir htree hreturns, fun q => ?_⟩
    rw [mem_findDir htree hreturns]
    constructor
    · rintro ⟨ns, n, hnode, _, hdeep, hmatch, rfl⟩
      exact ⟨ns, n, hnode, by omega, hmatch, hpath hnode⟩
    · rintro ⟨ns, n, hnode, hdeep, hmatch, rfl⟩
      exact ⟨ns, n, hnode, hnone ns n hnode hdeep hmatch, by omega, hmatch, (hpath hnode).symm⟩

/-! ## Trees in a list -/

/-- The directories of a list can be opened. -/
def ofList (dirs : List (List UInt8 × List Dirent)) (path : List UInt8) : Opendir :=
  match dirs.lookup path with
  | some entries => .opened entries
  | none => .failed

instance (n : List UInt8) : Decidable (Special n) := inferInstanceAs (Decidable (_ ∨ _))

/-- The records of the directories are right. -/
def Closed (dirs : List (List UInt8 × List Dirent)) : Prop :=
  ∀ p ∈ dirs, (p.2.map Dirent.dName).Nodup ∧ ∀ d ∈ p.2, (d.dName ≠ [] ∧ slash ∉ d.dName) ∧
    (¬Special d.dName → (d.dType = DT_DIR ↔ ofList dirs (filePath p.1 d.dName) ≠ .failed))

instance (dirs : List (List UInt8 × List Dirent)) : Decidable (Closed dirs) :=
  inferInstanceAs (Decidable (∀ p ∈ dirs, _ ∧ _))

section
variable {dirs : List (List UInt8 × List Dirent)}

theorem mem_of_ofList (h : ofList dirs path = .opened entries) : (path, entries) ∈ dirs := by
  unfold ofList at h
  split at h
  · next hlookup =>
    obtain rfl := Opendir.opened.inj h
    obtain ⟨pre, post, rfl, -⟩ := List.lookup_eq_some_iff.1 hlookup
    simp
  · cases h

theorem tree_ofList (h : Closed dirs) (hne : path ≠ []) (hopened : ofList dirs path = .opened entries) :
    Tree (ofList dirs) path := by
  refine ⟨hne, by rw [hopened]; exact Opendir.noConfusion, fun ns _ es hes => ?_⟩
  obtain ⟨hdistinct, hrecords⟩ := h _ (mem_of_ofList hes)
  refine ⟨hdistinct, fun d hd => (hrecords d hd).1, fun d hd hs => ((hrecords d hd).2 hs).1, fun d hd hs es' hes' => ?_⟩
  refine ((hrecords d hd).2 hs).2 ?_
  rw [hes']
  exact Opendir.noConfusion

/-- A name on the way to an entry is in some directory. -/
theorem exists_mem_of_node (hnode : Node (ofList dirs) path ns) :
    ∀ n ∈ ns, ¬Special n ∧ ∃ p ∈ dirs, n ∈ p.2.map Dirent.dName := by
  induction ns generalizing path with
  | nil => exact fun n hn => absurd hn List.not_mem_nil
  | cons m ns ih =>
    obtain ⟨⟨es, hes, d, hd, rfl⟩, hspecial, hnode⟩ := hnode
    rw [List.forall_mem_cons]
    exact ⟨⟨hspecial, _, mem_of_ofList hes, List.mem_map_of_mem hd⟩, ih hnode⟩

theorem noneHidden_ofList (h : ∀ p ∈ dirs, ∀ n ∈ p.2.map Dirent.dName, Special n ∨ ¬Hidden n) :
    NoneHidden (ofList dirs) preg maxDepth path := by
  intro ns n hnode _ _ m hm
  obtain ⟨hspecial, p, hp, hmem⟩ := exists_mem_of_node hnode m hm
  exact (h p hp m hmem).resolve_left hspecial

theorem short_ofList (h : ∀ p ∈ dirs, ∀ n ∈ p.2.map Dirent.dName, (filePath p.1 n).length < STRINGSIZE)
    (hlisted : Listed (ofList dirs) path n) : (filePath path n).length < STRINGSIZE := by
  obtain ⟨es, hes, d, hd, rfl⟩ := hlisted
  exact h _ (mem_of_ofList hes) _ (List.mem_map_of_mem hd)

end

/-- The records of a directory. -/
def records (rest : List Dirent) : List Dirent := ⟨[dot], DT_DIR⟩ :: ⟨dotdot, DT_DIR⟩ :: rest

/-- `t` with the directory `d` and the file `f`, and in `d` the file `g`. -/
def twoLevels : List (List UInt8 × List Dirent) :=
  [([116], records [⟨[100], DT_DIR⟩, ⟨[102], 8⟩]), ([116, slash, 100], records [⟨[103], 8⟩])]

theorem twoLevels_found :
    Finds (ofList twoLevels) none 2 [116] (findDir (ofList twoLevels) none 2 STRINGSIZE [116] 1) ∧
    (findDir (ofList twoLevels) none 2 STRINGSIZE [116] 1).out =
      [[116, slash, 100], [116, slash, 100, slash, 103], [116, slash, 102]] := by
  refine ⟨(finds_iff (tree_ofList (by decide) (by decide) rfl) (Nat.le_refl STRINGSIZE)).2 ⟨?_, ?_⟩, by decide⟩
  · exact fun _ _ _ _ _ hlisted => short_ofList (by decide) hlisted
  · exact noneHidden_ofList (by decide)

/-- `t` with the file `.a`. -/
def hiddenFile : List (List UInt8 × List Dirent) := [([116], records [⟨[dot, 97], 8⟩])]

/-- A file whose name begins with a dot is missed. -/
theorem hidden_file_missed :
    ¬∀ (opendir : List UInt8 → Opendir) (preg : Option (List UInt8 → Bool)) (maxDepth : Nat) (start : List UInt8)
      (fuel : Nat), Tree opendir start →
        (∀ ns n, Node opendir start ns → Listed opendir (descend start ns) n →
          (filePath (descend start ns) n).length < STRINGSIZE) →
        STRINGSIZE ≤ fuel → Finds opendir preg maxDepth start (findDir opendir preg maxDepth fuel start 1) := by
  intro h
  have hfinds := h (ofList hiddenFile) none 1 [116] STRINGSIZE (tree_ofList (by decide) (by decide) rfl)
    (fun _ _ _ hlisted => short_ofList (by decide) hlisted) (Nat.le_refl STRINGSIZE)
  have hlisted : Listed (ofList hiddenFile) [116] [dot, 97] := ⟨_, rfl, ⟨[dot, 97], 8⟩, by decide, rfl⟩
  have hrun : findDir (ofList hiddenFile) none 1 STRINGSIZE [116] 1 = ⟨[], none⟩ := by decide
  have hprinted := (hfinds.exact _).2 ⟨[], [dot, 97], ⟨hlisted, by decide, trivial⟩, Nat.le_refl 1, rfl, rfl⟩
  rw [hrun] at hprinted
  cases hprinted

end OstepHw.Myfind
