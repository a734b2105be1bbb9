import Mathlib.Data.List.Induction
import Mathlib.Logic.Function.Basic

/-!
# `wish.c`: the search path

Model of the built-in `path` and of `searchPath` in `processes-shell/wish.c`.  `paths` is a function of the index,
`none` being `NULL`; the bound of `searchPath` is the size of the array.

* `path_entry` — what `path` writes, and what it leaves from before;
* `searchPath_eq` — the file that is found is the first one in the directories that are tried;
* `entry_run` — an entry after a sequence of commands is decided by the last one that wrote to it;
* `tried_run_iff` — **the sequences of commands after which the directories are those of the last one**.
-/

set_option autoImplicit false

namespace OstepHw.Shell

abbrev Str := List UInt8

def BUFF_SIZE : Nat := 256

/-- `"/bin"` -/
def bin : Str := [47, 98, 105, 110]

abbrev Paths := Nat → Option Str

/-- `paths` as it is initialised. -/
def initialPaths : Paths := fun i => if i = 0 then some bin else none

/-- The loop of `path` from index `i` on, and the `NULL` after it. -/
def storePaths : (args : List Str) → (i : Nat) → Paths → Paths
  | [], i, paths => Function.update paths (i + 1) none
  | arg :: args, i, paths => storePaths args (i + 1) (Function.update paths i (some arg))

/-- The branch of `executeCommands` for `path`, whose arguments are `args`. -/
def path (paths : Paths) (args : List Str) : Paths :=
  storePaths args 0 (Function.update paths 0 none)

/-- The loop of `searchPath` with `n` entries left in the array: the file name for which `access` succeeds. -/
def searchPathFrom (access : Str → Bool) (firstArg : Str) (paths : Paths) : (n i : Nat) → Option Str
  | 0, _ => none
  | n + 1, i =>
    match paths i with
    | none => none
    | some dir =>
      let file := (dir ++ 47 :: firstArg).take (BUFF_SIZE - 1)
      if access file then some file else searchPathFrom access firstArg paths n (i + 1)

def searchPath (access : Str → Bool) (firstArg : Str) (paths : Paths) : Option Str :=
  searchPathFrom access firstArg paths BUFF_SIZE 0

/-- The entries from `i` on, up to the first `NULL`. -/
def triedFrom (paths : Paths) : (n i : Nat) → List Str
  | 0, _ => []
  | n + 1, i =>
    match paths i with
    | none => []
    | some dir => dir :: triedFrom paths n (i + 1)

/-- The directories that `searchPath` tries. -/
def tried (paths : Paths) : List Str := triedFrom paths BUFF_SIZE 0

/-- One `path` command after the other. -/
def run (cmds : List (List Str)) : Paths := cmds.foldl path initialPaths

/-- What the directories should be. -/
def expected (cmds : List (List Str)) : List Str := cmds.getLast?.getD [bin]

/-! ## One command -/

theorem storePaths_entry (args : List Str) (i : Nat) (paths : Paths) (k : Nat) :
    storePaths args i paths k =
      if k = i + args.length + 1 then none
      else if i ≤ k ∧ k < i + args.length then args[k - i]?
      else paths k := by
  induction args generalizing i paths with
  | nil =>
    rw [storePaths, Function.update_apply]
    simp only [List.length_nil, Nat.add_zero]
    split
    · rfl
    · rw [if_neg (by omega)]
  | cons arg args ih =>
    rw [storePaths, ih, List.length_cons]
    by_cases hend : k = i + (args.length + 1) + 1
    · rw [if_pos (by omega), if_pos hend]
    rw [if_neg (by omega), if_neg hend]
    by_cases hfirst : k = i
    · subst hfirst
      rw [if_neg (by omega), if_pos (by omega), Function.update_self, Nat.sub_self, List.getElem?_cons_zero]
    rw [Function.update_of_ne hfirst]
    by_cases hlater : i + 1 ≤ k ∧ k < i + 1 + args.length
    · have hk : k - i = k - (i + 1) + 1 := by omega
      rw [if_pos hlater, if_pos (by omega), hk, List.getElem?_cons_succ]
    · rw [if_neg hlater, if_neg (by omega)]

/-- The arguments, the `NULL` one entry too far, and the old entries. -/
theorem path_entry (paths : Paths) (args : List Str) (k : Nat) :
    path paths args k =
      if k = args.length + 1 then none
      else if k < args.length then args[k]?
      else if k = 0 then none
      else paths k := by
  rw [path, storePaths_entry, Function.update_apply]
  simp only [Nat.zero_add, Nat.zero_le, true_and, Nat.sub_zero]

theorem searchPath_eq (access : Str → Bool) (firstArg : Str) (paths : Paths) :
    searchPath access firstArg paths =
      ((tried paths).map fun dir => (dir ++ 47 :: firstArg).take (BUFF_SIZE - 1)).find? access := by
  have hloop (n i : Nat) : searchPathFrom access firstArg paths n i =
      ((triedFrom paths n i).map fun dir => (dir ++ 47 :: firstArg).take (BUFF_SIZE - 1)).find? access := by
    induction n generalizing i with
    | zero => rfl
    | succ n ih =>
      rw [searchPathFrom, triedFrom]
      cases paths i with
      | none => rfl
      | some dir =>
        simp only [List.map_cons, List.find?_cons]
        split
        · next haccess => rw [haccess]
        · next haccess => rw [ih, Bool.eq_false_iff.2 haccess]
  exact hloop BUFF_SIZE 0

theorem triedFrom_eq {dirs : List Str} {paths : Paths} {n i : Nat}
    (hdirs : ∀ j, j < dirs.length → paths (i + j) = dirs[j]?) (hend : paths (i + dirs.length) = none)
    (hn : dirs.length < n) : triedFrom paths n i = dirs := by
  induction dirs generalizing n i with
  | nil =>
    obtain ⟨n, rfl⟩ := Nat.exists_eq_add_of_lt hn
    rw [List.length_nil, Nat.zero_add, triedFrom]
    simp only [List.length_nil, Nat.add_zero] at hend
    rw [hend]
  | cons dir dirs ih =>
    rw [List.length_cons] at hn hend
    obtain ⟨n, rfl⟩ : ∃ m, n = m + 1 := ⟨n - 1, by omega⟩
    have hfirst : paths i = some dir := hdirs 0 (Nat.zero_lt_succ _)
    have hrest : triedFrom paths n (i + 1) = dirs := by
      refine ih (fun j hj => ?_) ?_ (by omega)
      · rw [Nat.add_assoc, Nat.add_comm 1 j]
        exact hdirs (j + 1) (Nat.succ_lt_succ hj)
      · rw [Nat.add_assoc, Nat.add_comm 1]
        exact hend
    rw [triedFrom, hfirst]
    simp only
    rw [hrest]

/-! ## Sequences of commands -/

variable {paths : Paths} {args : List Str}

/-- Without arguments nothing is left to try. -/
theorem tried_path_nil (paths : Paths) : tried (path paths []) = [] := by
  have hfirst : path paths [] 0 = none := by
    rw [path_entry]
    rfl
  rw [tried, BUFF_SIZE, triedFrom, hfirst]

/-- The arguments are tried, and the entry behind them if it is not `NULL` from before. -/
theorem tried_path (hargs : args ≠ []) (hlen : args.length < BUFF_SIZE - 1) :
    tried (path paths args) = args ++ (paths args.length).toList := by
  have hpos : args.length ≠ 0 := fun h => hargs (List.length_eq_zero_iff.1 h)
  have hstored {k : Nat} (hk : k < args.length) : path paths args k = args[k]? := by
    rw [path_entry, if_neg (by omega), if_pos hk]
  have hold : path paths args args.length = paths args.length := by
    rw [path_entry, if_neg (by omega), if_neg (Nat.lt_irrefl _), if_neg hpos]
  have hterminator : path paths args (args.length + 1) = none := by
    rw [path_entry, if_pos rfl]
  unfold BUFF_SIZE at hlen
  cases hbehind : paths args.length with
  | none =>
    rw [Option.toList_none, List.append_nil]
    refine triedFrom_eq (fun k hk => ?_) ?_ (by unfold BUFF_SIZE; omega)
    · rw [Nat.zero_add]
      exact hstored hk
    · rw [Nat.zero_add, hold, hbehind]
  | some dir =>
    have htwo : (args ++ [dir]).length = args.length + 1 := List.length_append
    refine triedFrom_eq (fun k hk => ?_) ?_ (by rw [Option.toList_some, htwo, BUFF_SIZE]; omega)
    · rw [Option.toList_some, htwo] at hk
      rw [Option.toList_some, Nat.zero_add]
      by_cases hlast : k = args.length
      · rw [hlast, hold, hbehind, List.getElem?_concat_length]
      · rw [List.getElem?_append_left (by omega)]
        exact hstored (by omega)
    · rw [Option.toList_some, htwo, Nat.zero_add]
      exact hterminator

/-- The command writes entry `k`: one of its arguments, or the `NULL`. -/
def touches (k : Nat) (args : List Str) : Bool := k < args.length || args.length + 1 = k

/-- The last command that writes entry `k`. -/
def lastTouch (k : Nat) (cmds : List (List Str)) : Option (List Str) := cmds.reverse.find? (touches k)

/-- An entry is `NULL` exactly if the last command that wrote to it put its terminator there. -/
theorem entry_run {k : Nat} (hk : k ≠ 0) (cmds : List (List Str)) :
    run cmds k = none ↔ ∀ args, lastTouch k cmds = some args → args.length + 1 = k := by
  induction cmds using List.reverseRecOn with
  | nil =>
    refine iff_of_true (if_neg hk) fun args hlast => ?_
    cases hlast
  | append_singleton cmds args ih =>
    have hrun : run (cmds ++ [args]) k = path (run cmds) args k := by
      rw [run, List.foldl_append]
      rfl
    have hlast : lastTouch k (cmds ++ [args]) = if touches k args then some args else lastTouch k cmds := by
      rw [lastTouch, List.reverse_append, List.reverse_singleton, List.singleton_append, List.find?_cons]
      cases touches k args <;> rfl
    rw [hrun, hlast, path_entry]
    by_cases hend : k = args.length + 1
    · have htouches : touches k args = true := by simp [touches, hend]
      rw [if_pos hend, if_pos htouches]
      refine iff_of_true rfl fun args' h => ?_
      rw [← Option.some.inj h, hend]
    rw [if_neg hend]
    by_cases hstored : k < args.length
    · have htouches : touches k args = true := by simp [touches, hstored]
      rw [if_pos hstored, if_pos htouches, List.getElem?_eq_getElem hstored]
      refine iff_of_false (Option.some_ne_none _) fun h => ?_
      have := h args rfl
      omega
    · have htouches : ¬touches k args = true := by
        rw [touches, Bool.or_eq_true, decide_eq_true_eq, decide_eq_true_eq]
        omega
      rw [if_neg hstored, if_neg hk, if_neg htouches, ih]

theorem run_concat (cmds : List (List Str)) (args : List Str) : run (cmds ++ [args]) = path (run cmds) args := by
  rw [run, List.foldl_append]
  rfl

theorem expected_concat (cmds : List (List Str)) (args : List Str) : expected (cmds ++ [args]) = args := by
  rw [expected, List.getLast?_concat]
  rfl

/-- **The directories are those of the last command** exactly if it has no arguments, or if the entry behind its
arguments is `NULL` already: the last of the earlier commands that wrote to it has one argument less. -/
theorem tried_run_iff (cmds : List (List Str)) (hlen : ∀ args ∈ cmds, args.length < BUFF_SIZE - 1) :
    tried (run cmds) = expected cmds ↔
      ∀ earlier last, cmds = earlier ++ [last] →
        last = [] ∨ ∀ args, lastTouch last.length earlier = some args → args.length + 1 = last.length := by
  induction cmds using List.reverseRecOn with
  | nil =>
    refine iff_of_true (by decide) fun earlier last h => ?_
    exact absurd h (by simp)
  | append_singleton earlier last _ =>
    have hunique (P : List (List Str) → List Str → Prop) :
        (∀ earlier' last', earlier ++ [last] = earlier' ++ [last'] → P earlier' last') ↔ P earlier last := by
      refine ⟨fun h => h earlier last rfl, fun h earlier' last' heq => ?_⟩
      obtain ⟨rfl, hlast⟩ := List.append_inj' heq rfl
      obtain rfl := List.singleton_inj.1 hlast
      exact h
    rw [hunique fun earlier last => last = [] ∨ ∀ args, lastTouch last.length earlier = some args →
      args.length + 1 = last.length, run_concat, expected_concat]
    by_cases hnil : last = []
    · subst hnil
      exact iff_of_true (tried_path_nil _) (.inl rfl)
    · have hlast : last.length < BUFF_SIZE - 1 :=
        hlen last (List.mem_append_right earlier (List.mem_singleton_self last))
      have hk : last.length ≠ 0 := fun h => hnil (List.length_eq_zero_iff.1 h)
      rw [tried_path hnil hlast, or_iff_right hnil, ← entry_run hk, List.append_right_eq_self]
      cases run earlier last.length <;> simp

/-- `path a b` after `path c`. -/
theorem longer_path_tried : tried (run [[[99]], [[97], [98]]]) = [[97], [98]] :=
  (tried_run_iff [[[99]], [[97], [98]]] (by decide)).2 fun earlier last h => by
    obtain ⟨rfl, hlast⟩ := List.append_inj' (show [[[99]]] ++ [[[97], [98]]] = earlier ++ [last] from h) rfl
    obtain rfl := List.singleton_inj.1 hlast
    exact .inr (by decide)

/-- `path c` after `path a b`: the directory `b` is still tried. -/
theorem shorter_path_tried : tried (run [[[97], [98]], [[99]]]) = [[99], [98]] ∧
    tried (run [[[97], [98]], [[99]]]) ≠ expected [[[97], [98]], [[99]]] := by
  decide

end OstepHw.Shell
