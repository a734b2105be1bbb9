import OstepHw.Lib.Words
import OstepHw.Shell.Path

/-!
# `wish.c`: one command

Model of `parseInput`, `trim` and what they use of the library, in `processes-shell/wish.c`.  Strings are lists of
bytes; `fopen` is a parameter, and compiling the regular expression `\S\s+\S` does not fail.

* `parseArgs_eq` — splitting with `strsep` and trimming gives the words;
* `grammar` — what a command should do;
* `parseInput_eq_iff` — **the commands that do it**: all but a redirection behind white space alone.
-/

set_option autoImplicit false

namespace OstepHw.Shell

open Words

/-- `isspace` in the C locale. -/
def isspace (c : UInt8) : Bool := c = 32 || (9 ≤ c && c ≤ 13)

/-- `'>'` -/
def gt : UInt8 := 62

/-- The token before the first delimiter, and the string behind it. -/
def strsep (delim : UInt8 → Bool) (s : Str) : Str × Option Str :=
  match s.dropWhile fun c => !delim c with
  | [] => (s, none)
  | _ :: rest => (s.takeWhile fun c => !delim c, some rest)

/-- The second loop stops before the first character, which is no white space. -/
def trim (s : Str) : Str := (s.dropWhile isspace).rdropWhile isspace

/-- What `parseInput` does: whether it prints an error, the file it opens, and the call of `executeCommands`. -/
structure Parsed where
  error : Bool
  opened : Option Str
  executed : Option (List Str)
  deriving DecidableEq

def failed : Parsed := ⟨true, none, none⟩

/-- `" \t"` -/
def blank (c : UInt8) : Bool := c = 32 || c = 9

theorem strsep_length {delim : UInt8 → Bool} {s t r : Str} (h : strsep delim s = (t, some r)) :
    r.length < s.length := by
  unfold strsep at h
  have hle := (List.dropWhile_sublist (fun c => !delim c) (l := s)).length_le
  cases hd : s.dropWhile fun c => !delim c with
  | nil => simp [hd] at h
  | cons c rest =>
    rw [hd, List.length_cons] at hle
    simp only [hd, Prod.mk.injEq, Option.some.injEq] at h
    rw [← h.2]
    omega

/-- The loop that fills `args`; `command` is `none` when `strsep` is done. -/
def parseArgs (args : List Str) (command : Option Str) : List Str :=
  match command with
  | none => args
  | some s =>
    match _hsep : strsep blank s with
    | (ap, rest) =>
      if ap = [] then parseArgs args rest
      else
        let args := args ++ [trim ap]
        if args.length ≥ BUFF_SIZE then args else parseArgs args rest
termination_by command.elim 0 (·.length + 1)
decreasing_by
  all_goals
    cases rest with
    | none => simp
    | some r =>
      have := strsep_length _hsep
      simp only [Option.elim]
      omega

/-- What follows when `output` is open. -/
def execute (opened : Option Str) (command : Str) : Parsed :=
  let args := parseArgs [] (some command)
  ⟨false, opened, if args.length > 0 then some args else none⟩

instance (s : Str) : Decidable (Gap isspace s) :=
  decidable_of_iff (2 ≤ (words isspace s).length) gap_iff.symm

def parseInput (fopen : Str → Bool) (command : Str) : Parsed :=
  let (command, commandLine) := strsep (· = gt) command
  if command = [] then failed
  else
    let command := trim command
    match commandLine with
    | none => execute none command
    | some commandLine =>
      if Gap isspace commandLine ∨ gt ∈ commandLine then failed
      else
        let name := trim commandLine
        if fopen name then execute (some name) command else failed

/-! ## The grammar -/

/-- What a command should do, with `left` before the first `>` and `right` behind it. -/
def grammar (s : Str) : Parsed :=
  let left := words isspace (s.takeWhile (· ≠ gt))
  let executed := if left.length > 0 then some left else none
  match s.dropWhile (· ≠ gt) with
  | [] => ⟨false, none, executed⟩
  | _ :: right =>
    if left = [] ∨ gt ∈ right then failed
    else
      match words isspace right with
      | [name] => ⟨false, some name, executed⟩
      | _ => failed

/-- Only white space stands before the first `>`, and one word behind it. -/
def BlankRedirect (s : Str) : Prop :=
  ∃ left right, strsep (· = gt) s = (left, some right) ∧ left ≠ [] ∧ words isspace left = [] ∧ gt ∉ right ∧
    (words isspace right).length = 1

/-! ## Splitting -/

variable {delim : UInt8 → Bool} {s t r : Str} {args : List Str}

theorem strsep_of_clear (hclear : ∀ c ∈ s, delim c = false) : strsep delim s = (s, none) := by
  have hdrop : (s.dropWhile fun c => !delim c) = [] :=
    List.dropWhile_eq_nil_iff.2 fun c hc => by simp [hclear c hc]
  rw [strsep, hdrop]

theorem strsep_append_cons (hclear : ∀ c ∈ t, delim c = false) {c : UInt8} (hc : delim c = true) (r : Str) :
    strsep delim (t ++ c :: r) = (t, some r) := by
  have hpos : ∀ d ∈ t, (!delim d) = true := fun d hd => by rw [hclear d hd]; rfl
  have hneg : ¬(!delim c) = true := by simp [hc]
  have hdrop : ((t ++ c :: r).dropWhile fun d => !delim d) = c :: r := by
    rw [List.dropWhile_append_of_pos hpos]
    exact List.dropWhile_cons_of_neg hneg
  have htake : ((t ++ c :: r).takeWhile fun d => !delim d) = t := by
    rw [List.takeWhile_append_of_pos hpos, show (c :: r).takeWhile (fun d => !delim d) = [] from
      List.takeWhile_cons_of_neg hneg, List.append_nil]
  rw [strsep, hdrop]
  simp only [htake]

theorem parseArgs_none : parseArgs args none = args := by rw [parseArgs]

/-- One turn of the loop, as long as there is room. -/
theorem parseArgs_turn {rest : Option Str} (hstep : strsep blank s = (t, rest)) (hclear : ∀ c ∈ t, isspace c = false)
    (hroom : args.length + (words isspace t).length < BUFF_SIZE) :
    parseArgs args (some s) = parseArgs (args ++ words isspace t) rest := by
  rw [parseArgs]
  split
  next ap rest' hsep =>
    rw [hstep, Prod.mk.injEq] at hsep
    obtain ⟨rfl, rfl⟩ := hsep
    by_cases hnil : t = []
    · rw [if_pos hnil, hnil, words_nil, List.append_nil]
    · have htrim : trim t = t := trim_token hclear
      rw [words_token hnil hclear] at hroom ⊢
      have hfree : ¬(args ++ [t]).length ≥ BUFF_SIZE := by
        rw [List.length_append]
        omega
      rw [if_neg hnil, htrim]
      exact if_neg hfree

/-- A string whose white space is spaces and tabs is split into its words. -/
theorem parseArgs_eq (hspace : ∀ c ∈ s, isspace c = blank c)
    (hroom : args.length + (words isspace s).length < BUFF_SIZE) :
    parseArgs args (some s) = args ++ words isspace s := by
  induction hlen : s.length using Nat.strong_induction_on generalizing s args with
  | _ n ih =>
    rcases clear_or_split blank s with hclear | ⟨t, c, r, rfl, ht, hc⟩
    · have htoken : ∀ c ∈ s, isspace c = false := fun c hcs => (hspace c hcs).trans (hclear c hcs)
      rw [parseArgs_turn (strsep_of_clear hclear) htoken hroom, parseArgs_none]
    · have htoken : ∀ d ∈ t, isspace d = false := fun d hd =>
        (hspace d (List.mem_append_left _ hd)).trans (ht d hd)
      have hsep : isspace c = true := (hspace c (by simp)).trans hc
      have hrest : ∀ d ∈ r, isspace d = blank d := fun d hd => hspace d (by simp [hd])
      have hshort : r.length < n := by
        rw [← hlen, List.length_append, List.length_cons]
        omega
      rw [words_append_cons t r hsep, List.length_append] at hroom
      rw [parseArgs_turn (strsep_append_cons ht hc r) htoken (by omega), words_append_cons t r hsep,
        ih r.length hshort hrest (by rw [List.length_append]; omega) rfl, List.append_assoc]

/-! ## The parser -/

theorem isspace_eq_blank {c : UInt8} (hspace : isspace c = true → c = 32 ∨ c = 9) : isspace c = blank c := by
  have hblank : blank c = true → isspace c = true := by
    intro hblank
    have hc : c = 32 ∨ c = 9 := by simpa [blank] using hblank
    rcases hc with rfl | rfl <;> rfl
  rw [Bool.eq_iff_iff]
  exact ⟨fun h => by simpa [blank] using hspace h, hblank⟩

/-- What `executeCommands` is called with. -/
def call (left : Str) : Option (List Str) :=
  if (words isspace left).length > 0 then some (words isspace left) else none

theorem grammar_of_not_mem (hgt : gt ∉ s) : grammar s = ⟨false, none, call s⟩ := by
  have hall : ∀ c ∈ s, decide (c ≠ gt) = true := fun c hc => decide_eq_true fun h => hgt (h ▸ hc)
  rw [grammar, List.takeWhile_eq_self_iff.2 hall, List.dropWhile_eq_nil_iff.2 hall]
  rfl

theorem grammar_append_cons {left : Str} (hgt : gt ∉ left) (right : Str) :
    grammar (left ++ gt :: right) =
      if words isspace left = [] ∨ gt ∈ right then failed
      else
        match words isspace right with
        | [name] => ⟨false, some name, call left⟩
        | _ => failed := by
  have hall : ∀ c ∈ left, decide (c ≠ gt) = true := fun c hc => decide_eq_true fun h => hgt (h ▸ hc)
  have htake : (left ++ gt :: right).takeWhile (· ≠ gt) = left := by
    rw [List.takeWhile_append_of_pos hall]
    simp
  have hdrop : (left ++ gt :: right).dropWhile (· ≠ gt) = gt :: right := by
    rw [List.dropWhile_append_of_pos hall]
    simp
  rw [grammar, htake, hdrop]
  rfl

/-- What is done with the part before `>`, once the output is open. -/
theorem execute_eq (opened : Option Str) (hspace : ∀ c ∈ s, isspace c = blank c)
    (hroom : (words isspace s).length < BUFF_SIZE) :
    execute opened (trim s) =
      ⟨false, opened, call s⟩ := by
  have hwords : words isspace (trim s) = words isspace s := by
    rw [trim, words_rdropWhile, words_dropWhile]
  have hargs : parseArgs [] (some (trim s)) = words isspace s := by
    rw [parseArgs_eq (fun c hc => hspace c ?_) (by rw [hwords, List.length_nil, Nat.zero_add]; exact hroom), hwords,
      List.nil_append]
    exact (List.dropWhile_sublist isspace).subset ((List.rdropWhile_prefix isspace _).subset hc)
  rw [execute, hargs]
  rfl

/-! ## The redirection -/

theorem clear_of_not_mem (hgt : gt ∉ s) : ∀ c ∈ s, decide (c = gt) = false := by
  intro c hc
  refine decide_eq_false ?_
  rintro rfl
  exact hgt hc

theorem strsep_of_not_mem (hgt : gt ∉ s) : strsep (· = gt) s = (s, none) :=
  strsep_of_clear (clear_of_not_mem hgt)

theorem strsep_redirect {left : Str} (hgt : gt ∉ left) (right : Str) :
    strsep (· = gt) (left ++ gt :: right) = (left, some right) :=
  strsep_append_cons (clear_of_not_mem hgt) (decide_eq_true rfl) right

/-- The one word behind `>`. -/
def output (right : Str) : Option Str :=
  match words isspace right with
  | [name] => if gt ∈ right then none else some name
  | _ => none

theorem output_eq_some {right name : Str} : output right = some name ↔ gt ∉ right ∧ words isspace right = [name] := by
  unfold output
  match hwords : words isspace right with
  | [] => simp
  | [w] => by_cases hright : gt ∈ right <;> simp [hright]
  | _ :: _ :: _ => simp

theorem output_isSome {right : Str} : (output right).isSome ↔ gt ∉ right ∧ (words isspace right).length = 1 := by
  rw [Option.isSome_iff_exists, List.length_eq_one_iff, ← exists_and_left]
  exact exists_congr fun name => output_eq_some

/-- The tests of `parseInput` find the word, and nothing else. -/
theorem redirect_eq (fopen : Str → Bool) (hfopen : ∀ name, fopen name = true ↔ name ≠ []) (command right : Str) :
    (if Gap isspace right ∨ gt ∈ right then failed
      else if fopen (trim right) then execute (some (trim right)) command else failed) =
      (output right).elim failed fun name => execute (some name) command := by
  unfold output
  by_cases hright : gt ∈ right
  · rw [if_pos (.inr hright)]
    split <;> simp [hright]
  match hwords : words isspace right with
  | [] =>
    have hgap : ¬Gap isspace right := by simp [gap_iff, hwords]
    have hname : fopen (trim right) = false := by
      rw [trim, trim_of_words_nil hwords, Bool.eq_false_iff, Ne, hfopen]
      simp
    simp [hgap, hright, hname]
  | [name] =>
    have hgap : ¬Gap isspace right := by simp [gap_iff, hwords]
    have hname : trim right = name := trim_of_words_eq hwords
    have hopens : fopen name = true := (hfopen name).2 (of_mem_words (hwords ▸ List.mem_singleton_self name)).1
    simp [hgap, hright, hname, hopens]
  | _ :: _ :: _ =>
    have hgap : Gap isspace right := by simp [gap_iff, hwords]
    simp [hgap]

theorem grammar_redirect {left : Str} (hgt : gt ∉ left) (right : Str) :
    grammar (left ++ gt :: right) =
      if words isspace left = [] then failed
      else (output right).elim failed fun name => ⟨false, some name, call left⟩ := by
  rw [grammar_append_cons hgt, output]
  by_cases hleft : words isspace left = []
  · rw [if_pos hleft, if_pos (.inl hleft)]
  rw [if_neg hleft]
  by_cases hright : gt ∈ right
  · rw [if_pos (.inr hright)]
    split <;> simp [hright]
  · rw [if_neg (not_or.2 ⟨hleft, hright⟩)]
    split <;> simp [hright]

theorem blankRedirect_iff {left : Str} (hgt : gt ∉ left) (right : Str) :
    BlankRedirect (left ++ gt :: right) ↔ left ≠ [] ∧ words isspace left = [] ∧ (output right).isSome := by
  rw [output_isSome]
  constructor
  · rintro ⟨left', right', hsep, hrest⟩
    rw [strsep_redirect hgt, Prod.mk.injEq, Option.some.injEq] at hsep
    rw [hsep.1, hsep.2]
    exact hrest
  · exact fun h => ⟨left, right, strsep_redirect hgt right, h⟩

theorem not_blankRedirect (hgt : gt ∉ s) : ¬BlankRedirect s := by
  rintro ⟨left, right, hsep, -⟩
  rw [strsep_of_not_mem hgt, Prod.mk.injEq] at hsep
  cases hsep.2

/-- **The grammar is kept** exactly by the commands without a redirection of nothing. -/
theorem parseInput_eq_iff (fopen : Str → Bool) (hfopen : ∀ name, fopen name = true ↔ name ≠ []) (s : Str)
    (hne : s ≠ []) (hspace : ∀ c ∈ s, isspace c = true → c = 32 ∨ c = 9)
    (htokens : (words isspace s).length < BUFF_SIZE) :
    parseInput fopen s = grammar s ↔ ¬BlankRedirect s := by
  have hblank : ∀ c ∈ s, isspace c = blank c := fun c hc => isspace_eq_blank (hspace c hc)
  by_cases hgt : gt ∈ s
  · obtain ⟨left, right, rfl, hleft⟩ := List.eq_append_cons_of_mem hgt
    have hexecute (name : Str) : execute (some name) (trim left) = ⟨false, some name, call left⟩ :=
      execute_eq (some name) (fun c hc => hblank c (List.mem_append_left _ hc))
        (Nat.lt_of_le_of_lt (length_words_le_append left _) htokens)
    rw [parseInput, strsep_redirect hleft, grammar_redirect hleft, blankRedirect_iff hleft]
    dsimp only
    by_cases hnil : left = []
    · rw [if_pos hnil, hnil, words_nil, if_pos rfl]
      exact iff_of_true rfl fun h => h.1 rfl
    rw [if_neg hnil, redirect_eq fopen hfopen]
    by_cases hwords : words isspace left = []
    · rw [if_pos hwords]
      -- nothing is run, but the output is open
      cases hout : output right with
      | none => exact iff_of_true rfl fun h => by cases h.2.2
      | some name =>
        refine iff_of_false (fun h => ?_) fun h => h ⟨hnil, hwords, rfl⟩
        rw [Option.elim_some, hexecute] at h
        cases h
    · rw [if_neg hwords]
      refine iff_of_true ?_ fun h => hwords h.2.1
      cases output right with
      | none => rfl
      | some name => exact hexecute name
  · rw [parseInput, strsep_of_not_mem hgt, grammar_of_not_mem hgt]
    dsimp only
    rw [if_neg hne]
    exact iff_of_true (execute_eq none hblank htokens) (not_blankRedirect hgt)

/-- `a>b` -/
theorem redirect_grammar :
    parseInput (fun name => decide (name ≠ [])) [97, 62, 98] = grammar [97, 62, 98] :=
  (parseInput_eq_iff (fun name => decide (name ≠ [])) (fun name => by simp) [97, 62, 98] (by decide)
    (by simp [isspace]) (by decide)).2 (by
      rintro ⟨left, right, hsep, -, hleft, -⟩
      have hcommand : strsep (fun c => decide (c = gt)) [97, 62, 98] = ([97], some [98]) := by decide
      rw [hcommand, Prod.mk.injEq] at hsep
      rw [← hsep.1] at hleft
      exact absurd hleft (by decide))

/-- A blank and `>b`: the file is opened and no error is reported. -/
theorem blank_redirect_opens :
    (parseInput (fun name => decide (name ≠ [])) [32, 62, 98]).error = false ∧
      (parseInput (fun name => decide (name ≠ [])) [32, 62, 98]).opened = some [98] ∧
      (grammar [32, 62, 98]).error = true ∧
      parseInput (fun name => decide (name ≠ [])) [32, 62, 98] ≠ grammar [32, 62, 98] := by
  have hparse : parseInput (fun name => decide (name ≠ [])) [32, 62, 98] = execute (some [98]) [] := rfl
  have hgrammar : grammar [32, 62, 98] = failed := by decide
  rw [hparse, hgrammar]
  exact ⟨rfl, rfl, rfl, fun h => absurd (congrArg Parsed.error h) (by decide)⟩

end OstepHw.Shell
