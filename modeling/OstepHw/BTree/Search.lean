import OstepHw.BTree.Contents
import Mathlib.Data.List.FinRange

/-!
# Looking up a key

Model of `search`, as `DEBUG_APPLE_IN_AMAZON` compiles it.  Keys are compared as pointers there; equal keys are passed
as one pointer, so the keys are compared themselves.  `put` is that of the default build: what the other one adds to it
prints the tree (`toString`, in an array of 1 MiB) and leaves it as it is.

* `search_spec` — the search ends in a leaf, behind which all keys are larger, and which begins with a key that is not
  larger when there are leaves in front of it;
* `search_finds_earliest` — **what a search returns** after any calls.
-/

set_option autoImplicit false

namespace OstepHw.BTree

open StableSort

/-- `search`: the value may be `NULL`, and so is the result when there is no entry; the outer `none` is a `NULL` that
is dereferenced. -/
def search (x : Node) (key : CStr) : (ht : Nat) → Option (Option CStr)
  | 0 => some ((x.children.find? fun e => e.key = key).bind Entry.val)
  | ht + 1 =>
    match x.children.drop (route key x) with
    | [] => some none
    | c :: _ => do
      let next ← c.next
      search next key ht

/-- The entries of each leaf, from left to right. -/
def leafNodes : Nat → Node → List (List (Entry Node))
  | 0, h => [h.children]
  | ht + 1, h => h.children.flatMap fun e => e.next.elim [] (leafNodes ht)

variable {ht : Nat} {h : Node} {key : CStr}

theorem leafNodes_succ (ht : Nat) (h : Node) :
    leafNodes (ht + 1) h = h.children.flatMap fun e => e.next.elim [] (leafNodes ht) := rfl

theorem flatten_leafNodes : ∀ (ht : Nat) (h : Node), (leafNodes ht h).flatten = leaves ht h
  | 0, h => by rw [leaves_zero, leafNodes, List.flatten_singleton]
  | ht + 1, h => by
    rw [leafNodes, leaves, List.flatMap_def, List.flatten_flatten, List.map_map, ← List.flatMap_def]
    congr 1
    funext e
    rw [Function.comp_apply]
    cases hnext : e.next with
    | none => rw [entryLeaves, hnext]; rfl
    | some c => rw [entryLeaves_succ hnext]; exact flatten_leafNodes ht c

/-! ## Where a search ends -/

/-- The leaf `leaf` among the leaves below a node, and what the search finds in it. -/
structure EndsAt (ht : Nat) (h : Node) (key : CStr) (front : List (List (Entry Node))) (leaf : List (Entry Node))
    (behind : List (List (Entry Node))) : Prop where
  split : leafNodes ht h = front ++ leaf :: behind
  found : search h key ht = some ((leaf.find? fun e => e.key = key).bind Entry.val)
  lt : ∀ e ∈ behind.flatten, key.ord < keyOf e
  le : front ≠ [] → ∃ e ∈ leaf, keyOf e ≤ key.ord

theorem search_zero_spec (h : Node) (key : CStr) : EndsAt 0 h key [] h.children [] :=
  ⟨rfl, rfl, fun _ he => absurd he List.not_mem_nil, fun hne => absurd rfl hne⟩

theorem search_succ_eq {l r : List (Entry Node)} {c : Entry Node} {nx : Node} (heq : h.children = l ++ c :: r)
    (hroute : route key h = l.length) (hnx : c.next = some nx) : search h key (ht + 1) = search nx key ht := by
  rw [search, hroute, heq, List.drop_left]
  simp [hnx]

/-- The search goes on below the entry `c`. -/
theorem EndsAt.succ {l r : List (Entry Node)} {c : Entry Node} {nx : Node} {front behind : List (List (Entry Node))}
    {leaf : List (Entry Node)} (hends : EndsAt ht nx key front leaf behind) (heq : h.children = l ++ c :: r)
    (hroute : route key h = l.length) (hnx : c.next = some nx)
    (hgt : ∀ e ∈ r.flatMap (entryLeaves (ht + 1)), key.ord < keyOf e)
    (hfirst : l ≠ [] → ∃ e ∈ leaves ht nx, keyOf e ≤ key.ord) :
    EndsAt (ht + 1) h key ((leafNodes (ht + 1) (.mk l)) ++ front) leaf (behind ++ leafNodes (ht + 1) (.mk r)) where
  split := by
    simp only [leafNodes_succ, heq, List.flatMap_append, List.flatMap_cons, hnx, Option.elim_some, hends.split,
      Node.children_mk, List.append_assoc, List.cons_append]
  found := (search_succ_eq heq hroute hnx).trans hends.found
  lt e he := by
    rw [List.flatten_append, flatten_leafNodes] at he
    rcases List.mem_append.mp he with he | he
    · exact hends.lt e he
    · exact hgt e he
  le hne := by
    by_cases hfront : front = []
    · rw [hfront, List.append_nil] at hne
      have hl : l ≠ [] := by
        rintro rfl
        exact hne rfl
      obtain ⟨e, he, hle⟩ := hfirst hl
      rw [← flatten_leafNodes, hends.split, hfront, List.nil_append, List.flatten_cons] at he
      -- what lies behind the leaf is larger
      rcases List.mem_append.mp he with he | he
      · exact ⟨e, he, hle⟩
      · exact absurd (hends.lt e he) (not_lt.mpr hle)
    · exact hends.le hfront

/-- **Where a search ends** in a node of any height. -/
theorem search_spec (key : CStr) : ∀ (ht : Nat) (h : Node), EntriesOk ht h.children → (ht ≠ 0 → 0 < h.m) →
    Sorted keyOf (leaves ht h) → ∃ front leaf behind, EndsAt ht h key front leaf behind
  | 0, h, _, _, _ => ⟨[], h.children, [], search_zero_spec h key⟩
  | ht + 1, h, hok, hpos, hs => by
    obtain ⟨l, r, c, nx, hr⟩ := exists_routed key hok (hpos (Nat.succ_ne_zero ht)) hs
    have hm : ht ≠ 0 → 0 < nx.m := fun _ => hr.pos
    obtain ⟨front, leaf, behind, hends⟩ := search_spec key ht nx hr.entries hm hr.sorted
    refine ⟨_, _, _, hends.succ hr.children hr.route hr.next hr.lt fun hne => ?_⟩
    exact hr.exists_le hok hne

/-- A key that is stored is in the leaf where the search for it ends. -/
theorem EndsAt.exists_mem_leaf {front behind : List (List (Entry Node))} {leaf : List (Entry Node)}
    (hends : EndsAt ht h key front leaf behind) (hs : Sorted keyOf (leaves ht h)) {x : Entry Node}
    (hx : x ∈ leaves ht h) (hkey : x.key = key) : ∃ e ∈ leaf, e.key = key := by
  have hkeyOf : keyOf x = key.ord := congrArg CStr.ord hkey
  rw [← flatten_leafNodes, hends.split, List.flatten_append, List.flatten_cons] at hs hx
  rcases List.mem_append.mp hx with hfront | hx
  · have hne : front ≠ [] := by
      rintro rfl
      cases hfront
    obtain ⟨e, he, hle⟩ := hends.le hne
    have hxe : keyOf x ≤ keyOf e := (List.pairwise_append.mp hs).2.2 x hfront e (List.mem_append_left _ he)
    exact ⟨e, he, CStr.ord_injective (le_antisymm hle (hkeyOf ▸ hxe))⟩
  · rcases List.mem_append.mp hx with hleaf | hbehind
    · exact ⟨x, hleaf, hkey⟩
    · exact absurd hkeyOf (hends.lt x hbehind).ne'

/-! ## Which call an entry comes from -/

/-- A list that is cut into pieces after a map may be cut before it. -/
theorem exists_flatten_eq {α β : Type} {f : α → β} {pieces : List (List β)} {l : List α}
    (h : pieces.flatten = l.map f) : ∃ cut : List (List α), cut.flatten = l ∧ pieces = cut.map (List.map f) := by
  induction pieces generalizing l with
  | nil => exact ⟨[], (List.map_eq_nil_iff.mp h.symm).symm, rfl⟩
  | cons piece pieces ih =>
    obtain ⟨l₁, l₂, rfl, hpiece, hrest⟩ := List.map_eq_append_iff.mp h.symm
    obtain ⟨cut, rfl, rfl⟩ := ih hrest.symm
    exact ⟨l₁ :: cut, rfl, by rw [List.map_cons, hpiece]⟩

variable {calls : List (CStr × Option CStr)}

/-- The calls, each by its number, in the order of their entries: a call comes behind the earlier ones for its key. -/
def inOrder (calls : List (CStr × Option CStr)) : List (Fin calls.length) :=
  (List.finRange calls.length).mergeSort fun i j => decide (strcmp (calls.get i).1 (calls.get j).1 ≤ 0)

/-- The calls that the entries of each leaf come from. -/
structure Placed (calls : List (CStr × Option CStr)) (b : Btree) (placed : List (List (Fin calls.length))) : Prop where
  order : placed.flatten = inOrder calls
  entries : (leafNodes b.height b.root).map (List.map pairOf) = placed.map (List.map calls.get)

theorem le_strcmp : (fun i j : Fin calls.length => decide (strcmp (calls.get i).1 (calls.get j).1 ≤ 0)) =
    le fun i => (calls.get i).1.ord := by
  funext i j
  exact decide_eq_decide.mpr strcmp_nonpos_iff

theorem map_inOrder (calls : List (CStr × Option CStr)) :
    (inOrder calls).map calls.get = calls.mergeSort (le fun c => c.1.ord) := by
  have hmap := List.map_mergeSort (f := calls.get) (r := le fun i => (calls.get i).1.ord) (s := le fun c => c.1.ord)
    (l := List.finRange calls.length) fun _ _ _ _ => rfl
  rw [inOrder, le_strcmp, hmap, List.map_get_finRange]

/-- Calls with one key are in their order. -/
theorem inOrder_filter (calls : List (CStr × Option CStr)) (k : List ℕ) :
    ((inOrder calls).filter fun i => (calls.get i).1.ord = k).Pairwise (· < ·) := by
  have hfilter := filter_mergeSort (f := fun i => (calls.get i).1.ord) (List.finRange calls.length) k
  have hpair := (List.pairwise_lt_finRange calls.length).filter fun i => decide ((calls.get i).1.ord = k)
  rw [inOrder, le_strcmp]
  convert hpair using 1
  convert hfilter

theorem exists_placed {b : Btree} (hc : b.contents = calls.mergeSort (le fun c => c.1.ord)) :
    ∃ placed, Placed calls b placed := by
  have hflat : ((leafNodes b.height b.root).map (List.map pairOf)).flatten = (inOrder calls).map calls.get := by
    rw [← List.map_flatten, flatten_leafNodes, map_inOrder]
    exact hc
  obtain ⟨placed, horder, hentries⟩ := exists_flatten_eq hflat
  exact ⟨placed, horder, hentries⟩

/-- A search of a leaf is a search among its calls. -/
theorem find?_leaf {leaf : List (Entry Node)} {numbers : List (Fin calls.length)}
    (h : leaf.map pairOf = numbers.map calls.get) (key : CStr) :
    (leaf.find? fun e => e.key = key).bind Entry.val =
      (numbers.find? fun i => (calls.get i).1 = key).bind fun i => (calls.get i).2 := by
  have hfind := congrArg (fun l => (l.find? fun c : CStr × Option CStr => c.1 = key).bind Prod.snd) h
  simp only [List.find?_map, Option.bind_map] at hfind
  exact hfind

/-- The first call for a key among those of a leaf is the earliest. -/
theorem Placed.find?_earliest {b : Btree} {front behind : List (List (Fin calls.length))}
    {leaf : List (Fin calls.length)} (hplaced : Placed calls b (front ++ leaf :: behind)) {i : Fin calls.length}
    (hi : leaf.find? (fun i => (calls.get i).1 = key) = some i) :
    i ∈ leaf ∧ (calls.get i).1 = key ∧ ∀ j ∈ leaf, (calls.get j).1 = key → i ≤ j := by
  have hkey : (calls.get i).1 = key := by simpa using List.find?_some hi
  refine ⟨List.mem_of_find?_eq_some hi, hkey, fun j hj hjkey => ?_⟩
  obtain ⟨-, l, r, hleaf, hl⟩ := List.find?_eq_some_iff_append.mp hi
  have hsub : (leaf.filter fun i => (calls.get i).1.ord = key.ord).Sublist
      ((inOrder calls).filter fun i => (calls.get i).1.ord = key.ord) := by
    rw [← hplaced.order, List.flatten_append, List.flatten_cons]
    exact ((List.sublist_append_left leaf _).trans (List.sublist_append_right _ _)).filter _
  have hpair := (inOrder_filter calls key.ord).sublist hsub
  rw [hleaf, List.filter_append, List.filter_cons, if_pos (decide_eq_true (congrArg CStr.ord hkey))] at hpair
  rw [hleaf] at hj
  rcases List.mem_append.mp hj with hj | hj
  · exact absurd hjkey (by simpa using hl j hj)
  · rcases List.mem_cons.mp hj with rfl | hj
    · exact le_rfl
    · have hmem : j ∈ r.filter fun i => (calls.get i).1.ord = key.ord :=
        List.mem_filter.mpr ⟨hj, decide_eq_true (congrArg CStr.ord hjkey)⟩
      exact ((List.pairwise_cons.mp (List.pairwise_append.mp hpair).2.1).1 j hmem).le

/-! ## What a search returns -/

/-- **A search returns the value of a call for its key**: of the earliest one among those in the last leaf that has the
key.  It returns `NULL` for a key that no call was made for. -/
theorem search_finds_earliest (calls : List (CStr × Option CStr)) (hkeys : ∀ c ∈ calls, c.1 ≠ .empty) (key : CStr) :
    ∃ b placed, puts calls = some b ∧ Placed calls b placed ∧
      ((∀ i, (calls.get i).1 ≠ key) → search b.root key b.height = some none) ∧
      ((∃ i, (calls.get i).1 = key) → ∃ front leaf behind, placed = front ++ leaf :: behind ∧
        (∀ i ∈ behind.flatten, (calls.get i).1 ≠ key) ∧
        ∃ i ∈ leaf, (calls.get i).1 = key ∧ (∀ j ∈ leaf, (calls.get j).1 = key → i ≤ j) ∧
          search b.root key b.height = some (calls.get i).2) := by
  obtain ⟨b, hrun, hok, -, hc⟩ := puts_spec calls hkeys
  obtain ⟨placed, hplaced⟩ := exists_placed hc
  obtain ⟨front, leaf, behind, hends⟩ := search_spec key b.height b.root hok.entries
    hok.root_pos hok.sorted
  have hcut := hplaced.entries
  rw [hends.split, List.map_append, List.map_cons] at hcut
  obtain ⟨front', rest', rfl, -, hrest⟩ := List.map_eq_append_iff.mp hcut.symm
  obtain ⟨leaf', behind', rfl, hleaf, hbehind⟩ := List.map_eq_cons_iff.mp hrest
  have hfound := hends.found
  rw [find?_leaf hleaf.symm] at hfound
  refine ⟨b, _, hrun, hplaced, fun hnone => ?_, fun ⟨i, hi⟩ => ⟨front', leaf', behind', rfl, fun j hj => ?_, ?_⟩⟩
  · have hfind : leaf'.find? (fun i => (calls.get i).1 = key) = none :=
      List.find?_eq_none.mpr fun j _ => by simpa using hnone j
    rw [hfound, hfind]
    rfl
  · have hmem : calls.get j ∈ (behind.map (List.map pairOf)).flatten := by
      rw [← hbehind, ← List.map_flatten]
      exact List.mem_map_of_mem hj
    rw [← List.map_flatten] at hmem
    obtain ⟨e, he, hej⟩ := List.mem_map.mp hmem
    rw [← hej]
    intro hkey
    exact absurd (congrArg CStr.ord hkey) (hends.lt e he).ne'
  · -- the entry of call `i` is somewhere, so there is one in the leaf
    have hmem : calls.get i ∈ b.contents := by
      rw [hc]
      exact (List.mergeSort_perm _ _).mem_iff.mpr (List.get_mem calls i)
    obtain ⟨x, hx, hxi⟩ := List.mem_map.mp hmem
    obtain ⟨e, he, hekey⟩ := hends.exists_mem_leaf hok.sorted hx ((congrArg Prod.fst hxi).trans hi)
    have hmem' : pairOf e ∈ leaf'.map calls.get := hleaf ▸ List.mem_map_of_mem he
    obtain ⟨j, hj, hje⟩ := List.mem_map.mp hmem'
    have hjkey : (calls.get j).1 = key := (congrArg Prod.fst hje).trans hekey
    obtain ⟨i', hi'⟩ := Option.isSome_iff_exists.mp
      (List.find?_isSome.mpr ⟨j, hj, decide_eq_true hjkey⟩ : (leaf'.find? fun i => (calls.get i).1 = key).isSome = true)
    obtain ⟨hleaf', hkey', hmin⟩ := hplaced.find?_earliest hi'
    refine ⟨i', hleaf', hkey', hmin, ?_⟩
    rw [hfound, hi']
    rfl

/-- The two calls for one key are in two leaves, and the search finds the second. -/
theorem fiveCalls_search :
    ∃ b placed, puts fiveCalls = some b ∧ Placed fiveCalls b placed ∧
      search b.root ⟨[98], by decide⟩ b.height = some (some ⟨[50], by decide⟩) := by
  obtain ⟨b, placed, hrun, hplaced, -, -⟩ := search_finds_earliest fiveCalls (by decide) ⟨[98], by decide⟩
  have hb : b = _ := (Option.some.inj hrun).symm
  exact ⟨b, placed, hrun, hplaced, hb ▸ rfl⟩

end OstepHw.BTree
