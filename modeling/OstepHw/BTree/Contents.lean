import OstepHw.BTree.Invariant
import Mathlib.Data.List.Induction

/-!
# What a sequence of `put` calls builds

* `put_spec` — one call keeps the invariant of the tree, counts itself and places its pair;
* `puts_spec` — so does every sequence of calls on a new tree;
* `puts_represents_stable_sort` — the tree is balanced, its nodes are filled as a B-tree of order
  `M` requires, and its leaves are the stable sort of the calls by `strcmp`;
* `tooManyCalls_n` — with `2 ^ 31` calls `n` is no longer their number.
-/

namespace OstepHw.BTree

open StableSort

/-- The pair a leaf entry stores. -/
def pairOf (e : Entry Node) : CStr × Option CStr := (e.key, e.val)

/-- The pairs stored in the tree, from left to right. -/
def Btree.contents (b : Btree) : List (CStr × Option CStr) :=
  (leaves b.height b.root).map pairOf

/-- All leaves of a node are `ht` levels below it, and every node below it has between `M / 2` and
`M - 1` entries. -/
def Balanced : Nat → Node → Prop
  | 0, h => ∀ e ∈ h.children, e.next = none
  | ht + 1, h => ∀ e ∈ h.children, ∃ c, e.next = some c ∧ M / 2 ≤ c.m ∧ c.m ≤ M - 1 ∧ Balanced ht c

/-- Invariant of the whole tree. -/
structure TreeOk (b : Btree) : Prop where
  entries : EntriesOk b.height b.root.children
  lt : b.root.m < M
  root_fill : b.height ≠ 0 → 2 ≤ b.root.m
  sorted : Sorted keyOf (leaves b.height b.root)

theorem TreeOk.root_pos {b : Btree} (h : TreeOk b) (hne : b.height ≠ 0) : 0 < b.root.m :=
  Nat.lt_of_lt_of_le Nat.two_pos (h.root_fill hne)

theorem treeOk_initBtree : TreeOk initBtree :=
  ⟨entriesOk_zero (by simp [initBtree]), by simp [initBtree], by simp [initBtree], List.Pairwise.nil⟩

/-- Rewriting the key in slot 0 of the root changes nothing that matters: in an internal node that
key is never read, and a leaf holds the new entry there already. -/
theorem setFirstKey_spec {ht m : Nat} {h : Node} {r : Option Node} {key : CStr}
    {val : Option CStr} {ls : List (Entry Node)} (hlt : ∀ e ∈ ls, key.ord < keyOf e)
    (hi : Inserted ht m (place keyOf (newEntry key val) ls) h r) :
    Inserted ht m (place keyOf (newEntry key val) ls) (h.setFirstKey key) r := by
  obtain ⟨cs⟩ := h
  cases cs with
  | nil => exact hi
  | cons e cs =>
    cases ht with
    | zero =>
      have hfirst := hi.leaves
      rw [leaves_zero, place_of_lt hlt] at hfirst
      obtain rfl : e = newEntry key val := (List.cons.inj hfirst).1
      exact hi
    | succ ht =>
      obtain ⟨⟨hok, hex⟩, hlt, hfill, hleaves, hhalves, hright⟩ := hi
      refine ⟨⟨fun x hx => ?_, hex⟩, hlt, hfill, hleaves, hhalves, hright⟩
      rcases List.mem_cons.mp hx with rfl | hx
      · exact hok e (by simp)
      · exact hok x (by simp [hx])

/-- **One call.** -/
theorem put_spec {b : Btree} {key : CStr} (val : Option CStr) (hb : TreeOk b)
    (hkey : key ≠ .empty) :
    ∃ b', put b (some key) val = some b' ∧ TreeOk b' ∧ b'.n = CInt.toInt (b.n + 1) ∧
      leaves b'.height b'.root = place keyOf (newEntry key val) (leaves b.height b.root) := by
  have hpos := hb.root_pos
  obtain ⟨h, u, hrun, hi, hmp⟩ :=
    insert_spec hkey val b.height b.root hb.entries hb.lt hpos hb.sorted
  -- the root after the rewriting of its first key
  have hroot : Inserted b.height b.root.m
      (place keyOf (newEntry key val) (leaves b.height b.root))
      (if u.modParent then h.setFirstKey key else h) u.retNode := by
    split
    · rename_i hu
      exact setFirstKey_spec (hmp hu) hi
    · exact hi
  have hsorted := hb.sorted.place (newEntry key val)
  simp only [put, hrun, Option.bind_eq_bind, Option.bind_some]
  generalize (if u.modParent then h.setFirstKey key else h) = root at hroot ⊢
  cases hret : u.retNode with
  | none =>
    rw [hret] at hroot
    have hleaves : leaves b.height root =
        place keyOf (newEntry key val) (leaves b.height b.root) := by
      simpa using hroot.leaves
    refine ⟨_, rfl, ⟨hroot.entries, hroot.lt, fun hne => ?_, hleaves ▸ hsorted⟩, rfl, hleaves⟩
    rcases hroot.filled with hle | heq
    · exact (hb.root_fill hne).trans hle
    · exact heq.ge
  | some n =>
    rw [hret] at hroot
    obtain ⟨hnok, hnkey⟩ := hroot.right n rfl
    obtain ⟨hl, hr⟩ := hroot.halves n rfl
    have hleaves : leaves (b.height + 1)
        (.mk [⟨root.firstKey, none, some root⟩, ⟨n.firstKey, none, some n⟩]) =
        place keyOf (newEntry key val) (leaves b.height b.root) := by
      rw [← hroot.leaves]
      simp [leaves, entryLeaves]
    refine ⟨_, rfl, ⟨⟨fun x hx => ?_, fun x hx => ?_⟩, by simp, by simp, hleaves ▸ hsorted⟩, rfl,
      hleaves⟩
    · simp only [Node.children_mk, List.mem_cons, List.not_mem_nil, or_false] at hx
      rcases hx with rfl | rfl
      · exact entryOk_succ.2 ⟨root, rfl, hl.ge, hroot.lt, hroot.entries⟩
      · exact entryOk_succ.2 ⟨n, rfl, hr.ge, hr ▸ by simp, hnok⟩
    · obtain rfl := List.mem_singleton.mp hx
      exact hnkey

/-- **Every sequence of calls.** -/
theorem puts_spec (calls : List (CStr × Option CStr)) (hkeys : ∀ c ∈ calls, c.1 ≠ .empty) :
    ∃ b, puts calls = some b ∧ TreeOk b ∧ b.n = CInt.toInt calls.length ∧
      b.contents = calls.mergeSort (le fun c => c.1.ord) := by
  induction calls using List.reverseRecOn with
  | nil => exact ⟨initBtree, rfl, treeOk_initBtree, rfl, by simp [Btree.contents, leaves, initBtree]⟩
  | append_singleton calls c ih =>
    obtain ⟨b, hrun, hok, hn, hc⟩ := ih fun d hd => hkeys d (by simp [hd])
    obtain ⟨b', hput, hok', hn', hleaves⟩ := put_spec c.2 hok (hkeys c (by simp))
    refine ⟨b', ?_, hok', ?_, ?_⟩
    · rw [puts, List.foldlM_append, ← puts, hrun]
      simpa using hput
    · rw [hn', hn, CInt.toInt_toInt_add, List.length_append, List.length_singleton, Nat.cast_add, Nat.cast_one]
    · rw [mergeSort_concat, ← hc, Btree.contents, hleaves, Btree.contents]
      exact map_place (f := fun c : CStr × Option CStr => c.1.ord) pairOf (newEntry c.1 c.2) _

theorem EntriesOk.balanced : ∀ {ht : Nat} {h : Node}, EntriesOk ht h.children → Balanced ht h
  | 0, _, hok => hok.ok
  | ht + 1, h, hok => by
    intro e he
    obtain ⟨c, hc, hlo, hhi, hcok⟩ := entryOk_succ.1 (hok.ok e he)
    exact ⟨c, hc, hlo, Nat.le_sub_one_of_lt hhi, hcok.balanced⟩

/-- **Representation invariant and contents.**  After any sequence of calls with non-empty keys the
tree is balanced at `height`, its nodes are filled within the limits, and the leaf entries from left
to right are the stable sort of the calls by `strcmp`.  `n` counts the calls as long as it can. -/
theorem puts_represents_stable_sort (calls : List (CStr × Option CStr))
    (hkeys : ∀ c ∈ calls, c.1 ≠ .empty) :
    ∃ b, puts calls = some b ∧ Balanced b.height b.root ∧ b.root.m ≤ M - 1 ∧
      (b.height ≠ 0 → 2 ≤ b.root.m) ∧ (calls.length < 2 ^ 31 → b.n = calls.length) ∧
      b.contents = calls.mergeSort fun c d => decide (strcmp c.1 d.1 ≤ 0) := by
  obtain ⟨b, hrun, hok, hn, hc⟩ := puts_spec calls hkeys
  refine ⟨b, hrun, hok.entries.balanced, Nat.le_sub_one_of_lt hok.lt, hok.root_fill, fun hlt => ?_, ?_⟩
  · rw [hn, CInt.toInt_of_lt (by omega) (by omega)]
  · have hle : (fun c d : CStr × Option CStr => decide (strcmp c.1 d.1 ≤ 0)) =
        le fun c : CStr × Option CStr => c.1.ord := by
      funext c d
      exact decide_eq_decide.mpr strcmp_nonpos_iff
    rw [hc, hle]

/-- A key of one letter. -/
def letter (k : Fin 26) : CStr where
  bytes := [97 + UInt8.ofNat k]
  nul_free := by
    intro h
    have hzero := congrArg UInt8.toNat (List.mem_singleton.mp h)
    have hk := k.isLt
    rw [UInt8.toNat_add, UInt8.toNat_ofNat'] at hzero
    change 0 = (97 + k.val % 2 ^ 8) % 2 ^ 8 at hzero
    omega

/-- Five calls, two of them with the same key, which split the root. -/
def fiveCalls : List (CStr × Option CStr) :=
  [(⟨[98], by decide⟩, some ⟨[49], by decide⟩), (⟨[97], by decide⟩, none),
   (⟨[98], by decide⟩, some ⟨[50], by decide⟩), (⟨[99, 120], by decide⟩, none),
   (⟨[97, 97], by decide⟩, some .empty)]

theorem fiveCalls_stable_sort :
    (∀ c ∈ fiveCalls, c.1 ≠ .empty) ∧
      ∃ b, puts fiveCalls = some b ∧ Balanced b.height b.root ∧ b.root.m ≤ M - 1 ∧
        (b.height ≠ 0 → 2 ≤ b.root.m) ∧ b.n = 5 ∧
        b.contents = fiveCalls.mergeSort fun c d => decide (strcmp c.1 d.1 ≤ 0) := by
  obtain ⟨b, hrun, hbalanced, hle, hfill, hn, hc⟩ := puts_represents_stable_sort fiveCalls (by decide)
  exact ⟨by decide, b, hrun, hbalanced, hle, hfill, hn (by decide), hc⟩

/-- One call more than `n` can count. -/
def tooManyCalls : List (CStr × Option CStr) := List.replicate (2 ^ 31) (⟨[97], by decide⟩, none)

/-- `n` is negative. -/
theorem tooManyCalls_n :
    (∀ c ∈ tooManyCalls, c.1 ≠ .empty) ∧ tooManyCalls.length = 2 ^ 31 ∧
      ∃ b, puts tooManyCalls = some b ∧ b.n < 0 ∧ b.n ≠ tooManyCalls.length := by
  have hkeys : ∀ c ∈ tooManyCalls, c.1 ≠ .empty := by
    intro c hc
    rw [List.eq_of_mem_replicate hc]
    decide
  have hlength : tooManyCalls.length = 2 ^ 31 := List.length_replicate
  obtain ⟨b, hrun, -, hn, -⟩ := puts_spec tooManyCalls hkeys
  have hneg : b.n < 0 := by
    rw [hn, hlength]
    exact CInt.toInt_lt_zero (by omega) (by omega)
  exact ⟨hkeys, hlength, b, hrun, hneg, by omega⟩

end OstepHw.BTree
