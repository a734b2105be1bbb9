import OstepHw.BTree.Contents

/-!
# The keys of internal nodes

`mod_parent` tells the levels above that a new key is below all others, so that the key of each entry stays the
smallest key below it.  Only the keys in slot 0 of the nodes on the left edge of the tree can be wrong; all others are
kept by the splits.

* `edgeKeys`, `EdgeOk` — the keys on the left edge, and that all others are right;
* `insert_edge` — a key that is not the smallest leaves the left edge as it is; the smallest key is written into all
  of it, but after a split of the first leaf only into the level above that leaf;
* `separators_exact_iff` — **when the keys are exact** after a sequence of calls.
-/

set_option autoImplicit false

namespace OstepHw.BTree

open StableSort

/-- The key of every entry of an internal node is the smallest key below the entry. -/
def SeparatorsExact : Nat → Node → Prop
  | 0, _ => True
  | ht + 1, h => ∀ e ∈ h.children, ∃ c, e.next = some c ∧ (∃ x ∈ leaves ht c, x.key = e.key) ∧
      (∀ x ∈ leaves ht c, strcmp e.key x.key ≤ 0) ∧ SeparatorsExact ht c

/-- The keys in slot 0 of the internal nodes on the left edge, from the top. -/
def edgeKeys : Nat → Node → List CStr
  | 0, _ => []
  | ht + 1, h =>
    match h.children with
    | [] => []
    | e :: _ => e.key :: e.next.elim [] (edgeKeys ht)

def firstLeaf : Nat → Node → Node
  | 0, h => h
  | ht + 1, h =>
    match h.children with
    | [] => h
    | e :: _ => e.next.elim h (firstLeaf ht)

/-- The keys on the left edge below the entry are its key. -/
def Matches (ht : Nat) (e : Entry Node) : Prop := ∀ c, e.next = some c → ∀ k ∈ edgeKeys ht c, k = e.key

/-- No key is wrong but on the left edge. -/
def EdgeOk : Nat → Node → Prop
  | 0, _ => True
  | ht + 1, h => Behind (fun e => ∃ c, e.next = some c ∧ EdgeOk ht c) (Matches ht) h.children

variable {ht : Nat} {h h' nx nx' : Node} {key : CStr} {val : Option CStr} {u u' : InsertRet} {e c : Entry Node}
  {cs l r : List (Entry Node)}

theorem edgeKeys_cons (hnx : e.next = some nx) : edgeKeys (ht + 1) (.mk (e :: cs)) = e.key :: edgeKeys ht nx := by
  simp only [edgeKeys, Node.children_mk, hnx, Option.elim_some]

theorem firstLeaf_cons (hnx : e.next = some nx) : firstLeaf (ht + 1) (.mk (e :: cs)) = firstLeaf ht nx := by
  simp only [firstLeaf, Node.children_mk, hnx, Option.elim_some]

/-- The keys on the left edge are those of the first entry. -/
theorem edgeKeys_congr (h : cs.head? = l.head?) : edgeKeys ht (.mk cs) = edgeKeys ht (.mk l) := by
  cases ht with
  | zero => rfl
  | succ ht =>
    cases cs <;> cases l <;> first | rfl | cases h
    rfl

/-! ## Storing an entry in an internal node -/

/-- What becomes of the entries `cs` of an internal node: they stay in one node or go to two. -/
structure Stored (ht : Nat) (cs : List (Entry Node)) (h' : Node) (u : InsertRet) : Prop where
  edge : EdgeOk ht h'
  keys : edgeKeys ht h' = edgeKeys ht (.mk cs)
  right : ∀ n, u.retNode = some n → EdgeOk ht n ∧ ∀ k ∈ edgeKeys ht n, k = n.firstKey

/-- An entry behind the first one. -/
theorem EdgeOk.firstKey {n : Node}
    (hn : Behind (fun e => ∃ c, e.next = some c ∧ EdgeOk ht c) (Matches ht) (e :: n.children)) :
    EdgeOk (ht + 1) n ∧ ∀ k ∈ edgeKeys (ht + 1) n, k = n.firstKey := by
  refine ⟨hn.drop 1, fun k hk => ?_⟩
  obtain ⟨cs⟩ := n
  cases cs with
  | nil => cases hk
  | cons x cs =>
    obtain ⟨c, hc, -⟩ := hn.all x (by simp)
    rw [edgeKeys_cons hc] at hk
    rcases List.mem_cons.mp hk with rfl | hk
    · rfl
    · exact hn.tail x (by simp) c hc k hk

theorem EdgeOk.split (hedge : EdgeOk (ht + 1) (.mk cs)) (hlen : cs.length = M) (mp : Bool) :
    Stored (ht + 1) cs (split (.mk cs)).1 ⟨some (split (.mk cs)).2, mp⟩ := by
  obtain ⟨a, b, c, d, rfl⟩ := List.length_eq_four.mp hlen
  refine ⟨Behind.take hedge 2, edgeKeys_congr rfl, ?_⟩
  rintro n ⟨rfl⟩
  exact EdgeOk.firstKey (e := b) (Behind.drop hedge 1)

theorem length_stored {j : Nat} (t : Entry Node) (hj : j ≤ h.m) :
    (h.children.take j ++ t :: h.children.drop j).length = h.m + 1 := by
  simp only [Node.m] at hj ⊢
  simp
  omega

/-- The node is split when there is no room for one more entry. -/
theorem insertNode_ret {j : Nat} {t : Entry Node} {mp : Bool} (hm : h.m < M) (hj : j ≤ h.m)
    (hrun : insertNode h j t mp = some (h', u)) : u.modParent = mp ∧ (u.retNode = none ↔ h.m + 1 < M) := by
  rw [insertNode, if_pos hm] at hrun
  simp only [Node.m_mk, length_stored t hj] at hrun
  split at hrun
  · next hlt =>
    cases hrun
    exact ⟨rfl, iff_of_true rfl hlt⟩
  · next hge =>
    cases hrun
    exact ⟨rfl, iff_of_false (Option.some_ne_none _) hge⟩

theorem insertNode_edge {j : Nat} {t : Entry Node} {mp : Bool} (hm : h.m < M) (hj : j ≤ h.m)
    (hedge : EdgeOk (ht + 1) (.mk (h.children.take j ++ t :: h.children.drop j)))
    (hrun : insertNode h j t mp = some (h', u)) :
    Stored (ht + 1) (h.children.take j ++ t :: h.children.drop j) h' u ∧ u.modParent = mp := by
  have hlen := length_stored t hj
  rw [insertNode, if_pos hm] at hrun
  simp only [Node.m_mk, hlen] at hrun
  split at hrun
  · cases hrun
    exact ⟨⟨hedge, rfl, fun n hn => by cases hn⟩, rfl⟩
  · have hM : h.m + 1 = M := by omega
    cases hrun
    exact ⟨hedge.split (hlen.trans hM) mp, rfl⟩

/-! ## `insert` -/

/-- What a call of `insert` does to the left edge of the node. -/
structure Grown (ht : Nat) (h : Node) (key : CStr) (h' : Node) (u : InsertRet) : Prop where
  edge : EdgeOk ht h'
  right : ∀ n, u.retNode = some n → EdgeOk ht n ∧ ∀ k ∈ edgeKeys ht n, k = n.firstKey
  /-- The key is not the smallest. -/
  kept : (∃ e ∈ leaves ht h, keyOf e ≤ key.ord) → u.modParent = false ∧ edgeKeys ht h' = edgeKeys ht h
  /-- It is, and the first leaf has room for it. -/
  lowered : (∀ e ∈ leaves ht h, key.ord < keyOf e) → 0 < h.m → (firstLeaf ht h).m + 1 < M →
    u = ⟨none, true⟩ ∧ ∀ k ∈ edgeKeys ht h', k = key
  /-- The first leaf is split. -/
  cut : (∀ e ∈ leaves ht h, key.ord < keyOf e) → 0 < h.m → ¬(firstLeaf ht h).m + 1 < M →
    (ht = 0 → u.modParent = true ∧ u.retNode ≠ none) ∧ (ht ≠ 0 → u.modParent = false) ∧
      (ht ≤ 1 → ∀ k ∈ edgeKeys ht h', k = key) ∧ (2 ≤ ht → (edgeKeys ht h').head? = (edgeKeys ht h).head?)

/-- In a leaf. -/
theorem insert_zero_edge (hkey : key ≠ .empty) (hm : h.m < M) (hs : Sorted keyOf (leaves 0 h))
    (hrun : insert h key val 0 = some (h', u)) : Grown 0 h key h' u := by
  have hedge : ∀ n, u.retNode = some n → EdgeOk 0 n ∧ ∀ k ∈ edgeKeys 0 n, k = n.firstKey :=
    fun n _ => ⟨trivial, fun k hk => absurd hk List.not_mem_nil⟩
  obtain ⟨cs⟩ := h
  cases cs with
  | nil =>
    obtain ⟨hmp, -⟩ := insertNode_ret hm (Nat.zero_le _) (by simpa [insert] using hrun)
    refine ⟨trivial, hedge, ?_, fun _ hpos => absurd hpos (Nat.lt_irrefl 0),
      fun _ hpos => absurd hpos (Nat.lt_irrefl 0)⟩
    rintro ⟨e, he, -⟩
    cases he
  | cons e cs =>
    rw [leaves_zero] at hs
    have hmem : e ∈ leaves 0 (.mk (e :: cs)) := by
      rw [leaves_zero]
      exact List.mem_cons_self
    have hnone : ∀ k ∈ edgeKeys 0 h', k = key := fun k hk => absurd hk List.not_mem_nil
    rw [insert, if_neg (by simp)] at hrun
    by_cases hlt : strcmp key e.key < 0
    · rw [if_pos ⟨strcmp_empty_ne_zero hkey, hlt⟩] at hrun
      obtain ⟨hmp, hret⟩ := insertNode_ret hm (Nat.zero_le _) hrun
      refine ⟨trivial, hedge, ?_, fun _ _ hroom => ⟨?_, hnone⟩,
        fun _ _ hfull => ⟨fun _ => ⟨hmp, mt hret.1 hfull⟩, fun hne => absurd rfl hne, fun _ => hnone, fun h2 => ?_⟩⟩
      · rintro ⟨x, hx, hle⟩
        rw [leaves_zero] at hx
        exact absurd (strcmp_neg_iff.1 hlt) (not_lt.mpr ((hs.head_le hx).trans hle))
      · obtain ⟨ret, mp⟩ := u
        rw [InsertRet.mk.injEq]
        exact ⟨hret.2 hroom, hmp⟩
      · exact absurd h2 (by omega)
    · rw [if_neg fun h => hlt h.2] at hrun
      have hj : 1 + route key (.mk (e :: cs)) ≤ (Node.mk (e :: cs)).m := by
        have : cs.findIdx (fun x => decide (strcmp key x.key < 0)) ≤ cs.length := List.findIdx_le_length
        simp only [route, Node.children_mk, List.tail_cons, Node.m_mk, List.length_cons]
        omega
      obtain ⟨hmp, -⟩ := insertNode_ret hm hj hrun
      have habsurd : ¬∀ x ∈ leaves 0 (.mk (e :: cs)), key.ord < keyOf x := fun hall =>
        hlt (strcmp_neg_iff.2 (hall e hmem))
      exact ⟨trivial, hedge, fun _ => ⟨hmp, rfl⟩, fun hall => absurd hall habsurd, fun hall => absurd hall habsurd⟩

/-- The entries of a node after the recursive call: the entry `c` is updated, and a node that was split off below it
gets an entry of its own. -/
def entriesAfter (l r : List (Entry Node)) (key : CStr) (val : Option CStr) (c : Entry Node) (nx' : Node)
    (u : InsertRet) : List (Entry Node) :=
  l ++ updated key c nx' u :: ((u.retNode.elim [] fun n => [⟨n.firstKey, val, some n⟩]) ++ r)

theorem Grown.edge_after (hr : Routed ht key h l r c nx) (hok : EntriesOk (ht + 1) h.children)
    (hedge : EdgeOk (ht + 1) h) (hg : Grown ht nx key nx' u) (hmp : l ≠ [] → u.modParent = false) :
    EdgeOk (ht + 1) (.mk (entriesAfter l r key val c nx' u)) := by
  rw [EdgeOk, hr.children] at hedge
  refine hedge.replace ⟨nx', rfl, hg.edge⟩ (fun hne => ?_) fun x hx => ?_
  · -- the first key below `c` stays
    rintro n ⟨rfl⟩ k hk
    rw [(hg.kept (hr.exists_le hok hne)).2] at hk
    rw [updated, hmp hne]
    exact hedge.of_mid hne nx hr.next k hk
  · cases hret : u.retNode with
    | none =>
      rw [hret] at hx
      cases hx
    | some n =>
      rw [hret] at hx
      obtain rfl := List.mem_singleton.mp hx
      obtain ⟨hn, hkeys⟩ := hg.right n hret
      refine ⟨⟨n, rfl, hn⟩, ?_⟩
      rintro n' ⟨rfl⟩ k hk
      exact hkeys k hk

/-- The entries are stored, and `mod_parent` goes up when no node was split. -/
theorem insert_succ_stored (hr : Routed ht key h l r c nx) (hm : h.m < M) (hrun : insert nx key val ht = some (nx', u))
    (hedge : EdgeOk (ht + 1) (.mk (entriesAfter l r key val c nx' u)))
    (hrunh : insert h key val (ht + 1) = some (h', u')) :
    Stored (ht + 1) (entriesAfter l r key val c nx' u) h' u' ∧ (u.retNode = none → u' = u) ∧
      (u.retNode ≠ none → u'.modParent = false) := by
  rw [insert_succ_eq hr.children hr.route hr.next hrun] at hrunh
  unfold entriesAfter at hedge ⊢
  cases hret : u.retNode with
  | none =>
    rw [hret] at hrunh hedge
    cases hrunh
    refine ⟨⟨hedge, rfl, fun n hn => ?_⟩, fun _ => rfl, fun hne => absurd rfl hne⟩
    rw [hret] at hn
    cases hn
  | some n =>
    rw [hret] at hrunh hedge
    have hslots : l ++ updated key c nx' u :: ([⟨n.firstKey, val, some n⟩] ++ r) =
        (l ++ updated key c nx' u :: r).take (l.length + 1) ++ ⟨n.firstKey, val, some n⟩ ::
          (l ++ updated key c nx' u :: r).drop (l.length + 1) := by
      rw [take_behind, drop_behind, List.append_assoc]
      rfl
    have hlen : (Node.mk (l ++ updated key c nx' u :: r)).m = h.m := by
      simp [Node.m, hr.children]
    simp only [Option.elim_some] at hedge ⊢
    rw [hslots] at hedge ⊢
    have hstored := insertNode_edge (hlen ▸ hm) (by simp) hedge hrunh
    exact ⟨hstored.1, fun hnone => absurd hnone (Option.some_ne_none n), fun _ => hstored.2⟩

theorem Routed.eq_mk (hr : Routed ht key h l r c nx) : h = .mk (l ++ c :: r) := by
  obtain ⟨cs⟩ := h
  rw [← hr.children, Node.children_mk]

theorem Routed.leaves_mem (hr : Routed ht key h l r c nx) {x : Entry Node} (hx : x ∈ leaves ht nx) :
    x ∈ leaves (ht + 1) h := by
  rw [leaves, hr.children, List.flatMap_append, List.flatMap_cons, entryLeaves_succ hr.next]
  exact List.mem_append_right _ (List.mem_append_left _ hx)

/-- A key below all others goes to the first entry. -/
theorem Routed.first_of_below (hr : Routed ht key h l r c nx) (hok : EntriesOk (ht + 1) h.children)
    (hall : ∀ e ∈ leaves (ht + 1) h, key.ord < keyOf e) : l = [] := by
  by_contra hne
  obtain ⟨x, hx, hle⟩ := hr.exists_le hok hne
  exact absurd (hall x (hr.leaves_mem hx)) (not_lt.mpr hle)

/-- The left edge of a node whose first entry is the one of the key. -/
theorem Routed.first_edge (hr : Routed ht key h [] r c nx) :
    edgeKeys (ht + 1) h = c.key :: edgeKeys ht nx ∧ firstLeaf (ht + 1) h = firstLeaf ht nx := by
  rw [hr.eq_mk]
  exact ⟨edgeKeys_cons hr.next, firstLeaf_cons hr.next⟩

/-- In an internal node, given what the recursive call did. -/
theorem Grown.succ (hr : Routed ht key h l r c nx) (hok : EntriesOk (ht + 1) h.children) (hg : Grown ht nx key nx' u)
    (hmp : l ≠ [] → u.modParent = false) (hs : Stored (ht + 1) (entriesAfter l r key val c nx' u) h' u')
    (hnone : u.retNode = none → u' = u) (hsome : u.retNode ≠ none → u'.modParent = false) :
    Grown (ht + 1) h key h' u' := by
  have hpos := hr.pos
  have hfalse : u.modParent = false → u'.modParent = false := by
    intro hu
    by_cases hret : u.retNode = none
    · rw [hnone hret, hu]
    · exact hsome hret
  have hkeys : l = [] → edgeKeys (ht + 1) h' = (updated key c nx' u).key :: edgeKeys ht nx' := by
    rintro rfl
    rw [hs.keys]
    exact edgeKeys_cons rfl
  have hold : l = [] → edgeKeys (ht + 1) h = c.key :: edgeKeys ht nx ∧ firstLeaf (ht + 1) h = firstLeaf ht nx := by
    rintro rfl
    exact hr.first_edge
  refine ⟨hs.edge, hs.right, ?_, fun hall _ hroom => ?_, fun hall _ hfull => ?_⟩
  · rintro ⟨x, hx, hle⟩
    by_cases hl : l = []
    · have hxnx : x ∈ leaves ht nx := by
        rw [leaves, hr.children, hl, List.nil_append, List.flatMap_cons, entryLeaves_succ hr.next] at hx
        rcases List.mem_append.mp hx with hx | hx
        · exact hx
        · exact absurd (hr.lt x hx) (not_lt.mpr hle)
      obtain ⟨hu, hsame⟩ := hg.kept ⟨x, hxnx, hle⟩
      refine ⟨hfalse hu, ?_⟩
      rw [hkeys hl, (hold hl).1, hsame, updated, hu]
      rfl
    · refine ⟨hfalse (hmp hl), ?_⟩
      rw [hs.keys, hr.eq_mk]
      cases l with
      | nil => exact absurd rfl hl
      | cons e l => exact edgeKeys_congr rfl
  · have hl := hr.first_of_below hok hall
    rw [(hold hl).2] at hroom
    obtain ⟨rfl, hnew⟩ := hg.lowered (fun e he => hall e (hr.leaves_mem he)) hpos hroom
    refine ⟨hnone rfl, fun k hk => ?_⟩
    rw [hkeys hl] at hk
    rcases List.mem_cons.mp hk with rfl | hk
    · rfl
    · exact hnew k hk
  · have hl := hr.first_of_below hok hall
    rw [(hold hl).2] at hfull
    obtain ⟨hzero, hup, -, -⟩ := hg.cut (fun e he => hall e (hr.leaves_mem he)) hpos hfull
    have hstop : u'.modParent = false := by
      by_cases ht0 : ht = 0
      · exact hsome (hzero ht0).2
      · exact hfalse (hup ht0)
    refine ⟨fun h0 => absurd h0 (Nat.succ_ne_zero ht), fun _ => hstop, fun h1 k hk => ?_, fun h2 => ?_⟩
    · obtain rfl : ht = 0 := by omega
      rw [hkeys hl, updated, (hzero rfl).1] at hk
      exact List.mem_singleton.mp hk
    · have hu : u.modParent = false := hup (by omega)
      rw [hkeys hl, (hold hl).1, updated, hu]
      rfl

/-- **One call of `insert`** on a node of any height. -/
theorem insert_edge (hkey : key ≠ .empty) (val : Option CStr) : ∀ (ht : Nat) (h h' : Node) (u : InsertRet),
    EntriesOk ht h.children → h.m < M → (ht ≠ 0 → 0 < h.m) → Sorted keyOf (leaves ht h) → EdgeOk ht h →
      insert h key val ht = some (h', u) → Grown ht h key h' u
  | 0, _, _, _, _, hm, _, hs, _, hrun => insert_zero_edge hkey hm hs hrun
  | ht + 1, h, h', u', hok, hm, hpos, hs, hedge, hrunh => by
    obtain ⟨l, r, c, nx, hr⟩ := exists_routed key hok (hpos (Nat.succ_ne_zero ht)) hs
    have hnxpos : ht ≠ 0 → 0 < nx.m := fun _ => hr.pos
    obtain ⟨nx', u, hrun, hi, hmp⟩ := insert_spec hkey val ht nx hr.entries hr.lt_M hnxpos hr.sorted
    have hd := hr.descent hok hi hmp
    have hnxedge : EdgeOk ht nx := by
      obtain ⟨n, hn, hedge⟩ := Behind.all hedge c (by simp [hr.children])
      rw [hr.next, Option.some.injEq] at hn
      exact hn ▸ hedge
    have hg := insert_edge hkey val ht nx nx' u hr.entries hr.lt_M hnxpos hr.sorted hnxedge hrun
    have hafter : EdgeOk (ht + 1) (.mk (entriesAfter l r key val c nx' u)) :=
      hg.edge_after hr hok hedge fun hne => (hd.updated_exact hne).1
    obtain ⟨hstored, hnone, hsome⟩ := insert_succ_stored hr hm hrun hafter hrunh
    exact hg.succ hr hok (fun hne => (hd.updated_exact hne).1) hstored hnone hsome

/-! ## `put` -/

/-- The keys on the left edge are the smallest key of the tree. -/
def EdgesExact (b : Btree) : Prop :=
  ∀ k ∈ edgeKeys b.height b.root, ∀ e ∈ (leaves b.height b.root).head?, e.key = k

/-- Invariant of the whole tree: no key on the left edge is below all keys of the tree. -/
structure EdgeInv (b : Btree) : Prop where
  edge : EdgeOk b.height b.root
  first : ∀ k ∈ (edgeKeys b.height b.root).head?, ∃ e ∈ leaves b.height b.root, keyOf e ≤ k.ord

theorem head?_edgeKeys (hpos : 0 < h.m) : (edgeKeys (ht + 1) h).head? = some h.firstKey := by
  obtain ⟨cs⟩ := h
  cases cs with
  | nil => cases hpos
  | cons e cs => rfl

/-- The first key of the root is the new key already when `put` writes it. -/
theorem setFirstKey_eq {m : Nat} {ls : List (Entry Node)} (hg : Grown ht h key h' u) (hpos : ht ≠ 0 → 0 < h.m)
    (hlt : ∀ e ∈ ls, key.ord < keyOf e) (hls : leaves ht h = ls)
    (hi : Inserted ht m (place keyOf (newEntry key val) ls) h' u.retNode) (hmp : u.modParent = true) :
    h'.setFirstKey key = h' := by
  obtain ⟨cs⟩ := h'
  cases cs with
  | nil => rfl
  | cons e cs =>
    have hfirst : e.key = key := by
      cases ht with
      | zero =>
        have hleaves := hi.leaves
        rw [leaves_zero, place_of_lt hlt] at hleaves
        rw [(List.cons.inj hleaves).1, newEntry]
      | succ ht =>
        have hall : ∀ x ∈ leaves (ht + 1) h, key.ord < keyOf x := hls ▸ hlt
        by_cases hroom : (firstLeaf (ht + 1) h).m + 1 < M
        · have hkeys := (hg.lowered hall (hpos (Nat.succ_ne_zero ht)) hroom).2
          refine hkeys e.key (List.mem_of_mem_head? ?_)
          exact head?_edgeKeys (h := .mk (e :: cs)) (Nat.succ_pos _)
        · have hstop := (hg.cut hall (hpos (Nat.succ_ne_zero ht)) hroom).2.1 (Nat.succ_ne_zero ht)
          rw [hmp] at hstop
          cases hstop
    rw [Node.setFirstKey, Node.children_mk, ← hfirst]

/-- What `put` makes of the keys on the left edge. -/
structure Put (b : Btree) (key : CStr) (b' : Btree) (h' : Node) (u : InsertRet) : Prop where
  grown : Grown b.height b.root key h' u
  edge : EdgeOk b'.height b'.root
  zero : b.height = 0 → ∀ k ∈ edgeKeys b'.height b'.root, k = h'.firstKey
  head : b.height ≠ 0 → (edgeKeys b'.height b'.root).head? = (edgeKeys b.height h').head?
  mem : b.height ≠ 0 → ∀ k, k ∈ edgeKeys b'.height b'.root ↔ k ∈ edgeKeys b.height h'

theorem put_edge {b b' : Btree} (hb : TreeOk b) (hedge : EdgeOk b.height b.root) (hkey : key ≠ .empty)
    (hput : put b (some key) val = some b') :
    ∃ h' u, Put b key b' h' u ∧
      Inserted b.height b.root.m (place keyOf (newEntry key val) (leaves b.height b.root)) h' u.retNode := by
  have hpos := hb.root_pos
  obtain ⟨h', u, hrun, hi, hmp⟩ := insert_spec hkey val b.height b.root hb.entries hb.lt hpos hb.sorted
  have hg := insert_edge hkey val b.height b.root h' u hb.entries hb.lt hpos hb.sorted hedge hrun
  have hroot : (if u.modParent then h'.setFirstKey key else h') = h' := by
    split
    · next hu => exact setFirstKey_eq hg hpos (hmp hu) rfl hi hu
    · rfl
  have hpos' : b.height ≠ 0 → 0 < h'.m := by
    intro hne
    rcases hi.filled with hle | heq
    · exact (hpos hne).trans_le hle
    · rw [heq]
      exact Nat.two_pos
  simp only [put, hrun, Option.bind_eq_bind, Option.bind_some, hroot] at hput
  refine ⟨h', u, ?_, hi⟩
  cases hret : u.retNode with
  | none =>
    rw [hret] at hput
    cases hput
    refine ⟨hg, hg.edge, fun h0 k hk => ?_, fun _ => rfl, fun _ k => Iff.rfl⟩
    rw [h0] at hk
    cases hk
  | some n =>
    rw [hret] at hput
    cases hput
    obtain ⟨hn, hkeys⟩ := hg.right n hret
    have hcons : edgeKeys (b.height + 1) (.mk [⟨h'.firstKey, none, some h'⟩, ⟨n.firstKey, none, some n⟩]) =
        h'.firstKey :: edgeKeys b.height h' := edgeKeys_cons rfl
    refine ⟨hg, ⟨fun x hx => ?_, fun x hx => ?_⟩, fun h0 k hk => ?_, fun hne => ?_, fun hne k => ?_⟩
    · simp only [Node.children_mk, List.mem_cons, List.not_mem_nil, or_false] at hx
      rcases hx with rfl | rfl
      · exact ⟨h', rfl, hg.edge⟩
      · exact ⟨n, rfl, hn⟩
    · obtain rfl := List.mem_singleton.mp hx
      rintro n' ⟨rfl⟩ k hk
      exact hkeys k hk
    · rw [hcons, h0] at hk
      exact List.mem_singleton.mp hk
    · obtain ⟨ht, hht⟩ := Nat.exists_eq_succ_of_ne_zero hne
      rw [hcons, hht, head?_edgeKeys (hpos' hne)]
      rfl
    · obtain ⟨ht, hht⟩ := Nat.exists_eq_succ_of_ne_zero hne
      have hmem : h'.firstKey ∈ edgeKeys b.height h' := by
        rw [hht]
        exact List.mem_of_mem_head? (head?_edgeKeys (hpos' hne))
      rw [hcons, List.mem_cons]
      exact ⟨fun hk => hk.elim (fun heq => heq ▸ hmem) id, .inr⟩

section Put

variable {b b' : Btree}

theorem Put.exact_of_zero (hp : Put b key b' h' u) (h0 : b.height = 0)
    (hi : Inserted b.height b.root.m (place keyOf (newEntry key val) (leaves b.height b.root)) h' u.retNode)
    (hleaves : leaves b'.height b'.root = place keyOf (newEntry key val) (leaves b.height b.root)) : EdgesExact b' := by
  intro k hk e he
  rw [hp.zero h0 k hk]
  rw [hleaves, ← hi.leaves, h0, leaves_zero] at he
  obtain ⟨cs⟩ := h'
  cases cs with
  | nil =>
    -- the node has the new entry
    cases hret : u.retNode with
    | none =>
      rw [hret] at he
      cases he
    | some n => cases (hi.halves n hret).1
  | cons x cs =>
    obtain rfl : x = e := by simpa using he
    rfl

/-- A key that is not the smallest one changes nothing. -/
theorem Put.kept (hp : Put b key b' h' u) (hb : TreeOk b) (hinv : EdgeInv b) (hne : b.height ≠ 0)
    (hleaves : leaves b'.height b'.root = place keyOf (newEntry key val) (leaves b.height b.root))
    (hold : ∃ e ∈ leaves b.height b.root, keyOf e ≤ key.ord) : EdgeInv b' ∧ (EdgesExact b' ↔ EdgesExact b) := by
  obtain ⟨-, hsame⟩ := hp.grown.kept hold
  have hhead : (leaves b'.height b'.root).head? = (leaves b.height b.root).head? := by
    obtain ⟨e, he, hle⟩ := hold
    have hs := hb.sorted
    rw [hleaves]
    cases hls : leaves b.height b.root with
    | nil =>
      rw [hls] at he
      cases he
    | cons x ls =>
      rw [hls] at he hs
      exact head?_place_of_le rfl ((hs.head_le he).trans hle)
  constructor
  · refine ⟨hp.edge, fun k hk => ?_⟩
    rw [hp.head hne, hsame] at hk
    obtain ⟨e, he, hle⟩ := hinv.first k hk
    exact ⟨e, hleaves ▸ mem_place.2 (.inr he), hle⟩
  · simp only [EdgesExact, hhead, hp.mem hne, hsame]

/-- The smallest key is written into the whole left edge, unless the tree is higher than two levels and the first leaf
is split. -/
theorem Put.new_smallest (hp : Put b key b' h' u) (hb : TreeOk b) (hinv : EdgeInv b) (hne : b.height ≠ 0)
    (hleaves : leaves b'.height b'.root = place keyOf (newEntry key val) (leaves b.height b.root))
    (hnew : ∀ e ∈ leaves b.height b.root, key.ord < keyOf e) :
    EdgeInv b' ∧ (EdgesExact b' ↔ b.height < 2 ∨ (firstLeaf b.height b.root).m + 1 < M) := by
  have hpos := hb.root_pos hne
  have hhead : (leaves b'.height b'.root).head? = some (newEntry key val) := by
    rw [hleaves, place_of_lt hnew, List.head?_cons]
  have hexact : (∀ k ∈ edgeKeys b.height h', k = key) → EdgeInv b' ∧ EdgesExact b' := by
    intro hall
    refine ⟨⟨hp.edge, fun k hk => ?_⟩, fun k hk e he => ?_⟩
    · rw [hp.head hne] at hk
      rw [hall k (List.mem_of_mem_head? hk)]
      exact ⟨newEntry key val, List.mem_of_mem_head? hhead, le_rfl⟩
    · rw [hall k ((hp.mem hne k).1 hk)]
      rw [hhead] at he
      cases he
      rfl
  by_cases hroom : (firstLeaf b.height b.root).m + 1 < M
  · obtain ⟨hinv', hex⟩ := hexact (hp.grown.lowered hnew hpos hroom).2
    exact ⟨hinv', iff_of_true hex (.inr hroom)⟩
  · obtain ⟨-, -, hlow, hhigh⟩ := hp.grown.cut hnew hpos hroom
    by_cases h2 : b.height < 2
    · obtain ⟨hinv', hex⟩ := hexact (hlow (Nat.le_of_lt_succ h2))
      exact ⟨hinv', iff_of_true hex (.inl h2)⟩
    · -- the key in the root is an old one
      have hsame : (edgeKeys b'.height b'.root).head? = (edgeKeys b.height b.root).head? :=
        (hp.head hne).trans (hhigh (not_lt.mp h2))
      refine ⟨⟨hp.edge, fun k hk => ?_⟩, iff_of_false (fun hex => ?_) fun h => h.elim h2 hroom⟩
      · rw [hsame] at hk
        obtain ⟨e, he, hle⟩ := hinv.first k hk
        exact ⟨e, hleaves ▸ mem_place.2 (.inr he), hle⟩
      · have hroot : (edgeKeys b.height b.root).head? = some b.root.firstKey := by
          obtain ⟨ht, hht⟩ := Nat.exists_eq_succ_of_ne_zero hne
          rw [hht]
          exact head?_edgeKeys hpos
        obtain ⟨e, he, hle⟩ := hinv.first _ hroot
        have hkey : key = b.root.firstKey :=
          hex _ (List.mem_of_mem_head? (hsame.trans hroot)) _ hhead
        exact absurd (hnew e he) (not_lt.mpr (hkey ▸ hle))

end Put

/-- **One call** of `put`. -/
theorem put_edgesExact {b b' : Btree} (hb : TreeOk b) (hinv : EdgeInv b) (hkey : key ≠ .empty)
    (hput : put b (some key) val = some b') :
    EdgeInv b' ∧ ((∃ e ∈ leaves b.height b.root, keyOf e ≤ key.ord) → (EdgesExact b' ↔ EdgesExact b)) ∧
      ((∀ e ∈ leaves b.height b.root, key.ord < keyOf e) →
        (EdgesExact b' ↔ b.height < 2 ∨ (firstLeaf b.height b.root).m + 1 < M)) := by
  obtain ⟨b'', hput', hb', -, hleaves⟩ := put_spec val hb hkey
  rw [hput, Option.some.injEq] at hput'
  subst hput'
  obtain ⟨h', u, hp, hi⟩ := put_edge hb hinv.edge hkey hput
  by_cases h0 : b.height = 0
  · have hex := hp.exact_of_zero h0 hi hleaves
    have hold : EdgesExact b := by
      intro k hk
      rw [h0] at hk
      cases hk
    refine ⟨⟨hp.edge, fun k hk => ?_⟩, fun _ => iff_of_true hex hold, fun _ => iff_of_true hex (.inl ?_)⟩
    · have hmem : newEntry key val ∈ leaves b'.height b'.root := hleaves ▸ mem_place.2 (.inl rfl)
      obtain ⟨e, ls, hls⟩ := List.exists_cons_of_ne_nil (List.ne_nil_of_mem hmem)
      have hek : e.key = k := hex k (List.mem_of_mem_head? hk) e (by rw [hls]; rfl)
      exact ⟨e, by rw [hls]; exact List.mem_cons_self, hek ▸ le_rfl⟩
    · rw [h0]
      exact Nat.two_pos
  · by_cases hold : ∃ e ∈ leaves b.height b.root, keyOf e ≤ key.ord
    · obtain ⟨hinv', hiff⟩ := hp.kept hb hinv h0 hleaves hold
      refine ⟨hinv', fun _ => hiff, fun hnew => ?_⟩
      obtain ⟨e, he, hle⟩ := hold
      exact absurd (hnew e he) (not_lt.mpr hle)
    · have hnew : ∀ e ∈ leaves b.height b.root, key.ord < keyOf e :=
        fun e he => not_le.mp fun hle => hold ⟨e, he, hle⟩
      obtain ⟨hinv', hiff⟩ := hp.new_smallest hb hinv h0 hleaves hnew
      exact ⟨hinv', fun h => absurd h hold, fun _ => hiff⟩

/-! ## Exact separators -/

/-- The first of the sorted entries has the smallest key. -/
theorem smallest_iff {ls : List (Entry Node)} (hs : Sorted keyOf ls) (hne : ls ≠ []) :
    ((∃ x ∈ ls, x.key = key) ∧ ∀ x ∈ ls, strcmp key x.key ≤ 0) ↔ ∀ e ∈ ls.head?, e.key = key := by
  obtain ⟨e, ls, rfl⟩ := List.exists_cons_of_ne_nil hne
  have hle : ∀ x ∈ e :: ls, keyOf e ≤ keyOf x := fun x hx => hs.head_le hx
  simp only [List.head?_cons, Option.mem_some_iff, forall_eq']
  constructor
  · rintro ⟨⟨x, hx, rfl⟩, hall⟩
    exact CStr.ord_injective (le_antisymm (hle x hx) (strcmp_nonpos_iff.1 (hall e List.mem_cons_self)))
  · rintro rfl
    exact ⟨⟨e, List.mem_cons_self, rfl⟩, fun x hx => strcmp_nonpos_iff.2 (hle x hx)⟩

theorem exact_iff (hok : EntryOk ht e) : Exact ht e ↔ ∀ x ∈ (entryLeaves ht e).head?, x.key = e.key := by
  obtain ⟨x, ls, hls⟩ := List.exists_cons_of_ne_nil hok.leaves_ne_nil
  rw [Exact, hls, List.head?_cons, Option.map_some, Option.some.injEq]
  simp only [Option.mem_some_iff, forall_eq']
  exact ⟨fun h => CStr.ord_injective h, congrArg CStr.ord⟩

/-- The separators below a node are exact if those on its left edge are its smallest key and no other one is wrong. -/
theorem separatorsExact_iff : ∀ (ht : Nat) (h : Node), EntriesOk ht h.children → Sorted keyOf (leaves ht h) →
    (SeparatorsExact ht h ↔ EdgeOk ht h ∧ ∀ k ∈ edgeKeys ht h, ∀ e ∈ (leaves ht h).head?, e.key = k)
  | 0, h, _, _ => iff_of_true trivial ⟨trivial, fun k hk => absurd hk List.not_mem_nil⟩
  | ht + 1, h, hok, hs => by
    -- what is said of one entry
    have hentry : ∀ e ∈ h.children, ((∃ c, e.next = some c ∧ (∃ x ∈ leaves ht c, x.key = e.key) ∧
        (∀ x ∈ leaves ht c, strcmp e.key x.key ≤ 0) ∧ SeparatorsExact ht c) ↔
        Exact (ht + 1) e ∧ (∃ c, e.next = some c ∧ EdgeOk ht c) ∧ Matches ht e) := by
      intro e he
      have heok := hok.ok e he
      obtain ⟨c, hc, hlo, -, hcok⟩ := entryOk_succ.1 heok
      have hsc : Sorted keyOf (leaves ht c) := by
        rw [← entryLeaves_succ hc]
        exact (List.pairwise_flatMap.mp hs).1 e he
      have hcne : leaves ht c ≠ [] := entryLeaves_succ hc ▸ heok.leaves_ne_nil
      obtain ⟨x, ls, hls⟩ := List.exists_cons_of_ne_nil hcne
      have ih := separatorsExact_iff ht c hcok hsc
      have hsmall : _ ↔ ∀ x ∈ (leaves ht c).head?, x.key = e.key := smallest_iff hsc hcne
      rw [exact_iff heok, entryLeaves_succ hc]
      simp only [hc, Option.some.injEq, exists_eq_left', Matches, forall_eq']
      rw [← and_assoc, hsmall, ih, and_congr_right_iff]
      intro hfirst
      rw [and_congr_right_iff]
      intro _
      simp only [hls, List.head?_cons, Option.mem_some_iff, forall_eq'] at hfirst ⊢
      rw [hfirst]
      exact forall₂_congr fun k _ => eq_comm
    rw [SeparatorsExact, forall₂_congr hentry]
    obtain ⟨cs⟩ := h
    cases cs with
    | nil => exact iff_of_true nofun ⟨⟨nofun, nofun⟩, nofun⟩
    | cons e cs =>
      have heok := hok.ok e List.mem_cons_self
      obtain ⟨c, hc, -⟩ := entryOk_succ.1 heok
      obtain ⟨x, ls, hls⟩ := List.exists_cons_of_ne_nil heok.leaves_ne_nil
      have hexact := exact_iff heok
      rw [hls, List.head?_cons] at hexact
      simp only [Option.mem_some_iff, forall_eq'] at hexact
      have hleaves : (leaves (ht + 1) (.mk (e :: cs))).head? = some x := by
        rw [leaves, Node.children_mk, List.flatMap_cons, hls]
        rfl
      rw [edgeKeys_cons hc, hleaves]
      simp only [Option.mem_some_iff, forall_eq', List.mem_cons, forall_eq_or_imp]
      constructor
      · intro hall
        obtain ⟨hex, hnext, hmatch⟩ := hall e List.mem_cons_self
        refine ⟨⟨fun y hy => (hall y hy).2.1, fun y hy => (hall y (List.mem_cons_of_mem e hy)).2.2⟩, hexact.1 hex,
          fun k hk => ?_⟩
        rw [hmatch c hc k hk]
        exact hexact.1 hex
      · rintro ⟨hedge, hfirst, hkeys⟩ y hy
        refine ⟨?_, hedge.all y hy, ?_⟩
        · rcases List.mem_cons.mp hy with rfl | hy
          · exact hexact.2 hfirst
          · exact hok.exact y hy
        · rcases List.mem_cons.mp hy with rfl | hy
          · intro n hn k hk
            rw [hc, Option.some.injEq] at hn
            rw [← hfirst]
            exact (hkeys k (hn ▸ hk)).symm
          · exact hedge.tail y hy

/-! ## Sequences of calls -/

/-- `c` is the first call with the smallest key of all calls, and `before` are the calls before it. -/
def FirstSmallest (calls before : List (CStr × Option CStr)) (c : CStr × Option CStr) : Prop :=
  ∃ after, calls = before ++ c :: after ∧ (∀ d ∈ before, strcmp c.1 d.1 < 0) ∧ ∀ d ∈ after, strcmp c.1 d.1 ≤ 0

variable {calls before : List (CStr × Option CStr)} {d d' : CStr × Option CStr}

/-- A further call with a key that is not smaller. -/
theorem firstSmallest_concat_of_le (h : ∃ x ∈ calls, strcmp x.1 d.1 ≤ 0) :
    FirstSmallest (calls ++ [d]) before d' ↔ FirstSmallest calls before d' := by
  obtain ⟨x, hx, hle⟩ := h
  constructor
  · rintro ⟨after, heq, hbefore, hafter⟩
    rcases List.eq_nil_or_concat after with rfl | ⟨after, y, rfl⟩
    · -- the last call would be smaller than `x`
      obtain ⟨rfl, hd⟩ := List.append_inj' heq rfl
      obtain rfl : d = d' := (List.cons.inj hd).1
      have hlt := strcmp_neg_iff.1 (hbefore x hx)
      exact absurd (strcmp_nonpos_iff.1 hle) (not_le.mpr hlt)
    · rw [List.concat_eq_append, ← List.cons_append, ← List.append_assoc] at heq
      obtain ⟨rfl, -⟩ := List.append_inj' heq rfl
      exact ⟨after, rfl, hbefore, fun y hy => hafter y (by simp [hy])⟩
  · rintro ⟨after, rfl, hbefore, hafter⟩
    refine ⟨after ++ [d], by simp, hbefore, fun y hy => ?_⟩
    rcases List.mem_append.mp hy with hy | hy
    · exact hafter y hy
    · obtain rfl := List.mem_singleton.mp hy
      have hx' : strcmp d'.1 x.1 ≤ 0 := by
        rcases List.mem_append.mp hx with hx | hx
        · exact (hbefore x hx).le
        · rcases List.mem_cons.mp hx with rfl | hx
          · exact strcmp_nonpos_iff.2 le_rfl
          · exact hafter x hx
      exact strcmp_nonpos_iff.2 ((strcmp_nonpos_iff.1 hx').trans (strcmp_nonpos_iff.1 hle))

/-- A further call with a new smallest key. -/
theorem firstSmallest_concat_of_lt (h : ∀ x ∈ calls, strcmp d.1 x.1 < 0) :
    FirstSmallest (calls ++ [d]) before d' ↔ before = calls ∧ d' = d := by
  constructor
  · rintro ⟨after, heq, hbefore, hafter⟩
    rcases List.eq_nil_or_concat after with rfl | ⟨after, y, rfl⟩
    · obtain ⟨rfl, hd⟩ := List.append_inj' heq rfl
      exact ⟨rfl, (List.cons.inj hd).1.symm⟩
    · rw [List.concat_eq_append, ← List.cons_append, ← List.append_assoc] at heq
      obtain ⟨rfl, hd⟩ := List.append_inj' heq rfl
      obtain rfl : d = y := (List.cons.inj hd).1
      have hlt := strcmp_neg_iff.1 (h d' (by simp))
      exact absurd (strcmp_nonpos_iff.1 (hafter d (by simp))) (not_le.mpr hlt)
  · rintro ⟨rfl, rfl⟩
    exact ⟨[], rfl, h, fun y hy => absurd hy List.not_mem_nil⟩

/-- The key of every entry comes from a call. -/
theorem forall_leaves_iff {b : Btree} (hc : b.contents = calls.mergeSort (le fun c => c.1.ord)) (P : CStr → Prop) :
    (∀ e ∈ leaves b.height b.root, P e.key) ↔ ∀ d ∈ calls, P d.1 := by
  have hmem : ∀ d, d ∈ b.contents ↔ d ∈ calls := fun d => by
    rw [hc]
    exact (List.mergeSort_perm _ _).mem_iff
  constructor
  · intro hall d hd
    obtain ⟨e, he, rfl⟩ := List.mem_map.mp ((hmem d).2 hd)
    exact hall e he
  · intro hall e he
    exact hall (pairOf e) ((hmem _).1 (List.mem_map_of_mem he))

/-- The first call with the smallest key finds a tree of at most two levels or a place in the first leaf. -/
def SmallestFits (calls : List (CStr × Option CStr)) : Prop :=
  ∀ before c b, FirstSmallest calls before c → puts before = some b →
    b.height < 2 ∨ (firstLeaf b.height b.root).m + 1 < M

theorem puts_edgesExact (calls : List (CStr × Option CStr)) (hkeys : ∀ c ∈ calls, c.1 ≠ .empty) :
    ∃ b, puts calls = some b ∧ TreeOk b ∧ EdgeInv b ∧ b.contents = calls.mergeSort (le fun c => c.1.ord) ∧
      (EdgesExact b ↔ SmallestFits calls) := by
  induction calls using List.reverseRecOn with
  | nil =>
    refine ⟨initBtree, rfl, treeOk_initBtree, ⟨trivial, nofun⟩, by simp [Btree.contents, leaves, initBtree],
      iff_of_true nofun ?_⟩
    rintro before c b ⟨after, heq, -⟩ -
    simp at heq
  | append_singleton calls c ih =>
    obtain ⟨b, hrun, hok, hinv, hc, hiff⟩ := ih fun d hd => hkeys d (by simp [hd])
    obtain ⟨b', hrun', hok', -, hc'⟩ := puts_spec (calls ++ [c]) hkeys
    have hput : put b (some c.1) c.2 = some b' := by
      rw [puts, List.foldlM_append, ← puts, hrun] at hrun'
      simpa using hrun'
    obtain ⟨hinv', hkept, hnew⟩ := put_edgesExact hok hinv (hkeys c (by simp)) hput
    refine ⟨b', hrun', hok', hinv', hc', ?_⟩
    by_cases hlt : ∀ x ∈ calls, strcmp c.1 x.1 < 0
    · have hall : ∀ e ∈ leaves b.height b.root, c.1.ord < keyOf e :=
        (forall_leaves_iff hc fun k => c.1.ord < k.ord).2 fun x hx => strcmp_neg_iff.1 (hlt x hx)
      rw [hnew hall, SmallestFits]
      simp only [firstSmallest_concat_of_lt hlt]
      constructor
      · rintro h before d n ⟨rfl, rfl⟩ hn
        rw [hrun, Option.some.injEq] at hn
        exact hn ▸ h
      · intro h
        exact h calls c b ⟨rfl, rfl⟩ hrun
    · push Not at hlt
      obtain ⟨x, hx, hle⟩ := hlt
      have hxc : strcmp x.1 c.1 ≤ 0 :=
        strcmp_nonpos_iff.2 (not_lt.mp fun h => absurd (strcmp_neg_iff.2 h) (not_lt.mpr hle))
      have hold : ∃ e ∈ leaves b.height b.root, keyOf e ≤ c.1.ord := by
        by_contra hnone
        have hall := (forall_leaves_iff hc fun k => ¬k.ord ≤ c.1.ord).1 fun e he hle => hnone ⟨e, he, hle⟩
        exact hall x hx (strcmp_nonpos_iff.1 hxc)
      rw [hkept hold, hiff, SmallestFits, SmallestFits]
      simp only [firstSmallest_concat_of_le ⟨x, hx, hxc⟩]

/-- **When the separators are exact** after any calls: the first call with the smallest key finds a tree of at most two
levels or a place in the first leaf. -/
theorem separators_exact_iff (calls : List (CStr × Option CStr)) (hkeys : ∀ c ∈ calls, c.1 ≠ .empty) :
    ∃ b, puts calls = some b ∧ (SeparatorsExact b.height b.root ↔ SmallestFits calls) := by
  obtain ⟨b, hrun, hok, hinv, -, hiff⟩ := puts_edgesExact calls hkeys
  refine ⟨b, hrun, ?_⟩
  rw [separatorsExact_iff b.height b.root hok.entries hok.sorted, ← hiff]
  exact and_iff_right hinv.edge

/-- Ten calls with the keys `j`, …, `a`: the last one splits the first leaf of a tree of three levels. -/
def fallingCalls : List (CStr × Option CStr) := [9, 8, 7, 6, 5, 4, 3, 2, 1, 0].map fun k => (letter k, none)

instance (b : Btree) : Decidable (EdgesExact b) :=
  inferInstanceAs (Decidable (∀ k ∈ edgeKeys b.height b.root, ∀ e ∈ (leaves b.height b.root).head?, e.key = k))

/-- Both sides hold. -/
theorem fiveCalls_separators :
    (∀ c ∈ fiveCalls, c.1 ≠ .empty) ∧ SmallestFits fiveCalls ∧
      ∃ b, puts fiveCalls = some b ∧ b.height = 1 ∧ SeparatorsExact b.height b.root := by
  obtain ⟨b, hrun, hok, hinv, -⟩ := puts_edgesExact fiveCalls (by decide)
  obtain ⟨b', hrun', hiff⟩ := separators_exact_iff fiveCalls (by decide)
  obtain rfl := Option.some.inj (hrun.symm.trans hrun')
  have hb : b = _ := (Option.some.inj hrun).symm
  have hedges : EdgesExact b := by
    rw [hb]
    decide
  have hexact := (separatorsExact_iff b.height b.root hok.entries hok.sorted).2 ⟨hinv.edge, hedges⟩
  exact ⟨by decide, hiff.mp hexact, b, hrun, hb ▸ rfl, hexact⟩

/-- The key of the root's first entry is not the smallest key below it. -/
theorem fallingCalls_separators :
    (∀ c ∈ fallingCalls, c.1 ≠ .empty) ∧
      ∃ b, puts fallingCalls = some b ∧ b.height = 2 ∧ ¬SeparatorsExact b.height b.root := by
  obtain ⟨b, hrun, hok, -⟩ := puts_edgesExact fallingCalls (by decide)
  have hb : b = _ := (Option.some.inj hrun).symm
  refine ⟨by decide, b, hrun, ?_, fun h => ?_⟩
  · rw [hb]
    rfl
  · have hedges : EdgesExact b := ((separatorsExact_iff b.height b.root hok.entries hok.sorted).1 h).2
    rw [hb] at hedges
    exact absurd hedges (by decide)

end OstepHw.BTree
