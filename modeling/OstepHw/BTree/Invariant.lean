import OstepHw.BTree.Model
import OstepHw.Lib.StableSort
import Mathlib.Data.List.Lex

/-!
# The invariant of the B-tree and the effect of `insert`

The routing keys of an internal node are not all exact: slot 0 may hold any key, because a split
stops `mod_parent` from reaching the levels above.  What every level does keep is
`EntriesOk`: the key in every slot *behind the first* is the smallest key below it.  That is
enough, because the routing loops never read slot 0.

* `insert_spec` — on a well-formed node `insert` is defined, gives one or two well-formed nodes of
  the same height, and their leaf entries are the old ones with the new entry placed behind every
  entry that is not larger.  `mod_parent` is set only for a key below every key of the node.
-/

namespace OstepHw.BTree

open StableSort

/-! ## The order of `strcmp` -/

/-- The string as the list of its character codes, which `strcmp` compares lexicographically. -/
def CStr.ord (s : CStr) : List ℕ := s.bytes.map UInt8.toNat

theorem CStr.ord_injective {s t : CStr} (h : s.ord = t.ord) : s = t := by
  obtain ⟨s, hs⟩ := s
  obtain ⟨t, ht⟩ := t
  rw [CStr.mk.injEq]
  exact List.map_injective_iff.2 (fun _ _ => UInt8.toNat_inj.mp) h

theorem strcmpBytes_neg_iff : ∀ {as bs : List UInt8}, 0 ∉ as → 0 ∉ bs →
    (strcmpBytes as bs < 0 ↔ as.map UInt8.toNat < bs.map UInt8.toNat)
  | [], [], _, _ => by simp [strcmpBytes]
  | [], b :: bs, _, hb => by
    have hb0 : b ≠ 0 := fun h => hb (by simp [h])
    have hpos : 0 < b.toNat := Nat.pos_of_ne_zero fun h => hb0 (UInt8.toNat_inj.mp h)
    simp only [strcmpBytes, List.map_nil, List.map_cons]
    exact ⟨fun _ => List.nil_lt_cons _ _, fun _ => by omega⟩
  | a :: as, [], _, _ => by
    simp only [strcmpBytes, List.map_nil, List.map_cons]
    exact ⟨fun h => by omega, fun h => absurd h (List.not_lt_nil _)⟩
  | a :: as, b :: bs, ha, hb => by
    have ih := @strcmpBytes_neg_iff as bs (fun h => ha (List.mem_cons_of_mem _ h))
      (fun h => hb (List.mem_cons_of_mem _ h))
    simp only [strcmpBytes, List.map_cons]
    rw [List.cons_lt_cons_iff]
    split
    · rename_i hab
      subst hab
      simpa using ih
    · rename_i hab
      have hne : a.toNat ≠ b.toNat := fun h => hab (UInt8.toNat_inj.mp h)
      constructor
      · intro h
        exact .inl (by omega)
      · intro h
        rcases h with h | h
        · omega
        · exact absurd h.1 hne

theorem strcmpBytes_swap : ∀ as bs : List UInt8, strcmpBytes as bs = -strcmpBytes bs as
  | [], [] => rfl
  | [], b :: bs => by simp [strcmpBytes]
  | a :: as, [] => by simp [strcmpBytes]
  | a :: as, b :: bs => by
    simp only [strcmpBytes]
    split
    · rename_i hab
      rw [if_pos hab.symm]
      exact strcmpBytes_swap as bs
    · rename_i hab
      rw [if_neg (Ne.symm hab)]
      omega

theorem strcmp_neg_iff {s t : CStr} : strcmp s t < 0 ↔ s.ord < t.ord :=
  strcmpBytes_neg_iff s.nul_free t.nul_free

theorem strcmp_nonpos_iff {s t : CStr} : strcmp s t ≤ 0 ↔ s.ord ≤ t.ord := by
  have hswap : strcmp s t = -strcmp t s := strcmpBytes_swap _ _
  have hle : s.ord ≤ t.ord ↔ ¬ t.ord < s.ord := not_lt.symm
  rw [hle, ← strcmp_neg_iff]
  omega

theorem strcmp_empty_ne_zero {s : CStr} (h : s ≠ .empty) : strcmp s .empty ≠ 0 := by
  obtain ⟨bytes, nul_free⟩ := s
  cases bytes with
  | nil => exact absurd rfl h
  | cons a as =>
    have ha : a ≠ 0 := fun h => nul_free (by simp [h])
    have hpos : a.toNat ≠ 0 := fun h => ha (UInt8.toNat_inj.mp h)
    simpa [strcmp, strcmpBytes, CStr.empty] using hpos

/-- The key an entry is compared by. -/
def keyOf (e : Entry Node) : List ℕ := e.key.ord

/-! ## Leaves and well-formed nodes -/

/-- The leaf entries below an entry of a node of height `ht`. -/
def entryLeaves : Nat → Entry Node → List (Entry Node)
  | 0, e => [e]
  | ht + 1, e =>
    match e.next with
    | none => []
    | some c => c.children.flatMap (entryLeaves ht)

/-- The leaf entries below a node of height `ht`, from left to right. -/
def leaves (ht : Nat) (h : Node) : List (Entry Node) := h.children.flatMap (entryLeaves ht)

/-- The entry's key is the key of the first leaf entry below it. -/
def Exact (ht : Nat) (e : Entry Node) : Prop :=
  (entryLeaves ht e).head?.map keyOf = some (keyOf e)

/-- An entry of a node of height `ht`: the subtree below it has that height, is filled as a
non-root node has to be, and its keys behind each first slot are exact. -/
def EntryOk : Nat → Entry Node → Prop
  | 0, e => e.next = none
  | ht + 1, e => ∃ c, e.next = some c ∧ M / 2 ≤ c.m ∧ c.m < M ∧
      (∀ x ∈ c.children, EntryOk ht x) ∧ ∀ x ∈ c.children.tail, Exact ht x

/-- The entries of a well-formed node of height `ht`. -/
structure EntriesOk (ht : Nat) (cs : List (Entry Node)) : Prop where
  ok : ∀ x ∈ cs, EntryOk ht x
  exact : ∀ x ∈ cs.tail, Exact ht x

theorem entryOk_succ {ht : Nat} {e : Entry Node} :
    EntryOk (ht + 1) e ↔
      ∃ c, e.next = some c ∧ M / 2 ≤ c.m ∧ c.m < M ∧ EntriesOk ht c.children := by
  constructor
  · rintro ⟨c, hc, hlo, hhi, hok, hex⟩
    exact ⟨c, hc, hlo, hhi, hok, hex⟩
  · rintro ⟨c, hc, hlo, hhi, h⟩
    exact ⟨c, hc, hlo, hhi, h.ok, h.exact⟩

theorem entryLeaves_succ {ht : Nat} {e : Entry Node} {c : Node} (h : e.next = some c) :
    entryLeaves (ht + 1) e = leaves ht c := by
  simp [entryLeaves, h, leaves]

theorem leaves_zero (h : Node) : leaves 0 h = h.children :=
  List.flatMap_singleton' h.children

theorem EntryOk.leaves_ne_nil : ∀ {ht : Nat} {e : Entry Node}, EntryOk ht e →
    entryLeaves ht e ≠ []
  | 0, e, _ => by simp [entryLeaves]
  | ht + 1, e, h => by
    obtain ⟨c, hc, hlo, -, hok, -⟩ := h
    intro hnil
    rw [entryLeaves_succ hc, leaves, List.flatMap_eq_nil_iff] at hnil
    cases hcs : c.children with
    | nil => simp [Node.m, hcs] at hlo
    | cons x xs =>
      have hx : x ∈ c.children := by simp [hcs]
      exact (hok x hx).leaves_ne_nil (hnil x hx)

/-! ### Lists whose first element is special -/

/-- All elements satisfy `p`, and those behind the first one satisfy `q`. -/
structure Behind {α : Type} (p q : α → Prop) (l : List α) : Prop where
  all : ∀ x ∈ l, p x
  tail : ∀ x ∈ l.tail, q x

section Behind

variable {α : Type} {p q : α → Prop} {cs l r new : List α} {c c' : α}

theorem Behind.take (h : Behind p q cs) (n : Nat) : Behind p q (cs.take n) := by
  refine ⟨fun x hx => h.all x (List.mem_of_mem_take hx), fun x hx => h.tail x ?_⟩
  rw [← List.drop_one] at hx ⊢
  exact (List.Sublist.drop (List.take_sublist n cs) 1).subset hx

theorem Behind.drop (h : Behind p q cs) (n : Nat) : Behind p q (cs.drop n) := by
  refine ⟨fun x hx => h.all x (List.mem_of_mem_drop hx), fun x hx => h.tail x ?_⟩
  rw [← List.drop_one] at hx ⊢
  exact (List.Sublist.drop (List.drop_sublist n cs) 1).subset hx

theorem Behind.of_mid (h : Behind p q (l ++ c :: r)) (hne : l ≠ []) : q c := by
  apply h.tail
  cases l with
  | nil => exact absurd rfl hne
  | cons y l => simp

/-- One element may be replaced by several: all but the first of them have to satisfy `q`, and the first as well when
it does not come first. -/
theorem Behind.replace (h : Behind p q (l ++ c :: r)) (hp : p c') (hq : l ≠ [] → q c')
    (hnew : ∀ x ∈ new, p x ∧ q x) : Behind p q (l ++ c' :: (new ++ r)) := by
  constructor
  · intro x hx
    simp only [List.mem_append, List.mem_cons] at hx
    rcases hx with hx | rfl | hx | hx
    · exact h.all x (by simp [hx])
    · exact hp
    · exact (hnew x hx).1
    · exact h.all x (by simp [hx])
  · intro x hx
    cases l with
    | nil =>
      simp only [List.nil_append, List.tail_cons, List.mem_append] at hx
      rcases hx with hx | hx
      · exact (hnew x hx).2
      · exact h.tail x (by simp [hx])
    | cons y l =>
      simp only [List.cons_append, List.tail_cons, List.mem_append, List.mem_cons] at hx
      rcases hx with hx | rfl | hx | hx
      · exact h.tail x (by simp [hx])
      · exact hq (by simp)
      · exact (hnew x hx).2
      · exact h.tail x (by simp [hx])

end Behind

theorem EntriesOk.iff_behind {ht : Nat} {cs : List (Entry Node)} :
    EntriesOk ht cs ↔ Behind (EntryOk ht) (Exact ht) cs :=
  ⟨fun h => ⟨h.ok, h.exact⟩, fun h => ⟨h.all, h.tail⟩⟩

theorem EntriesOk.take {ht : Nat} {cs : List (Entry Node)} (h : EntriesOk ht cs) (n : Nat) :
    EntriesOk ht (cs.take n) :=
  iff_behind.2 ((iff_behind.1 h).take n)

theorem EntriesOk.drop {ht : Nat} {cs : List (Entry Node)} (h : EntriesOk ht cs) (n : Nat) :
    EntriesOk ht (cs.drop n) :=
  iff_behind.2 ((iff_behind.1 h).drop n)

theorem EntriesOk.exact_mid {ht : Nat} {l r : List (Entry Node)} {c : Entry Node} (h : EntriesOk ht (l ++ c :: r))
    (hne : l ≠ []) : Exact ht c :=
  (iff_behind.1 h).of_mid hne

/-- One entry of a node may be replaced by several. -/
theorem EntriesOk.replace {ht : Nat} {l r : List (Entry Node)} {c c' : Entry Node}
    {new : List (Entry Node)} (h : EntriesOk ht (l ++ c :: r)) (hok : EntryOk ht c')
    (hc : l ≠ [] → Exact ht c') (hnew : ∀ x ∈ new, EntryOk ht x ∧ Exact ht x) :
    EntriesOk ht (l ++ c' :: (new ++ r)) :=
  iff_behind.2 ((iff_behind.1 h).replace hok hc hnew)

/-! ## One node -/

/-- What inserting into a node of `m` entries has to leave behind: the updated node, perhaps a new
right neighbour, and between them the leaf entries `ls`. -/
structure Inserted (ht m : Nat) (ls : List (Entry Node)) (h : Node) (r : Option Node) : Prop where
  entries : EntriesOk ht h.children
  lt : h.m < M
  filled : m ≤ h.m ∨ h.m = M / 2
  leaves : leaves ht h ++ r.elim [] (leaves ht) = ls
  halves : ∀ n, r = some n → h.m = M / 2 ∧ n.m = M / 2
  right : ∀ n, r = some n → EntriesOk ht n.children ∧
    (BTree.leaves ht n).head?.map keyOf = some n.firstKey.ord

theorem EntriesOk.split {ht : Nat} {cs : List (Entry Node)} (h : EntriesOk ht cs)
    (hlen : cs.length = M) :
    Inserted ht (M / 2) (cs.flatMap (entryLeaves ht)) (split (.mk cs)).1
      (some (split (.mk cs)).2) := by
  obtain ⟨a, b, c, d, rfl⟩ := List.length_eq_four.mp hlen
  have hc : Exact ht c := h.exact c (by simp)
  refine ⟨h.take 2, by simp [BTree.split], .inr (by simp [BTree.split]), ?_, ?_, ?_⟩
  · simp [BTree.split, BTree.leaves]
  · rintro n ⟨rfl⟩
    simp [BTree.split]
  · rintro n ⟨rfl⟩
    refine ⟨(h.drop 2).take 2, ?_⟩
    have hne : entryLeaves ht c ≠ [] := (h.ok c (by simp)).leaves_ne_nil
    obtain ⟨e, ls, hls⟩ := List.exists_cons_of_ne_nil hne
    have hkey : keyOf e = c.key.ord := by simpa [Exact, hls, keyOf] using hc
    simpa [BTree.split, BTree.leaves, hls, Node.firstKey] using hkey

/-- The shared end of `insert`, given that the entries it stores are well-formed. -/
theorem insertNode_spec {ht j : Nat} {h : Node} {t : Entry Node} (mp : Bool) (hm : h.m < M)
    (hj : j ≤ h.m) (hok : EntriesOk ht (h.children.take j ++ t :: h.children.drop j)) :
    ∃ h' r, insertNode h j t mp = some (h', ⟨r, mp⟩) ∧
      Inserted ht (h.m + 1) ((h.children.take j ++ t :: h.children.drop j).flatMap
        (entryLeaves ht)) h' r := by
  have hlen : (h.children.take j ++ t :: h.children.drop j).length = h.m + 1 := by
    simp only [Node.m] at hj ⊢
    simp
    omega
  unfold insertNode
  rw [if_pos hm]
  simp only [Node.m_mk, hlen]
  by_cases hfull : h.m + 1 < M
  · rw [if_pos hfull]
    refine ⟨_, none, rfl, ⟨hok, ?_, .inl hlen.ge, ?_, by simp, by simp⟩⟩
    · exact hlen.trans_lt hfull
    · simp [leaves]
  · have hM : h.m + 1 = M := by omega
    have hs := hok.split (hlen.trans hM)
    rw [if_neg hfull]
    exact ⟨_, _, rfl, ⟨hs.entries, hs.lt, .inr (hs.halves _ rfl).1, hs.leaves, hs.halves,
      hs.right⟩⟩

theorem take_behind {α : Type} (l r : List α) (c : α) : (l ++ c :: r).take (l.length + 1) = l ++ [c] := by
  rw [List.take_append, List.take_of_length_le (by omega)]
  simp

theorem drop_behind {α : Type} (l r : List α) (c : α) : (l ++ c :: r).drop (l.length + 1) = r := by
  rw [List.drop_append, List.drop_of_length_le (by omega)]
  simp

/-- The same for an entry that is stored behind the entry `c`. -/
theorem insertNode_behind {ht : Nat} {l r : List (Entry Node)} {c t : Entry Node} (mp : Bool)
    (hm : (l ++ c :: r).length < M) (hok : EntriesOk ht (l ++ c :: t :: r)) :
    ∃ h' n, insertNode (.mk (l ++ c :: r)) (l.length + 1) t mp = some (h', ⟨n, mp⟩) ∧
      Inserted ht ((l ++ c :: r).length + 1) ((l ++ c :: t :: r).flatMap (entryLeaves ht)) h' n := by
  have hslots : (l ++ c :: r).take (l.length + 1) ++ t :: (l ++ c :: r).drop (l.length + 1) =
      l ++ c :: t :: r := by
    rw [take_behind, drop_behind, List.append_assoc]
    rfl
  have h := insertNode_spec (h := .mk (l ++ c :: r)) (j := l.length + 1) (t := t) mp hm
    (by simp) (by rwa [Node.children_mk, hslots])
  rwa [Node.children_mk, hslots] at h

/-! ## Routing -/

/-- The loop over an internal node stops at an entry `c` that is not above the key, unless it is in
slot 0, and the entry behind it, if there is one, is above the key. -/
theorem route_split {p : Entry Node → Bool} : ∀ (e : Entry Node) (cs : List (Entry Node)),
    ∃ l c r, e :: cs = l ++ c :: r ∧ l.length = cs.findIdx p ∧ (l ≠ [] → p c = false) ∧
      ∀ b ∈ r.head?, p b = true
  | e, [] => ⟨[], e, [], rfl, rfl, by simp, by simp⟩
  | e, b :: cs => by
    cases hb : p b with
    | true => exact ⟨[], e, b :: cs, rfl, by simp [List.findIdx_cons, hb], by simp, by simp [hb]⟩
    | false =>
      obtain ⟨l, c, r, heq, hlen, hl, hr⟩ := route_split (p := p) b cs
      refine ⟨e :: l, c, r, by rw [heq]; rfl, by simp [List.findIdx_cons, hb, hlen], ?_, hr⟩
      intro _
      cases l with
      | nil =>
        obtain rfl : b = c := (List.cons.inj heq).1
        exact hb
      | cons x l => exact hl (by simp)

/-- The entries in front of the one the key is routed to hold keys that are not larger, those
behind it hold larger keys. -/
theorem routed_bounds {ht : Nat} {l r : List (Entry Node)} {c : Entry Node} {key : CStr}
    (hok : EntriesOk ht (l ++ c :: r))
    (hs : Sorted keyOf ((l ++ c :: r).flatMap (entryLeaves ht)))
    (hl : l ≠ [] → ¬ key.ord < keyOf c) (hr : ∀ b ∈ r.head?, key.ord < keyOf b) :
    (∀ x ∈ l.flatMap (entryLeaves ht), keyOf x ≤ key.ord) ∧
      ∀ x ∈ r.flatMap (entryLeaves ht), key.ord < keyOf x := by
  rw [List.flatMap_append, List.flatMap_cons] at hs
  obtain ⟨-, hcr, hcross⟩ := List.pairwise_append.mp hs
  obtain ⟨-, hsr, -⟩ := List.pairwise_append.mp hcr
  constructor
  · intro x hx
    have hne : l ≠ [] := by rintro rfl; simp at hx
    have hex : Exact ht c := hok.exact_mid hne
    obtain ⟨e, ls, hls⟩ := List.exists_cons_of_ne_nil (hok.ok c (by simp)).leaves_ne_nil
    have hkey : keyOf e = keyOf c := by simpa [Exact, hls] using hex
    calc keyOf x ≤ keyOf e := hcross x hx e (by simp [hls])
      _ = keyOf c := hkey
      _ ≤ key.ord := not_lt.mp (hl hne)
  · intro x hx
    cases r with
    | nil => simp at hx
    | cons b r =>
      have hex : Exact ht b := hok.exact b (by cases l <;> simp)
      obtain ⟨e, ls, hls⟩ := List.exists_cons_of_ne_nil (hok.ok b (by simp)).leaves_ne_nil
      have hkey : keyOf e = keyOf b := by simpa [Exact, hls] using hex
      rw [List.flatMap_cons, hls, List.cons_append] at hsr hx
      have hle : keyOf e ≤ keyOf x := Sorted.head_le hsr hx
      exact (hr b rfl).trans_le (hkey ▸ hle)

/-! ## `insert` -/

/-- The entry that a call stores in a leaf. -/
def newEntry (key : CStr) (val : Option CStr) : Entry Node := ⟨key, val, none⟩

/-- `insert` is defined on the node and does what it has to do. -/
def Inserts (ht : Nat) (h : Node) (key : CStr) (val : Option CStr) : Prop :=
  ∃ h' u, insert h key val ht = some (h', u) ∧
    Inserted ht h.m (place keyOf (newEntry key val) (leaves ht h)) h' u.retNode ∧
    (u.modParent = true → ∀ e ∈ leaves ht h, key.ord < keyOf e)

theorem Inserted.mono {ht m m' : Nat} {ls : List (Entry Node)} {h : Node} {r : Option Node}
    (hi : Inserted ht m ls h r) (hm : m' ≤ m) : Inserted ht m' ls h r :=
  ⟨hi.entries, hi.lt, hi.filled.imp_left hm.trans, hi.leaves, hi.halves, hi.right⟩

theorem entriesOk_zero {cs : List (Entry Node)} (h : ∀ x ∈ cs, x.next = none) :
    EntriesOk 0 cs :=
  ⟨h, fun _ _ => rfl⟩

/-- A leaf: storing the new entry in the slot of the first larger key places it. -/
theorem insertNode_leaf {h : Node} {key : CStr} {val : Option CStr} {j : Nat} (mp : Bool)
    (hok : EntriesOk 0 h.children) (hm : h.m < M)
    (hj : j = h.children.findIdx fun e => decide (strcmp key e.key < 0)) :
    ∃ h' r, insertNode h j (newEntry key val) mp = some (h', ⟨r, mp⟩) ∧
      Inserted 0 h.m (place keyOf (newEntry key val) (leaves 0 h)) h' r := by
  have hplace : place keyOf (newEntry key val) h.children =
      h.children.take j ++ newEntry key val :: h.children.drop j := by
    rw [hj]
    apply place_eq_take_drop
    intro b
    rw [decide_eq_true_iff, strcmp_neg_iff]
    rfl
  have hnew : EntriesOk 0 (h.children.take j ++ newEntry key val :: h.children.drop j) := by
    rw [← hplace]
    apply entriesOk_zero
    intro x hx
    rcases mem_place.1 hx with rfl | hx
    · rfl
    · exact hok.ok x hx
  obtain ⟨h', r, hrun, hi⟩ := insertNode_spec mp hm (hj ▸ List.findIdx_le_length) hnew
  refine ⟨h', r, hrun, ?_⟩
  rw [leaves_zero, hplace, ← List.flatMap_singleton' (h.children.take j ++ _)]
  exact hi.mono (Nat.le_succ _)

theorem insert_zero_spec {h : Node} {key : CStr} {val : Option CStr}
    (hok : EntriesOk 0 h.children) (hm : h.m < M) (hs : Sorted keyOf (leaves 0 h))
    (hkey : key ≠ .empty) : Inserts 0 h key val := by
  obtain ⟨cs⟩ := h
  unfold Inserts insert
  cases cs with
  | nil =>
    obtain ⟨h', r, hrun, hi⟩ := @insertNode_leaf _ key val _ false hok hm rfl
    exact ⟨h', ⟨r, false⟩, hrun, hi, by simp⟩
  | cons e cs =>
    rw [leaves_zero] at hs
    rw [if_neg (by simp)]
    by_cases hlt : strcmp key e.key < 0
    · have hj : 0 = (e :: cs).findIdx fun x => decide (strcmp key x.key < 0) := by
        simp [List.findIdx_cons, hlt]
      obtain ⟨h', r, hrun, hi⟩ := @insertNode_leaf _ key val _ true hok hm hj
      rw [if_pos ⟨strcmp_empty_ne_zero hkey, hlt⟩]
      refine ⟨h', ⟨r, true⟩, hrun, hi, fun _ x hx => ?_⟩
      have hlt' : key.ord < keyOf e := strcmp_neg_iff.1 hlt
      rw [leaves_zero] at hx
      exact hlt'.trans_le (hs.head_le hx)
    · have hj : 1 + route key (.mk (e :: cs)) =
          (e :: cs).findIdx fun x => decide (strcmp key x.key < 0) := by
        simp [route, List.findIdx_cons, hlt, Nat.add_comm]
      obtain ⟨h', r, hrun, hi⟩ := @insertNode_leaf _ key val _ false hok hm hj
      rw [if_neg fun h => hlt h.2]
      exact ⟨h', ⟨r, false⟩, hrun, hi, by simp⟩

/-! ## The internal case of `insert` -/

/-- The entry the key was routed to, after the recursive call. -/
def updated (key : CStr) (c : Entry Node) (nx' : Node) (u : InsertRet) : Entry Node :=
  ⟨if u.modParent then key else c.key, c.val, some nx'⟩

/-- The internal case of `insert` around its recursive call. -/
theorem insert_succ_eq {ht : Nat} {h nx nx' : Node} {l r : List (Entry Node)} {c : Entry Node}
    {key : CStr} {val : Option CStr} {u : InsertRet} (heq : h.children = l ++ c :: r)
    (hroute : route key h = l.length) (hnx : c.next = some nx)
    (hrun : insert nx key val ht = some (nx', u)) :
    insert h key val (ht + 1) =
      match u.retNode with
      | none => some (.mk (l ++ updated key c nx' u :: r), u)
      | some n => insertNode (.mk (l ++ updated key c nx' u :: r)) (l.length + 1)
          ⟨n.firstKey, val, some n⟩ false := by
  rw [insert, hroute, heq, List.drop_left]
  cases hret : u.retNode with
  | none => simp [hnx, hrun, hret, updated]
  | some n => simp [hnx, hrun, hret, updated]

/-- The key goes from the node `h` to its entry `c`, into the node `nx` below it. -/
structure Routed (ht : Nat) (key : CStr) (h : Node) (l r : List (Entry Node)) (c : Entry Node) (nx : Node) : Prop where
  children : h.children = l ++ c :: r
  route : route key h = l.length
  next : c.next = some nx
  fill : M / 2 ≤ nx.m
  lt_M : nx.m < M
  entries : EntriesOk ht nx.children
  sorted : Sorted keyOf (leaves ht nx)
  routed : l ≠ [] → ¬ key.ord < keyOf c
  le : ∀ x ∈ l.flatMap (entryLeaves (ht + 1)), keyOf x ≤ key.ord
  lt : ∀ x ∈ r.flatMap (entryLeaves (ht + 1)), key.ord < keyOf x

theorem Routed.pos {ht : Nat} {key : CStr} {h nx : Node} {l r : List (Entry Node)} {c : Entry Node}
    (hr : Routed ht key h l r c nx) : 0 < nx.m := Nat.lt_of_lt_of_le Nat.two_pos hr.fill

theorem exists_routed {ht : Nat} {h : Node} (key : CStr) (hok : EntriesOk (ht + 1) h.children) (hpos : 0 < h.m)
    (hs : Sorted keyOf (leaves (ht + 1) h)) : ∃ l r c nx, Routed ht key h l r c nx := by
  obtain ⟨e, cs, hcs⟩ := List.exists_cons_of_length_pos hpos
  obtain ⟨l, c, r, heq, hlen, hl, hr⟩ := route_split (p := fun x => decide (strcmp key x.key < 0)) e cs
  simp only [decide_eq_false_iff_not, decide_eq_true_eq, strcmp_neg_iff] at hl hr
  have hchildren : h.children = l ++ c :: r := hcs.trans heq
  have hroute : BTree.route key h = l.length := by
    rw [BTree.route, hcs]
    exact hlen.symm
  rw [hchildren] at hok
  rw [leaves, hchildren] at hs
  obtain ⟨nx, hnx, hlo, hhi, hnxok⟩ := entryOk_succ.1 (hok.ok c (by simp))
  have hsnx : Sorted keyOf (leaves ht nx) := by
    rw [List.flatMap_append, List.flatMap_cons, entryLeaves_succ hnx] at hs
    exact (List.pairwise_append.mp (List.pairwise_append.mp hs).2.1).1
  obtain ⟨hle, hgt⟩ := routed_bounds hok hs hl hr
  exact ⟨l, r, c, nx, hchildren, hroute, hnx, hlo, hhi, hnxok, hsnx, hl, hle, hgt⟩

/-- Unless the key went to the first entry, the node it goes to has a key that is not larger. -/
theorem Routed.exists_le {ht : Nat} {key : CStr} {h nx : Node} {l r : List (Entry Node)} {c : Entry Node}
    (hr : Routed ht key h l r c nx) (hok : EntriesOk (ht + 1) h.children) (hne : l ≠ []) :
    ∃ x ∈ leaves ht nx, keyOf x ≤ key.ord := by
  rw [hr.children] at hok
  have hexact : Exact (ht + 1) c := hok.exact_mid hne
  rw [Exact, entryLeaves_succ hr.next, Option.map_eq_some_iff] at hexact
  obtain ⟨x, hx, hkey⟩ := hexact
  exact ⟨x, List.mem_of_mem_head? hx, hkey ▸ not_lt.mp (hr.routed hne)⟩

/-- A node with the entries `l ++ c :: r` of which `c` got the key, and what the recursive call on
the node `nx` below `c` did. -/
structure Descent (ht : Nat) (key : CStr) (val : Option CStr) (l r : List (Entry Node))
    (c : Entry Node) (nx nx' : Node) (u : InsertRet) : Prop where
  entries : EntriesOk (ht + 1) (l ++ c :: r)
  next : c.next = some nx
  fill : M / 2 ≤ nx.m
  routed : l ≠ [] → ¬ key.ord < keyOf c
  le : ∀ x ∈ l.flatMap (entryLeaves (ht + 1)), keyOf x ≤ key.ord
  lt : ∀ x ∈ r.flatMap (entryLeaves (ht + 1)), key.ord < keyOf x
  inserted : Inserted ht nx.m (place keyOf (newEntry key val) (leaves ht nx)) nx' u.retNode
  modParent : u.modParent = true → ∀ e ∈ leaves ht nx, key.ord < keyOf e

section Descent

variable {ht : Nat} {key : CStr} {val : Option CStr} {l r : List (Entry Node)} {c : Entry Node}
  {nx nx' : Node} {u : InsertRet} (h : Descent ht key val l r c nx nx' u)

include h

theorem Descent.updated_ok : EntryOk (ht + 1) (updated key c nx' u) := by
  refine entryOk_succ.2 ⟨nx', rfl, ?_, h.inserted.lt, h.inserted.entries⟩
  rcases h.inserted.filled with hf | hf
  · exact h.fill.trans hf
  · exact hf.ge

/-- Behind slot 0 the entry is still exact, because the key is not below the first key under it. -/
theorem Descent.updated_exact (hne : l ≠ []) :
    u.modParent = false ∧ Exact (ht + 1) (updated key c nx' u) := by
  have hex : Exact (ht + 1) c := h.entries.exact_mid hne
  have hle := h.routed hne
  rw [Exact, entryLeaves_succ h.next, Option.map_eq_some_iff] at hex
  obtain ⟨e, he, hkey⟩ := hex
  have hmem : e ∈ leaves ht nx := List.mem_of_mem_head? he
  have hmp : u.modParent = false := by
    cases hu : u.modParent with
    | false => rfl
    | true => exact absurd (hkey ▸ h.modParent hu e hmem) hle
  refine ⟨hmp, ?_⟩
  -- the first leaf entry stays first, and the left half is not empty
  have hhead : (place keyOf (newEntry key val) (leaves ht nx)).head? = some e :=
    head?_place_of_le he (hkey ▸ not_lt.mp hle)
  have hnil : leaves ht nx' ≠ [] := h.updated_ok.leaves_ne_nil
  rw [← h.inserted.leaves, List.head?_append_of_ne_nil _ hnil] at hhead
  show (leaves ht nx').head?.map keyOf = _
  rw [hhead, Option.map_some, hkey, updated, hmp]
  rfl

/-- The new entry belongs to the leaves below `c`. -/
theorem Descent.place_leaves :
    place keyOf (newEntry key val) ((l ++ c :: r).flatMap (entryLeaves (ht + 1))) =
      l.flatMap (entryLeaves (ht + 1)) ++ ((leaves ht nx' ++ u.retNode.elim [] (leaves ht)) ++
        r.flatMap (entryLeaves (ht + 1))) := by
  rw [List.flatMap_append, List.flatMap_cons, place_append_of_le h.le, place_append_of_lt h.lt,
    entryLeaves_succ h.next, h.inserted.leaves]

/-- Only a key below all keys of the node goes up to the parent. -/
theorem Descent.lt_of_modParent (hu : u.modParent = true) :
    ∀ x ∈ (l ++ c :: r).flatMap (entryLeaves (ht + 1)), key.ord < keyOf x := by
  have hnil : l = [] := by
    by_contra hne
    rw [(h.updated_exact hne).1] at hu
    cases hu
  intro x hx
  rw [hnil, List.nil_append, List.flatMap_cons, entryLeaves_succ h.next] at hx
  rcases List.mem_append.mp hx with hx | hx
  · exact h.modParent hu x hx
  · exact h.lt x hx

/-- The node below was not split. -/
theorem Descent.inserted_of_none (hm : (l ++ c :: r).length < M) (hret : u.retNode = none) :
    Inserted (ht + 1) (l ++ c :: r).length
      (place keyOf (newEntry key val) ((l ++ c :: r).flatMap (entryLeaves (ht + 1))))
      (.mk (l ++ updated key c nx' u :: r)) none := by
  have hnew : EntriesOk (ht + 1) (l ++ updated key c nx' u :: r) := by
    simpa using @EntriesOk.replace _ _ _ _ _ [] h.entries h.updated_ok
      (fun hne => (h.updated_exact hne).2) (by simp)
  rw [h.place_leaves, hret]
  refine ⟨hnew, ?_, .inl ?_, ?_, by simp, by simp⟩
  · simpa using hm
  · simp
  · simp [leaves, entryLeaves, updated]

/-- The node below was split, and its right half `n` gets an entry of its own. -/
theorem Descent.inserted_of_some {n : Node} (hm : (l ++ c :: r).length < M)
    (hret : u.retNode = some n) :
    ∃ h' n', insertNode (.mk (l ++ updated key c nx' u :: r)) (l.length + 1)
        ⟨n.firstKey, val, some n⟩ false = some (h', ⟨n', false⟩) ∧
      Inserted (ht + 1) (l ++ c :: r).length
        (place keyOf (newEntry key val) ((l ++ c :: r).flatMap (entryLeaves (ht + 1)))) h' n' := by
  have hi := h.inserted
  rw [hret] at hi
  obtain ⟨hnok, hnkey⟩ := hi.right n rfl
  have hn : ∀ x ∈ [(⟨n.firstKey, val, some n⟩ : Entry Node)],
      EntryOk (ht + 1) x ∧ Exact (ht + 1) x := by
    intro x hx
    obtain rfl := List.mem_singleton.mp hx
    have hhalf := (hi.halves n rfl).2
    exact ⟨entryOk_succ.2 ⟨n, rfl, hhalf.ge, hhalf ▸ by simp, hnok⟩, hnkey⟩
  have hnew : EntriesOk (ht + 1) (l ++ updated key c nx' u :: ⟨n.firstKey, val, some n⟩ :: r) :=
    h.entries.replace h.updated_ok (fun hne => (h.updated_exact hne).2) hn
  obtain ⟨h', n', hrun, hi'⟩ := insertNode_behind false (by simpa using hm) hnew
  refine ⟨h', n', hrun, ?_⟩
  have hls : (l ++ updated key c nx' u :: ⟨n.firstKey, val, some n⟩ :: r).flatMap
      (entryLeaves (ht + 1)) =
      place keyOf (newEntry key val) ((l ++ c :: r).flatMap (entryLeaves (ht + 1))) := by
    rw [h.place_leaves, hret]
    simp [entryLeaves, leaves, updated]
  rw [← hls]
  apply hi'.mono
  simp

end Descent

theorem Routed.descent {ht : Nat} {key : CStr} {val : Option CStr} {h nx nx' : Node} {l r : List (Entry Node)}
    {c : Entry Node} {u : InsertRet} (hr : Routed ht key h l r c nx) (hok : EntriesOk (ht + 1) h.children)
    (hi : Inserted ht nx.m (place keyOf (newEntry key val) (leaves ht nx)) nx' u.retNode)
    (hmp : u.modParent = true → ∀ e ∈ leaves ht nx, key.ord < keyOf e) : Descent ht key val l r c nx nx' u :=
  ⟨hr.children ▸ hok, hr.next, hr.fill, hr.routed, hr.le, hr.lt, hi, hmp⟩

theorem insert_succ_spec {ht : Nat} {h : Node} {key : CStr} {val : Option CStr}
    (ih : ∀ nx : Node, EntriesOk ht nx.children → M / 2 ≤ nx.m → nx.m < M →
      Sorted keyOf (leaves ht nx) → Inserts ht nx key val)
    (hok : EntriesOk (ht + 1) h.children) (hm : h.m < M) (hpos : 0 < h.m)
    (hs : Sorted keyOf (leaves (ht + 1) h)) : Inserts (ht + 1) h key val := by
  obtain ⟨l, r, c, nx, hr⟩ := exists_routed key hok hpos hs
  obtain ⟨nx', u, hrun, hi, hmp⟩ := ih nx hr.entries hr.fill hr.lt_M hr.sorted
  have hd := hr.descent hok hi hmp
  have hrunh := insert_succ_eq hr.children hr.route hr.next hrun
  rw [Node.m, hr.children] at hm
  unfold Inserts
  rw [leaves, Node.m, hr.children]
  cases hret : u.retNode with
  | none =>
    rw [hret] at hrunh
    refine ⟨_, u, hrunh, ?_, hd.lt_of_modParent⟩
    rw [hret]
    exact hd.inserted_of_none hm hret
  | some n =>
    rw [hret] at hrunh
    obtain ⟨h', n', hrun', hi'⟩ := hd.inserted_of_some hm hret
    exact ⟨h', ⟨n', false⟩, hrunh.trans hrun', hi', by simp⟩

/-- **`insert` on a well-formed node of any height.** -/
theorem insert_spec {key : CStr} (hkey : key ≠ .empty) (val : Option CStr) :
    ∀ (ht : Nat) (h : Node), EntriesOk ht h.children → h.m < M → (ht ≠ 0 → 0 < h.m) →
      Sorted keyOf (leaves ht h) → Inserts ht h key val
  | 0, _, hok, hm, _, hs => insert_zero_spec hok hm hs hkey
  | ht + 1, _, hok, hm, hpos, hs => by
    refine insert_succ_spec (fun nx hnx hlo hhi hsnx => ?_) hok hm (hpos (by simp)) hs
    have h0 : 0 < nx.m := by
      simp at hlo
      omega
    exact insert_spec hkey val ht nx hnx hhi (fun _ => h0) hsnx

end OstepHw.BTree
