import OstepHw.BTree.InsertRefines

/-!
# The memory of the B-tree over a whole run

* `put_refines` — **`put` on blocks is `put` on trees**;
* `freeNode_spec` — `free_node` frees what a node consists of, whatever is in the slots behind the entries;
* `program_builds` — after any calls the memory holds the tree and besides what was there before;
* `program_frees_all` — **nothing leaks, and nothing is used or freed after it has been freed**.
-/

set_option autoImplicit false

namespace OstepHw.BTree.Memory

open Separation Separation.Assn

variable {own : Node → Addr → Assn Cell} {α : Type} {Q : α → Assn Cell} {F : Assn Cell}
  {slots before after : List (Entry Node × Addr)} {vacant : List Addr} {p q : Addr} {i j m : Nat} {e : Entry Node}
  {key : CStr} {val : Option CStr}

/-! ## `put` -/

theorem setFirstKey_spec {h : Node} {u r : Addr} {b : Bool} (hne : h.children ≠ []) :
    Triple (nodeOwn own h p * cell u (.insertRet r b)) (setParentKey u p 0 key) fun _ =>
      nodeOwn own (if b then h.setFirstKey key else h) p * cell u (.insertRet r b) := by
  refine nodeOwn_bind fun slots vacant hslots hlen => ?_
  obtain ⟨children⟩ := h
  rw [Node.children_mk] at hslots hne
  subst hslots
  obtain ⟨⟨e, q⟩, slots, rfl⟩ := List.exists_cons_of_ne_nil (mt List.map_eq_nil_iff.2 hne)
  refine (setParentKey_spec []).post_le fun _ => mul_le_mul_left (le_nodeOwn _ _ ?_ ?_) _
  · cases b <;> rfl
  · exact hlen

theorem setFirstKey_nonempty {h : Node} (hne : h.children ≠ []) : (h.setFirstKey key).children ≠ [] := by
  obtain ⟨children⟩ := h
  cases children with
  | nil => exact absurd rfl hne
  | cons e children => exact List.cons_ne_nil _ _

/-- A new entry takes the place of a placeholder. -/
theorem set_entry (front : List Addr) {t c r : Addr} {back : List Addr} {f : Unit → Prog α} (hi : i = front.length)
    (hf : ∀ e, Triple (cell t (.node m (front ++ e :: back)) * (cell e (.entry key val r) * F)) (f ()) Q) :
    Triple (cell t (.node m (front ++ c :: back)) * (placeholder c * F)) (do
      setChild t i (← initEntry key val r)
      free c >>= f) Q := by
  subst hi
  refine Triple.of_eq (one_mul _).symm (initEntry_spec.bind_frame fun e => ?_)
  refine Triple.of_eq (mul_left_comm ..) (Triple.bind_frame (setChild_cell (by simp)) fun _ => ?_)
  rw [List.set_append_right _ _ le_rfl, Nat.sub_self, List.set_cons_zero]
  refine Triple.of_eq (by ac_rfl : _ = placeholder c * (cell t (.node m (front ++ e :: back)) *
    (cell e (.entry key val r) * F))) (Triple.free_bind (hf e))

/-- The new root. -/
theorem new_root (b r ht : Nat) (n : Int) (u rp d : Nat) {root right : Node} (hne : root.children ≠ [])
    (hright : right.children ≠ []) (f : Bool) :
    Triple (cell b (.btree rp ht n) * (nodeRep (d + 1) root rp * (cell u (.insertRet r f) * nodeRep (d + 1) right r)))
      (do
        let t ← initNode 2
        let oldEntry ← getChild t 0
        setChild t 0 (← initEntry (← keyAt (← getRoot b) 0) none (← getRoot b))
        free oldEntry
        let oldEntry ← getChild t 1
        setChild t 1 (← initEntry (← keyAt (← getRetNode u) 0) none (← getRetNode u))
        free oldEntry
        free u
        setRoot b t
        incHeight b) fun _ => ⨆ t, cell b (.btree t (ht + 1) n) *
          nodeRep (d + 2) (.mk [⟨root.firstKey, none, some root⟩, ⟨right.firstKey, none, some right⟩]) t := by
  refine Triple.of_eq (one_mul _).symm (initNode_spec.bind_frame fun t => ?_)
  refine Triple.iSup_mul fun cs => Triple.of_eq (mul_assoc ..) (Triple.fact_mul fun hcs => ?_)
  obtain ⟨c₀, c₁, c₂, c₃, rfl⟩ : ∃ c₀ c₁ c₂ c₃, cs = [c₀, c₁, c₂, c₃] := by
    match cs, hcs with
    | [c₀, c₁, c₂, c₃], _ => exact ⟨c₀, c₁, c₂, c₃, rfl⟩
  simp only [List.map_cons, List.map_nil, List.prod_cons, List.prod_nil, mul_one]
  obtain ⟨rest, hrest⟩ : ∃ rest, rest = cell b (.btree rp ht n) * (nodeRep (d + 1) root rp *
    (cell u (.insertRet r f) * nodeRep (d + 1) right r)) := ⟨_, rfl⟩
  -- what the new entries are made of
  have hroot : Reads rest (getRoot b) rp := hrest ▸ getRoot_cell.frame _
  have hkey : Reads rest (keyAt rp 0) root.firstKey := hrest ▸ ((firstKey_reads hne).frame _).frame_left _
  have hnext : Reads rest (getRetNode u) r := hrest ▸ ((getRetNode_cell.frame _).frame_left _).frame_left _
  have hkey' : Reads rest (keyAt r 0) right.firstKey :=
    hrest ▸ (((firstKey_reads hright).frame_left _).frame_left _).frame_left _
  rw [← hrest]
  refine Reads.bind (.of_eq (mul_assoc ..) ((getChild_cell (q := c₀) rfl).frame _)) ?_
  refine Reads.bind (hroot.frame_left _) (Reads.bind (hkey.frame_left _) (Reads.bind (hroot.frame_left _) ?_))
  refine Triple.of_eq (by ac_rfl : _ = cell t (.node 2 ([] ++ c₀ :: [c₁, c₂, c₃])) * (placeholder c₀ *
    (placeholder c₁ * (placeholder c₂ * placeholder c₃) * rest))) (set_entry [] rfl fun e₀ => ?_)
  refine Reads.bind ((getChild_cell (q := c₁) rfl).frame _) ?_
  rw [← mul_assoc (cell e₀ _), ← mul_assoc (cell t _)]
  refine Reads.bind (hnext.frame_left _) (Reads.bind (hkey'.frame_left _) (Reads.bind (hnext.frame_left _) ?_))
  refine Triple.of_eq (by rw [List.nil_append]; ac_rfl : _ = cell t (.node 2 ([e₀] ++ c₁ :: [c₂, c₃])) *
    (placeholder c₁ * (placeholder c₂ * placeholder c₃ * (cell e₀ (.entry root.firstKey none rp) * rest))))
    (set_entry [e₀] rfl fun e₁ => ?_)
  subst hrest
  refine Triple.of_eq (by ac_rfl : _ = cell u (.insertRet r f) * (cell b (.btree rp ht n) * 
    (cell t (.node 2 ([e₀] ++ e₁ :: [c₂, c₃])) * (cell e₁ (.entry right.firstKey none r) *
    (placeholder c₂ * placeholder c₃ * (cell e₀ (.entry root.firstKey none rp) *
    (nodeRep (d + 1) root rp * nodeRep (d + 1) right r))))))) (Triple.free_bind ?_)
  refine Triple.bind_frame setRoot_cell fun _ => (incHeight_cell.frame _).post_le fun _ => ?_
  refine le_iSup_of_le t (mul_le_mul_right ?_ _)
  refine le_trans ?_ (le_nodeOwn [(⟨root.firstKey, none, some root⟩, e₀), (⟨right.firstKey, none, some right⟩, e₁)]
    [c₂, c₃] rfl rfl)
  have hleft : cell e₀ (.entry root.firstKey none rp) * nodeRep (d + 1) root rp ≤
      entryRep (nodeRep (d + 1)) ⟨root.firstKey, none, some root⟩ e₀ := le_iSup_of_le rp le_rfl
  have hright : cell e₁ (.entry right.firstKey none r) * nodeRep (d + 1) right r ≤
      entryRep (nodeRep (d + 1)) ⟨right.firstKey, none, some right⟩ e₁ := le_iSup_of_le r le_rfl
  calc _ = cell t (.node 2 [e₀, e₁, c₂, c₃]) * (cell e₀ (.entry root.firstKey none rp) * nodeRep (d + 1) root rp *
        (cell e₁ (.entry right.firstKey none r) * nodeRep (d + 1) right r) * ([c₂, c₃].map placeholder).prod) := by
        simp only [List.map_cons, List.map_nil, List.prod_cons, List.prod_nil, mul_one, List.cons_append,
          List.nil_append]
        ac_rfl
    _ ≤ cell t (.node 2 [e₀, e₁, c₂, c₃]) * (entryRep (nodeRep (d + 1)) ⟨root.firstKey, none, some root⟩ e₀ *
        entryRep (nodeRep (d + 1)) ⟨right.firstKey, none, some right⟩ e₁ * ([c₂, c₃].map slotRep).prod) :=
        mul_le_mul_right (mul_le_mul' (mul_le_mul' hleft hright) placeholders_le) _
    _ = _ := by
        rw [nodeAt, ← entriesRep, entriesRep_cons, entriesRep_cons, entriesRep_nil, mul_one]
        rfl

/-- **`put` on a tree in memory**: it changes the tree as `put` on trees does, and nothing else. -/
theorem put_refines {b b' : Btree} (hrun : BTree.put b (some key) val = some b') :
    Triple (btreeRep b p) (put p (some key) val) fun _ => btreeRep b' p := by
  rw [BTree.put] at hrun
  simp only [Option.bind_eq_bind, Option.bind_eq_some_iff] at hrun
  obtain ⟨⟨root, u⟩, hinsert, hrun⟩ := hrun
  obtain ⟨hne, hright⟩ := insert_nonempty hinsert
  refine Triple.iSup fun r => ?_
  refine Reads.bind (getRoot_cell.frame _) (Reads.bind (getHeight_cell.frame _) ?_)
  rw [mul_comm]
  refine Triple.bind_frame (insert_refines b.height hinsert) fun a => ?_
  refine Triple.of_eq (mul_comm ..) (Triple.bind_frame incN_cell fun _ => ?_)
  refine Reads.bind (getRoot_cell.frame _) ?_
  rw [mul_comm (nodeRep _ _ _), retRep, Quantale.iSup_mul_distrib, Quantale.mul_iSup_distrib]
  refine Triple.iSup fun r' => ?_
  refine Triple.of_eq (by ac_rfl : _ = nodeRep (b.height + 1) root r * cell a (.insertRet r' u.modParent) *
    (cell p (.btree r b.height (CInt.toInt (b.n + 1))) * nextRep (nodeRep (b.height + 1)) u.retNode r')) ?_
  refine Triple.bind_frame (setFirstKey_spec hne) fun _ => ?_
  have hne' : (if u.modParent then root.setFirstKey key else root).children ≠ [] := by
    split
    · exact setFirstKey_nonempty hne
    · exact hne
  generalize (if u.modParent then root.setFirstKey key else root) = root' at hrun hne'
  refine Reads.bind ((getRetNode_cell.frame_left _).frame _) ?_
  cases hret : u.retNode with
  | none =>
    rw [hret] at hrun
    obtain rfl := Option.some.inj hrun
    refine Triple.of_eq (by rw [nextRep, ← mul_assoc, mul_comm]) (Triple.fact_mul fun hr => ?_)
    rw [if_pos hr, mul_comm (nodeOwn _ _ _), mul_assoc, ← bind_pure (free a)]
    refine Triple.free_bind (Triple.pure ?_)
    rw [mul_comm]
    exact le_iSup_of_le r le_rfl
  | some n =>
    rw [hret] at hrun
    obtain rfl := Option.some.inj hrun
    refine Triple.of_eq (by rw [nextRep, ← mul_assoc, mul_comm]) ?_
    refine Triple.of_holds nodeOwn_ne_null fun hr => ?_
    rw [if_neg hr]
    have hnew := new_root p r' b.height (CInt.toInt (b.n + 1)) a r b.height hne' (hright n hret) u.modParent
    rw [← nodeRep_succ]
    refine Triple.of_eq ?_ hnew
    ac_rfl

/-- An entry of a leaf, with a letter as its key. -/
def leafEntry (k : Fin 26) : Entry Node := ⟨letter k, none, none⟩

/-- A new smallest key in a leaf with room for one more entry: the entries move, the leaf is split, and the root gets
a new one above it. -/
theorem put_refines_split :
    Triple (btreeRep ⟨.mk [leafEntry 1, leafEntry 2, leafEntry 3], 0, 3⟩ 1) (put 1 (some (leafEntry 0).key) none)
      fun _ => btreeRep ⟨.mk [⟨(leafEntry 0).key, none, some (.mk [leafEntry 0, leafEntry 1])⟩,
        ⟨(leafEntry 2).key, none, some (.mk [leafEntry 2, leafEntry 3])⟩], 1, 4⟩ 1 :=
  put_refines rfl

/-! ## `free_node` -/

/-- What a slot points to, if to anything. -/
def childRep (own : Node → Addr → Assn Cell) (p : Addr) : Assn Cell := fact (p = 0) ⊔ ⨆ e, entryRep own e p

theorem nodeAt_le : nodeAt own p slots vacant ≤ cell p (.node slots.length (slots.map Prod.snd ++ vacant)) *
    ((slots.map Prod.snd ++ vacant).map (childRep own)).prod := by
  rw [List.map_append, List.map_map, List.prod_append]
  refine mul_le_mul_right (mul_le_mul' (List.prod_le_prod' fun s _ => ?_) (List.prod_le_prod' fun q _ => ?_)) _
  · exact le_sup_of_le_right (le_iSup (fun e => entryRep own e s.2) s.1)
  · refine sup_le_sup le_rfl ?_
    rw [placeholder, ← entryRep_leaf own]
    exact le_iSup (fun e => entryRep own e q) _

theorem nodeRep_ne_null {d : Nat} {h : Node} (k : Heap Cell) (hk : (nodeRep d h p).Holds k) : p ≠ 0 := by
  cases d with
  | zero => exact hk.elim
  | succ d => exact nodeOwn_ne_null k hk

theorem entryRep_ne_null (k : Heap Cell) (hk : (⨆ e, entryRep own e p).Holds k) : p ≠ 0 := by
  obtain ⟨e, hk⟩ := holds_iSup.1 hk
  obtain ⟨q, hk⟩ := holds_iSup.1 hk
  exact (holds_cell_mul.1 hk).1

/-- One turn of the loop of `free_node`. -/
theorem free_child {c : Addr} {cs : List Addr} {fuel : Nat}
    (hfree : ∀ h q, Triple (own h q) (freeNode fuel q) fun _ => 1)
    (hnull : ∀ h q k, (own h q).Holds k → q ≠ 0) (hi : cs[i]? = some c) :
    Triple (cell p (.node m cs) * childRep own c) (do
      let child ← getChild p i
      if child ≠ 0 then
        let targetNode ← getNext child
        if targetNode ≠ 0 then freeNode fuel targetNode
        free (← getChild p i)) fun _ => cell p (.node m cs) := by
  refine ((getChild_cell hi).frame _).bind ?_
  rw [mul_comm]
  refine Triple.sup_mul (Triple.fact_mul fun hc => ?_) (Triple.of_holds entryRep_ne_null fun hc => ?_)
  · rw [if_neg (not_not_intro hc)]
    exact Triple.pure le_rfl
  · rw [if_pos hc]
    refine Triple.iSup_mul fun e => Triple.iSup_mul fun next => Triple.of_eq (mul_assoc ..) ?_
    refine (getNext_cell.frame _).bind ?_
    have hend : Triple (cell c (.entry e.key e.val next) * cell p (.node m cs)) (do free (← getChild p i))
        fun _ => cell p (.node m cs) := by
      refine ((getChild_cell hi).frame_left _).bind ?_
      rw [← bind_pure (free c)]
      exact Triple.free_bind (Triple.pure le_rfl)
    cases hnext : e.next with
    | none =>
      refine Triple.of_eq (by rw [nextRep, mul_left_comm]) (Triple.fact_mul fun hq => ?_)
      rw [if_neg (not_not_intro hq)]
      exact hend
    | some n =>
      refine Triple.of_eq (by rw [nextRep, mul_left_comm]) (Triple.of_holds (hnull n next) fun hq => ?_)
      rw [if_pos hq]
      refine Triple.bind_frame (hfree n next) fun _ => ?_
      rw [one_mul]
      exact hend

theorem freeNode_spec {d fuel : Nat} {h : Node} (hfuel : d ≤ fuel) :
    Triple (nodeRep d h p) (freeNode fuel p) fun _ => 1 := by
  induction d generalizing fuel h p with
  | zero => exact Triple.bot
  | succ d ih =>
    obtain ⟨fuel, rfl⟩ : ∃ k, fuel = k + 1 := ⟨fuel - 1, by omega⟩
    rw [← mul_one (nodeRep (d + 1) h p)]
    refine nodeOwn_bind fun slots vacant _ hlen => ?_
    rw [mul_one]
    have hcs : (slots.map Prod.snd ++ vacant).length = M := by rwa [List.length_append, List.length_map]
    refine Triple.of_le nodeAt_le ?_
    generalize slots.map Prod.snd ++ vacant = cs at hcs
    refine Triple.bind (Triple.forM_range (fun i => cell p (.node slots.length cs) *
      ((cs.drop i).map (childRep (nodeRep d))).prod) M fun i hi => ?_) fun _ => ?_
    · obtain ⟨c, hget⟩ : ∃ c, cs[i]? = some c := ⟨_, List.getElem?_eq_getElem (hcs ▸ hi)⟩
      have hdrop : cs.drop i = c :: cs.drop (i + 1) := by
        obtain ⟨hlt, rfl⟩ := List.getElem?_eq_some_iff.1 hget
        exact List.drop_eq_getElem_cons hlt
      rw [hdrop, List.map_cons, List.prod_cons, ← mul_assoc]
      exact Triple.frame (free_child (fun _ _ => ih (by omega)) (fun _ _ k hk => nodeRep_ne_null k hk) hget) _
    · rw [List.drop_of_length_le hcs.le, List.map_nil, List.prod_nil, mul_one]
      exact Triple.free_step

/-! ## Any keys

`BTree.put` is defined for the empty key too, which has no place in the order of a tree: the memory does not depend on
the order. -/

def EntryShape : Nat → Entry Node → Prop
  | 0, _ => True
  | ht + 1, e => ∃ c, e.next = some c ∧ 0 < c.m ∧ c.m < M ∧ ∀ x ∈ c.children, EntryShape ht x

/-- There is room in every node, and below an internal node there are others. -/
structure Shape (ht : Nat) (h : Node) : Prop where
  lt : h.m < M
  entries : ∀ x ∈ h.children, EntryShape ht x

theorem insertNode_shape {ht : Nat} {h : Node} (hh : Shape ht h) (j : Nat) (he : EntryShape ht e) (b : Bool) :
    ∃ h' u, BTree.insertNode h j e b = some (h', u) ∧ Shape ht h' ∧ ∀ n, u.retNode = some n → Shape ht n := by
  have hmem : ∀ x ∈ h.children.take j ++ e :: h.children.drop j, EntryShape ht x := by
    intro x hx
    rcases List.mem_append.1 hx with hx | hx
    · exact hh.entries x (List.mem_of_mem_take hx)
    · rcases List.mem_cons.1 hx with rfl | hx
      · exact he
      · exact hh.entries x (List.mem_of_mem_drop hx)
  rw [BTree.insertNode, if_pos hh.lt]
  dsimp only
  split
  · next hlt => exact ⟨_, _, rfl, ⟨hlt, hmem⟩, fun n hn => by cases hn⟩
  · refine ⟨_, _, rfl, ⟨?_, fun x hx => hmem x (List.mem_of_mem_take hx)⟩, fun n hn => ?_⟩
    · rw [BTree.split, Node.m_mk, Node.children_mk, List.length_take]
      exact (Nat.min_le_left _ _).trans_lt (by decide)
    · obtain rfl := Option.some.inj hn
      refine ⟨?_, fun x hx => hmem x (List.mem_of_mem_drop (List.mem_of_mem_take hx))⟩
      rw [BTree.split, Node.m_mk, Node.children_mk, List.length_take]
      exact (Nat.min_le_left _ _).trans_lt (by decide)

theorem insert_shape (key : CStr) (val : Option CStr) (ht : Nat) {h : Node} (hh : Shape ht h)
    (hpos : ht ≠ 0 → 0 < h.m) :
    ∃ h' u, BTree.insert h key val ht = some (h', u) ∧ Shape ht h' ∧ ∀ n, u.retNode = some n → Shape ht n := by
  induction ht generalizing h with
  | zero =>
    rw [BTree.insert]
    split_ifs <;> exact insertNode_shape hh _ trivial _
  | succ ht ih =>
    have hroute : route key h < h.children.length := route_lt key (hpos (Nat.succ_ne_zero ht))
    obtain ⟨c, hc, hcpos, hclt, hcentries⟩ := hh.entries _ (List.getElem_mem hroute)
    obtain ⟨c', u, hcall, hc', hright⟩ := ih ⟨hclt, hcentries⟩ fun _ => hcpos
    have hset : Shape (ht + 1) (.mk (h.children.set (route key h)
        ⟨if u.modParent then key else h.children[route key h].key, h.children[route key h].val, some c'⟩)) := by
      refine ⟨by rw [Node.m_mk, List.length_set]; exact hh.lt, fun x hx => ?_⟩
      rcases List.mem_or_eq_of_mem_set hx with hx | rfl
      · exact hh.entries x hx
      · exact ⟨c', rfl, List.length_pos_of_ne_nil (insert_nonempty hcall).1, hc'.lt, hc'.entries⟩
    rw [BTree.insert]
    simp only [List.drop_eq_getElem_cons hroute, hc, hcall, Option.bind_eq_bind, Option.bind_some]
    cases hret : u.retNode with
    | none => exact ⟨_, _, rfl, hset, fun n hn => by rw [hret] at hn; cases hn⟩
    | some n =>
      have hn := hright n hret
      have hnpos : 0 < n.m := List.length_pos_of_ne_nil ((insert_nonempty hcall).2 n hret)
      exact insertNode_shape hset _ ⟨n, rfl, hnpos, hn.lt, hn.entries⟩ _

theorem Shape.setFirstKey {ht : Nat} {h : Node} (hh : Shape ht h) (key : CStr) : Shape ht (h.setFirstKey key) := by
  obtain ⟨children⟩ := h
  cases children with
  | nil => exact hh
  | cons e children =>
    refine ⟨hh.lt, fun x hx => ?_⟩
    rcases List.mem_cons.1 hx with rfl | hx
    · have he := hh.entries e List.mem_cons_self
      cases ht with
      | zero => trivial
      | succ ht => exact he
    · exact hh.entries x (List.mem_cons_of_mem _ hx)

/-- The shape of a whole tree. -/
structure TreeShape (b : Btree) : Prop where
  root : Shape b.height b.root
  pos : b.height ≠ 0 → 0 < b.root.m

theorem put_shape {b : Btree} (hb : TreeShape b) (key val : Option CStr) :
    ∃ b', BTree.put b key val = some b' ∧ TreeShape b' := by
  cases key with
  | none => exact ⟨b, rfl, hb⟩
  | some key =>
    obtain ⟨root, u, hinsert, hroot, hright⟩ := insert_shape key val b.height hb.root hb.pos
    obtain ⟨hne, hne'⟩ := insert_nonempty hinsert
    have hfirst : Shape b.height (if u.modParent then root.setFirstKey key else root) := by
      split
      · exact hroot.setFirstKey key
      · exact hroot
    have hpos : 0 < (if u.modParent then root.setFirstKey key else root).m := by
      split
      · exact List.length_pos_of_ne_nil (setFirstKey_nonempty hne)
      · exact List.length_pos_of_ne_nil hne
    simp only [BTree.put, hinsert, Option.bind_eq_bind, Option.bind_some]
    generalize (if u.modParent then root.setFirstKey key else root) = root' at hfirst hpos
    cases hret : u.retNode with
    | none => exact ⟨_, rfl, hfirst, fun _ => hpos⟩
    | some n =>
      have hn := hright n hret
      refine ⟨_, rfl, ⟨(by decide : 2 < M), fun x hx => ?_⟩, fun _ => Nat.two_pos⟩
      rcases List.mem_pair.1 hx with rfl | rfl
      · exact ⟨root', rfl, hpos, hfirst.lt, hfirst.entries⟩
      · exact ⟨n, rfl, List.length_pos_of_ne_nil (hne' n hret), hn.lt, hn.entries⟩

/-- The calls of `put`, on trees. -/
def puts (calls : List (Option CStr × Option CStr)) : Option Btree :=
  calls.foldlM (fun b c => BTree.put b c.1 c.2) BTree.initBtree

theorem put_spec {b : Btree} (hb : TreeShape b) (key val : Option CStr) :
    Triple (btreeRep b p) (put p key val)
      fun _ => ⨆ b', fact (BTree.put b key val = some b' ∧ TreeShape b') * btreeRep b' p := by
  obtain ⟨b', hrun, hb'⟩ := put_shape hb key val
  have hpost : btreeRep b' p ≤ ⨆ b', fact (BTree.put b key val = some b' ∧ TreeShape b') * btreeRep b' p :=
    le_iSup_of_le b' (le_fact_mul ⟨hrun, hb'⟩ le_rfl)
  cases key with
  | none =>
    obtain rfl := Option.some.inj hrun
    exact Triple.pure hpost
  | some key => exact (put_refines hrun).post_le fun _ => hpost

theorem initBtree_spec : Triple (1 : Assn Cell) initBtree fun p => btreeRep BTree.initBtree p := by
  refine Triple.malloc_bind fun b => ?_
  refine Triple.of_eq (by rw [mul_one, one_mul] : _ = 1 * cell b (.btree 0 0 0)) ?_
  refine Triple.bind_frame initNode_spec fun root => ?_
  refine Triple.iSup_mul fun cs => Triple.of_eq (mul_assoc ..) (Triple.fact_mul fun hcs => ?_)
  rw [mul_comm]
  refine Triple.bind_frame setRoot_cell fun _ => Triple.pure (le_iSup_of_le root (mul_le_mul_right ?_ _))
  refine le_trans ?_ (le_nodeOwn [] cs rfl (by rw [hcs]; rfl))
  rw [nodeAt, ← entriesRep, entriesRep_nil, one_mul]
  exact mul_le_mul_right placeholders_le _

/-- **What a sequence of calls builds**: a tree, and nothing else. -/
theorem puts_spec (calls : List (Option CStr × Option CStr)) :
    Triple (btreeRep BTree.initBtree p) (calls.forM fun c => put p c.1 c.2)
      fun _ => ⨆ b, fact (puts calls = some b ∧ TreeShape b) * btreeRep b p := by
  refine Triple.of_le ?_ (Triple.forM (fun done => ⨆ b, fact (puts done = some b ∧ TreeShape b) * btreeRep b p) calls
    fun done c rest _ => ?_)
  · have hstart : TreeShape BTree.initBtree := ⟨⟨by decide, fun x _ => trivial⟩, fun h => absurd rfl h⟩
    exact le_iSup_of_le BTree.initBtree (le_fact_mul ⟨rfl, hstart⟩ le_rfl)
  · refine Triple.iSup fun b => Triple.fact_mul fun ⟨hrun, hb⟩ => ?_
    refine (put_spec hb c.1 c.2).post_le fun _ => iSup_mono fun b' => ?_
    rintro h hh
    obtain ⟨⟨hput, hb'⟩, hh⟩ := holds_fact_mul.1 hh
    refine holds_fact_mul.2 ⟨⟨?_, hb'⟩, hh⟩
    rw [puts, List.foldlM_append, ← puts, hrun]
    simpa using hput

/-- **After any calls the memory holds the tree that the calls build, and besides only what was there before.** -/
theorem program_builds (calls : List (Option CStr × Option CStr)) (m : Mem Cell) :
    ∃ b p m', puts calls = some b ∧
      (do let btree ← initBtree; calls.forM fun c => put btree c.1 c.2; return btree : Prog Addr) m = some (p, m') ∧
      (btreeRep b p * exactly m.heap).Holds m'.heap := by
  have hall : Triple (1 : Assn Cell) (do
      let btree ← initBtree
      calls.forM fun c => put btree c.1 c.2
      return btree : Prog Addr) fun p => ⨆ b, fact (puts calls = some b) * btreeRep b p := by
    refine Triple.bind initBtree_spec fun p => Triple.bind (puts_spec calls) fun _ => ?_
    refine Triple.pure (iSup_mono fun b => ?_)
    intro h hh
    obtain ⟨⟨hrun, -⟩, hh⟩ := holds_fact_mul.1 hh
    exact holds_fact_mul.2 ⟨hrun, hh⟩
  obtain ⟨p, m', hrun, hm'⟩ := hall.run m
  rw [Quantale.iSup_mul_distrib] at hm'
  obtain ⟨b, hm'⟩ := holds_iSup.1 hm'
  rw [mul_assoc] at hm'
  obtain ⟨hputs, hm'⟩ := holds_fact_mul.1 hm'
  exact ⟨b, p, m', hputs, hrun, hm'⟩

/-- **Nothing leaks and nothing is freed twice**: a turn of the loop of `main` is defined, and afterwards just the
blocks are allocated that were allocated before. -/
theorem program_frees_all (calls : List (Option CStr × Option CStr)) :
    ∃ b, puts calls = some b ∧
      ∀ fuel > b.height, ∀ m : Mem Cell, ∃ m', turn fuel calls m = some ((), m') ∧ m'.heap = m.heap := by
  obtain ⟨b, -, -, hputs, -⟩ := program_builds calls ⟨[]⟩
  refine ⟨b, hputs, fun fuel hfuel m => ?_⟩
  have hturn : Triple (1 : Assn Cell) (turn fuel calls) fun _ => 1 := by
    refine Triple.bind initBtree_spec fun p => Triple.bind (puts_spec calls) fun _ => ?_
    refine Triple.iSup fun b' => Triple.fact_mul fun ⟨hputs', _⟩ => ?_
    obtain rfl := Option.some.inj (hputs.symm.trans hputs')
    refine Triple.iSup fun root => (getRoot_cell.frame _).bind ?_
    rw [mul_comm]
    refine Triple.bind_frame (freeNode_spec hfuel) fun _ => ?_
    rw [one_mul]
    exact Triple.free_step
  obtain ⟨_, m', hrun, hm'⟩ := hturn.heap_eq m
  exact ⟨m', hrun, hm'⟩

end OstepHw.BTree.Memory
