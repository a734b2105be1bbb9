import OstepHw.BTree.Blocks

/-!
# `insert` on blocks

* `shift_spec`, `split_spec`, `insertNode_spec` — the end of an insertion;
* `insert_leaf`, `insert_call`, `insert_return` — a leaf; an internal node up to the return of the call, and from there;
* `insert_refines` — **`insert` on blocks is `insert` on trees**.
-/

set_option autoImplicit false

namespace OstepHw.BTree.Memory

open Separation Separation.Assn

variable {own : Node → Addr → Assn Cell} {α : Type} {Q : α → Assn Cell} {F : Assn Cell}
  {slots before after : List (Entry Node × Addr)} {vacant : List Addr} {p q : Addr} {i j m : Nat} {e : Entry Node}
  {key : CStr} {val : Option CStr}

/-! ## The end of an insertion -/

theorem free_slot_bind {f : Unit → Prog α} (hf : Triple F (f ()) Q) : Triple (slotRep p * F) (free p >>= f) Q :=
  Triple.sup_mul (Triple.fact_mul fun hp => hp ▸ Triple.free_null_bind hf) (Triple.free_bind hf)

theorem shift_self (h : Addr) (j : Nat) : shift h j j = Pure.pure () := by
  cases j with
  | zero => rfl
  | succ j => rw [shift, if_neg (Nat.lt_irrefl _)]

/-- The entries from slot `j` on move to the next slot, and slot `j` may be overwritten. -/
theorem shift_spec (front back : List Addr) (x : Addr) (rest : List Addr) :
    Triple (cell p (.node m (front ++ (back ++ x :: rest)))) (shift p front.length (front.length + back.length))
      fun _ => ⨆ y, cell p (.node m (front ++ y :: (back ++ rest))) := by
  induction back using List.reverseRecOn generalizing x rest with
  | nil =>
    rw [List.length_nil, Nat.add_zero, shift_self]
    exact Triple.pure (le_iSup_of_le x le_rfl)
  | append_singleton back y ih =>
    rw [List.length_append, List.length_singleton, ← Nat.add_assoc, shift, if_pos (by omega)]
    refine (getChild_cell (q := y) (by simp)).bind ?_
    refine Triple.bind (setChild_cell (by simp; omega)) fun _ => ?_
    have hset : (front ++ (back ++ [y] ++ x :: rest)).set (front.length + back.length + 1) y =
        front ++ (back ++ y :: (y :: rest)) := by
      simp [Nat.add_assoc]
    rw [hset]
    simpa using ih y (y :: rest)

section Split

variable {t : Addr} {ps qs cs ds : List Addr}

/-- The first `i` entries of the right half have moved. -/
def moving (p t : Addr) (ps qs cs ds : List Addr) (i : Nat) : Assn Cell :=
  cell p (.node (M / 2) (ps ++ (List.replicate i 0 ++ qs.drop i))) *
    (cell t (.node (M / 2) (qs.take i ++ (cs.drop i ++ ds))) * ((cs.drop i).map placeholder).prod)

theorem moving_step (hps : ps.length = M / 2) (hqs : qs.length = M / 2) (hcs : cs.length = M / 2) (hi : i < M / 2) :
    Triple (moving p t ps qs cs ds i) (do
      let oldEntry ← getChild t i
      setChild t i (← getChild p (M / 2 + i))
      free oldEntry
      setChild p (M / 2 + i) 0) fun _ => moving p t ps qs cs ds (i + 1) := by
  obtain ⟨q, hq⟩ : ∃ q, qs.drop i = q :: qs.drop (i + 1) := ⟨_, List.drop_eq_getElem_cons (hqs ▸ hi)⟩
  obtain ⟨c, hc⟩ : ∃ c, cs.drop i = c :: cs.drop (i + 1) := ⟨_, List.drop_eq_getElem_cons (hcs ▸ hi)⟩
  have hlen : (qs.take i).length = i := by rw [List.length_take, hqs, Nat.min_eq_left hi.le]
  have htake : qs.take (i + 1) = qs.take i ++ [q] := by
    rw [List.take_add, hq]
    rfl
  have hslot : (ps ++ (List.replicate i 0 ++ q :: qs.drop (i + 1)))[M / 2 + i]? = some q := by
    rw [← hps, List.getElem?_append_right (Nat.le_add_right ..)]
    simp
  have hset : (ps ++ (List.replicate i 0 ++ q :: qs.drop (i + 1))).set (M / 2 + i) 0 =
      ps ++ (List.replicate (i + 1) 0 ++ qs.drop (i + 1)) := by
    rw [← hps, List.set_append_right _ _ (Nat.le_add_right ..), List.replicate_succ']
    simp
  have hset' : (qs.take i ++ (c :: cs.drop (i + 1) ++ ds)).set i q = qs.take (i + 1) ++ (cs.drop (i + 1) ++ ds) := by
    rw [List.set_append_right _ _ hlen.le, hlen, htake]
    simp
  rw [moving, hq, hc, List.map_cons, List.prod_cons]
  refine Reads.bind (.of_eq (mul_left_comm ..) ((getChild_cell (q := c) (by simp [hlen])).frame _)) ?_
  refine Reads.bind ((getChild_cell hslot).frame _) ?_
  refine Triple.of_eq (mul_left_comm ..) (Triple.bind_frame (setChild_cell (by simp [hlen])) fun _ => ?_)
  rw [hset', mul_left_comm (cell p _), mul_left_comm]
  refine Triple.free_bind ?_
  refine Triple.of_eq (mul_left_comm ..) (((setChild_cell ?_).frame _).post_le fun _ => le_of_eq ?_)
  · exact (List.getElem?_eq_some_iff.1 hslot).1
  · rw [hset, moving]

theorem halves {β : Type} {l : List β} (hl : l.length = M) :
    ∃ a b, l = a ++ b ∧ a.length = M / 2 ∧ b.length = M / 2 :=
  ⟨l.take (M / 2), l.drop (M / 2), (List.take_append_drop ..).symm, by simp [hl], by simp [hl]⟩

theorem le_nodeOwn (slots : List (Entry Node × Addr)) (vacant : List Addr) {h : Node}
    (hslots : slots.map Prod.fst = h.children) (hlen : slots.length + vacant.length = M) :
    nodeAt own p slots vacant ≤ nodeOwn own h p :=
  le_iSup_of_le slots (le_iSup_of_le vacant (le_fact_mul ⟨hslots, hlen⟩ le_rfl))

theorem placeholders_le : (cs.map placeholder).prod ≤ (cs.map slotRep).prod :=
  List.prod_le_prod' fun _ _ => le_sup_right

theorem one_le_nulls (n : Nat) : 1 ≤ ((List.replicate n 0).map slotRep).prod := by
  refine List.one_le_prod_of_one_le fun P hP => ?_
  rw [List.map_replicate] at hP
  rw [List.eq_of_mem_replicate hP]
  exact le_sup_of_le_left (fact_of rfl).ge

/-- `split` moves the right half of a full node to a new one. -/
theorem split_spec (hfull : slots.length = M) : Triple (nodeAt own p slots []) (split p) fun t =>
    nodeOwn own (BTree.split (.mk (slots.map Prod.fst))).1 p *
      nodeOwn own (BTree.split (.mk (slots.map Prod.fst))).2 t := by
  refine Triple.of_eq (one_mul _).symm (initNode_spec.bind_frame fun t => ?_)
  refine Triple.iSup_mul fun cs => Triple.of_eq (mul_assoc ..) (Triple.fact_mul fun hcs => ?_)
  obtain ⟨left, right, rfl, hleft, hright⟩ := halves hfull
  obtain ⟨cs, ds, rfl, hlen, hlen'⟩ := halves hcs
  rw [nodeAt, List.append_nil, List.map_append, ← entriesRep, entriesRep_append, List.map_append, List.prod_append]
  have hstart : cell t (.node (M / 2) (cs ++ ds)) * ((cs.map placeholder).prod * (ds.map placeholder).prod) *
      (cell p (.node (left ++ right).length (left.map Prod.snd ++ right.map Prod.snd)) *
        (entriesRep own left * entriesRep own right * (List.map slotRep []).prod)) =
      cell p (.node (left ++ right).length (left.map Prod.snd ++ right.map Prod.snd)) *
        (cell t (.node (M / 2) (cs ++ ds)) * (cs.map placeholder).prod *
          ((ds.map placeholder).prod * (entriesRep own left * entriesRep own right))) := by
    rw [List.map_nil, List.prod_nil, mul_one]
    ac_rfl
  refine Triple.of_eq hstart (setM_cell.bind_frame fun _ => ?_)
  refine Triple.of_eq (P := moving p t (left.map Prod.snd) (right.map Prod.snd) cs ds 0 * _) (mul_assoc ..).symm ?_
  have hloop := Triple.forM_range (moving p t (left.map Prod.snd) (right.map Prod.snd) cs ds) (M / 2) fun i hi =>
    moving_step (by rwa [List.length_map]) (by rwa [List.length_map]) hlen hi
  refine Triple.bind_frame hloop fun _ => Triple.pure ?_
  have hl : nodeAt own p left (List.replicate (M / 2) 0) ≤
      nodeOwn own (BTree.split (.mk ((left ++ right).map Prod.fst))).1 p :=
    le_nodeOwn _ _ (by simp [BTree.split, hleft]) (by simp [hleft])
  have hr : nodeAt own t right ds ≤ nodeOwn own (BTree.split (.mk ((left ++ right).map Prod.fst))).2 t :=
    le_nodeOwn _ _ (by simp [BTree.split, hleft, hright]) (by simp [hright, hlen'])
  refine le_trans ?_ (mul_le_mul' hl hr)
  rw [moving, nodeAt, nodeAt, hleft, hright, List.drop_of_length_le (by simp [hright]), List.append_nil,
    List.take_of_length_le (by simp [hright]), List.drop_of_length_le hlen.le, List.nil_append]
  calc _ = cell p (.node (M / 2) (left.map Prod.snd ++ List.replicate (M / 2) 0)) * (entriesRep own left * 1) *
        (cell t (.node (M / 2) (right.map Prod.snd ++ ds)) * (entriesRep own right * (ds.map placeholder).prod)) := by
        rw [List.map_nil, List.prod_nil, mul_one, mul_one]
        ac_rfl
    _ ≤ _ := mul_le_mul' (mul_le_mul_right (mul_le_mul_right (one_le_nulls _) _) _)
        (mul_le_mul_right (mul_le_mul_right placeholders_le _) _)

end Split

/-- The new entry takes the slot behind `before`. -/
theorem insertNode_spec (before after : List (Entry Node × Addr)) {t ret r : Addr} {b : Bool} {h' : Node}
    {u : InsertRet}
    (hlen : (before ++ after).length + vacant.length = M)
    (hrun : BTree.insertNode (.mk ((before ++ after).map Prod.fst)) before.length e b = some (h', u)) :
    Triple (nodeAt own p (before ++ after) vacant * (entryRep own e t * cell ret (.insertRet r b)))
      (insertNode p before.length t ret) fun r => nodeOwn own h' p * retRep (nodeOwn own) u r := by
  rw [BTree.insertNode] at hrun
  split at hrun
  · next hlt =>
    rw [Node.m_mk, List.length_map] at hlt
    obtain ⟨x, rest, rfl⟩ : ∃ x rest, vacant = x :: rest := List.exists_cons_of_length_pos (by omega)
    refine (getM_reads.frame _).bind ?_
    refine ((getChild_reads (q := x) (by simp)).frame _).bind ?_
    have hstart : nodeAt own p (before ++ after) (x :: rest) * (entryRep own e t * cell ret (.insertRet r b)) =
        slotRep x * (cell p (.node (before ++ after).length
          (before.map Prod.snd ++ (after.map Prod.snd ++ x :: rest))) *
          (entryRep own e t * (entriesRep own before * entriesRep own after * (rest.map slotRep).prod) *
            cell ret (.insertRet r b))) := by
      rw [nodeAt, ← entriesRep, entriesRep_append, List.map_cons, List.prod_cons, List.map_append, List.append_assoc]
      ac_rfl
    refine Triple.of_eq hstart (free_slot_bind ?_)
    have hshift := shift_spec (p := p) (m := (before ++ after).length) (before.map Prod.snd) (after.map Prod.snd) x rest
    rw [List.length_map, List.length_map, ← List.length_append] at hshift
    refine Triple.bind_frame hshift fun _ => Triple.iSup_mul fun y => ?_
    refine Triple.bind_frame (setChild_cell (by simp)) fun _ => Triple.bind_frame setM_cell fun _ => ?_
    have hset : (before.map Prod.snd ++ y :: (after.map Prod.snd ++ rest)).set before.length t =
        before.map Prod.snd ++ t :: (after.map Prod.snd ++ rest) := by
      rw [List.set_append_right _ _ (by simp), List.length_map, Nat.sub_self, List.set_cons_zero]
    have hnode : cell p (.node ((before ++ after).length + 1)
          (before.map Prod.snd ++ t :: (after.map Prod.snd ++ rest))) *
        (entryRep own e t * (entriesRep own before * entriesRep own after * (rest.map slotRep).prod) *
          cell ret (.insertRet r b)) =
        nodeAt own p (before ++ (e, t) :: after) rest * cell ret (.insertRet r b) := by
      rw [nodeAt_eq, List.length_append, Nat.add_assoc]
      ac_rfl
    rw [hset, hnode]
    have htake : ((before ++ after).map Prod.fst).take before.length ++ e ::
        ((before ++ after).map Prod.fst).drop before.length = (before ++ (e, t) :: after).map Prod.fst := by
      simp
    have hm : (before ++ (e, t) :: after).length = (before ++ after).length + 1 := by simp [Nat.add_assoc]
    simp only [Node.children_mk, Node.m_mk, htake, List.length_map, hm] at hrun
    split at hrun
    · next hlt' =>
      obtain ⟨rfl, rfl⟩ := Prod.mk.inj (Option.some.inj hrun)
      rw [if_pos hlt', mul_comm]
      refine Triple.bind_frame setRetNode_cell fun _ => Triple.pure ?_
      rw [mul_comm]
      refine mul_le_mul' (le_nodeOwn _ _ rfl (by rw [← hlen, List.length_cons, hm]; omega)) ?_
      exact le_iSup_of_le 0 (by rw [nextRep, fact_of rfl, mul_one])
    · next hge =>
      obtain ⟨rfl, rfl⟩ := Prod.mk.inj (Option.some.inj hrun)
      rw [if_neg hge]
      have hfull : (before ++ (e, t) :: after).length = M := by rw [hm]; omega
      obtain rfl : rest = [] := List.eq_nil_of_length_eq_zero (by rw [List.length_cons] at hlen; omega)
      refine Triple.bind_frame (split_spec hfull) fun r' => ?_
      rw [mul_comm]
      refine Triple.bind_frame setRetNode_cell fun _ => Triple.pure ?_
      rw [mul_left_comm]
      refine mul_le_mul_right ?_ _
      exact le_iSup_of_le r' le_rfl
  · cases hrun

theorem insertNode_at {t ret r : Addr} {b : Bool} {h' : Node} {u : InsertRet} (hj : j ≤ slots.length)
    (hlen : slots.length + vacant.length = M)
    (hrun : BTree.insertNode (.mk (slots.map Prod.fst)) j e b = some (h', u)) :
    Triple (nodeAt own p slots vacant * (entryRep own e t * cell ret (.insertRet r b))) (insertNode p j t ret)
      fun r => nodeOwn own h' p * retRep (nodeOwn own) u r := by
  have hbefore : (slots.take j).length = j := List.length_take_of_le hj
  have hspec := @insertNode_spec own vacant p e (slots.take j) (slots.drop j) t ret r b h' u
  rw [List.take_append_drop, hbefore] at hspec
  exact hspec hlen hrun

/-! ## `insert` -/

theorem nodeRep_succ (d : Nat) : nodeRep (d + 1) = nodeOwn (nodeRep d) := rfl

/-- The entries of a node that has at most `d` levels below it. -/
theorem nodeOwn_bind {h : Node} {c : Prog α}
    (hc : ∀ slots vacant, slots.map Prod.fst = h.children → slots.length + vacant.length = M →
      Triple (nodeAt own p slots vacant * F) c Q) : Triple (nodeOwn own h p * F) c Q :=
  Triple.iSup_mul fun slots => Triple.iSup_mul fun vacant => Triple.of_eq (mul_assoc ..)
    (Triple.fact_mul fun hslots => hc slots vacant hslots.1 hslots.2)

theorem route_lt {h : Node} (key : CStr) (hpos : 0 < h.m) : route key h < h.m := by
  have hle : route key h ≤ h.children.tail.length := List.findIdx_le_length
  rw [List.length_tail] at hle
  exact Nat.lt_of_le_pred hpos hle

/-- The entry of the pair, before it has a place in the tree. -/
theorem entryRep_leaf (own : Node → Addr → Assn Cell) :
    entryRep own ⟨key, val, none⟩ p = cell p (.entry key val 0) := by
  refine le_antisymm (iSup_le fun q => ?_) (le_iSup_of_le 0 (by rw [nextRep, fact_of rfl, mul_one]))
  rw [mul_comm]
  rintro hp hq
  obtain ⟨rfl, hq⟩ := holds_fact_mul.1 hq
  exact hq

theorem insert_leaf {h h' : Node} {u : InsertRet} (hrun : BTree.insert h key val 0 = some (h', u)) :
    Triple (nodeOwn own h p) (insert p key val 0) fun r => nodeOwn own h' p * retRep (nodeOwn own) u r := by
  rw [← mul_one (nodeOwn own h p)]
  refine nodeOwn_bind fun slots vacant hslots hlen => ?_
  rw [mul_one]
  refine Triple.malloc_bind fun ret => ?_
  refine Triple.of_eq (one_mul _).symm (initEntry_spec.bind_frame fun t => ?_)
  have hstart : cell t (.entry key val 0) * (cell ret (.insertRet 0 false) * nodeAt own p slots vacant) =
      nodeAt own p slots vacant * (entryRep own ⟨key, val, none⟩ t * cell ret (.insertRet 0 false)) := by
    rw [entryRep_leaf]
    ac_rfl
  refine Triple.of_eq hstart ((getM_reads.frame _).bind ?_)
  obtain ⟨children⟩ := h
  rw [Node.children_mk] at hslots
  subst hslots
  rw [BTree.insert, Node.m_mk, List.length_map] at hrun
  split at hrun
  · next hnil =>
    obtain rfl := List.eq_nil_of_length_eq_zero hnil
    exact insertNode_spec [] [] hlen hrun
  · next hpos =>
    obtain ⟨⟨e, q⟩, slots, rfl⟩ := List.exists_cons_of_length_pos (Nat.pos_of_ne_zero hpos)
    rw [if_neg hpos]
    refine ((keyAt_reads []).frame _).bind ?_
    rw [List.nil_append]
    have hfirst : (Node.mk (((e, q) :: slots).map Prod.fst)).firstKey = e.key := rfl
    rw [hfirst] at hrun
    split at hrun
    · next hbelow =>
      have hswap (b : Bool) : nodeAt own p ((e, q) :: slots) vacant *
          (entryRep own ⟨key, val, none⟩ t * cell ret (.insertRet 0 b)) =
          cell ret (.insertRet 0 b) * (nodeAt own p ((e, q) :: slots) vacant * entryRep own ⟨key, val, none⟩ t) := by
        ac_rfl
      rw [if_pos hbelow]
      refine Triple.of_eq (hswap false) (Triple.bind_frame setModParent_cell fun _ => ?_)
      exact Triple.of_eq (hswap true).symm (insertNode_at (Nat.zero_le _) hlen hrun)
    · next hbelow =>
      rw [if_neg hbelow, List.length_cons, Nat.add_sub_cancel]
      refine ((leafLoop_reads [(e, q)]).frame _).bind ?_
      refine insertNode_at (j := 1 + route key (.mk (((e, q) :: slots).map Prod.fst))) ?_ hlen hrun
      rw [Nat.add_comm]
      exact (route_lt key (by simp)).trans_eq (List.length_map ..)

/-- An entry of an internal node, with the node below it. -/
theorem nodeAt_next {c : Node} (hc : e.next = some c) : nodeAt own p (before ++ (e, q) :: after) vacant =
    ⨆ next, own c next * (cell q (.entry e.key e.val next) * (cell p (.node (before.length + (after.length + 1))
      (before.map Prod.snd ++ q :: (after.map Prod.snd ++ vacant))) *
      (entriesRep own before * entriesRep own after * (vacant.map slotRep).prod))) := by
  rw [nodeAt_eq, entryRep, Quantale.iSup_mul_distrib]
  refine iSup_congr fun next => ?_
  rw [hc, nextRep]
  ac_rfl

theorem setParentKey_spec (before : List (Entry Node × Addr)) {u r : Addr} {b : Bool} :
    Triple (nodeAt own p (before ++ (e, q) :: after) vacant * cell u (.insertRet r b))
      (setParentKey u p before.length key) fun _ =>
        nodeAt own p (before ++ ({ e with key := if b then key else e.key }, q) :: after) vacant *
          cell u (.insertRet r b) := by
  refine Reads.bind (.of_eq (mul_comm ..) (getModParent_cell.frame _)) ?_
  cases b with
  | false => exact Triple.pure le_rfl
  | true =>
    refine ((getChild_reads (q := q) (by simp)).frame _).bind ?_
    refine Triple.frame (Q := fun _ => nodeAt own p (before ++ ({ e with key := key }, q) :: after) vacant) ?_ _
    rw [nodeAt_eq, nodeAt_eq, entryRep, Quantale.iSup_mul_distrib]
    refine Triple.iSup fun next => Triple.of_eq (mul_assoc ..) ((setKey_cell.frame _).post_le fun _ => ?_)
    rw [← mul_assoc]
    refine mul_le_mul_left ?_ _
    exact le_iSup_of_le next le_rfl

/-- The first key of a node that has one. -/
theorem firstKey_reads {h : Node} (hne : h.children ≠ []) : Reads (nodeOwn own h p) (keyAt p 0) h.firstKey := by
  refine .iSup fun slots => .iSup fun vacant => .fact_mul fun ⟨hslots, _⟩ => ?_
  obtain ⟨children⟩ := h
  rw [Node.children_mk] at hslots hne
  subst hslots
  obtain ⟨⟨e, q⟩, slots, rfl⟩ := List.exists_cons_of_ne_nil (mt List.map_eq_nil_iff.2 hne)
  exact keyAt_reads []

/-- The recursive call on the entry behind `before`, and what it does to the entry. -/
theorem insert_call {c c' : Node} {ht : Nat} {u : InsertRet} {f : Addr → Prog α} (hc : e.next = some c)
    (hcall : ∀ q, Triple (own c q) (insert q key val ht) fun r => own c' q * retRep own u r)
    (hf : ∀ a r, Triple (nodeAt own p (before ++ (⟨if u.modParent then key else e.key, e.val, some c'⟩, q) :: after)
      vacant * (cell a (.insertRet r u.modParent) * (nextRep own u.retNode r * F))) (f a) Q) :
    Triple (nodeAt own p (before ++ (e, q) :: after) vacant * F) (do
      let a ← insert (← getNext (← getChild p before.length)) key val ht
      setParentKey a p before.length key
      f a) Q := by
  refine ((getChild_reads (q := q) (by simp)).frame _).bind ?_
  rw [nodeAt_next hc]
  refine Triple.iSup_mul fun next => ?_
  refine Reads.bind (.of_eq (by rw [mul_left_comm (own c next), mul_assoc]) (getNext_cell.frame _)) ?_
  refine Triple.of_eq (mul_assoc ..) (Triple.bind_frame (hcall next) fun a => ?_)
  rw [retRep, Quantale.mul_iSup_distrib]
  refine Triple.iSup_mul fun r => ?_
  have hfold : own c' next * (cell q (.entry e.key e.val next) *
      (cell p (.node (before.length + (after.length + 1))
        (before.map Prod.snd ++ q :: (after.map Prod.snd ++ vacant))) *
      (entriesRep own before * entriesRep own after * (vacant.map slotRep).prod))) ≤
      nodeAt own p (before ++ (⟨e.key, e.val, some c'⟩, q) :: after) vacant := by
    rw [nodeAt_next rfl]
    exact le_iSup_of_le next le_rfl
  refine Triple.of_le (P := nodeAt own p (before ++ (⟨e.key, e.val, some c'⟩, q) :: after) vacant *
    cell a (.insertRet r u.modParent) * (nextRep own u.retNode r * F)) ?_ ?_
  · refine le_trans (le_of_eq ?_) (mul_le_mul_left (mul_le_mul_left hfold _) _)
    ac_rfl
  · refine Triple.bind_frame (setParentKey_spec before) fun _ => ?_
    rw [mul_assoc]
    exact hf a r

theorem nodeOwn_ne_null {h : Node} (k : Heap Cell) (hk : (nodeOwn own h p).Holds k) : p ≠ 0 := by
  obtain ⟨slots, hk⟩ := holds_iSup.1 hk
  obtain ⟨vacant, hk⟩ := holds_iSup.1 hk
  exact (holds_cell_mul.1 (holds_fact_mul.1 hk).2).1

/-- What an internal node does after the call, with an `insert_ret` for it at hand. -/
theorem insert_return {own₀ : Node → Addr → Assn Cell} {a t ret r : Addr} {u : InsertRet} {h : Node} {u' : InsertRet}
    (hown : own = nodeOwn own₀) (hj : j < slots.length) (hlen : slots.length + vacant.length = M)
    (hne : ∀ n, u.retNode = some n → n.children ≠ [])
    (hrun : (match u.retNode with
      | none => some (Node.mk (slots.map Prod.fst), u)
      | some n => BTree.insertNode (.mk (slots.map Prod.fst)) (j + 1) ⟨n.firstKey, val, some n⟩ false) =
        some (h, u')) :
    Triple (nodeAt own p slots vacant * (cell a (.insertRet r u.modParent) * (nextRep own u.retNode r *
        (cell t (.entry key val 0) * cell ret (.insertRet 0 false))))) (do
      let r ← getRetNode a
      if r = 0 then
        free ret
        free t
        return a
      else
        setKey t (← keyAt r 0)
        setNext t r
        free a
        insertNode p (j + 1) t ret) fun a => nodeOwn own h p * retRep (nodeOwn own) u' a := by
  refine Reads.bind (.of_eq (mul_left_comm ..) (getRetNode_cell.frame _)) ?_
  cases hret : u.retNode with
  | none =>
    rw [hret] at hrun
    obtain ⟨rfl, rfl⟩ := Prod.mk.inj (Option.some.inj hrun)
    refine Triple.of_eq (by rw [nextRep, mul_left_comm (cell a _), mul_left_comm]) (Triple.fact_mul fun hr => ?_)
    subst hr
    rw [if_pos rfl]
    refine Triple.of_eq (by ac_rfl : _ = cell ret (.insertRet 0 false) * (cell t (.entry key val 0) *
      (nodeAt own p slots vacant * cell a (.insertRet 0 u.modParent)))) ?_
    refine Triple.free_bind (Triple.free_bind (Triple.pure (mul_le_mul' (le_nodeOwn _ _ rfl hlen) ?_)))
    refine le_iSup_of_le 0 ?_
    rw [hret, nextRep, fact_of rfl, mul_one]
  | some n =>
    rw [hret] at hrun
    refine Triple.of_eq (by rw [nextRep, mul_left_comm (cell a _), mul_left_comm]) ?_
    refine Triple.of_holds (fun k hk => nodeOwn_ne_null k (hown ▸ hk)) fun hr => ?_
    rw [if_neg hr]
    have hkey : Reads (own n r) (keyAt r 0) n.firstKey := hown ▸ firstKey_reads (hne n hret)
    refine (hkey.frame _).bind ?_
    refine Triple.of_eq (by ac_rfl : _ = cell t (.entry key val 0) * (own n r * (nodeAt own p slots vacant *
      (cell a (.insertRet r u.modParent) * cell ret (.insertRet 0 false))))) ?_
    refine Triple.bind_frame setKey_cell fun _ => Triple.bind_frame setNext_cell fun _ => ?_
    refine Triple.of_eq (by ac_rfl : _ = cell a (.insertRet r u.modParent) * (nodeAt own p slots vacant *
      (cell t (.entry n.firstKey val r) * own n r * cell ret (.insertRet 0 false)))) (Triple.free_bind ?_)
    have hentry : cell t (.entry n.firstKey val r) * own n r ≤ entryRep own ⟨n.firstKey, val, some n⟩ t :=
      le_iSup_of_le r le_rfl
    exact Triple.of_le (mul_le_mul_right (mul_le_mul_left hentry _) _) (insertNode_at hj hlen hrun)

theorem insertNode_nonempty {h h' : Node} {b : Bool} {u : InsertRet}
    (hrun : BTree.insertNode h j e b = some (h', u)) :
    h'.children ≠ [] ∧ ∀ n, u.retNode = some n → n.children ≠ [] := by
  rw [BTree.insertNode] at hrun
  split at hrun
  · dsimp only at hrun
    split at hrun
    · obtain ⟨rfl, rfl⟩ := Prod.mk.inj (Option.some.inj hrun)
      exact ⟨by simp, fun n hn => by cases hn⟩
    · next hge =>
      obtain ⟨rfl, rfl⟩ := Prod.mk.inj (Option.some.inj hrun)
      have hfull : M ≤ (h.children.take j ++ e :: h.children.drop j).length := Nat.le_of_not_lt hge
      refine ⟨List.ne_nil_of_length_pos ?_, fun n hn => ?_⟩
      · rw [BTree.split, Node.children_mk, Node.children_mk, List.length_take_of_le (by simp only [M] at *; omega)]
        decide
      · obtain rfl := Option.some.inj hn
        refine List.ne_nil_of_length_pos ?_
        rw [BTree.split, Node.children_mk, Node.children_mk, List.length_take, List.length_drop]
        simp only [M] at *
        omega
  · cases hrun

/-- `insert` leaves no node empty. -/
theorem insert_nonempty {ht : Nat} {h h' : Node} {u : InsertRet} (hrun : BTree.insert h key val ht = some (h', u)) :
    h'.children ≠ [] ∧ ∀ n, u.retNode = some n → n.children ≠ [] := by
  induction ht generalizing h h' u with
  | zero =>
    rw [BTree.insert] at hrun
    split_ifs at hrun <;> exact insertNode_nonempty hrun
  | succ ht ih =>
    rw [BTree.insert] at hrun
    split at hrun
    · exact insertNode_nonempty hrun
    · next c after hdrop =>
      simp only [Option.bind_eq_bind, Option.bind_eq_some_iff] at hrun
      obtain ⟨child, -, ⟨child', u'⟩, -, hrun⟩ := hrun
      split at hrun
      · next hret =>
        obtain ⟨rfl, rfl⟩ := Prod.mk.inj (Option.some.inj hrun)
        refine ⟨?_, fun n hn => ?_⟩
        · rw [Node.children_mk, Ne, List.set_eq_nil_iff]
          rintro hnil
          rw [hnil, List.drop_nil] at hdrop
          cases hdrop
        · rw [hret] at hn
          cases hn
      · exact insertNode_nonempty hrun

theorem insert_refines (ht : Nat) {h h' : Node} {u : InsertRet} (hrun : BTree.insert h key val ht = some (h', u)) :
    Triple (nodeRep (ht + 1) h p) (insert p key val ht)
      fun r => nodeRep (ht + 1) h' p * retRep (nodeRep (ht + 1)) u r := by
  induction ht generalizing p h h' u with
  | zero => exact insert_leaf hrun
  | succ ht ih =>
    rw [nodeRep_succ (ht + 1), ← mul_one (nodeOwn (nodeRep (ht + 1)) h p)]
    refine nodeOwn_bind fun slots vacant hslots hlen => ?_
    rw [mul_one]
    refine Triple.malloc_bind fun ret => ?_
    refine Triple.of_eq (one_mul _).symm (initEntry_spec.bind_frame fun t => ?_)
    obtain ⟨children⟩ := h
    rw [Node.children_mk] at hslots
    subst hslots
    refine Triple.of_eq (by ac_rfl : _ = nodeAt (nodeRep (ht + 1)) p slots vacant *
      (cell t (.entry key val 0) * cell ret (.insertRet 0 false))) ?_
    refine (getM_reads.frame _).bind ?_
    rw [BTree.insert] at hrun
    cases slots with
    | nil =>
      rw [← entryRep_leaf (nodeRep (ht + 1))]
      exact insertNode_at le_rfl hlen hrun
    | cons s slots =>
      rw [List.length_cons, childLoop_eq, bind_assoc]
      refine ((leafLoop_reads [s]).frame _).bind ?_
      have hroute : route key (.mk ((s :: slots).map Prod.fst)) =
        (slots.map Prod.fst).findIdx fun e => decide (strcmp key e.key < 0) := rfl
      have hlt := (route_lt (h := .mk ((s :: slots).map Prod.fst)) key (by simp)).trans_eq (List.length_map ..)
      rw [← hroute, pure_bind, List.length_singleton, Nat.add_sub_cancel_left, List.singleton_append]
      -- the entry whose subtree the key belongs to
      generalize route key (.mk ((s :: slots).map Prod.fst)) = k at hrun hlt
      obtain ⟨before, ⟨c, q⟩, after, hsplit, hk⟩ :
          ∃ before s' after, s :: slots = before ++ s' :: after ∧ before.length = k :=
        ⟨(s :: slots).take k, (s :: slots)[k], (s :: slots).drop (k + 1),
          by rw [List.getElem_cons_drop, List.take_append_drop], List.length_take_of_le hlt.le⟩
      rw [hsplit] at hrun hlen ⊢
      subst hk
      have hdrop : (((before ++ (c, q) :: after).map Prod.fst).drop before.length) = c :: after.map Prod.fst := by simp
      simp only [Node.children_mk, hdrop, Option.bind_eq_bind, Option.bind_eq_some_iff] at hrun
      obtain ⟨child, hc, ⟨child', u'⟩, hcall, hrun⟩ := hrun
      refine insert_call hc (fun q => ih hcall) fun a r => ?_
      have hset (c' : Entry Node) : ((before ++ (c, q) :: after).map Prod.fst).set before.length c' =
          (before ++ (c', q) :: after).map Prod.fst := by
        simp
      simp only [hset] at hrun
      exact insert_return rfl (by simp) (by simpa using hlen) (insert_nonempty hcall).2 hrun

end OstepHw.BTree.Memory
