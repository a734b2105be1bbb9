import OstepHw.BTree.Memory
import Mathlib.Algebra.Order.BigOperators.Group.List

/-!
# The blocks of a B-tree

Which blocks a node of `Model` consists of, and what it means for a function of `Memory` to read or write one of them.

* `nodeRep`, `retRep`, `btreeRep` — a node, an `insert_ret`, a tree in memory;
* `keyAt_reads`, `leafLoop_reads`, `childLoop_eq` — what the loops find out;
* `initNode_spec` — a new node has a placeholder in every slot.
-/

set_option autoImplicit false

namespace OstepHw.BTree.Memory

open Separation Separation.Assn

/-! ## The blocks of a tree -/

/-- What `initNode` stores in each slot. -/
def placeholder (p : Addr) : Assn Cell := cell p (.entry .empty (some .empty) 0)

/-- A slot behind the entries of a node: `split` leaves `NULL` there. -/
def slotRep (p : Addr) : Assn Cell := fact (p = 0) ⊔ placeholder p

/-- The field `next`, where `own` says what a node is. -/
def nextRep (own : Node → Addr → Assn Cell) : Option Node → Addr → Assn Cell
  | none, q => fact (q = 0)
  | some c, q => own c q

def entryRep (own : Node → Addr → Assn Cell) (e : Entry Node) (p : Addr) : Assn Cell :=
  ⨆ q, cell p (.entry e.key e.val q) * nextRep own e.next q

/-- A node with its entries where `slots` says and `free` behind them. -/
def nodeAt (own : Node → Addr → Assn Cell) (p : Addr) (slots : List (Entry Node × Addr)) (vacant : List Addr) :
    Assn Cell :=
  cell p (.node slots.length (slots.map Prod.snd ++ vacant)) *
    ((slots.map fun s => entryRep own s.1 s.2).prod * (vacant.map slotRep).prod)

def nodeOwn (own : Node → Addr → Assn Cell) (h : Node) (p : Addr) : Assn Cell :=
  ⨆ slots : List (Entry Node × Addr), ⨆ vacant : List Addr,
    fact (slots.map Prod.fst = h.children ∧ slots.length + vacant.length = M) * nodeAt own p slots vacant

/-- A node with at most `d` levels. -/
def nodeRep : Nat → Node → Addr → Assn Cell
  | 0 => fun _ _ => ⊥
  | d + 1 => nodeOwn (nodeRep d)

/-- An `insert_ret`. -/
def retRep (own : Node → Addr → Assn Cell) (u : InsertRet) (p : Addr) : Assn Cell :=
  ⨆ r, cell p (.insertRet r u.modParent) * nextRep own u.retNode r

def btreeRep (b : Btree) (p : Addr) : Assn Cell :=
  ⨆ r, cell p (.btree r b.height b.n) * nodeRep (b.height + 1) b.root r

def entriesRep (own : Node → Addr → Assn Cell) (slots : List (Entry Node × Addr)) : Assn Cell :=
  (slots.map fun s => entryRep own s.1 s.2).prod

variable {own : Node → Addr → Assn Cell} {α : Type} {Q : α → Assn Cell} {F : Assn Cell}
  {slots before after : List (Entry Node × Addr)} {vacant : List Addr} {p q : Addr} {i j m : Nat} {e : Entry Node}
  {key : CStr} {val : Option CStr}

@[simp] theorem entriesRep_nil : entriesRep own [] = 1 := rfl

@[simp] theorem entriesRep_cons (s : Entry Node × Addr) :
    entriesRep own (s :: slots) = entryRep own s.1 s.2 * entriesRep own slots := by
  rw [entriesRep, entriesRep, List.map_cons, List.prod_cons]

@[simp] theorem entriesRep_append :
    entriesRep own (before ++ after) = entriesRep own before * entriesRep own after := by
  rw [entriesRep, entriesRep, entriesRep, List.map_append, List.prod_append]

/-! ### Single fields -/

section Fields

variable {k : CStr} {v : Option CStr} {b : Bool} {r n ht : Nat} {c : Int} {cs : List Addr}

theorem getKey_cell : Reads (cell p (.entry k v q)) (getKey p) k := .read rfl

theorem getNext_cell : Reads (cell p (.entry k v q)) (getNext p) q := .read rfl

theorem getM_cell : Reads (cell p (.node m cs)) (getM p) m := .read rfl

theorem getChild_cell (hi : cs[i]? = some q) : Reads (cell p (.node m cs)) (getChild p i) q := .read hi

theorem getRetNode_cell : Reads (cell p (.insertRet r b)) (getRetNode p) r := .read rfl

theorem getModParent_cell : Reads (cell p (.insertRet r b)) (getModParent p) b := .read rfl

theorem getRoot_cell : Reads (cell p (.btree r ht c)) (getRoot p) r := .read rfl

theorem getHeight_cell : Reads (cell p (.btree r ht c)) (getHeight p) ht := .read rfl

theorem setKey_cell : Triple (cell p (.entry k v q)) (setKey p key) fun _ => cell p (.entry key v q) :=
  .write_step rfl

theorem setNext_cell : Triple (cell p (.entry k v q)) (setNext p r) fun _ => cell p (.entry k v r) :=
  .write_step rfl

theorem setM_cell : Triple (cell p (.node m cs)) (setM p n) fun _ => cell p (.node n cs) := .write_step rfl

theorem setChild_cell (hi : i < cs.length) :
    Triple (cell p (.node m cs)) (setChild p i q) fun _ => cell p (.node m (cs.set i q)) :=
  .write_step (if_pos hi)

theorem setRetNode_cell : Triple (cell p (.insertRet r b)) (setRetNode p q) fun _ => cell p (.insertRet q b) :=
  .write_step rfl

theorem setModParent_cell {b' : Bool} :
    Triple (cell p (.insertRet r b)) (setModParent p b') fun _ => cell p (.insertRet r b') :=
  .write_step rfl

theorem setRoot_cell : Triple (cell p (.btree r ht c)) (setRoot p q) fun _ => cell p (.btree q ht c) := .write_step rfl

theorem incHeight_cell : Triple (cell p (.btree r ht c)) (incHeight p) fun _ => cell p (.btree r (ht + 1) c) :=
  .write_step rfl

theorem incN_cell : Triple (cell p (.btree r ht c)) (incN p) fun _ => cell p (.btree r ht (CInt.toInt (c + 1))) :=
  .write_step rfl

end Fields

/-! ### Reading a node -/

theorem getM_reads : Reads (nodeAt own p slots vacant) (getM p) slots.length := getM_cell.frame _

theorem getChild_reads (hi : (slots.map Prod.snd ++ vacant)[i]? = some q) :
    Reads (nodeAt own p slots vacant) (getChild p i) q :=
  (getChild_cell hi).frame _

/-- One entry of a node. -/
theorem nodeAt_eq : nodeAt own p (before ++ (e, q) :: after) vacant =
    entryRep own e q * (cell p (.node (before.length + (after.length + 1))
      (before.map Prod.snd ++ q :: (after.map Prod.snd ++ vacant))) *
      (entriesRep own before * entriesRep own after * (vacant.map slotRep).prod)) := by
  rw [nodeAt, ← entriesRep, entriesRep_append, entriesRep_cons, List.map_append, List.length_append, List.append_assoc]
  ac_rfl

theorem getKey_entry : Reads (entryRep own e p) (getKey p) e.key := .iSup fun _ => getKey_cell.frame _

theorem keyAt_reads (before : List (Entry Node × Addr)) :
    Reads (nodeAt own p (before ++ (e, q) :: after) vacant) (keyAt p before.length) e.key :=
  (getChild_reads (q := q) (by simp)).comp (.of_eq nodeAt_eq (getKey_entry.frame _))

/-- The leaf's loop stops before the first larger key. -/
theorem leafLoop_reads (before : List (Entry Node × Addr)) :
    Reads (nodeAt own p (before ++ after) vacant) (leafLoop p key after.length before.length)
      (before.length + (after.map Prod.fst).findIdx fun e => decide (strcmp key e.key < 0)) := by
  induction after generalizing before with
  | nil => exact .pure
  | cons s after ih =>
    obtain ⟨e, q⟩ := s
    refine (keyAt_reads before).comp ?_
    rw [List.map_cons, List.findIdx_cons]
    by_cases hless : strcmp key e.key < 0
    · simp only [hless, if_true, decide_true, cond_true]
      exact .pure
    · simp only [hless, if_false, decide_false, cond_false]
      have hrest := ih (before ++ [(e, q)])
      rw [List.append_assoc, List.singleton_append, List.length_append, List.length_singleton] at hrest
      rwa [Nat.add_assoc, Nat.add_comm 1] at hrest

/-- So does the loop of an internal node, and it gives the slot before. -/
theorem childLoop_eq (n j : Nat) : childLoop p key (n + 1) j = (do return some ((← leafLoop p key n (j + 1)) - 1)) := by
  induction n generalizing j with
  | zero => rfl
  | succ n ih =>
    rw [childLoop, if_neg (Nat.succ_ne_zero n), leafLoop, bind_assoc]
    congr 1
    funext k
    split
    · rfl
    · exact ih (j + 1)

/-! ## Allocation -/

theorem initEntry_spec : Triple (1 : Assn Cell) (initEntry key val q) fun t => cell t (.entry key val q) :=
  Triple.malloc_step

/-- A new node whose first `i` slots are filled. -/
def filling (new m i : Nat) : Assn Cell :=
  ⨆ cs : List Addr, fact (cs.length = i) *
    (cell new (.node m (cs ++ List.replicate (M - i) 0)) * (cs.map placeholder).prod)

theorem filling_step {new : Addr} (hi : i < M) :
    Triple (filling new m i) (do setChild new i (← initEntry .empty (some .empty) 0))
      fun _ => filling new m (i + 1) := by
  have hvacant : List.replicate (M - i) (0 : Addr) = 0 :: List.replicate (M - (i + 1)) 0 := by
    rw [← List.replicate_succ, ← Nat.sub_sub, Nat.sub_add_cancel (Nat.sub_pos_of_lt hi)]
  refine Triple.iSup fun cs => Triple.fact_mul fun hcs => ?_
  refine Triple.of_eq (one_mul _).symm (initEntry_spec.bind_frame fun e => ?_)
  refine Triple.of_eq (mul_left_comm ..) (((setChild_cell ?_).frame _).post_le fun _ => ?_)
  · rw [hvacant]
    simp [hcs]
  · refine le_iSup_of_le (cs ++ [e]) (le_fact_mul ?_ (le_of_eq ?_))
    · rw [List.length_append, hcs, List.length_singleton]
    · rw [hvacant, ← hcs, List.set_append_right _ _ le_rfl, Nat.sub_self, List.set_cons_zero, List.append_assoc,
        List.singleton_append, List.map_append, List.prod_append, List.map_singleton, List.prod_singleton]
      exact congrArg _ (mul_comm ..)

theorem initNode_spec : Triple (1 : Assn Cell) (initNode m) fun new =>
    ⨆ cs : List Addr, fact (cs.length = M) * (cell new (.node m cs) * (cs.map placeholder).prod) := by
  refine Triple.malloc_bind fun new => ?_
  refine Triple.bind (Q := fun _ => filling new m M) ?_ fun _ => Triple.pure ?_
  · refine Triple.of_le ?_ (Triple.forM_range (filling new m) M fun i hi => filling_step hi)
    exact le_iSup_of_le [] (le_fact_mul rfl (by simp))
  · refine iSup_mono fun cs => ?_
    simp

end OstepHw.BTree.Memory
