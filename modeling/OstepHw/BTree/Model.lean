import OstepHw.Lib.CInt
import Mathlib.Data.List.Basic

/-!
# The B-tree of `29/btree.c`

Literal model of `initBtree`, `put`, `insert` and `split`.  A node is the list of its `m` live
entries; the slots from `m` on hold the placeholders of `initNode` (or `NULL` after a split) and
are never read, except slot 0 of an empty node (`Node.firstKey`).  Memory management and the lock are
left out.  `n` is an `int` that wraps around; a tree with a `height` that does not fit has more nodes
than any memory.

`insert` updates the tree in place and returns an `insert_ret`; here it returns the updated node
beside it.  `none` stands for the undefined behaviours: a `NULL` `next` that is dereferenced and
a write behind the `M` slots of a node.
-/

namespace OstepHw.BTree

/-! ## C strings -/

/-- A C string without its terminator. -/
structure CStr where
  bytes : List UInt8
  nul_free : 0 ∉ bytes
  deriving DecidableEq

/-- `""`. -/
def CStr.empty : CStr := ⟨[], by simp⟩

/-- The comparison of `strcmp` on what is left of the two strings, the terminators included. -/
def strcmpBytes : List UInt8 → List UInt8 → Int
  | [], [] => 0
  | [], b :: _ => 0 - b.toNat
  | a :: _, [] => a.toNat
  | a :: as, b :: bs => if a = b then strcmpBytes as bs else (a.toNat : Int) - b.toNat

def strcmp (s t : CStr) : Int := strcmpBytes s.bytes t.bytes

/-! ## Data model -/

/-- `#define M 4`: the slots of a node, which is split as soon as all are used. -/
@[simp] def M : Nat := 4

/-- `entry_t`: leaves use `key` and `val`, internal nodes `key` and `next`. -/
structure Entry (N : Type) where
  key : CStr
  val : Option CStr
  next : Option N

/-- `node_t`. -/
inductive Node where
  | mk (children : List (Entry Node))

def Node.children : Node → List (Entry Node)
  | .mk cs => cs

/-- The field `m` of `node_t`. -/
def Node.m (h : Node) : Nat := h.children.length

@[simp] theorem Node.children_mk (cs : List (Entry Node)) : (Node.mk cs).children = cs := rfl

@[simp] theorem Node.m_mk (cs : List (Entry Node)) : (Node.mk cs).m = cs.length := rfl

/-- `h->children[0]->key`, which is the `""` of `initNode` while the node has no entry. -/
def Node.firstKey (h : Node) : CStr :=
  match h.children with
  | [] => .empty
  | e :: _ => e.key

/-- `h->children[0]->key = key`. -/
def Node.setFirstKey (h : Node) (key : CStr) : Node :=
  match h.children with
  | [] => h
  | e :: cs => .mk ({ e with key := key } :: cs)

structure Btree where
  root : Node
  height : Nat
  n : Int

structure InsertRet where
  retNode : Option Node
  modParent : Bool

def initBtree : Btree := ⟨.mk [], 0, 0⟩

/-! ## Insertion -/

/-- `split`: the right half moves to a new node. -/
def split (h : Node) : Node × Node :=
  (.mk (h.children.take (M / 2)), .mk ((h.children.drop (M / 2)).take (M / 2)))

/-- The code from the label `insert_node` on: shift the entries from slot `j` on, store `t` there
and split the node when it is full. -/
def insertNode (h : Node) (j : Nat) (t : Entry Node) (modParent : Bool) :
    Option (Node × InsertRet) :=
  if h.m < M then
    let h := Node.mk (h.children.take j ++ t :: h.children.drop j)
    if h.m < M then some (h, ⟨none, modParent⟩)
    else some ((split h).1, ⟨some (split h).2, modParent⟩)
  else none

/-- How many of the entries behind the first one are passed before one with a larger key: the loop
`for (j = 1; …)` of a leaf stops at slot `1 + route`, the loop `for (j = 0; …)` of an internal node
at slot `route`. -/
def route (key : CStr) (h : Node) : Nat :=
  h.children.tail.findIdx fun e => decide (strcmp key e.key < 0)

def insert (h : Node) (key : CStr) (val : Option CStr) : Nat → Option (Node × InsertRet)
  | 0 =>
    let t : Entry Node := ⟨key, val, none⟩
    if h.m = 0 then insertNode h 0 t false
    else if strcmp key .empty ≠ 0 ∧ strcmp key h.firstKey < 0 then insertNode h 0 t true
    else insertNode h (1 + route key h) t false
  | ht + 1 =>
    let j := route key h
    match h.children.drop j with
    -- no entry at all: the loop body never runs and `t` is stored as it is
    | [] => insertNode h 0 ⟨key, val, none⟩ false
    | c :: _ => do
      let next ← c.next
      let (next, u) ← insert next key val ht
      let c := { c with key := if u.modParent then key else c.key, next := some next }
      let h := Node.mk (h.children.set j c)
      match u.retNode with
      | none => some (h, u)
      -- `ret` of this level is returned, so `mod_parent` goes no further up
      | some r => insertNode h (j + 1) ⟨r.firstKey, val, some r⟩ false

def put (btree : Btree) (key val : Option CStr) : Option Btree :=
  match key with
  | none => some btree
  | some key => do
    let (root, u) ← insert btree.root key val btree.height
    let root := if u.modParent then root.setFirstKey key else root
    match u.retNode with
    | none => some ⟨root, btree.height, CInt.toInt (btree.n + 1)⟩
    | some r =>
      some ⟨.mk [⟨root.firstKey, none, some root⟩, ⟨r.firstKey, none, some r⟩],
        btree.height + 1, CInt.toInt (btree.n + 1)⟩

/-- A sequence of calls `put(btree, key, val)` on a new tree. -/
def puts (calls : List (CStr × Option CStr)) : Option Btree :=
  calls.foldlM (fun b c => put b (some c.1) c.2) initBtree

end OstepHw.BTree
