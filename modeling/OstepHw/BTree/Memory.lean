import OstepHw.BTree.Contents
import OstepHw.Lib.Separation

/-!
# The memory of the B-tree

Model of `btree.c` with its pointers: what `initEntry`, `initNode`, `initBtree`, `insert`, `split` and `put` allocate,
write and free, and `free_node`.  The strings are constants of the program and take no memory here; the `malloc`s do
not fail.  `none` stands for every undefined behaviour: a `NULL` pointer or one to a freed block that is dereferenced
or freed, a slot behind the `M` of a node.  `n`, which nothing reads, wraps around.  `DEBUG_APPLE_IN_AMAZON` is 0, and
`toString` and the array of the threads are left out.
-/

set_option autoImplicit false

namespace OstepHw.BTree.Memory

open Separation Separation.Assn

/-! ## The code with pointers -/

/-- A block. -/
inductive Cell
  | entry (key : CStr) (val : Option CStr) (next : Addr)
  | node (m : Nat) (children : List Addr)
  | insertRet (retNode : Addr) (modParent : Bool)
  | btree (root : Addr) (height : Nat) (n : Int)
  deriving DecidableEq

abbrev Prog := HeapM Cell

def getKey (e : Addr) : Prog CStr := read e fun | .entry k _ _ => some k | _ => none

def getNext (e : Addr) : Prog Addr := read e fun | .entry _ _ q => some q | _ => none

def setKey (e : Addr) (key : CStr) : Prog Unit := write e fun | .entry _ v q => some (.entry key v q) | _ => none

def setNext (e next : Addr) : Prog Unit := write e fun | .entry k v _ => some (.entry k v next) | _ => none

def getM (h : Addr) : Prog Nat := read h fun | .node m _ => some m | _ => none

def setM (h : Addr) (m : Nat) : Prog Unit := write h fun | .node _ cs => some (.node m cs) | _ => none

def getChild (h : Addr) (i : Nat) : Prog Addr := read h fun | .node _ cs => cs[i]? | _ => none

def setChild (h : Addr) (i : Nat) (e : Addr) : Prog Unit :=
  write h fun | .node m cs => if i < cs.length then some (.node m (cs.set i e)) else none | _ => none

def getRetNode (u : Addr) : Prog Addr := read u fun | .insertRet r _ => some r | _ => none

def setRetNode (u r : Addr) : Prog Unit := write u fun | .insertRet _ b => some (.insertRet r b) | _ => none

def getModParent (u : Addr) : Prog Bool := read u fun | .insertRet _ b => some b | _ => none

def setModParent (u : Addr) (b : Bool) : Prog Unit :=
  write u fun | .insertRet r _ => some (.insertRet r b) | _ => none

def getRoot (b : Addr) : Prog Addr := read b fun | .btree r _ _ => some r | _ => none

def setRoot (b root : Addr) : Prog Unit := write b fun | .btree _ ht n => some (.btree root ht n) | _ => none

def getHeight (b : Addr) : Prog Nat := read b fun | .btree _ ht _ => some ht | _ => none

/-- `btree->height++`. -/
def incHeight (b : Addr) : Prog Unit := write b fun | .btree r ht n => some (.btree r (ht + 1) n) | _ => none

/-- `btree->n++`. -/
def incN (b : Addr) : Prog Unit :=
  write b fun | .btree r ht n => some (.btree r ht (CInt.toInt (n + 1))) | _ => none

/-- `h->children[i]->key`. -/
def keyAt (h : Addr) (i : Nat) : Prog CStr := do getKey (← getChild h i)

def initEntry (key : CStr) (val : Option CStr) (next : Addr) : Prog Addr := malloc (.entry key val next)

/-- The slots are `NULL` here until they are set. -/
def initNode (m : Nat) : Prog Addr := do
  let new ← malloc (.node m (List.replicate M 0))
  (List.range M).forM fun i => do setChild new i (← initEntry .empty (some .empty) 0)
  return new

def initBtree : Prog Addr := do
  let new ← malloc (.btree 0 0 0)
  setRoot new (← initNode 0)
  return new

def split (h : Addr) : Prog Addr := do
  let t ← initNode (M / 2)
  setM h (M / 2)
  (List.range (M / 2)).forM fun j => do
    let oldEntry ← getChild t j
    setChild t j (← getChild h (M / 2 + j))
    free oldEntry
    setChild h (M / 2 + j) 0
  return t

/-- `for (int i = h->m; i > j; i--) h->children[i] = h->children[i - 1];` -/
def shift (h : Addr) (j : Nat) : Nat → Prog Unit
  | 0 => return
  | i + 1 => do
    if j < i + 1 then
      setChild h (i + 1) (← getChild h i)
      shift h j i

/-- The code from the label `insert_node` on. -/
def insertNode (h : Addr) (j : Nat) (t ret : Addr) : Prog Addr := do
  let m ← getM h
  free (← getChild h m)
  shift h j m
  setChild h j t
  setM h (m + 1)
  if m + 1 < M then
    setRetNode ret 0
  else
    setRetNode ret (← split h)
  return ret

/-- The loop `for (; j < h->m; j++)` of a leaf, with `n` slots to go. -/
def leafLoop (h : Addr) (key : CStr) : Nat → Nat → Prog Nat
  | 0, j => return j
  | n + 1, j => do
    if strcmp key (← keyAt h j) < 0 then return j
    else leafLoop h key n (j + 1)

/-- The search of the loop `for (; j < h->m; j++)` of an internal node, with `n` slots to go. -/
def childLoop (h : Addr) (key : CStr) : Nat → Nat → Prog (Option Nat)
  | 0, _ => return none
  | n + 1, j => do
    if n = 0 then return some j
    else if strcmp key (← keyAt h (j + 1)) < 0 then return some j
    else childLoop h key n (j + 1)

/-- `if (u->mod_parent) h->children[i]->key = key;` -/
def setParentKey (u h : Addr) (i : Nat) (key : CStr) : Prog Unit := do
  if ← getModParent u then setKey (← getChild h i) key

def insert (h : Addr) (key : CStr) (val : Option CStr) : Nat → Prog Addr
  | 0 => do
    let ret ← malloc (.insertRet 0 false)
    let t ← initEntry key val 0
    let m ← getM h
    if m = 0 then insertNode h 0 t ret
    else if strcmp key .empty ≠ 0 ∧ strcmp key (← keyAt h 0) < 0 then
      setModParent ret true
      insertNode h 0 t ret
    else insertNode h (← leafLoop h key (m - 1) 1) t ret
  | ht + 1 => do
    let ret ← malloc (.insertRet 0 false)
    let t ← initEntry key val 0
    match ← childLoop h key (← getM h) 0 with
    | none => insertNode h 0 t ret
    | some j =>
      let u ← insert (← getNext (← getChild h j)) key val ht
      setParentKey u h j key
      let r ← getRetNode u
      if r = 0 then
        free ret
        free t
        return u
      else
        setKey t (← keyAt r 0)
        setNext t r
        free u
        insertNode h (j + 1) t ret

def put (btree : Addr) (key val : Option CStr) : Prog Unit := do
  match key with
  | none => return
  | some key =>
    let u ← insert (← getRoot btree) key val (← getHeight btree)
    incN btree
    setParentKey u (← getRoot btree) 0 key
    let r ← getRetNode u
    if r = 0 then free u
    else
      let t ← initNode 2
      let oldEntry ← getChild t 0
      setChild t 0 (← initEntry (← keyAt (← getRoot btree) 0) none (← getRoot btree))
      free oldEntry
      let oldEntry ← getChild t 1
      setChild t 1 (← initEntry (← keyAt (← getRetNode u) 0) none (← getRetNode u))
      free oldEntry
      free u
      setRoot btree t
      incHeight btree

/-- The fuel bounds the depth of the recursion. -/
def freeNode : Nat → Addr → Prog Unit
  | 0, _ => failure
  | fuel + 1, subnode => do
    (List.range M).forM fun i => do
      let child ← getChild subnode i
      if child ≠ 0 then
        let targetNode ← getNext child
        if targetNode ≠ 0 then freeNode fuel targetNode
        free (← getChild subnode i)
    free subnode

/-- One turn of the loop of `main`: a tree, the calls of `put` (one after another, because of the lock), and the end of
the tree. -/
def turn (fuel : Nat) (calls : List (Option CStr × Option CStr)) : Prog Unit := do
  let btree ← initBtree
  calls.forM fun c => put btree c.1 c.2
  freeNode fuel (← getRoot btree)
  free btree

end OstepHw.BTree.Memory
