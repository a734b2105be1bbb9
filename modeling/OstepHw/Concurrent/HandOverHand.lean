import OstepHw.Concurrent.LinkedList
import OstepHw.Lib.Program

/-!
# The list with hand-over-hand locking

Model of `List_Insert` and `List_Lookup` of `hand-over-hand-locking-list.c`, which every thread calls as often as it
wants.  A statement is one step.  A lock is held by a thread or free.  The state also records the nodes from
`L->head` on, a list with one lock on which each call is made at one moment of the call, and what the lookups that
have returned were asked.

* `prog` — the calls of a thread, one after the other;
* `Walk` — where a lookup is: it has passed keys that are not its own, and the keys that were there when it read
  `L->head` are still in front of it;
* `Inv` — the list, the locks, and what each thread knows;
* `lookups_linearised` — every lookup returns what the list with one lock returns at the moment when `L->head` is
  read, no thread holds more than two nodes, and nobody is stuck.
-/

set_option autoImplicit false

namespace OstepHw.HandOverHand

open Machine Program

structure Node where
  next : Option Nat
  key : Int
  /-- The thread that holds the lock. -/
  lock : Option Nat

/-- A call of `List_Lookup`, and how things are when it reads `L->head`. -/
structure Ask where
  key : Int
  /-- The keys in the list. -/
  keys : List Int
  /-- What `List_Lookup` of the list with one lock returns. -/
  single : Option Int

structure ListT where
  heap : Nat → Option Node
  /-- What `malloc` returns next. -/
  brk : Nat
  head : Option Nat
  insertLock : Option Nat
  /-- The nodes from `head` on. -/
  nodes : List Nat
  /-- The list with one lock. -/
  single : LinkedList.ListT
  /-- The lookups that have returned, with what they have returned. -/
  returned : List (Ask × Int)

def listInit : ListT := ⟨fun _ => none, 0, none, none, [], LinkedList.listInit, []⟩

def ListT.link (L : ListT) (a : Nat) : Option (Option Nat) := (L.heap a).map Node.next

def ListT.keyOf (L : ListT) (a : Nat) : Int := ((L.heap a).map Node.key).getD 0

def ListT.lockOf (L : ListT) (a : Nat) : Option Nat := (L.heap a).bind Node.lock

inductive Call
  | insert (key : Int)
  | lookup (key : Int)

/-- What a thread does next. -/
inductive Pc
  | idle
  /-- `List_Insert` -/
  | insertMalloc (key : Int)
  | insertKey (key : Int) (new : Nat)
  | insertLock (key : Int) (new : Nat)
  /-- `new->next = L->head` -/
  | insertNext (key : Int) (new : Nat)
  /-- `L->head = new` -/
  | insertHead (key : Int) (new : Nat)
  | insertUnlock
  /-- `curr = L->head` of `List_Lookup` -/
  | lookupHead (key : Int)
  | lockFirst (ask : Ask) (curr : Nat)
  /-- `curr->key == key` -/
  | testKey (ask : Ask) (curr : Nat)
  | unlockFound (ask : Ask) (curr : Nat)
  /-- `curr = curr->next` -/
  | readNext (ask : Ask) (curr : Nat)
  | lockNext (ask : Ask) (temp : Nat) (curr : Nat)
  | unlockTemp (ask : Ask) (temp : Nat) (curr : Option Nat)
  | ret (ask : Ask) (rv : Int)

structure Place where
  pc : Pc
  /-- The calls that the thread has still to make. -/
  calls : List Call

def ListT.setNode (L : ListT) (a : Nat) (node : Node) : ListT :=
  { L with heap := Function.update L.heap a (some node) }

/-- `Pthread_mutex_lock` of a node by thread `i`. -/
def ListT.lockNode (L : ListT) (i a : Nat) : Option ListT :=
  match L.heap a with
  | none => none
  | some node => if node.lock = none then some (L.setNode a { node with lock := some i }) else none

def ListT.unlockNode (L : ListT) (a : Nat) : Option ListT :=
  (L.heap a).map fun node => L.setNode a { node with lock := none }

/-- One statement of thread `i` in a call. -/
def stmt (i : Nat) (L : ListT) : Pc → Option (ListT × Pc)
  | .idle => none
  | .insertMalloc key => some ({ L.setNode L.brk ⟨none, 0, none⟩ with brk := L.brk + 1 }, .insertKey key L.brk)
  | .insertKey key new =>
    (L.heap new).map fun node => (L.setNode new { node with key := key, lock := none }, .insertLock key new)
  | .insertLock key new =>
    if L.insertLock = none then some ({ L with insertLock := some i }, .insertNext key new) else none
  | .insertNext key new =>
    (L.heap new).map fun node => (L.setNode new { node with next := L.head }, .insertHead key new)
  | .insertHead key new =>
    some ({ L with
      head := some new
      nodes := new :: L.nodes
      single := LinkedList.listInsert L.single key }, .insertUnlock)
  | .insertUnlock => some ({ L with insertLock := none }, .idle)
  | .lookupHead key =>
    let ask : Ask := ⟨key, L.nodes.map L.keyOf, LinkedList.listLookup L.single key⟩
    some (L, match L.head with
      | none => .ret ask (-1)
      | some curr => .lockFirst ask curr)
  | .lockFirst ask curr => (L.lockNode i curr).map fun L => (L, .testKey ask curr)
  | .testKey ask curr =>
    (L.heap curr).map fun node => (L, if node.key = ask.key then .unlockFound ask curr else .readNext ask curr)
  | .unlockFound ask curr => (L.unlockNode curr).map fun L => (L, .ret ask 0)
  | .readNext ask curr =>
    (L.heap curr).map fun node => (L, match node.next with
      | none => .unlockTemp ask curr none
      | some next => .lockNext ask curr next)
  | .lockNext ask temp curr => (L.lockNode i curr).map fun L => (L, .unlockTemp ask temp (some curr))
  | .unlockTemp ask temp curr =>
    (L.unlockNode temp).map fun L => (L, match curr with
      | none => .ret ask (-1)
      | some curr => .testKey ask curr)
  | .ret ask rv => some ({ L with returned := L.returned ++ [(ask, rv)] }, .idle)

def Call.start : Call → Pc
  | .insert key => .insertMalloc key
  | .lookup key => .lookupHead key

/-- The calls of a thread. -/
def prog : Prog ListT Place
  | _, L, ⟨.idle, call :: calls⟩ => some (L, ⟨call.start, calls⟩)
  | i, L, ⟨pc, calls⟩ => (stmt i L pc).map fun r => (r.1, ⟨r.2, calls⟩)

/-- Thread `i` makes the calls `calls i`. -/
def init (calls : Nat → List Call) : State ListT Place := ⟨listInit, fun i => ⟨.idle, calls i⟩⟩

namespace Pc

/-- The node that is not yet in the list. -/
def new : Pc → Option Nat
  | insertKey _ new | insertLock _ new | insertNext _ new | insertHead _ new => some new
  | _ => none

/-- Between `Pthread_mutex_lock` and `Pthread_mutex_unlock` of `insert_lock`. -/
def inInsert : Pc → Bool
  | insertNext .. | insertHead .. | insertUnlock => true
  | _ => false

/-- The nodes whose lock the thread has. -/
def holds : Pc → List Nat
  | testKey _ curr | unlockFound _ curr | readNext _ curr => [curr]
  | lockNext _ temp _ => [temp]
  | unlockTemp _ temp none => [temp]
  | unlockTemp _ temp (some curr) => [temp, curr]
  | _ => []

/-- The node whose lock the thread waits for. -/
def wants : Pc → Option Nat
  | lockFirst _ curr | lockNext _ _ curr => some curr
  | _ => none

/-- No call is under way, or one is about to return. -/
def outside : Pc → Bool
  | idle | ret .. => true
  | _ => false

end Pc

def Place.finished (p : Place) : Prop := p.pc = .idle ∧ p.calls = []

/-- What the lookup was asked is what the list with one lock was asked. -/
def Ask.Agrees (ask : Ask) : Prop := ask.single = some (if ask.key ∈ ask.keys then 0 else -1)

/-- The lookup is behind the nodes of `before`, and its next node is `p`. -/
def Walk (L : ListT) (ask : Ask) (before : List Nat) (p : Option Nat) : Prop :=
  ∃ passed rest, before ++ rest <:+ L.nodes ∧ rest.head? = p ∧ ask.keys = passed ++ rest.map L.keyOf ∧
    ask.key ∉ passed

/-- What a thread knows about the list. -/
def Knows (L : ListT) : Pc → Prop
  | .insertLock key new | .insertNext key new => L.keyOf new = key
  | .insertHead key new => L.keyOf new = key ∧ L.link new = some L.head
  | .lockFirst ask curr | .testKey ask curr => ask.Agrees ∧ Walk L ask [] (some curr)
  | .unlockFound ask _ => ask.Agrees ∧ ask.key ∈ ask.keys
  | .readNext ask curr => ask.Agrees ∧ Walk L ask [] (some curr) ∧ L.keyOf curr ≠ ask.key
  | .lockNext ask temp curr => ask.Agrees ∧ Walk L ask [temp] (some curr)
  | .unlockTemp ask temp curr => ask.Agrees ∧ Walk L ask [temp] curr
  | .ret ask rv => ask.Agrees ∧ rv = if ask.key ∈ ask.keys then 0 else -1
  | _ => True

structure Inv (n : Nat) (L : ListT) (pc : Nat → Pc) : Prop where
  chain : Chain L.link L.head L.nodes
  fresh : ∀ a, L.brk ≤ a → L.heap a = none
  new : ∀ i < n, ∀ a, (pc i).new = some a → a ∉ L.nodes ∧ ∃ node, L.heap a = some node ∧ node.lock = none
  newUnique : ∀ i < n, ∀ j < n, ∀ a, (pc i).new = some a → (pc j).new = some a → i = j
  insertLock : ∀ i, L.insertLock = some i ↔ i < n ∧ (pc i).inInsert = true
  locks : ∀ i a, L.lockOf a = some i ↔ i < n ∧ a ∈ (pc i).holds
  knows : ∀ i < n, Knows L (pc i)
  single : LinkedList.Shows L.single (L.nodes.map L.keyOf)
  returned : ∀ r ∈ L.returned, r.1.Agrees ∧ r.2 = if r.1.key ∈ r.1.keys then 0 else -1

/-! ## What one statement does -/

section
variable {L L' : ListT} {i a b : Nat} {node : Node} {pc pc' : Pc} {ask : Ask} {before : List Nat} {p : Option Nat}

theorem setNode_link : (L.setNode a node).link b = if b = a then some node.next else L.link b := by
  rcases eq_or_ne b a with rfl | hba
  · simp [ListT.link, ListT.setNode]
  · simp [ListT.link, ListT.setNode, hba]

theorem setNode_keyOf : (L.setNode a node).keyOf b = if b = a then node.key else L.keyOf b := by
  rcases eq_or_ne b a with rfl | hba
  · simp [ListT.keyOf, ListT.setNode]
  · simp [ListT.keyOf, ListT.setNode, hba]

theorem setNode_lockOf : (L.setNode a node).lockOf b = if b = a then node.lock else L.lockOf b := by
  rcases eq_or_ne b a with rfl | hba
  · simp [ListT.lockOf, ListT.setNode]
  · simp [ListT.lockOf, ListT.setNode, hba]

theorem setNode_heap : (L.setNode a node).heap b = if b = a then some node else L.heap b := by
  rcases eq_or_ne b a with rfl | hba
  · simp [ListT.setNode]
  · simp [ListT.setNode, hba]

theorem lockNode_eq_some : L.lockNode i a = some L' ↔
    ∃ node, L.heap a = some node ∧ node.lock = none ∧ L' = L.setNode a { node with lock := some i } := by
  unfold ListT.lockNode
  split
  · next hnone => simp [hnone]
  · next node hnode => simp [hnode, eq_comm]

theorem unlockNode_eq_some : L.unlockNode a = some L' ↔
    ∃ node, L.heap a = some node ∧ L' = L.setNode a { node with lock := none } := by
  unfold ListT.unlockNode
  rw [Option.map_eq_some_iff]
  simp only [eq_comm]

theorem Walk.mem (h : Walk L ask before (some a)) : a ∈ L.nodes := by
  obtain ⟨passed, rest, hsuffix, hhead, -, -⟩ := h
  exact hsuffix.subset (List.mem_append_right _ (List.mem_of_mem_head? hhead))

theorem Walk.ne (h : Walk L ask [a] (some b)) (hnodup : L.nodes.Nodup) : a ≠ b := by
  obtain ⟨passed, rest, hsuffix, hhead, -, -⟩ := h
  rintro rfl
  exact (List.nodup_cons.mp (hnodup.sublist hsuffix.sublist)).1 (List.mem_of_mem_head? hhead)

/-- What a step of thread `i` from `pc` to `pc'` does to the list. -/
inductive Effect (i : Nat) (L : ListT) (pc pc' : Pc) : ListT → Prop
  | look (hn : pc'.new = pc.new) (hi : pc'.inInsert = pc.inInsert) (hh : pc'.holds = pc.holds) : Effect i L pc pc' L
  | malloc (hn : pc.new = none) (hn' : pc'.new = some L.brk) (hi : pc'.inInsert = pc.inInsert)
      (hh : pc'.holds = pc.holds) : Effect i L pc pc' { L.setNode L.brk ⟨none, 0, none⟩ with brk := L.brk + 1 }
  | write {a : Nat} {node node' : Node} (hnode : L.heap a = some node) (hlock : node.lock = none → node'.lock = none)
      (hn : pc.new = some a) (hn' : pc'.new = some a) (hi : pc'.inInsert = pc.inInsert) (hh : pc'.holds = pc.holds) :
      Effect i L pc pc' (L.setNode a node')
  | take (hfree : L.insertLock = none) (hn : pc'.new = pc.new) (hi : pc'.inInsert = true) (hh : pc'.holds = pc.holds) :
      Effect i L pc pc' { L with insertLock := some i }
  | publish {a : Nat} (hn : pc.new = some a) (hn' : pc'.new = none) (hlink : L.link a = some L.head)
      (hi : pc.inInsert = true) (hi' : pc'.inInsert = true) (hh : pc'.holds = pc.holds) :
      Effect i L pc pc'
        { L with
          head := some a
          nodes := a :: L.nodes
          single := LinkedList.listInsert L.single (L.keyOf a) }
  | give (hn : pc'.new = pc.new) (hi : pc.inInsert = true) (hi' : pc'.inInsert = false) (hh : pc'.holds = pc.holds) :
      Effect i L pc pc' { L with insertLock := none }
  | lock {a : Nat} {node : Node} (hnode : L.heap a = some node) (hfree : node.lock = none) (hmem : a ∈ L.nodes)
      (hn : pc'.new = pc.new) (hi : pc'.inInsert = pc.inInsert) (hh : pc'.holds = pc.holds ++ [a]) :
      Effect i L pc pc' (L.setNode a { node with lock := some i })
  | unlock {a : Nat} {node : Node} (hnode : L.heap a = some node) (hn : pc'.new = pc.new)
      (hi : pc'.inInsert = pc.inInsert) (hh : pc.holds = a :: pc'.holds) (hh' : a ∉ pc'.holds) :
      Effect i L pc pc' (L.setNode a { node with lock := none })
  | log {ask : Ask} {rv : Int} (hagrees : ask.Agrees) (hrv : rv = if ask.key ∈ ask.keys then 0 else -1)
      (hn : pc'.new = pc.new) (hi : pc'.inInsert = pc.inInsert) (hh : pc'.holds = pc.holds) :
      Effect i L pc pc' { L with returned := L.returned ++ [(ask, rv)] }

theorem stmt_effect (hchain : Chain L.link L.head L.nodes) (hk : Knows L pc) (h : stmt i L pc = some (L', pc')) :
    Effect i L pc pc' L' := by
  cases pc
  case idle => cases h
  case insertMalloc =>
    cases h
    exact .malloc rfl rfl rfl rfl
  case insertKey =>
    obtain ⟨node, hnode, heq⟩ := Option.map_eq_some_iff.mp h
    cases heq
    exact .write hnode (fun _ => rfl) rfl rfl rfl rfl
  case insertLock =>
    simp only [stmt, Option.ite_none_right_eq_some, Option.some.injEq, Prod.mk.injEq] at h
    obtain ⟨hfree, rfl, rfl⟩ := h
    exact .take hfree rfl rfl rfl
  case insertNext =>
    obtain ⟨node, hnode, heq⟩ := Option.map_eq_some_iff.mp h
    cases heq
    exact .write hnode id rfl rfl rfl rfl
  case insertHead =>
    cases h
    obtain ⟨rfl, hlink⟩ := hk
    exact .publish rfl rfl hlink rfl rfl rfl
  case insertUnlock =>
    cases h
    exact .give rfl rfl rfl rfl
  case lookupHead =>
    simp only [stmt, Option.some.injEq, Prod.mk.injEq] at h
    obtain ⟨rfl, rfl⟩ := h
    split <;> exact .look rfl rfl rfl
  case lockFirst =>
    obtain ⟨_, hlock, heq⟩ := Option.map_eq_some_iff.mp h
    obtain ⟨node, hnode, hfree, rfl⟩ := lockNode_eq_some.1 hlock
    cases heq
    exact .lock hnode hfree hk.2.mem rfl rfl rfl
  case testKey =>
    obtain ⟨node, hnode, heq⟩ := Option.map_eq_some_iff.mp h
    cases heq
    split <;> exact .look rfl rfl rfl
  case unlockFound =>
    obtain ⟨_, hunlock, heq⟩ := Option.map_eq_some_iff.mp h
    obtain ⟨node, hnode, rfl⟩ := unlockNode_eq_some.1 hunlock
    cases heq
    exact .unlock hnode rfl rfl rfl List.not_mem_nil
  case readNext =>
    obtain ⟨node, hnode, heq⟩ := Option.map_eq_some_iff.mp h
    cases heq
    split <;> exact .look rfl rfl rfl
  case lockNext =>
    obtain ⟨_, hlock, heq⟩ := Option.map_eq_some_iff.mp h
    obtain ⟨node, hnode, hfree, rfl⟩ := lockNode_eq_some.1 hlock
    cases heq
    exact .lock hnode hfree hk.2.mem rfl rfl rfl
  case unlockTemp ask temp curr =>
    obtain ⟨_, hunlock, heq⟩ := Option.map_eq_some_iff.mp h
    obtain ⟨node, hnode, rfl⟩ := unlockNode_eq_some.1 hunlock
    cases heq
    cases curr with
    | none => exact .unlock hnode rfl rfl rfl List.not_mem_nil
    | some curr => exact .unlock hnode rfl rfl rfl (by simpa [Pc.holds] using hk.2.ne hchain.nodup)
  case ret =>
    cases h
    exact .log hk.1 hk.2 rfl rfl rfl

/-! ## What the threads know -/

/-- The nodes of the list do not change, and new ones come before them. -/
theorem Walk.grow (h : Walk L ask before p) (hnodes : L.nodes <:+ L'.nodes)
    (hkey : ∀ a ∈ L.nodes, L'.keyOf a = L.keyOf a) : Walk L' ask before p := by
  obtain ⟨passed, rest, hsuffix, hhead, hkeys, hpassed⟩ := h
  refine ⟨passed, rest, hsuffix.trans hnodes, hhead, ?_, hpassed⟩
  rw [hkeys, List.map_congr_left fun a ha => hkey a (hsuffix.subset (List.mem_append_right _ ha))]

theorem Knows.grow (h : Knows L pc) (hnodes : L.nodes <:+ L'.nodes) (hkey : ∀ a ∈ L.nodes, L'.keyOf a = L.keyOf a)
    (hnew : ∀ a, pc.new = some a → L'.link a = L.link a ∧ L'.keyOf a = L.keyOf a)
    (hhead : pc.inInsert = true → L'.head = L.head) : Knows L' pc := by
  cases pc
  case insertLock key new | insertNext key new => exact (hnew new rfl).2.trans h
  case insertHead key new =>
    obtain ⟨hlink, hkey⟩ := hnew new rfl
    exact ⟨hkey.trans h.1, by rw [hlink, h.2, hhead rfl]⟩
  case lockFirst | testKey | lockNext | unlockTemp => exact ⟨h.1, h.2.grow hnodes hkey⟩
  case readNext => exact ⟨h.1, h.2.1.grow hnodes hkey, by rw [hkey _ h.2.1.mem]; exact h.2.2⟩
  case unlockFound | ret => exact h
  all_goals trivial

/-- A lock does not matter to a walk. -/
theorem Walk.setNode {node node' : Node} (h : Walk L ask before p) (hnode : L.heap a = some node)
    (hkey : node'.key = node.key) : Walk (L.setNode a node') ask before p := by
  refine h.grow List.suffix_rfl fun b _ => ?_
  rw [setNode_keyOf]
  split
  · next hba => rw [hba, hkey, ListT.keyOf, hnode]; rfl
  · rfl

/-- The lookup begins with the first node. -/
theorem walk_first (hchain : Chain L.link L.head L.nodes) (hkeys : ask.keys = L.nodes.map L.keyOf) :
    Walk L ask [] L.head :=
  ⟨[], L.nodes, List.suffix_rfl, hchain.head?_eq, hkeys, List.not_mem_nil⟩

/-- The lookup goes on to the next node. -/
theorem Walk.next (h : Walk L ask [] (some a)) (hchain : Chain L.link L.head L.nodes) (hnode : L.heap a = some node)
    (hkey : node.key ≠ ask.key) : Walk L ask [a] node.next := by
  obtain ⟨passed, rest, hsuffix, hhead, hkeys, hpassed⟩ := h
  obtain ⟨rest, rfl⟩ := List.head?_eq_some_iff.mp hhead
  have hkeyOf : L.keyOf a = node.key := by
    rw [ListT.keyOf, hnode]
    rfl
  refine ⟨passed ++ [node.key], rest, hsuffix, ?_, ?_, ?_⟩
  · obtain ⟨l, hl⟩ := hsuffix
    rw [List.nil_append] at hl
    rw [← hl] at hchain
    obtain ⟨q, hlink, hrest⟩ := hchain.suffix
    rw [ListT.link, hnode] at hlink
    cases hlink
    exact hrest.head?_eq
  · rw [hkeys, List.map_cons, hkeyOf, List.append_assoc]
    rfl
  · rw [List.mem_append, List.mem_singleton, not_or]
    exact ⟨hpassed, Ne.symm hkey⟩

/-- At the end of the list all keys are passed. -/
theorem Walk.not_mem (h : Walk L ask before none) : ask.key ∉ ask.keys := by
  obtain ⟨passed, rest, -, hhead, hkeys, hpassed⟩ := h
  obtain rfl : rest = [] := List.head?_eq_none_iff.mp hhead
  rwa [hkeys, List.map_nil, List.append_nil]

theorem Walk.key_mem (h : Walk L ask before (some a)) (hkey : L.keyOf a = ask.key) : ask.key ∈ ask.keys := by
  obtain ⟨passed, rest, -, hhead, hkeys, -⟩ := h
  rw [hkeys, ← hkey]
  exact List.mem_append_right _ (List.mem_map_of_mem (List.mem_of_mem_head? hhead))

/-- What thread `i` knows after a statement. -/
theorem stmt_knows (hchain : Chain L.link L.head L.nodes) (hsingle : LinkedList.Shows L.single (L.nodes.map L.keyOf))
    (hk : Knows L pc) (h : stmt i L pc = some (L', pc')) : Knows L' pc' := by
  cases pc
  case idle => cases h
  case insertMalloc | insertHead | insertUnlock | ret =>
    cases h
    trivial
  case insertKey key new =>
    obtain ⟨node, hnode, heq⟩ := Option.map_eq_some_iff.mp h
    cases heq
    exact setNode_keyOf.trans (if_pos rfl)
  case insertLock =>
    simp only [stmt, Option.ite_none_right_eq_some, Option.some.injEq, Prod.mk.injEq] at h
    obtain ⟨-, rfl, rfl⟩ := h
    exact hk
  case insertNext key new =>
    obtain ⟨node, hnode, heq⟩ := Option.map_eq_some_iff.mp h
    cases heq
    refine ⟨?_, setNode_link.trans (if_pos rfl)⟩
    rw [setNode_keyOf, if_pos rfl, ← show L.keyOf new = key from hk, ListT.keyOf, hnode]
    rfl
  case lookupHead key =>
    simp only [stmt, Option.some.injEq, Prod.mk.injEq] at h
    obtain ⟨rfl, rfl⟩ := h
    have hagrees : Ask.Agrees ⟨key, L.nodes.map L.keyOf, LinkedList.listLookup L.single key⟩ :=
      LinkedList.lookup_eq hsingle key
    have hwalk : Walk L ⟨key, L.nodes.map L.keyOf, LinkedList.listLookup L.single key⟩ [] L.head :=
      walk_first hchain rfl
    cases hhead : L.head with
    | none =>
      rw [hhead] at hwalk
      exact ⟨hagrees, (if_neg hwalk.not_mem).symm⟩
    | some curr =>
      rw [hhead] at hwalk
      exact ⟨hagrees, hwalk⟩
  case lockFirst | lockNext =>
    obtain ⟨_, hlock, heq⟩ := Option.map_eq_some_iff.mp h
    obtain ⟨node, hnode, -, rfl⟩ := lockNode_eq_some.1 hlock
    cases heq
    exact ⟨hk.1, hk.2.setNode hnode rfl⟩
  case testKey ask curr =>
    obtain ⟨node, hnode, heq⟩ := Option.map_eq_some_iff.mp h
    cases heq
    have hkeyOf : L.keyOf curr = node.key := by
      rw [ListT.keyOf, hnode]
      rfl
    split
    · next hkey => exact ⟨hk.1, hk.2.key_mem (hkeyOf.trans hkey)⟩
    · next hkey => exact ⟨hk.1, hk.2, by rwa [hkeyOf]⟩
  case unlockFound =>
    obtain ⟨_, hunlock, heq⟩ := Option.map_eq_some_iff.mp h
    cases heq
    exact ⟨hk.1, (if_pos hk.2).symm⟩
  case readNext ask curr =>
    obtain ⟨node, hnode, heq⟩ := Option.map_eq_some_iff.mp h
    cases heq
    have hkey : node.key ≠ ask.key := by
      have hne := hk.2.2
      rwa [ListT.keyOf, hnode] at hne
    have hwalk := hk.2.1.next hchain hnode hkey
    cases hnext : node.next with
    | none =>
      rw [hnext] at hwalk
      exact ⟨hk.1, hwalk⟩
    | some next =>
      rw [hnext] at hwalk
      exact ⟨hk.1, hwalk⟩
  case unlockTemp ask temp curr =>
    obtain ⟨_, hunlock, heq⟩ := Option.map_eq_some_iff.mp h
    obtain ⟨node, hnode, rfl⟩ := unlockNode_eq_some.1 hunlock
    cases heq
    cases curr with
    | none => exact ⟨hk.1, (if_neg hk.2.not_mem).symm⟩
    | some curr =>
      obtain ⟨passed, rest, hsuffix, hrest⟩ := hk.2
      have hwalk : Walk L ask [] (some curr) := ⟨passed, rest, (List.suffix_append [temp] rest).trans hsuffix, hrest⟩
      exact ⟨hk.1, hwalk.setNode hnode rfl⟩

end

/-! ## The invariant -/

section
variable {n i : Nat} {L L' : ListT} {pc : Nat → Pc} {q : Pc}

theorem inv_init (n : Nat) (pc : Nat → Pc) (hpc : ∀ i, pc i = .idle) : Inv n listInit pc where
  chain := rfl
  fresh _ _ := rfl
  new i _ a ha := by
    rw [hpc] at ha
    cases ha
  newUnique i _ _ _ a ha := by
    rw [hpc] at ha
    cases ha
  insertLock i := by
    rw [hpc]
    exact iff_of_false (fun h => by cases h) fun h => by cases h.2
  locks i a := by
    rw [hpc]
    exact iff_of_false (fun h => by cases h) fun h => by cases h.2
  knows i _ := by
    rw [hpc]
    trivial
  single := LinkedList.init_shows
  returned _ h := by cases h

theorem Inv.mem_ne_brk (h : Inv n L pc) {a : Nat} (ha : a ∈ L.nodes) : a ≠ L.brk := by
  rintro rfl
  have hnone := h.chain.link_ne_none ha
  rw [ListT.link, h.fresh L.brk (Nat.le_refl _)] at hnone
  exact hnone rfl

theorem Inv.new_ne_brk (h : Inv n L pc) (hi : i < n) {a : Nat} (ha : (pc i).new = some a) : a ≠ L.brk := by
  rintro rfl
  obtain ⟨-, node, hnode, -⟩ := h.new i hi _ ha
  rw [h.fresh L.brk (Nat.le_refl _)] at hnode
  cases hnode

/-- Only a node that is not yet in the list gets another key or pointer. -/
theorem Effect.cell {pc : Pc} (h : Effect i L pc q L') {a : Nat} (ha : a ≠ L.brk) (hnew : pc.new ≠ some a) :
    L'.link a = L.link a ∧ L'.keyOf a = L.keyOf a := by
  cases h with
  | malloc => exact ⟨setNode_link.trans (if_neg ha), setNode_keyOf.trans (if_neg ha)⟩
  | @write b node node' hnode hlock hn =>
    have hab : a ≠ b := fun hab => hnew (hab ▸ hn)
    exact ⟨setNode_link.trans (if_neg hab), setNode_keyOf.trans (if_neg hab)⟩
  | lock hnode | unlock hnode =>
    rw [setNode_link, setNode_keyOf]
    constructor
    · split
      · next hab => rw [hab, ListT.link, hnode]; rfl
      · rfl
    · split
      · next hab => rw [hab, ListT.keyOf, hnode]; rfl
      · rfl
  | _ => exact ⟨rfl, rfl⟩

theorem Inv.cell (h : Inv n L pc) (hi : i < n) (he : Effect i L (pc i) q L') {a : Nat} (ha : a ∈ L.nodes) :
    L'.link a = L.link a ∧ L'.keyOf a = L.keyOf a :=
  he.cell (h.mem_ne_brk ha) fun hnew => (h.new i hi a hnew).1 ha

theorem Inv.keys (h : Inv n L pc) (hi : i < n) (he : Effect i L (pc i) q L') :
    L.nodes.map L'.keyOf = L.nodes.map L.keyOf :=
  List.map_congr_left fun _ ha => (h.cell hi he ha).2

theorem Inv.chain_step (h : Inv n L pc) (hi : i < n) (he : Effect i L (pc i) q L') :
    Chain L'.link L'.head L'.nodes := by
  have hchain : Chain L'.link L.head L.nodes := h.chain.congr fun a ha => (h.cell hi he ha).1
  cases he with
  | publish hn hn' hlink => exact hchain.push hlink
  | _ => exact hchain

theorem Inv.single_step (h : Inv n L pc) (hi : i < n) (he : Effect i L (pc i) q L') :
    LinkedList.Shows L'.single (L'.nodes.map L'.keyOf) := by
  have hkeys := h.keys hi he
  have hsingle := h.single
  rw [← hkeys] at hsingle
  cases he with
  | publish => exact LinkedList.insert_shows hsingle _
  | _ => exact hsingle

theorem Inv.fresh_step (h : Inv n L pc) (he : Effect i L (pc i) q L') (a : Nat) (ha : L'.brk ≤ a) :
    L'.heap a = none := by
  cases he with
  | malloc =>
    have hle : L.brk + 1 ≤ a := ha
    exact setNode_heap.trans ((if_neg (by omega)).trans (h.fresh a (by omega)))
  | write hnode | lock hnode | unlock hnode =>
    refine setNode_heap.trans ((if_neg ?_).trans (h.fresh a ha))
    rintro rfl
    rw [h.fresh _ ha] at hnode
    cases hnode
  | _ => exact h.fresh a ha

theorem Inv.insertLock_step (h : Inv n L pc) (hi : i < n) (he : Effect i L (pc i) q L') (j : Nat) :
    L'.insertLock = some j ↔ j < n ∧ (Function.update pc i q j).inInsert = true := by
  have hj := h.insertLock j
  have hself := h.insertLock i
  cases he with
  | take hfree hn hi' =>
    rw [hfree] at hj
    rcases eq_or_ne j i with rfl | hji
    · rw [Function.update_self]
      exact iff_of_true rfl ⟨hi, hi'⟩
    · rw [Function.update_of_ne hji, ← hj]
      exact iff_of_false (fun heq => hji (Option.some.inj heq).symm) fun heq => by cases heq
  | give hn hi' hi'' =>
    rw [hself.mpr ⟨hi, hi'⟩] at hj
    rcases eq_or_ne j i with rfl | hji
    · rw [Function.update_self, hi'']
      exact iff_of_false (fun heq => by cases heq) fun heq => by cases heq.2
    · rw [Function.update_of_ne hji, ← hj]
      exact iff_of_false (fun heq => by cases heq) fun heq => hji (Option.some.inj heq).symm
  | publish hn hn' hlink hi' hi'' => rwa [Count.update_apply_of_eq (hi''.trans hi'.symm)]
  | look hn hi' | malloc hn hn' hi' | write hnode hlock hn hn' hi' | lock hnode hfree hmem hn hi'
  | unlock hnode hn hi' | log hagrees hrv hn hi' => rwa [Count.update_apply_of_eq hi']

theorem Inv.locks_step (h : Inv n L pc) (hi : i < n) (he : Effect i L (pc i) q L') (j a : Nat) :
    L'.lockOf a = some j ↔ j < n ∧ a ∈ (Function.update pc i q j).holds := by
  have hj := h.locks j a
  cases he with
  | @lock b node hnode hfree hmem hn hi' hh =>
    rw [setNode_lockOf]
    rcases eq_or_ne j i with rfl | hji
    · rw [Function.update_self, hh]
      split
      · next hab => simp [hab, hi]
      · next hab => simp [hab, hj, hi]
    · rw [Function.update_of_ne hji]
      split
      · next hab =>
        rw [hab, ListT.lockOf, hnode, Option.bind_some, hfree] at hj
        rw [hab, ← hj]
        exact iff_of_false (fun heq => hji (Option.some.inj heq).symm) fun heq => by cases heq
      · exact hj
  | @unlock b node hnode hn hi' hh hh' =>
    have hself : L.lockOf b = some i := (h.locks i b).mpr ⟨hi, by rw [hh]; exact List.mem_cons_self⟩
    rw [setNode_lockOf]
    rcases eq_or_ne j i with rfl | hji
    · rw [Function.update_self]
      split
      · next hab => simp [hab, hh']
      · next hab => rw [hj, hh, List.mem_cons, or_iff_right hab]
    · rw [Function.update_of_ne hji]
      split
      · next hab =>
        rw [hab, hself] at hj
        rw [hab, ← hj]
        exact iff_of_false (fun heq => by cases heq) fun heq => hji (Option.some.inj heq).symm
      · exact hj
  | malloc hn hn' hi' hh =>
    rw [Count.update_apply_of_eq hh, ← hj]
    have hsame : (L.setNode L.brk ⟨none, 0, none⟩).lockOf a = L.lockOf a := by
      rw [setNode_lockOf]
      split
      · next hab => rw [hab, ListT.lockOf, h.fresh L.brk (Nat.le_refl _)]; rfl
      · rfl
    exact Eq.congr_left hsame
  | write hnode hlock hn hn' hi' hh =>
    rw [Count.update_apply_of_eq hh, ← hj, setNode_lockOf]
    split
    · next hab =>
      obtain ⟨-, node, hnode', hfree⟩ := h.new i hi _ hn
      rw [hnode] at hnode'
      cases hnode'
      rw [hlock hfree, hab, ListT.lockOf, hnode, Option.bind_some, hfree]
    · rfl
  | look hn hi' hh | take hfree hn hi' hh | publish hn hn' hlink hi' hi'' hh | give hn hi' hi'' hh
  | log hagrees hrv hn hi' hh =>
    rw [Count.update_apply_of_eq hh]
    exact hj

/-- The nodes that are not yet in the list stay out of it, and nobody locks them. -/
theorem Inv.new_step (h : Inv n L pc) (hi : i < n) (he : Effect i L (pc i) q L') {j : Nat} (hj : j < n) {a : Nat}
    (ha : (Function.update pc i q j).new = some a) :
    a ∉ L'.nodes ∧ ∃ node, L'.heap a = some node ∧ node.lock = none := by
  cases he with
  | look hn | take _ hn | give hn | log _ _ hn =>
    rw [Count.update_apply_of_eq hn] at ha
    exact h.new j hj a ha
  | malloc hn hn' =>
    rcases eq_or_ne j i with rfl | hji
    · rw [Function.update_self, hn'] at ha
      cases ha
      exact ⟨fun hmem => h.mem_ne_brk hmem rfl, _, setNode_heap.trans (if_pos rfl), rfl⟩
    · rw [Function.update_of_ne hji] at ha
      obtain ⟨hmem, node, hnode, hfree⟩ := h.new j hj a ha
      exact ⟨hmem, node, setNode_heap.trans ((if_neg (h.new_ne_brk hj ha)).trans hnode), hfree⟩
  | @write b _ node' hnode' hlock hn hn' =>
    rw [Count.update_apply_of_eq (hn'.trans hn.symm)] at ha
    obtain ⟨hmem, node, hnode, hfree⟩ := h.new j hj a ha
    rcases eq_or_ne a b with rfl | hab
    · rw [hnode] at hnode'
      cases hnode'
      exact ⟨hmem, node', setNode_heap.trans (if_pos rfl), hlock hfree⟩
    · exact ⟨hmem, node, setNode_heap.trans ((if_neg hab).trans hnode), hfree⟩
  | @publish b hn hn' =>
    have hji : j ≠ i := by
      rintro rfl
      rw [Function.update_self, hn'] at ha
      cases ha
    rw [Function.update_of_ne hji] at ha
    obtain ⟨hmem, node, hnode, hfree⟩ := h.new j hj a ha
    have hab : a ≠ b := fun hab => hji (h.newUnique j hj i hi a ha (hab ▸ hn))
    exact ⟨fun hcons => (List.mem_cons.mp hcons).elim hab hmem, node, hnode, hfree⟩
  | @lock b _ _ _ hmem' hn =>
    rw [Count.update_apply_of_eq hn] at ha
    obtain ⟨hmem, node, hnode, hfree⟩ := h.new j hj a ha
    have hab : a ≠ b := fun hab => hmem (hab ▸ hmem')
    exact ⟨hmem, node, setNode_heap.trans ((if_neg hab).trans hnode), hfree⟩
  | @unlock b _ _ hn _ hh =>
    rw [Count.update_apply_of_eq hn] at ha
    obtain ⟨hmem, node, hnode, hfree⟩ := h.new j hj a ha
    have hab : a ≠ b := by
      rintro rfl
      have hlock : L.lockOf a = some i := (h.locks i a).mpr ⟨hi, by rw [hh]; exact List.mem_cons_self⟩
      rw [ListT.lockOf, hnode, Option.bind_some, hfree] at hlock
      cases hlock
    exact ⟨hmem, node, setNode_heap.trans ((if_neg hab).trans hnode), hfree⟩

theorem Inv.newUnique_step (h : Inv n L pc) (hi : i < n) (he : Effect i L (pc i) q L') {j k : Nat} (hj : j < n)
    (hk : k < n) {a : Nat} (ha : (Function.update pc i q j).new = some a)
    (hb : (Function.update pc i q k).new = some a) : j = k := by
  cases he with
  | malloc hn hn' =>
    rcases eq_or_ne j i with rfl | hji <;> rcases eq_or_ne k j with rfl | hkj
    · rfl
    · rw [Function.update_self, hn'] at ha
      rw [Function.update_of_ne hkj] at hb
      exact absurd (Option.some.inj ha).symm (h.new_ne_brk hk hb)
    · rfl
    · rw [Function.update_of_ne hji] at ha
      rcases eq_or_ne k i with rfl | hki
      · rw [Function.update_self, hn'] at hb
        exact absurd (Option.some.inj hb).symm (h.new_ne_brk hj ha)
      · rw [Function.update_of_ne hki] at hb
        exact h.newUnique j hj k hk a ha hb
  | publish hn hn' =>
    have hne : ∀ {m}, (Function.update pc i q m).new = some a → m ≠ i := by
      rintro m hm rfl
      rw [Function.update_self, hn'] at hm
      cases hm
    rw [Function.update_of_ne (hne ha)] at ha
    rw [Function.update_of_ne (hne hb)] at hb
    exact h.newUnique j hj k hk a ha hb
  | write _ _ hn hn' =>
    rw [Count.update_apply_of_eq (hn'.trans hn.symm)] at ha hb
    exact h.newUnique j hj k hk a ha hb
  | look hn | take _ hn | give hn | lock _ _ _ hn | unlock _ hn | log _ _ hn =>
    rw [Count.update_apply_of_eq hn] at ha hb
    exact h.newUnique j hj k hk a ha hb

theorem Inv.knows_step (h : Inv n L pc) (hi : i < n) (he : Effect i L (pc i) q L') (hq : Knows L' q) {j : Nat}
    (hj : j < n) : Knows L' (Function.update pc i q j) := by
  rcases eq_or_ne j i with rfl | hji
  · rwa [Function.update_self]
  rw [Function.update_of_ne hji]
  refine (h.knows j hj).grow ?_ (fun a ha => (h.cell hi he ha).2) (fun a ha => ?_) fun hinsert => ?_
  · cases he with
    | publish => exact List.suffix_cons ..
    | _ => exact List.suffix_rfl
  · exact he.cell (h.new_ne_brk hj ha) fun hnew => hji (h.newUnique j hj i hi a ha hnew)
  · cases he with
    | publish hn hn' hlink hi' =>
      have hself := (h.insertLock i).mpr ⟨hi, hi'⟩
      rw [(h.insertLock j).mpr ⟨hj, hinsert⟩] at hself
      exact absurd (Option.some.inj hself) hji
    | _ => rfl

theorem Inv.returned_step (h : Inv n L pc) (he : Effect i L (pc i) q L') :
    ∀ r ∈ L'.returned, r.1.Agrees ∧ r.2 = if r.1.key ∈ r.1.keys then 0 else -1 := by
  cases he with
  | log hagrees hrv =>
    intro r hr
    rcases List.mem_append.mp hr with hr | hr
    · exact h.returned r hr
    · rw [List.mem_singleton.mp hr]
      exact ⟨hagrees, hrv⟩
  | _ => exact h.returned

/-- **Every statement keeps the invariant.** -/
theorem Inv.step (h : Inv n L pc) (hi : i < n) (he : Effect i L (pc i) q L') (hq : Knows L' q) :
    Inv n L' (Function.update pc i q) where
  chain := h.chain_step hi he
  fresh := h.fresh_step he
  new _ hj _ := h.new_step hi he hj
  newUnique _ hj _ hk _ := h.newUnique_step hi he hj hk
  insertLock := h.insertLock_step hi he
  locks := h.locks_step hi he
  knows _ hj := h.knows_step hi he hq hj
  single := h.single_step hi he
  returned := h.returned_step he

end

variable {n i j : Nat} {s s' : State ListT Place} {calls : Nat → List Call}

/-- The places of the threads in their calls. -/
def pcs (s : State ListT Place) : Nat → Pc := fun i => (s.place i).pc

theorem prog_of_ne_idle {i : Nat} {L : ListT} {p : Place} (hp : p.pc ≠ .idle) :
    prog i L p = (stmt i L p.pc).map fun r => (r.1, ⟨r.2, p.calls⟩) := by
  obtain ⟨pc, calls⟩ := p
  cases pc <;> first | rfl | exact absurd rfl hp

theorem prog_cases {i : Nat} {L L' : ListT} {p p' : Place} (h : prog i L p = some (L', p')) :
    (L' = L ∧ p.pc = .idle ∧ ∃ call : Call, p'.pc = call.start) ∨ stmt i L p.pc = some (L', p'.pc) := by
  by_cases hp : p.pc = .idle
  · obtain ⟨pc, calls⟩ := p
    cases hp
    cases calls with
    | nil => cases h
    | cons call calls =>
      cases h
      exact .inl ⟨rfl, rfl, call, rfl⟩
  · rw [prog_of_ne_idle hp] at h
    obtain ⟨⟨L'', pc'⟩, hstmt, heq⟩ := Option.map_eq_some_iff.mp h
    cases heq
    exact .inr hstmt

theorem inv_step (h : Inv n s.shared (pcs s)) (hstep : step n prog s i = some s') : Inv n s'.shared (pcs s') := by
  have hi := lt_of_step hstep
  have hpcs : pcs s' = Function.update (pcs s) i (s'.place i).pc := comp_place_step Place.pc hstep
  rw [hpcs]
  rcases prog_cases (prog_of_step hstep) with ⟨hsame, hidle, call, hcall⟩ | hstmt
  · have hidle' : pcs s i = .idle := hidle
    rw [hsame, hcall]
    cases call <;> exact h.step hi (by rw [hidle']; exact .look rfl rfl rfl) trivial
  · exact h.step hi (stmt_effect h.chain (h.knows i hi) hstmt) (stmt_knows h.chain h.single (h.knows i hi) hstmt)

theorem inv_of_reaches (h : Reaches (step n prog) (init calls) s) : Inv n s.shared (pcs s) :=
  invariant (I := fun s : State ListT Place => Inv n s.shared (pcs s)) (inv_init n _ fun _ => rfl)
    (fun _ _ _ hm hstep => inv_step hm hstep) h

/-! ## Progress -/

/-- The thread stops in front of a lock that is held. -/
def Blocked (L : ListT) (pc : Pc) : Prop :=
  (∃ key new, pc = .insertLock key new ∧ L.insertLock ≠ none) ∨ ∃ a, pc.wants = some a ∧ L.lockOf a ≠ none

section
variable {L : ListT} {pc : Nat → Pc}

theorem Inv.heap_of_mem (h : Inv n L pc) {a : Nat} (ha : a ∈ L.nodes) : ∃ node, L.heap a = some node := by
  have hsome := h.chain.link_ne_none ha
  cases hnode : L.heap a with
  | none =>
    rw [ListT.link, hnode] at hsome
    exact absurd rfl hsome
  | some node => exact ⟨node, rfl⟩

theorem Inv.heap_of_holds (h : Inv n L pc) (hi : i < n) {a : Nat} (ha : a ∈ (pc i).holds) :
    ∃ node, L.heap a = some node := by
  have hlock := (h.locks i a).mpr ⟨hi, ha⟩
  obtain ⟨node, hnode, -⟩ := Option.bind_eq_some_iff.mp hlock
  exact ⟨node, hnode⟩

theorem lockNode_or_locked (h : Inv n L pc) {a : Nat} (ha : a ∈ L.nodes) :
    (L.lockNode i a).isSome ∨ L.lockOf a ≠ none := by
  obtain ⟨node, hnode⟩ := h.heap_of_mem ha
  rw [ListT.lockNode, ListT.lockOf, hnode]
  cases hlock : node.lock with
  | none => exact .inl (by simp [hlock])
  | some k => exact .inr (by simp [hlock])

theorem Inv.stmt_or_blocked (h : Inv n L pc) (hi : i < n) (hp : pc i ≠ .idle) :
    (stmt i L (pc i)).isSome ∨ Blocked L (pc i) := by
  have hknows := h.knows i hi
  have hnew := h.new i hi
  have hholds := fun a => h.heap_of_holds hi (a := a)
  generalize pc i = p at hp hknows hnew hholds
  cases p
  case idle => exact absurd rfl hp
  case insertMalloc | insertHead | insertUnlock | lookupHead | ret => exact .inl rfl
  case insertKey key new | insertNext key new =>
    obtain ⟨-, node, hnode, -⟩ := hnew new rfl
    exact .inl (by simp [stmt, hnode])
  case insertLock key new =>
    by_cases hfree : L.insertLock = none
    · exact .inl (by simp [stmt, hfree])
    · exact .inr (.inl ⟨key, new, rfl, hfree⟩)
  case lockFirst ask curr | lockNext ask temp curr =>
    refine (lockNode_or_locked (i := i) h hknows.2.mem).imp (fun hsome => ?_) fun hlocked => .inr ⟨curr, rfl, hlocked⟩
    rw [stmt, Option.isSome_map]
    exact hsome
  case testKey ask curr | unlockFound ask curr | readNext ask curr | unlockTemp ask curr next =>
    obtain ⟨node, hnode⟩ := hholds curr (by
      first | exact List.mem_cons_self | (cases next <;> exact List.mem_cons_self))
    exact .inl (by simp [stmt, ListT.unlockNode, hnode])

/-- Who waits for a node and holds another one holds the node before it. -/
theorem Inv.holds_before (h : Inv n L pc) (hi : i < n) {a b : Nat} (hholds : a ∈ (pc i).holds)
    (hwants : (pc i).wants = some b) : ∃ rest, a :: b :: rest <:+ L.nodes := by
  have hknows := h.knows i hi
  cases hp : pc i <;> rw [hp] at hholds hwants hknows <;> cases hwants
  case lockFirst => cases hholds
  case lockNext =>
    obtain rfl := List.mem_singleton.mp hholds
    obtain ⟨passed, rest, hsuffix, hhead, -⟩ := hknows.2
    obtain ⟨rest, rfl⟩ := List.head?_eq_some_iff.mp hhead
    exact ⟨rest, hsuffix⟩

theorem Inv.wants_suffix (h : Inv n L pc) (hi : i < n) {a : Nat} (hwants : (pc i).wants = some a) :
    ∃ rest, a :: rest <:+ L.nodes := by
  have hknows := h.knows i hi
  cases hp : pc i <;> rw [hp] at hwants hknows <;> cases hwants
  all_goals
    obtain ⟨passed, rest, hsuffix, hhead, -⟩ := hknows.2
    obtain ⟨rest, rfl⟩ := List.head?_eq_some_iff.mp hhead
    exact ⟨rest, (List.suffix_append _ _).trans hsuffix⟩

/-- Whoever has the node `a` and cannot go on waits for the next one. -/
theorem Inv.next_locked (h : Inv n L pc) (hblocked : ∀ k < n, (pc k).holds ≠ [] → Blocked L (pc k)) {rest : List Nat}
    {a : Nat} (hrest : a :: rest <:+ L.nodes) (ha : L.lockOf a ≠ none) :
    ∃ b rest', rest = b :: rest' ∧ L.lockOf b ≠ none := by
  obtain ⟨k, hk⟩ := Option.ne_none_iff_exists'.mp ha
  obtain ⟨hkn, hholds⟩ := (h.locks k a).mp hk
  rcases hblocked k hkn (List.ne_nil_of_mem hholds) with ⟨key, new, hp, -⟩ | ⟨b, hwants, hb⟩
  · rw [hp] at hholds
    cases hholds
  · obtain ⟨rest', hsuffix⟩ := h.holds_before hkn hholds hwants
    exact ⟨b, rest', h.chain.suffix_unique hrest hsuffix, hb⟩

/-- **Nobody waits for a node**: the one who has it would wait for a later node, and the list ends. -/
theorem Inv.unlocked (h : Inv n L pc) (hblocked : ∀ k < n, (pc k).holds ≠ [] → Blocked L (pc k)) {rest : List Nat}
    {a : Nat} (hrest : a :: rest <:+ L.nodes) : L.lockOf a = none := by
  induction rest generalizing a with
  | nil =>
    by_contra ha
    obtain ⟨b, rest', heq, -⟩ := h.next_locked hblocked hrest ha
    cases heq
  | cons b rest ih =>
    by_contra ha
    obtain ⟨b', rest', heq, hb⟩ := h.next_locked hblocked hrest ha
    cases heq
    exact hb (ih ((List.suffix_cons a _).trans hrest))

/-- Somebody is not blocked. -/
theorem Inv.not_all_blocked (h : Inv n L pc) (hi : i < n) (hp : Blocked L (pc i)) :
    ∃ k < n, pc k ≠ .idle ∧ ¬Blocked L (pc k) := by
  by_contra hnone
  push Not at hnone
  have hblocked : ∀ k < n, (pc k).holds ≠ [] → Blocked L (pc k) := fun k hk hholds =>
    hnone k hk fun hidle => hholds (by rw [hidle]; rfl)
  rcases hp with ⟨key, new, hp, hlock⟩ | ⟨a, hwants, ha⟩
  · -- whoever has `insert_lock` goes on
    obtain ⟨k, hk⟩ := Option.ne_none_iff_exists'.mp hlock
    obtain ⟨hkn, hinsert⟩ := (h.insertLock k).mp hk
    have hk := hnone k hkn fun hidle => by
      rw [hidle] at hinsert
      cases hinsert
    rcases hk with ⟨key, new, hp, -⟩ | ⟨a, hwants, -⟩
    · rw [hp] at hinsert
      cases hinsert
    · cases hpk : pc k <;> rw [hpk] at hinsert hwants <;> first | (cases hinsert; done) | cases hwants
  · obtain ⟨rest, hrest⟩ := h.wants_suffix hi hwants
    exact ha (h.unlocked hblocked hrest)

end

/-- **Nobody is stuck.** -/
theorem Inv.progress (h : Inv n s.shared (pcs s)) (hi : i < n) (hunfinished : ¬(s.place i).finished) :
    ∃ j < n, Enabled prog s j := by
  have hcall : ∀ {k}, k < n → (s.place k).pc ≠ .idle → Enabled prog s k ∨ Blocked s.shared (s.place k).pc := by
    intro k hk hp
    apply (h.stmt_or_blocked hk hp).imp_left
    intro hsome
    rw [Enabled, prog_of_ne_idle hp, Option.isSome_map]
    exact hsome
  by_cases hp : (s.place i).pc = .idle
  · refine ⟨i, hi, ?_⟩
    unfold Enabled
    cases hplace : s.place i with
    | mk pc calls =>
      rw [hplace] at hp hunfinished
      cases hp
      cases calls with
      | nil => exact absurd ⟨rfl, rfl⟩ hunfinished
      | cons call calls => rfl
  · rcases hcall hi hp with henabled | hblocked
    · exact ⟨i, hi, henabled⟩
    · obtain ⟨k, hk, hpk, hnot⟩ := h.not_all_blocked hi hblocked
      exact ⟨k, hk, (hcall hk hpk).resolve_right hnot⟩

/-! ## The locks that a thread has -/

/-- The nodes that thread `i` has locked. -/
def ListT.held (L : ListT) (i : Nat) : List Nat := (List.range L.brk).filter fun a => L.lockOf a = some i

theorem Inv.held_length (h : Inv n s.shared (pcs s)) (i : Nat) :
    (s.shared.held i).length ≤ (pcs s i).holds.length :=
  ((List.nodup_range.filter _).subperm fun a ha => by
    have hlock := (List.mem_filter.mp ha).2
    exact ((h.locks i a).mp (of_decide_eq_true hlock)).2).length_le

theorem holds_length (pc : Pc) : pc.holds.length ≤ 2 := by
  cases pc
  case unlockTemp ask temp curr => cases curr <;> simp [Pc.holds]
  all_goals simp [Pc.holds]

/-- **Lookups are linearised** where they read `L->head`: each returns 0 iff its key is in the list at that moment,
and the same as the list with one lock, which always shows the same keys.  A thread holds at most two nodes, and none
outside of a call; and as long as a call is not over, some thread can take a step. -/
theorem lookups_linearised (n : Nat) (calls : Nat → List Call) (s : State ListT Place)
    (h : Reaches (step n prog) (init calls) s) :
    (∀ r ∈ s.shared.returned, (r.2 = 0 ↔ r.1.key ∈ r.1.keys) ∧ r.1.single = some r.2) ∧
    Chain s.shared.link s.shared.head s.shared.nodes ∧
    LinkedList.Shows s.shared.single (s.shared.nodes.map s.shared.keyOf) ∧
    (∀ i, (s.shared.held i).length ≤ 2 ∧ ((s.place i).pc.outside = true → s.shared.held i = [])) ∧
    ∀ i < n, ¬(s.place i).finished → ∃ j < n, Enabled prog s j := by
  have hinv := inv_of_reaches h
  refine ⟨fun r hr => ?_, hinv.chain, hinv.single, fun i => ⟨?_, fun hout => ?_⟩, fun i hi => hinv.progress hi⟩
  · obtain ⟨hagrees, hrv⟩ := hinv.returned r hr
    refine ⟨?_, by rw [hagrees, hrv]⟩
    rw [hrv]
    split <;> simp_all
  · exact (hinv.held_length i).trans (holds_length _)
  · have hlength := hinv.held_length i
    have hnone : (pcs s i).holds = [] := by
      unfold pcs
      cases hp : (s.place i).pc <;> rw [hp] at hout <;> first | rfl | cases hout
    rw [hnone] at hlength
    exact List.eq_nil_of_length_eq_zero (Nat.le_zero.mp hlength)

/-- A lookup that has begun before the insert of its key does not find it, and the next one does. -/
theorem lookup_during_insert :
    ∃ s, run (step 2 prog) (init fun i => if i = 0 then [.insert 5, .insert 7] else [.lookup 7, .lookup 7])
        (List.replicate 7 0 ++ List.replicate 3 1 ++ List.replicate 7 0 ++ List.replicate 10 1) = some s ∧
      s.shared.returned.map (fun r => (r.1.keys, r.2)) = [([5], -1), ([7, 5], 0)] ∧
      ∀ r ∈ s.shared.returned, (r.2 = 0 ↔ r.1.key ∈ r.1.keys) ∧ r.1.single = some r.2 :=
  ⟨_, rfl, rfl, (lookups_linearised 2 (fun i => if i = 0 then [.insert 5, .insert 7] else [.lookup 7, .lookup 7]) _
    ⟨List.replicate 7 0 ++ List.replicate 3 1 ++ List.replicate 7 0 ++ List.replicate 10 1, rfl⟩).1⟩

end OstepHw.HandOverHand
