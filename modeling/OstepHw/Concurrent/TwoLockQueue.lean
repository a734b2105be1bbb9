import Mathlib.Data.List.Basic
import OstepHw.Lib.Chain

/-!
# The queue with two locks

Model of `Queue_Init`, `Queue_Enqueue` and `Queue_Dequeue` of `concurrent_queue.c`, called one after the other.  The
heap holds the nodes that are allocated, and `malloc` returns the next address that was never used.  A function has
no result where the code dereferences NULL or a node that is not allocated, and where it waits for a lock that is
never released.

* `Shape` — a dummy node at the head, the last node at the tail, and the nodes of the values in between;
* `enqueue_spec`, `dequeue_nil`, `dequeue_single`, `dequeue_two` — what the two operations do to it: a dequeue goes
  one node too far;
* `fifo_iff` — a sequence of calls is served as by a FIFO queue iff no dequeue comes after an enqueue.
-/

set_option autoImplicit false

namespace OstepHw.TwoLockQueue

structure Node where
  next : Option Nat
  value : Int

abbrev Heap := Nat → Option Node

structure Queue where
  heap : Heap
  /-- What `malloc` returns next. -/
  brk : Nat
  head : Option Nat
  tail : Option Nat
  headLock : Bool
  tailLock : Bool

/-- Nobody else is there to release a lock that is held. -/
def pthreadMutexLock (held : Bool) : Option Bool := if held then none else some true

/-- The value of the first node is what `malloc` has left there. -/
def queueInit (garbage : Int) : Queue :=
  { heap := Function.update (fun _ => none) 0 (some ⟨none, garbage⟩)
    brk := 1
    head := some 0
    tail := some 0
    headLock := false
    tailLock := false }

def queueEnqueue (q : Queue) (value : Int) : Option Queue := do
  let tmp := q.brk
  let heap := Function.update q.heap tmp (some ⟨none, value⟩)
  let _ ← pthreadMutexLock q.tailLock
  let tail ← q.tail
  let last ← heap tail
  return { q with
    heap := Function.update heap tail (some { last with next := some tmp })
    brk := q.brk + 1
    tail := some tmp
    tailLock := false }

/-- The return value and the queue. -/
def queueDequeue (q : Queue) : Option (Int × Queue) := do
  let _ ← pthreadMutexLock q.headLock
  let tmp ← q.head
  let first ← q.heap tmp
  match first.next with
  | none => return (-1, { q with headLock := false })
  | some newHead =>
    let second ← q.heap newHead
    return (0, { q with
      heap := Function.update q.heap tmp none
      head := second.next
      headLock := false })

inductive Call
  | enqueue (value : Int)
  | dequeue
  deriving DecidableEq

/-- The queue with what was asked of it. -/
structure World where
  queue : Queue
  enqueued : List Int
  /-- How many calls of `Queue_Dequeue` have returned 0. -/
  dequeued : Nat

def init (garbage : Int) : World := ⟨queueInit garbage, [], 0⟩

def step (w : World) : Call → Option World
  | .enqueue value => (queueEnqueue w.queue value).map fun q => ⟨q, w.enqueued ++ [value], w.dequeued⟩
  | .dequeue => (queueDequeue w.queue).map fun r => ⟨r.2, w.enqueued, if r.1 = 0 then w.dequeued + 1 else w.dequeued⟩

/-! ## What a FIFO queue does -/

def link (heap : Heap) (a : Nat) : Option (Option Nat) := (heap a).map Node.next

def valueAt (heap : Heap) (a : Nat) : Option Int := (heap a).map Node.value

/-- There is a first node, the tail is the last one, and the values are those of the nodes after the first. -/
def Holds (q : Queue) (values : List Int) : Prop :=
  ∃ dummy nodes, Chain (link q.heap) q.head (dummy :: nodes) ∧ q.tail = (dummy :: nodes).getLast? ∧
    nodes.map (valueAt q.heap) = values.map some

/-- A dequeue succeeds iff a value is left, and fails without an effect. -/
def Answers (w : World) : Call → Prop
  | .enqueue _ => True
  | .dequeue => ∃ r q, queueDequeue w.queue = some (r, q) ∧ (r = 0 ↔ w.dequeued < w.enqueued.length) ∧
      (r ≠ 0 → r = -1 ∧ q = w.queue)

/-- All calls return, are answered, and leave the oldest values out. -/
def Fifo (w : World) : List Call → Prop
  | [] => Holds w.queue (w.enqueued.drop w.dequeued)
  | call :: calls =>
    Holds w.queue (w.enqueued.drop w.dequeued) ∧ Answers w call ∧ ∃ w', step w call = some w' ∧ Fifo w' calls

/-! ## The shape of the queue -/

structure Shape (q : Queue) (dummy : Nat) (nodes : List Nat) : Prop where
  chain : Chain (link q.heap) q.head (dummy :: nodes)
  tail : q.tail = (dummy :: nodes).getLast?
  fresh : ∀ a, q.brk ≤ a → q.heap a = none
  headLock : q.headLock = false
  tailLock : q.tailLock = false

variable {q : Queue} {dummy : Nat} {nodes : List Nat} {values : List Int} {value : Int} {w : World} {calls : List Call}

theorem shape_init (garbage : Int) : Shape (queueInit garbage) 0 [] where
  chain := ⟨rfl, none, rfl, rfl⟩
  tail := rfl
  fresh a ha := by
    have hne : a ≠ 0 := by
      rintro rfl
      cases ha
    show Function.update (fun _ => none) 0 _ a = none
    exact Function.update_of_ne hne ..
  headLock := rfl
  tailLock := rfl

theorem Shape.lt_brk (h : Shape q dummy nodes) {a : Nat} (ha : a ∈ dummy :: nodes) : a < q.brk := by
  by_contra hle
  have hnone := h.chain.link_ne_none ha
  rw [link, h.fresh a (Nat.le_of_not_lt hle)] at hnone
  exact hnone rfl

theorem Holds.unique {values' : List Int} (h : Holds q values) (h' : Holds q values') : values = values' := by
  obtain ⟨d, l, hchain, -, hvalues⟩ := h
  obtain ⟨d', l', hchain', -, hvalues'⟩ := h'
  cases hchain.unique hchain'
  rw [hvalues] at hvalues'
  exact List.map_injective_iff.mpr (fun _ _ => Option.some.inj) hvalues'

theorem Shape.holds (h : Shape q dummy nodes) (hvalues : nodes.map (valueAt q.heap) = values.map some) :
    Holds q values := ⟨dummy, nodes, h.chain, h.tail, hvalues⟩

/-! ## Enqueue -/

section
variable {heap : Heap} {a b : Nat} {node : Node} {p : Option Nat}

theorem link_update (hnode : heap a = some node) :
    link (Function.update heap a (some { node with next := p })) = Function.update (link heap) a (some p) := by
  funext b
  rcases eq_or_ne b a with rfl | hba
  · simp [link]
  · simp [link, hba]

theorem valueAt_update (hnode : heap a = some node) (b : Nat) :
    valueAt (Function.update heap a (some { node with next := p })) b = valueAt heap b := by
  rcases eq_or_ne b a with rfl | hba
  · simp [valueAt, hnode]
  · simp [valueAt, hba]

end

/-- A new node comes behind the last one. -/
theorem enqueue_spec (h : Shape q dummy nodes) (hvalues : nodes.map (valueAt q.heap) = values.map some)
    (value : Int) :
    ∃ q', queueEnqueue q value = some q' ∧ Shape q' dummy (nodes ++ [q.brk]) ∧
      (nodes ++ [q.brk]).map (valueAt q'.heap) = (values ++ [value]).map some := by
  obtain ⟨before, last, hlast⟩ := (List.eq_nil_or_concat' (dummy :: nodes)).resolve_left fun hnil => by cases hnil
  obtain ⟨heap, hheap⟩ : ∃ heap, heap = Function.update q.heap q.brk (some ⟨none, value⟩) := ⟨_, rfl⟩
  have hbrk : q.brk ∉ before ++ [last] := fun hmem => Nat.lt_irrefl _ (h.lt_brk (hlast ▸ hmem))
  have hold : ∀ a ∈ before ++ [last], heap a = q.heap a := fun a ha => by
    rw [hheap]
    exact Function.update_of_ne (fun hab : a = q.brk => hbrk (hab ▸ ha)) ..
  have hchain : Chain (link heap) q.head (before ++ [last]) := by
    have hchainOld := h.chain
    rw [hlast] at hchainOld
    have hlinks : ∀ a ∈ before ++ [last], link heap a = link q.heap a := fun a ha => by
      rw [link, link, hold a ha]
    exact hchainOld.congr hlinks
  obtain ⟨node, hnode⟩ : ∃ node, heap last = some node := by
    have hsome := hchain.link_ne_none (List.mem_append_right _ (List.mem_singleton_self last))
    cases hheapLast : heap last with
    | none => exact absurd (by rw [link, hheapLast]; rfl) hsome
    | some node => exact ⟨node, rfl⟩
  have htail : q.tail = some last := by
    rw [h.tail, hlast, List.getLast?_concat]
  have hlinkNew : link heap q.brk = some none := by
    rw [link, hheap, Function.update_self]
    rfl
  refine ⟨{ q with
      heap := Function.update heap last (some { node with next := some q.brk })
      brk := q.brk + 1
      tail := some q.brk }, ?_, ?_, ?_⟩
  · simp [queueEnqueue, pthreadMutexLock, h.tailLock, htail, ← hheap, hnode]
  · refine ⟨?_, ?_, fun a ha => ?_, h.headLock, h.tailLock⟩
    · have happend := hchain.append_cell hlinkNew hbrk
      rw [← link_update hnode] at happend
      rwa [show dummy :: (nodes ++ [q.brk]) = before ++ [last, q.brk] by
        rw [← List.cons_append, hlast, List.append_assoc]
        rfl]
    · rw [← List.cons_append, List.getLast?_concat]
    · have hle : q.brk + 1 ≤ a := ha
      have hne : a ≠ last := by
        rintro rfl
        have := h.lt_brk (a := a) (by rw [hlast]; simp)
        omega
      show Function.update heap last _ a = none
      rw [Function.update_of_ne hne, hheap, Function.update_of_ne (by omega)]
      exact h.fresh a (by omega)
  · rw [List.map_append, List.map_append, ← hvalues]
    congr 1
    · apply List.map_congr_left
      intro a ha
      rw [valueAt_update hnode, valueAt, hold a (by rw [← hlast]; exact List.mem_cons_of_mem _ ha), valueAt]
    · rw [List.map_singleton, List.map_singleton, valueAt_update hnode, valueAt, hheap, Function.update_self]
      rfl

/-! ## Dequeue -/

/-- There is only the dummy node. -/
theorem dequeue_nil (h : Shape q dummy []) : queueDequeue q = some (-1, q) := by
  obtain ⟨hhead, p, hlink, hnone⟩ := h.chain
  obtain rfl : p = none := hnone
  obtain ⟨node, hnode, hnext⟩ := Option.map_eq_some_iff.mp hlink
  have hlock := h.headLock
  cases q
  dsimp only at *
  simp [queueDequeue, pthreadMutexLock, hlock, hhead, hnode, hnext]

/-- The dummy node is freed, and the head goes on by two nodes. -/
theorem dequeue_cons {a : Nat} {p : Option Nat} (h : Shape q dummy (a :: nodes)) (hlink : link q.heap a = some p) :
    queueDequeue q = some (0, { q with heap := Function.update q.heap dummy none, head := p }) := by
  obtain ⟨hhead, r, hlinkDummy, hrest⟩ := h.chain
  obtain ⟨rfl, -⟩ := hrest
  obtain ⟨node, hnode, hnext⟩ := Option.map_eq_some_iff.mp hlinkDummy
  obtain ⟨node', hnode', rfl⟩ := Option.map_eq_some_iff.mp hlink
  simp [queueDequeue, pthreadMutexLock, h.headLock, hhead, hnode, hnext, hnode']

/-- With one value there is no node left. -/
theorem dequeue_single {a : Nat} (h : Shape q dummy [a]) : ∃ q', queueDequeue q = some (0, q') ∧ q'.head = none := by
  obtain ⟨p, hlink, hnone⟩ := h.chain.suffix (l := [dummy])
  obtain rfl : p = none := hnone
  exact ⟨_, dequeue_cons h hlink, rfl⟩

/-- With two values or more, two are lost. -/
theorem dequeue_two {a b : Nat} (h : Shape q dummy (a :: b :: nodes)) :
    ∃ q', queueDequeue q = some (0, q') ∧ Shape q' b nodes ∧
      nodes.map (valueAt q'.heap) = nodes.map (valueAt q.heap) := by
  obtain ⟨p, hlink, hrest⟩ := h.chain.suffix (l := [dummy])
  obtain ⟨rfl, -⟩ := id hrest
  have hdummy : dummy ∉ a :: b :: nodes := (List.nodup_cons.mp h.chain.nodup).1
  have hold : ∀ c ∈ b :: nodes, Function.update q.heap dummy none c = q.heap c := fun c hc =>
    Function.update_of_ne (fun hcd : c = dummy => hdummy (hcd ▸ List.mem_cons_of_mem _ hc)) ..
  have hlinks : ∀ c ∈ b :: nodes, link (Function.update q.heap dummy none) c = link q.heap c := fun c hc => by
    rw [link, link, hold c hc]
  refine ⟨_, dequeue_cons h hlink, ⟨hrest.congr hlinks, ?_, fun c hc => ?_, h.headLock, h.tailLock⟩, ?_⟩
  · rw [h.tail, List.getLast?_cons_cons, List.getLast?_cons_cons]
  · show Function.update q.heap dummy none c = none
    rcases eq_or_ne c dummy with rfl | hne
    · exact Function.update_self ..
    · rw [Function.update_of_ne hne, h.fresh c hc]
  · apply List.map_congr_left
    intro c hc
    show (Function.update q.heap dummy none c).map Node.value = _
    rw [hold c (List.mem_cons_of_mem _ hc), valueAt]

/-! ## Sequences of calls -/

/-- No dequeue comes after an enqueue. -/
def DequeuesFirst (calls : List Call) : Prop := calls.Pairwise fun a b => a ≠ .dequeue → b ≠ .dequeue

theorem Fifo.holds (h : Fifo w calls) : Holds w.queue (w.enqueued.drop w.dequeued) := by
  cases calls with
  | nil => exact h
  | cons call calls => exact h.1

/-- A dequeue leaves no first node, or one value too few. -/
theorem not_fifo_dequeue (h : Shape w.queue dummy nodes)
    (hvalues : nodes.map (valueAt w.queue.heap) = w.enqueued.map some) (hdequeued : w.dequeued = 0)
    (hne : w.enqueued ≠ []) : ¬Fifo w (.dequeue :: calls) := by
  rintro ⟨-, -, w', hstep, hrest⟩
  obtain ⟨⟨r, q'⟩, hdequeue, rfl⟩ := Option.map_eq_some_iff.mp hstep
  have hholds := hrest.holds
  dsimp only at hholds
  match nodes, hvalues with
  | [], hvalues => exact hne (List.map_eq_nil_iff.mp hvalues.symm)
  | [a], _ =>
    obtain ⟨q, hq, hhead⟩ := dequeue_single h
    rw [hq] at hdequeue
    cases hdequeue
    obtain ⟨d, l, ⟨hsome, -⟩, -⟩ := hholds
    rw [hhead] at hsome
    cases hsome
  | a :: b :: nodes, hvalues =>
    obtain ⟨q, hq, hshape, hsame⟩ := dequeue_two h
    rw [hq] at hdequeue
    cases hdequeue
    obtain ⟨x, y, values, hxy⟩ : ∃ x y values, w.enqueued = x :: y :: values := by
      have hlength := congrArg List.length hvalues
      match henq : w.enqueued with
      | [] => simp [henq] at hlength
      | [x] => simp [henq] at hlength
      | x :: y :: values => exact ⟨x, y, values, rfl⟩
    rw [hxy] at hvalues hholds
    have hrest : Holds q' values := hshape.holds (by
      rw [hsame]
      exact (List.cons.inj (List.cons.inj hvalues).2).2)
    rw [hdequeued, if_pos rfl] at hholds
    have hlength := congrArg List.length (hholds.unique hrest)
    simp at hlength

theorem fifo_iff_of_shape (h : Shape w.queue dummy nodes)
    (hvalues : nodes.map (valueAt w.queue.heap) = w.enqueued.map some) (hdequeued : w.dequeued = 0) :
    Fifo w calls ↔ DequeuesFirst calls ∧ (w.enqueued ≠ [] → .dequeue ∉ calls) := by
  have hholds : Holds w.queue (w.enqueued.drop w.dequeued) := by
    rw [hdequeued]
    exact h.holds hvalues
  induction calls generalizing w nodes with
  | nil => exact iff_of_true hholds ⟨List.Pairwise.nil, fun _ => List.not_mem_nil⟩
  | cons call calls ih =>
    cases call with
    | enqueue value =>
      obtain ⟨q', hq, hshape, hvalues'⟩ := enqueue_spec h hvalues value
      have hstep : step w (.enqueue value) = some ⟨q', w.enqueued ++ [value], w.dequeued⟩ := by
        rw [step, hq]
        rfl
      have hrest := ih (w := ⟨q', w.enqueued ++ [value], w.dequeued⟩) hshape hvalues' hdequeued (by
        dsimp only
        rw [hdequeued]
        exact hshape.holds hvalues')
      simp only [Fifo, hholds, Answers, hstep, Option.some.injEq, exists_eq_left', true_and, hrest]
      rw [DequeuesFirst, DequeuesFirst, List.pairwise_cons]
      constructor
      · rintro ⟨hfirst, hnone⟩
        have hnot := hnone (by simp)
        exact ⟨⟨fun c hc _ hcd => hnot (hcd ▸ hc), hfirst⟩, fun _ hmem => by
          rcases List.mem_cons.mp hmem with heq | hmem
          · cases heq
          · exact hnot hmem⟩
      · rintro ⟨⟨hall, hfirst⟩, -⟩
        exact ⟨hfirst, fun _ hmem => hall .dequeue hmem (fun heq => by cases heq) rfl⟩
    | dequeue =>
      by_cases hnil : w.enqueued = []
      · have hnodes : nodes = [] := by
          rw [hnil] at hvalues
          exact List.map_eq_nil_iff.mp hvalues
        have hq : queueDequeue w.queue = some (-1, w.queue) := dequeue_nil (hnodes ▸ h)
        have hstep : step w .dequeue = some w := by
          rw [step, hq]
          rfl
        have hanswers : Answers w .dequeue := ⟨-1, w.queue, hq, by simp [hnil], fun _ => ⟨rfl, rfl⟩⟩
        simp only [Fifo, hholds, hanswers, hstep, Option.some.injEq, exists_eq_left', true_and,
          ih h hvalues hdequeued hholds]
        simp [DequeuesFirst, hnil]
      · refine iff_of_false (not_fifo_dequeue h hvalues hdequeued hnil) fun hright => ?_
        exact hright.2 hnil List.mem_cons_self

/-- **The queue is FIFO iff no dequeue comes after an enqueue**, from `Queue_Init` on. -/
theorem fifo_iff (garbage : Int) (calls : List Call) : Fifo (init garbage) calls ↔ DequeuesFirst calls := by
  rw [fifo_iff_of_shape (shape_init garbage) rfl rfl]
  exact and_iff_left fun hne => absurd rfl hne

/-- One value goes in, and a dequeue takes the head away with it: the next dequeue dereferences NULL. -/
theorem enqueue_dequeue_not_fifo :
    ¬Fifo (init 0) [.enqueue 7, .dequeue, .dequeue] ∧
      ((step (init 0) (.enqueue 7)).bind fun w => (step w .dequeue).map fun w => w.queue.head) = some none ∧
      ((step (init 0) (.enqueue 7)).bind fun w => (step w .dequeue).bind fun w => queueDequeue w.queue) = none := by
  refine ⟨fun h => ?_, rfl, rfl⟩
  obtain ⟨-, -, w₁, hw₁, -, -, w₂, hw₂, hrest⟩ := h
  cases hw₁
  cases hw₂
  obtain ⟨d, l, ⟨hsome, -⟩, -⟩ := hrest.1
  cases hsome

end OstepHw.TwoLockQueue
