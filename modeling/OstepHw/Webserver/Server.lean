import OstepHw.Lib.Count
import OstepHw.Lib.Machine
import OstepHw.Webserver.Request

/-!
# `wserver.c`: the master, the workers and their buffer

Model of `workerThread` and of the loop of `main` in `concurrency-webserver/wserver.c`.  A step is one
operation on a semaphore, the body of a critical section, or one access to the slot outside of it.

The slots are not initialised.  A string that does not fit its field of `Buffer_t` is written past its
end, and nothing is known of the slots after that.  A call may never return: `pre_handle_request` when
the lines of the client do not end its headers (`comes_back_iff`), the call that serves a request when
the client does not read or the program runs for ever.

* `step` — the system, with `accept`, `preHandle` and the calls that hang as what comes from outside;
* `Good` — what is asked of a state: served requests, each once and with its own data, the others still
  in their slots, and all of them served once the system comes to rest;
* `State.Returned` — no call has hung.
-/

set_option autoImplicit false

namespace OstepHw.Webserver

open Machine

inductive Schedalg
  | FIFO
  | SFF
  deriving DecidableEq

/-- The options `-b`, `-t` and `-s`. -/
structure Config where
  buffers : Nat
  threads : Nat
  schedalg : Schedalg

/-- The call that serves a request. -/
inductive Call
  | requestServeStatic (fd : Int) (filename : List UInt8) (filesize : Int)
  | requestServeDynamic (fd : Int) (filename cgiargs : List UInt8)
  deriving DecidableEq

/-- The slot that a worker has picked, and the request that it held then. -/
structure Job where
  slot : Nat
  request : Option Nat
  deriving DecidableEq

/-- A request that was served: the call, and the descriptor that was closed. -/
structure Served where
  request : Option Nat
  call : Call
  closed : Int
  deriving DecidableEq

/-! ## Places in the programs -/

inductive Master
  | waitEmpty
  | accept
  | waitMutex (conn : Conn)
  | preHandle (conn : Conn)
  /-- After `pre_handle_request`, and whether its result was `OK`. -/
  | postMutex (ok : Bool)
  | postFull
  | postEmpty
  /-- In a call of `pre_handle_request` that never returns. -/
  | stuck
  deriving DecidableEq

/-- The slot is read four times outside the critical section. -/
inductive Worker
  | waitFull
  | waitMutex
  | pick
  | postMutex (job : Job)
  | readStatic (job : Job)
  | readArgs (job : Job) (isStatic : Bool)
  | readPath (job : Job) (isStatic : Bool) (fd : Int) (size : Nat)
  | close (job : Job) (call : Call)
  | postEmpty
  /-- In a call that never returns. -/
  | stuck
  deriving DecidableEq

structure State where
  full : Nat
  empty : Nat
  mutex : Nat
  use : Nat
  fill : Nat
  slots : Nat → BufferT
  master : Master
  workers : Nat → Worker
  /-- The request that was last stored in each slot. -/
  holds : Nat → Option Nat
  /-- All requests for which `pre_handle_request` returned `OK`. -/
  stored : List BufferT
  served : List Served

def init (c : Config) (slots : Nat → BufferT) : State where
  full := 0
  empty := c.buffers
  mutex := 1
  use := 0
  fill := 0
  slots := slots
  master := .waitEmpty
  workers := fun _ => .waitFull
  holds := fun _ => none
  stored := []
  served := []

/-! ## Steps of the master -/

/-- Both strings fit their fields of `Buffer_t`. -/
def BufferT.StringsFit (r : BufferT) : Prop :=
  r.pathname.length < SMALL_BUF ∧ r.cgiargs.length < SMALL_BUF

instance (r : BufferT) : Decidable r.StringsFit := inferInstanceAs (Decidable (_ ∧ _))

/-- `pre_handle_request` has stored `r` in `buffer[fill]`, and `fill` moves on. -/
def store (c : Config) (s : State) (r : BufferT) (junk : Nat → BufferT) : State :=
  { s with
    slots := if r.StringsFit then Function.update s.slots s.fill r else junk
    holds := Function.update s.holds s.fill (some s.stored.length)
    stored := s.stored ++ [r]
    fill := (s.fill + 1) % c.buffers
    master := .postMutex true }

def masterStep (s : State) : Option State :=
  match s.master with
  | .waitEmpty => if 0 < s.empty then some { s with empty := s.empty - 1, master := .accept } else none
  | .waitMutex conn =>
    if 0 < s.mutex then some { s with mutex := s.mutex - 1, master := .preHandle conn } else none
  | .postMutex ok => some { s with mutex := s.mutex + 1, master := if ok then .postFull else .postEmpty }
  | .postFull => some { s with full := s.full + 1, master := .waitEmpty }
  | .postEmpty => some { s with empty := s.empty + 1, master := .waitEmpty }
  | _ => none

/-! ## Steps of a worker -/

def LLONG_MAX : Nat := 2 ^ 63 - 1

/-- `!reqBuf[i].handling && reqBuf[i].fd` -/
def BufferT.waiting (r : BufferT) : Bool := !r.handling && r.fd ≠ 0

/-- The loop over the slots for `SFF`; the pair is `min_size` and `useCopy`. -/
def pickSFF (slots : Nat → BufferT) (use buffers : Nat) : Nat × Nat :=
  (List.range buffers).foldl
    (fun p i => if (slots i).waiting ∧ (slots i).size < p.1 then ((slots i).size, i) else p)
    (LLONG_MAX, use)

/-- What the critical section of a worker leaves: the slot to serve, and the shared data. -/
structure Picked where
  useCopy : Nat
  use : Nat
  slots : Nat → BufferT

def pick (c : Config) (s : State) : Picked :=
  match c.schedalg with
  | .SFF =>
    let useCopy := (pickSFF s.slots s.use c.buffers).2
    { useCopy := useCopy
      use := s.use
      slots := Function.update s.slots useCopy { s.slots useCopy with handling := true } }
  | .FIFO => { useCopy := s.use, use := (s.use + 1) % c.buffers, slots := s.slots }

/-- `int filesize` of a call with an `off_t`. -/
def toInt (size : Nat) : Int := (size : Int).bmod (2 ^ 32)

def workerStep (c : Config) (s : State) (i : Nat) : Option State :=
  let go (s : State) (w : Worker) : Option State := some { s with workers := Function.update s.workers i w }
  match s.workers i with
  | .waitFull => if 0 < s.full then go { s with full := s.full - 1 } .waitMutex else none
  | .waitMutex => if 0 < s.mutex then go { s with mutex := s.mutex - 1 } .pick else none
  | .pick =>
    let p := pick c s
    go { s with use := p.use, slots := p.slots } (.postMutex ⟨p.useCopy, s.holds p.useCopy⟩)
  | .postMutex job => go { s with mutex := s.mutex + 1 } (.readStatic job)
  | .readStatic job => go s (.readArgs job (s.slots job.slot).isStatic)
  | .readArgs job isStatic =>
    go s (.readPath job isStatic (s.slots job.slot).fd (s.slots job.slot).size)
  | .readPath job isStatic fd size =>
    go s (.close job
      (if isStatic then .requestServeStatic fd (s.slots job.slot).pathname (toInt size)
      else .requestServeDynamic fd (s.slots job.slot).pathname (s.slots job.slot).cgiargs))
  | .close job call =>
    go { s with served := s.served ++ [⟨job.request, call, (s.slots job.slot).fd⟩] } .postEmpty
  | .postEmpty => go { s with empty := s.empty + 1 } .waitFull
  | .stuck => none

/-! ## The system -/

inductive Action
  | master
  /-- `accept` returns: a connection, or `-1`. -/
  | accept (conn : Option Conn)
  /-- `pre_handle_request` runs, with what the file system answers and what an overflow leaves. -/
  | preHandle (stat : List UInt8 → Option Stat) (junk : Nat → BufferT)
  /-- `pre_handle_request` does not return. -/
  | masterHangs
  | worker (i : Nat)
  /-- The call that worker `i` serves a request with does not return. -/
  | workerHangs (i : Nat)

def step (c : Config) (s : State) : Action → Option State
  | .master => masterStep s
  | .accept conn =>
    match s.master, conn with
    | .accept, none => some { s with master := .postEmpty }
    | .accept, some conn => some { s with master := .waitMutex conn }
    | _, _ => none
  | .preHandle stat junk =>
    match s.master with
    | .preHandle conn =>
      match preHandleRequest stat conn with
      | .ok r => some (store c s r junk)
      | .error _ => some { s with master := .postMutex false }
    | _ => none
  | .masterHangs =>
    match s.master with
    | .preHandle _ => some { s with master := .stuck }
    | _ => none
  | .worker i => if i < c.threads then workerStep c s i else none
  | .workerHangs i =>
    if i < c.threads then
      match s.workers i with
      | .close _ _ => some { s with workers := Function.update s.workers i .stuck }
      | _ => none
    else none

/-! ## What is asked -/

/-- The call for a request, with the data that it was stored with. -/
def BufferT.call (r : BufferT) : Call :=
  if r.isStatic then .requestServeStatic r.fd r.pathname r.size
  else .requestServeDynamic r.fd r.pathname r.cgiargs

/-- Steps that need no new connection. -/
def Action.internal : Action → Bool
  | .accept _ => false
  | _ => true

/-- The system is at rest until the next connection. -/
def Quiet (c : Config) (s : State) : Prop := ∀ a : Action, a.internal → step c s a = none

structure Good (c : Config) (s : State) : Prop where
  /-- Whatever is served is a stored request, with its own data. -/
  right : ∀ e ∈ s.served, ∃ k r, e.request = some k ∧ s.stored[k]? = some r ∧ e.call = r.call ∧
    e.closed = r.fd
  /-- No request is served twice. -/
  once : (s.served.map Served.request).Nodup
  /-- A request stays in its slot until it was served. -/
  kept : ∀ k < s.stored.length, some k ∉ s.served.map Served.request →
    ∃ i < c.buffers, s.holds i = some k
  /-- Without new connections the system comes to rest. -/
  rests : ∃ bound, ∀ l s', (∀ a ∈ l, Action.internal a) → run (step c) s l = some s' → l.length ≤ bound
  /-- Then all requests were served. -/
  all : Quiet c s → ∀ k < s.stored.length, some k ∈ s.served.map Served.request

/-- The data of a request fits what the code keeps it in. -/
def BufferT.Fits (r : BufferT) : Prop := r.StringsFit ∧ r.size < 2 ^ 31

/-- No call has hung. -/
structure State.Returned (c : Config) (s : State) : Prop where
  master : s.master ≠ .stuck
  workers : ∀ i < c.threads, s.workers i ≠ .stuck

end OstepHw.Webserver
