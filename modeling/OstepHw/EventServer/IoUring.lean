import OstepHw.Lib.Count
import OstepHw.Lib.Machine
import OstepHw.Lib.Ownership

/-!
# The `io_uring` server

Model of `server_io_uring.c`.  A step completes one of the submitted operations, any of them, or is one turn of the loop
of `main`.  `io_uring_get_sqe` and `io_uring_submit` succeed; an operation that fails and an `open` that fails end the
program.

* `step` — the ring and the loop;
* `Stage`, `Inv` — how far the connection of each slot has come, and what the state is then;
* `protocol` — **every slot has its four operations**, one at a time, and the loop ends when all are served.
-/

set_option autoImplicit false

namespace OstepHw.IoUring

open OstepHw.Count Machine Ownership

def BUFSIZ : Nat := 8192

inductive Opcode
  | NOP
  | ACCEPT
  | RECV
  | READ
  | SEND
  deriving DecidableEq, Repr

structure UserData where
  buf : List UInt8
  socketFd : Int
  fileFd : Int
  index : Nat
  ioOp : Opcode

/-- An operation: `user_data` is the slot of `data_arr` that it points to. -/
structure Sqe where
  opcode : Opcode
  fd : Int
  userData : Nat
  deriving DecidableEq, Repr

/-- A completion: of the operation, `main` sees `user_data` only. -/
structure Cqe where
  sqe : Sqe
  res : Int

structure State where
  dataArr : Nat → UserData
  numAccepts : Nat
  numReqs : Nat
  /-- The operations that are submitted and not completed. -/
  inFlight : List Sqe
  /-- The completions that `main` has not seen. -/
  cq : List Cqe
  /-- The sockets and files that are open, besides the listening socket. -/
  fds : List Int
  exited : Bool
  /-- All operations of each slot. -/
  submitted : Nat → List Sqe
  /-- The socket that was accepted for each slot. -/
  accepted : Nat → Option Int
  /-- The completions of `SEND` that `main` has seen. -/
  sends : Nat

/-! ## The program -/

def State.submit (s : State) (sqe : Sqe) : State :=
  { s with
    inFlight := s.inFlight ++ [sqe]
    submitted := Function.update s.submitted sqe.userData (s.submitted sqe.userData ++ [sqe]) }

def State.setData (s : State) (index : Nat) (data : UserData) : State :=
  { s with dataArr := Function.update s.dataArr index data }

def State.exit (s : State) : State := { s with exited := true }

def State.close (s : State) (fd : Int) : State := { s with fds := s.fds.erase fd }

def prepAccept (sfd : Int) (s : State) : State :=
  let numAccepts := s.numAccepts - 1
  let s := { s with numAccepts := numAccepts }
  (s.setData numAccepts { s.dataArr numAccepts with ioOp := .ACCEPT, index := numAccepts }).submit
    ⟨.ACCEPT, sfd, numAccepts⟩

def prepRecv (sfd : Int) (s : State) (cfd : Int) (index : Nat) : State :=
  let s := (s.setData index
    { s.dataArr index with ioOp := .RECV, socketFd := cfd, buf := List.replicate BUFSIZ 0 }).submit
    ⟨.RECV, cfd, index⟩
  if s.numAccepts > 0 then prepAccept sfd s else s

/-- `file_fd` is what `open` returns. -/
def prepRead (s : State) (index : Nat) (fileFd : Int) : State :=
  if fileFd = -1 then s.exit
  else
    let s := { s with fds := fileFd :: s.fds }
    (s.setData index { s.dataArr index with ioOp := .READ, fileFd := fileFd }).submit ⟨.READ, fileFd, index⟩

def prepSend (s : State) (index : Nat) : State :=
  let s := s.close (s.dataArr index).fileFd
  (s.setData index { s.dataArr index with ioOp := .SEND }).submit ⟨.SEND, (s.dataArr index).socketFd, index⟩

/-- The loop body up to `io_uring_cqe_seen`. -/
def dispatch (sfd : Int) (s : State) (cqe : Cqe) (fileFd : Int) : State :=
  if cqe.res < 0 then s.exit
  else
    let data := s.dataArr cqe.sqe.userData
    match data.ioOp with
    | .ACCEPT => prepRecv sfd s cqe.res data.index
    | .RECV => prepRead s data.index fileFd
    | .READ => prepSend s data.index
    | .SEND =>
      let s := s.close (s.dataArr data.index).socketFd
      { s with numReqs := s.numReqs - 1 }
    | .NOP => s.exit

def State.cqeSeen (s : State) (cqe : Cqe) : State :=
  { s with cq := s.cq.tail, sends := if cqe.sqe.opcode = .SEND then s.sends + 1 else s.sends }

/-- `main` before the loop. -/
def start (sfd : Int) (numReqs : Nat) : State :=
  prepAccept sfd
    { dataArr := fun _ => ⟨List.replicate BUFSIZ 0, 0, 0, 0, .NOP⟩
      numAccepts := numReqs
      numReqs := numReqs
      inFlight := []
      cq := []
      fds := []
      exited := false
      submitted := fun _ => []
      accepted := fun _ => none
      sends := 0 }

/-! ## The system -/

/-- What the ring may return: a new socket, or that many bytes in the buffer. -/
def Possible (fds : List Int) (opcode : Opcode) (res : Int) (bytes : List UInt8) : Prop :=
  (opcode = .ACCEPT → 0 ≤ res → res ∉ fds) ∧
    bytes.length = (if opcode = .RECV ∨ opcode = .READ then res.toNat else 0) ∧ bytes.length ≤ BUFSIZ

instance (fds : List Int) (opcode : Opcode) (res : Int) (bytes : List UInt8) :
    Decidable (Possible fds opcode res bytes) := inferInstanceAs (Decidable (_ ∧ _ ∧ _))

/-- An operation is completed: `bytes` are at the front of the buffer then. -/
def State.complete (s : State) (sqe : Sqe) (res : Int) (bytes : List UInt8) : State :=
  let data := s.dataArr sqe.userData
  let s := (s.setData sqe.userData { data with buf := bytes ++ data.buf.drop bytes.length })
  let s := { s with inFlight := s.inFlight.erase sqe, cq := s.cq ++ [⟨sqe, res⟩] }
  if sqe.opcode = .ACCEPT ∧ 0 ≤ res then
    { s with fds := res :: s.fds, accepted := Function.update s.accepted sqe.userData (some res) }
  else s

inductive Action
  | complete (sqe : Sqe) (res : Int) (bytes : List UInt8)
  /-- One turn of the loop: `file_fd` is what a call of `open` returns. -/
  | turn (fileFd : Int)

def step (sfd : Int) (s : State) : Action → Option State
  | .complete sqe res bytes =>
    if sqe ∈ s.inFlight ∧ Possible s.fds sqe.opcode res bytes then some (s.complete sqe res bytes) else none
  | .turn fileFd =>
    if s.exited = false ∧ s.numReqs > 0 ∧ (fileFd = -1 ∨ 0 ≤ fileFd ∧ fileFd ∉ s.fds) then
      match s.cq with
      | [] => none
      | cqe :: _ =>
        let s := dispatch sfd s cqe fileFd
        some (if s.exited then s else s.cqeSeen cqe)
    else none

/-- The operations that `main` still waits for. -/
def State.outstanding (s : State) : List Sqe := s.inFlight ++ s.cq.map Cqe.sqe

/-! ## Connections -/

/-- How far a slot has come. -/
inductive Stage
  | unused
  | accepting
  /-- The socket is accepted, and `main` has not seen it. -/
  | accepted (cfd : Int)
  | receiving (cfd : Int)
  | reading (cfd fileFd : Int)
  | sending (cfd fileFd : Int)
  | finished (cfd fileFd : Int)

namespace Stage

def isFinished : Stage → Bool
  | finished _ _ => true
  | _ => false

def accepts : Stage → Bool
  | accepting | accepted _ => true
  | _ => false

/-- Two for each operation that is not submitted yet. -/
def left : Stage → Nat
  | unused => 8
  | accepting | accepted _ => 6
  | receiving _ => 4
  | reading _ _ => 2
  | sending _ _ | finished _ _ => 0

/-- The operation that is outstanding. -/
def pending (sfd : Int) (k : Nat) : Stage → Option Sqe
  | accepting | accepted _ => some ⟨.ACCEPT, sfd, k⟩
  | receiving cfd => some ⟨.RECV, cfd, k⟩
  | reading _ fileFd => some ⟨.READ, fileFd, k⟩
  | sending cfd _ => some ⟨.SEND, cfd, k⟩
  | unused | finished _ _ => none

def submitted (sfd : Int) (k : Nat) : Stage → List Sqe
  | unused => []
  | accepting | accepted _ => [⟨.ACCEPT, sfd, k⟩]
  | receiving cfd => [⟨.ACCEPT, sfd, k⟩, ⟨.RECV, cfd, k⟩]
  | reading cfd fileFd => [⟨.ACCEPT, sfd, k⟩, ⟨.RECV, cfd, k⟩, ⟨.READ, fileFd, k⟩]
  | sending cfd fileFd | finished cfd fileFd =>
    [⟨.ACCEPT, sfd, k⟩, ⟨.RECV, cfd, k⟩, ⟨.READ, fileFd, k⟩, ⟨.SEND, cfd, k⟩]

/-- What is open for the slot. -/
def fds : Stage → List Int
  | accepted cfd | receiving cfd | sending cfd _ => [cfd]
  | reading cfd fileFd => [fileFd, cfd]
  | unused | accepting | finished _ _ => []

def socket : Stage → Option Int
  | unused | accepting => none
  | accepted cfd | receiving cfd | reading cfd _ | sending cfd _ | finished cfd _ => some cfd

/-- What stands in the slot while an operation is outstanding. -/
def Data (k : Nat) (data : UserData) : Stage → Prop
  | unused | finished _ _ => True
  | accepting | accepted _ => data.index = k ∧ data.ioOp = .ACCEPT
  | receiving cfd => data.index = k ∧ data.ioOp = .RECV ∧ data.socketFd = cfd
  | reading cfd fileFd => data.index = k ∧ data.ioOp = .READ ∧ data.socketFd = cfd ∧ data.fileFd = fileFd
  | sending cfd _ => data.index = k ∧ data.ioOp = .SEND ∧ data.socketFd = cfd

/-- What a turn of the loop does for a connection. -/
inductive Advances : Stage → Stage → Prop
  | recv (cfd : Int) : Advances (accepted cfd) (receiving cfd)
  | read (cfd fileFd : Int) : Advances (receiving cfd) (reading cfd fileFd)
  | send (cfd fileFd : Int) : Advances (reading cfd fileFd) (sending cfd fileFd)
  | sent (cfd fileFd : Int) : Advances (sending cfd fileFd) (finished cfd fileFd)

variable {sfd : Int} {k : Nat} {stage stage' : Stage} {sqe : Sqe}

theorem userData_of_pending (h : stage.pending sfd k = some sqe) : sqe.userData = k := by
  cases stage <;> cases h <;> rfl

theorem accepts_of_pending (h : stage.pending sfd k = some sqe) (hop : sqe.opcode = .ACCEPT) :
    stage.accepts = true := by
  cases stage <;> cases h <;> first | rfl | cases hop

/-- The buffer does not matter. -/
theorem Data.setBuf {data : UserData} (h : stage.Data k data) (buf : List UInt8) :
    stage.Data k { data with buf := buf } := by
  cases stage <;> exact h

namespace Advances

variable (h : Advances stage stage')
include h

theorem submitted_eq : stage'.submitted sfd k = stage.submitted sfd k ++ (stage'.pending sfd k).toList := by
  cases h <;> rfl

theorem left_eq : stage.left = stage'.left + 2 * (stage'.pending sfd k).toList.length := by
  cases h <;> rfl

theorem socket_eq : stage'.socket = stage.socket := by
  cases h <;> rfl

theorem not_accepts : stage'.accepts = false := by
  cases h <;> rfl

theorem not_unused : stage ≠ .unused ∧ stage' ≠ .unused := by
  cases h <;> exact ⟨Stage.noConfusion, Stage.noConfusion⟩

theorem not_finished : stage.isFinished = false := by
  cases h <;> rfl

end Advances

end Stage

/-- What is kept for a slot. -/
structure Slot (sfd : Int) (k : Nat) (stage : Stage) (data : UserData) (submitted : List Sqe)
    (accepted : Option Int) : Prop where
  data : stage.Data k data
  submitted : submitted = stage.submitted sfd k
  accepted : accepted = stage.socket

/-- What holds of a state in which the slots have come so far, after `steps` steps. -/
structure Inv (sfd : Int) (numReqs : Nat) (stage : Nat → Stage) (steps : Nat) (s : State) : Prop where
  bound : s.numAccepts ≤ numReqs
  unused : ∀ k, stage k = .unused ↔ k < s.numAccepts ∨ numReqs ≤ k
  accepts : ∀ k, (stage k).accepts = true → k = s.numAccepts
  slot : ∀ k, Slot sfd k (stage k) (s.dataArr k) (s.submitted k) (s.accepted k)
  outstanding : Owned s.outstanding fun k => ((stage k).pending sfd k).toList
  fds : Owned s.fds fun k => (stage k).fds
  inFlight : ∀ sqe ∈ s.inFlight, sqe.opcode = .ACCEPT → stage sqe.userData = .accepting
  results : ∀ cqe ∈ s.cq, cqe.sqe.opcode = .ACCEPT → 0 ≤ cqe.res → stage cqe.sqe.userData = .accepted cqe.res
  unfinished : s.numReqs = count numReqs (fun x => !x.isFinished) stage
  sends : s.sends + s.numReqs = numReqs
  left : steps + total numReqs Stage.left stage + 2 * s.inFlight.length + s.cq.length = 8 * numReqs

/-- An `ACCEPT` is outstanding while there are slots for more. -/
def Awaits (stage : Nat → Stage) (s : State) : Prop :=
  0 < s.numAccepts → (stage s.numAccepts).accepts = true

/-- The slots have come somewhere. -/
def Consistent (sfd : Int) (numReqs steps : Nat) (s : State) : Prop :=
  ∃ stage, Inv sfd numReqs stage steps s ∧ Awaits stage s

variable {sfd : Int} {numReqs steps k : Nat} {stage : Nat → Stage} {s : State}

/-! ## One slot changes -/

theorem own_update {α : Type} (f : Nat → Stage → List α) (stage : Nat → Stage) (k : Nat) (stage' : Stage) :
    (fun j => f j (Function.update stage k stage' j)) = Function.update (fun j => f j (stage j)) k (f k stage') :=
  funext (Function.apply_update f stage k stage')

theorem slot_update {dataArr : Nat → UserData} {submitted : Nat → List Sqe} {accepted : Nat → Option Int}
    {stage' : Stage} {data : UserData} {sqes : List Sqe} {socket : Option Int}
    (h : ∀ j, Slot sfd j (stage j) (dataArr j) (submitted j) (accepted j)) (hk : Slot sfd k stage' data sqes socket)
    (j : Nat) :
    Slot sfd j (Function.update stage k stage' j) (Function.update dataArr k data j)
      (Function.update submitted k sqes j) (Function.update accepted k socket j) := by
  by_cases hj : j = k
  · subst hj
    simpa only [Function.update_self] using hk
  · simpa only [Function.update_of_ne hj] using h j

/-- A new operation of a slot is not outstanding yet when the slot has none. -/
theorem Inv.not_mem_outstanding (h : Inv sfd numReqs stage steps s) {sqe : Sqe}
    (hidle : (stage sqe.userData).pending sfd sqe.userData = none) : sqe ∉ s.outstanding := by
  intro hmem
  obtain ⟨j, hj⟩ := (h.outstanding.mem_iff sqe).1 hmem
  rw [Option.mem_toList] at hj
  obtain rfl := Stage.userData_of_pending hj
  rw [hidle] at hj
  cases hj

theorem unused_update {a n : Nat} (h : ∀ j, stage j = .unused ↔ j < a ∨ n ≤ j) {stage' : Stage}
    (hk : stage k ≠ .unused) (hk' : stage' ≠ .unused) (j : Nat) :
    Function.update stage k stage' j = .unused ↔ j < a ∨ n ≤ j := by
  by_cases hj : j = k
  · subst hj
    rw [Function.update_self, ← h j]
    exact iff_of_false hk' hk
  · rw [Function.update_of_ne hj]
    exact h j

theorem prepAccept_eq {n : Nat} (hn : s.numAccepts = n + 1) :
    prepAccept sfd s =
      { s with
        numAccepts := n
        dataArr := Function.update s.dataArr n { s.dataArr n with ioOp := .ACCEPT, index := n }
        inFlight := s.inFlight ++ [⟨.ACCEPT, sfd, n⟩]
        submitted := Function.update s.submitted n (s.submitted n ++ [⟨.ACCEPT, sfd, n⟩]) } := by
  rw [prepAccept, hn, Nat.add_sub_cancel]
  rfl

/-- The next slot gets the next `ACCEPT`. -/
theorem Inv.prepAccept (h : Inv sfd numReqs stage steps s) {n : Nat} (hn : s.numAccepts = n + 1)
    (hnone : ∀ k, (stage k).accepts = false) :
    Inv sfd numReqs (Function.update stage n .accepting) steps (prepAccept sfd s) := by
  have hbound := h.bound
  have hunused : stage n = .unused := (h.unused n).2 (.inl (by omega))
  have hslot := h.slot n
  rw [hunused] at hslot
  rw [prepAccept_eq hn]
  refine
    { bound := by dsimp only; omega
      unused := fun j => ?_
      accepts := fun j hj => ?_
      slot := fun j => ?_
      outstanding := ?_
      fds := ?_
      inFlight := fun sqe hsqe hop => ?_
      results := fun cqe hcqe hop hres => ?_
      unfinished := ?_
      sends := h.sends
      left := ?_ }
  · by_cases hj : j = n
    · subst hj
      rw [Function.update_self]
      exact iff_of_false Stage.noConfusion (by dsimp only; omega)
    · rw [Function.update_of_ne hj, h.unused j, hn]
      dsimp only
      omega
  · by_contra hne
    rw [Function.update_of_ne hne, hnone j] at hj
    cases hj
  · have hnew : Slot sfd n .accepting { s.dataArr n with ioOp := .ACCEPT, index := n }
        (s.submitted n ++ [⟨.ACCEPT, sfd, n⟩]) (s.accepted n) :=
      ⟨⟨rfl, rfl⟩, by rw [hslot.submitted]; rfl, hslot.accepted⟩
    have hslots := slot_update h.slot hnew j
    rwa [Function.update_eq_self] at hslots
  · have hnew : (⟨.ACCEPT, sfd, n⟩ : Sqe) ∉ s.outstanding := h.not_mem_outstanding (by rw [hunused]; rfl)
    have hown := h.outstanding.cons hnew n
    rw [hunused] at hown
    rw [own_update fun j st => (st.pending sfd j).toList]
    simp only [State.outstanding, List.append_assoc, List.singleton_append]
    exact hown.perm List.perm_middle.symm
  · have hown : (Stage.accepting).fds = (stage n).fds := by rw [hunused]; rfl
    rw [own_update fun _ st => st.fds, hown, Function.update_eq_self]
    exact h.fds
  · rcases List.mem_append.1 hsqe with hold | hnew
    · have hstage := hnone sqe.userData
      rw [h.inFlight sqe hold hop] at hstage
      cases hstage
    · rw [List.mem_singleton.1 hnew]
      exact Function.update_self ..
  · have hstage := hnone cqe.sqe.userData
    rw [h.results cqe hcqe hop hres] at hstage
    cases hstage
  · rw [count_update_of_eq (by omega) (by rw [hunused]; rfl)]
    exact h.unfinished
  · have hleft := h.left
    have htotal := total_update Stage.left stage .accepting (i := n) (n := numReqs) (by omega)
    rw [hunused] at htotal
    simp only [List.length_append, List.length_singleton, Stage.left] at htotal ⊢
    omega

theorem Inv.lt_of_pending (h : Inv sfd numReqs stage steps s) {sqe : Sqe}
    (hpending : (stage k).pending sfd k = some sqe) : k < numReqs := by
  have hused : stage k ≠ .unused := fun hunused => by
    rw [hunused] at hpending
    cases hpending
  have := mt (h.unused k).2 hused
  omega

/-- Without the completed operation its slot has none. -/
theorem Inv.owned_rest (h : Inv sfd numReqs stage steps s) {cqe : Cqe} {rest : List Cqe} (hcq : s.cq = cqe :: rest)
    (hpending : (stage k).pending sfd k = some cqe.sqe) :
    Owned (s.inFlight ++ rest.map Cqe.sqe) (Function.update (fun j => ((stage j).pending sfd j).toList) k []) := by
  have hown := h.outstanding
  rw [State.outstanding, hcq, List.map_cons] at hown
  exact (hown.perm List.perm_middle).tail (by rw [hpending]; rfl)

/-- The other operations belong to other slots. -/
theorem userData_ne_of_owned {sqes : List Sqe}
    (hidle : Owned sqes (Function.update (fun j => ((stage j).pending sfd j).toList) k [])) :
    ∀ sqe ∈ sqes, sqe.userData ≠ k := by
  rintro sqe hsqe rfl
  obtain ⟨j, hj⟩ := (hidle.mem_iff sqe).1 hsqe
  by_cases hjk : j = sqe.userData
  · rw [hjk, Function.update_self] at hj
    cases hj
  · rw [Function.update_of_ne hjk, Option.mem_toList] at hj
    exact hjk (Stage.userData_of_pending hj).symm

/-- **A turn of the loop** for slot `k`: its operation is replaced by the next one, if there is any. -/
theorem Inv.advance (h : Inv sfd numReqs stage steps s) {cqe : Cqe} {rest : List Cqe} (hcq : s.cq = cqe :: rest)
    {stage' : Stage} (hadv : (stage k).Advances stage') (hpending : (stage k).pending sfd k = some cqe.sqe)
    {data : UserData} (hdata : stage'.Data k data) {fds : List Int}
    (hfds : Owned fds (Function.update (fun j => (stage j).fds) k stage'.fds)) {left sends : Nat}
    (hleft : left + (if stage'.isFinished then 1 else 0) = s.numReqs) (hsends : sends + left = numReqs) :
    Inv sfd numReqs (Function.update stage k stage') (steps + 1)
      { s with
        dataArr := Function.update s.dataArr k data
        numReqs := left
        inFlight := s.inFlight ++ (stage'.pending sfd k).toList
        cq := s.cq.tail
        fds := fds
        submitted := Function.update s.submitted k (s.submitted k ++ (stage'.pending sfd k).toList)
        sends := sends } := by
  have hslot := h.slot k
  have hunused := hadv.not_unused
  rw [hcq, List.tail_cons]
  have hk := h.lt_of_pending hpending
  have hidle := h.owned_rest hcq hpending
  have hothers := userData_ne_of_owned hidle
  refine
    { bound := h.bound
      unused := unused_update h.unused hunused.1 hunused.2
      accepts := fun j hj => ?_
      slot := fun j => ?_
      outstanding := ?_
      fds := ?_
      inFlight := fun sqe hsqe hop => ?_
      results := fun cqe hcqe hop hres => ?_
      unfinished := ?_
      sends := hsends
      left := ?_ }
  · by_cases hjk : j = k
    · subst hjk
      rw [Function.update_self, hadv.not_accepts] at hj
      cases hj
    · rw [Function.update_of_ne hjk] at hj
      exact h.accepts j hj
  · have hnew : Slot sfd k stage' data (s.submitted k ++ (stage'.pending sfd k).toList) (s.accepted k) :=
      ⟨hdata, by rw [hslot.submitted, hadv.submitted_eq], by rw [hslot.accepted, hadv.socket_eq]⟩
    have hslots := slot_update h.slot hnew j
    rwa [Function.update_eq_self] at hslots
  · rw [own_update fun j st => (st.pending sfd j).toList]
    cases hnext : stage'.pending sfd k with
    | none => simpa only [State.outstanding, Option.toList_none, List.append_nil] using hidle
    | some sqe =>
      have hown := hidle.cons (fun hmem => hothers sqe hmem (Stage.userData_of_pending hnext)) k
      rw [Function.update_idem, Function.update_self] at hown
      simp only [State.outstanding, Option.toList_some, List.append_assoc, List.singleton_append]
      exact hown.perm List.perm_middle.symm
  · rw [own_update fun _ st => st.fds]
    exact hfds
  · rcases List.mem_append.1 hsqe with hold | hnew
    · rw [Function.update_of_ne (hothers sqe (List.mem_append_left _ hold))]
      exact h.inFlight sqe hold hop
    · have haccepts := Stage.accepts_of_pending (Option.mem_toList.1 hnew) hop
      rw [hadv.not_accepts] at haccepts
      cases haccepts
  · have hother := hothers cqe.sqe (List.mem_append_right _ (List.mem_map_of_mem hcqe))
    rw [Function.update_of_ne hother]
    exact h.results cqe (hcq ▸ List.mem_cons_of_mem _ hcqe) hop hres
  · have hcount := count_update (fun x => !Stage.isFinished x) stage stage' hk
    rw [← h.unfinished, hadv.not_finished] at hcount
    dsimp only
    cases hfin : stage'.isFinished <;> simp [hfin] at hcount hleft <;> omega
  · have hold := h.left
    have htotal := total_update Stage.left stage stage' hk
    have hstages : (stage k).left = stage'.left + 2 * (stage'.pending sfd k).toList.length := hadv.left_eq
    rw [hcq, List.length_cons] at hold
    simp only [List.length_append]
    omega

/-! ## Completions -/

theorem perm_complete {sqe : Sqe} (hmem : sqe ∈ s.inFlight) (res : Int) :
    s.outstanding.Perm (s.inFlight.erase sqe ++ (s.cq ++ [(⟨sqe, res⟩ : Cqe)]).map Cqe.sqe) := by
  have hfirst := (List.perm_cons_erase hmem).append_right (s.cq.map Cqe.sqe)
  rw [List.map_append, List.map_singleton, ← List.append_assoc]
  exact hfirst.trans (List.perm_append_singleton sqe _).symm

theorem Inv.of_mem_outstanding (h : Inv sfd numReqs stage steps s) {sqe : Sqe} (hmem : sqe ∈ s.outstanding) :
    (stage sqe.userData).pending sfd sqe.userData = some sqe := by
  obtain ⟨k, hk⟩ := (h.outstanding.mem_iff sqe).1 hmem
  rw [Option.mem_toList] at hk
  obtain rfl := Stage.userData_of_pending hk
  exact hk

/-- The buffer is filled. -/
theorem Inv.slot_setBuf (h : Inv sfd numReqs stage steps s) (k : Nat) (buf : List UInt8) (j : Nat) :
    Slot sfd j (stage j) (Function.update s.dataArr k { s.dataArr k with buf := buf } j) (s.submitted j)
      (s.accepted j) := by
  have hnew : Slot sfd k (stage k) { s.dataArr k with buf := buf } (s.submitted k) (s.accepted k) :=
    ⟨(h.slot k).data.setBuf buf, (h.slot k).submitted, (h.slot k).accepted⟩
  have hslots := slot_update h.slot hnew j
  rwa [Function.update_eq_self, Function.update_eq_self, Function.update_eq_self] at hslots

theorem Inv.left_complete (h : Inv sfd numReqs stage steps s) {sqe : Sqe} (hmem : sqe ∈ s.inFlight) (res : Int) :
    steps + 1 + total numReqs Stage.left stage + 2 * (s.inFlight.erase sqe).length +
        (s.cq ++ [(⟨sqe, res⟩ : Cqe)]).length = 8 * numReqs := by
  have hleft := h.left
  have hpos := List.length_pos_of_mem hmem
  rw [List.length_erase_of_mem hmem, List.length_append, List.length_singleton]
  omega

/-- A socket is accepted. -/
theorem Inv.complete_accept (h : Inv sfd numReqs stage steps s) {sqe : Sqe} (hmem : sqe ∈ s.inFlight)
    (hop : sqe.opcode = .ACCEPT) {res : Int} (hres : 0 ≤ res) (hfresh : res ∉ s.fds) (bytes : List UInt8) :
    Inv sfd numReqs (Function.update stage sqe.userData (.accepted res)) (steps + 1) (s.complete sqe res bytes) := by
  have hstage := h.inFlight sqe hmem hop
  have hpending := h.of_mem_outstanding (List.mem_append_left _ hmem)
  have hk := h.lt_of_pending hpending
  rw [State.complete]
  dsimp only [State.setData]
  rw [if_pos ⟨hop, hres⟩]
  refine
    { bound := h.bound
      unused := unused_update h.unused (by rw [hstage]; exact Stage.noConfusion) Stage.noConfusion
      accepts := fun j hj => ?_
      slot := fun j => ?_
      outstanding := ?_
      fds := ?_
      inFlight := fun other hother hop' => ?_
      results := fun cqe hcqe hop' hres' => ?_
      unfinished := ?_
      sends := h.sends
      left := ?_ }
  · by_cases hjk : j = sqe.userData
    · exact h.accepts j (by rw [hjk, hstage]; rfl)
    · rw [Function.update_of_ne hjk] at hj
      exact h.accepts j hj
  · have hslot := h.slot sqe.userData
    rw [hstage] at hslot
    have hnew : Slot sfd sqe.userData (.accepted res)
        { s.dataArr sqe.userData with buf := bytes ++ (s.dataArr sqe.userData).buf.drop bytes.length }
        (s.submitted sqe.userData) (some res) :=
      ⟨hslot.data, hslot.submitted, rfl⟩
    have hslots := slot_update h.slot hnew j
    rwa [Function.update_eq_self] at hslots
  · have hown : (Stage.accepted res).pending sfd sqe.userData = (stage sqe.userData).pending sfd sqe.userData := by
      rw [hstage]
      rfl
    rw [own_update fun j st => (st.pending sfd j).toList, hown, Function.update_eq_self]
    exact h.outstanding.perm (perm_complete hmem res)
  · have hown := h.fds.cons hfresh sqe.userData
    rw [hstage] at hown
    rw [own_update fun _ st => st.fds]
    exact hown
  · have hother' := List.mem_of_mem_erase hother
    have hne : other.userData ≠ sqe.userData := fun heq => by
      have hsame := h.of_mem_outstanding (List.mem_append_left _ hother')
      rw [heq, hpending] at hsame
      obtain rfl := Option.some.inj hsame
      exact (h.outstanding.nodup.of_append_left).not_mem_erase hother
    rw [Function.update_of_ne hne]
    exact h.inFlight other hother' hop'
  · rcases List.mem_append.1 hcqe with hold | hnew
    · have hres := h.results cqe hold hop' hres'
      have hne : cqe.sqe.userData ≠ sqe.userData := fun heq => by
        rw [heq, hstage] at hres
        cases hres
      rw [Function.update_of_ne hne]
      exact hres
    · rw [List.mem_singleton.1 hnew]
      exact Function.update_self ..
  · rw [count_update_of_eq hk (by rw [hstage]; rfl)]
    exact h.unfinished
  · have htotal := total_update Stage.left stage (.accepted res) hk
    rw [hstage] at htotal
    have hsame := Nat.add_right_cancel htotal
    rw [hsame]
    exact h.left_complete hmem res

/-- Any other completion. -/
theorem Inv.complete_other (h : Inv sfd numReqs stage steps s) {sqe : Sqe} (hmem : sqe ∈ s.inFlight) {res : Int}
    (hother : ¬(sqe.opcode = .ACCEPT ∧ 0 ≤ res)) (bytes : List UInt8) :
    Inv sfd numReqs stage (steps + 1) (s.complete sqe res bytes) := by
  rw [State.complete]
  dsimp only [State.setData]
  rw [if_neg hother]
  refine
    { bound := h.bound
      unused := h.unused
      accepts := h.accepts
      slot := h.slot_setBuf _ _
      outstanding := h.outstanding.perm (perm_complete hmem res)
      fds := h.fds
      inFlight := fun other hother' => h.inFlight other (List.mem_of_mem_erase hother')
      results := fun cqe hcqe hop hres => ?_
      unfinished := h.unfinished
      sends := h.sends
      left := h.left_complete hmem res }
  rcases List.mem_append.1 hcqe with hold | hnew
  · exact h.results cqe hold hop hres
  · rw [List.mem_singleton.1 hnew] at hop hres
    exact absurd ⟨hop, hres⟩ hother

/-! ## Turns of the loop -/

theorem Inv.exit (h : Inv sfd numReqs stage steps s) : Inv sfd numReqs stage steps s.exit :=
  { h with outstanding := h.outstanding }

/-- A slot has something open, and it is closed. -/
theorem Inv.close (h : Inv sfd numReqs stage steps s) {fd : Int} {openFds : List Int}
    (hown : (stage k).fds = fd :: openFds) :
    Owned (s.fds.erase fd) (Function.update (fun j => (stage j).fds) k openFds) := by
  have hmem : fd ∈ s.fds := (h.fds.mem_iff fd).2 ⟨k, hown ▸ List.mem_cons_self⟩
  exact (h.fds.perm (List.perm_cons_erase hmem)).tail (List.Perm.of_eq hown)

theorem Awaits.update (hawaits : Awaits stage s) (hk : (stage k).accepts = false) (stage' : Stage) {s' : State}
    (hsame : s'.numAccepts = s.numAccepts) : Awaits (Function.update stage k stage') s' := by
  intro hpos
  rw [hsame] at hpos ⊢
  have haccepts := hawaits hpos
  have hne : s.numAccepts ≠ k := fun heq => by
    rw [heq, hk] at haccepts
    cases haccepts
  rwa [Function.update_of_ne hne]

section Turn

variable (h : Inv sfd numReqs stage steps s) {res cfd fileFd : Int} {rest : List Cqe}
include h

/-- The connection is handed over, and the next one is awaited. -/
theorem Inv.turn_accept (hstage : stage k = .accepted cfd) (hcq : s.cq = ⟨⟨.ACCEPT, sfd, k⟩, res⟩ :: rest) :
    Consistent sfd numReqs (steps + 1) ((prepRecv sfd s cfd k).cqeSeen ⟨⟨.ACCEPT, sfd, k⟩, res⟩) := by
  have hlast : k = s.numAccepts := h.accepts k (by rw [hstage]; rfl)
  have hslot := (h.slot k).data
  rw [hstage] at hslot
  have hdata : (Stage.receiving cfd).Data k
      { s.dataArr k with ioOp := .RECV, socketFd := cfd, buf := List.replicate BUFSIZ 0 } := ⟨hslot.1, rfl, rfl⟩
  have hown : (Stage.receiving cfd).fds = (stage k).fds := by rw [hstage]; rfl
  have hfds : Owned s.fds (Function.update (fun j => (stage j).fds) k (Stage.receiving cfd).fds) := by
    rw [hown, Function.update_eq_self]
    exact h.fds
  have hnext := h.advance hcq (hstage ▸ .recv cfd) (by rw [hstage]; rfl) hdata hfds (Nat.add_zero s.numReqs) h.sends
  rw [prepRecv]
  dsimp only
  split
  · next hpos =>
    obtain ⟨n, hn⟩ : ∃ n, s.numAccepts = n + 1 := ⟨s.numAccepts - 1, (Nat.sub_add_cancel hpos).symm⟩
    refine ⟨_, hnext.prepAccept hn fun j => ?_, fun _ => ?_⟩
    · by_cases hj : j = k
      · rw [hj, Function.update_self]
        rfl
      · rw [Function.update_of_ne hj]
        exact Bool.eq_false_iff.2 fun haccepts => hj ((h.accepts j haccepts).trans hlast.symm)
    · change (Function.update (Function.update stage k (.receiving cfd)) n .accepting (s.numAccepts - 1)).accepts = true
      rw [hn, Nat.add_sub_cancel, Function.update_self]
      rfl
  · next hzero => exact ⟨_, hnext, fun hpos => absurd hpos hzero⟩

variable (hawaits : Awaits stage s)
include hawaits

/-- The file is opened. -/
theorem Inv.turn_recv (hstage : stage k = .receiving cfd) (hcq : s.cq = ⟨⟨.RECV, cfd, k⟩, res⟩ :: rest)
    (hfd : fileFd ≠ -1) (hfresh : fileFd ∉ s.fds) :
    Consistent sfd numReqs (steps + 1) ((prepRead s k fileFd).cqeSeen ⟨⟨.RECV, cfd, k⟩, res⟩) := by
  have hslot := (h.slot k).data
  rw [hstage] at hslot
  have hdata : (Stage.reading cfd fileFd).Data k { s.dataArr k with ioOp := .READ, fileFd := fileFd } :=
    ⟨hslot.1, rfl, hslot.2.2, rfl⟩
  have hfds := h.fds.cons hfresh k
  rw [hstage] at hfds
  rw [prepRead, if_neg hfd]
  have hnext := h.advance hcq (hstage ▸ .read cfd fileFd) (by rw [hstage]; rfl) hdata hfds (Nat.add_zero s.numReqs)
    h.sends
  exact ⟨_, hnext, hawaits.update (by rw [hstage]; rfl) _ rfl⟩

/-- The file is closed. -/
theorem Inv.turn_read (hstage : stage k = .reading cfd fileFd) (hcq : s.cq = ⟨⟨.READ, fileFd, k⟩, res⟩ :: rest) :
    Consistent sfd numReqs (steps + 1) ((prepSend s k).cqeSeen ⟨⟨.READ, fileFd, k⟩, res⟩) := by
  have hslot := (h.slot k).data
  rw [hstage] at hslot
  obtain ⟨hindex, -, rfl, rfl⟩ := hslot
  have hdata : (Stage.sending (s.dataArr k).socketFd (s.dataArr k).fileFd).Data k
      { s.dataArr k with ioOp := .SEND } := ⟨hindex, rfl, rfl⟩
  have hfds := h.close (k := k) (by rw [hstage]; rfl)
  have hnext := h.advance hcq (hstage ▸ .send _ _) (by rw [hstage]; rfl) hdata hfds (Nat.add_zero s.numReqs) h.sends
  exact ⟨_, hnext, hawaits.update (by rw [hstage]; rfl) _ rfl⟩

/-- The socket is closed. -/
theorem Inv.turn_send (hstage : stage k = .sending cfd fileFd) (hcq : s.cq = ⟨⟨.SEND, cfd, k⟩, res⟩ :: rest)
    (hreqs : 0 < s.numReqs) :
    Consistent sfd numReqs (steps + 1)
      (({ s.close (s.dataArr k).socketFd with numReqs := s.numReqs - 1 } : State).cqeSeen
        ⟨⟨.SEND, cfd, k⟩, res⟩) := by
  have hslot := (h.slot k).data
  rw [hstage] at hslot
  obtain ⟨-, -, rfl⟩ := hslot
  have hsum := h.sends
  have hfds := h.close (k := k) (by rw [hstage]; rfl)
  have hdata : (Stage.finished (s.dataArr k).socketFd fileFd).Data k (s.dataArr k) := trivial
  have hsends : s.sends + 1 + (s.numReqs - 1) = numReqs := by omega
  have hnext := h.advance hcq (hstage ▸ .sent _ fileFd) (by rw [hstage]; rfl) hdata hfds
    (Nat.sub_add_cancel hreqs) hsends
  simp only [Stage.pending, Option.toList_none, List.append_nil, Function.update_eq_self] at hnext
  exact ⟨_, hnext, hawaits.update (by rw [hstage]; rfl) _ rfl⟩

end Turn

/-- The completion says which slot it is for, and `io_op` what was completed. -/
theorem Inv.turn (h : Inv sfd numReqs stage steps s) (hawaits : Awaits stage s) (hreqs : 0 < s.numReqs)
    {cqe : Cqe} {rest : List Cqe} (hcq : s.cq = cqe :: rest) {fileFd : Int}
    (hfd : fileFd = -1 ∨ 0 ≤ fileFd ∧ fileFd ∉ s.fds)
    (hrunning : (dispatch sfd s cqe fileFd).exited = false) :
    Consistent sfd numReqs (steps + 1) ((dispatch sfd s cqe fileFd).cqeSeen cqe) := by
  obtain ⟨⟨opcode, fd, k⟩, res⟩ := cqe
  have hmem : (⟨⟨opcode, fd, k⟩, res⟩ : Cqe) ∈ s.cq := hcq ▸ List.mem_cons_self
  have hpending : (stage k).pending sfd k = some ⟨opcode, fd, k⟩ :=
    h.of_mem_outstanding (List.mem_append_right _ (List.mem_map_of_mem hmem))
  have hslot := (h.slot k).data
  unfold dispatch at hrunning ⊢
  by_cases hres : res < 0
  · rw [if_pos hres] at hrunning
    cases hrunning
  rw [if_neg hres] at hrunning ⊢
  dsimp only at hrunning ⊢
  cases hstage : stage k with
  | unused | finished _ _ =>
    rw [hstage] at hpending
    cases hpending
  | accepting =>
    rw [hstage] at hpending
    cases hpending
    have haccepted := h.results _ hmem rfl (Int.not_lt.1 hres)
    rw [hstage] at haccepted
    cases haccepted
  | accepted cfd =>
    rw [hstage] at hpending hslot
    cases hpending
    have haccepted := h.results _ hmem rfl (Int.not_lt.1 hres)
    rw [hslot.2, hslot.1]
    exact h.turn_accept haccepted hcq
  | receiving cfd =>
    rw [hstage] at hpending hslot
    cases hpending
    rw [hslot.2.1, hslot.1] at hrunning ⊢
    by_cases hopen : fileFd = -1
    · rw [prepRead, if_pos hopen] at hrunning
      cases hrunning
    · exact h.turn_recv hawaits hstage hcq hopen (hfd.resolve_left hopen).2
  | reading cfd otherFd =>
    rw [hstage] at hpending hslot
    cases hpending
    rw [hslot.2.1, hslot.1]
    exact h.turn_read hawaits hstage hcq
  | sending cfd otherFd =>
    rw [hstage] at hpending hslot
    cases hpending
    rw [hslot.2.1, hslot.1]
    exact h.turn_send hawaits hstage hcq hreqs

/-! ## Runs -/

/-- The calls that end the program change nothing else. -/
theorem dispatch_exited (hs : s.exited = false) {cqe : Cqe} {fileFd : Int}
    (hexited : (dispatch sfd s cqe fileFd).exited = true) : dispatch sfd s cqe fileFd = s.exit := by
  unfold dispatch at hexited ⊢
  split
  · rfl
  next hres =>
    rw [if_neg hres] at hexited
    dsimp only at hexited ⊢
    split
    · next hop =>
      rw [hop] at hexited
      dsimp only [prepRecv] at hexited
      split at hexited <;> exact absurd (hs.symm.trans hexited) Bool.false_ne_true
    · next hop =>
      rw [hop] at hexited
      dsimp only at hexited
      unfold prepRead at hexited ⊢
      split
      · rfl
      · next hopen =>
        rw [if_neg hopen] at hexited
        exact absurd (hs.symm.trans hexited) Bool.false_ne_true
    · next hop =>
      rw [hop] at hexited
      exact absurd (hs.symm.trans hexited) Bool.false_ne_true
    · next hop =>
      rw [hop] at hexited
      exact absurd (hs.symm.trans hexited) Bool.false_ne_true
    · rfl

theorem complete_rest (s : State) (sqe : Sqe) (res : Int) (bytes : List UInt8) :
    (s.complete sqe res bytes).numAccepts = s.numAccepts ∧ (s.complete sqe res bytes).exited = s.exited := by
  unfold State.complete
  dsimp only
  split <;> exact ⟨rfl, rfl⟩

/-- **A completion.** -/
theorem Consistent.complete (h : Consistent sfd numReqs steps s) {sqe : Sqe} (hmem : sqe ∈ s.inFlight) {res : Int}
    {bytes : List UInt8} (hpossible : Possible s.fds sqe.opcode res bytes) :
    Consistent sfd numReqs (steps + 1) (s.complete sqe res bytes) := by
  obtain ⟨stage, h, hawaits⟩ := h
  have hnum := (complete_rest s sqe res bytes).1
  by_cases haccept : sqe.opcode = .ACCEPT ∧ 0 ≤ res
  · have hstage := h.inFlight sqe hmem haccept.1
    have hlast : sqe.userData = s.numAccepts := h.accepts _ (by rw [hstage]; rfl)
    refine ⟨_, h.complete_accept hmem haccept.1 haccept.2 (hpossible.1 haccept.1 haccept.2) bytes, fun _ => ?_⟩
    rw [hnum, ← hlast, Function.update_self]
    rfl
  · refine ⟨stage, h.complete_other hmem haccept bytes, fun hpos => ?_⟩
    rw [hnum] at hpos ⊢
    exact hawaits hpos

/-- One, if a call has ended the program. -/
def State.exits (s : State) : Nat := if s.exited then 1 else 0

theorem Consistent.step (h : Consistent sfd numReqs steps s) {a : Action} {s' : State}
    (hstep : step sfd s a = some s') :
    ∃ steps', Consistent sfd numReqs steps' s' ∧ steps' + s'.exits = steps + s.exits + 1 := by
  cases a with
  | complete sqe res bytes =>
    simp only [IoUring.step, Option.ite_none_right_eq_some, Option.some.injEq] at hstep
    obtain ⟨⟨hmem, hpossible⟩, rfl⟩ := hstep
    refine ⟨steps + 1, h.complete hmem hpossible, ?_⟩
    rw [State.exits, State.exits, (complete_rest s sqe res bytes).2]
    omega
  | turn fileFd =>
    obtain ⟨stage, h, hawaits⟩ := h
    simp only [IoUring.step, Option.ite_none_right_eq_some] at hstep
    obtain ⟨⟨hrunning, hreqs, hfd⟩, hstep⟩ := hstep
    have hzero : s.exits = 0 := by rw [State.exits, hrunning]; rfl
    cases hcq : s.cq with
    | nil =>
      rw [hcq] at hstep
      cases hstep
    | cons cqe rest =>
      rw [hcq] at hstep
      obtain rfl := Option.some.inj hstep
      split
      · next hexited =>
        rw [dispatch_exited hrunning hexited, hzero]
        exact ⟨steps, ⟨stage, h.exit, hawaits⟩, rfl⟩
      · next hexited =>
        have hexited := Bool.eq_false_iff.2 hexited
        have hone : ((dispatch sfd s cqe fileFd).cqeSeen cqe).exits = 0 := by
          rw [State.exits, State.cqeSeen, hexited]
          rfl
        exact ⟨steps + 1, h.turn hawaits hreqs hcq hfd hexited, by rw [hone, hzero]⟩

theorem consistent_start (hpos : 1 ≤ numReqs) (sfd : Int) : Consistent sfd numReqs 0 (start sfd numReqs) := by
  obtain ⟨n, rfl⟩ : ∃ n, numReqs = n + 1 := ⟨numReqs - 1, by omega⟩
  have hbase : Inv sfd (n + 1) (fun _ => .unused) 0
      ⟨fun _ => ⟨List.replicate BUFSIZ 0, 0, 0, 0, .NOP⟩, n + 1, n + 1, [], [], [], false, fun _ => [], fun _ => none,
        0⟩ :=
    { bound := Nat.le_refl _
      unused := fun k => iff_of_true rfl (Nat.lt_or_ge k (n + 1))
      accepts := fun k hk => by cases hk
      slot := fun k => ⟨trivial, rfl, rfl⟩
      outstanding := Owned.empty fun _ => rfl
      fds := Owned.empty fun _ => rfl
      inFlight := fun sqe hsqe => by cases hsqe
      results := fun cqe hcqe => by cases hcqe
      unfinished := (count_eq_self.2 fun _ _ => rfl).symm
      sends := Nat.zero_add _
      left := by
        rw [total_const fun _ _ => rfl]
        dsimp only [Stage.left, List.length_nil]
        omega }
  refine ⟨_, hbase.prepAccept rfl fun _ => rfl, fun _ => ?_⟩
  change (Function.update (fun _ => Stage.unused) n .accepting (n + 1 - 1)).accepts = true
  rw [Nat.add_sub_cancel, Function.update_self]
  rfl

/-- **Every run.** -/
theorem consistent_run (hpos : 1 ≤ numReqs) {l : List Action} (hrun : run (step sfd) (start sfd numReqs) l = some s) :
    ∃ steps, Consistent sfd numReqs steps s ∧ steps + s.exits = l.length := by
  refine run_induction (P := fun l s => ∃ steps, Consistent sfd numReqs steps s ∧ steps + s.exits = l.length)
    ⟨0, consistent_start hpos sfd, rfl⟩ (fun l m a m' _ hm hstep => ?_) hrun
  obtain ⟨steps, hsteps, hlength⟩ := hm
  obtain ⟨steps', hsteps', hnext⟩ := hsteps.step hstep
  refine ⟨steps', hsteps', ?_⟩
  rw [hnext, hlength, List.length_append, List.length_singleton]

/-! ## The protocol -/

/-- The four operations of slot `k`, on the socket and the file of the connection. -/
def operations (sfd : Int) (k : Nat) (cfd fileFd : Int) : List Sqe :=
  [⟨.ACCEPT, sfd, k⟩, ⟨.RECV, cfd, k⟩, ⟨.READ, fileFd, k⟩, ⟨.SEND, cfd, k⟩]

/-- What holds after any steps. -/
structure Protocol (sfd : Int) (numReqs steps : Nat) (s : State) : Prop where
  accepts : s.outstanding.countP (fun sqe => sqe.opcode = .ACCEPT) ≤ 1
  slots : (s.outstanding.map Sqe.userData).Nodup
  /-- The operations of a slot come in their order, on the socket that was accepted for it. -/
  order : ∀ k, ∃ cfd fileFd, s.submitted k <+: operations sfd k cfd fileFd ∧
    (1 < (s.submitted k).length → s.accepted k = some cfd)
  /-- No other slot is used. -/
  bound : ∀ k, numReqs ≤ k → s.submitted k = []
  /-- The loop ends when all completions of `SEND` have been seen, -/
  sends : s.sends + s.numReqs = numReqs
  /-- and then every slot has been used, and everything is closed. -/
  finished : s.numReqs = 0 →
    s.outstanding = [] ∧ s.fds = [] ∧ ∀ k < numReqs, ∃ cfd fileFd, s.submitted k = operations sfd k cfd fileFd
  /-- Until then there is something to wait for, -/
  waits : 0 < s.numReqs → s.exited = false → s.outstanding ≠ []
  /-- and it comes to an end. -/
  length_le : steps ≤ 8 * numReqs + 1

theorem Stage.submitted_operations (st : Stage) (sfd : Int) (k : Nat) :
    ∃ cfd fileFd, st.submitted sfd k <+: operations sfd k cfd fileFd ∧
      (1 < (st.submitted sfd k).length → st.socket = some cfd) := by
  cases st with
  | unused => exact ⟨0, 0, List.nil_prefix, fun hlt => absurd hlt (Nat.not_lt_zero 1)⟩
  | accepting => exact ⟨0, 0, ⟨_, rfl⟩, fun hlt => absurd hlt (Nat.lt_irrefl 1)⟩
  | accepted cfd | receiving cfd => exact ⟨cfd, 0, ⟨_, rfl⟩, fun _ => rfl⟩
  | reading cfd fileFd | sending cfd fileFd | finished cfd fileFd =>
    exact ⟨cfd, fileFd, ⟨_, rfl⟩, fun _ => rfl⟩

/-- No slot has anything left when the loop has ended. -/
theorem Inv.all_finished (h : Inv sfd numReqs stage steps s) (hend : s.numReqs = 0) (k : Nat) :
    if k < numReqs then ∃ cfd fileFd, stage k = .finished cfd fileFd else stage k = .unused := by
  split
  · next hk =>
    have hfinished := count_eq_zero.1 (h.unfinished.symm.trans hend) k hk
    cases hstage : stage k with
    | finished cfd fileFd => exact ⟨cfd, fileFd, rfl⟩
    | _ =>
      rw [hstage] at hfinished
      cases hfinished
  · next hk => exact (h.unused k).2 (.inr (Nat.le_of_not_lt hk))

theorem Inv.idle (h : Inv sfd numReqs stage steps s) (hend : s.numReqs = 0) (k : Nat) :
    (stage k).pending sfd k = none ∧ (stage k).fds = [] := by
  have hk := h.all_finished hend k
  split at hk
  · obtain ⟨cfd, fileFd, hstage⟩ := hk
    rw [hstage]
    exact ⟨rfl, rfl⟩
  · rw [hk]
    exact ⟨rfl, rfl⟩

/-- Some slot has an operation while the loop runs. -/
theorem Inv.exists_pending (h : Inv sfd numReqs stage steps s) (hawaits : Awaits stage s) (hpos : 0 < s.numReqs) :
    ∃ k sqe, (stage k).pending sfd k = some sqe := by
  by_cases hslots : 0 < s.numAccepts
  · have haccepts := hawaits hslots
    refine ⟨s.numAccepts, ⟨.ACCEPT, sfd, s.numAccepts⟩, ?_⟩
    cases hstage : stage s.numAccepts with
    | accepting | accepted _ => rfl
    | _ =>
      rw [hstage] at haccepts
      cases haccepts
  · obtain ⟨k, hk, hunfinished⟩ := count_pos.1 (h.unfinished ▸ hpos)
    have hused : stage k ≠ .unused := fun hunused => by
      have := (h.unused k).1 hunused
      omega
    refine ⟨k, ?_⟩
    cases hstage : stage k with
    | unused => exact absurd hstage hused
    | finished cfd fileFd =>
      rw [hstage] at hunfinished
      cases hunfinished
    | _ => exact ⟨_, rfl⟩

theorem Stage.pending_unique (stage : Stage) (sfd : Int) (k : Nat) :
    ∀ x ∈ (stage.pending sfd k).toList, ∀ y ∈ (stage.pending sfd k).toList, x = y := by
  intro x hx y hy
  rw [Option.mem_toList] at hx hy
  exact Option.some.inj (hx.symm.trans hy)

/-- A slot has one operation at a time. -/
theorem Inv.nodup_outstanding (h : Inv sfd numReqs stage steps s) : (s.outstanding.map Sqe.userData).Nodup :=
  h.outstanding.nodup_map (fun _ _ hx => Stage.userData_of_pending (Option.mem_toList.1 hx))
    fun k => (stage k).pending_unique sfd k

/-- **Every slot has its four operations**, in every order of completions: one after the other, one `ACCEPT` at a time,
and the loop ends when they are all done. -/
theorem protocol (hpos : 1 ≤ numReqs) {l : List Action} (hrun : run (step sfd) (start sfd numReqs) l = some s) :
    Protocol sfd numReqs l.length s := by
  obtain ⟨steps, ⟨stage, h, hawaits⟩, hlength⟩ := consistent_run hpos hrun
  refine
    { accepts := ?_
      slots := ?_
      order := fun k => ?_
      bound := fun k hk => ?_
      sends := h.sends
      finished := fun hend => ⟨?_, ?_, fun k hk => ?_⟩
      waits := fun hreqs _ hnil => ?_
      length_le := ?_ }
  · refine h.outstanding.countP_le_one (i := s.numAccepts) (fun j x hx hop => ?_) (Stage.pending_unique _ sfd _)
    exact h.accepts j (Stage.accepts_of_pending (Option.mem_toList.1 hx) (of_decide_eq_true hop))
  · exact h.nodup_outstanding
  · rw [(h.slot k).submitted, (h.slot k).accepted]
    exact (stage k).submitted_operations sfd k
  · rw [(h.slot k).submitted, (h.unused k).2 (.inr hk)]
    rfl
  · apply h.outstanding.eq_nil
    intro k
    rw [(h.idle hend k).1]
    rfl
  · apply h.fds.eq_nil
    intro k
    exact (h.idle hend k).2
  · have hfinished := h.all_finished hend k
    rw [if_pos hk] at hfinished
    obtain ⟨cfd, fileFd, hstage⟩ := hfinished
    refine ⟨cfd, fileFd, ?_⟩
    rw [(h.slot k).submitted, hstage]
    rfl
  · obtain ⟨k, sqe, hpending⟩ := h.exists_pending hawaits hreqs
    have hmem := (h.outstanding.mem_iff sqe).2 ⟨k, Option.mem_toList.2 hpending⟩
    rw [hnil] at hmem
    cases hmem
  · have hleft := h.left
    have hexits : s.exits ≤ 1 := by
      unfold State.exits
      split <;> omega
    omega

/-- Two connections that ask for empty files.  The second one is accepted while the first one is received, and is
served first. -/
def twoRequests : List Action :=
  [.complete ⟨.ACCEPT, 3, 1⟩ 5 [], .turn (-1), .complete ⟨.ACCEPT, 3, 0⟩ 6 [], .complete ⟨.RECV, 5, 1⟩ 1 [97],
    .turn (-1), .complete ⟨.RECV, 6, 0⟩ 1 [98], .turn 7, .turn 8, .complete ⟨.READ, 8, 0⟩ 0 [], .turn (-1),
    .complete ⟨.READ, 7, 1⟩ 0 [], .complete ⟨.SEND, 6, 0⟩ 8192 [], .turn (-1), .turn (-1),
    .complete ⟨.SEND, 5, 1⟩ 8192 [], .turn (-1)]

theorem twoRequests_protocol :
    ∃ s, run (step 3) (start 3 2) twoRequests = some s ∧ s.numReqs = 0 ∧ s.submitted 1 = operations 3 1 5 7 ∧
      s.submitted 0 = operations 3 0 6 8 ∧ Protocol 3 2 16 s :=
  ⟨_, rfl, rfl, rfl, rfl, protocol (l := twoRequests) (Nat.le_succ 1) rfl⟩

end OstepHw.IoUring
