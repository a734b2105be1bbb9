import OstepHw.EventServer.IoUring

/-!
# The `io_uring` server: what is sent

The buffer of a slot takes the name of the file, and then its content.  `prep_read` clears it in between, but not in
the build with `NO_DUP_ZERO`, which is the one in `IoUring`.

* `Turned`, `turn_effect` — what a turn of the loop does to the buffers and the operations;
* `filled_run` — after any run, in any order of completions, the buffer of each slot is known from its operations;
* `connection`, `clearing_buf` — one connection with nothing in between, and what the other build sends;
* `response_iff` — **the names and contents for which the right bytes are sent**.
-/

set_option autoImplicit false

namespace OstepHw.IoUring

open Machine Ownership

/-- The buffer when `bytes` come into it. -/
def overlay (bytes buf : List UInt8) : List UInt8 := bytes ++ buf.drop bytes.length

def zeros : List UInt8 := List.replicate BUFSIZ 0

/-- What the operation `opcode` of slot `k` was completed with. -/
def bytesOf (opcode : Opcode) (k : Nat) (l : List Action) : List UInt8 :=
  (l.reverse.findSome? fun a =>
    match a with
    | .complete sqe _ bytes => if sqe.opcode = opcode ∧ sqe.userData = k then some bytes else none
    | .turn _ => none).getD []

/-- The buffer of slot `k` when `SEND` is submitted. -/
def sent (k : Nat) (l : List Action) : List UInt8 := overlay (bytesOf .READ k l) (overlay (bytesOf .RECV k l) zeros)

theorem bytesOf_turn (opcode : Opcode) (k : Nat) (l : List Action) (fileFd : Int) :
    bytesOf opcode k (l ++ [.turn fileFd]) = bytesOf opcode k l := by
  rw [bytesOf, List.reverse_append]
  rfl

theorem bytesOf_complete_self (l : List Action) (sqe : Sqe) (res : Int) (bytes : List UInt8) :
    bytesOf sqe.opcode sqe.userData (l ++ [.complete sqe res bytes]) = bytes := by
  simp [bytesOf]

theorem bytesOf_complete_of_ne {opcode : Opcode} {k : Nat} {sqe : Sqe} (hne : sqe.opcode = opcode → sqe.userData ≠ k)
    (l : List Action) (res : Int) (bytes : List UInt8) :
    bytesOf opcode k (l ++ [.complete sqe res bytes]) = bytesOf opcode k l := by
  have hno : ¬(sqe.opcode = opcode ∧ sqe.userData = k) := fun h => hne h.1 h.2
  simp [bytesOf, hno]

/-! ## What the operations of a slot know -/

/-- While an operation is submitted and not completed. -/
def Before (k : Nat) (l : List Action) (buf : List UInt8) : Opcode → Prop
  | .RECV => buf = zeros
  | .READ => buf = overlay (bytesOf .RECV k l) zeros
  | _ => True

/-- After an operation is completed. -/
def After (k : Nat) (l : List Action) (buf : List UInt8) : Opcode → Prop
  | .RECV => buf = overlay (bytesOf .RECV k l) zeros
  | .READ => buf = sent k l
  | _ => True

/-- The buffer of slot `k` after the actions `l`. -/
structure Filled (k : Nat) (l : List Action) (s : State) : Prop where
  before : ∀ sqe ∈ s.inFlight, sqe.userData = k → Before k l (s.dataArr k).buf sqe.opcode
  after : ∀ sqe ∈ s.cq.map Cqe.sqe, sqe.userData = k → After k l (s.dataArr k).buf sqe.opcode
  sends : ∀ sqe ∈ s.submitted k, sqe.opcode = .SEND → (s.dataArr k).buf = sent k l

variable {sfd : Int} {numReqs steps k : Nat} {stage : Nat → Stage} {s s' : State} {l : List Action}

/-- A slot has one operation at a time. -/
theorem eq_of_outstanding (h : (s.outstanding.map Sqe.userData).Nodup) {x y : Sqe} (hx : x ∈ s.outstanding)
    (hy : y ∈ s.outstanding) (hxy : x.userData = y.userData) : x = y :=
  List.inj_on_of_nodup_map h hx hy hxy

theorem ne_of_completed (h : (s.outstanding.map Sqe.userData).Nodup) {x y : Sqe} (hx : x ∈ s.inFlight)
    (hy : y ∈ s.cq.map Cqe.sqe) : x.userData ≠ y.userData := by
  rw [State.outstanding, List.map_append, List.nodup_append] at h
  exact h.2.2 _ (List.mem_map_of_mem hx) _ (List.mem_map_of_mem hy)

/-- As long as another operation of the slot is outstanding, nothing is sent. -/
theorem Inv.not_sent (h : Inv sfd numReqs stage steps s) {x : Sqe} (hx : x ∈ s.outstanding) (hop : x.opcode ≠ .SEND)
    {y : Sqe} (hy : y ∈ s.submitted x.userData) : y.opcode ≠ .SEND := by
  have hpending := h.of_mem_outstanding hx
  rw [(h.slot x.userData).submitted] at hy
  cases hstage : stage x.userData with
  | unused | finished _ _ =>
    rw [hstage] at hpending
    cases hpending
  | sending _ _ =>
    rw [hstage] at hpending
    exact absurd (congrArg Sqe.opcode (Option.some.inj hpending)).symm hop
  | accepting | accepted _ | receiving _ | reading _ _ =>
    rw [hstage] at hy
    rintro hsend
    simp only [Stage.submitted, List.mem_cons, List.not_mem_nil, or_false] at hy
    rcases hy with rfl | rfl | rfl <;> cases hsend

/-! ## Completions -/

theorem complete_fields (s : State) (sqe : Sqe) (res : Int) (bytes : List UInt8) :
    (s.complete sqe res bytes).dataArr =
        Function.update s.dataArr sqe.userData
          { s.dataArr sqe.userData with buf := overlay bytes (s.dataArr sqe.userData).buf } ∧
      (s.complete sqe res bytes).inFlight = s.inFlight.erase sqe ∧
      (s.complete sqe res bytes).cq = s.cq ++ [⟨sqe, res⟩] ∧
      (s.complete sqe res bytes).submitted = s.submitted := by
  unfold State.complete
  dsimp only
  split <;> exact ⟨rfl, rfl, rfl, rfl⟩

/-- The bytes that an operation brings, and what they leave of the others. -/
theorem before_complete {buf bytes : List UInt8} {sqe : Sqe} {res : Int} {opcode : Opcode}
    (hne : opcode = .READ → sqe.opcode = .RECV → sqe.userData ≠ k) (h : Before k l buf opcode) :
    Before k (l ++ [.complete sqe res bytes]) buf opcode := by
  cases opcode with
  | READ =>
    unfold Before at h ⊢
    rw [bytesOf_complete_of_ne (hne rfl), h]
  | RECV => exact h
  | _ => trivial

theorem sent_complete_of_ne {sqe : Sqe} (hne : sqe.opcode = .RECV ∨ sqe.opcode = .READ → sqe.userData ≠ k) (res : Int)
    (bytes : List UInt8) : sent k (l ++ [.complete sqe res bytes]) = sent k l := by
  rw [sent, bytesOf_complete_of_ne fun h => hne (.inr h), bytesOf_complete_of_ne fun h => hne (.inl h)]
  rfl

theorem after_complete {buf bytes : List UInt8} {sqe : Sqe} {res : Int} {opcode : Opcode}
    (hne : sqe.opcode = .RECV ∨ sqe.opcode = .READ → sqe.userData ≠ k) (h : After k l buf opcode) :
    After k (l ++ [.complete sqe res bytes]) buf opcode := by
  cases opcode with
  | READ =>
    unfold After at h ⊢
    rw [sent_complete_of_ne hne, h]
  | RECV =>
    unfold After at h ⊢
    rw [bytesOf_complete_of_ne fun hop => hne (.inl hop), h]
  | _ => trivial

/-- **A completion** of another slot, or of an operation that brings no bytes. -/
theorem Filled.complete_other (h : Filled k l s) {sqe : Sqe} {res : Int} {bytes : List UInt8}
    (hne : sqe.opcode = .RECV ∨ sqe.opcode = .READ → sqe.userData ≠ k)
    (hpossible : Possible s.fds sqe.opcode res bytes) :
    Filled k (l ++ [.complete sqe res bytes]) (s.complete sqe res bytes) := by
  obtain ⟨hdata, hflight, hcq, hsubmitted⟩ := complete_fields s sqe res bytes
  have hbuf : ((s.complete sqe res bytes).dataArr k).buf = (s.dataArr k).buf := by
    rw [hdata]
    by_cases hk : k = sqe.userData
    · have hempty : bytes = [] := by
        have hlength := hpossible.2.1
        rw [if_neg fun hop => hne hop hk.symm] at hlength
        exact List.length_eq_zero_iff.1 hlength
      rw [hk, Function.update_self, hempty]
      rfl
    · rw [Function.update_of_ne hk]
  refine ⟨fun x hx hxk => ?_, fun x hx hxk => ?_, fun x hx hop => ?_⟩
  · rw [hflight] at hx
    rw [hbuf]
    exact before_complete (fun _ hop => hne (.inl hop)) (h.before x (List.mem_of_mem_erase hx) hxk)
  · rw [hcq, List.map_append, List.mem_append] at hx
    rw [hbuf]
    rcases hx with hx | hx
    · exact after_complete hne (h.after x hx hxk)
    · obtain rfl := List.mem_singleton.1 hx
      cases hop : x.opcode with
      | RECV => exact absurd hxk (hne (.inl hop))
      | READ => exact absurd hxk (hne (.inr hop))
      | _ => trivial
  · rw [hsubmitted] at hx
    rw [hbuf, sent_complete_of_ne hne]
    exact h.sends x hx hop

/-- **A completion** that brings bytes: the operation has been the only one of its slot. -/
theorem Filled.complete_self (h : Filled k l s) (hinv : Inv sfd numReqs stage steps s) {sqe : Sqe} {res : Int}
    {bytes : List UInt8} (hnodup : ((s.complete sqe res bytes).outstanding.map Sqe.userData).Nodup)
    (hmem : sqe ∈ s.inFlight) (hop : sqe.opcode = .RECV ∨ sqe.opcode = .READ) (hk : sqe.userData = k) :
    Filled k (l ++ [.complete sqe res bytes]) (s.complete sqe res bytes) := by
  obtain ⟨hdata, hflight, hcq, hsubmitted⟩ := complete_fields s sqe res bytes
  have hbuf : ((s.complete sqe res bytes).dataArr k).buf = overlay bytes (s.dataArr k).buf := by
    rw [hdata, ← hk, Function.update_self]
  have hdone : sqe ∈ (s.complete sqe res bytes).cq.map Cqe.sqe := by
    rw [hcq, List.map_append]
    exact List.mem_append_right _ (List.mem_singleton_self sqe)
  have hbefore := h.before sqe hmem hk
  refine ⟨fun x hx hxk => ?_, fun x hx hxk => ?_, fun x hx hsend => ?_⟩
  · exact absurd (hxk.trans hk.symm) (ne_of_completed hnodup hx hdone)
  · obtain rfl := eq_of_outstanding hnodup (List.mem_append_right _ hx) (List.mem_append_right _ hdone)
      (hxk.trans hk.symm)
    have hself := bytesOf_complete_self l x res bytes
    rw [hbuf]
    rw [hk] at hself
    rcases hop with hop | hop
    · rw [hop] at hbefore hself ⊢
      unfold Before at hbefore
      unfold After
      rw [hself, hbefore]
    · have hname : bytesOf .RECV k (l ++ [.complete x res bytes]) = bytesOf .RECV k l :=
        bytesOf_complete_of_ne (fun hrecv => by rw [hop] at hrecv; cases hrecv) ..
      rw [hop] at hbefore hself ⊢
      unfold Before at hbefore
      unfold After sent
      rw [hself, hname, hbefore]
  · rw [hsubmitted, ← hk] at hx
    have hother : sqe.opcode ≠ .SEND := by
      rcases hop with hop | hop <;> rw [hop] <;> exact Opcode.noConfusion
    exact absurd hsend (hinv.not_sent (List.mem_append_left _ hmem) hother hx)

/-! ## Turns of the loop -/

/-- What a turn does: only a new connection clears its buffer, and each operation is followed by the next one. -/
structure Turned (cqe : Cqe) (s s' : State) : Prop where
  buf : ∀ k, (s'.dataArr k).buf =
    if cqe.sqe.opcode = .ACCEPT ∧ cqe.sqe.userData = k then zeros else (s.dataArr k).buf
  inFlight : ∀ x ∈ s'.inFlight, x ∈ s.inFlight ∨ x.opcode = .ACCEPT ∨ x.opcode = .SEND ∨
    x.userData = cqe.sqe.userData ∧
      (x.opcode = .RECV ∧ cqe.sqe.opcode = .ACCEPT ∨ x.opcode = .READ ∧ cqe.sqe.opcode = .RECV)
  submitted : ∀ k, ∀ x ∈ s'.submitted k, x ∈ s.submitted k ∨ x.opcode ≠ .SEND ∨
    cqe.sqe.opcode = .READ ∧ cqe.sqe.userData = k
  cq : s'.cq = s.cq

/-- The submitted operations, with one more. -/
theorem mem_submit {f : Nat → List Sqe} {j k : Nat} {x y : Sqe} (hx : x ∈ Function.update f j (f j ++ [y]) k) :
    x ∈ f k ∨ j = k ∧ x = y := by
  by_cases hk : k = j
  · subst hk
    rw [Function.update_self, List.mem_append, List.mem_singleton] at hx
    exact hx.imp_right fun hxy => ⟨rfl, hxy⟩
  · rw [Function.update_of_ne hk] at hx
    exact .inl hx

/-- A slot changes, but not its buffer. -/
theorem buf_update (dataArr : Nat → UserData) (j : Nat) {data : UserData} (hbuf : data.buf = (dataArr j).buf)
    (k : Nat) :
    (Function.update dataArr j data k).buf = (dataArr k).buf := by
  by_cases hk : k = j
  · rw [hk, Function.update_self, hbuf]
  · rw [Function.update_of_ne hk]

/-- One more `ACCEPT` does not matter. -/
theorem Turned.prepAccept {cqe : Cqe} (h : Turned cqe s s') : Turned cqe s (prepAccept sfd s') := by
  refine ⟨fun k => ?_, fun x hx => ?_, fun k x hx => ?_, h.cq⟩
  · rw [← h.buf k]
    refine buf_update s'.dataArr (s'.numAccepts - 1) ?_ k
    rfl
  · rcases List.mem_append.1 hx with hx | hx
    · exact h.inFlight x hx
    · rw [List.mem_singleton.1 hx]
      exact .inr (.inl rfl)
  · rcases mem_submit hx with hx | ⟨-, rfl⟩
    · exact h.submitted k x hx
    · exact .inr (.inl Opcode.noConfusion)

theorem turned_accept {cqe : Cqe} (hop : cqe.sqe.opcode = .ACCEPT) (cfd : Int) :
    Turned cqe s (prepRecv sfd s cfd cqe.sqe.userData) := by
  have hfirst : Turned cqe s ((s.setData cqe.sqe.userData
      { s.dataArr cqe.sqe.userData with ioOp := .RECV, socketFd := cfd, buf := List.replicate BUFSIZ 0 }).submit
      ⟨.RECV, cfd, cqe.sqe.userData⟩) := by
    refine ⟨fun k => ?_, fun x hx => ?_, fun k x hx => ?_, rfl⟩
    · change (Function.update s.dataArr cqe.sqe.userData _ k).buf = _
      by_cases hk : cqe.sqe.userData = k
      · rw [if_pos ⟨hop, hk⟩, hk, Function.update_self]
        rfl
      · rw [if_neg fun h => hk h.2, Function.update_of_ne (Ne.symm hk)]
    · rcases List.mem_append.1 hx with hx | hx
      · exact .inl hx
      · rw [List.mem_singleton.1 hx]
        exact .inr (.inr (.inr ⟨rfl, .inl ⟨rfl, hop⟩⟩))
    · rcases mem_submit hx with hx | ⟨-, rfl⟩
      · exact .inl hx
      · exact .inr (.inl Opcode.noConfusion)
  unfold prepRecv
  dsimp only
  split
  · exact hfirst.prepAccept
  · exact hfirst

theorem turned_recv {cqe : Cqe} (hop : cqe.sqe.opcode = .RECV) {fileFd : Int} (hfd : fileFd ≠ -1) :
    Turned cqe s (prepRead s cqe.sqe.userData fileFd) := by
  rw [prepRead, if_neg hfd]
  refine ⟨fun k => ?_, fun x hx => ?_, fun k x hx => ?_, rfl⟩
  · rw [if_neg fun h => by rw [hop] at h; cases h.1]
    refine buf_update s.dataArr cqe.sqe.userData ?_ k
    rfl
  · rcases List.mem_append.1 hx with hx | hx
    · exact .inl hx
    · rw [List.mem_singleton.1 hx]
      exact .inr (.inr (.inr ⟨rfl, .inr ⟨rfl, hop⟩⟩))
  · rcases mem_submit hx with hx | ⟨-, rfl⟩
    · exact .inl hx
    · exact .inr (.inl Opcode.noConfusion)

theorem turned_read {cqe : Cqe} (hop : cqe.sqe.opcode = .READ) : Turned cqe s (prepSend s cqe.sqe.userData) := by
  refine ⟨fun k => ?_, fun x hx => ?_, fun k x hx => ?_, rfl⟩
  · rw [if_neg fun h => by rw [hop] at h; cases h.1]
    refine buf_update s.dataArr cqe.sqe.userData ?_ k
    rfl
  · rcases List.mem_append.1 hx with hx | hx
    · exact .inl hx
    · rw [List.mem_singleton.1 hx]
      exact .inr (.inr (.inl rfl))
  · rcases mem_submit hx with hx | ⟨hk, -⟩
    · exact .inl hx
    · exact .inr (.inr ⟨hop, hk⟩)

/-- **A turn of the loop** that does not end the program. -/
theorem turn_effect (h : Inv sfd numReqs stage steps s) {cqe : Cqe} (hcqe : cqe ∈ s.cq) {fileFd : Int}
    (hrunning : (dispatch sfd s cqe fileFd).exited = false) : Turned cqe s (dispatch sfd s cqe fileFd) := by
  obtain ⟨⟨opcode, fd, k⟩, res⟩ := cqe
  have hpending : (stage k).pending sfd k = some ⟨opcode, fd, k⟩ :=
    h.of_mem_outstanding (List.mem_append_right _ (List.mem_map_of_mem hcqe))
  have hslot := (h.slot k).data
  unfold dispatch at hrunning ⊢
  by_cases hres : res < 0
  · rw [if_pos hres] at hrunning
    cases hrunning
  rw [if_neg hres] at hrunning ⊢
  dsimp only at hrunning ⊢
  cases hstage : stage k with
  | unused | finished _ _ =>
    rw [hstage] at hpending
    cases hpending
  | accepting | accepted _ =>
    rw [hstage] at hpending hslot
    cases hpending
    rw [hslot.2, hslot.1]
    exact turned_accept rfl res
  | receiving cfd =>
    rw [hstage] at hpending hslot
    cases hpending
    rw [hslot.2.1, hslot.1] at hrunning ⊢
    refine turned_recv rfl fun hfd => ?_
    rw [prepRead, if_pos hfd] at hrunning
    cases hrunning
  | reading cfd otherFd =>
    rw [hstage] at hpending hslot
    cases hpending
    rw [hslot.2.1, hslot.1]
    exact turned_read rfl
  | sending cfd otherFd =>
    rw [hstage] at hpending hslot
    cases hpending
    rw [hslot.2.1, hslot.1]
    exact ⟨fun k => (if_neg fun h => by cases h.1).symm, fun x hx => .inl hx, fun k x hx => .inl hx, rfl⟩

theorem sent_turn (k : Nat) (l : List Action) (fileFd : Int) : sent k (l ++ [.turn fileFd]) = sent k l := by
  rw [sent, bytesOf_turn, bytesOf_turn]
  rfl

theorem before_turn (buf : List UInt8) (opcode : Opcode) (fileFd : Int) :
    Before k (l ++ [.turn fileFd]) buf opcode = Before k l buf opcode := by
  cases opcode <;> simp only [Before, bytesOf_turn]

theorem after_turn (buf : List UInt8) (opcode : Opcode) (fileFd : Int) :
    After k (l ++ [.turn fileFd]) buf opcode = After k l buf opcode := by
  cases opcode <;> simp only [After, sent_turn, bytesOf_turn]

/-- A turn that ends the program. -/
theorem Filled.exit (h : Filled k l s) (fileFd : Int) : Filled k (l ++ [.turn fileFd]) s.exit := by
  refine ⟨fun x hx hxk => ?_, fun x hx hxk => ?_, fun x hx hop => ?_⟩
  · rw [before_turn]
    exact h.before x hx hxk
  · rw [after_turn]
    exact h.after x hx hxk
  · rw [sent_turn]
    exact h.sends x hx hop

/-- The buffer is cleared only when nothing else of the slot is outstanding. -/
theorem Turned.kept {cqe : Cqe} {rest : List Cqe} (hturned : Turned cqe s s')
    (hnodup : (s.outstanding.map Sqe.userData).Nodup) (hcq : s.cq = cqe :: rest) {x : Sqe}
    (hx : x ∈ s.inFlight ∨ x ∈ rest.map Cqe.sqe) :
    (s'.dataArr x.userData).buf = (s.dataArr x.userData).buf := by
  rw [hturned.buf, if_neg]
  rintro ⟨-, hsame⟩
  rcases hx with hx | hx
  · have hcqe : cqe.sqe ∈ s.cq.map Cqe.sqe := by
      rw [hcq]
      exact List.mem_cons_self
    exact ne_of_completed hnodup hx hcqe hsame.symm
  · rw [State.outstanding, hcq, List.map_append, List.map_cons, List.map_cons] at hnodup
    have hrest := (List.nodup_cons.1 (List.nodup_append.1 hnodup).2.1).1
    exact hrest (hsame ▸ List.mem_map_of_mem hx)

/-- A turn for any slot. -/
theorem Filled.turn (h : Filled k l s) (hinv : Inv sfd numReqs stage steps s) {cqe : Cqe} {rest : List Cqe}
    (hcq : s.cq = cqe :: rest) (hturned : Turned cqe s s') (fileFd : Int) :
    Filled k (l ++ [.turn fileFd]) (s'.cqeSeen cqe) := by
  have hcqe : cqe.sqe ∈ s.cq.map Cqe.sqe := by
    rw [hcq]
    exact List.mem_cons_self
  have hkept {x : Sqe} (hx : x ∈ s.inFlight ∨ x ∈ rest.map Cqe.sqe) (hxk : x.userData = k) :
      (s'.dataArr k).buf = (s.dataArr k).buf := hxk ▸ hturned.kept hinv.nodup_outstanding hcq hx
  have hrestcq : (s'.cqeSeen cqe).cq = rest := by
    change s'.cq.tail = rest
    rw [hturned.cq, hcq, List.tail_cons]
  refine ⟨fun x hx hxk => ?_, fun x hx hxk => ?_, fun x hx hop => ?_⟩
  · rcases hturned.inFlight x hx with hx | hop | hop | ⟨huser, ⟨hop, hcop⟩ | ⟨hop, hcop⟩⟩
    · rw [before_turn]
      change Before k l (s'.dataArr k).buf x.opcode
      rw [hkept (.inl hx) hxk]
      exact h.before x hx hxk
    · rw [hop]
      trivial
    · rw [hop]
      trivial
    · rw [hop]
      change (s'.dataArr k).buf = zeros
      rw [hturned.buf, if_pos ⟨hcop, huser.symm.trans hxk⟩]
    · rw [hop]
      change (s'.dataArr k).buf = overlay (bytesOf .RECV k (l ++ [.turn fileFd])) zeros
      have hafter := h.after cqe.sqe hcqe (huser.symm.trans hxk)
      rw [hcop] at hafter
      rw [bytesOf_turn, hturned.buf, if_neg fun h => by rw [hcop] at h; cases h.1]
      exact hafter
  · rw [hrestcq] at hx
    rw [after_turn]
    change After k l (s'.dataArr k).buf x.opcode
    rw [hkept (.inr hx) hxk]
    refine h.after x ?_ hxk
    rw [hcq, List.map_cons]
    exact List.mem_cons_of_mem _ hx
  · change (s'.dataArr k).buf = _
    rw [sent_turn, hturned.buf]
    rcases hturned.submitted k x hx with hx | hno | ⟨hcop, hck⟩
    · rw [if_neg]
      · exact h.sends x hx hop
      · rintro ⟨hcop, rfl⟩
        exact hinv.not_sent (List.mem_append_right _ hcqe) (by rw [hcop]; exact Opcode.noConfusion) hx hop
    · exact absurd hop hno
    · have hafter := h.after cqe.sqe hcqe hck
      rw [hcop] at hafter
      rw [if_neg fun h => by rw [hcop] at h; cases h.1]
      exact hafter

/-! ## Runs -/

theorem filled_start (hpos : 1 ≤ numReqs) (k : Nat) : Filled k [] (start sfd numReqs) := by
  obtain ⟨stage, hinv, -⟩ := consistent_start hpos sfd
  refine ⟨fun x hx hxk => ?_, fun x hx hxk => ?_, fun x hx hop => ?_⟩
  · rw [List.mem_singleton.1 (show x ∈ [_] from hx)]
    trivial
  · cases hx
  · rcases mem_submit hx with hx | ⟨-, rfl⟩
    · cases hx
    · cases hop

/-- **After any run** the buffer of each slot is what its operations have left. -/
theorem filled_run (hpos : 1 ≤ numReqs) (k : Nat) (hrun : run (step sfd) (start sfd numReqs) l = some s) :
    Filled k l s := by
  refine run_induction (P := fun l s => Filled k l s) (filled_start hpos k) (fun l m a m' hm h hstep => ?_) hrun
  obtain ⟨steps, ⟨stage, hinv, -⟩, -⟩ := consistent_run hpos hm
  obtain ⟨_, ⟨_, hinv', -⟩, -⟩ := consistent_run hpos (run_concat.2 ⟨m, hm, hstep⟩)
  cases a with
  | complete sqe res bytes =>
    simp only [IoUring.step, Option.ite_none_right_eq_some, Option.some.injEq] at hstep
    obtain ⟨⟨hmem, hpossible⟩, rfl⟩ := hstep
    by_cases hbrings : (sqe.opcode = .RECV ∨ sqe.opcode = .READ) ∧ sqe.userData = k
    · exact h.complete_self hinv hinv'.nodup_outstanding hmem hbrings.1 hbrings.2
    · exact h.complete_other (fun hop hk => hbrings ⟨hop, hk⟩) hpossible
  | turn fileFd =>
    simp only [IoUring.step, Option.ite_none_right_eq_some] at hstep
    obtain ⟨⟨hrunning, -, -⟩, hstep⟩ := hstep
    cases hcq : m.cq with
    | nil =>
      rw [hcq] at hstep
      cases hstep
    | cons cqe rest =>
      rw [hcq] at hstep
      obtain rfl := Option.some.inj hstep
      split
      · next hexited =>
        rw [dispatch_exited hrunning hexited]
        exact h.exit fileFd
      · next hexited =>
        have hturned := turn_effect hinv (hcq ▸ List.mem_cons_self) (Bool.eq_false_iff.2 hexited)
        exact h.turn hinv hcq hturned fileFd

/-! ## The two builds -/

/-- `prep_read` without `NO_DUP_ZERO`. -/
def clearingPrepRead (s : State) (index : Nat) (fileFd : Int) : State :=
  if fileFd = -1 then s.exit
  else
    let s := { s with fds := fileFd :: s.fds }
    (s.setData index
      { s.dataArr index with ioOp := .READ, fileFd := fileFd, buf := List.replicate BUFSIZ 0 }).submit
      ⟨.READ, fileFd, index⟩

/-- One connection in a build with this `prep_read`: a name comes in, and the content of the file. -/
def connection (prepRead : State → Nat → Int → State) (sfd : Int) (s : State) (cfd : Int) (k : Nat) (fileFd : Int)
    (name content : List UInt8) : State :=
  let s := prepRecv sfd s cfd k
  let s := s.complete ⟨.RECV, cfd, k⟩ name.length name
  let s := prepRead s k fileFd
  let s := s.complete ⟨.READ, fileFd, k⟩ content.length content
  prepSend s k

variable {cfd fileFd : Int} {name content : List UInt8}

theorem complete_buf (s : State) (sqe : Sqe) (res : Int) (bytes : List UInt8) :
    ((s.complete sqe res bytes).dataArr sqe.userData).buf = overlay bytes (s.dataArr sqe.userData).buf := by
  rw [(complete_fields s sqe res bytes).1, Function.update_self]

/-- What is sent depends on the buffer into which the file is read. -/
theorem connection_buf {prepRead : State → Nat → Int → State} (f : List UInt8 → List UInt8)
    (hread : ∀ s : State, ((prepRead s k fileFd).dataArr k).buf = f (s.dataArr k).buf) (s : State) :
    ((connection prepRead sfd s cfd k fileFd name content).dataArr k).buf =
      overlay content (f (overlay name zeros)) := by
  have hrecv : ((prepRecv sfd s cfd k).dataArr k).buf = zeros := by
    have hturned : Turned ⟨⟨.ACCEPT, sfd, k⟩, cfd⟩ s (prepRecv sfd s cfd k) := turned_accept rfl cfd
    rw [hturned.buf, if_pos ⟨rfl, rfl⟩]
  have hsend (s : State) : ((prepSend s k).dataArr k).buf = (s.dataArr k).buf := by
    refine buf_update s.dataArr k ?_ k
    rfl
  unfold connection
  rw [hsend, complete_buf _ ⟨.READ, fileFd, k⟩, hread, complete_buf _ ⟨.RECV, cfd, k⟩, hrecv]

theorem prepRead_buf (hfd : fileFd ≠ -1) (s : State) :
    ((prepRead s k fileFd).dataArr k).buf = (s.dataArr k).buf := by
  rw [prepRead, if_neg hfd]
  refine buf_update s.dataArr k ?_ k
  rfl

/-- Cleared in between, the buffer has the content and zeros. -/
theorem clearing_buf (hfd : fileFd ≠ -1) (s : State) :
    ((connection clearingPrepRead sfd s cfd k fileFd name content).dataArr k).buf = overlay content zeros := by
  refine connection_buf (fun _ => zeros) (fun s => ?_) s
  rw [clearingPrepRead, if_neg hfd]
  change (Function.update s.dataArr k _ k).buf = _
  rw [Function.update_self]
  rfl

theorem over_zeros (bytes : List UInt8) : overlay bytes zeros = bytes ++ List.replicate (BUFSIZ - bytes.length) 0 := by
  rw [overlay, zeros, List.drop_replicate]

/-- The content covers the name, or the rest of the name is left. -/
theorem over_over_eq_iff (hname : 0 ∉ name) :
    overlay content (overlay name zeros) = overlay content zeros ↔ name.length ≤ content.length := by
  unfold overlay
  rw [List.append_cancel_left_eq]
  constructor
  · intro heq
    by_contra hlong
    have hlt : content.length < name.length := Nat.lt_of_not_le hlong
    have hfirst : name[content.length] ∈ List.drop content.length zeros := by
      rw [← heq, List.drop_append_of_le_length (Nat.le_of_lt hlt), List.drop_eq_getElem_cons hlt]
      exact List.mem_append_left _ List.mem_cons_self
    have hzero : name[content.length] = 0 := List.eq_of_mem_replicate (List.mem_of_mem_drop hfirst)
    exact hname (hzero ▸ List.getElem_mem hlt)
  · intro hle
    rw [List.drop_append, List.drop_eq_nil_of_le hle, List.nil_append, List.drop_drop, Nat.add_sub_cancel' hle]

/-- The bytes that are sent are the right ones: the content and zeros, as the other build sends for the same name and
content. -/
structure Right (k : Nat) (l : List Action) (s : State) : Prop where
  content : (s.dataArr k).buf =
    bytesOf .READ k l ++ List.replicate (BUFSIZ - (bytesOf .READ k l).length) 0
  builds : ∀ sfd s₀ cfd fileFd, fileFd ≠ -1 →
    (s.dataArr k).buf =
      ((connection clearingPrepRead sfd s₀ cfd k fileFd (bytesOf .RECV k l) (bytesOf .READ k l)).dataArr k).buf

/-- This build does for a connection what a run does. -/
theorem run_buf_eq_connection (hpos : 1 ≤ numReqs) (hrun : run (step sfd) (start sfd numReqs) l = some s)
    (hsend : ⟨.SEND, cfd, k⟩ ∈ s.submitted k) (hfd : fileFd ≠ -1) (s₀ : State) :
    (s.dataArr k).buf =
      ((connection prepRead sfd s₀ cfd k fileFd (bytesOf .RECV k l) (bytesOf .READ k l)).dataArr k).buf := by
  rw [connection_buf id (prepRead_buf hfd)]
  exact (filled_run hpos k hrun).sends _ hsend rfl

/-- **The right bytes are sent** exactly if the content is at least as long as the name: in every run, to every
connection. -/
theorem response_iff (hpos : 1 ≤ numReqs) (hrun : run (step sfd) (start sfd numReqs) l = some s) {k : Nat}
    (hsend : ⟨.SEND, cfd, k⟩ ∈ s.submitted k) (hname : 0 ∉ bytesOf .RECV k l) :
    Right k l s ↔ (bytesOf .RECV k l).length ≤ (bytesOf .READ k l).length := by
  have hbuf : (s.dataArr k).buf = sent k l := (filled_run hpos k hrun).sends _ hsend rfl
  rw [← over_over_eq_iff hname]
  constructor
  · intro hright
    rw [over_zeros (bytesOf .READ k l)]
    exact hbuf.symm.trans hright.content
  · intro heq
    have hright := hbuf.trans heq
    refine ⟨by rw [hright, over_zeros], fun sfd s₀ cfd fileFd hfd => ?_⟩
    rw [hright, clearing_buf hfd]

/-- A connection that asks for the file `name` with this content, up to the submission of `SEND`. -/
def oneResponse (name content : List UInt8) : List Action :=
  [.complete ⟨.ACCEPT, 3, 0⟩ 5 [], .turn (-1), .complete ⟨.RECV, 5, 0⟩ name.length name, .turn 6,
    .complete ⟨.READ, 6, 0⟩ content.length content, .turn (-1)]

/-- The name `a` and the content `bc`. -/
theorem long_file_right : ∃ s, run (step 3) (start 3 1) (oneResponse [97] [98, 99]) = some s ∧
    Right 0 (oneResponse [97] [98, 99]) s := by
  have hrun : ∃ s, run (step 3) (start 3 1) (oneResponse [97] [98, 99]) = some s ∧ ⟨.SEND, 5, 0⟩ ∈ s.submitted 0 :=
    ⟨_, rfl, List.mem_of_getLast? rfl⟩
  obtain ⟨s, hrun, hsend⟩ := hrun
  exact ⟨s, hrun, (response_iff (Nat.le_refl 1) hrun hsend (by decide)).2 (by decide)⟩

/-- The name `ab` and the content `c`: what is sent begins with `cb`. -/
theorem short_file_wrong : ∃ s, run (step 3) (start 3 1) (oneResponse [97, 98] [99]) = some s ∧
    ⟨.SEND, 5, 0⟩ ∈ s.submitted 0 ∧ (s.dataArr 0).buf.take 2 = [99, 98] ∧
      ¬Right 0 (oneResponse [97, 98] [99]) s := by
  have hrun : ∃ s, run (step 3) (start 3 1) (oneResponse [97, 98] [99]) = some s ∧ ⟨.SEND, 5, 0⟩ ∈ s.submitted 0 :=
    ⟨_, rfl, List.mem_of_getLast? rfl⟩
  obtain ⟨s, hrun, hsend⟩ := hrun
  have hbuf : (s.dataArr 0).buf = sent 0 (oneResponse [97, 98] [99]) :=
    (filled_run (Nat.le_refl 1) 0 hrun).sends _ hsend rfl
  have htwo : (s.dataArr 0).buf.take 2 = [99, 98] := by
    rw [hbuf]
    rfl
  refine ⟨s, hrun, hsend, htwo, fun hright => ?_⟩
  rw [hright.content] at htwo
  exact absurd htwo (by decide)

end OstepHw.IoUring
