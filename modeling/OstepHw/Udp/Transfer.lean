import OstepHw.Udp.Model
import Mathlib.Data.List.Infix
import Mathlib.Tactic.Common

/-!
# Sending and reading datagrams

* `cstr_load_message`, `load_message` — what is sent of a message;
* `Sends`, `write_short`, `transmit_short` — a datagram of at most five bytes is repeated until it is
  acked, and then its own length takes the place of the running total;
* `sendPieces_spec` — the loop over the pieces;
* `readPieces_complete`, `udpRead_spec` — what the receiver makes of the datagrams between the two
  markers.
-/

set_option autoImplicit false

namespace OstepHw.Udp

open CString

variable {m : List UInt8} {beyond mem : Nat → UInt8}

/-! ## What is sent -/

theorem load_add (p : Ptr) (a b : Nat) : load mem p (a + b) = load mem p a ++ load mem (p.add a) b := by
  have hbyte : ∀ k, byteAt mem p (a + k) = byteAt mem (p.add a) k := by
    intro k
    unfold byteAt Ptr.add
    simp only [Nat.add_assoc]
  unfold load
  rw [List.range_add, List.map_append, List.map_map]
  congr 1
  apply List.map_congr_left
  intro k _
  exact hbyte k

theorem length_load (p : Ptr) (n : Nat) : (load mem p n).length = n := by simp [load]

/-- Up to its terminating zero the message is sent as it is. -/
theorem load_message {off len : Nat} (h : off + len ≤ m.length + 1) :
    load (memory m beyond) ⟨.message, off⟩ len = ((m ++ [0]).drop off).take len := by
  apply List.ext_getElem
  · simp only [length_load, List.length_take, List.length_drop, List.length_append,
      List.length_singleton]
    omega
  · intro i hi _
    rw [length_load] at hi
    have hlt : off + i < (m ++ [0]).length := by
      simp
      omega
    simp only [load, byteAt, memory, List.getElem_map, List.getElem_range, List.getElem_take,
      List.getElem_drop, List.getElem?_eq_getElem hlt, Option.getD_some]

/-- The string that starts inside the message ends with it. -/
theorem cstr_load_message (h0 : 0 ∉ m) {off : Nat} (h : off ≤ m.length) (k : Nat) :
    cstr (load (memory m beyond) ⟨.message, off⟩ k) = (m.drop off).take k := by
  have hfree : 0 ∉ m.drop off := fun hmem => h0 (List.mem_of_mem_drop hmem)
  by_cases hk : off + k ≤ m.length
  · rw [load_message (by omega), List.drop_append_of_le_length h,
      List.take_append_of_le_length (by simp; omega)]
    exact cstr_of_not_mem fun hmem => hfree (List.mem_of_mem_take hmem)
  · obtain ⟨b, rfl⟩ : ∃ b, k = (m.length - off + 1) + b := ⟨k - (m.length - off + 1), by omega⟩
    have hall : ((m ++ [0]).drop off).take (m.length - off + 1) = m.drop off ++ [0] := by
      rw [List.drop_append_of_le_length h, List.take_of_length_le (by simp)]
    rw [load_add, load_message (by omega), hall, List.append_assoc, List.singleton_append,
      cstr_append_zero hfree, List.take_of_length_le (by simp; omega)]

/-- A piece with at least four bytes to come is no ack. -/
theorem not_isAck_message (h0 : 0 ∉ m) {off : Nat} (h : off + 4 ≤ m.length) :
    isAck (memory m beyond) ⟨.message, off⟩ = false := by
  unfold isAck
  rw [cstr_load_message h0 (by omega), decide_eq_false_iff_not]
  intro heq
  have := congrArg List.length heq
  simp [ackStr] at this
  omega

/-! ## Repeating a datagram -/

/-- The datagram `buffer` of `len` bytes was sent once for each of `outs`, which are time-outs, and once
more. -/
structure Sends (buffer : Ptr) (len : Nat) (outs : List Outcome) (net net' : Net) : Prop where
  script : net.script = outs ++ .acked :: net'.script
  timeouts : .acked ∉ outs
  sent : net'.sent = net.sent ++ (outs ++ [Outcome.acked]).map (Send.mk buffer len)

section Transmit

variable {retry : Ptr → Nat → Net → Option (Nat × Net)} {buffer : Ptr} {len ret r : Nat}
  {net net' : Net}

/-- One `sendto` and what `wait_ack` does then. -/
theorem transmit_eq (hack : isAck mem buffer = false) :
    transmit retry mem buffer len ret net = some (r, net') ↔
      ∃ o script, net.script = o :: script ∧
        if o = .acked then r = ret + len ∧ net' = ⟨script, net.sent ++ [⟨buffer, len, .acked⟩]⟩
        else retry buffer len ⟨script, net.sent ++ [⟨buffer, len, o⟩]⟩ = some (r, net') := by
  unfold transmit sendto waitAck
  cases hs : net.script with
  | nil => simp
  | cons o script =>
    cases o <;> simp [hack, eq_comm]

/-- A string that looks like an ack is not waited for. -/
theorem transmit_of_isAck (hack : isAck mem buffer = true) :
    transmit retry mem buffer len ret net = some (r, net') ↔
      ∃ o script, net.script = o :: script ∧ r = ret + len ∧
        net' = ⟨script, net.sent ++ [⟨buffer, len, o⟩]⟩ := by
  unfold transmit sendto waitAck
  cases hs : net.script with
  | nil => simp
  | cons o script => simp [hack, eq_comm]

theorem Sends.acked {script : List Outcome} (hscript : net.script = .acked :: script) :
    Sends buffer len [] net ⟨script, net.sent ++ [⟨buffer, len, .acked⟩]⟩ where
  script := hscript
  timeouts := List.not_mem_nil
  sent := rfl

/-- A time-out comes first. -/
theorem Sends.timeout {o : Outcome} {script outs : List Outcome} (hscript : net.script = o :: script)
    (ho : o ≠ .acked) (h : Sends buffer len outs ⟨script, net.sent ++ [⟨buffer, len, o⟩]⟩ net') :
    Sends buffer len (o :: outs) net net' where
  script := by rw [hscript, List.cons_append, ← h.script]
  timeouts := by
    intro hmem
    rcases List.mem_cons.mp hmem with hmem | hmem
    · exact ho hmem.symm
    · exact h.timeouts hmem
  sent := by
    rw [h.sent]
    simp

/-- **A short datagram is repeated until it is acked**, and its length is the result. -/
theorem write_short (hack : isAck mem buffer = false) (hlen : len ≤ SMALL_BUFFER_SIZE) :
    ∀ {fuel : Nat} {net : Net}, udpWrite mem fuel buffer len net = some (r, net') →
      r = len ∧ ∃ outs, Sends buffer len outs net net'
  | 0, net, h => by
    rw [udpWrite] at h
    cases h
  | fuel + 1, net, h => by
    rw [udpWrite, if_neg (by omega), transmit_eq hack] at h
    obtain ⟨o, script, hscript, h⟩ := h
    split at h
    · rename_i ho
      obtain ⟨rfl, rfl⟩ := h
      exact ⟨by omega, [], .acked (ho ▸ hscript)⟩
    · rename_i ho
      obtain ⟨hr, outs, houts⟩ := write_short hack hlen h
      exact ⟨hr, o :: outs, houts.timeout hscript ho⟩

/-- The running total survives only without a time-out. -/
theorem transmit_short {fuel : Nat} (hack : isAck mem buffer = false) (hlen : len ≤ SMALL_BUFFER_SIZE)
    (h : transmit (udpWrite mem fuel) mem buffer len ret net = some (r, net')) :
    ∃ outs, Sends buffer len outs net net' ∧ r = if outs = [] then ret + len else len := by
  rw [transmit_eq hack] at h
  obtain ⟨o, script, hscript, h⟩ := h
  split at h
  · rename_i ho
    obtain ⟨rfl, rfl⟩ := h
    exact ⟨[], .acked (ho ▸ hscript), by simp⟩
  · rename_i ho
    obtain ⟨hr, outs, houts⟩ := write_short hack hlen h
    exact ⟨o :: outs, houts.timeout hscript ho, by simp [hr]⟩

end Transmit

/-! ## The pieces -/

/-- The running total after pieces with the given time-outs. -/
def total (ret : Nat) (outss : List (List Outcome)) : Nat :=
  outss.foldl (fun ret outs => if outs = [] then ret + SMALL_BUFFER_SIZE else SMALL_BUFFER_SIZE) ret

theorem total_le (outss : List (List Outcome)) : ∀ ret, total ret outss ≤
    ret + SMALL_BUFFER_SIZE * outss.length := by
  induction outss with
  | nil => exact fun ret => Nat.le_refl _
  | cons outs outss ih =>
    intro ret
    rw [total, List.foldl_cons, ← total, List.length_cons, Nat.mul_succ]
    by_cases ho : outs = []
    · rw [if_pos ho]
      have := ih (ret + SMALL_BUFFER_SIZE)
      omega
    · rw [if_neg ho]
      have := ih SMALL_BUFFER_SIZE
      omega

/-- The total is right iff no piece behind the first bytes timed out. -/
theorem total_eq_iff (outss : List (List Outcome)) : ∀ {ret}, 0 < ret →
    (total ret outss = ret + SMALL_BUFFER_SIZE * outss.length ↔ ∀ outs ∈ outss, outs = []) := by
  induction outss with
  | nil => intro ret _; simp [total]
  | cons outs outss ih =>
    intro ret hret
    rw [total, List.foldl_cons, ← total, List.length_cons, List.forall_mem_cons]
    by_cases ho : outs = []
    · have hrest := @ih (ret + SMALL_BUFFER_SIZE) (by omega)
      rw [if_pos ho, ← hrest, Nat.mul_succ]
      simp only [ho, true_and]
      omega
    · have hle := total_le outss SMALL_BUFFER_SIZE
      rw [if_neg ho]
      simp only [ho, false_and, iff_false, SMALL_BUFFER_SIZE] at *
      omega

/-- The sends of all pieces of the message from `off` on. -/
def pieceSends : Nat → List (List Outcome) → List Send
  | _, [] => []
  | off, outs :: outss =>
    (outs ++ [Outcome.acked]).map (Send.mk ⟨.message, off⟩ SMALL_BUFFER_SIZE) ++
      pieceSends (off + SMALL_BUFFER_SIZE) outss

/-- **The loop over the pieces.** -/
theorem sendPieces_spec (h0 : 0 ∉ m) {fuel : Nat} {net' : Net} {buffer' : Ptr} {ret' : Nat} :
    ∀ (loop off : Nat) {ret : Nat} {net : Net}, off + SMALL_BUFFER_SIZE * loop ≤ m.length →
      sendPieces (udpWrite (memory m beyond) fuel) (memory m beyond) loop ⟨.message, off⟩ ret net =
        some (buffer', ret', net') →
      buffer' = ⟨.message, off + SMALL_BUFFER_SIZE * loop⟩ ∧
      ∃ outss : List (List Outcome), outss.length = loop ∧ ret' = total ret outss ∧
        net.script = outss.flatMap (· ++ [.acked]) ++ net'.script ∧
        (∀ outs ∈ outss, .acked ∉ outs) ∧ net'.sent = net.sent ++ pieceSends off outss
  | 0, off, ret, net, _, h => by
    cases h
    exact ⟨rfl, [], rfl, rfl, rfl, by simp, by simp [pieceSends]⟩
  | loop + 1, off, ret, net, hle, h => by
    have hack : isAck (memory m beyond) ⟨.message, off⟩ = false :=
      not_isAck_message h0 (by simp only [SMALL_BUFFER_SIZE] at hle; omega)
    rw [sendPieces, Option.bind_eq_bind, Option.bind_eq_some_iff] at h
    obtain ⟨⟨ret₁, net₁⟩, hfirst, h⟩ := h
    obtain ⟨outs, houts, rfl⟩ := transmit_short hack (Nat.le_refl _) hfirst
    obtain ⟨rfl, outss, hlen, hret, hscript, htime, hsent⟩ :=
      sendPieces_spec h0 loop (off + SMALL_BUFFER_SIZE) (by
        rw [Nat.mul_succ] at hle
        omega) h
    refine ⟨by rw [Nat.mul_succ, Nat.add_assoc, Nat.add_comm SMALL_BUFFER_SIZE], outs :: outss,
      by rw [List.length_cons, hlen], hret, ?_, ?_, ?_⟩
    · rw [houts.script, hscript, List.flatMap_cons]
      simp
    · rw [List.forall_mem_cons]
      exact ⟨houts.timeouts, htime⟩
    · rw [hsent, houts.sent, pieceSends, List.append_assoc]

/-! ## What arrives -/

theorem delivered_append (s t : List Send) : delivered mem (s ++ t) = delivered mem s ++ delivered mem t := by
  simp [delivered]

/-- How many copies arrive of a datagram that timed out so often. -/
def copies (outs : List Outcome) : Nat := outs.countP (· ≠ .lost) + 1

theorem delivered_repeated (buffer : Ptr) (len : Nat) (outs : List Outcome) :
    delivered mem ((outs ++ [Outcome.acked]).map (Send.mk buffer len)) =
      List.replicate (copies outs) (load mem buffer len) := by
  induction outs with
  | nil => rfl
  | cons o outs ih =>
    rw [List.cons_append, List.map_cons, ← List.singleton_append, delivered_append, ih]
    cases o <;> simp [delivered, copies, List.replicate_succ]

/-! ## Reading the pieces -/

/-- A datagram that leaves no byte of an earlier one in the string. -/
def Complete (d : List UInt8) : Prop := SMALL_BUFFER_SIZE ≤ d.length ∨ 0 ∈ d.take SMALL_BUFFER_SIZE

/-- What a piece adds to the string. -/
def content (d : List UInt8) : List UInt8 := cstr (d.take SMALL_BUFFER_SIZE)

theorem length_recvSmall {d tmpBuf : List UInt8} (htmp : tmpBuf.length = SMALL_BUFFER_SIZE) :
    (recvSmall d tmpBuf).length = SMALL_BUFFER_SIZE := by
  simp only [recvSmall, List.length_append, List.length_take, List.length_drop, htmp]
  omega

theorem cstr_recvSmall {d tmpBuf : List UInt8} (htmp : tmpBuf.length = SMALL_BUFFER_SIZE)
    (hd : Complete d) : cstr (recvSmall d tmpBuf) = content d := by
  rcases hd with hd | hd
  · rw [recvSmall, Nat.min_eq_left hd, List.drop_eq_nil_of_le (Nat.le_of_eq htmp), List.append_nil,
      content]
  · exact cstr_append_of_mem hd _

/-- The loop takes all pieces up to the first that reads as the end marker. -/
theorem readPieces_complete {e : List UInt8} {rest : List (List UInt8)} (he : Complete e)
    (hend : content e = END_STR) :
    ∀ (ds : List (List UInt8)) {tmpBuf : List UInt8} (r : Read),
      tmpBuf.length = SMALL_BUFFER_SIZE → (∀ d ∈ ds, Complete d ∧ content d ≠ END_STR) →
      ∃ r', readPieces tmpBuf r (ds ++ e :: rest) = some (r', rest) ∧
        r'.buffer = r.buffer ++ ds.flatMap content ∧ r'.reassembled = r.reassembled
  | [], tmpBuf, r, htmp, _ => by
    refine ⟨{ r with acks := r.acks + 2 }, ?_, (List.append_nil _).symm, rfl⟩
    rw [List.nil_append, readPieces, cstr_recvSmall htmp he, if_neg (not_not.mpr hend)]
  | d :: ds, tmpBuf, r, htmp, hds => by
    rw [List.forall_mem_cons] at hds
    obtain ⟨r', hr', hbuffer, hre⟩ := readPieces_complete he hend ds
      { r with
        buffer := r.buffer ++ content d
        recvBytes := r.recvBytes + min SMALL_BUFFER_SIZE d.length
        acks := r.acks + 1 } (@length_recvSmall d _ htmp) hds.2
    refine ⟨r', ?_, ?_, hre⟩
    · rw [List.cons_append, readPieces, cstr_recvSmall htmp hds.1.1, if_pos hds.1.2]
      exact hr'
    · rw [hbuffer, List.flatMap_cons, List.append_assoc]

/-- A full piece of the message. -/
theorem content_full {d : List UInt8} (hlen : d.length = SMALL_BUFFER_SIZE) (h0 : 0 ∉ d) :
    content d = d := by
  rw [content, List.take_of_length_le (Nat.le_of_eq hlen), cstr_of_not_mem h0]

theorem full_complete {d : List UInt8} (hlen : d.length = SMALL_BUFFER_SIZE) (h0 : 0 ∉ d) :
    Complete d ∧ content d ≠ END_STR := by
  refine ⟨.inl (Nat.le_of_eq hlen.symm), ?_⟩
  rw [content_full hlen h0]
  rintro rfl
  cases hlen

theorem load_piece {off : Nat} (h : off + SMALL_BUFFER_SIZE ≤ m.length) :
    load (memory m beyond) ⟨.message, off⟩ SMALL_BUFFER_SIZE = (m.drop off).take SMALL_BUFFER_SIZE := by
  rw [load_message (by omega), List.drop_append_of_le_length (by omega),
    List.take_append_of_le_length (by simp; omega)]

/-- The rest of the message with its terminating zero. -/
theorem load_last {off : Nat} (h : off ≤ m.length) :
    load (memory m beyond) ⟨.message, off⟩ (m.length - off + 1) = m.drop off ++ [0] := by
  rw [load_message (by omega), List.drop_append_of_le_length h, List.take_of_length_le (by simp)]

theorem content_last {l : List UInt8} (h0 : 0 ∉ l) (h : l.length < SMALL_BUFFER_SIZE) :
    Complete (l ++ [0]) ∧ content (l ++ [0]) = l := by
  unfold Complete content
  rw [List.take_of_length_le (by simp; omega)]
  exact ⟨.inr (by simp), cstr_append_zero h0 []⟩

theorem load_beginStr : load mem ⟨.beginStr, 0⟩ BEGIN_STR.length = BEGIN_STR := rfl

theorem load_endStr : load mem ⟨.endStr, 0⟩ (END_STR.length + 1) = END_STR ++ [0] := rfl

theorem content_endStr : Complete (END_STR ++ [0]) ∧ content (END_STR ++ [0]) = END_STR :=
  content_last (by decide) (by decide)

theorem delivered_pieces_full (h0 : 0 ∉ m) (outss : List (List Outcome)) :
    ∀ {off : Nat}, off + SMALL_BUFFER_SIZE * outss.length ≤ m.length →
      ∀ d ∈ delivered (memory m beyond) (pieceSends off outss), d.length = SMALL_BUFFER_SIZE ∧ 0 ∉ d := by
  induction outss with
  | nil =>
    intro off _ d hd
    cases hd
  | cons outs outss ih =>
    intro off hoff d hd
    rw [List.length_cons, Nat.mul_succ] at hoff
    rw [pieceSends, delivered_append, delivered_repeated, List.mem_append] at hd
    rcases hd with hd | hd
    · rw [List.eq_of_mem_replicate hd]
      refine ⟨length_load _ _, ?_⟩
      rw [load_piece (by omega)]
      exact fun hmem => h0 (List.mem_of_mem_drop (List.mem_of_mem_take hmem))
    · exact ih (by omega) d hd

/-- Pieces without a time-out add up to the message. -/
theorem content_pieces (h0 : 0 ∉ m) (outss : List (List Outcome)) :
    ∀ {off : Nat}, off + SMALL_BUFFER_SIZE * outss.length ≤ m.length → (∀ outs ∈ outss, outs = []) →
      (delivered (memory m beyond) (pieceSends off outss)).flatMap content =
        (m.drop off).take (SMALL_BUFFER_SIZE * outss.length) := by
  induction outss with
  | nil =>
    intro off _ _
    rw [List.length_nil, Nat.mul_zero, List.take_zero]
    rfl
  | cons outs outss ih =>
    intro off hoff houts
    rw [List.length_cons, Nat.mul_succ] at hoff ⊢
    rw [List.forall_mem_cons] at houts
    have hfree : 0 ∉ (m.drop off).take SMALL_BUFFER_SIZE := fun hmem =>
      h0 (List.mem_of_mem_drop (List.mem_of_mem_take hmem))
    have hfull : ((m.drop off).take SMALL_BUFFER_SIZE).length = SMALL_BUFFER_SIZE := by
      simp
      omega
    rw [pieceSends, houts.1, delivered_append, delivered_repeated, List.flatMap_append,
      ih (by omega) houts.2, load_piece (by omega), Nat.add_comm (_ * _), List.take_add,
      List.drop_drop]
    congr 1
    rw [copies, List.countP_nil, List.replicate_one, List.flatMap_singleton, content_full hfull hfree]

theorem Read.ackMessage_buffer (r : Read) : r.ackMessage.buffer = r.buffer := by
  unfold Read.ackMessage
  split <;> rfl

theorem Read.ackMessage_reassembled (r : Read) : r.ackMessage.reassembled = r.reassembled := by
  unfold Read.ackMessage
  split <;> rfl

/-- **`UDP_Read` between the two markers.** -/
theorem udpRead_spec {b e tmpBuf : List UInt8} {ds rest : List (List UInt8)}
    (htmp : tmpBuf.length = SMALL_BUFFER_SIZE) (hb : cstr b = BEGIN_STR) (he : Complete e)
    (hend : content e = END_STR) (hds : ∀ d ∈ ds, Complete d ∧ content d ≠ END_STR) :
    ∃ r, udpRead tmpBuf (b :: ds ++ e :: rest) = some (r, rest) ∧
      r.buffer = ds.flatMap content ∧ r.reassembled = true := by
  obtain ⟨r, hr, hbuffer, hre⟩ := @readPieces_complete e rest he hend ds tmpBuf ⟨[], 0, 0, true⟩ htmp hds
  have hne : b ≠ [] := by
    rintro rfl
    cases hb
  refine ⟨r.ackMessage, ?_, ?_, ?_⟩
  · rw [List.cons_append, udpRead, if_neg hne, if_pos hb, hr]
    rfl
  · rw [r.ackMessage_buffer, hbuffer, List.nil_append]
  · rw [r.ackMessage_reassembled, hre]

end OstepHw.Udp
