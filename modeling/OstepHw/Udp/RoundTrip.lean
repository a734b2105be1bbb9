import OstepHw.Udp.Transfer

/-!
# A large message over a perfect channel

Every datagram arrives once and in order, and every ack in time.

* `client_acked` — what `UDP_Write` sends then;
* `large_roundTrip_iff` — the receiver gets the message back, unless its last piece is the end marker.
-/

set_option autoImplicit false

namespace OstepHw.Udp

open CString

section Acked

variable {m : List UInt8} {beyond mem : Nat → UInt8} {retry : Ptr → Nat → Net → Option (Nat × Net)}

theorem transmit_acked (buffer : Ptr) (len ret : Nat) (script : List Outcome) (sent : List Send) :
    transmit retry mem buffer len ret ⟨.acked :: script, sent⟩ =
      some (ret + len, ⟨script, sent ++ [⟨buffer, len, .acked⟩]⟩) := by
  unfold transmit sendto waitAck
  simp

theorem sendPieces_acked (script : List Outcome) : ∀ (loop off ret : Nat) (sent : List Send),
    sendPieces retry mem loop ⟨.message, off⟩ ret ⟨List.replicate loop .acked ++ script, sent⟩ =
      some (⟨.message, off + SMALL_BUFFER_SIZE * loop⟩, ret + SMALL_BUFFER_SIZE * loop,
        ⟨script, sent ++ pieceSends off (List.replicate loop [])⟩)
  | 0, off, ret, sent => by
    rw [List.replicate_zero, List.replicate_zero, pieceSends, List.append_nil]
    rfl
  | loop + 1, off, ret, sent => by
    rw [List.replicate_succ, List.cons_append, sendPieces, transmit_acked, Option.bind_eq_bind,
      Option.bind_some]
    show sendPieces retry mem loop ⟨.message, off + SMALL_BUFFER_SIZE⟩ (ret + SMALL_BUFFER_SIZE) _ = _
    rw [sendPieces_acked script loop, List.replicate_succ, pieceSends, List.append_assoc, Nat.mul_succ,
      Nat.add_assoc, Nat.add_assoc, Nat.add_comm SMALL_BUFFER_SIZE (SMALL_BUFFER_SIZE * loop)]
    rfl

/-- The calls of `sendto` for a message that is never repeated. -/
def perfectSends (m : List UInt8) : List Send :=
  let off := SMALL_BUFFER_SIZE * (m.length / SMALL_BUFFER_SIZE)
  ⟨⟨.beginStr, 0⟩, BEGIN_STR.length, .acked⟩ ::
    (pieceSends 0 (List.replicate (m.length / SMALL_BUFFER_SIZE) []) ++
      [⟨⟨.message, off⟩, m.length - off + 1, .acked⟩, ⟨⟨.endStr, 0⟩, END_STR.length + 1, .acked⟩])

/-- **`UDP_Write` on a perfect channel** returns the length of the message. -/
theorem client_acked (hlen : SMALL_BUFFER_SIZE < m.length) (beyond : Nat → UInt8) :
    client m beyond (List.replicate (m.length / SMALL_BUFFER_SIZE + 3) .acked) =
      some (m.length, perfectSends m) := by
  have hoff : SMALL_BUFFER_SIZE * (m.length / SMALL_BUFFER_SIZE) ≤ m.length := Nat.mul_div_le _ _
  have hscript : List.replicate (m.length / SMALL_BUFFER_SIZE + 3) Outcome.acked =
      .acked :: (List.replicate (m.length / SMALL_BUFFER_SIZE) .acked ++ [.acked, .acked]) := by
    rw [List.replicate_succ, List.replicate_add]
    rfl
  rw [client, hscript, udpWrite, if_pos hlen, writeLarge]
  simp only [transmit_acked, sendPieces_acked, Option.bind_eq_bind, Option.bind_some, Nat.zero_add]
  rw [Option.map_some, if_pos (by omega)]
  simp [perfectSends]

/-- What arrives: the pieces between the two markers. -/
theorem delivered_perfect (h0 : 0 ∉ m) :
    ∃ pieces : List (List UInt8),
      delivered (memory m beyond) (perfectSends m) =
        BEGIN_STR :: (pieces ++
          [m.drop (SMALL_BUFFER_SIZE * (m.length / SMALL_BUFFER_SIZE)) ++ [0], END_STR ++ [0]]) ∧
      (∀ d ∈ pieces, Complete d ∧ content d ≠ END_STR) ∧
      pieces.flatMap content = m.take (SMALL_BUFFER_SIZE * (m.length / SMALL_BUFFER_SIZE)) := by
  have hoff : SMALL_BUFFER_SIZE * (m.length / SMALL_BUFFER_SIZE) ≤ m.length := Nat.mul_div_le _ _
  refine ⟨delivered (memory m beyond)
    (pieceSends 0 (List.replicate (m.length / SMALL_BUFFER_SIZE) [])), ?_, ?_, ?_⟩
  · rw [← load_last hoff, ← @load_endStr (memory m beyond), perfectSends, ← List.singleton_append,
      delivered_append, delivered_append]
    rfl
  · intro d hd
    have hfull := delivered_pieces_full h0 _ (by simpa using hoff) d hd
    exact full_complete hfull.1 hfull.2
  · rw [content_pieces h0 _ (by simpa using hoff) (fun _ h => List.eq_of_mem_replicate h),
      List.drop_zero, List.length_replicate]

end Acked

/-- The sender gets the length of the message, and the receiver the message. -/
def RoundTrip (m : List UInt8) (beyond : Nat → UInt8) (tmpBuf : List UInt8) : Prop :=
  ∃ sent r rest,
    client m beyond (List.replicate (m.length / SMALL_BUFFER_SIZE + 3) .acked) = some (m.length, sent) ∧
      udpRead tmpBuf (delivered (memory m beyond) sent) = some (r, rest) ∧ r.buffer = m ∧ r.Fits

/-- **A perfect channel.**  The last piece carries a terminating zero and so can read as the end
marker; then it is not part of the message that the receiver returns. -/
theorem large_roundTrip_iff {m : List UInt8} (h0 : 0 ∉ m) (hlen : SMALL_BUFFER_SIZE < m.length)
    (hmax : m.length < BUFFER_SIZE) (beyond : Nat → UInt8) {tmpBuf : List UInt8}
    (htmp : tmpBuf.length = SMALL_BUFFER_SIZE) :
    RoundTrip m beyond tmpBuf ↔
      m.drop (SMALL_BUFFER_SIZE * (m.length / SMALL_BUFFER_SIZE)) ≠ END_STR := by
  have hmod := Nat.div_add_mod m.length SMALL_BUFFER_SIZE
  have hlt : m.length % SMALL_BUFFER_SIZE < SMALL_BUFFER_SIZE := Nat.mod_lt _ (by decide)
  obtain ⟨pieces, hdelivered, hpieces, hcontent⟩ := @delivered_perfect m beyond h0
  generalize hoff : SMALL_BUFFER_SIZE * (m.length / SMALL_BUFFER_SIZE) = off at *
  have hlast := @content_last (m.drop off) (fun hmem => h0 (List.mem_of_mem_drop hmem))
    (by simp; omega)
  constructor
  · rintro ⟨sent, r, rest, hclient, hread, hbuffer, -⟩ hend
    rw [client_acked hlen] at hclient
    cases hclient
    obtain ⟨r', hr', hbuffer', -⟩ := @udpRead_spec BEGIN_STR _ tmpBuf pieces [END_STR ++ [0]] htmp
      rfl hlast.1 (hlast.2.trans hend) hpieces
    rw [hdelivered, ← List.cons_append, hr'] at hread
    cases hread
    have hshort := congrArg List.length (hbuffer'.symm.trans hbuffer)
    have hend4 := congrArg List.length hend
    rw [hcontent, List.length_take] at hshort
    rw [List.length_drop, END_STR] at hend4
    simp at hend4
    omega
  · intro hend
    have hall : ∀ d ∈ pieces ++ [m.drop off ++ [0]], Complete d ∧ content d ≠ END_STR := by
      intro d hd
      rcases List.mem_append.mp hd with hd | hd
      · exact hpieces d hd
      · rw [List.mem_singleton.mp hd, hlast.2]
        exact ⟨hlast.1, hend⟩
    obtain ⟨r, hr, hbuffer, -⟩ := @udpRead_spec BEGIN_STR _ tmpBuf _ [] htmp rfl content_endStr.1
      content_endStr.2 hall
    have hm : r.buffer = m := by
      rw [hbuffer, List.flatMap_append, hcontent, List.flatMap_singleton, hlast.2,
        List.take_append_drop]
    refine ⟨perfectSends m, r, [], client_acked hlen beyond, ?_, hm, ?_⟩
    · rw [hdelivered, ← hr]
      simp
    · rw [Read.Fits, hm]
      exact hmax

/-- `"abcdef"` -/
theorem abcdef_roundTrip : RoundTrip [97, 98, 99, 100, 101, 102] (fun _ => 0) [0, 0, 0, 0, 0] :=
  (large_roundTrip_iff (by decide) (by decide) (by decide) _ (by decide)).mpr (by decide)

/-- `"abcdeend1"`: its last piece is taken for the end marker. -/
theorem endTail_not_roundTrip :
    ¬ RoundTrip [97, 98, 99, 100, 101, 101, 110, 100, 49] (fun _ => 0) [0, 0, 0, 0, 0] := by
  rintro ⟨sent, r, rest, hclient, hread, hbuffer, -⟩
  rw [client_acked (by decide)] at hclient
  cases hclient
  have hbad : udpRead [0, 0, 0, 0, 0] (delivered (memory [97, 98, 99, 100, 101, 101, 110, 100, 49]
      fun _ => 0) (perfectSends [97, 98, 99, 100, 101, 101, 110, 100, 49])) =
      some (⟨[97, 98, 99, 100, 101], 5, 4, true⟩, [END_STR ++ [0]]) := by decide
  rw [hbad] at hread
  cases hread
  revert hbuffer
  decide

end OstepHw.Udp
