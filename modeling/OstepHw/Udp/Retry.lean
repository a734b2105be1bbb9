import OstepHw.Udp.Transfer

/-!
# Time-outs and retries

A time-out calls `UDP_Write` again with the datagram that was not acked.

* `udpWrite_extends` — sends are never taken back;
* `begin_retry`, `begin_not_acked` — the begin marker is longer than a piece, so that a retry of it is
  a large message of its own;
* `write_message` — what is sent of the message once the begin marker is acked;
* `retry_iff` — the receiver gets exactly the message iff no piece but the first times out, and of that
  piece no copy arrives twice.
-/

set_option autoImplicit false

namespace OstepHw.Udp

open CString

variable {m : List UInt8} {beyond mem : Nat → UInt8}

/-! ## Sends are never taken back -/

section Extends

variable {retry : Ptr → Nat → Net → Option (Nat × Net)} {buffer : Ptr} {len ret r : Nat} {net net' : Net}

/-- The first `sendto` of a datagram stays. -/
theorem transmit_extends (hretry : ∀ {p n r net net'}, retry p n net = some (r, net') →
      net.sent <+: net'.sent)
    (h : transmit retry mem buffer len ret net = some (r, net')) :
    ∃ o, net.sent ++ [⟨buffer, len, o⟩] <+: net'.sent := by
  cases hack : isAck mem buffer with
  | true =>
    obtain ⟨o, script, -, -, rfl⟩ := (transmit_of_isAck hack).mp h
    exact ⟨o, List.prefix_rfl⟩
  | false =>
    obtain ⟨o, script, -, h⟩ := (transmit_eq hack).mp h
    refine ⟨o, ?_⟩
    split at h
    · rename_i ho
      rw [h.2, ho]
    · exact hretry h

theorem sendPieces_extends (hretry : ∀ {p n r net net'}, retry p n net = some (r, net') →
      net.sent <+: net'.sent) :
    ∀ {loop : Nat} {p p' : Ptr} {ret ret' : Nat} {net : Net},
      sendPieces retry mem loop p ret net = some (p', ret', net') → net.sent <+: net'.sent
  | 0, _, _, _, _, _, h => by
    cases h
    exact List.prefix_rfl
  | loop + 1, _, _, _, _, _, h => by
    rw [sendPieces, Option.bind_eq_bind, Option.bind_eq_some_iff] at h
    obtain ⟨⟨ret₁, net₁⟩, hfirst, h⟩ := h
    obtain ⟨o, ho⟩ := transmit_extends hretry hfirst
    exact ((List.prefix_append _ _).trans ho).trans (sendPieces_extends hretry h)

/-- The four parts of a large message. -/
theorem writeLarge_parts {nread : Nat} (h : writeLarge retry mem buffer nread net = some (r, net')) :
    ∃ rb net₁ buffer₂ ret₂ net₂ ret₃ net₃ re,
      transmit retry mem ⟨.beginStr, 0⟩ BEGIN_STR.length 0 net = some (rb, net₁) ∧
      sendPieces retry mem (nread / SMALL_BUFFER_SIZE) buffer 0 net₁ = some (buffer₂, ret₂, net₂) ∧
      transmit retry mem buffer₂ (nread - ret₂ + 1) ret₂ net₂ = some (ret₃, net₃) ∧
      transmit retry mem ⟨.endStr, 0⟩ (END_STR.length + 1) 0 net₃ = some (re, net') ∧
      r = if ret₃ > nread then nread else ret₃ := by
  simp only [writeLarge, Option.bind_eq_bind, Option.bind_eq_some_iff] at h
  obtain ⟨⟨rb, net₁⟩, hbegin, ⟨buffer₂, ret₂, net₂⟩, hpieces, ⟨ret₃, net₃⟩, hlast, ⟨re, net₄⟩, hend, h⟩ := h
  cases h
  exact ⟨rb, net₁, buffer₂, ret₂, net₂, ret₃, net₃, re, hbegin, hpieces, hlast, hend, rfl⟩

theorem udpWrite_extends : ∀ {fuel : Nat} {buffer : Ptr} {nread r : Nat} {net net' : Net},
    udpWrite mem fuel buffer nread net = some (r, net') → net.sent <+: net'.sent
  | 0, _, _, _, _, _, h => by
    rw [udpWrite] at h
    cases h
  | fuel + 1, buffer, nread, r, net, net', h => by
    rw [udpWrite] at h
    split at h
    · obtain ⟨rb, net₁, buffer₂, ret₂, net₂, ret₃, net₃, re, hbegin, hpieces, hlast, hend, -⟩ :=
        writeLarge_parts h
      obtain ⟨o₁, h₁⟩ := transmit_extends udpWrite_extends hbegin
      have h₂ := sendPieces_extends udpWrite_extends hpieces
      obtain ⟨o₃, h₃⟩ := transmit_extends udpWrite_extends hlast
      obtain ⟨o₄, h₄⟩ := transmit_extends udpWrite_extends hend
      exact ((List.prefix_append _ _).trans h₁).trans
        (h₂.trans (((List.prefix_append _ _).trans h₃).trans ((List.prefix_append _ _).trans h₄)))
    · obtain ⟨o, ho⟩ := transmit_extends udpWrite_extends h
      exact (List.prefix_append _ _).trans ho

end Extends

/-! ## Retries of the begin marker -/

/-- What arrives when the begin marker is sent as a message of its own, up to the first end marker:
`"0begin"`, `"0begi"`, `"n"`, `"end1"`, each at least once. -/
def beginDatagrams (c p q : Nat) : List (List UInt8) :=
  List.replicate (c + 1) BEGIN_STR ++ (List.replicate (p + 1) (BEGIN_STR.take SMALL_BUFFER_SIZE) ++
    (List.replicate (q + 1) [110, 0] ++ [END_STR ++ [0]]))

theorem isAck_beginStr : isAck mem ⟨.beginStr, 0⟩ = false := rfl

theorem isAck_endStr : isAck mem ⟨.endStr, 0⟩ = false := rfl

theorem Sends.delivered_eq {buffer : Ptr} {len : Nat} {outs : List Outcome} {net net' : Net}
    (h : Sends buffer len outs net net') :
    delivered mem net'.sent =
      delivered mem net.sent ++ List.replicate (copies outs) (load mem buffer len) := by
  rw [h.sent, delivered_append, delivered_repeated]

/-- The pieces of the begin marker after it was acked itself. -/
theorem begin_pieces {fuel : Nat} {buffer₂ : Ptr} {ret₂ ret₃ re : Nat} {net₁ net₂ net₃ net' : Net}
    (hpieces : sendPieces (udpWrite mem fuel) mem (BEGIN_STR.length / SMALL_BUFFER_SIZE) ⟨.beginStr, 0⟩ 0
      net₁ = some (buffer₂, ret₂, net₂))
    (hlast : transmit (udpWrite mem fuel) mem buffer₂ (BEGIN_STR.length - ret₂ + 1) ret₂ net₂ =
      some (ret₃, net₃))
    (hend : transmit (udpWrite mem fuel) mem ⟨.endStr, 0⟩ (END_STR.length + 1) 0 net₃ = some (re, net')) :
    ∃ p q e, delivered mem net'.sent = delivered mem net₁.sent ++
      (List.replicate (p + 1) (BEGIN_STR.take SMALL_BUFFER_SIZE) ++
        (List.replicate (q + 1) [110, 0] ++ List.replicate (e + 1) (END_STR ++ [0]))) := by
  change sendPieces _ mem 1 _ 0 net₁ = _ at hpieces
  rw [sendPieces, Option.bind_eq_bind, Option.bind_eq_some_iff] at hpieces
  obtain ⟨⟨ret, net⟩, hpiece, hpieces⟩ := hpieces
  cases hpieces
  obtain ⟨outs₁, h₁, hret⟩ := transmit_short isAck_beginStr (Nat.le_refl _) hpiece
  have hret₂ : ret₂ = 5 := by
    rw [hret]
    split <;> rfl
  subst hret₂
  obtain ⟨outs₂, h₂, -⟩ := transmit_short (show isAck mem ⟨.beginStr, 5⟩ = false from rfl)
    (by decide) hlast
  obtain ⟨outs₃, h₃, -⟩ := transmit_short isAck_endStr (Nat.le_refl _) hend
  refine ⟨outs₁.countP (· ≠ .lost), outs₂.countP (· ≠ .lost), outs₃.countP (· ≠ .lost), ?_⟩
  rw [h₃.delivered_eq, h₂.delivered_eq, h₁.delivered_eq, List.append_assoc, List.append_assoc]
  rfl

/-- What arrives after `net` starts with the begin marker sent as a message of its own. -/
def BeginAsMessage (mem : Nat → UInt8) (net net' : Net) : Prop :=
  ∃ c p q rest, delivered mem net'.sent = delivered mem net.sent ++ (beginDatagrams c p q ++ rest)

/-- The begin marker is acked at once, or it is sent as a message. -/
theorem begin_transmit {retry : Ptr → Nat → Net → Option (Nat × Net)} {rb : Nat} {net net₁ : Net}
    (hretry : ∀ {r net net'}, retry ⟨.beginStr, 0⟩ BEGIN_STR.length net = some (r, net') →
      BeginAsMessage mem net net')
    (h : transmit retry mem ⟨.beginStr, 0⟩ BEGIN_STR.length 0 net = some (rb, net₁)) :
    ∃ o script, net.script = o :: script ∧
      if o = .acked then net₁ = ⟨script, net.sent ++ [⟨⟨.beginStr, 0⟩, BEGIN_STR.length, .acked⟩]⟩
      else BeginAsMessage mem net net₁ := by
  obtain ⟨o, script, hscript, h⟩ := (transmit_eq isAck_beginStr).mp h
  refine ⟨o, script, hscript, ?_⟩
  split at h
  · rename_i ho
    rw [if_pos ho]
    exact h.2
  · rename_i ho
    rw [if_neg ho]
    obtain ⟨c, p, q, rest, hrest⟩ := hretry h
    rw [delivered_append] at hrest
    cases o with
    | acked => exact absurd rfl ho
    | lost =>
      refine ⟨c, p, q, rest, ?_⟩
      rw [hrest]
      simp [delivered]
    | late =>
      refine ⟨c + 1, p, q, rest, ?_⟩
      rw [hrest]
      simp [delivered, beginDatagrams, load_beginStr, List.replicate_succ (n := c + 1)]

/-- **A retry of the begin marker** is itself a large message. -/
theorem begin_retry : ∀ {fuel r : Nat} {net net' : Net},
    udpWrite mem fuel ⟨.beginStr, 0⟩ BEGIN_STR.length net = some (r, net') → BeginAsMessage mem net net'
  | 0, _, _, _, h => by
    rw [udpWrite] at h
    cases h
  | fuel + 1, r, net, net', h => by
    rw [udpWrite, if_pos (by decide)] at h
    obtain ⟨rb, net₁, buffer₂, ret₂, net₂, ret₃, net₃, re, hbegin, hpieces, hlast, hend, -⟩ :=
      writeLarge_parts h
    obtain ⟨p, q, e, hpieces⟩ := begin_pieces hpieces hlast hend
    obtain ⟨o, script, -, hbegin⟩ := begin_transmit begin_retry hbegin
    split at hbegin
    · refine ⟨0, p, q, List.replicate e (END_STR ++ [0]), ?_⟩
      rw [hpieces, hbegin, delivered_append, List.append_assoc, List.replicate_succ (n := e)]
      simp [beginDatagrams, delivered, load_beginStr]
    · obtain ⟨c, p', q', rest, hrest⟩ := hbegin
      rw [hrest, List.append_assoc, List.append_assoc] at hpieces
      exact ⟨c, p', q', _, hpieces⟩

/-- The message that the receiver puts together from it contains the begin marker. -/
theorem read_beginDatagrams {tmpBuf : List UInt8} (htmp : tmpBuf.length = SMALL_BUFFER_SIZE)
    (c p q : Nat) (rest : List (List UInt8)) :
    ∃ r, udpRead tmpBuf (beginDatagrams c p q ++ rest) = some (r, rest) ∧ r.reassembled = true ∧
      BEGIN_STR <:+: r.buffer := by
  let before := List.replicate c BEGIN_STR ++ List.replicate p (BEGIN_STR.take SMALL_BUFFER_SIZE)
  let after : List (List UInt8) := List.replicate q [110, 0]
  have hsplit : beginDatagrams c p q ++ rest =
      BEGIN_STR :: (before ++ [BEGIN_STR.take SMALL_BUFFER_SIZE, [110, 0]] ++ after) ++
        (END_STR ++ [0]) :: rest := by
    rw [beginDatagrams, List.replicate_succ (n := c), List.replicate_succ' (n := p),
      List.replicate_succ (n := q)]
    simp [before, after]
  have hpieces : ∀ d ∈ before ++ [BEGIN_STR.take SMALL_BUFFER_SIZE, [110, 0]] ++ after,
      Complete d ∧ content d ≠ END_STR := by
    intro d hd
    have hcases : d = BEGIN_STR ∨ d = BEGIN_STR.take SMALL_BUFFER_SIZE ∨ d = [110, 0] := by
      simp only [before, after, List.mem_append, List.mem_replicate, List.mem_cons,
        List.not_mem_nil, or_false] at hd
      rcases hd with ((⟨_, hd⟩ | ⟨_, hd⟩) | hd | hd) | ⟨_, hd⟩
      · exact .inl hd
      · exact .inr (.inl hd)
      · exact .inr (.inl hd)
      · exact .inr (.inr hd)
      · exact .inr (.inr hd)
    rcases hcases with rfl | rfl | rfl
    · exact ⟨.inl (by decide), by decide⟩
    · exact ⟨.inl (by decide), by decide⟩
    · exact ⟨.inr (by decide), by decide⟩
  obtain ⟨r, hr, hbuffer, hre⟩ := @udpRead_spec BEGIN_STR _ tmpBuf _ rest htmp rfl content_endStr.1
    content_endStr.2 hpieces
  refine ⟨r, by rw [hsplit, hr], hre, before.flatMap content, after.flatMap content, ?_⟩
  have hmarker : [BEGIN_STR.take SMALL_BUFFER_SIZE, [110, 0]].flatMap content = BEGIN_STR := by decide
  rw [hbuffer, @List.flatMap_append _ _ (before ++ _), @List.flatMap_append _ _ before, hmarker]

theorem delivered_of_extends {s t : List Send} (h : s <+: t) : delivered mem s <+: delivered mem t := by
  obtain ⟨u, rfl⟩ := h
  rw [delivered_append]
  exact List.prefix_append _ _

/-! ## The message -/

/-- Everything that is sent of the message stays inside it, its terminating zero included. -/
def Inside (m : List UInt8) (s : Send) : Prop :=
  s.buffer.src = .message → s.buffer.off + s.len ≤ m.length + 1

theorem inside_pieces (outss : List (List Outcome)) :
    ∀ {off : Nat}, off + SMALL_BUFFER_SIZE * outss.length ≤ m.length →
      ∀ s ∈ pieceSends off outss, Inside m s := by
  induction outss with
  | nil =>
    intro off _ s hs
    cases hs
  | cons outs outss ih =>
    intro off hoff s hs
    rw [List.length_cons, Nat.mul_succ] at hoff
    rw [pieceSends, List.mem_append, List.mem_map] at hs
    rcases hs with ⟨o, -, rfl⟩ | hs
    · intro _
      show off + SMALL_BUFFER_SIZE ≤ _
      omega
    · exact ih (by omega) s hs

/-- The calls that are left once the end marker is sent. -/
theorem server_endStr (tmpBuf : List UInt8) : ∀ (fuel e : Nat),
    ∀ r ∈ server tmpBuf fuel (List.replicate e (END_STR ++ [0])), r.reassembled = false ∧ r.Fits
  | 0, _, r, hr => by cases hr
  | fuel + 1, 0, r, hr => by cases hr
  | fuel + 1, e + 1, r, hr => by
    have hread : udpRead tmpBuf (List.replicate (e + 1) (END_STR ++ [0])) =
        some (⟨END_STR, 5, 1, false⟩, List.replicate e (END_STR ++ [0])) := rfl
    rw [server, hread, List.mem_cons] at hr
    rcases hr with rfl | hr
    · exact ⟨rfl, show END_STR.length < BUFFER_SIZE by decide⟩
    · exact server_endStr tmpBuf fuel e r hr

/-- What reliable delivery asks for: the sender's result, the messages that the receiver puts together,
and that neither side leaves its buffer. -/
structure Right (m : List UInt8) (beyond : Nat → UInt8) (tmpBuf : List UInt8) (ret : Nat)
    (sent : List Send) : Prop where
  result : ret = m.length
  received : ((server tmpBuf (delivered (memory m beyond) sent).length
    (delivered (memory m beyond) sent)).filter (·.reassembled)).map Read.buffer = [m]
  fits : ∀ r ∈ server tmpBuf (delivered (memory m beyond) sent).length
    (delivered (memory m beyond) sent), r.Fits
  inside : ∀ s ∈ sent, Inside m s

/-- The first call of `UDP_Read` decides. -/
theorem server_cons {tmpBuf : List UInt8} {ds rest : List (List UInt8)} {r : Read}
    (h : udpRead tmpBuf ds = some (r, rest)) :
    ∃ fuel, server tmpBuf ds.length ds = r :: server tmpBuf fuel rest := by
  cases ds with
  | nil => cases h
  | cons d ds =>
    refine ⟨ds.length, ?_⟩
    rw [List.length_cons, server, h]

/-- **The script for which the message arrives as it is.**  The begin marker is acked at once, the
first piece after any number of lost copies, the other pieces at once; the last piece must arrive at
once too, and its ack is not needed if it reads as an ack itself. -/
def Steady (m : List UInt8) (script : List Outcome) : Prop :=
  ∃ j o rest, script = .acked :: (List.replicate j .lost ++ .acked ::
      (List.replicate (m.length / SMALL_BUFFER_SIZE - 1) .acked ++ o :: rest)) ∧
    (o = .acked ∨ o = .late ∧ m.drop (SMALL_BUFFER_SIZE * (m.length / SMALL_BUFFER_SIZE)) = ackStr)

theorem copies_eq_one_iff {outs : List Outcome} :
    copies outs = 1 ↔ ∃ j, outs = List.replicate j .lost := by
  rw [copies, Nat.add_eq_right, List.countP_eq_zero]
  constructor
  · intro h
    refine ⟨outs.length, List.eq_replicate_iff.mpr ⟨rfl, ?_⟩⟩
    intro o ho
    simpa using h o ho
  · rintro ⟨j, rfl⟩ o ho
    simp [List.eq_of_mem_replicate ho]

/-- The time-outs before the first ack. -/
theorem timeouts_inj {rest rest' : List Outcome} : ∀ {outs outs' : List Outcome}, .acked ∉ outs →
    .acked ∉ outs' → outs ++ .acked :: rest = outs' ++ .acked :: rest' → outs = outs' ∧ rest = rest'
  | [], [], _, _, h => ⟨rfl, List.tail_eq_of_cons_eq h⟩
  | [], o :: outs', _, h', h => absurd (List.head_eq_of_cons_eq h ▸ List.mem_cons_self) h'
  | o :: outs, [], h, _, heq => absurd (List.head_eq_of_cons_eq heq ▸ List.mem_cons_self) h
  | o :: outs, o' :: outs', h, h', heq => by
    rw [List.mem_cons, not_or] at h h'
    obtain ⟨rfl, htail⟩ := List.cons_eq_cons.mp heq
    obtain ⟨rfl, hrest⟩ := timeouts_inj h.2 h'.2 htail
    exact ⟨rfl, hrest⟩

/-- Outcomes that are all acks, against those of pieces that may have timed out. -/
theorem acks_eq_iff {rest rest' : List Outcome} : ∀ {outss : List (List Outcome)},
    (∀ outs ∈ outss, .acked ∉ outs) →
      (outss.flatMap (· ++ [.acked]) ++ rest = List.replicate outss.length .acked ++ rest' ↔
        (∀ outs ∈ outss, outs = []) ∧ rest = rest')
  | [], _ => by simp
  | outs :: outss, h => by
    rw [List.forall_mem_cons] at h
    rw [List.flatMap_cons, List.forall_mem_cons, and_assoc, ← acks_eq_iff h.2, List.length_cons,
      List.replicate_succ]
    cases outs with
    | nil => simp
    | cons o outs =>
      have ho : o ≠ .acked := fun ho => h.1 (ho ▸ List.mem_cons_self)
      simp [ho]

/-- The script of a message, piece by piece. -/
theorem steady_iff {outs : List Outcome} {outss : List (List Outcome)} {o : Outcome}
    {rest : List Outcome} (houts : .acked ∉ outs) (houtss : ∀ outs ∈ outss, .acked ∉ outs)
    (hlen : outss.length = m.length / SMALL_BUFFER_SIZE - 1) :
    Steady m (.acked :: (outs ++ .acked :: (outss.flatMap (· ++ [.acked]) ++ o :: rest))) ↔
      copies outs = 1 ∧ (∀ outs ∈ outss, outs = []) ∧ (o = .acked ∨ o = .late ∧
        m.drop (SMALL_BUFFER_SIZE * (m.length / SMALL_BUFFER_SIZE)) = ackStr) := by
  have hlost : ∀ j, Outcome.acked ∉ List.replicate j .lost := by
    intro j hmem
    cases List.eq_of_mem_replicate hmem
  unfold Steady
  rw [copies_eq_one_iff]
  constructor
  · rintro ⟨j, o', rest', hscript, ho⟩
    obtain ⟨rfl, hpieces⟩ := timeouts_inj houts (hlost j) ((List.cons_inj_right _).mp hscript)
    rw [← hlen, acks_eq_iff houtss] at hpieces
    obtain ⟨hall, hlast⟩ := hpieces
    cases hlast
    exact ⟨⟨j, rfl⟩, hall, ho⟩
  · rintro ⟨⟨j, rfl⟩, hall, ho⟩
    refine ⟨j, o, rest, ?_, ho⟩
    rw [(acks_eq_iff houtss).mpr ⟨hall, rfl⟩, hlen]

theorem isAck_last (h0 : 0 ∉ m) {off : Nat} (hoff : off ≤ m.length)
    (hlt : m.length < off + SMALL_BUFFER_SIZE) :
    isAck (memory m beyond) ⟨.message, off⟩ = true ↔ m.drop off = ackStr := by
  unfold isAck
  rw [cstr_load_message h0 hoff, decide_eq_true_iff, List.take_of_length_le]
  simp only [SMALL_BUFFER_SIZE] at hlt
  simp
  omega

/-- The last piece counts as sent if it is acked, or reads as an ack.  Otherwise the number of its own
bytes is the result. -/
theorem transmit_last (h0 : 0 ∉ m) {fuel off ret₃ : Nat} {net₂ net₃ : Net} (hoff : off ≤ m.length)
    (hlt : m.length < off + SMALL_BUFFER_SIZE)
    (h : transmit (udpWrite (memory m beyond) fuel) (memory m beyond) ⟨.message, off⟩
      (m.length - off + 1) off net₂ = some (ret₃, net₃)) :
    ∃ o script, net₂.script = o :: script ∧
      if o = .acked ∨ m.drop off = ackStr then
        ret₃ = m.length + 1 ∧ net₃ = ⟨script, net₂.sent ++ [⟨⟨.message, off⟩, m.length - off + 1, o⟩]⟩
      else ret₃ = m.length - off + 1 := by
  by_cases hack : m.drop off = ackStr
  · obtain ⟨o, script, hscript, hret, hnet⟩ :=
      (transmit_of_isAck ((isAck_last h0 hoff hlt).mpr hack)).mp h
    refine ⟨o, script, hscript, ?_⟩
    rw [if_pos (.inr hack)]
    exact ⟨by omega, hnet⟩
  · have hack' : isAck (memory m beyond) ⟨.message, off⟩ = false := by
      rw [← Bool.not_eq_true, isAck_last h0 hoff hlt]
      exact hack
    obtain ⟨o, script, hscript, h⟩ := (transmit_eq hack').mp h
    refine ⟨o, script, hscript, ?_⟩
    split at h
    · rename_i ho
      rw [if_pos (.inl ho), ho]
      exact ⟨by omega, h.2⟩
    · rename_i ho
      rw [if_neg (by simp [ho, hack])]
      exact (write_short hack' (by omega) h).1

/-! ## What the receiver makes of it -/

/-- The string that the receiver puts together when only the first piece timed out. -/
theorem read_message (h0 : 0 ∉ m) (hlen : SMALL_BUFFER_SIZE < m.length) (hend : ¬ END_STR <:+: m)
    {tmpBuf : List UInt8} (htmp : tmpBuf.length = SMALL_BUFFER_SIZE) {c : Nat}
    {outss : List (List Outcome)} (houtss : ∀ outs ∈ outss, outs = [])
    (hnum : outss.length = m.length / SMALL_BUFFER_SIZE - 1) {last : List (List UInt8)}
    (hlast : ∀ d ∈ last, d = m.drop (SMALL_BUFFER_SIZE * (m.length / SMALL_BUFFER_SIZE)) ++ [0])
    (rest : List (List UInt8)) :
    ∃ r, udpRead tmpBuf (BEGIN_STR :: (List.replicate c (m.take SMALL_BUFFER_SIZE) ++
        delivered (memory m beyond) (pieceSends SMALL_BUFFER_SIZE outss) ++ last) ++
          (END_STR ++ [0]) :: rest) = some (r, rest) ∧ r.reassembled = true ∧
      r.buffer = (List.replicate c (m.take SMALL_BUFFER_SIZE)).flatten ++
        ((m.drop SMALL_BUFFER_SIZE).take (SMALL_BUFFER_SIZE * outss.length) ++ last.flatMap content) := by
  have hmod := Nat.div_add_mod m.length SMALL_BUFFER_SIZE
  have hlt : m.length % SMALL_BUFFER_SIZE < SMALL_BUFFER_SIZE := Nat.mod_lt _ (by decide)
  have hpos : 0 < m.length / SMALL_BUFFER_SIZE := Nat.div_pos (Nat.le_of_lt hlen) (by decide)
  have hfit : SMALL_BUFFER_SIZE + SMALL_BUFFER_SIZE * outss.length ≤ m.length := by
    rw [hnum, Nat.mul_sub_one]
    omega
  have hfirst : (m.take SMALL_BUFFER_SIZE).length = SMALL_BUFFER_SIZE ∧ 0 ∉ m.take SMALL_BUFFER_SIZE :=
    ⟨by simp; omega, fun hmem => h0 (List.mem_of_mem_take hmem)⟩
  have htail := @content_last (m.drop (SMALL_BUFFER_SIZE * (m.length / SMALL_BUFFER_SIZE)))
    (fun hmem => h0 (List.mem_of_mem_drop hmem)) (by simp; omega)
  have hall : ∀ d ∈ List.replicate c (m.take SMALL_BUFFER_SIZE) ++
      delivered (memory m beyond) (pieceSends SMALL_BUFFER_SIZE outss) ++ last,
      Complete d ∧ content d ≠ END_STR := by
    intro d hd
    rw [List.mem_append, List.mem_append] at hd
    rcases hd with (hd | hd) | hd
    · rw [List.eq_of_mem_replicate hd]
      exact full_complete hfirst.1 hfirst.2
    · have hfull := delivered_pieces_full h0 _ hfit d hd
      exact full_complete hfull.1 hfull.2
    · rw [hlast d hd, htail.2]
      refine ⟨htail.1, ?_⟩
      intro heq
      exact hend (heq ▸ (List.drop_suffix _ m).isInfix)
  obtain ⟨r, hr, hbuffer, hre⟩ := @udpRead_spec BEGIN_STR _ tmpBuf _ rest htmp rfl content_endStr.1
    content_endStr.2 hall
  refine ⟨r, hr, hre, ?_⟩
  rw [hbuffer, List.flatMap_append, List.flatMap_append, content_pieces h0 _ hfit houtss,
    List.append_assoc, List.flatMap_def, List.map_replicate, content_full hfirst.1 hfirst.2]

/-- The string is the message iff the first piece arrived once and the last piece did. -/
theorem buffer_eq_iff (hlen : SMALL_BUFFER_SIZE < m.length) {c loop : Nat} (hc : 0 < c)
    (hloop : loop = m.length / SMALL_BUFFER_SIZE - 1) {o : Outcome}
    (ho : o = .acked ∨ m.drop (SMALL_BUFFER_SIZE * (m.length / SMALL_BUFFER_SIZE)) = ackStr) :
    (List.replicate c (m.take SMALL_BUFFER_SIZE)).flatten ++
        ((m.drop SMALL_BUFFER_SIZE).take (SMALL_BUFFER_SIZE * loop) ++
          if o = .lost then [] else m.drop (SMALL_BUFFER_SIZE * (m.length / SMALL_BUFFER_SIZE))) = m ↔
      c = 1 ∧ o ≠ .lost := by
  have hmod := Nat.div_add_mod m.length SMALL_BUFFER_SIZE
  have hlt : m.length % SMALL_BUFFER_SIZE < SMALL_BUFFER_SIZE := Nat.mod_lt _ (by decide)
  have hpos : 0 < m.length / SMALL_BUFFER_SIZE := Nat.div_pos (Nat.le_of_lt hlen) (by decide)
  have hoff : SMALL_BUFFER_SIZE + SMALL_BUFFER_SIZE * loop =
      SMALL_BUFFER_SIZE * (m.length / SMALL_BUFFER_SIZE) := by
    rw [hloop, Nat.mul_sub_one]
    have := Nat.le_mul_of_pos_right SMALL_BUFFER_SIZE hpos
    omega
  have hdrop : (m.drop (SMALL_BUFFER_SIZE * (m.length / SMALL_BUFFER_SIZE))).length =
      m.length % SMALL_BUFFER_SIZE := by
    rw [List.length_drop]
    omega
  constructor
  · intro heq
    have hfirst : (m.take SMALL_BUFFER_SIZE).length = SMALL_BUFFER_SIZE := by
      rw [List.length_take]
      omega
    have hmiddle : ((m.drop SMALL_BUFFER_SIZE).take (SMALL_BUFFER_SIZE * loop)).length =
        SMALL_BUFFER_SIZE * loop := by
      rw [List.length_take, List.length_drop]
      omega
    have hlens := congrArg List.length heq
    rw [List.length_append, List.length_append, List.length_flatten, List.map_replicate,
      List.sum_replicate_nat, hfirst, hmiddle] at hlens
    by_cases hlost : o = .lost
    · -- then the last piece has three bytes, and no number of first pieces makes up for them
      have hack := ho.resolve_left (by simp [hlost])
      rw [if_pos hlost] at hlens
      rw [hack] at hdrop
      simp only [SMALL_BUFFER_SIZE, ackStr, List.length_cons, List.length_nil] at *
      omega
    · refine ⟨?_, hlost⟩
      rw [if_neg hlost, hdrop] at hlens
      simp only [SMALL_BUFFER_SIZE] at *
      omega
  · rintro ⟨rfl, hlost⟩
    rw [if_neg hlost, List.replicate_one, List.flatten_singleton, ← List.append_assoc, ← List.take_add, hoff,
      List.take_append_drop]

/-! ## The whole call -/

theorem transmit_script {retry : Ptr → Nat → Net → Option (Nat × Net)} {buffer : Ptr} {len ret r : Nat}
    {net net' : Net} (h : transmit retry mem buffer len ret net = some (r, net')) :
    ∃ o script, net.script = o :: script := by
  unfold transmit sendto at h
  cases hs : net.script with
  | nil =>
    rw [hs] at h
    cases h
  | cons o script => exact ⟨o, script, rfl⟩

/-- What arrives of a last piece with the given outcome. -/
def lastDatagram (m : List UInt8) (o : Outcome) : List (List UInt8) :=
  if o = .lost then [] else [m.drop (SMALL_BUFFER_SIZE * (m.length / SMALL_BUFFER_SIZE)) ++ [0]]

theorem mem_lastDatagram {o : Outcome} {d : List UInt8} (h : d ∈ lastDatagram m o) :
    d = m.drop (SMALL_BUFFER_SIZE * (m.length / SMALL_BUFFER_SIZE)) ++ [0] := by
  unfold lastDatagram at h
  split at h
  · cases h
  · exact List.mem_singleton.mp h

theorem content_lastDatagram (h0 : 0 ∉ m) (o : Outcome) : (lastDatagram m o).flatMap content =
    if o = .lost then [] else m.drop (SMALL_BUFFER_SIZE * (m.length / SMALL_BUFFER_SIZE)) := by
  have hmod := Nat.div_add_mod m.length SMALL_BUFFER_SIZE
  have hlt : m.length % SMALL_BUFFER_SIZE < SMALL_BUFFER_SIZE := Nat.mod_lt _ (by decide)
  have htail := @content_last (m.drop (SMALL_BUFFER_SIZE * (m.length / SMALL_BUFFER_SIZE)))
    (fun hmem => h0 (List.mem_of_mem_drop hmem)) (by simp; omega)
  unfold lastDatagram
  split
  · rfl
  · rw [List.flatMap_singleton, htail.2]

/-- What is sent when the total before the last piece is right. -/
theorem send_last {off : Nat} (hoff : off = SMALL_BUFFER_SIZE * (m.length / SMALL_BUFFER_SIZE))
    {outs : List Outcome} {outss : List (List Outcome)}
    (hnum : outss.length = m.length / SMALL_BUFFER_SIZE - 1)
    (hpos : 0 < m.length / SMALL_BUFFER_SIZE) {fuel re : Nat} {net₁ net₂ net₃ net' : Net}
    {o : Outcome} {rest : List Outcome}
    (hnet₂ : net₂.sent = net₁.sent ++ pieceSends 0 (outs :: outss))
    (hnet₃ : net₃ = ⟨rest, net₂.sent ++ [⟨⟨.message, off⟩, m.length - off + 1, o⟩]⟩)
    (hend : transmit (udpWrite (memory m beyond) fuel) (memory m beyond) ⟨.endStr, 0⟩
      (END_STR.length + 1) 0 net₃ = some (re, net')) :
    (∃ e, delivered (memory m beyond) net'.sent = delivered (memory m beyond) net₁.sent ++
      ((List.replicate (copies outs) (m.take SMALL_BUFFER_SIZE) ++
        delivered (memory m beyond) (pieceSends SMALL_BUFFER_SIZE outss) ++ lastDatagram m o) ++
          (END_STR ++ [0]) :: List.replicate e (END_STR ++ [0]))) ∧
      ∀ s ∈ net'.sent, s ∈ net₁.sent ∨ Inside m s := by
  have hle : off ≤ m.length := hoff ▸ Nat.mul_div_le _ _
  have hfirst : SMALL_BUFFER_SIZE ≤ off := hoff ▸ Nat.le_mul_of_pos_right _ hpos
  have hpieces : 0 + SMALL_BUFFER_SIZE * (outs :: outss).length ≤ m.length := by
    rw [List.length_cons, hnum, Nat.sub_add_cancel hpos, ← hoff]
    omega
  obtain ⟨outs', hsends, -⟩ := transmit_short isAck_endStr (Nat.le_refl _) hend
  constructor
  · have hlast : delivered (memory m beyond) [⟨⟨.message, off⟩, m.length - off + 1, o⟩] =
        lastDatagram m o := by
      unfold lastDatagram
      rw [← hoff, ← @load_last m beyond off hle]
      cases o <;> rfl
    refine ⟨outs'.countP (· ≠ .lost), ?_⟩
    rw [hsends.delivered_eq, hnet₃, delivered_append, hnet₂, delivered_append, hlast, pieceSends,
      delivered_append, delivered_repeated, load_piece (by omega), List.drop_zero,
      ← List.replicate_succ]
    simp only [List.append_assoc]
    rfl
  · intro s hs
    rw [hsends.sent, hnet₃, List.mem_append, hnet₂] at hs
    simp only [List.mem_append, List.mem_singleton] at hs
    rcases hs with ((hs | hs) | rfl) | hs
    · exact .inl hs
    · exact .inr (inside_pieces _ hpieces s hs)
    · refine .inr fun _ => ?_
      show off + (m.length - off + 1) ≤ _
      omega
    · obtain ⟨o', -, rfl⟩ := List.mem_map.mp hs
      exact .inr fun h => by cases h

/-- A total that is too small makes the last piece too long. -/
theorem overrun {fuel k ret₂ ret₃ re : Nat} {net₂ net₃ net' : Net} (hlt : ret₂ < k)
    (hlast : transmit (udpWrite mem fuel) mem ⟨.message, k⟩ (m.length - ret₂ + 1) ret₂ net₂ =
      some (ret₃, net₃))
    (hk : k ≤ m.length)
    (hend : transmit (udpWrite mem fuel) mem ⟨.endStr, 0⟩ (END_STR.length + 1) 0 net₃ =
      some (re, net')) :
    ∃ s ∈ net'.sent, ¬ Inside m s := by
  obtain ⟨o₁, hext₁⟩ := transmit_extends udpWrite_extends hlast
  obtain ⟨o₂, hext₂⟩ := transmit_extends udpWrite_extends hend
  have hext := hext₁.trans ((List.prefix_append _ _).trans hext₂)
  refine ⟨_, hext.subset (List.mem_append_right _ (List.mem_singleton_self _)), ?_⟩
  intro hin
  have hin := hin rfl
  simp only at hin
  omega

/-- The pieces of the message after the begin marker was acked at once, and the rest of the script. -/
theorem write_message (h0 : 0 ∉ m) (hlen : SMALL_BUFFER_SIZE < m.length) {fuel ret₂ ret₃ re : Nat}
    {buffer₂ : Ptr} {net₁ net₂ net₃ net' : Net}
    (hpieces : sendPieces (udpWrite (memory m beyond) fuel) (memory m beyond)
      (m.length / SMALL_BUFFER_SIZE) ⟨.message, 0⟩ 0 net₁ = some (buffer₂, ret₂, net₂))
    (hlast : transmit (udpWrite (memory m beyond) fuel) (memory m beyond) buffer₂ (m.length - ret₂ + 1)
      ret₂ net₂ = some (ret₃, net₃))
    (hend : transmit (udpWrite (memory m beyond) fuel) (memory m beyond) ⟨.endStr, 0⟩
      (END_STR.length + 1) 0 net₃ = some (re, net')) :
    ∃ outs outss o rest,
      net₁.script = outs ++ .acked :: (outss.flatMap (· ++ [.acked]) ++ o :: rest) ∧
      .acked ∉ outs ∧ (∀ outs ∈ outss, .acked ∉ outs) ∧
      outss.length = m.length / SMALL_BUFFER_SIZE - 1 ∧
      if (∀ outs ∈ outss, outs = []) then
        if o = .acked ∨ m.drop (SMALL_BUFFER_SIZE * (m.length / SMALL_BUFFER_SIZE)) = ackStr then
          ret₃ = m.length + 1 ∧
          (∃ e, delivered (memory m beyond) net'.sent = delivered (memory m beyond) net₁.sent ++
            ((List.replicate (copies outs) (m.take SMALL_BUFFER_SIZE) ++
              delivered (memory m beyond) (pieceSends SMALL_BUFFER_SIZE outss) ++ lastDatagram m o) ++
                (END_STR ++ [0]) :: List.replicate e (END_STR ++ [0]))) ∧
          ∀ s ∈ net'.sent, s ∈ net₁.sent ∨ Inside m s
        else ret₃ ≤ SMALL_BUFFER_SIZE
      else ∃ s ∈ net'.sent, ¬ Inside m s := by
  have hmod := Nat.div_add_mod m.length SMALL_BUFFER_SIZE
  have hlt : m.length % SMALL_BUFFER_SIZE < SMALL_BUFFER_SIZE := Nat.mod_lt _ (by decide)
  have hpos : 0 < m.length / SMALL_BUFFER_SIZE := Nat.div_pos (Nat.le_of_lt hlen) (by decide)
  obtain ⟨rfl, outss₀, hnum, hret₂, hscript, htime, hsent⟩ := sendPieces_spec h0 _ _ (by omega) hpieces
  obtain ⟨outs, outss, rfl⟩ : ∃ outs outss, outss₀ = outs :: outss := by
    cases outss₀ with
    | nil =>
      rw [← hnum] at hpos
      cases hpos
    | cons outs outss => exact ⟨outs, outss, rfl⟩
  rw [List.length_cons] at hnum
  rw [List.forall_mem_cons] at htime
  -- the first piece leaves five in the total, whether it timed out or not
  have htotal : ret₂ = total SMALL_BUFFER_SIZE outss := by
    rw [hret₂, total, List.foldl_cons, ← total, Nat.zero_add, ite_self]
  have hoff : SMALL_BUFFER_SIZE * (m.length / SMALL_BUFFER_SIZE) =
      SMALL_BUFFER_SIZE + SMALL_BUFFER_SIZE * outss.length := by
    rw [← hnum, Nat.mul_succ, Nat.add_comm]
  obtain ⟨o, rest, hrest⟩ := transmit_script hlast
  refine ⟨outs, outss, o, rest, ?_, htime.1, htime.2, by omega, ?_⟩
  · rw [hscript, hrest, List.flatMap_cons]
    simp
  split
  · rename_i hall
    have hret : ret₂ = SMALL_BUFFER_SIZE * (m.length / SMALL_BUFFER_SIZE) := by
      rw [htotal, hoff, (total_eq_iff outss (by decide)).mpr hall]
    rw [hret, Nat.zero_add] at hlast
    obtain ⟨o', rest', hrest', hresult⟩ := transmit_last h0 (by omega) (by omega) hlast
    cases hrest.symm.trans hrest'
    split
    · rename_i ho
      rw [if_pos ho] at hresult
      exact ⟨hresult.1, send_last rfl (by omega) hpos hsent hresult.2 hend⟩
    · rename_i ho
      rw [if_neg ho] at hresult
      omega
  · rename_i hall
    have hlt₂ : ret₂ < SMALL_BUFFER_SIZE * (m.length / SMALL_BUFFER_SIZE) := by
      have hle := total_le outss SMALL_BUFFER_SIZE
      have hne := mt (total_eq_iff outss (show 0 < SMALL_BUFFER_SIZE by decide)).mp hall
      omega
    rw [Nat.zero_add] at hlast
    exact overrun hlt₂ hlast (by omega) hend

/-- Whatever was sent before the pieces stays. -/
theorem pieces_extend {fuel loop len ret₂ ret₃ re : Nat} {buffer buffer₂ : Ptr} {net₁ net₂ net₃ net' : Net}
    (hpieces : sendPieces (udpWrite mem fuel) mem loop buffer 0 net₁ = some (buffer₂, ret₂, net₂))
    (hlast : transmit (udpWrite mem fuel) mem buffer₂ len ret₂ net₂ = some (ret₃, net₃))
    (hend : transmit (udpWrite mem fuel) mem ⟨.endStr, 0⟩ (END_STR.length + 1) 0 net₃ =
      some (re, net')) : net₁.sent <+: net'.sent := by
  obtain ⟨o₁, hext₁⟩ := transmit_extends udpWrite_extends hlast
  obtain ⟨o₂, hext₂⟩ := transmit_extends udpWrite_extends hend
  exact (sendPieces_extends udpWrite_extends hpieces).trans
    (((List.prefix_append _ _).trans hext₁).trans ((List.prefix_append _ _).trans hext₂))

/-- The first message that the receiver puts together is the only one. -/
theorem Right.buffer_eq {tmpBuf : List UInt8} {ret : Nat} {sent : List Send} {r : Read}
    {rest : List (List UInt8)} (h : Right m beyond tmpBuf ret sent)
    (hread : udpRead tmpBuf (delivered (memory m beyond) sent) = some (r, rest))
    (hre : r.reassembled = true) : r.buffer = m := by
  obtain ⟨fuel, hserver⟩ := server_cons hread
  have hreceived := h.received
  rw [hserver, List.filter_cons_of_pos hre, List.map_cons] at hreceived
  exact List.head_eq_of_cons_eq hreceived

/-- When only end markers are left after the first call of `UDP_Read`. -/
theorem right_iff_buffer {tmpBuf : List UInt8} {ret : Nat} {sent : List Send} {r : Read} {e : Nat}
    (hread : udpRead tmpBuf (delivered (memory m beyond) sent) =
      some (r, List.replicate e (END_STR ++ [0])))
    (hre : r.reassembled = true) (hret : ret = m.length) (hin : ∀ s ∈ sent, Inside m s) :
    Right m beyond tmpBuf ret sent ↔ r.buffer = m ∧ m.length < BUFFER_SIZE := by
  obtain ⟨fuel, hserver⟩ := server_cons hread
  have hothers := server_endStr tmpBuf fuel e
  constructor
  · intro h
    have hm := h.buffer_eq hread hre
    refine ⟨hm, ?_⟩
    have hfits : r.Fits := h.fits r (hserver ▸ List.mem_cons_self)
    rwa [Read.Fits, hm] at hfits
  · rintro ⟨hm, hmax⟩
    refine ⟨hret, ?_, ?_, hin⟩
    · rw [hserver, List.filter_cons_of_pos hre, List.map_cons, hm,
        List.filter_eq_nil_iff.mpr fun x hx => by simp [(hothers x hx).1], List.map_nil]
    · intro x hx
      rw [hserver, List.mem_cons] at hx
      rcases hx with rfl | hx
      · rw [Read.Fits, hm]
        exact hmax
      · exact (hothers x hx).2

/-- With a right total the message arrives iff its first piece arrives once and its last piece does. -/
theorem right_iff_arrived (h0 : 0 ∉ m) (hlen : SMALL_BUFFER_SIZE < m.length) (hend : ¬ END_STR <:+: m)
    {tmpBuf : List UInt8} (htmp : tmpBuf.length = SMALL_BUFFER_SIZE) {outs : List Outcome}
    {outss : List (List Outcome)} (houtss : ∀ outs ∈ outss, outs = [])
    (hnum : outss.length = m.length / SMALL_BUFFER_SIZE - 1) {o : Outcome}
    (ho : o = .acked ∨ m.drop (SMALL_BUFFER_SIZE * (m.length / SMALL_BUFFER_SIZE)) = ackStr)
    {ret e : Nat} {sent : List Send}
    (hdelivered : delivered (memory m beyond) sent =
      BEGIN_STR :: (List.replicate (copies outs) (m.take SMALL_BUFFER_SIZE) ++
        delivered (memory m beyond) (pieceSends SMALL_BUFFER_SIZE outss) ++ lastDatagram m o) ++
          (END_STR ++ [0]) :: List.replicate e (END_STR ++ [0]))
    (hret : ret = m.length) (hin : ∀ s ∈ sent, Inside m s) :
    Right m beyond tmpBuf ret sent ↔ (copies outs = 1 ∧ o ≠ .lost) ∧ m.length < BUFFER_SIZE := by
  obtain ⟨r, hread, hre, hbuffer⟩ := @read_message m beyond h0 hlen hend tmpBuf htmp
    (copies outs) outss houtss hnum (lastDatagram m o) (fun d hd => mem_lastDatagram hd)
    (List.replicate e (END_STR ++ [0]))
  have hcopies : 0 < copies outs := Nat.succ_pos _
  rw [← hdelivered] at hread
  rw [right_iff_buffer hread hre hret hin, hbuffer, content_lastDatagram h0,
    buffer_eq_iff hlen hcopies hnum ho]

/-- A begin marker that was sent as a message is what the receiver gets. -/
theorem not_right_of_begin {tmpBuf : List UInt8} (htmp : tmpBuf.length = SMALL_BUFFER_SIZE)
    (hbegin : ¬ BEGIN_STR <:+: m) {script : List Outcome} {net₁ net' : Net}
    (h : BeginAsMessage (memory m beyond) ⟨script, []⟩ net₁) (hext : net₁.sent <+: net'.sent) {ret : Nat} :
    ¬ Right m beyond tmpBuf ret net'.sent := by
  intro hright
  obtain ⟨c, p, q, rest, hrest⟩ := h
  obtain ⟨rest', hrest'⟩ := @delivered_of_extends (memory m beyond) _ _ hext
  obtain ⟨r, hread, hre, hpart⟩ := read_beginDatagrams htmp c p q (rest ++ rest')
  have hall : delivered (memory m beyond) net'.sent = beginDatagrams c p q ++ (rest ++ rest') := by
    rw [← hrest', hrest, List.append_assoc, List.append_assoc]
    rfl
  rw [← hall] at hread
  exact hbegin (hright.buffer_eq hread hre ▸ hpart)

/-- **Time-outs and retries.**  For a message without marker strings and every script for which
`UDP_Write` returns, both sides end as they should iff the script is steady and the receiver's buffer is
large enough. -/
theorem retry_iff (h0 : 0 ∉ m) (hlen : SMALL_BUFFER_SIZE < m.length) (hbegin : ¬ BEGIN_STR <:+: m)
    (hend : ¬ END_STR <:+: m) {tmpBuf : List UInt8} (htmp : tmpBuf.length = SMALL_BUFFER_SIZE)
    {script : List Outcome} {ret : Nat} {sent : List Send}
    (h : client m beyond script = some (ret, sent)) :
    Right m beyond tmpBuf ret sent ↔ Steady m script ∧ m.length < BUFFER_SIZE := by
  obtain ⟨⟨ret, net'⟩, hwrite, hres⟩ := Option.map_eq_some_iff.mp h
  cases hres
  rw [udpWrite, if_pos hlen] at hwrite
  obtain ⟨rb, net₁, buffer₂, ret₂, net₂, ret₃, net₃, re, hb, hpieces, hlast, he, hret⟩ :=
    writeLarge_parts hwrite
  obtain ⟨ob, script, rfl, hb⟩ := begin_transmit begin_retry hb
  by_cases hob : ob = .acked
  · rw [if_pos hob] at hb
    subst hob hb
    obtain ⟨outs, outss, o, rest, hscript, houts, houtss, hnum, hcase⟩ :=
      write_message h0 hlen hpieces hlast he
    simp only at hscript
    rw [hscript, steady_iff houts houtss hnum]
    by_cases hall : ∀ outs ∈ outss, outs = []
    · rw [if_pos hall] at hcase
      by_cases ho : o = .acked ∨ m.drop (SMALL_BUFFER_SIZE * (m.length / SMALL_BUFFER_SIZE)) = ackStr
      · rw [if_pos ho] at hcase
        obtain ⟨hret₃, ⟨e, hdelivered⟩, hin⟩ := hcase
        have hresult : ret = m.length := by
          rw [hret, if_pos (by omega)]
        have hinside : ∀ s ∈ net'.sent, Inside m s := by
          intro s hs
          refine (hin s hs).elim (fun hmem => ?_) id
          rw [List.mem_singleton.mp hmem]
          exact fun hsrc => by cases hsrc
        rw [right_iff_arrived h0 hlen hend htmp hall hnum ho hdelivered hresult hinside]
        have harrives : o ≠ .lost ↔ o = .acked ∨ o = .late ∧
            m.drop (SMALL_BUFFER_SIZE * (m.length / SMALL_BUFFER_SIZE)) = ackStr := by
          cases o <;> simp_all
        rw [harrives, and_iff_right hall]
      · rw [if_neg ho] at hcase
        -- the result is the length of the last piece
        constructor
        · intro hright
          have hresult := hret.symm.trans hright.result
          split at hresult <;> omega
        · rintro ⟨⟨-, -, hok⟩, -⟩
          exact absurd (hok.imp id And.right) ho
    · rw [if_neg hall] at hcase
      obtain ⟨s, hs, hout⟩ := hcase
      -- the last piece was sent with too large a length
      constructor
      · exact fun hright => absurd (hright.inside s hs) hout
      · exact fun hsteady => absurd hsteady.1.2.1 hall
  · rw [if_neg hob] at hb
    -- the receiver first gets the begin marker as a message
    constructor
    · intro hright
      exact absurd hright (not_right_of_begin htmp hbegin hb (pieces_extend hpieces hlast he))
    · rintro ⟨⟨j, o, rest, hscript, -⟩, -⟩
      exact absurd (List.head_eq_of_cons_eq hscript) hob

/-- The first piece of `"abcdef"` is lost once. -/
theorem lostPiece_right : Right [97, 98, 99, 100, 101, 102] (fun _ => 0) [0, 0, 0, 0, 0] 6
    [⟨⟨.beginStr, 0⟩, 6, .acked⟩, ⟨⟨.message, 0⟩, 5, .lost⟩, ⟨⟨.message, 0⟩, 5, .acked⟩,
      ⟨⟨.message, 5⟩, 2, .acked⟩, ⟨⟨.endStr, 0⟩, 5, .acked⟩] :=
  have hclient : client [97, 98, 99, 100, 101, 102] (fun _ => 0) [.acked, .lost, .acked, .acked, .acked] =
      some (6, [⟨⟨.beginStr, 0⟩, 6, .acked⟩, ⟨⟨.message, 0⟩, 5, .lost⟩, ⟨⟨.message, 0⟩, 5, .acked⟩,
        ⟨⟨.message, 5⟩, 2, .acked⟩, ⟨⟨.endStr, 0⟩, 5, .acked⟩]) := by decide
  (retry_iff (by decide) (by decide) (by decide) (by decide) (by decide) hclient).mpr
    ⟨⟨1, .acked, [.acked], by decide, .inl rfl⟩, by decide⟩

/-- The ack of the first piece of `"abcdef"` is late, and the receiver gets `"abcdeabcdef"`. -/
theorem latePiece_not_right : ∃ sent,
    client [97, 98, 99, 100, 101, 102] (fun _ => 0) [.acked, .late, .acked, .acked, .acked] =
      some (6, sent) ∧ ¬ Right [97, 98, 99, 100, 101, 102] (fun _ => 0) [0, 0, 0, 0, 0] 6 sent := by
  refine ⟨[⟨⟨.beginStr, 0⟩, 6, .acked⟩, ⟨⟨.message, 0⟩, 5, .late⟩, ⟨⟨.message, 0⟩, 5, .acked⟩,
    ⟨⟨.message, 5⟩, 2, .acked⟩, ⟨⟨.endStr, 0⟩, 5, .acked⟩], by decide, ?_⟩
  intro h
  have hreceived := h.received
  revert hreceived
  decide

end OstepHw.Udp
