import OstepHw.Lib.CString

/-!
# `UDP-lib.h`: large messages over datagrams

Model of `UDP_Write`, `wait_ack` and `UDP_Read` in `48/UDP-lib.h`, with `SEND_BEFORE_TIMER` and
`TEST_BIG_FILE` as defined there.

The channel is a script: for each datagram that the sender hands to `sendto` it says whether the
receiver gets it and whether `sem_timedwait` sees an ack in time.  A call of `UDP_Write` that needs more
outcomes than the script has does not return.  Datagrams that arrive do so in order, and an ack is
only seen for a datagram that arrived.

A buffer that is sent is memory, so that a length that is too large reads what lies behind the message.
-/

set_option autoImplicit false

namespace OstepHw.Udp

open CString

def SMALL_BUFFER_SIZE : Nat := 5

def BUFFER_SIZE : Nat := 65507

/-- `"0begin"` -/
def BEGIN_STR : List UInt8 := [48, 98, 101, 103, 105, 110]

/-- `"end1"` -/
def END_STR : List UInt8 := [101, 110, 100, 49]

/-- `"ack"` -/
def ackStr : List UInt8 := [97, 99, 107]

/-! ## Memory of the sender -/

inductive Src
  | message
  | beginStr
  | endStr
  deriving DecidableEq

/-- A `char *`. -/
structure Ptr where
  src : Src
  off : Nat
  deriving DecidableEq

def Ptr.add (p : Ptr) (n : Nat) : Ptr := { p with off := p.off + n }

/-- The message with its terminating zero, and what lies behind it. -/
def memory (m : List UInt8) (beyond : Nat → UInt8) (i : Nat) : UInt8 :=
  (m ++ [0])[i]?.getD (beyond i)

/-- The byte at `p + k`. -/
def byteAt (mem : Nat → UInt8) (p : Ptr) (k : Nat) : UInt8 :=
  match p.src with
  | .message => mem (p.off + k)
  | .beginStr => BEGIN_STR.getD (p.off + k) 0
  | .endStr => END_STR.getD (p.off + k) 0

def load (mem : Nat → UInt8) (p : Ptr) (n : Nat) : List UInt8 := (List.range n).map (byteAt mem p)

/-! ## The channel -/

inductive Outcome
  /-- The datagram arrives, and its ack in time. -/
  | acked
  /-- It does not arrive, and `sem_timedwait` times out. -/
  | lost
  /-- It arrives, but `sem_timedwait` times out. -/
  | late
  deriving DecidableEq

/-- A call of `sendto`. -/
structure Send where
  buffer : Ptr
  len : Nat
  outcome : Outcome
  deriving DecidableEq

structure Net where
  script : List Outcome
  sent : List Send

/-- The number of bytes that were sent. -/
def sendto (buffer : Ptr) (len : Nat) (net : Net) : Option (Nat × Net) :=
  match net.script with
  | [] => none
  | o :: script => some (len, ⟨script, net.sent ++ [⟨buffer, len, o⟩]⟩)

/-- The datagrams that the receiver gets. -/
def delivered (mem : Nat → UInt8) (sent : List Send) : List (List UInt8) :=
  (sent.filter fun s => s.outcome ≠ .lost).map fun s => load mem s.buffer s.len

/-! ## `UDP_Write` -/

/-- `strncmp(buffer, "ack", 4) == 0` -/
def isAck (mem : Nat → UInt8) (buffer : Ptr) : Bool := cstr (load mem buffer 4) = ackStr

/-- A time-out calls `UDP_Write` again. -/
def waitAck (retry : Ptr → Nat → Net → Option (Nat × Net)) (mem : Nat → UInt8) (buffer : Ptr)
    (nread : Nat) (origRet : Nat) (net : Net) : Option (Nat × Net) :=
  if isAck mem buffer then some (origRet, net)
  else
    match net.sent.getLast? with
    | some ⟨_, _, .acked⟩ => some (origRet, net)
    | _ => retry buffer nread net

/-- `sendto` and then `wait_ack`: what `wait_ack` returns when it is given `ret` and the number of bytes
sent. -/
def transmit (retry : Ptr → Nat → Net → Option (Nat × Net)) (mem : Nat → UInt8) (buffer : Ptr)
    (nread : Nat) (ret : Nat) (net : Net) : Option (Nat × Net) := do
  let (n, net) ← sendto buffer nread net
  waitAck retry mem buffer nread (ret + n) net

/-- `for (int i=0; i<loop; i++)` -/
def sendPieces (retry : Ptr → Nat → Net → Option (Nat × Net)) (mem : Nat → UInt8) :
    Nat → Ptr → Nat → Net → Option (Ptr × Nat × Net)
  | 0, buffer, ret, net => some (buffer, ret, net)
  | loop + 1, buffer, ret, net => do
    let (ret, net) ← transmit retry mem buffer SMALL_BUFFER_SIZE ret net
    sendPieces retry mem loop (buffer.add SMALL_BUFFER_SIZE) ret net

/-- The first branch, for `nread > SMALL_BUFFER_SIZE`.  The results of `sendto` and `wait_ack` for the two
marker strings are not used. -/
def writeLarge (retry : Ptr → Nat → Net → Option (Nat × Net)) (mem : Nat → UInt8) (buffer : Ptr)
    (nread : Nat) (net : Net) : Option (Nat × Net) := do
  let (_, net) ← transmit retry mem ⟨.beginStr, 0⟩ BEGIN_STR.length 0 net
  let (buffer, ret, net) ← sendPieces retry mem (nread / SMALL_BUFFER_SIZE) buffer 0 net
  let leftCnt := nread - ret
  -- one more for the terminating zero
  let (ret, net) ← transmit retry mem buffer (leftCnt + 1) ret net
  let (_, net) ← transmit retry mem ⟨.endStr, 0⟩ (END_STR.length + 1) 0 net
  some (if ret > nread then nread else ret, net)

/-- `UDP_Write`; `fuel` bounds the depth of the calls by `wait_ack`, and the outcomes of the script
are fuel enough. -/
def udpWrite (mem : Nat → UInt8) : Nat → Ptr → Nat → Net → Option (Nat × Net)
  | 0, _, _, _ => none
  | fuel + 1, buffer, nread, net =>
    if nread > SMALL_BUFFER_SIZE then writeLarge (udpWrite mem fuel) mem buffer nread net
    else transmit (udpWrite mem fuel) mem buffer nread 0 net

/-- The sender calls `UDP_Write(m, strlen(m))` on a channel with the given script. -/
def client (m : List UInt8) (beyond : Nat → UInt8) (script : List Outcome) : Option (Nat × List Send) :=
  (udpWrite (memory m beyond) (script.length + 1) ⟨.message, 0⟩ m.length ⟨script, []⟩).map fun r =>
    (r.1, r.2.sent)

/-! ## `UDP_Read` -/

/-- What one call of `UDP_Read` leaves: the string in `buffer`, the value returned, the number of acks that
it sent, and whether the message came in pieces. -/
structure Read where
  buffer : List UInt8
  recvBytes : Nat
  acks : Nat
  reassembled : Bool
  deriving DecidableEq

/-- The string and its terminating zero lie inside `buffer`. -/
def Read.Fits (r : Read) : Prop := r.buffer.length < BUFFER_SIZE

/-- `recvfrom(sfd, buf, SMALL_BUFFER_SIZE, …)`: what does not fit is dropped. -/
def recvSmall (datagram tmpBuf : List UInt8) : List UInt8 :=
  datagram.take SMALL_BUFFER_SIZE ++ tmpBuf.drop (min SMALL_BUFFER_SIZE datagram.length)

/-- `while (1)` in `UDP_Read`.  A full piece has no terminating zero, and adds its five bytes to the
string. -/
def readPieces : List UInt8 → Read → List (List UInt8) → Option (Read × List (List UInt8))
  | _, _, [] => none
  | tmpBuf, r, d :: rest =>
    let tmpBuf := recvSmall d tmpBuf
    if cstr tmpBuf ≠ END_STR then
      readPieces tmpBuf { r with
        buffer := r.buffer ++ cstr tmpBuf
        recvBytes := r.recvBytes + min SMALL_BUFFER_SIZE d.length
        acks := r.acks + 1 } rest
    else some ({ r with acks := r.acks + 2 }, rest)

/-- The last test of `UDP_Read`: a message other than `"ack"` is acknowledged. -/
def Read.ackMessage (r : Read) : Read := if r.buffer ≠ ackStr then { r with acks := r.acks + 1 } else r

/-- One call of `UDP_Read` on the datagrams that arrive; `none` while it waits for more of them.
`tmp_buf` is not initialised. -/
def udpRead (tmpBuf : List UInt8) : List (List UInt8) → Option (Read × List (List UInt8))
  | [] => none
  | d :: rest =>
    if d = [] then some (⟨[], 0, 0, false⟩, rest)
    else if cstr d = BEGIN_STR then
      (readPieces tmpBuf ⟨[], 0, 0, true⟩ rest).map fun r => (r.1.ackMessage, r.2)
    else some ((Read.mk (cstr d) d.length 0 false).ackMessage, rest)

/-- The loop of the server: all calls of `UDP_Read` that return. -/
def server (tmpBuf : List UInt8) : Nat → List (List UInt8) → List Read
  | 0, _ => []
  | fuel + 1, datagrams =>
    match udpRead tmpBuf datagrams with
    | none => []
    | some (r, rest) => r :: server tmpBuf fuel rest

end OstepHw.Udp
