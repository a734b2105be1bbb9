import OstepHw.Lib.Pieces
import OstepHw.Webserver.Request

/-!
# `request.c`: reading the headers

Model of `readline` in `concurrency-webserver/io_helper.c` and of `request_read_headers`, on the bytes that the client
sends before it closes the connection: `read` gives one after the other, then 0 for ever, and never fails.  An array
is a function of the index, with what it held before as its other values; the loop that may not end has fuel.

* `readline_full`, `readline_partial` — a line, cut after `MAXBUF - 1` bytes, and what is left at the end of the file;
* `returns_iff` — the streams on which `request_read_headers` returns;
* `comes_back_iff` — **the requests from which the master thread comes back**.
-/

set_option autoImplicit false

namespace OstepHw.Webserver

open CString OstepHw.Path Pieces

def newline : UInt8 := 10

/-- `"\r\n"` -/
def crlf : List UInt8 := [13, 10]

/-- The array after `bytes` have been written to its start. -/
def fillArray (bytes : List UInt8) (buf : Nat → UInt8) : Nat → UInt8 := fun i => bytes[i]?.getD (buf i)

/-- `strcmp(buf, s) == 0` -/
def streq (buf : Nat → UInt8) (s : List UInt8) : Prop := ∀ i, i ≤ s.length → buf i = s[i]?.getD 0

instance (buf : Nat → UInt8) (s : List UInt8) : Decidable (streq buf s) :=
  inferInstanceAs (Decidable (∀ i, i ≤ s.length → _))

/-- What `readline` returns, the array, and what is left of the stream. -/
structure Line where
  n : Int
  buf : Nat → UInt8
  rest : List UInt8

/-- The loop of `readline`; `got` has been written to `buf`. -/
def readlineLoop (maxlen : Nat) (buf : Nat → UInt8) : (got stream : List UInt8) → Line
  | got, [] =>
    if got.length < maxlen - 1 ∧ got.length = 1 then ⟨0, fillArray got buf, []⟩
    else ⟨got.length, fillArray (got ++ [0]) buf, []⟩
  | got, c :: stream =>
    if got.length < maxlen - 1 then
      if c = newline then ⟨got.length, fillArray (got ++ [c] ++ [0]) buf, stream⟩
      else readlineLoop maxlen buf (got ++ [c]) stream
    else ⟨got.length, fillArray (got ++ [0]) buf, c :: stream⟩

def readline (stream : List UInt8) (buf : Nat → UInt8) (maxlen : Nat) : Line :=
  readlineLoop maxlen buf [] stream

def requestReadHeaders : (fuel : Nat) → (stream : List UInt8) → (buf : Nat → UInt8) → Option Int
  | 0, _, _ => none
  | fuel + 1, stream, buf =>
    let line := readline stream buf MAXBUF
    if line.n = -1 then some (-1)
    else if streq line.buf crlf then some 0
    else requestReadHeaders fuel line.rest line.buf

/-! ## One line -/

/-- A line is complete: it has its newline, or all the room there is. -/
def complete (maxlen : Nat) (line : List UInt8) : Bool :=
  line.getLast? = some newline || line.length = maxlen - 1

/-- What a complete line looks like. -/
def Whole (maxlen : Nat) (line : List UInt8) : Prop :=
  ∃ p c, line = p ++ [c] ∧ newline ∉ p ∧ (c = newline ∨ line.length = maxlen - 1)

variable {maxlen : Nat} {buf : Nat → UInt8} {got stream : List UInt8}

theorem complete_append (c : UInt8) :
    complete maxlen (got ++ [c]) = true ↔ c = newline ∨ (got ++ [c]).length = maxlen - 1 := by
  simp [complete]

/-- Either the line that was begun becomes complete, or the file ends before that. -/
theorem readlineLoop_spec (buf : Nat → UInt8) (stream : List UInt8) (hroom : got.length < maxlen - 1)
    (hgot : newline ∉ got) :
    (∃ line rest n, Whole maxlen line ∧
        pieces (complete maxlen) got stream = line :: pieces (complete maxlen) [] rest ∧ 0 ≤ n ∧
        readlineLoop maxlen buf got stream = ⟨n, fillArray (line ++ [0]) buf, rest⟩) ∨
      newline ∉ got ++ stream ∧ pieces (complete maxlen) got stream = pieces (complete maxlen) (got ++ stream) [] ∧
        readlineLoop maxlen buf got stream = readlineLoop maxlen buf (got ++ stream) [] := by
  induction stream generalizing got with
  | nil => exact .inr (by simpa using hgot)
  | cons c stream ih =>
    by_cases hc : c = newline
    · refine .inl ⟨got ++ [c], stream, got.length, ⟨got, c, rfl, hgot, .inl hc⟩,
        pieces_cons_of_full ((complete_append c).2 (.inl hc)), by omega, ?_⟩
      rw [readlineLoop, if_pos hroom, if_pos hc]
    have hnext : newline ∉ got ++ [c] := by
      rw [List.mem_append, List.mem_singleton]
      exact fun h => h.elim hgot fun h => hc h.symm
    have hstep : readlineLoop maxlen buf got (c :: stream) = readlineLoop maxlen buf (got ++ [c]) stream := by
      rw [readlineLoop, if_pos hroom, if_neg hc]
    rw [hstep]
    by_cases hlast : (got ++ [c]).length = maxlen - 1
    · -- no room is left: the loop stops before it reads again
      refine .inl ⟨got ++ [c], stream, (got ++ [c]).length, ⟨got, c, rfl, hgot, .inr hlast⟩,
        pieces_cons_of_full ((complete_append c).2 (.inr hlast)), by omega, ?_⟩
      cases stream with
      | nil => rw [readlineLoop, if_neg (by omega)]
      | cons d stream => rw [readlineLoop, if_neg (by omega)]
    · have hpiece : pieces (complete maxlen) got (c :: stream) = pieces (complete maxlen) (got ++ [c]) stream :=
        pieces_cons_of_not_full fun h => ((complete_append c).1 h).elim hc hlast
      have hmore := ih (by rw [List.length_append, List.length_singleton] at hlast ⊢; omega) hnext
      rw [List.append_assoc, List.singleton_append] at hmore
      rw [hpiece]
      exact hmore

/-- The lines of the stream, as `readline` cuts it. -/
def streamLines (stream : List UInt8) : List (List UInt8) := pieces (complete MAXBUF) [] stream

theorem MAXBUF_room : ([] : List UInt8).length < MAXBUF - 1 := by decide

/-- What is read at the end of the file: a single byte is not terminated. -/
theorem readline_eof (h : newline ∉ stream) (hpart : readline stream buf MAXBUF = readlineLoop MAXBUF buf stream []) :
    (readline stream buf MAXBUF).n ≠ -1 ∧ (readline stream buf MAXBUF).rest = [] ∧
      (streq (readline stream buf MAXBUF).buf crlf ↔ stream = [13] ∧ buf 1 = newline ∧ buf 2 = 0) := by
  rw [hpart, readlineLoop]
  by_cases hone : stream.length = 1
  · obtain ⟨c, rfl⟩ := List.length_eq_one_iff.1 hone
    rw [if_pos ⟨hone ▸ (by decide : 1 < MAXBUF - 1), hone⟩]
    refine ⟨show (0 : Int) ≠ -1 by decide, rfl, fun hstr => ⟨?_, hstr 1 (by decide), hstr 2 (by decide)⟩, ?_⟩
    · have hfirst : c = 13 := hstr 0 (by decide)
      rw [hfirst]
    · rintro ⟨hc, hsecond, hthird⟩ i hi
      obtain rfl : c = 13 := by simpa using hc
      match i, hi with
      | 0, _ => rfl
      | 1, _ => exact hsecond
      | 2, _ => exact hthird
  · rw [if_neg fun h => hone h.2]
    refine ⟨by simp only; omega, rfl, iff_of_false (fun hstr => ?_) fun hstream => hone (by rw [hstream.1]; rfl)⟩
    have hsecond : fillArray (stream ++ [0]) buf 1 = newline := hstr 1 (by decide)
    match stream, h, hone with
    | [], _, _ => exact absurd (hstr 0 (by decide)) (by simp [fillArray, crlf])
    | [_], _, hone => exact hone rfl
    | _ :: d :: stream, h, _ =>
      have hd : d = newline := hsecond
      exact h (by simp [hd])

/-- The blank line is the only complete line that is taken for it. -/
theorem streq_whole {line : List UInt8} (hline : Whole MAXBUF line) :
    streq (fillArray (line ++ [0]) buf) crlf ↔ line = crlf := by
  obtain ⟨p, c, rfl, hp, hc⟩ := hline
  constructor
  · intro hstr
    have hfirst : fillArray (p ++ [c] ++ [0]) buf 0 = 13 := hstr 0 (by decide)
    have hsecond : fillArray (p ++ [c] ++ [0]) buf 1 = newline := hstr 1 (by decide)
    match p, hp with
    | [], _ => exact absurd hsecond (by simp [fillArray, newline])
    | [b], _ =>
      have hb : b = 13 := hfirst
      have hc : c = newline := hsecond
      rw [hb, hc]
      rfl
    | _ :: d :: p, hp =>
      have hd : d = newline := hsecond
      exact absurd (by simp [hd]) hp
  · intro hline i hi
    rw [hline]
    match i, hi with
    | 0, _ => rfl
    | 1, _ => rfl
    | 2, _ => rfl

/-! ## The loop -/

def Returns (stream : List UInt8) (buf : Nat → UInt8) : Prop :=
  ∃ fuel rc, requestReadHeaders fuel stream buf = some rc

theorem returns_step (hn : (readline stream buf MAXBUF).n ≠ -1) :
    Returns stream buf ↔ streq (readline stream buf MAXBUF).buf crlf ∨
      Returns (readline stream buf MAXBUF).rest (readline stream buf MAXBUF).buf := by
  constructor
  · rintro ⟨fuel, rc, hrun⟩
    cases fuel with
    | zero => cases hrun
    | succ fuel =>
      simp only [requestReadHeaders, if_neg hn] at hrun
      split at hrun
      · next hstr => exact .inl hstr
      · exact .inr ⟨fuel, rc, hrun⟩
  · rintro (hstr | ⟨fuel, rc, hrun⟩)
    · exact ⟨1, 0, by simp only [requestReadHeaders, if_neg hn, if_pos hstr]⟩
    · by_cases hstr : streq (readline stream buf MAXBUF).buf crlf
      · exact ⟨1, 0, by simp only [requestReadHeaders, if_neg hn, if_pos hstr]⟩
      · exact ⟨fuel + 1, rc, by simp only [requestReadHeaders, if_neg hn, if_neg hstr, hrun]⟩

/-- At the end of the file there is no way out. -/
theorem not_returns_eof (buf : Nat → UInt8) : ¬Returns [] buf := by
  rintro ⟨fuel, rc, hrun⟩
  have hstr (buf : Nat → UInt8) : ¬streq (readline [] buf MAXBUF).buf crlf := fun h =>
    absurd (h 0 (by decide)) (show (0 : UInt8) ≠ 13 by decide)
  induction fuel generalizing buf with
  | zero => cases hrun
  | succ fuel ih =>
    simp only [requestReadHeaders, if_neg (hstr buf)] at hrun
    exact ih _ hrun

/-- Among the lines `ls` is one after which the loop ends: the blank line; or, at the end of the file, the first byte
of one, after a line from which the array still has the newline and the zero behind it. -/
def Ends (ls : List (List UInt8)) (buf : Nat → UInt8) : Prop :=
  crlf ∈ ls ∨ (∃ before x, ls = before ++ [[x, newline], [13]]) ∨ ls = [[13]] ∧ buf 1 = newline ∧ buf 2 = 0

/-- Which line leaves a newline and a zero in the array. -/
theorem store_whole {line : List UInt8} (hline : Whole MAXBUF line) :
    fillArray (line ++ [0]) buf 1 = newline ∧ fillArray (line ++ [0]) buf 2 = 0 ↔ ∃ x, line = [x, newline] := by
  constructor
  · obtain ⟨p, c, rfl, hp, hc⟩ := hline
    rintro ⟨hsecond, -⟩
    match p, hp with
    | [], _ => exact absurd hsecond (show (0 : UInt8) ≠ newline by decide)
    | [b], _ =>
      have hc : c = newline := hsecond
      exact ⟨b, by rw [hc]; rfl⟩
    | _ :: d :: p, hp =>
      have hd : d = newline := hsecond
      exact absurd (by simp [hd]) hp
  · rintro ⟨x, rfl⟩
    exact ⟨rfl, rfl⟩

theorem ends_cons {line : List UInt8} (hline : Whole MAXBUF line) (ls : List (List UInt8)) :
    Ends (line :: ls) buf ↔ line = crlf ∨ Ends ls (fillArray (line ++ [0]) buf) := by
  have hlone : line ≠ [13] := by
    rintro rfl
    obtain ⟨p, c, hpc, -, hc⟩ := hline
    rcases hc with hc | hc
    · have hlast := congrArg List.getLast? hpc
      simp [hc, newline] at hlast
    · exact absurd hc (by decide)
  have htail : (∃ before x, line :: ls = before ++ [[x, newline], [13]]) ↔
      (∃ before x, ls = before ++ [[x, newline], [13]]) ∨ ls = [[13]] ∧ ∃ x, line = [x, newline] := by
    constructor
    · rintro ⟨before, x, hls⟩
      cases before with
      | nil =>
        obtain ⟨hfirst, hrest⟩ := List.cons.inj hls
        exact .inr ⟨hrest, x, hfirst⟩
      | cons b before => exact .inl ⟨before, x, (List.cons.inj hls).2⟩
    · rintro (⟨before, x, rfl⟩ | ⟨rfl, x, rfl⟩)
      · exact ⟨line :: before, x, rfl⟩
      · exact ⟨[], x, rfl⟩
  unfold Ends
  rw [List.mem_cons, htail, store_whole hline, eq_comm]
  have hno : ¬(line :: ls = [[13]] ∧ buf 1 = newline ∧ buf 2 = 0) := fun h => hlone (List.cons.inj h.1).1
  simp only [hno, or_false, or_assoc]

/-- A line that the end of the file cuts off. -/
theorem ends_partial (h : newline ∉ stream) :
    Ends (pieces (complete MAXBUF) stream []) buf ↔ stream = [13] ∧ buf 1 = newline ∧ buf 2 = 0 := by
  by_cases hnil : stream = []
  · subst hnil
    unfold Ends
    simp [pieces]
  · have hblank : crlf ≠ stream := by
      rintro rfl
      exact h (by decide)
    have hone : ¬∃ before x, [stream] = before ++ [[x, newline], [13]] := by
      rintro ⟨before, x, hls⟩
      have hlength := congrArg List.length hls
      simp at hlength
    unfold Ends
    rw [pieces_nil hnil, List.mem_singleton, or_iff_right hblank, or_iff_right hone, List.singleton_inj]

/-- **Where the headers end**: `request_read_headers` returns exactly on these streams. -/
theorem returns_iff (stream : List UInt8) (buf : Nat → UInt8) :
    Returns stream buf ↔ Ends (streamLines stream) buf := by
  induction hlen : stream.length using Nat.strong_induction_on generalizing stream buf with
  | _ len ih =>
    rcases readlineLoop_spec buf stream MAXBUF_room List.not_mem_nil with
      ⟨line, rest, n, hline, hpieces, hn, hrun⟩ | ⟨hstream, hpieces, hrun⟩
    · have hread : readline stream buf MAXBUF = ⟨n, fillArray (line ++ [0]) buf, rest⟩ := hrun
      have hshorter : rest.length < stream.length := by
        have hflat := congrArg List.flatten hpieces
        rw [flatten_pieces, List.flatten_cons, flatten_pieces, List.nil_append, List.nil_append] at hflat
        obtain ⟨p, c, rfl, -, -⟩ := hline
        rw [hflat, List.length_append, List.length_append, List.length_singleton]
        omega
      rw [returns_step (by rw [hread]; simp only; omega), hread, streamLines, hpieces, ends_cons hline,
        streq_whole hline, ih rest.length (hlen ▸ hshorter) rest _ rfl]
      rfl
    · rw [List.nil_append] at hstream hpieces hrun
      obtain ⟨hn, hrest, hstr⟩ := readline_eof hstream hrun
      rw [returns_step hn, hstr, hrest, streamLines, hpieces, ends_partial hstream, or_iff_left (not_returns_eof _)]

/-! ## The master thread -/

/-- The arrays of `pre_handle_request` and `request_read_headers` before anything is written to them. -/
structure Arrays where
  buf : Nat → UInt8
  uri : List UInt8
  headers : Nat → UInt8

/-- The connection after the request line. -/
def afterLine (fd : Int) (error : Bool) (arrays : Arrays) (line : Line) : Conn where
  fd
  buf := if line.n = -1 then none else some ((List.range MAXBUF).map line.buf)
  uri := arrays.uri
  headers := true
  error

/-- The string in `uri` has `..`, so that the headers are not read. -/
def forbidden (conn : Conn) : Bool :=
  match conn.buf with
  | none => false
  | some buf => decide (dotdot <:+: (uriToken buf).getD (cstr conn.uri))

/-- `pre_handle_request` on a stream; `fuel` is for the headers. -/
def preHandleStream (fuel : Nat) (stat : List UInt8 → Option Stat) (fd : Int) (error : Bool) (arrays : Arrays)
    (stream : List UInt8) : Option (Except Result BufferT) :=
  let line := readline stream arrays.buf MAXBUF
  let conn := afterLine fd error arrays line
  if line.n = -1 ∨ forbidden conn then some (preHandleRequest stat conn)
  else
    (requestReadHeaders fuel line.rest arrays.headers).map fun rc =>
      preHandleRequest stat { conn with headers := rc ≠ -1 }

/-- The uri that the first line asks for is refused before the headers are read. -/
def Refused (arrays : Arrays) (stream : List UInt8) : Prop :=
  forbidden (afterLine 0 false arrays (readline stream arrays.buf MAXBUF))

theorem readline_n_ne (stream : List UInt8) (buf : Nat → UInt8) : (readline stream buf MAXBUF).n ≠ -1 := by
  rcases readlineLoop_spec buf stream MAXBUF_room List.not_mem_nil with
    ⟨line, rest, n, -, -, hn, hrun⟩ | ⟨hstream, -, hrun⟩
  · have hread : (readline stream buf MAXBUF).n = n := congrArg Line.n hrun
    omega
  · rw [List.nil_append] at hstream hrun
    exact (readline_eof hstream hrun).1

/-- The first line is gone. -/
theorem streamLines_rest (stream : List UInt8) (buf : Nat → UInt8) :
    streamLines (readline stream buf MAXBUF).rest = (streamLines stream).tail := by
  unfold streamLines
  rcases readlineLoop_spec buf stream MAXBUF_room List.not_mem_nil with
    ⟨line, rest, n, -, hpieces, -, hrun⟩ | ⟨hstream, hpieces, hrun⟩
  · have hread : (readline stream buf MAXBUF).rest = rest := congrArg Line.rest hrun
    rw [hpieces, hread, List.tail_cons]
  · rw [List.nil_append] at hstream hrun hpieces
    rw [(readline_eof hstream hrun).2.1, hpieces]
    cases stream <;> rfl

def ComesBack (stat : List UInt8 → Option Stat) (fd : Int) (error : Bool) (arrays : Arrays) (stream : List UInt8) :
    Prop :=
  ∃ fuel result, preHandleStream fuel stat fd error arrays stream = some result

/-- **The requests from which the master thread comes back**: the uri is refused, or the lines after the first one
end the loop that reads the headers. -/
theorem comes_back_iff (stat : List UInt8 → Option Stat) (fd : Int) (error : Bool) (arrays : Arrays)
    (stream : List UInt8) :
    ComesBack stat fd error arrays stream ↔
      Refused arrays stream ∨ Ends (streamLines stream).tail arrays.headers := by
  have hn := readline_n_ne stream arrays.buf
  rw [← streamLines_rest stream arrays.buf, ← returns_iff]
  unfold ComesBack preHandleStream
  by_cases hrefused : Refused arrays stream
  · refine iff_of_true ⟨0, _, if_pos (.inr hrefused)⟩ (.inl hrefused)
  · rw [or_iff_right hrefused]
    have hreads : ¬((readline stream arrays.buf MAXBUF).n = -1 ∨
        forbidden (afterLine fd error arrays (readline stream arrays.buf MAXBUF))) :=
      fun h => h.elim hn hrefused
    simp only [if_neg hreads, Option.map_eq_some_iff]
    constructor
    · rintro ⟨fuel, result, rc, hrun, -⟩
      exact ⟨fuel, rc, hrun⟩
    · rintro ⟨fuel, rc, hrun⟩
      exact ⟨fuel, _, rc, hrun, rfl⟩

/-- `GET /` and the end of the file: the master thread reads headers for ever. -/
theorem no_headers_hangs :
    ¬ComesBack (fun _ => none) 4 true ⟨fun _ => 0, [], fun _ => 0⟩ [71, 69, 84, 32, 47, 13, 10] := by
  rintro ⟨fuel, result, hrun⟩
  have hreads : ¬((readline [71, 69, 84, 32, 47, 13, 10] (fun _ => 0) MAXBUF).n = -1 ∨
      forbidden (afterLine 4 true ⟨fun _ => 0, [], fun _ => 0⟩
        (readline [71, 69, 84, 32, 47, 13, 10] (fun _ => 0) MAXBUF))) := by
    decide +kernel
  have hrest : (readline [71, 69, 84, 32, 47, 13, 10] (fun _ => 0) MAXBUF).rest = [] := by decide
  simp only [preHandleStream, if_neg hreads, Option.map_eq_some_iff, hrest] at hrun
  obtain ⟨rc, hheaders, -⟩ := hrun
  exact not_returns_eof _ ⟨fuel, rc, hheaders⟩

end OstepHw.Webserver
