import OstepHw.Lib.CString
import OstepHw.Lib.Path

/-!
# `request.c`: from a request line to a path name

Model of `request_parse_uri` and `pre_handle_request` in `concurrency-webserver/request.c`.

What the socket and the file system answer is a parameter: the string that `readline` leaves in `buf`,
whether the header lines could be read and the error page be written, and `stat`.

* `Parsed.copied`, `cstr_copied` — the slot after the copies: a long path name runs on into `cgiargs`;
* `dotdot_mem_filename`, `dotdot_mem_pathname` — the two ways to a `..`: the dot that the code puts in
  front of the uri, and the cut;
* `uri_confined_iff` — the uris whose path name, in the slot too, stays below the base directory.
-/

set_option autoImplicit false

namespace OstepHw.Webserver

open CString OstepHw.Path

def MAXBUF : Nat := 512

def SMALL_BUF : Nat := 50

/-! ## The request line -/

def isspace (c : UInt8) : Bool := c = 32 || (9 ≤ c && c ≤ 13)

/-- What `%s` of `sscanf` takes from `s`. -/
def token (s : List UInt8) : List UInt8 := (s.dropWhile isspace).takeWhile fun c => !isspace c

/-- What `%s` leaves. -/
def afterToken (s : List UInt8) : List UInt8 := (s.dropWhile isspace).dropWhile fun c => !isspace c

/-- The second string of `sscanf(buf, "%s %s %s", method, uri, version)`, if the line has one. -/
def uriToken (buf : List UInt8) : Option (List UInt8) :=
  let uri := token (afterToken (cstr buf))
  if uri = [] then none else some uri

/-! ## `request_parse_uri` -/

/-- `"cgi"` -/
def cgi : List UInt8 := [99, 103, 105]

/-- `"index.html"` -/
def indexHtml : List UInt8 := [105, 110, 100, 101, 120, 46, 104, 116, 109, 108]

def questionMark : UInt8 := 63

/-- The part of the uri behind its first `?`. -/
def query (uri : List UInt8) : List UInt8 := (uri.dropWhile (· ≠ questionMark)).drop 1

structure Parsed where
  isStatic : Bool
  filename : List UInt8
  cgiargs : List UInt8
  deriving DecidableEq

def requestParseUri (uri : List UInt8) : Parsed :=
  if ¬ cgi <:+: uri then
    { isStatic := true
      filename := dot :: uri ++ if uri.getLast? = some slash then indexHtml else []
      cgiargs := [] }
  else
    { isStatic := false
      filename := dot :: uri.takeWhile (· ≠ questionMark)
      cgiargs := query uri }

/-- `filename[MAXBUF]` and `cgiargs[MAXBUF]` hold what is written into them. -/
def Parsed.Fits (p : Parsed) : Prop := p.filename.length < MAXBUF ∧ p.cgiargs.length < MAXBUF

/-- The bytes from `reqBuf->pathname` on after both `strcpy`; `cgiargs` is the field behind it. -/
def Parsed.copied (p : Parsed) (slot : List UInt8) : List UInt8 :=
  let slot := strcpy slot p.filename
  slot.take SMALL_BUF ++ strcpy (slot.drop SMALL_BUF) p.cgiargs

/-- The string that `pathname` holds then (`cstr_copied`). -/
def Parsed.pathname (p : Parsed) : List UInt8 :=
  if p.filename.length < SMALL_BUF then p.filename else p.filename.take SMALL_BUF ++ p.cgiargs

/-! ## `pre_handle_request` -/

/-- `enum result`, without `OK`. -/
inductive Result
  | NotFound
  | Forbidden
  | Error
  deriving DecidableEq

structure Stat where
  isReg : Bool
  rusr : Bool
  xusr : Bool
  size : Nat
  deriving DecidableEq

structure BufferT where
  fd : Int
  isStatic : Bool
  size : Nat
  pathname : List UInt8
  cgiargs : List UInt8
  handling : Bool
  deriving DecidableEq

/-- A connection: its descriptor, the string that `readline` leaves (`none` for `-1`), what `uri` holds
when the line has no second string, and whether the headers can be read and an error page written. -/
structure Conn where
  fd : Int
  buf : Option (List UInt8)
  uri : List UInt8
  headers : Bool
  error : Bool
  deriving DecidableEq

/-- What is stored in the slot when the result is `OK`. -/
def preHandleRequest (stat : List UInt8 → Option Stat) (conn : Conn) : Except Result BufferT :=
  match conn.buf with
  | none => .error .Error
  | some buf =>
    let uri := (uriToken buf).getD (cstr conn.uri)
    if dotdot <:+: uri then .error .Forbidden
    else if !conn.headers then .error .Error
    else
      let p := requestParseUri uri
      match stat p.filename with
      | none => .error (if conn.error then .NotFound else .Error)
      | some sbuf =>
        if !sbuf.isReg || !(if p.isStatic then sbuf.rusr else sbuf.xusr) then
          .error (if conn.error then .Forbidden else .Error)
        else
          .ok
            { fd := conn.fd
              isStatic := p.isStatic
              size := sbuf.size
              pathname := p.pathname
              cgiargs := p.cgiargs
              handling := false }

/-! ## The slot -/

theorem cstr_copied {p : Parsed} (hname : 0 ∉ p.filename) (hargs : 0 ∉ p.cgiargs) (slot : List UInt8) :
    cstr (p.copied slot) = p.pathname := by
  unfold Parsed.copied Parsed.pathname
  simp only [strcpy, cstr_of_not_mem hname, cstr_of_not_mem hargs]
  split
  · -- the zero behind the name is in the field
    next hlt =>
    obtain ⟨k, hk⟩ := Nat.exists_eq_add_of_lt hlt
    rw [List.take_append, List.take_of_length_le hlt.le, hk, Nat.add_assoc, Nat.add_sub_cancel_left,
      List.take_succ_cons, List.append_assoc, List.cons_append, cstr_append_zero hname]
  · next hle =>
    have hboth : 0 ∉ p.filename.take SMALL_BUF ++ p.cgiargs := by
      rw [List.mem_append, not_or]
      exact ⟨fun h => hname (List.mem_of_mem_take h), hargs⟩
    rw [List.take_append_of_le_length (by omega), ← List.append_assoc, cstr_append_zero hboth]

/-- The copies change nothing behind the two fields iff they end in them. -/
theorem copied_frame_iff {p : Parsed} (hname : 0 ∉ p.filename) (hargs : 0 ∉ p.cgiargs) :
    (∀ slot, 2 * SMALL_BUF ≤ slot.length → (p.copied slot).drop (2 * SMALL_BUF) = slot.drop (2 * SMALL_BUF)) ↔
      p.filename.length < 2 * SMALL_BUF ∧ p.cgiargs.length < SMALL_BUF := by
  constructor
  · intro h
    have hdrop := congrArg List.length (h (List.replicate (2 * SMALL_BUF) 0) (List.length_replicate).ge)
    simp only [Parsed.copied, List.length_drop, List.length_append, List.length_take, length_strcpy,
      cstr_of_not_mem hname, cstr_of_not_mem hargs, List.length_replicate, SMALL_BUF] at hdrop ⊢
    omega
  · rintro ⟨hlong, hshort⟩ slot hslot
    have htake : ((strcpy slot p.filename).take SMALL_BUF).length = SMALL_BUF := by
      rw [List.length_take, length_strcpy]
      omega
    have hend : 2 * SMALL_BUF = ((strcpy slot p.filename).take SMALL_BUF).length + SMALL_BUF := by omega
    rw [← cstr_of_not_mem hname] at hlong
    rw [← cstr_of_not_mem hargs] at hshort
    rw [Parsed.copied, hend, List.drop_length_add_append, drop_strcpy hshort, List.drop_drop, htake,
      ← Nat.two_mul, drop_strcpy hlong]

/-! ## Confinement -/

/-- The part of the uri that becomes the path name. -/
def target (uri : List UInt8) : List UInt8 :=
  if cgi <:+: uri then uri.takeWhile (· ≠ questionMark) else uri

/-- What the code puts behind it. -/
def indexed (uri : List UInt8) : List UInt8 :=
  if ¬ cgi <:+: uri ∧ uri.getLast? = some slash then indexHtml else []

theorem requestParseUri_filename (uri : List UInt8) :
    (requestParseUri uri).filename = dot :: (target uri ++ indexed uri) := by
  unfold requestParseUri target indexed
  by_cases hcgi : cgi <:+: uri <;> simp [hcgi]

theorem requestParseUri_cgiargs (uri : List UInt8) :
    (requestParseUri uri).cgiargs = if cgi <:+: uri then query uri else [] := by
  unfold requestParseUri
  split <;> simp_all

section NoDots

variable {uri : List UInt8} (hdots : ¬ dotdot <:+: uri)

include hdots

theorem not_dotdot_name : ¬ dotdot <:+: target uri ++ indexed uri := by
  have htarget : ¬ dotdot <:+: target uri := by
    unfold target
    split
    · exact fun h => hdots (h.trans (List.takeWhile_prefix _).isInfix)
    · exact hdots
  unfold indexed
  split
  · next hindex =>
    rw [target, if_neg hindex.1]
    obtain ⟨v, rfl⟩ : ∃ v, uri = v ++ [slash] := List.getLast?_eq_some_iff.mp hindex.2
    rw [List.append_assoc, List.singleton_append]
    intro h
    rcases infix_append_slash (by decide) h with hv | hname
    · exact hdots (hv.trans (List.prefix_append v _).isInfix)
    · exact absurd hname (by decide)
  · rwa [List.append_nil]

theorem not_dotdot_cgiargs : ¬ dotdot <:+: (requestParseUri uri).cgiargs := by
  rw [requestParseUri_cgiargs]
  split
  · exact fun h => hdots (h.trans ((List.drop_suffix _ _).trans (List.dropWhile_suffix _)).isInfix)
  · decide

/-- **The first way to a `..`**: the dot in front of the uri. -/
theorem dotdot_mem_filename :
    dotdot ∈ components (requestParseUri uri).filename ↔ (target uri).takeWhile (· ≠ slash) = [dot] := by
  rw [requestParseUri_filename, dotdot_mem_dot_cons (not_dotdot_name hdots)]
  unfold indexed
  split
  · next hindex =>
    rw [target, if_neg hindex.1]
    obtain ⟨v, rfl⟩ : ∃ v, uri = v ++ [slash] := List.getLast?_eq_some_iff.mp hindex.2
    -- the first component ends in the uri
    simp [List.takeWhile_append]
  · rw [List.append_nil]

/-- **The second way**: the path name in the slot is cut behind a dot, and `cgiargs` goes on with one. -/
theorem dotdot_mem_pathname (hfirst : (target uri).takeWhile (· ≠ slash) ≠ [dot]) :
    dotdot ∈ components (requestParseUri uri).pathname ↔
      cgi <:+: uri ∧ SMALL_BUF ≤ (target uri).length + 1 ∧ [slash, dot] <:+ (target uri).take (SMALL_BUF - 1) ∧
        (query uri).takeWhile (· ≠ slash) = [dot] := by
  have hname : dotdot ∉ components (requestParseUri uri).filename := mt (dotdot_mem_filename hdots).mp hfirst
  have hdynamic : cgi <:+: uri → (requestParseUri uri).filename = dot :: target uri := by
    intro hcgi
    rw [requestParseUri_filename, indexed, if_neg (fun h => h.1 hcgi), List.append_nil]
  unfold Parsed.pathname
  split
  · next hlt =>
    refine iff_of_false hname fun ⟨hcgi, hlong, _⟩ => ?_
    rw [hdynamic hcgi, List.length_cons] at hlt
    omega
  · next hle =>
    have hlong : SMALL_BUF ≤ (requestParseUri uri).filename.length := by omega
    have hlength : 2 < ((requestParseUri uri).filename.take SMALL_BUF).length := by
      rw [List.length_take, Nat.min_eq_left hlong]
      decide
    -- the cut alone makes none
    have hcut : dotdot ∉ components ((requestParseUri uri).filename.take SMALL_BUF) := by
      rw [requestParseUri_filename] at hname ⊢
      have hdots' := not_dotdot_name hdots
      rw [dotdot_mem_dot_cons hdots'] at hname
      rw [SMALL_BUF, List.take_succ_cons,
        dotdot_mem_dot_cons fun h => hdots' (h.trans (List.take_prefix _ _).isInfix), takeWhile_take_eq_singleton]
      exact hname
    rw [dotdot_mem_glued hcut hlength (not_dotdot_cgiargs hdots), requestParseUri_cgiargs]
    by_cases hcgi : cgi <:+: uri
    · have hsuffix : [slash, dot] <:+ (dot :: target uri).take SMALL_BUF ↔
          [slash, dot] <:+ (target uri).take (SMALL_BUF - 1) := by
        rw [SMALL_BUF, List.take_succ_cons, List.suffix_cons_iff]
        exact or_iff_right fun h => absurd (List.cons.inj h).1 (by decide)
      rw [hdynamic hcgi, List.length_cons] at hlong
      rw [if_pos hcgi, hdynamic hcgi, hsuffix]
      exact ⟨fun h => ⟨hcgi, hlong, h⟩, fun h => h.2.2⟩
    · rw [if_neg hcgi]
      simp [hcgi]

end NoDots

/-- The path name of the request is confined, and so is the one that the slot holds for `open` and `execve`, for
this request and for the others. -/
structure Parsed.Safe (p : Parsed) : Prop where
  fits : p.Fits
  filename : Confined p.filename
  pathname : ∀ slot, 2 * SMALL_BUF ≤ slot.length → Confined (cstr (p.copied slot))
  frame : ∀ slot, 2 * SMALL_BUF ≤ slot.length →
    (p.copied slot).drop (2 * SMALL_BUF) = slot.drop (2 * SMALL_BUF)

/-- The uri does not begin with the component `.`, its parts fit, and its path name is not cut where `cgiargs` makes
a `..` of it. -/
@[mk_iff]
structure Harmless (uri : List UInt8) : Prop where
  first : (target uri).takeWhile (· ≠ slash) ≠ [dot]
  path : (target uri).length + (indexed uri).length + 1 < 2 * SMALL_BUF
  args : cgi <:+: uri → (query uri).length < SMALL_BUF
  cut : cgi <:+: uri → SMALL_BUF ≤ (target uri).length + 1 → [slash, dot] <:+ (target uri).take (SMALL_BUF - 1) →
    (query uri).takeWhile (· ≠ slash) ≠ [dot]

instance (uri : List UInt8) : Decidable (Harmless uri) := decidable_of_iff _ (harmless_iff uri).symm

theorem zero_not_mem_uriToken {buf uri : List UInt8} (h : uriToken buf = some uri) : 0 ∉ uri := by
  unfold uriToken at h
  simp only at h
  split at h
  · cases h
  · cases h
    intro hmem
    have hrest := (List.dropWhile_suffix _).subset ((List.takeWhile_prefix _).subset hmem)
    have hbuf := (List.dropWhile_suffix _).subset ((List.dropWhile_suffix _).subset hrest)
    exact zero_not_mem_cstr buf hbuf

theorem zero_not_mem_parsed {uri : List UInt8} (h : 0 ∉ uri) :
    0 ∉ (requestParseUri uri).filename ∧ 0 ∉ (requestParseUri uri).cgiargs := by
  have hindex : 0 ∉ indexed uri := by
    unfold indexed
    split <;> decide
  rw [requestParseUri_filename, requestParseUri_cgiargs, List.mem_cons, List.mem_append]
  constructor
  · rintro (hdot | htarget | hmem)
    · exact absurd hdot (by decide)
    · unfold target at htarget
      split at htarget
      · exact h ((List.takeWhile_prefix _).subset htarget)
      · exact h htarget
    · exact hindex hmem
  · split
    · exact fun hmem => h ((List.dropWhile_suffix _).subset ((List.drop_suffix _ _).subset hmem))
    · exact List.not_mem_nil

theorem pathname_head (uri : List UInt8) : (requestParseUri uri).pathname.head? ≠ some slash := by
  unfold Parsed.pathname
  rw [requestParseUri_filename]
  split
  · simp [dot, slash]
  · rw [SMALL_BUF, List.take_succ_cons, List.cons_append]
    simp [dot, slash]

/-- **Confinement.**  A request whose uri has no `..` leads to confined path names, in the slot too, iff its uri is
harmless. -/
theorem uri_confined_iff {buf uri : List UInt8} (huri : uriToken buf = some uri) (hdots : ¬ dotdot <:+: uri) :
    (requestParseUri uri).Safe ↔ Harmless uri := by
  obtain ⟨hname, hargs⟩ := zero_not_mem_parsed (zero_not_mem_uriToken huri)
  have hhead : (requestParseUri uri).filename.head? ≠ some slash := by
    rw [requestParseUri_filename]
    simp [dot, slash]
  have hlength : (requestParseUri uri).filename.length = (target uri).length + (indexed uri).length + 1 := by
    rw [requestParseUri_filename, List.length_cons, List.length_append]
  have hquery : (requestParseUri uri).cgiargs.length < SMALL_BUF ↔ (cgi <:+: uri → (query uri).length < SMALL_BUF) := by
    rw [requestParseUri_cgiargs]
    by_cases hcgi : cgi <:+: uri <;> simp [hcgi, SMALL_BUF]
  have hframe := copied_frame_iff hname hargs
  rw [hlength, hquery] at hframe
  have hfirst : Confined (requestParseUri uri).filename ↔ (target uri).takeWhile (· ≠ slash) ≠ [dot] := by
    rw [confined_iff_no_dotdot hhead, dotdot_mem_filename hdots]
  have hcut : Confined (requestParseUri uri).pathname ↔ dotdot ∉ components (requestParseUri uri).pathname :=
    confined_iff_no_dotdot (pathname_head uri)
  constructor
  · intro h
    have hf := hfirst.mp h.filename
    have hslot := h.pathname (List.replicate (2 * SMALL_BUF) 0) (List.length_replicate).ge
    rw [cstr_copied hname hargs, hcut, dotdot_mem_pathname hdots hf] at hslot
    obtain ⟨hpath, hshort⟩ := hframe.mp h.frame
    exact ⟨hf, hpath, hshort, fun hcgi hlong hsuffix hdot => hslot ⟨hcgi, hlong, hsuffix, hdot⟩⟩
  · intro h
    have hfits : (requestParseUri uri).Fits := by
      have hpath := h.path
      have hshort := hquery.mpr h.args
      unfold Parsed.Fits
      rw [hlength]
      simp only [SMALL_BUF, MAXBUF] at *
      omega
    refine ⟨hfits, hfirst.mpr h.first, fun slot _ => ?_, hframe.mpr ⟨h.path, h.args⟩⟩
    rw [cstr_copied hname hargs, hcut, dotdot_mem_pathname hdots h.first]
    exact fun ⟨hcgi, hlong, hsuffix, hdot⟩ => h.cut hcgi hlong hsuffix hdot

/-- `GET /cgi/x?./y` -/
theorem slashUri_confined :
    (requestParseUri [47, 99, 103, 105, 47, 120, 63, 46, 47, 121]).Safe :=
  have huri : uriToken [71, 69, 84, 32, 47, 99, 103, 105, 47, 120, 63, 46, 47, 121] =
      some [47, 99, 103, 105, 47, 120, 63, 46, 47, 121] := by
    decide
  (uri_confined_iff huri (by decide)).mpr (by decide)

/-- `GET ./x`: the uri has no `..`, and the path name is `../x`. -/
theorem dotUri_not_confined :
    uriToken [71, 69, 84, 32, 46, 47, 120] = some [46, 47, 120] ∧ ¬ dotdot <:+: [46, 47, 120] ∧
      (requestParseUri [46, 47, 120]).filename = [46, 46, 47, 120] ∧
        ¬ Confined (requestParseUri [46, 47, 120]).filename := by
  refine ⟨by decide, by decide, by decide, ?_⟩
  intro h
  exact absurd h.no_dotdot (by decide)

/-- 48 slashes and `.p?./cgi`. -/
def splicedUri : List UInt8 := List.replicate 48 slash ++ [46, 112, 63, 46, 47, 99, 103, 105]

/-- The file name is that of `.p` in the base directory, and the slot asks for `cgi` in the directory above it. -/
theorem splicedUri_leaves :
    ¬ dotdot <:+: splicedUri ∧ (requestParseUri splicedUri).filename = dot :: List.replicate 48 slash ++ [46, 112] ∧
      Confined (requestParseUri splicedUri).filename ∧
      (requestParseUri splicedUri).pathname = dot :: List.replicate 48 slash ++ [46, 46, 47, 99, 103, 105] ∧
      resolve [] (components (requestParseUri splicedUri).pathname) = none := by
  refine ⟨by decide, by decide, ⟨by decide, by decide, by decide⟩, by decide, by decide⟩

end OstepHw.Webserver
