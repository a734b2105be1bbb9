import OstepHw.Lib.CString
import OstepHw.Lib.Transducer

/-!
# The file cache of the `select` server

Model of `read_from_client` and `reset_cache` of `server_select.c`, with `SIGNAL_CLEAR_FILE_CACHE` as defined there.
The files do not change, every `send` succeeds, and the descriptors do not run out, although `read_from_client` does not
close the file when `read` fails: `open` is a function of the name.

* `serve`, `serveUncached` — the server, and the server that is built without the cache;
* `Inv` — what the slots hold: files as they are, and at `file_cache_tail` perhaps a name without its file;
* `transparent_iff` — **when the cache cannot be seen**.
-/

set_option autoImplicit false

namespace OstepHw.SelectCache

open CString Transducer

def CACHE_SIZE : Nat := 1024
def CACHE_NUM : Nat := 10
def NAME_SIZE : Nat := 20
def MAXMSG : Nat := 512

/-- `"test1.txt"`, `"not_me.txt"` and eight null pointers. -/
def forbiddenFiles : List (Option (List UInt8)) :=
  [some [116, 101, 115, 116, 49, 46, 116, 120, 116], some [110, 111, 116, 95, 109, 101, 46, 116, 120, 116]] ++
    List.replicate 8 none

structure FileMap where
  content : List UInt8
  fileName : List UInt8
  deriving DecidableEq, Repr

structure Cache where
  fileCache : List FileMap
  fileCacheTail : Nat
  deriving DecidableEq, Repr

/-- A slot that is all zeros. -/
def FileMap.zero : FileMap := ⟨List.replicate CACHE_SIZE 0, List.replicate NAME_SIZE 0⟩

def Cache.zero : Cache := ⟨List.replicate CACHE_NUM FileMap.zero, 0⟩

inductive File
  /-- `open` fails. -/
  | missing
  /-- `open` succeeds and `read` fails. -/
  | unreadable
  | content (bytes : List UInt8)
  deriving DecidableEq, Repr

structure FileSystem where
  file : List UInt8 → File
  /-- There is no file with the empty path. -/
  file_nil : file [] = .missing
  short : ∀ path bytes, file path = .content bytes → bytes.length < MAXMSG

/-- What a client sends at once. -/
structure Message where
  bytes : List UInt8
  length_le : bytes.length ≤ MAXMSG
  short : (cstr bytes).length < NAME_SIZE

inductive Event
  | request (message : Message)
  | reset

/-- What is sent, if anything is, and what is returned. -/
structure Response where
  sent : Option (List UInt8)
  ret : Int
  deriving DecidableEq, Repr

/-! ## The functions -/

/-- A buffer of zeros after a `read`. -/
def readInto (bytes : List UInt8) : List UInt8 := bytes ++ List.replicate (MAXMSG - bytes.length) 0

/-- The loop over `forbidden_files`: it starts at 1. -/
def isForbidden (buffer : List UInt8) : Bool := (forbiddenFiles.drop 1).any (· = some (cstr buffer))

/-- The loop over the cache: the content of the first slot with the name; an empty name ends it. -/
def find : List FileMap → List UInt8 → Option (List UInt8)
  | [], _ => none
  | slot :: rest, buffer =>
    if cstr slot.fileName = [] then none
    else if cstr slot.fileName = cstr buffer then some slot.content
    else find rest buffer

/-- `strcpy(file_cache[file_cache_tail].file_name, buffer)`. -/
def Cache.copyName (c : Cache) (buffer : List UInt8) : Cache :=
  { c with fileCache :=
      c.fileCache.modify c.fileCacheTail fun slot => { slot with fileName := strcpy slot.fileName buffer } }

/-- `strcpy(file_cache[file_cache_tail++].content, content_buffer)`, and the tail wraps. -/
def Cache.copyContent (c : Cache) (contentBuffer : List UInt8) : Cache where
  fileCache :=
    c.fileCache.modify c.fileCacheTail fun slot => { slot with content := strcpy slot.content contentBuffer }
  fileCacheTail := if c.fileCacheTail + 1 = CACHE_NUM then 0 else c.fileCacheTail + 1

def readFromClient (fs : FileSystem) (c : Cache) (message : Message) : Cache × Response :=
  let buffer := readInto message.bytes
  if message.bytes.length = 0 then (c, ⟨none, -1⟩)
  else if isForbidden buffer then (c, ⟨none, -1⟩)
  else match find c.fileCache buffer with
    | some content => (c, ⟨some (cstr content), 0⟩)
    | none => match fs.file (cstr buffer) with
      | .missing => (c, ⟨none, -1⟩)
      | .unreadable => (c.copyName buffer, ⟨none, -1⟩)
      | .content bytes =>
        let contentBuffer := readInto bytes
        ((c.copyName buffer).copyContent contentBuffer, ⟨some (cstr contentBuffer), 0⟩)

def resetCache (c : Cache) : Cache :=
  ⟨c.fileCache.map fun _ => FileMap.zero, 0⟩

/-- `read_from_client` as it is built without `SIGNAL_CLEAR_FILE_CACHE`. -/
def readFromClientUncached (fs : FileSystem) (message : Message) : Response :=
  let buffer := readInto message.bytes
  if message.bytes.length = 0 then ⟨none, -1⟩
  else if isForbidden buffer then ⟨none, -1⟩
  else match fs.file (cstr buffer) with
    | .missing => ⟨none, -1⟩
    | .unreadable => ⟨none, -1⟩
    | .content bytes => ⟨some (cstr (readInto bytes)), 0⟩

def serve (fs : FileSystem) (c : Cache) : Event → Cache × Option Response
  | .request message =>
    let (c, response) := readFromClient fs c message
    (c, some response)
  | .reset => (resetCache c, none)

def serveUncached (fs : FileSystem) : Event → Option Response
  | .request message => some (readFromClientUncached fs message)
  | .reset => none

/-- The name in the slot at `file_cache_tail`. -/
def Cache.tailName (c : Cache) : List UInt8 :=
  match c.fileCache[c.fileCacheTail]? with
  | some slot => cstr slot.fileName
  | none => []

/-- The message names a file that opens but cannot be read, and its name stands in the slot at
`file_cache_tail`. -/
def HalfFilled (fs : FileSystem) (c : Cache) (message : Message) : Prop :=
  let path := cstr (readInto message.bytes)
  fs.file path = .unreadable ∧ c.tailName = path

/-! ## Looking a name up -/

theorem cstr_strcpy (dst src : List UInt8) : cstr (strcpy dst src) = cstr src :=
  cstr_append_zero (zero_not_mem_cstr src) _

theorem find_some {slots : List FileMap} {buffer content : List UInt8} (hfind : find slots buffer = some content) :
    ∃ (i : Nat) (slot : FileMap), slots[i]? = some slot ∧ cstr slot.fileName ≠ [] ∧
      cstr slot.fileName = cstr buffer ∧ slot.content = content := by
  induction slots with
  | nil => cases hfind
  | cons slot rest ih =>
    rw [find] at hfind
    split at hfind
    · cases hfind
    · next hne =>
      split at hfind
      · next heq => exact ⟨0, slot, rfl, hne, heq, Option.some.inj hfind⟩
      · obtain ⟨i, found, hi, h⟩ := ih hfind
        exact ⟨i + 1, found, hi, h⟩

/-- A slot is found when there are names in all slots before it. -/
theorem find_ne_none {slots : List FileMap} {buffer : List UInt8} {i : Nat} {slot : FileMap}
    (hi : slots[i]? = some slot) (hname : cstr slot.fileName = cstr buffer) (hne : cstr buffer ≠ [])
    (hbefore : ∀ (j : Nat) (other : FileMap), slots[j]? = some other → j < i → cstr other.fileName ≠ []) :
    find slots buffer ≠ none := by
  induction slots generalizing i with
  | nil => cases hi
  | cons first rest ih =>
    rw [find]
    cases i with
    | zero =>
      obtain rfl := Option.some.inj hi
      rw [if_neg (hname ▸ hne), if_pos hname]
      exact Option.some_ne_none _
    | succ i =>
      rw [if_neg (hbefore 0 first rfl (Nat.succ_pos i))]
      split
      · exact Option.some_ne_none _
      · exact ih hi fun j other hj hlt => hbefore (j + 1) other hj (Nat.succ_lt_succ hlt)

/-! ## What the slots hold -/

/-- The slot holds the file that it names. -/
def Holds (fs : FileSystem) (slot : FileMap) : Prop :=
  ∃ bytes, fs.file (cstr slot.fileName) = .content bytes ∧ cstr slot.content = cstr (readInto bytes)

structure Inv (fs : FileSystem) (c : Cache) : Prop where
  length : c.fileCache.length = CACHE_NUM
  tail : c.fileCacheTail < CACHE_NUM
  named : ∀ (i : Nat) slot, c.fileCache[i]? = some slot → i < c.fileCacheTail → cstr slot.fileName ≠ []
  allowed : ∀ (i : Nat) slot, c.fileCache[i]? = some slot → cstr slot.fileName ≠ [] →
    isForbidden slot.fileName = false
  holds : ∀ (i : Nat) slot, c.fileCache[i]? = some slot → cstr slot.fileName ≠ [] →
    Holds fs slot ∨ i = c.fileCacheTail ∧ fs.file (cstr slot.fileName) = .unreadable

variable {fs : FileSystem} {c : Cache}

theorem inv_of_all_zero {slots : List FileMap} (hlen : slots.length = CACHE_NUM)
    (hzero : ∀ slot ∈ slots, slot = FileMap.zero) : Inv fs ⟨slots, 0⟩ := by
  have hempty : ∀ (i : Nat) slot, slots[i]? = some slot → cstr slot.fileName = [] := fun i slot hi => by
    rw [hzero slot (List.mem_of_getElem? hi)]
    rfl
  exact ⟨hlen, Nat.succ_pos _, fun i _ _ hlt => absurd hlt (Nat.not_lt_zero i),
    fun i slot hi hne => absurd (hempty i slot hi) hne, fun i slot hi hne => absurd (hempty i slot hi) hne⟩

theorem inv_zero : Inv fs Cache.zero :=
  inv_of_all_zero (List.length_replicate ..) fun _ hmem => List.eq_of_mem_replicate hmem

theorem Inv.resetCache (h : Inv fs c) : Inv fs (resetCache c) := by
  refine inv_of_all_zero (by rw [List.length_map, h.length]) fun slot hmem => ?_
  obtain ⟨_, -, rfl⟩ := List.mem_map.1 hmem
  rfl

theorem isForbidden_congr {a b : List UInt8} (h : cstr a = cstr b) : isForbidden a = isForbidden b := by
  rw [isForbidden, isForbidden, h]

theorem getElem?_modify_cases {slots : List FileMap} {i j : Nat} {f : FileMap → FileMap} {slot : FileMap}
    (hj : (slots.modify i f)[j]? = some slot) :
    (j ≠ i ∧ slots[j]? = some slot) ∨ (j = i ∧ ∃ old, slots[i]? = some old ∧ f old = slot) := by
  rw [List.getElem?_modify] at hj
  obtain ⟨old, hold, hslot⟩ := Option.map_eq_some_iff.1 hj
  by_cases hij : i = j
  · subst hij
    rw [if_pos rfl] at hslot
    exact .inr ⟨rfl, old, hold, hslot⟩
  · rw [if_neg hij] at hslot
    exact .inl ⟨Ne.symm hij, hslot ▸ hold⟩

/-- Only the tail slot changes. -/
theorem copyName_cases {buffer : List UInt8} {i : Nat} {slot : FileMap}
    (hi : (c.copyName buffer).fileCache[i]? = some slot) :
    (i ≠ c.fileCacheTail ∧ c.fileCache[i]? = some slot) ∨
      (i = c.fileCacheTail ∧ cstr slot.fileName = cstr buffer) := by
  rcases getElem?_modify_cases hi with hother | ⟨htail, old, -, rfl⟩
  · exact .inl hother
  · exact .inr ⟨htail, cstr_strcpy _ _⟩

theorem copyContent_cases {buffer contentBuffer : List UInt8} {i : Nat} {slot : FileMap}
    (hi : ((c.copyName buffer).copyContent contentBuffer).fileCache[i]? = some slot) :
    (i ≠ c.fileCacheTail ∧ c.fileCache[i]? = some slot) ∨
      (i = c.fileCacheTail ∧ cstr slot.fileName = cstr buffer ∧ cstr slot.content = cstr contentBuffer) := by
  rcases getElem?_modify_cases hi with ⟨hne, hother⟩ | ⟨htail, named, hnamed, rfl⟩
  · exact (copyName_cases hother).imp_right fun htail => absurd htail.1 hne
  · obtain ⟨-, hname⟩ := (copyName_cases hnamed).resolve_left fun h => h.1 rfl
    exact .inr ⟨htail, hname, cstr_strcpy _ _⟩

/-- `read` has failed: the tail slot has the name of a file that cannot be read. -/
theorem Inv.copyName (h : Inv fs c) {buffer : List UInt8} (hallowed : isForbidden buffer = false)
    (hfile : fs.file (cstr buffer) = .unreadable) : Inv fs (c.copyName buffer) where
  length := (List.length_modify ..).trans h.length
  tail := h.tail
  named i slot hi hlt := by
    rcases copyName_cases hi with ⟨-, hother⟩ | ⟨htail, -⟩
    · exact h.named i slot hother hlt
    · exact absurd htail (Nat.ne_of_lt hlt)
  allowed i slot hi hne := by
    rcases copyName_cases hi with ⟨-, hother⟩ | ⟨-, hname⟩
    · exact h.allowed i slot hother hne
    · exact (isForbidden_congr hname).trans hallowed
  holds i slot hi hne := by
    rcases copyName_cases hi with ⟨hi', hother⟩ | ⟨htail, hname⟩
    · exact .inl ((h.holds i slot hother hne).resolve_right fun htail => hi' htail.1)
    · exact .inr ⟨htail, hname ▸ hfile⟩

theorem copyContent_tail (htail : c.fileCacheTail < CACHE_NUM) (contentBuffer : List UInt8) :
    (c.copyContent contentBuffer).fileCacheTail < CACHE_NUM ∧
      (c.copyContent contentBuffer).fileCacheTail ≤ c.fileCacheTail + 1 := by
  unfold Cache.copyContent
  by_cases hwrap : c.fileCacheTail + 1 = CACHE_NUM
  · rw [if_pos hwrap]
    exact ⟨Nat.succ_pos _, Nat.zero_le _⟩
  · rw [if_neg hwrap]
    exact ⟨Nat.lt_of_le_of_ne htail hwrap, Nat.le_refl _⟩

/-- The file is read: the tail slot is complete, and the tail moves on. -/
theorem Inv.copyContent (h : Inv fs c) {buffer bytes : List UInt8} (hallowed : isForbidden buffer = false)
    (hne : cstr buffer ≠ []) (hfile : fs.file (cstr buffer) = .content bytes) :
    Inv fs ((c.copyName buffer).copyContent (readInto bytes)) where
  length := (List.length_modify ..).trans ((List.length_modify ..).trans h.length)
  tail := (copyContent_tail (c := c.copyName buffer) h.tail _).1
  named i slot hi hlt := by
    rcases copyContent_cases hi with ⟨hi', hother⟩ | ⟨-, hname, -⟩
    · have hle : i ≤ c.fileCacheTail :=
        Nat.le_of_lt_succ (Nat.lt_of_lt_of_le hlt (copyContent_tail (c := c.copyName buffer) h.tail _).2)
      exact h.named i slot hother (Nat.lt_of_le_of_ne hle hi')
    · exact hname ▸ hne
  allowed i slot hi hne := by
    rcases copyContent_cases hi with ⟨-, hother⟩ | ⟨-, hname, -⟩
    · exact h.allowed i slot hother hne
    · exact (isForbidden_congr hname).trans hallowed
  holds i slot hi hne := by
    rcases copyContent_cases hi with ⟨hi', hother⟩ | ⟨-, hname, hcontent⟩
    · exact .inl ((h.holds i slot hother hne).resolve_right fun htail => hi' htail.1)
    · exact .inl ⟨bytes, hname ▸ hfile, hcontent⟩

/-! ## One request -/

theorem Inv.serve (h : Inv fs c) (event : Event) : Inv fs (serve fs c event).1 := by
  cases event with
  | reset => exact h.resetCache
  | request message =>
    unfold SelectCache.serve readFromClient
    dsimp only
    split
    · exact h
    split
    · exact h
    · next hallowed =>
      have hallowed := Bool.eq_false_iff.2 hallowed
      split
      · exact h
      split
      · exact h
      · next hfile => exact h.copyName hallowed hfile
      · next hfile =>
        refine h.copyContent hallowed (fun hnil => ?_) hfile
        rw [hnil, fs.file_nil] at hfile
        cases hfile

/-- The half-filled slot is a slot of the cache, and the loop gets to it. -/
theorem Inv.find_of_halfFilled (h : Inv fs c) {message : Message} (hhalf : HalfFilled fs c message) :
    isForbidden (readInto message.bytes) = false ∧ find c.fileCache (readInto message.bytes) ≠ none := by
  obtain ⟨hfile, hname⟩ := hhalf
  have hne : cstr (readInto message.bytes) ≠ [] := fun hnil => by
    rw [hnil, fs.file_nil] at hfile
    cases hfile
  have hlt : c.fileCacheTail < c.fileCache.length := h.length ▸ h.tail
  have htail := List.getElem?_eq_getElem hlt
  rw [Cache.tailName, htail] at hname
  dsimp only at hname
  refine ⟨?_, find_ne_none htail hname hne h.named⟩
  rw [← isForbidden_congr hname]
  exact h.allowed _ _ htail (hname ▸ hne)

/-- A request is answered from a complete slot or from the half-filled one. -/
theorem Inv.readFromClient_eq_iff (h : Inv fs c) (message : Message) :
    (readFromClient fs c message).2 = readFromClientUncached fs message ↔ ¬HalfFilled fs c message := by
  unfold readFromClient readFromClientUncached
  dsimp only
  split
  · next hempty =>
    refine iff_of_true rfl fun hhalf => ?_
    have hfile := hhalf.1
    rw [List.eq_nil_of_length_eq_zero hempty] at hfile
    exact absurd (fs.file_nil.symm.trans hfile) (by intro h; cases h)
  split
  · next hforbidden =>
    refine iff_of_true rfl fun hhalf => ?_
    rw [(h.find_of_halfFilled hhalf).1] at hforbidden
    cases hforbidden
  split
  · next content hfind =>
    obtain ⟨i, slot, hi, hne, hname, rfl⟩ := find_some hfind
    rcases h.holds i slot hi hne with ⟨bytes, hfile, hcontent⟩ | ⟨rfl, hfile⟩
    · rw [hname] at hfile
      refine iff_of_true ?_ fun hhalf => ?_
      · rw [hfile, hcontent]
      · exact absurd (hfile.symm.trans hhalf.1) (by intro h; cases h)
    · rw [hname] at hfile
      have hhalf : HalfFilled fs c message := ⟨hfile, by rw [Cache.tailName, hi]; exact hname⟩
      rw [hfile]
      exact iff_of_false (by intro h; cases h) (not_not_intro hhalf)
  · next hfind =>
    refine iff_of_true ?_ fun hhalf => (h.find_of_halfFilled hhalf).2 hfind
    split <;> simp only [*]

/-- **When the cache cannot be seen**: exactly when no request comes for a name that an earlier one has left in the tail
slot without its file. -/
theorem transparent_iff (fs : FileSystem) (events : List Event) :
    outputs (serve fs) Cache.zero events = events.map (serveUncached fs) ↔
      ∀ before message rest, events = before ++ .request message :: rest →
        ¬HalfFilled fs (after (serve fs) Cache.zero before) message := by
  let C (c : Cache) : Event → Prop
    | .request message => ¬HalfFilled fs c message
    | .reset => True
  have hstep : ∀ c event, Inv fs c → ((serve fs c event).2 = serveUncached fs event ↔ C c event) := by
    intro c event h
    cases event with
    | reset => exact iff_of_true rfl trivial
    | request message => exact Option.some_inj.trans (h.readFromClient_eq_iff message)
  rw [outputs_eq_map_iff (fun c event h => h.serve event) hstep inv_zero]
  constructor
  · exact fun hmeets before message rest heq => hmeets before _ rest heq
  · intro hnone before event rest heq
    cases event with
    | reset => trivial
    | request message => exact hnone before message rest heq

/-- A directory opens but cannot be read, and the second request for it is served. -/
def directory : FileSystem where
  file path := if path = [46] then .unreadable else .missing
  file_nil := rfl
  short path bytes h := by
    split at h <;> cases h

theorem directory_not_transparent :
    ¬∀ fs events, outputs (serve fs) Cache.zero events = events.map (serveUncached fs) := by
  intro hall
  let message : Message := ⟨[46, 0], by decide, by decide⟩
  have houtputs := hall directory [.request message, .request message]
  have hserved : outputs (serve directory) Cache.zero [.request message, .request message] =
      [some ⟨none, -1⟩, some ⟨some [], 0⟩] := by rfl
  rw [hserved] at houtputs
  exact absurd houtputs (by decide)

end OstepHw.SelectCache
