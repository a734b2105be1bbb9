import OstepHw.Lib.Path
import OstepHw.Lib.Registry

/-!
# `common_threads.h`: opening a semaphore

Model of `check_shm` and `Sem_open` in `31/common_threads.h`, with `CHECK_ERRNO` as it is defined there, and at the end
without.  `sem_open` (with `O_CREAT|O_EXCL`) and `sem_unlink` fail when the name is not valid or too long, when the
value is too large, and when there is or is not a semaphore of this name; they find the room and the permissions that
they need.  Nothing else runs, so the named semaphores are the state of the system.  `Sem_open` calls itself and has
fuel.

* `returns_iff` — every call comes back, after one retry at most; `not_abort` — the assertion never fails;
* `renewed_of_returns` — what the semaphore is that a call returns;
* `exists_opens_iff` — the calls that open a new semaphore with the value that was asked for;
* `allOpen_iff` — **the sequences of calls that do so throughout**;
* `WithoutCheckErrno.semOpen_renewed` — the build without `CHECK_ERRNO`, which keeps to the value.
-/

set_option autoImplicit false

namespace OstepHw.NamedSemaphore

open OstepHw.Path Registry

inductive Errno
  | EEXIST
  | EINVAL
  | ENAMETOOLONG
  | ENOENT
  deriving DecidableEq

/-- What an implementation of POSIX decides. -/
structure Posix (κ : Type) where
  /-- The semaphore name that a string stands for. -/
  resolve : List UInt8 → Except Errno κ
  SEM_VALUE_MAX : Nat
  resolve_nil : ∀ k, resolve [] ≠ .ok k
  resolve_ne : ∀ name, resolve name ≠ .error .EEXIST
  /-- `_POSIX_SEM_VALUE_MAX` -/
  value_max : 32767 ≤ SEM_VALUE_MAX

/-- The semaphores, each with its count, and their names. -/
abbrev System (κ : Type) := Registry κ Nat

/-- Why the program ends in a call. -/
inductive Stop
  /-- An assertion fails. -/
  | abort
  /-- A string is read or written behind its array. -/
  | overrun
  deriving DecidableEq

variable {κ : Type} (posix : Posix κ)

/-- The semaphore of this name. -/
def registered (s : System κ) (name : List UInt8) : Option Nat :=
  match posix.resolve name with
  | .error _ => none
  | .ok k => s.named k

theorem registered_eq {posix : Posix κ} {s : System κ} {name : List UInt8} {k : κ}
    (hk : posix.resolve name = .ok k) : registered posix s name = s.named k := by
  simp only [registered, hk]

variable [DecidableEq κ]

/-- `sem_open(name, O_CREAT|O_EXCL, mode, value)` -/
def Libc.semOpen (s : System κ) (name : List UInt8) (value : Nat) : Except Errno (System κ × Nat) :=
  match posix.resolve name with
  | .error errno => .error errno
  | .ok k =>
    if posix.SEM_VALUE_MAX < value then .error .EINVAL
    else if s.named k = none then .ok (s.create k value, s.next)
    else .error .EEXIST

def Libc.semUnlink (s : System κ) (name : List UInt8) : Except Errno (System κ) :=
  match posix.resolve name with
  | .error errno => .error errno
  | .ok k => if s.named k = none then .error .ENOENT else .ok (s.remove k)

def semUnlink (s : System κ) (sem : List UInt8) : Except Stop (System κ) :=
  match Libc.semUnlink posix s sem with
  | .error _ => .error .abort
  | .ok s' => .ok s'

/-- `"/dev/shm/sem."` -/
def devShmSem : List UInt8 := [47, 100, 101, 118, 47, 115, 104, 109, 47, 115, 101, 109, 46]

def checkShm (s : System κ) : (objName : List UInt8) → Except Stop (System κ)
  | [] => .error .overrun
  | c :: rest =>
    -- `shm_path` has 100 bytes, of which the last is for the zero
    if (devShmSem ++ rest).length < 100 then semUnlink posix s (c :: rest) else .error .overrun

/-- The semaphore that is returned is `none` for `SEM_FAILED`. -/
def semOpen : (fuel : Nat) → System κ → (name : List UInt8) → (value : Int32) →
    Option (Except Stop (System κ × Option Nat))
  | 0, _, _, _ => none
  | fuel + 1, s, name, value =>
    match Libc.semOpen posix s name value.toUInt32.toNat with
    | .ok (s', sem) => some (.ok (s', some sem))
    | .error errno =>
      if errno = .EEXIST then
        match checkShm posix s name with
        | .error stop => some (.error stop)
        | .ok s' => semOpen fuel s' name 1
      else some (.ok (s, none))

/-! ## One call -/

/-- What `Sem_open` comes back with. -/
def outcome (s : System κ) (name : List UInt8) (value : Int32) : Except Stop (System κ × Option Nat) :=
  match posix.resolve name with
  | .error _ => .ok (s, none)
  | .ok k =>
    if posix.SEM_VALUE_MAX < value.toUInt32.toNat then .ok (s, none)
    else if s.named k = none then .ok (s.create k value.toUInt32.toNat, some s.next)
    else if name.length ≤ 87 then .ok ((s.remove k).create k 1, some s.next)
    else .error .overrun

variable {posix} {s s' : System κ} {name : List UInt8} {value : Int32} {k : κ} {fuel sem : Nat}
  {r : Except Stop (System κ × Option Nat)}

theorem sem_open_valid (hk : posix.resolve name = .ok k) {v : Nat} (hv : v ≤ posix.SEM_VALUE_MAX) :
    Libc.semOpen posix s name v = if s.named k = none then .ok (s.create k v, s.next) else .error .EEXIST := by
  simp only [Libc.semOpen, hk]
  rw [if_neg (Nat.not_lt_of_le hv)]

/-- A semaphore that is there is removed, when its name fits into the path. -/
theorem checkShm_registered (hk : posix.resolve name = .ok k) (hleft : s.named k ≠ none) :
    checkShm posix s name = if name.length ≤ 87 then .ok (s.remove k) else .error .overrun := by
  cases name with
  | nil => exact absurd hk (posix.resolve_nil k)
  | cons c rest =>
    have hfits : (devShmSem ++ rest).length < 100 ↔ (c :: rest).length ≤ 87 := by
      rw [List.length_append, List.length_cons, show devShmSem.length = 13 from rfl]
      omega
    simp only [checkShm, semUnlink, Libc.semUnlink, hk, if_neg hleft, hfits]

theorem semOpen_free (hk : posix.resolve name = .ok k) (hv : value.toUInt32.toNat ≤ posix.SEM_VALUE_MAX)
    (hfree : s.named k = none) :
    semOpen posix (fuel + 1) s name value = some (.ok (s.create k value.toUInt32.toNat, some s.next)) := by
  rw [semOpen, sem_open_valid hk hv, if_pos hfree]

/-- After the retry there is no semaphore of the name any more. -/
theorem semOpen_registered (hk : posix.resolve name = .ok k) (hv : value.toUInt32.toNat ≤ posix.SEM_VALUE_MAX)
    (hleft : s.named k ≠ none) :
    semOpen posix (fuel + 2) s name value =
      some (if name.length ≤ 87 then .ok ((s.remove k).create k 1, some s.next) else .error .overrun) := by
  have hone : (1 : Int32).toUInt32.toNat ≤ posix.SEM_VALUE_MAX := Nat.le_trans (by decide) posix.value_max
  rw [semOpen, sem_open_valid hk hv, if_neg hleft]
  simp only [if_true, checkShm_registered hk hleft]
  by_cases hname : name.length ≤ 87
  · simp only [if_pos hname]
    exact semOpen_free hk hone named_remove_self
  · simp only [if_neg hname]

theorem semOpen_add_two : semOpen posix (fuel + 2) s name value = some (outcome posix s name value) := by
  unfold outcome
  cases hk : posix.resolve name with
  | error errno =>
    have herrno : errno ≠ .EEXIST := fun h => posix.resolve_ne name (h ▸ hk)
    simp only [semOpen, Libc.semOpen, hk, if_neg herrno]
  | ok k =>
    by_cases hv : posix.SEM_VALUE_MAX < value.toUInt32.toNat
    · simp only [semOpen, Libc.semOpen, hk, if_pos hv, reduceCtorEq, if_false]
    have hle := Nat.le_of_not_lt hv
    simp only [if_neg hv]
    by_cases hfree : s.named k = none
    · rw [if_pos hfree, semOpen_free hk hle hfree]
    · rw [if_neg hfree, semOpen_registered hk hle hfree]

theorem semOpen_succ (h : semOpen posix fuel s name value = some r) :
    semOpen posix (fuel + 1) s name value = some r := by
  induction fuel generalizing s value with
  | zero => cases h
  | succ fuel ih =>
    rw [semOpen] at h ⊢
    split at h
    next => exact h
    next errno hopen =>
      split at h
      next hexist =>
        rw [if_pos hexist]
        split at h
        next => exact h
        next => exact ih h
      next hother =>
        rw [if_neg hother]
        exact h

/-- **Every call comes back**, after one retry at most, and with one outcome. -/
theorem returns_iff : (∃ fuel, semOpen posix fuel s name value = some r) ↔ r = outcome posix s name value := by
  constructor
  · rintro ⟨fuel, h⟩
    have hmore := semOpen_succ (semOpen_succ h)
    rw [semOpen_add_two, Option.some.injEq] at hmore
    exact hmore.symm
  · rintro rfl
    exact ⟨2, semOpen_add_two⟩

/-- **The semaphore that is returned** is new, and nothing else changes; but it has the count 1 when there was one of
its name before. -/
theorem renewed_of_returns (h : ∃ fuel, semOpen posix fuel s name value = some (.ok (s', some sem))) :
    ∃ k, posix.resolve name = .ok k ∧ value.toUInt32.toNat ≤ posix.SEM_VALUE_MAX ∧
      (s.named k = none ∧ Renewed s k value.toUInt32.toNat s' sem ∨
        s.named k ≠ none ∧ name.length ≤ 87 ∧ Renewed s k 1 s' sem) := by
  have hout := returns_iff.1 h
  unfold outcome at hout
  cases hk : posix.resolve name with
  | error errno =>
    rw [hk] at hout
    cases hout
  | ok k =>
    simp only [hk] at hout
    refine ⟨k, rfl, ?_⟩
    split_ifs at hout with hv hfree hname
    · cases hout
    · cases hout
      exact ⟨Nat.le_of_not_lt hv, .inl ⟨hfree, create_renewed s k _⟩⟩
    · cases hout
      exact ⟨Nat.le_of_not_lt hv, .inr ⟨hfree, hname, remove_create_renewed s k 1⟩⟩

/-- What `check_shm` removes is there: `sem_open` has just found it. -/
theorem not_abort : semOpen posix fuel s name value ≠ some (.error .abort) := by
  intro h
  have hout := returns_iff.1 ⟨fuel, h⟩
  unfold outcome at hout
  split at hout
  next => cases hout
  next =>
    split_ifs at hout
    cases hout

/-! ## Calls in a row -/

/-- `Sem_open(name, value)` with a value that a semaphore can have. -/
structure Call where
  name : List UInt8
  value : Int32
  nonneg : 0 ≤ value

def Call.count (c : Call) : Nat := c.value.toInt.toNat

/-- The call returns a new semaphore, which holds the value and is registered under the name; nothing else changes. -/
structure Opens (posix : Posix κ) (s : System κ) (c : Call) (s' : System κ) (sem : Nat) : Prop where
  returns : ∃ fuel, semOpen posix fuel s c.name c.value = some (.ok (s', some sem))
  renewed : ∃ k, posix.resolve c.name = .ok k ∧ Renewed s k c.count s' sem

/-- Each of the calls, one after the other, opens a new semaphore. -/
def AllOpen (posix : Posix κ) : System κ → List Call → Prop
  | _, [] => True
  | s, c :: calls => ∃ s' sem, Opens posix s c s' sem ∧ AllOpen posix s' calls

/-- The system takes the name and the value. -/
structure Takes (posix : Posix κ) (c : Call) : Prop where
  valid : ∃ k, posix.resolve c.name = .ok k
  fits : c.count ≤ posix.SEM_VALUE_MAX

/-- The value is that of the retry, and the path of the semaphore fits into `shm_path`. -/
def Reopens (c : Call) : Prop := c.value = 1 ∧ c.name.length ≤ 87

variable {c : Call}

theorem Call.toNat_value (c : Call) : c.value.toUInt32.toNat = c.count := Int32.toNat_toUInt32_of_le c.nonneg

theorem Call.count_eq_one : c.count = 1 ↔ c.value = 1 := by
  have hone : (1 : Int32).toInt = 1 := rfl
  rw [← Int32.toInt_inj, hone, count]
  omega

/-- **When a call opens a new semaphore**: there is none of this name, or the call asks for the value of the retry. -/
theorem exists_opens_iff :
    (∃ s' sem, Opens posix s c s' sem) ↔ Takes posix c ∧ (Reopens c ∨ registered posix s c.name = none) := by
  constructor
  · rintro ⟨s', sem, hret, _, _, hnew⟩
    obtain ⟨k, hk, hv, hcases⟩ := renewed_of_returns hret
    rw [c.toNat_value] at hv
    rw [registered_eq hk]
    refine ⟨⟨⟨k, hk⟩, hv⟩, ?_⟩
    rcases hcases with ⟨hfree, _⟩ | ⟨_, hname, hone⟩
    · exact .inr hfree
    · have hcount : some c.count = some 1 := hnew.holds.symm.trans hone.holds
      rw [Option.some.injEq] at hcount
      exact .inl ⟨c.count_eq_one.1 hcount, hname⟩
  · rintro ⟨⟨⟨k, hk⟩, hv⟩, hcan⟩
    rw [registered_eq hk] at hcan
    by_cases hfree : s.named k = none
    · refine ⟨s.create k c.count, s.next, ⟨1, ?_⟩, k, hk, create_renewed s k c.count⟩
      rw [semOpen_free hk (c.toNat_value ▸ hv) hfree, c.toNat_value]
    · obtain ⟨hone, hname⟩ := hcan.resolve_right hfree
      refine ⟨(s.remove k).create k 1, s.next, ⟨2, ?_⟩, k, hk, ?_⟩
      · rw [semOpen_registered hk (c.toNat_value ▸ hv) hfree, if_pos hname]
      · rw [c.count_eq_one.2 hone]
        exact remove_create_renewed s k 1

theorem Opens.registered_eq_none {sem : Nat} (h : Opens posix s c s' sem) :
    registered posix s' name = none ↔
      registered posix s name = none ∧ posix.resolve name ≠ posix.resolve c.name := by
  obtain ⟨k, hk, hnew⟩ := h.renewed
  cases hname : posix.resolve name with
  | error errno => simp [registered, hname, hk]
  | ok k' => rw [registered_eq hname, registered_eq hname, hnew.named_eq_none, hk, ne_eq, ne_eq, Except.ok.injEq]

/-- **The calls each open a new semaphore with their value** if and only if the system takes their names and values
and, but for those that ask for the value 1 with a name that is not too long, their names are not registered before
and differ from those of the calls before them. -/
theorem allOpen_iff (posix : Posix κ) (s : System κ) (calls : List Call) :
    AllOpen posix s calls ↔
      (∀ c ∈ calls, Takes posix c ∧ (Reopens c ∨ registered posix s c.name = none)) ∧
        calls.Pairwise fun c d => Reopens d ∨ posix.resolve d.name ≠ posix.resolve c.name := by
  induction calls generalizing s with
  | nil => simp [AllOpen]
  | cons c calls ih =>
    rw [AllOpen, List.forall_mem_cons, List.pairwise_cons]
    constructor
    · rintro ⟨s', sem, hopen, hrest⟩
      obtain ⟨hall, hpair⟩ := (ih s').1 hrest
      refine ⟨⟨exists_opens_iff.1 ⟨s', sem, hopen⟩, ?_⟩, ?_, hpair⟩
      · intro d hd
        obtain ⟨htakes, hcan⟩ := hall d hd
        exact ⟨htakes, hcan.imp_right fun h => (hopen.registered_eq_none.1 h).1⟩
      · intro d hd
        exact (hall d hd).2.imp_right fun h => (hopen.registered_eq_none.1 h).2
    · rintro ⟨⟨hc, hall⟩, hdiff, hpair⟩
      obtain ⟨s', sem, hopen⟩ := exists_opens_iff.2 hc
      refine ⟨s', sem, hopen, (ih s').2 ⟨?_, hpair⟩⟩
      intro d hd
      obtain ⟨htakes, hcan⟩ := hall d hd
      refine ⟨htakes, ?_⟩
      rcases hcan, hdiff d hd with ⟨hcan | hfree, hcan' | hne⟩
      · exact .inl hcan
      · exact .inl hcan
      · exact .inl hcan'
      · exact .inr (hopen.registered_eq_none.2 ⟨hfree, hne⟩)

/-! ## A system -/

/-- Leading slashes do not count. -/
def linux : Posix (List UInt8) where
  resolve name :=
    let base := name.dropWhile (· = slash)
    if base = [] ∨ slash ∈ base then .error .EINVAL
    else if 251 < base.length then .error .ENAMETOOLONG
    else .ok base
  SEM_VALUE_MAX := 2147483647
  resolve_nil := by
    intro k h
    cases h
  resolve_ne := by
    intro name
    dsimp only
    split_ifs <;> intro h <;> cases h
  value_max := by decide

/-- `"/turnstile1"` -/
def turnstile1 : List UInt8 := [47, 116, 117, 114, 110, 115, 116, 105, 108, 101, 49]

/-- What a run of `barrier` leaves that is killed before it unlinks the semaphore. -/
def leftover : System (List UInt8) := Registry.empty.create turnstile1.tail 0

/-- The next run gets a semaphore with the count 1. -/
theorem leftover_not_open :
    (∃ s', semOpen linux 2 leftover turnstile1 0 = some (.ok (s', some 1)) ∧ s'.content 1 = some 1) ∧
      ¬AllOpen linux leftover [⟨turnstile1, 0, by decide⟩] := by
  constructor
  · exact ⟨_, rfl, rfl⟩
  · rintro ⟨s', sem, hopen, _⟩
    obtain ⟨_, hreopen | hfree⟩ := exists_opens_iff.1 ⟨s', sem, hopen⟩
    · exact absurd hreopen.1 (by decide)
    · cases hfree

/-! ## Without `CHECK_ERRNO` -/

namespace WithoutCheckErrno

/-- `access(path, F_OK) == 0` for a path in the directory of the semaphores -/
def access (s : System (List UInt8)) (path : List UInt8) : Bool :=
  devShmSem.isPrefixOf path && (s.named (path.drop devShmSem.length)).isSome

def checkShm (s : System (List UInt8)) : (objName : List UInt8) → Except Stop (System (List UInt8))
  | [] => .error .overrun
  | c :: rest =>
    let shmPath := devShmSem ++ rest
    if shmPath.length < 100 then
      if access s shmPath then semUnlink linux s (c :: rest) else .ok s
    else .error .overrun

def semOpen (s : System (List UInt8)) (name : List UInt8) (value : Int32) :
    Except Stop (System (List UInt8) × Option Nat) :=
  match checkShm s name with
  | .error stop => .error stop
  | .ok s' =>
    match Libc.semOpen linux s' name value.toUInt32.toNat with
    | .ok (s'', sem) => .ok (s'', some sem)
    | .error _ => .ok (s', none)

variable {s : System (List UInt8)} {base : List UInt8}

theorem access_devShmSem : access s (devShmSem ++ base) = (s.named base).isSome := by
  have hpath : devShmSem.isPrefixOf (devShmSem ++ base) = true :=
    List.isPrefixOf_iff_prefix.2 (List.prefix_append devShmSem base)
  rw [access, hpath, List.drop_left, Bool.true_and]

theorem linux_resolve (hne : base ≠ []) (hslash : slash ∉ base) (hlen : base.length ≤ 251) :
    linux.resolve (slash :: base) = .ok base := by
  have hbase : (slash :: base).dropWhile (· = slash) = base := by
    cases base with
    | nil => rfl
    | cons x base =>
      have hx : x ≠ slash := fun h => hslash (h ▸ List.mem_cons_self)
      simp [hx]
  simp only [linux, hbase]
  rw [if_neg (not_or.2 ⟨hne, hslash⟩), if_neg (Nat.not_lt_of_le hlen)]

/-- **The other build removes first**, and opens with the value that was asked for. -/
theorem semOpen_renewed (hne : base ≠ []) (hslash : slash ∉ base) (hlen : base.length ≤ 86) {value : Int32}
    (hvalue : 0 ≤ value) : ∃ s' sem, semOpen s (slash :: base) value = .ok (s', some sem) ∧
      Renewed s base value.toInt.toNat s' sem := by
  have hk := linux_resolve hne hslash (Nat.le_trans hlen (by decide))
  have hcount : value.toUInt32.toNat = value.toInt.toNat := Int32.toNat_toUInt32_of_le hvalue
  have hmax : value.toInt.toNat ≤ linux.SEM_VALUE_MAX := Nat.le_of_lt_succ value.toNatClampNeg_lt
  have hfits : (devShmSem ++ base).length < 100 := by
    rw [List.length_append, show devShmSem.length = 13 from rfl]
    omega
  by_cases hfree : s.named base = none
  · refine ⟨s.create base value.toInt.toNat, s.next, ?_, create_renewed s base _⟩
    have hcheck : checkShm s (slash :: base) = .ok s := by
      simp only [checkShm, if_pos hfits, access_devShmSem, hfree, Option.isSome_none, Bool.false_eq_true, if_false]
    simp only [semOpen, hcheck, hcount, sem_open_valid hk hmax, if_pos hfree]
  · refine ⟨(s.remove base).create base value.toInt.toNat, s.next, ?_, remove_create_renewed s base _⟩
    have hcheck : checkShm s (slash :: base) = .ok (s.remove base) := by
      have hsome : (s.named base).isSome = true := Option.isSome_iff_ne_none.2 hfree
      simp only [checkShm, if_pos hfits, access_devShmSem, hsome, if_true, semUnlink, Libc.semUnlink, hk, if_neg hfree]
    simp only [semOpen, hcheck, hcount, sem_open_valid hk hmax, named_remove_self, if_true]
    rfl

end WithoutCheckErrno

end OstepHw.NamedSemaphore
