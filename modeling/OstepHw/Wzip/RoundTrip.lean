import OstepHw.Lib.CString
import OstepHw.Pzip.Merge
import Mathlib.Data.List.Induction

/-!
# `wzip` and `wunzip`

Model of `projects/initial-utilities/wzip/wzip.c` and `wunzip/wunzip.c`.  The arrays `buff` and
`oldBuff` start as zero bytes; `count` of `wzip` is not initialised and has any value.  What the programs
write on `stdout` is a list of bytes.

Both programs take a zero byte for the end of a string, so files with zero bytes do not come back.

* `wzip_spec` — the output on files without zero bytes: one record for each maximal run;
* `wunzip_records` — what `wunzip` makes of such records;
* `roundTrip_iff` — the files come back exactly when they have no zero byte.
-/

set_option autoImplicit false

namespace OstepHw.Wzip

open CString RunLength
open Pzip (int32 int32_of_lt)

/-! ## `wzip` -/

/-- The four bytes of an `int` in network byte order, as `htonl` and `fwrite` leave them. -/
def htonl (count : Int) : List UInt8 :=
  let u := (count % 2 ^ 32).toNat
  [UInt8.ofNat (u / 2 ^ 24), UInt8.ofNat (u / 2 ^ 16), UInt8.ofNat (u / 2 ^ 8), UInt8.ofNat u]

/-- The variables of `main`, and what was written. -/
structure Zip where
  buff : List UInt8
  oldBuff : List UInt8
  count : Int
  out : List UInt8

def Zip.writeFile (z : Zip) : Zip := { z with out := z.out ++ htonl z.count ++ z.oldBuff.take 1 }

/-- The variables before the first byte. -/
def Zip.init (count : Int) : Zip := ⟨[0, 0], [0, 0], count, []⟩

/-- The body of `while (fread(buff, 1, 1, fp))`. -/
def Zip.step (z : Zip) (b : UInt8) : Zip :=
  let z := { z with buff := z.buff.set 0 b }
  if cstr z.buff = cstr z.oldBuff then { z with count := int32 (z.count + 1) }
  else
    let z := if z.oldBuff[0]? ≠ some 0 then z.writeFile else z
    { z with count := 1, oldBuff := strcpy z.oldBuff z.buff }

/-- The usage message. -/
def usage (name : String) : List UInt8 := (name ++ ": file1 [file2 ...]\n").toUTF8.toList

/-- The output of `wzip`; `count` is the value of the variable before it is assigned. -/
def wzip (count : Int) (files : List (List UInt8)) : List UInt8 :=
  if files = [] then usage "wzip"
  else
    let z := files.foldl (fun z file => file.foldl Zip.step z) (Zip.init count)
    z.writeFile.out

/-! ## `wunzip` -/

/-- The `int` that `fread` and `ntohl` make of four bytes. -/
def ntohl (b₀ b₁ b₂ b₃ : UInt8) : Int :=
  int32 (((b₀.toNat * 256 + b₁.toNat) * 256 + b₂.toNat) * 256 + b₃.toNat : Nat)

/-- The number of turns of `for (size_t i = 0; i < count; i++)`: `count` is converted to `size_t`. -/
def turns (count : Int) : Nat := (count % 2 ^ 64).toNat

structure Unzip where
  buff : List UInt8
  out : List UInt8

/-- `memset(buff, 0, strlen(buff))`. -/
def Unzip.clear (u : Unzip) : Unzip :=
  { u with buff := List.replicate (cstr u.buff).length 0 ++ u.buff.drop (cstr u.buff).length }

/-- The inner loop: `printf("%s", buff)`. -/
def Unzip.print (u : Unzip) (count : Int) : Unzip :=
  { u with out := u.out ++ (List.replicate (turns count) (cstr u.buff)).flatten }

/-- `while (fread(&count, 4, 1, fp))` over the bytes that are left. -/
def Unzip.loop (u : Unzip) : List UInt8 → Unzip
  | b₀ :: b₁ :: b₂ :: b₃ :: c :: rest =>
    Unzip.loop ({ u.clear with buff := u.clear.buff.set 0 c }.print (ntohl b₀ b₁ b₂ b₃)) rest
  -- the second `fread` fails at the end of the file
  | [b₀, b₁, b₂, b₃] => u.clear.print (ntohl b₀ b₁ b₂ b₃)
  | _ => u

/-- The output of `wunzip`. -/
def wunzip (files : List (List UInt8)) : List UInt8 :=
  if files = [] then usage "wunzip"
  else (files.foldl Unzip.loop ⟨[0, 0, 0, 0, 0], []⟩).out

/-! ## What `wzip` writes -/

/-- The record of a run. -/
def toRecord (r : ℕ × UInt8) : List UInt8 := htonl r.1 ++ [r.2]

/-- The state of `wzip` after the bytes `l`, none of them zero, when it has written `ws` and holds the
run `p` back. -/
structure Zipped (ws : List (ℕ × UInt8)) (p : ℕ × UInt8) (z : Zip) : Prop where
  buff : z.buff.length = 2 ∧ z.buff[1]? = some 0
  oldBuff : z.oldBuff = [p.2, 0]
  count : z.count = p.1
  out : z.out = ws.flatMap toRecord

theorem cstr_pair {b : UInt8} (h : b ≠ 0) : cstr [b, 0] = [b] := by
  simp [cstr, h]

/-- The byte that was read is the string in `buff`. -/
theorem buff_set {buff : List UInt8} (h : buff.length = 2 ∧ buff[1]? = some 0) (b : UInt8) :
    buff.set 0 b = [b, 0] := by
  match buff, h with
  | [x, y], ⟨_, hy⟩ =>
    simp at hy
    simp [hy]

/-- **One byte.**  The run goes on or a new one begins. -/
theorem Zipped.step {ws : List (ℕ × UInt8)} {p : ℕ × UInt8} {z : Zip} (h : Zipped ws p z)
    (hp : p.2 ≠ 0) {b : UInt8} (hb : b ≠ 0) (hlt : p.2 = b → p.1 + 1 < 2 ^ 31) :
    if p.2 = b then Zipped ws (p.1 + 1, b) (z.step b) else Zipped (ws ++ [p]) (1, b) (z.step b) := by
  have hset := buff_set h.buff b
  unfold Zip.step
  simp only [hset, h.oldBuff, cstr_pair hb, cstr_pair hp, List.cons.injEq, and_true]
  by_cases hpb : p.2 = b
  · have hcount : int32 ((p.1 : Int) + 1) = (p.1 + 1 : ℕ) := int32_of_lt (hlt hpb)
    rw [if_pos hpb, if_pos hpb.symm]
    exact ⟨by simp, by simp [hpb], by simp [h.count, hcount], h.out⟩
  · rw [if_neg hpb, if_neg (Ne.symm hpb)]
    refine ⟨by simp [hp, Zip.writeFile], ?_, rfl, ?_⟩
    · simp [hp, Zip.writeFile, strcpy, cstr_pair hb]
    · simp [hp, Zip.writeFile, h.out, h.count, toRecord]

theorem zipped_first (count : Int) {b : UInt8} (hb : b ≠ 0) :
    Zipped [] (1, b) ((Zip.init count).step b) := by
  have hstep : (Zip.init count).step b = ⟨[b, 0], [b, 0], 1, []⟩ := by
    simp [Zip.init, Zip.step, cstr, hb, strcpy]
  rw [hstep]
  exact ⟨by simp, rfl, rfl, rfl⟩

/-- **All bytes**: the records of all runs but the last are written. -/
theorem zipped_all (count : Int) (l : List UInt8) (h0 : 0 ∉ l) (hne : l ≠ [])
    (hruns : ∀ r ∈ rle l, r.1 < 2 ^ 31) :
    ∃ ws p, rle l = ws ++ [p] ∧ p.2 ≠ 0 ∧ Zipped ws p (l.foldl Zip.step (Zip.init count)) := by
  induction l using List.reverseRecOn with
  | nil => exact absurd rfl hne
  | append_singleton l b ih =>
    have hb : b ≠ 0 := fun hb => h0 (by simp [hb])
    rw [List.foldl_append, List.foldl_cons, List.foldl_nil]
    by_cases hl : l = []
    · subst hl
      exact ⟨[], (1, b), rfl, hb, zipped_first count hb⟩
    -- the last run of `l` is in the encoding of the longer list, perhaps longer
    have hprev : ∃ ws p, rle l = ws ++ [p] := by
      rcases List.eq_nil_or_concat' (rle l) with hnil | hcat
      · exact absurd (rle_eq_nil_iff.1 hnil) hl
      · exact hcat
    obtain ⟨ws, p, hrle⟩ := hprev
    have hsnoc : rle (l ++ [b]) = ws ++ consRun p (rle [b]) := rle_append hrle
    rw [hsnoc] at hruns
    simp only [rle, consRun] at hruns hsnoc
    have hold : ∀ r ∈ rle l, r.1 < 2 ^ 31 := by
      rw [hrle]
      intro r hr
      rcases List.mem_append.mp hr with hr | hr
      · exact hruns r (List.mem_append_left _ hr)
      · obtain rfl := List.mem_singleton.mp hr
        split at hruns
        · have := hruns (r.1 + 1, b) (by simp)
          simp only at this
          omega
        · exact hruns r (by simp)
    obtain ⟨ws', p', hrle', hp, hz⟩ := ih (fun h => h0 (by simp [h])) hl hold
    obtain ⟨rfl, hpp⟩ := List.append_inj' (hrle.symm.trans hrle') rfl
    obtain rfl : p = p' := by simpa using hpp
    have hstep := hz.step hp hb fun hpb => by
      rw [if_pos hpb] at hruns
      exact hruns (p.1 + 1, b) (by simp)
    by_cases hpb : p.2 = b
    · rw [if_pos hpb] at hstep hsnoc
      exact ⟨ws, (p.1 + 1, b), hsnoc, hb, hstep⟩
    · rw [if_neg hpb] at hstep hsnoc
      exact ⟨ws ++ [p], (1, b), by rw [hsnoc]; simp, hb, hstep⟩

/-- **What `wzip` writes** for files without zero bytes. -/
theorem wzip_spec (count : Int) {files : List (List UInt8)} (hfiles : files ≠ [])
    (h0 : 0 ∉ files.flatten) (hne : files.flatten ≠ [])
    (hruns : ∀ r ∈ rle files.flatten, r.1 < 2 ^ 31) :
    wzip count files = (rle files.flatten).flatMap toRecord := by
  obtain ⟨ws, p, hrle, _, hz⟩ := zipped_all count files.flatten h0 hne hruns
  have hfold : files.foldl (fun z file => file.foldl Zip.step z) (Zip.init count) =
      files.flatten.foldl Zip.step (Zip.init count) := List.foldl_flatten.symm
  unfold wzip
  rw [if_neg hfiles, hfold, hrle]
  simp [Zip.writeFile, hz.out, hz.count, hz.oldBuff, toRecord]

/-! ## What `wunzip` makes of it -/

theorem htonl_of_lt {n : ℕ} (h : n < 2 ^ 31) : htonl n =
    [UInt8.ofNat (n / 2 ^ 24), UInt8.ofNat (n / 2 ^ 16), UInt8.ofNat (n / 2 ^ 8), UInt8.ofNat n] := by
  have hn : ((n : Int) % 2 ^ 32).toNat = n := by omega
  simp only [htonl, hn]

/-- The count comes back. -/
theorem turns_ntohl {n : ℕ} (h : n < 2 ^ 31) :
    turns (ntohl (UInt8.ofNat (n / 2 ^ 24)) (UInt8.ofNat (n / 2 ^ 16)) (UInt8.ofNat (n / 2 ^ 8))
      (UInt8.ofNat n)) = n := by
  have hbytes : ((n / 2 ^ 24 % 256 * 256 + n / 2 ^ 16 % 256) * 256 + n / 2 ^ 8 % 256) * 256 + n % 256 =
      n := by omega
  simp only [ntohl, UInt8.toNat_ofNat']
  rw [hbytes, int32_of_lt h]
  unfold turns
  omega

/-- `buff` is empty but for its first byte. -/
def Unzip.Small (u : Unzip) : Prop := ∃ x, u.buff = [x, 0, 0, 0, 0]

theorem Unzip.Small.clear {u : Unzip} (h : u.Small) : u.clear.buff = [0, 0, 0, 0, 0] := by
  obtain ⟨x, hx⟩ := h
  by_cases h0 : x = 0
  · simp [Unzip.clear, hx, cstr, h0]
  · simp [Unzip.clear, hx, cstr, h0]

/-- **One record.** -/
theorem Unzip.Small.loop_toRecord {u : Unzip} (h : u.Small) {r : ℕ × UInt8} (hr : r.1 < 2 ^ 31)
    (h0 : r.2 ≠ 0) (rest : List UInt8) :
    ∃ u' : Unzip, u.loop (toRecord r ++ rest) = u'.loop rest ∧ u'.Small ∧
      u'.out = u.out ++ List.replicate r.1 r.2 := by
  have hcstr : cstr [r.2, 0, 0, 0, 0] = [r.2] := by simp [cstr, h0]
  refine ⟨⟨[r.2, 0, 0, 0, 0], u.out ++ List.replicate r.1 r.2⟩, ?_, ⟨r.2, rfl⟩, rfl⟩
  rw [toRecord, htonl_of_lt hr]
  simp only [List.cons_append, List.nil_append, Unzip.loop, h.clear, turns_ntohl hr, Unzip.print,
    List.set_cons_zero, hcstr]
  simp [Unzip.clear]

/-- **All records** come back as what they stand for. -/
theorem Unzip.Small.loop_records (rs : List (ℕ × UInt8)) : ∀ {u : Unzip}, u.Small →
    (∀ r ∈ rs, r.1 < 2 ^ 31 ∧ r.2 ≠ 0) →
    (u.loop (rs.flatMap toRecord)).out = u.out ++ expand rs := by
  induction rs with
  | nil =>
    intro u _ _
    simp [Unzip.loop, expand]
  | cons r rs ih =>
    intro u hu hrs
    obtain ⟨hr, h0⟩ := hrs r List.mem_cons_self
    obtain ⟨u', hloop, hu', hout⟩ := hu.loop_toRecord hr h0 (rs.flatMap toRecord)
    rw [List.flatMap_cons, hloop, ih hu' fun r hr => hrs r (List.mem_cons_of_mem _ hr), hout]
    simp [expand]

/-- `printf("%s", buff)` prints no zero byte. -/
theorem zero_not_mem_loop (l : List UInt8) (u : Unzip) (h : 0 ∉ u.out) : 0 ∉ (u.loop l).out := by
  have hprint : ∀ (u : Unzip) (count : Int), 0 ∉ u.out → 0 ∉ (u.print count).out := by
    intro u count hu hmem
    rcases List.mem_append.mp hmem with hmem | hmem
    · exact hu hmem
    · obtain ⟨s, hs, hmem⟩ := List.mem_flatten.mp hmem
      rw [List.eq_of_mem_replicate hs] at hmem
      exact zero_not_mem_cstr _ hmem
  induction u, l using Unzip.loop.induct with
  | case1 u b₀ b₁ b₂ b₃ c rest ih =>
    rw [Unzip.loop]
    exact ih (hprint _ _ h)
  | case2 u b₀ b₁ b₂ b₃ =>
    rw [Unzip.loop]
    exact hprint _ _ h
  | case3 u l h₁ h₂ =>
    rw [Unzip.loop]
    · exact h
    · exact h₁
    · exact h₂

/-! ## There and back -/

/-- **The files come back exactly when they have no zero byte.** -/
theorem roundTrip_iff (count : Int) (files : List (List UInt8)) (hfiles : files ≠ [])
    (hruns : ∀ r ∈ rle files.flatten, r.1 < 2 ^ 31) :
    wunzip [wzip count files] = files.flatten ↔ 0 ∉ files.flatten := by
  have hout : wunzip [wzip count files] =
      (Unzip.loop ⟨[0, 0, 0, 0, 0], []⟩ (wzip count files)).out := rfl
  constructor
  · intro h
    rw [← h, hout]
    exact zero_not_mem_loop _ _ List.not_mem_nil
  · intro h0
    rw [hout]
    by_cases hne : files.flatten = []
    · have hbytes : files.foldl (fun z file => file.foldl Zip.step z) (Zip.init count) =
          Zip.init count := by rw [← List.foldl_flatten, hne]; rfl
      -- one record with a zero byte is written, and nothing is printed for it
      have hwzip : wzip count files = htonl count ++ [0] := by
        unfold wzip
        rw [if_neg hfiles, hbytes]
        rfl
      rw [hwzip, hne]
      simp [htonl, Unzip.loop, Unzip.print, Unzip.clear, cstr]
    · rw [wzip_spec count hfiles h0 hne hruns]
      have hspell := (rle_maximalRuns files.flatten).spells
      have hrs : ∀ r ∈ rle files.flatten, r.1 < 2 ^ 31 ∧ r.2 ≠ 0 := by
        intro r hr
        refine ⟨hruns r hr, fun hr0 => h0 ?_⟩
        rw [← hspell, expand, List.mem_flatMap]
        refine ⟨r, hr, List.mem_replicate.mpr ⟨?_, hr0.symm⟩⟩
        have := (rle_maximalRuns files.flatten).pos r hr
        omega
      have hall := Unzip.Small.loop_records (u := ⟨[0, 0, 0, 0, 0], []⟩) (rle files.flatten)
        ⟨0, rfl⟩ hrs
      rw [hall, hspell]
      rfl

/-- A run goes on from one file to the next. -/
theorem twoFiles_roundTrip : wunzip [wzip 0 [[97, 97, 98], [98]]] = [97, 97, 98, 98] :=
  (roundTrip_iff 0 [[97, 97, 98], [98]] (by decide) (by decide)).mpr (by decide)

/-- A zero byte is lost. -/
theorem zeroByte_lost : wunzip [wzip 0 [[97, 0, 98]]] ≠ [[97, 0, 98]].flatten := by decide

end OstepHw.Wzip
