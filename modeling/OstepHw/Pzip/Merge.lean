import OstepHw.Lib.CInt
import OstepHw.Pzip.Model
import OstepHw.Lib.RunLength

/-!
# The results of a chunk and their merge are run-length encodings

Each worker encodes its own chunk and the final loop merges the encodings: the last run of a chunk
is held back because it may continue in the next one.

* `compress_spec` — the results of a chunk are its run-length encoding;
* `merge_chunk` — the invariant of the final loop: what is written, followed by the run that is
  held back, is the encoding of the chunks read so far;
* `merge_chunks`, `finalCompress_maximalRuns` — the final loop over filled works writes the encoding of their
  concatenation.

All counts stay below `2 ^ 31`, so no `int` overflows.
-/

namespace OstepHw.Pzip

open RunLength

/-- A run as a `Result`. -/
def toResult (r : ℕ × UInt8) : Result := ⟨r.1, r.2⟩

theorem int32_of_lt {n : ℕ} (h : n < 2 ^ 31) : int32 n = n :=
  CInt.toInt_of_lt (Int.natCast_nonneg n) (by exact_mod_cast h)

/-! ## One chunk -/

theorem step_same {s : Scan} {n : ℕ} {c : UInt8} (hc : s.previousCharacter = c)
    (hn : s.previousCount = n) (hb : n + 1 < 2 ^ 31) :
    s.step c = ⟨s.results, c, (n + 1 : ℕ)⟩ := by
  have h32 : int32 ((n : Int) + 1) = (n + 1 : ℕ) := int32_of_lt hb
  simp [Scan.step, hc, hn, h32]

theorem step_other {s : Scan} {n : ℕ} {c : UInt8} (hc : c ≠ s.previousCharacter)
    (hn : s.previousCount = n) (hpos : 0 < n) :
    s.step c = ⟨s.results ++ [toResult (n, s.previousCharacter)], c, 1⟩ := by
  have hn0 : n ≠ 0 := by omega
  simp [Scan.step, hc, hn, hn0, toResult]

/-- The loop with a run of `n` characters `c` open: what follows extends it or closes it. -/
theorem scan_spec (l : List UInt8) : ∀ (rs : List Result) (c : UInt8) (n : ℕ), 0 < n →
    n + l.length < 2 ^ 31 →
    (l.foldl Scan.step ⟨rs, c, n⟩).results ++ [⟨(l.foldl Scan.step ⟨rs, c, n⟩).previousCount,
      (l.foldl Scan.step ⟨rs, c, n⟩).previousCharacter⟩] =
      rs ++ (consRun (n, c) (rle l)).map toResult := by
  induction l with
  | nil =>
    intro rs c n _ _
    simp [rle, consRun, toResult]
  | cons a l ih =>
    intro rs c n hn hb
    rw [List.length_cons] at hb
    rw [List.foldl_cons, rle]
    by_cases hac : a = c
    · subst hac
      rw [step_same rfl rfl (by omega), ih rs a (n + 1) (by omega) (by omega),
        consRun_consRun_of_eq (p := (n, a)) (q := (1, a)) rfl]
    · have h1 : (1 : Int) = (1 : ℕ) := rfl
      rw [step_other hac rfl hn, h1, ih _ a 1 Nat.one_pos (by omega),
        consRun_consRun_of_ne (Ne.symm hac)]
      simp

/-- **A worker leaves the run-length encoding of its chunk.** -/
theorem compress_spec {w : Work} (hne : w.addr.take w.chunkSize ≠ [])
    (hlen : (w.addr.take w.chunkSize).length < 2 ^ 31) :
    compress w = (rle (w.addr.take w.chunkSize)).map toResult := by
  unfold compress
  generalize w.addr.take w.chunkSize = l at hne hlen ⊢
  cases l with
  | nil => exact absurd rfl hne
  | cons c l =>
    rw [List.length_cons] at hlen
    -- the first character opens a run, whether or not it is the `'\0'` the loop starts with
    have hfirst : Scan.step ⟨[], 0, 0⟩ c = ⟨[], c, (1 : ℕ)⟩ := by
      by_cases hc : c = 0
      · subst hc
        rfl
      · simp [Scan.step, hc]
    have hs := scan_spec l [] c 1 Nat.one_pos (by omega)
    rw [List.nil_append] at hs
    simp only [List.foldl_cons, hfirst]
    split
    · rename_i hnil
      rw [hnil, List.nil_append] at hs
      exact hs
    · exact hs

/-! ## The final loop -/

/-- The state of the final loop: `ws` is written and the run `pending` is held back.  Before the
first chunk there is none. -/
structure Merge.Holds (m : Merge) (ws : List (ℕ × UInt8)) (pending : Option (ℕ × UInt8)) : Prop where
  written : m.written = ws.map toResult
  last : match pending with
    | none => m.lastCount = 0 ∧ m.lastCharacter = 0 ∧ ws = []
    | some p => m.lastCount = p.1 ∧ m.lastCharacter = p.2 ∧ 0 < p.1

/-- What is written and held back, continued by the runs of one more chunk. -/
def continued (ws : List (ℕ × UInt8)) : Option (ℕ × UInt8) → List (ℕ × UInt8) → List (ℕ × UInt8)
  | none, rs => ws ++ rs
  | some p, rs => ws ++ consRun p rs

theorem continued_cons (ws : List (ℕ × UInt8)) (pending : Option (ℕ × UInt8)) (r : ℕ × UInt8)
    (rs : List (ℕ × UInt8)) : continued ws pending (r :: rs) = continued ws pending [r] ++ rs := by
  cases pending with
  | none => simp [continued]
  | some p =>
    by_cases h : p.2 = r.2
    · simp [continued, consRun, h]
    · simp [continued, consRun, h]

/-- The sum of two counts that stay below the limit. -/
theorem int32_add {m n : ℕ} (h : m + n < 2 ^ 31) : int32 ((m : Int) + n) = (m + n : ℕ) :=
  int32_of_lt h

/-- The number of characters held back. -/
def pendingCount (pending : Option (ℕ × UInt8)) : ℕ := (pending.map Prod.fst).getD 0

/-- There is a result behind the current one. -/
theorem isEmpty_concat (mid : List (ℕ × UInt8)) (z : ℕ × UInt8) :
    ((mid ++ [z]).map toResult).isEmpty = false := by
  simp

section Steps

variable {m : Merge} {ws : List (ℕ × UInt8)} {pending : Option (ℕ × UInt8)} {r : ℕ × UInt8}

/-- The first result of a chunk when it is written: it closes the run that was held back. -/
theorem step_first_written (hm : m.Holds ws pending) (hb : r.1 + pendingCount pending < 2 ^ 31)
    (lastChunk last : Bool) (hl : last = false ∨ lastChunk = true) :
    (m.step lastChunk true last (toResult r)).written =
      (continued ws pending [r]).map toResult := by
  obtain ⟨hw, hp⟩ := hm
  have hstep : m.step lastChunk true last (toResult r) =
      if r.2 = m.lastCharacter then m.writeFile (int32 (r.1 + m.lastCount)) r.2
      else m.flush.writeFile r.1 r.2 := by
    rcases hl with rfl | rfl
    · rfl
    · cases last <;> rfl
  rw [hstep]
  cases pending with
  | none =>
    obtain ⟨hc, hch, rfl⟩ := hp
    have hr : int32 (r.1 : Int) = r.1 := int32_of_lt (by simpa [pendingCount] using hb)
    split <;> simp [Merge.writeFile, Merge.flush, hc, hw, hr, continued, toResult]
  | some p =>
    obtain ⟨hc, hch, hpos⟩ := hp
    have hsum : int32 ((r.1 : Int) + p.1) = (r.1 + p.1 : ℕ) :=
      int32_add (by simpa [pendingCount] using hb)
    rw [hc, hch]
    split
    · rename_i heq
      simp [Merge.writeFile, hw, hsum, continued, consRun, heq, toResult, Int.add_comm]
    · rename_i hne
      simp [Merge.writeFile, Merge.flush, hc, hch, hpos, hw, continued, consRun, Ne.symm hne,
        toResult]

/-- The only result of a chunk that is not the last one is held back, after the run that was held
back before if that one ends here. -/
theorem step_only_kept (hm : m.Holds ws pending) (hr : 0 < r.1)
    (hb : r.1 + pendingCount pending < 2 ^ 31) :
    ∃ vs p, (m.step false true true (toResult r)).Holds vs (some p) ∧
      vs ++ [p] = continued ws pending [r] := by
  obtain ⟨hw, hp⟩ := hm
  have hstep : m.step false true true (toResult r) =
      if r.2 = m.lastCharacter then { m with lastCount := int32 (m.lastCount + r.1) }
      else m.flush.keep (toResult r) := by
    simp [Merge.step, toResult]
  rw [hstep]
  cases pending with
  | none =>
    obtain ⟨hc, hch, rfl⟩ := hp
    have hr32 : int32 (r.1 : Int) = r.1 := int32_of_lt (by simpa [pendingCount] using hb)
    refine ⟨[], r, ?_, rfl⟩
    split
    · rename_i heq
      exact ⟨hw, by simp [hc, hr32], by simp [heq], hr⟩
    · exact ⟨by simp [Merge.flush, Merge.keep, hc, hw], rfl, rfl, hr⟩
  | some p =>
    obtain ⟨hc, hch, hpos⟩ := hp
    split
    · rename_i heq
      have hsum : int32 ((p.1 : Int) + r.1) = (p.1 + r.1 : ℕ) :=
        int32_add (by simpa [pendingCount, Nat.add_comm] using hb)
      have heq' : p.2 = r.2 := hch.symm.trans heq.symm
      have hpr : 0 < p.1 + r.1 := Nat.add_pos_left hpos _
      refine ⟨ws, (p.1 + r.1, r.2), ⟨hw, by simp [hc, hsum], by simp [heq], hpr⟩, ?_⟩
      simp [continued, consRun, heq']
    · rename_i hne
      have hne' : ¬ p.2 = r.2 := fun h => hne (h.symm.trans hch.symm)
      refine ⟨ws ++ [p], r, ⟨?_, rfl, rfl, hr⟩, by simp [continued, consRun, hne']⟩
      simp [Merge.flush, Merge.keep, Merge.writeFile, hc, hch, hpos, hw, toResult]

/-- The results behind the first one: all are written, but the last one is held back when another
chunk follows. -/
theorem results_rest (lastChunk : Bool) (z : ℕ × UInt8) (hz : 0 < z.1) :
    ∀ (mid ws : List (ℕ × UInt8)) (m : Merge), m.written = ws.map toResult →
      (lastChunk = true →
        (Merge.results lastChunk false ((mid ++ [z]).map toResult) m).written =
          (ws ++ (mid ++ [z])).map toResult) ∧
      (lastChunk = false →
        (Merge.results lastChunk false ((mid ++ [z]).map toResult) m).Holds (ws ++ mid) (some z))
  | [], ws, m, hw => by
    constructor
    · rintro rfl
      simp [Merge.results, Merge.step, Merge.writeFile, hw, toResult]
    · rintro rfl
      refine ⟨?_, rfl, rfl, hz⟩
      simp [Merge.results, Merge.step, Merge.keep, hw]
  | r :: mid, ws, m, hw => by
    have hstep : m.step lastChunk false false (toResult r) = m.writeFile r.1 r.2 := by
      simp [Merge.step, toResult]
    have ih := results_rest lastChunk z hz mid (ws ++ [r]) (m.writeFile r.1 r.2)
      (by simp [Merge.writeFile, hw, toResult])
    rw [List.append_assoc, List.append_assoc] at ih
    rw [List.cons_append, List.map_cons, Merge.results, isEmpty_concat, hstep]
    exact ih

end Steps

/-- **One chunk of the final loop** that is not the last one. -/
theorem results_kept {m : Merge} {ws : List (ℕ × UInt8)} {pending : Option (ℕ × UInt8)}
    {rs : List (ℕ × UInt8)} (hm : m.Holds ws pending) (hne : rs ≠ []) (hpos : ∀ r ∈ rs, 0 < r.1)
    (hb : ∀ r ∈ rs, r.1 + pendingCount pending < 2 ^ 31) :
    ∃ vs p, (Merge.results false true (rs.map toResult) m).Holds vs (some p) ∧
      vs ++ [p] = continued ws pending rs := by
  obtain ⟨r, rest, rfl⟩ := List.exists_cons_of_ne_nil hne
  rcases List.eq_nil_or_concat' rest with rfl | ⟨mid, z, rfl⟩
  · exact step_only_kept hm (hpos r (by simp)) (hb r (by simp))
  · have hw := step_first_written hm (hb r (by simp)) false false (.inl rfl)
    have hrest := (results_rest false z (hpos z (by simp)) mid _ _ hw).2 rfl
    refine ⟨continued ws pending [r] ++ mid, z, ?_, ?_⟩
    · rw [List.map_cons, Merge.results, isEmpty_concat]
      exact hrest
    · rw [List.append_assoc, ← continued_cons]

/-- **The last chunk of the final loop.** -/
theorem results_written {m : Merge} {ws : List (ℕ × UInt8)} {pending : Option (ℕ × UInt8)}
    {rs : List (ℕ × UInt8)} (hm : m.Holds ws pending) (hne : rs ≠ []) (hpos : ∀ r ∈ rs, 0 < r.1)
    (hb : ∀ r ∈ rs, r.1 + pendingCount pending < 2 ^ 31) :
    (Merge.results true true (rs.map toResult) m).written =
      (continued ws pending rs).map toResult := by
  obtain ⟨r, rest, rfl⟩ := List.exists_cons_of_ne_nil hne
  rcases List.eq_nil_or_concat' rest with rfl | ⟨mid, z, rfl⟩
  · exact step_first_written hm (hb r (by simp)) true true (.inr rfl)
  · have hw := step_first_written hm (hb r (by simp)) true false (.inl rfl)
    have hrest := (results_rest true z (hpos z (by simp)) mid _ _ hw).1 rfl
    rw [continued_cons, List.map_cons, Merge.results, isEmpty_concat]
    exact hrest

/-! ## All chunks -/

/-- The invariant of the final loop after the bytes `l`: what is written and held back is their
encoding. -/
def Merged (m : Merge) (l : List UInt8) : Prop :=
  ∃ ws pending, m.Holds ws pending ∧ rle l = ws ++ pending.toList ∧ (pending = none → l = [])

theorem merged_start : Merged ⟨[], 0, 0⟩ [] :=
  ⟨[], none, ⟨rfl, rfl, rfl, rfl⟩, rfl, fun _ => rfl⟩

/-- Continuing the encoding of `l` with the encoding of `c` is the encoding of `l ++ c`, and the
counts that are added are those of two parts of it. -/
theorem continued_rle {ws : List (ℕ × UInt8)} {pending : Option (ℕ × UInt8)} {l : List UInt8}
    (hl : rle l = ws ++ pending.toList) (hnone : pending = none → l = []) (c : List UInt8) :
    continued ws pending (rle c) = rle (l ++ c) ∧
      ∀ r ∈ rle c, r.1 + pendingCount pending ≤ (l ++ c).length := by
  cases pending with
  | none =>
    obtain rfl := hnone rfl
    obtain rfl : ws = [] := by simpa [rle] using hl.symm
    refine ⟨rfl, fun r hr => ?_⟩
    simpa [pendingCount] using count_le_length hr
  | some p =>
    refine ⟨(rle_append hl).symm, fun r hr => ?_⟩
    have hr' := count_le_length hr
    have hp : p.1 ≤ l.length := count_le_length (hl ▸ by simp)
    simp only [pendingCount, Option.map_some, Option.getD_some, List.length_append]
    omega

/-- One chunk keeps the invariant. -/
theorem merged_chunk {m : Merge} {l c : List UInt8} (hm : Merged m l) (hc : c ≠ [])
    (hlen : (l ++ c).length < 2 ^ 31) :
    Merged (Merge.results false true ((rle c).map toResult) m) (l ++ c) ∧
      (Merge.results true true ((rle c).map toResult) m).written =
        (rle (l ++ c)).map toResult := by
  obtain ⟨ws, pending, hh, hl, hnone⟩ := hm
  obtain ⟨heq, hb⟩ := continued_rle hl hnone c
  have hne : rle c ≠ [] := fun h => hc (rle_eq_nil_iff.1 h)
  have hb' : ∀ r ∈ rle c, r.1 + pendingCount pending < 2 ^ 31 :=
    fun r hr => Nat.lt_of_le_of_lt (hb r hr) hlen
  constructor
  · obtain ⟨vs, p, hvs, hp⟩ := results_kept hh hne (rle_maximalRuns c).pos hb'
    exact ⟨vs, some p, hvs, by rw [← heq, ← hp]; rfl, by simp⟩
  · rw [results_written hh hne (rle_maximalRuns c).pos hb', heq]

/-- The entry holds the encoded chunk `c`. -/
def Encoded (works : List (Option Work)) (i : Nat) (c : List UInt8) : Prop :=
  ∃ w, works[i]? = some (some w) ∧ w.results = (rle c).map toResult

/-- The turns of the final loop before the last one. -/
theorem merge_prefix {works : List (Option Work)} {cs : List (List UInt8)}
    (hw : ∀ i (h : i < cs.length), Encoded works i cs[i]) (hne : ∀ c ∈ cs, c ≠ [])
    (hlen : cs.flatten.length < 2 ^ 31) :
    ∀ k, k < cs.length → ∃ m,
      (List.range k).foldlM (Merge.chunk works cs.length) ⟨[], 0, 0⟩ = some m ∧
        Merged m (cs.take k).flatten
  | 0, _ => ⟨_, rfl, merged_start⟩
  | k + 1, hk => by
    obtain ⟨m, hrun, hm⟩ := merge_prefix hw hne hlen k (by omega)
    obtain ⟨w, hwk, hres⟩ := hw k (by omega)
    have hflat : (cs.take (k + 1)).flatten = (cs.take k).flatten ++ cs[k] := by
      rw [List.take_succ_eq_append_getElem (by omega), List.flatten_append, List.flatten_singleton]
    have hle : (cs.take (k + 1)).flatten.length ≤ cs.flatten.length := by
      have hsplit := congrArg List.flatten (List.take_append_drop (k + 1) cs)
      rw [← hsplit, List.flatten_append, List.length_append]
      exact Nat.le_add_right _ _
    have hstep := (merged_chunk hm (hne _ (List.getElem_mem _)) (by rw [← hflat]; omega)).1
    refine ⟨_, ?_, hflat ▸ hstep⟩
    rw [List.range_succ, List.foldlM_append, hrun]
    have hlast : (k == cs.length - 1) = false := by simp; omega
    simp [Merge.chunk, hwk, hres, hlast]

/-- **The final loop over encoded chunks writes the encoding of their concatenation.** -/
theorem merge_chunks {works : List (Option Work)} {cs : List (List UInt8)}
    (hw : ∀ i (h : i < cs.length), Encoded works i cs[i]) (hne : ∀ c ∈ cs, c ≠ [])
    (hcs : cs ≠ []) (hlen : cs.flatten.length < 2 ^ 31) :
    finalCompress works cs.length = some ((rle cs.flatten).map toResult) := by
  have hpos : 0 < cs.length := List.length_pos_of_ne_nil hcs
  obtain ⟨k, hk⟩ : ∃ k, cs.length = k + 1 := ⟨cs.length - 1, by omega⟩
  obtain ⟨m, hrun, hm⟩ := merge_prefix hw hne hlen k (by omega)
  obtain ⟨w, hwk, hres⟩ := hw k (by omega)
  have hflat : (cs.take k).flatten ++ cs[k] = cs.flatten := by
    have htake : cs.take k ++ [cs[k]] = cs := by
      rw [← List.take_succ_eq_append_getElem, List.take_of_length_le (by omega)]
    rw [← List.flatten_concat, htake]
  have hlast := (merged_chunk hm (hne _ (List.getElem_mem _)) (by rw [hflat]; omega)).2
  rw [finalCompress, hk, List.range_succ, ← hk, List.foldlM_append, hrun]
  have hk' : (k == cs.length - 1) = true := by simp [hk]
  simpa [Merge.chunk, hwk, hres, hk', hflat] using hlast

/-- **The pairs written are the run-length encoding of the whole**, however its runs are spread over the chunks. -/
theorem finalCompress_maximalRuns {works : List (Option Work)} {cs : List (List UInt8)} (hcs : cs ≠ [])
    (hne : ∀ c ∈ cs, c ≠ []) (hlen : cs.flatten.length < 2 ^ 31)
    (hw : ∀ i (hi : i < cs.length), ∃ w,
      works[i]? = some (some w) ∧ w.addr.take w.chunkSize = cs[i] ∧ w.results = compress w) :
    ∃ rs, MaximalRuns cs.flatten rs ∧ finalCompress works cs.length = some (rs.map toResult) := by
  refine ⟨rle cs.flatten, rle_maximalRuns _, merge_chunks (fun i hi => ?_) hne hcs hlen⟩
  obtain ⟨w, hwi, hcontent, hresults⟩ := hw i hi
  have hmem : cs[i] ∈ cs := List.getElem_mem hi
  have hle : cs[i].length ≤ cs.flatten.length := (List.sublist_flatten_of_mem hmem).length_le
  refine ⟨w, hwi, ?_⟩
  rw [hresults, compress_spec (hcontent ▸ hne _ hmem) (hcontent ▸ Nat.lt_of_le_of_lt hle hlen), hcontent]

/-- A run of NULs over two chunks. -/
theorem finalCompress_nuls :
    ∃ rs, MaximalRuns [0, 0, 0, 1] rs ∧
      finalCompress [some ⟨2, [0, 0], [⟨2, 0⟩]⟩, some ⟨2, [0, 1], [⟨1, 0⟩, ⟨1, 1⟩]⟩] 2 = some (rs.map toResult) :=
  finalCompress_maximalRuns (List.cons_ne_nil [0, 0] [[0, 1]])
    (by
      intro c hc
      rcases List.mem_pair.1 hc with rfl | rfl
      · exact List.cons_ne_nil _ _
      · exact List.cons_ne_nil _ _)
    (by decide)
    (fun
      | 0, _ => ⟨_, rfl, rfl, rfl⟩
      | 1, _ => ⟨_, rfl, rfl, rfl⟩)

end OstepHw.Pzip
