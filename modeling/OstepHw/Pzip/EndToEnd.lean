import OstepHw.Pzip.Merge
import Mathlib.Data.Nat.Basic

/-!
# `pzip` from files to pairs

The number of chunks is computed as `size / page_size + 1` for every file, the jobs are created by
a loop over the pages of the file.  The two agree exactly for files whose size is not a multiple of
the page size; any other file (an empty one, for instance) leaves an entry of `works` that is read
but was never written.

* `createAllJobs_spec`, `drain_spec` — the entries of `works` after the job loop and after the
  workers;
* `jobs_eq_countChunks_iff` — when the two counts agree;
* `endToEnd_iff` — the pairs written are the run-length encoding of all input exactly then.
-/

namespace OstepHw.Pzip

open RunLength

variable {pageSize chunks : Nat}

/-! ## Jobs -/

/-- The job for the chunk at `offset`. -/
def job (pageSize : Nat) (file : List UInt8) (offset : Nat) : Work :=
  let chunkSize := if offset + pageSize > file.length then file.length - offset else pageSize
  ⟨chunkSize, (file.drop offset).take chunkSize, []⟩

/-- The jobs of the file from `offset` on. -/
def fileJobs (pageSize : Nat) (file : List UInt8) : Nat → Nat → List Work
  | 0, _ => []
  | fuel + 1, offset =>
    if offset < file.length then
      job pageSize file offset :: fileJobs pageSize file fuel (offset + pageSize)
    else []

/-- All jobs, in the order in which they are queued. -/
def allJobs (pageSize : Nat) (files : List (List UInt8)) : List Work :=
  files.flatMap fun file => fileJobs pageSize file file.length 0

/-- The bytes a worker reads. -/
def Work.content (w : Work) : List UInt8 := w.addr.take w.chunkSize

/-- `works` while jobs are created: the jobs so far, then entries that nobody has written. -/
structure Filled (chunks : Nat) (jobs : List Work) (q : Queue) : Prop where
  works : q.works = jobs.map some ++ List.replicate (chunks - jobs.length) none
  fillPtr : q.fillPtr = jobs.length % chunks
  usePtr : q.usePtr = 0
  full : q.full = jobs.length

theorem Filled.fill {jobs : List Work} {q : Queue} (h : Filled chunks jobs q)
    (hlt : jobs.length < chunks) (file : List UInt8) (offset : Nat) :
    Filled chunks (jobs ++ [job pageSize file offset]) (q.fill pageSize chunks file offset) := by
  have hptr : q.fillPtr = jobs.length := h.fillPtr.trans (Nat.mod_eq_of_lt hlt)
  obtain ⟨k, hk⟩ : ∃ k, chunks - jobs.length = k + 1 := ⟨chunks - jobs.length - 1, by omega⟩
  have hk' : chunks - (jobs.length + 1) = k := by omega
  refine ⟨?_, ?_, h.usePtr, ?_⟩
  · simp only [Queue.fill, hptr, h.works, hk]
    rw [List.set_append_right _ _ (by simp)]
    simp [List.replicate_succ, hk', job]
  · simp [Queue.fill, hptr]
  · simp [Queue.fill, h.full]

/-- The loop over one file. -/
theorem createJobs_spec (file : List UInt8) : ∀ (fuel offset : Nat) (jobs : List Work) (q : Queue),
    Filled chunks jobs q →
    jobs.length + (fileJobs pageSize file fuel offset).length ≤ chunks →
    Filled chunks (jobs ++ fileJobs pageSize file fuel offset)
      (createJobs pageSize chunks file fuel offset q)
  | 0, _, jobs, q, h, _ => by simpa [fileJobs, createJobs] using h
  | fuel + 1, offset, jobs, q, h, hle => by
    rw [fileJobs] at hle ⊢
    rw [createJobs]
    split
    · rename_i hlt
      rw [if_pos hlt, List.length_cons] at hle
      have hroom : (jobs ++ [job pageSize file offset]).length +
          (fileJobs pageSize file fuel (offset + pageSize)).length ≤ chunks := by
        rw [List.length_append, List.length_singleton]
        omega
      have ih := createJobs_spec file fuel (offset + pageSize) _ _
        (h.fill (by omega) file offset) hroom
      rwa [List.append_assoc] at ih
    · rwa [List.append_nil]

theorem createJobs_all (files : List (List UInt8)) : ∀ (jobs : List Work) (q : Queue),
    Filled chunks jobs q → jobs.length + (allJobs pageSize files).length ≤ chunks →
    Filled chunks (jobs ++ allJobs pageSize files)
      (files.foldl (fun q file => createJobs pageSize chunks file file.length 0 q) q) := by
  induction files with
  | nil => intro jobs q h _; simpa [allJobs] using h
  | cons file files ih =>
    intro jobs q h hle
    simp only [allJobs, List.flatMap_cons, List.length_append] at hle ⊢
    rw [List.foldl_cons, ← List.append_assoc]
    apply ih
    · exact createJobs_spec file file.length 0 jobs q h (by omega)
    · simp only [allJobs, List.length_append]
      omega

/-! ## How many jobs and how many chunks -/

/-- The pages of a file, rounded up. -/
theorem length_fileJobs (hp : 0 < pageSize) (file : List UInt8) : ∀ fuel offset,
    file.length ≤ offset + fuel →
    (fileJobs pageSize file fuel offset).length =
      (file.length - offset + (pageSize - 1)) / pageSize
  | 0, offset, h => by
    have h0 : file.length - offset = 0 := by omega
    rw [fileJobs, h0, Nat.div_eq_of_lt (by omega)]
    rfl
  | fuel + 1, offset, h => by
    rw [fileJobs]
    split
    · rename_i hlt
      rw [List.length_cons, length_fileJobs hp file fuel (offset + pageSize) (by omega)]
      by_cases hd : pageSize ≤ file.length - offset
      · have hsub : file.length - offset + (pageSize - 1) =
            file.length - (offset + pageSize) + (pageSize - 1) + pageSize := by omega
        rw [hsub, Nat.add_div_right _ hp]
      · have h0 : file.length - (offset + pageSize) = 0 := by omega
        have h1 : file.length - offset + (pageSize - 1) = file.length - offset - 1 + pageSize := by
          omega
        rw [h0, h1, Nat.add_div_right _ hp, Nat.div_eq_of_lt (by omega), Nat.div_eq_of_lt (by omega)]
    · have h0 : file.length - offset = 0 := by omega
      rw [h0, Nat.div_eq_of_lt (by omega)]
      rfl

/-- Rounding up against the `+ 1` of the chunk count. -/
theorem pages_le (hp : 0 < pageSize) (n : Nat) :
    (n + (pageSize - 1)) / pageSize ≤ n / pageSize + 1 ∧
      ((n + (pageSize - 1)) / pageSize = n / pageSize + 1 ↔ n % pageSize ≠ 0) := by
  have hn := Nat.div_add_mod n pageSize
  have hr := Nat.mod_lt n hp
  generalize n / pageSize = q at hn ⊢
  generalize n % pageSize = r at hn hr ⊢
  have hdiv : (n + (pageSize - 1)) / pageSize = q + (r + (pageSize - 1)) / pageSize := by
    rw [← hn, Nat.add_assoc, Nat.mul_add_div hp]
  rw [hdiv]
  cases r with
  | zero => simp [Nat.div_eq_of_lt (show pageSize - 1 < pageSize by omega)]
  | succ r =>
    have h1 : (r + 1 + (pageSize - 1)) / pageSize = 1 := by
      have : r + 1 + (pageSize - 1) = r + pageSize := by omega
      rw [this, Nat.add_div_right _ hp, Nat.div_eq_of_lt (by omega)]
    simp [h1]

theorem countChunks_cons (file : List UInt8) (files : List (List UInt8)) :
    countChunks pageSize (file :: files) =
      file.length / pageSize + 1 + countChunks pageSize files := by
  have hacc : ∀ (fs : List (List UInt8)) (n : Nat),
      fs.foldl (fun chunks file => chunks + (file.length / pageSize + 1)) n =
        n + countChunks pageSize fs := by
    intro fs
    induction fs with
    | nil => intro n; rfl
    | cons f fs ih =>
      intro n
      rw [countChunks, List.foldl_cons, List.foldl_cons, ih, ih]
      omega
  rw [countChunks, List.foldl_cons, hacc]
  omega

/-- **The jobs fit into `works`, and they fill it exactly when no file ends on a page boundary.** -/
theorem allJobs_length (hp : 0 < pageSize) (files : List (List UInt8)) :
    (allJobs pageSize files).length ≤ countChunks pageSize files ∧
      ((allJobs pageSize files).length = countChunks pageSize files ↔
        ∀ file ∈ files, file.length % pageSize ≠ 0) := by
  induction files with
  | nil => simp [allJobs, countChunks]
  | cons file files ih =>
    obtain ⟨hle, hiff⟩ := ih
    have hlen : (fileJobs pageSize file file.length 0).length =
        (file.length + (pageSize - 1)) / pageSize :=
      length_fileJobs hp file file.length 0 (by omega)
    obtain ⟨hple, hpiff⟩ := pages_le hp file.length
    have hcons : (allJobs pageSize (file :: files)).length =
        (file.length + (pageSize - 1)) / pageSize + (allJobs pageSize files).length := by
      rw [allJobs, List.flatMap_cons, List.length_append, hlen]
      rfl
    rw [hcons, countChunks_cons]
    refine ⟨by omega, ?_⟩
    rw [List.forall_mem_cons, ← hiff, ← hpiff]
    omega

/-- The state after the job loop. -/
theorem createAllJobs_spec (hp : 0 < pageSize) (files : List (List UInt8)) :
    Filled (countChunks pageSize files) (allJobs pageSize files)
      (createAllJobs pageSize files) := by
  have hstart : Filled (countChunks pageSize files) []
      ⟨List.replicate (countChunks pageSize files) none, 0, 0, 0⟩ :=
    ⟨by simp, by simp, rfl, rfl⟩
  have hroom : 0 + (allJobs pageSize files).length ≤ countChunks pageSize files := by
    rw [Nat.zero_add]
    exact (allJobs_length hp files).1
  exact createJobs_all files [] _ hstart hroom

/-! ## The contents of the jobs -/

theorem content_job (file : List UInt8) (offset : Nat) :
    (job pageSize file offset).content = (file.drop offset).take pageSize := by
  unfold job Work.content
  simp only
  rw [List.take_take, Nat.min_self]
  split
  · rw [List.take_of_length_le (by simp), List.take_of_length_le (by simp; omega)]
  · rfl

/-- The jobs of a file are its non-empty pieces, in order. -/
theorem fileJobs_content (hp : 0 < pageSize) (file : List UInt8) : ∀ fuel offset,
    file.length ≤ offset + fuel →
    ((fileJobs pageSize file fuel offset).map Work.content).flatten = file.drop offset ∧
      ∀ w ∈ fileJobs pageSize file fuel offset, w.content ≠ []
  | 0, offset, h => by
    rw [List.drop_of_length_le (by omega)]
    simp [fileJobs]
  | fuel + 1, offset, _ => by
    rw [fileJobs]
    split
    · rename_i hlt
      obtain ⟨hflat, hne⟩ := fileJobs_content hp file fuel (offset + pageSize) (by omega)
      constructor
      · rw [List.map_cons, List.flatten_cons, hflat, content_job, ← List.drop_drop,
          List.take_append_drop]
      · intro w hw
        rcases List.mem_cons.mp hw with rfl | hw
        · rw [content_job]
          intro hnil
          have hlen := congrArg List.length hnil
          simp only [List.length_take, List.length_drop, List.length_nil] at hlen
          omega
        · exact hne w hw
    · rw [List.drop_of_length_le (by omega)]
      simp

theorem allJobs_content (hp : 0 < pageSize) (files : List (List UInt8)) :
    ((allJobs pageSize files).map Work.content).flatten = files.flatten ∧
      ∀ w ∈ allJobs pageSize files, w.content ≠ [] := by
  constructor
  · induction files with
    | nil => rfl
    | cons file files ih =>
      have hfile := (fileJobs_content hp file file.length 0 (by omega)).1
      rw [List.drop_zero] at hfile
      rw [allJobs, List.flatMap_cons, List.map_append, List.flatten_append, hfile,
        List.flatten_cons, ← ih]
      rfl
  · intro w hw
    obtain ⟨file, -, hw⟩ := List.mem_flatMap.mp hw
    exact (fileJobs_content hp file file.length 0 (by omega)).2 w hw

/-! ## The workers -/

/-- The work after its worker is done with it. -/
def Work.done (w : Work) : Work := { w with results := compress w }

/-- `k` turns of the workers compress the first `k` entries and touch no other. -/
theorem work_iterate {q : Queue} (hq : q.usePtr = 0) : ∀ k, k ≤ chunks →
    (∀ i, ((Queue.work chunks)^[k] q).works[i]? =
      if i < k then q.works[i]?.map (Option.map Work.done) else q.works[i]?) ∧
    ((Queue.work chunks)^[k] q).usePtr = k % chunks
  | 0, _ => by simp [hq]
  | k + 1, hk => by
    obtain ⟨hworks, hptr⟩ := work_iterate hq k (by omega)
    rw [Nat.mod_eq_of_lt (by omega)] at hptr
    rw [Function.iterate_succ_apply']
    refine ⟨fun i => ?_, by simp [Queue.work, hptr]⟩
    simp only [Queue.work, hptr]
    rw [List.getElem?_modify, hworks i]
    by_cases hik : k = i
    · subst hik
      simp only [Nat.lt_irrefl, Nat.lt_succ_self, if_true, if_false]
      rfl
    · have hiff : i < k + 1 ↔ i < k := by omega
      simp only [if_neg hik, hiff]
      simp

/-- After the workers every job holds the encoding of its chunk. -/
theorem drain_spec {jobs : List Work} {q : Queue} (h : Filled chunks jobs q)
    (hle : jobs.length ≤ chunks) (hne : ∀ w ∈ jobs, w.content ≠ [])
    (hlen : (jobs.map Work.content).flatten.length < 2 ^ 31) (i : Nat) (hi : i < jobs.length) :
    Encoded (q.drain chunks).works i jobs[i].content := by
  have hmem : jobs[i] ∈ jobs := List.getElem_mem hi
  have hget : q.works[i]? = some (some jobs[i]) := by
    rw [h.works, List.getElem?_append_left (by simpa using hi)]
    simp [hi]
  refine ⟨jobs[i].done, ?_, ?_⟩
  · rw [Queue.drain, h.full, (work_iterate h.usePtr jobs.length hle).1 i, if_pos hi, hget]
    rfl
  · have hlen' : jobs[i].content.length ≤ (jobs.map Work.content).flatten.length := by
      apply List.Sublist.length_le
      exact List.sublist_flatten_of_mem (List.mem_map_of_mem hmem)
    exact compress_spec (hne _ hmem) (Nat.lt_of_le_of_lt hlen' hlen)

/-! ## End to end -/

/-- What `pzip` is for: every entry read by the final loop was filled by a job, and the pairs
written are the run-length encoding of the files one after the other. -/
structure EndToEnd (pageSize : Nat) (files : List (List UInt8)) : Prop where
  counts : countChunks pageSize files = jobs pageSize files
  filled : ∀ i, i < countChunks pageSize files →
    ∃ w, (createAllJobs pageSize files).works[i]? = some (some w)
  encodes : ∃ runs, MaximalRuns files.flatten runs ∧
    pzip pageSize files = some (runs.map toResult)

/-- When the jobs fill `works`, the run is right. -/
theorem endToEnd_of_counts (hp : 0 < pageSize) {files : List (List UInt8)} (hne : files ≠ [])
    (htotal : files.flatten.length < 2 ^ 31)
    (hcount : (allJobs pageSize files).length = countChunks pageSize files) :
    EndToEnd pageSize files := by
  have hfilled := createAllJobs_spec hp files
  obtain ⟨hflat, hcontent⟩ := allJobs_content hp files
  refine ⟨hcount.symm.trans hfilled.full.symm, fun i hi => ?_, ?_⟩
  · rw [← hcount] at hi
    refine ⟨(allJobs pageSize files)[i], ?_⟩
    rw [hfilled.works, List.getElem?_append_left (by simpa using hi)]
    simp [hi]
  · refine ⟨rle files.flatten, rle_maximalRuns _, ?_⟩
    have hpos : (allJobs pageSize files).map Work.content ≠ [] := by
      obtain ⟨file, files, rfl⟩ := List.exists_cons_of_ne_nil hne
      intro hnil
      have h0 : countChunks pageSize (file :: files) = 0 := by
        rw [← hcount, ← List.length_map Work.content, hnil]
        rfl
      simp [countChunks_cons] at h0
    have hworks : ∀ i (hi : i < ((allJobs pageSize files).map Work.content).length),
        Encoded ((createAllJobs pageSize files).drain (countChunks pageSize files)).works i
          ((allJobs pageSize files).map Work.content)[i] := by
      intro i hi
      rw [List.getElem_map]
      exact drain_spec hfilled (Nat.le_of_eq hcount) hcontent (hflat ▸ htotal) i (by simpa using hi)
    have hmerge := merge_chunks hworks (by simpa using hcontent) hpos (hflat ▸ htotal)
    rw [hflat, List.length_map, hcount] at hmerge
    exact hmerge

/-- **`pzip` end to end.**  The run is right exactly when no file ends on a page boundary. -/
theorem endToEnd_iff (pageSize : Nat) (hp : 0 < pageSize) (files : List (List UInt8))
    (hne : files ≠ []) (htotal : files.flatten.length < 2 ^ 31) :
    EndToEnd pageSize files ↔ ∀ file ∈ files, file.length % pageSize ≠ 0 := by
  rw [← (allJobs_length hp files).2]
  constructor
  · intro h
    rw [h.counts]
    exact (createAllJobs_spec hp files).full.symm
  · exact endToEnd_of_counts hp hne htotal

/-- Two files of one page each: a run goes on from the first to the second. -/
theorem twoFiles_endToEnd : EndToEnd 4096 [[97, 97, 98], [98, 0]] :=
  (endToEnd_iff 4096 (by decide) [[97, 97, 98], [98, 0]] (by decide) (by decide)).mpr (by decide)

/-- An empty file counts as one chunk, for which no job is created. -/
theorem emptyFile_not_endToEnd : ¬ EndToEnd 4096 [[]] := by
  intro h
  exact absurd h.counts (by decide)

end OstepHw.Pzip
