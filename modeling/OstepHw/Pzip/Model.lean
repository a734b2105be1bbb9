import Mathlib.Algebra.Ring.Int.Defs
import Mathlib.Algebra.Ring.Nat
import Mathlib.Data.List.Basic
import Mathlib.Logic.Function.Iterate

/-!
# `pzip`: chunks, jobs, per-chunk compression and the final loop

Literal model of `projects/concurrency-pzip/pzip.c`, with `ALLOW_MULTIPLE_JOBS` as defined there.
A file is its content, a mapped page the bytes that the mapping shows, a linked list of `Result`s
a list whose empty case is `NULL`.  An entry of `works` that `malloc` returned and nobody wrote is
`none`; reading it in the final loop is undefined, so the whole run is then `none`.

The debugging output on `stdout` and the failures of system calls are left out.
-/

namespace OstepHw.Pzip

/-- The value of a 32-bit `int` after an addition. -/
def int32 (n : Int) : Int := Int.bmod n (2 ^ 32)

structure Result where
  count : Int
  character : UInt8
  deriving DecidableEq

structure Work where
  chunkSize : Nat
  addr : List UInt8
  results : List Result
  deriving DecidableEq

/-! ## `compress`: the loop of a worker over one chunk -/

/-- `previous_character`, `previous_count` and the list from `head` to `previous_result`. -/
structure Scan where
  results : List Result
  previousCharacter : UInt8
  previousCount : Int

/-- The loop body of `compress`. -/
def Scan.step (s : Scan) (character : UInt8) : Scan :=
  if character = s.previousCharacter then
    { s with previousCount := int32 (s.previousCount + 1) }
  else
    { results :=
        if s.previousCount ≠ 0 then s.results ++ [⟨s.previousCount, s.previousCharacter⟩]
        else s.results
      previousCharacter := character
      previousCount := 1 }

/-- The results of one chunk: the last run is appended after the loop, and it is the head of the
list when there is no other. -/
def compress (w : Work) : List Result :=
  let s := (w.addr.take w.chunkSize).foldl Scan.step ⟨[], 0, 0⟩
  if s.results = [] then [⟨s.previousCount, s.previousCharacter⟩]
  else s.results ++ [⟨s.previousCount, s.previousCharacter⟩]

/-! ## Counting chunks and creating jobs -/

/-- `chunks += (sb.st_size / page_size + 1)` for every file. -/
def countChunks (pageSize : Nat) (files : List (List UInt8)) : Nat :=
  files.foldl (fun chunks file => chunks + (file.length / pageSize + 1)) 0

/-- The shared variables `works`, `fill_ptr`, `use_ptr` and the semaphore `full`. -/
structure Queue where
  works : List (Option Work)
  fillPtr : Nat
  usePtr : Nat
  full : Nat

/-- One job: the chunk of `file` at `offset`. -/
def Queue.fill (pageSize chunks : Nat) (q : Queue) (file : List UInt8) (offset : Nat) : Queue :=
  let chunkSize := if offset + pageSize > file.length then file.length - offset else pageSize
  let work : Work := ⟨chunkSize, (file.drop offset).take chunkSize, []⟩
  { q with
    works := q.works.set q.fillPtr (some work)
    fillPtr := (q.fillPtr + 1) % chunks
    full := q.full + 1 }

/-- `while (offset < files[i].size)`.  Every turn moves `offset` by at least one byte, so as many
turns as the file has bytes are enough fuel. -/
def createJobs (pageSize chunks : Nat) (file : List UInt8) : Nat → Nat → Queue → Queue
  | 0, _, q => q
  | fuel + 1, offset, q =>
    if offset < file.length then
      createJobs pageSize chunks file fuel (offset + pageSize) (q.fill pageSize chunks file offset)
    else q

/-- The state after the loop over all files. -/
def createAllJobs (pageSize : Nat) (files : List (List UInt8)) : Queue :=
  let chunks := countChunks pageSize files
  files.foldl (fun q file => createJobs pageSize chunks file file.length 0 q)
    ⟨List.replicate chunks none, 0, 0, 0⟩

/-- One turn of a worker, between `Sem_wait(&full)` and `Sem_post(&mutex)`. -/
def Queue.work (chunks : Nat) (q : Queue) : Queue :=
  { q with
    works := q.works.modify q.usePtr (Option.map fun w => { w with results := compress w })
    usePtr := (q.usePtr + 1) % chunks
    full := q.full - 1 }

/-- The workers have taken every queued job. -/
def Queue.drain (chunks : Nat) (q : Queue) : Queue := (Queue.work chunks)^[q.full] q

/-! ## The final loop -/

/-- The calls of `writeFile` so far, and the run that may continue in the next chunk. -/
structure Merge where
  written : List Result
  lastCount : Int
  lastCharacter : UInt8

def Merge.writeFile (m : Merge) (count : Int) (character : UInt8) : Merge :=
  { m with written := m.written ++ [⟨count, character⟩] }

/-- `if (last_count > 0) writeFile(last_count, &last_character)`. -/
def Merge.flush (m : Merge) : Merge :=
  if m.lastCount > 0 then m.writeFile m.lastCount m.lastCharacter else m

/-- `last_character = result->character; last_count = result->count`. -/
def Merge.keep (m : Merge) (result : Result) : Merge :=
  { m with lastCount := result.count, lastCharacter := result.character }

/-- The body of `while (result != NULL)`: is the result the first, the last of its chunk, and is
this the last chunk? -/
def Merge.step (lastChunk first last : Bool) (m : Merge) (result : Result) : Merge :=
  if first && !last then
    if result.character = m.lastCharacter then
      m.writeFile (int32 (result.count + m.lastCount)) result.character
    else m.flush.writeFile result.count result.character
  else if last then
    if !first then
      if lastChunk then m.writeFile result.count result.character
      else m.keep result
    else if result.character = m.lastCharacter then
      if !lastChunk then { m with lastCount := int32 (m.lastCount + result.count) }
      else m.writeFile (int32 (result.count + m.lastCount)) result.character
    else if !lastChunk then m.flush.keep result
    else m.flush.writeFile result.count result.character
  else m.writeFile result.count result.character

/-- `while (result != NULL)` from a result on. -/
def Merge.results (lastChunk : Bool) : Bool → List Result → Merge → Merge
  | _, [], m => m
  | first, result :: rest, m =>
    Merge.results lastChunk false rest (m.step lastChunk first rest.isEmpty result)

/-- One turn of `for (long long i = 0; i < chunks; i++)`; reading an entry that no job filled is
undefined. -/
def Merge.chunk (works : List (Option Work)) (chunks : Nat) (m : Merge) (i : Nat) : Option Merge :=
  match works[i]? with
  | some (some w) => some (Merge.results (i == chunks - 1) true w.results m)
  | _ => none

/-- The pairs passed to `writeFile` by the final loop. -/
def finalCompress (works : List (Option Work)) (chunks : Nat) : Option (List Result) :=
  ((List.range chunks).foldlM (Merge.chunk works chunks) ⟨[], 0, 0⟩).map Merge.written

/-- A whole run of `main` in which every queued job is compressed before the final loop. -/
def pzip (pageSize : Nat) (files : List (List UInt8)) : Option (List Result) :=
  let chunks := countChunks pageSize files
  finalCompress ((createAllJobs pageSize files).drain chunks).works chunks

/-- The number of jobs that the job loop creates. -/
def jobs (pageSize : Nat) (files : List (List UInt8)) : Nat := (createAllJobs pageSize files).full

end OstepHw.Pzip
