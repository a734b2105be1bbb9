import OstepHw.Lib.Count
import OstepHw.Lib.Machine
import OstepHw.Pzip.EndToEnd

/-!
# `pzip` under every schedule

The threads of `pzip.c` with `ALLOW_MULTIPLE_JOBS`: `main` queues the jobs, cancels and joins the workers
one after the other and takes `mutex` before the final loop; a worker takes a token of `full`, then
`mutex`, and compresses one job.  The calls on semaphores are atomic, and so is what a thread does while
it holds `mutex`.  Cancellation is deferred: a worker that was cancelled may end at each `Sem_wait`.

Nothing makes `main` wait for the jobs, so a job is lost when a worker ends with its token, or when the
last worker ends while there are tokens (`oneWorker_loses_job`).

* `Inv` — the tokens: every job that was queued is a token of `full`, in the hands of a worker, done,
  or lost;
* `inv_run` — it holds after every run, and no token is lost iff the steps so far meet `LeavesNoJob`;
* `final_built_iff` — when the final loop starts, all jobs are done iff they do;
* `mutex_released` — `mutex` is never kept by a worker that has ended.
-/

set_option autoImplicit false

namespace OstepHw.Pzip.Schedule

open Machine OstepHw.Count

/-! ## The threads -/

/-- Where `main` is; the jobs that are still to be queued are in `rest`. -/
inductive Main
  /-- `while (offset < files[i].size)` and `Sem_wait(&mutex)`. -/
  | job (rest : List Work)
  /-- The entry of `works` is filled. -/
  | fill (w : Work) (rest : List Work)
  | postMutex (rest : List Work)
  | postFull (rest : List Work)
  /-- `Pthread_cancel(threads[i])`. -/
  | cancel (i : Nat)
  | join (i : Nat)
  /-- `Sem_wait(&mutex)` after the loop. -/
  | lock
  /-- The final loop starts. -/
  | final

inductive Worker
  | waitFull
  | waitMutex
  | compress
  | postMutex
  | dead
  deriving DecidableEq

structure State where
  queue : Queue
  mutex : Nat
  main : Main
  workers : Nat → Worker
  cancelled : Nat → Bool

inductive Act
  | main
  | worker (i : Nat)
  /-- The cancellation of worker `i` acts. -/
  | die (i : Nat)

/-- `works[fill_ptr] = …; fill_ptr = (fill_ptr + 1) % chunks`. -/
def put (chunks : Nat) (q : Queue) (w : Work) : Queue :=
  { q with works := q.works.set q.fillPtr (some w), fillPtr := (q.fillPtr + 1) % chunks }

/-- What a worker does between its two calls on `mutex`. -/
def use (chunks : Nat) (q : Queue) : Queue := { q.work chunks with full := q.full }

def mainStep (chunks np : Nat) (s : State) : Option State :=
  match s.main with
  | .job [] => some { s with main := .cancel 0 }
  | .job (w :: rest) =>
    if 0 < s.mutex then some { s with mutex := s.mutex - 1, main := .fill w rest } else none
  | .fill w rest => some { s with queue := put chunks s.queue w, main := .postMutex rest }
  | .postMutex rest => some { s with mutex := s.mutex + 1, main := .postFull rest }
  | .postFull rest =>
    some { s with queue := { s.queue with full := s.queue.full + 1 }, main := .job rest }
  | .cancel i =>
    if i < np then
      some { s with cancelled := Function.update s.cancelled i true, main := .join i }
    else some { s with main := .lock }
  | .join i => if s.workers i = .dead then some { s with main := .cancel (i + 1) } else none
  | .lock => if 0 < s.mutex then some { s with mutex := s.mutex - 1, main := .final } else none
  | .final => none

def State.move (s : State) (i : Nat) (w : Worker) : State :=
  { s with workers := Function.update s.workers i w }

def workerStep (chunks : Nat) (s : State) (i : Nat) : Option State :=
  match s.workers i with
  | .waitFull =>
    if 0 < s.queue.full then
      some { s.move i .waitMutex with queue := { s.queue with full := s.queue.full - 1 } }
    else none
  | .waitMutex =>
    if 0 < s.mutex then some { s.move i .compress with mutex := s.mutex - 1 } else none
  | .compress => some { s.move i .postMutex with queue := use chunks s.queue }
  | .postMutex => some { s.move i .waitFull with mutex := s.mutex + 1 }
  | .dead => none

/-- The worker is at a cancellation point. -/
def Worker.atWait (w : Worker) : Bool := w == .waitFull || w == .waitMutex

def step (chunks np : Nat) (s : State) : Act → Option State
  | .main => mainStep chunks np s
  | .worker i => if i < np then workerStep chunks s i else none
  | .die i =>
    if i < np ∧ s.cancelled i = true ∧ (s.workers i).atWait = true then some (s.move i .dead)
    else none

/-- All workers are created and all jobs are to be queued. -/
def start (chunks : Nat) (jobs : List Work) : State :=
  ⟨⟨List.replicate chunks none, 0, 0, 0⟩, 1, .job jobs, fun _ => .waitFull, fun _ => false⟩

/-- Every entry of `works` that was filled has its results. -/
def AllBuilt (s : State) : Prop :=
  ∀ (i : Nat) (w : Work), s.queue.works[i]? = some (some w) → w.results = Pzip.compress w

/-- A worker ends without a token in its hands, and while there are tokens it is not the last one. -/
def LeavesNoJob (np : Nat) (s : State) : Act → Prop
  | .die i => s.workers i = .waitFull ∧
      (s.queue.full = 0 ∨ ∃ j < np, j ≠ i ∧ s.workers j ≠ .dead)
  | _ => True

instance (np : Nat) (s : State) : ∀ a, Decidable (LeavesNoJob np s a)
  | .die i => inferInstanceAs (Decidable (_ ∧ (_ ∨ ∃ j < np, j ≠ i ∧ s.workers j ≠ .dead)))
  | .main => isTrue trivial
  | .worker _ => isTrue trivial

/-! ## The tokens -/

/-- The worker has taken a token of `full` and not yet compressed its job. -/
def Worker.hasToken (w : Worker) : Bool := w == .waitMutex || w == .compress

def Worker.hasMutex (w : Worker) : Bool := w == .compress || w == .postMutex

def Main.hasMutex : Main → Nat
  | .fill _ _ | .postMutex _ | .final => 1
  | _ => 0

/-- A job was filled, and its token is not yet posted. -/
def Main.unposted : Main → Nat
  | .postMutex _ | .postFull _ => 1
  | _ => 0

/-- `F` jobs were filled. -/
def Main.Filled (jobs : List Work) (F : Nat) : Main → Prop
  | .job rest | .postMutex rest | .postFull rest => rest = jobs.drop F
  | .fill w rest => w :: rest = jobs.drop F
  | _ => F = jobs.length

/-- Workers are cancelled after all jobs were posted, and end before `main` goes on. -/
def Phase (np : Nat) (s : State) : Prop :=
  match s.main with
  | .job _ | .fill _ _ | .postMutex _ | .postFull _ => ∀ i, s.cancelled i = false
  | .cancel i | .join i => ∀ j < i, s.workers j = .dead
  | .lock | .final => ∀ j < np, s.workers j = .dead

/-- An entry of `works` when `F` jobs were filled and `D` of them are done. -/
def entry (chunks : Nat) (jobs : List Work) (F D i : Nat) : Option (Option Work) :=
  if i < F then jobs[i]?.map fun w => some (if i < D then w.done else w)
  else if i < chunks then some none else none

/-- `F` jobs were filled, `D` of them are done and `lost` will never be. -/
structure Inv (chunks np : Nat) (jobs : List Work) (s : State) (F D lost : Nat) : Prop where
  le : F ≤ jobs.length
  filled : s.main.Filled jobs F
  works : ∀ i, s.queue.works[i]? = entry chunks jobs F D i
  fillPtr : s.queue.fillPtr = F % chunks
  usePtr : s.queue.usePtr = D % chunks
  tokens : s.queue.full + count np Worker.hasToken s.workers + D + lost + s.main.unposted = F
  mutex : s.mutex + s.main.hasMutex + count np Worker.hasMutex s.workers = 1
  dead : ∀ i < np, s.workers i = .dead → s.cancelled i = true
  phase : Phase np s

/-- No token was lost, and none will be: if all workers have ended there is none left. -/
def NoLoss (np : Nat) (s : State) (lost : Nat) : Prop :=
  lost = 0 ∧ ((∀ j < np, s.workers j = .dead) → s.queue.full = 0)

section Steps

variable {chunks np : Nat} {jobs : List Work} {s s' : State} {F D lost : Nat}

theorem inv_start :
    Inv chunks np jobs (start chunks jobs) 0 0 0 := by
  have hcount : ∀ p : Worker → Bool, p .waitFull = false → count np p (start chunks jobs).workers = 0 :=
    fun p hp => count_eq_zero.2 fun _ _ => hp
  constructor
  · exact Nat.zero_le _
  · rfl
  · intro i
    simp [start, entry, List.getElem?_replicate]
  · simp [start]
  · simp [start]
  · rw [hcount _ rfl]
    rfl
  · rw [hcount _ rfl]
    rfl
  · intro i _ hd
    cases hd
  · exact fun _ => rfl

theorem drop_eq_cons {w : Work} {rest : List Work} (h : w :: rest = jobs.drop F) :
    jobs[F]? = some w ∧ rest = jobs.drop (F + 1) := by
  constructor
  · rw [← List.head?_drop, ← h]
    rfl
  · rw [← List.tail_drop, ← h]
    rfl

/-- A job is filled. -/
theorem entry_put {w : Work} (hlt : F < chunks) (hw : jobs[F]? = some w) {q : Queue} (hDF : D ≤ F)
    (hq : ∀ i, q.works[i]? = entry chunks jobs F D i) (hptr : q.fillPtr = F % chunks) (i : Nat) :
    (put chunks q w).works[i]? = entry chunks jobs (F + 1) D i := by
  have hptr' : q.fillPtr = F := hptr.trans (Nat.mod_eq_of_lt hlt)
  have hlen : F < q.works.length := by
    have hF := hq F
    rw [entry, if_neg (Nat.lt_irrefl F), if_pos hlt] at hF
    exact (List.getElem?_eq_some_iff.mp hF).1
  simp only [put, hptr', List.getElem?_set, hq i, entry]
  by_cases hi : F = i
  · subst hi
    simp [hw, hlen, Nat.not_lt.mpr hDF]
  · have hiff : i < F + 1 ↔ i < F := by omega
    simp only [if_neg hi, hiff]

/-- A job is compressed. -/
theorem entry_use (hlt : D < F) (hle : F ≤ chunks) (hjobs : F ≤ jobs.length) {q : Queue}
    (hq : ∀ i, q.works[i]? = entry chunks jobs F D i) (hptr : q.usePtr = D % chunks) (i : Nat) :
    (use chunks q).works[i]? = entry chunks jobs F (D + 1) i := by
  have hptr' : q.usePtr = D := hptr.trans (Nat.mod_eq_of_lt (by omega))
  simp only [use, Queue.work, hptr', List.getElem?_modify, hq i, entry]
  by_cases hi : D = i
  · subst hi
    have hget : jobs[D]? = some jobs[D] := List.getElem?_eq_getElem (by omega)
    simp [hlt, hget, Work.done]
  · have hiff : i < D + 1 ↔ i < D := by omega
    simp only [if_neg hi, hiff]
    simp

/-- A step of `main` loses no token. -/
theorem mainStep_inv (hle : jobs.length ≤ chunks) (hnp : 0 < np) (h : Inv chunks np jobs s F D lost)
    (hs : mainStep chunks np s = some s') :
    ∃ F', Inv chunks np jobs s' F' D lost ∧ (NoLoss np s' lost ↔ NoLoss np s lost) := by
  obtain ⟨hF, hfilled, hworks, hfill, huse, htok, hmutex, hdead, hphase⟩ := h
  unfold mainStep at hs
  cases hmain : s.main with
  | job rest =>
    simp only [hmain, Main.Filled, Main.unposted, Main.hasMutex, Phase] at *
    cases rest with
    | nil =>
      cases hs
      have hlen : F = jobs.length := by
        have := List.drop_eq_nil_iff.mp hfilled.symm
        omega
      exact ⟨F, ⟨hF, hlen, hworks, hfill, huse, htok, hmutex, hdead, fun j hj => by omega⟩, Iff.rfl⟩
    | cons w rest =>
      simp only [Option.ite_none_right_eq_some, Option.some.injEq] at hs
      obtain ⟨hpos, rfl⟩ := hs
      refine ⟨F, ⟨hF, hfilled, hworks, hfill, huse, htok, ?_, hdead, hphase⟩, Iff.rfl⟩
      simp only [Main.hasMutex]
      omega
  | fill w rest =>
    simp only [hmain, Main.Filled, Main.unposted, Main.hasMutex, Phase] at *
    cases hs
    obtain ⟨hw, hrest⟩ := drop_eq_cons hfilled
    have hlt : F < jobs.length := (List.getElem?_eq_some_iff.mp hw).1
    refine ⟨F + 1, ⟨hlt, hrest, entry_put (by omega) hw (by omega) hworks hfill, ?_, huse, ?_, hmutex,
      hdead, hphase⟩, Iff.rfl⟩
    · simp [put, hfill]
    · simp only [Main.unposted, put]
      omega
  | postMutex rest =>
    simp only [hmain, Main.Filled, Main.unposted, Main.hasMutex, Phase] at *
    cases hs
    refine ⟨F, ⟨hF, hfilled, hworks, hfill, huse, htok, ?_, hdead, hphase⟩, Iff.rfl⟩
    simp only [Main.hasMutex]
    omega
  | postFull rest =>
    simp only [hmain, Main.Filled, Main.unposted, Main.hasMutex, Phase] at *
    cases hs
    refine ⟨F, ⟨hF, hfilled, hworks, hfill, huse, ?_, hmutex, hdead, hphase⟩, ?_⟩
    · simp only [Main.unposted]
      omega
    -- no worker has ended yet
    · have halive : ¬ ∀ j < np, s.workers j = .dead := fun hall => by
        have := hdead 0 hnp (hall 0 hnp)
        rw [hphase 0] at this
        cases this
      simp only [NoLoss, halive, false_implies]
  | cancel i =>
    simp only [hmain, Main.Filled, Main.unposted, Main.hasMutex, Phase] at *
    split at hs
    · cases hs
      refine ⟨F, ⟨hF, hfilled, hworks, hfill, huse, htok, hmutex, fun j hj hd => ?_, hphase⟩, Iff.rfl⟩
      show Function.update s.cancelled i true j = true
      by_cases hji : j = i
      · rw [hji, Function.update_self]
      · rw [Function.update_of_ne hji]
        exact hdead j hj hd
    · cases hs
      exact ⟨F, ⟨hF, hfilled, hworks, hfill, huse, htok, hmutex, hdead,
        fun j hj => hphase j (by omega)⟩, Iff.rfl⟩
  | join i =>
    simp only [hmain, Main.Filled, Main.unposted, Main.hasMutex, Phase] at *
    simp only [Option.ite_none_right_eq_some, Option.some.injEq] at hs
    obtain ⟨hd, rfl⟩ := hs
    refine ⟨F, ⟨hF, hfilled, hworks, hfill, huse, htok, hmutex, hdead, fun j hj => ?_⟩, Iff.rfl⟩
    rcases Nat.lt_succ_iff_lt_or_eq.mp hj with hj | rfl
    · exact hphase j hj
    · exact hd
  | lock =>
    simp only [hmain, Main.Filled, Main.unposted, Main.hasMutex, Phase] at *
    simp only [Option.ite_none_right_eq_some, Option.some.injEq] at hs
    obtain ⟨hpos, rfl⟩ := hs
    refine ⟨F, ⟨hF, hfilled, hworks, hfill, huse, htok, ?_, hdead, hphase⟩, Iff.rfl⟩
    simp only [Main.hasMutex]
    omega
  | final =>
    simp only [hmain] at hs
    cases hs

/-- A worker that has not ended moves. -/
theorem Phase.move {i : Nat} {w : Worker} (h : Phase np s) (hi : s.workers i ≠ .dead)
    (hmain : s'.main = s.main) (hcancelled : s'.cancelled = s.cancelled)
    (hworkers : s'.workers = Function.update s.workers i w) : Phase np s' := by
  have hkeep : ∀ j, s.workers j = .dead → s'.workers j = .dead := by
    intro j hj
    have hji : j ≠ i := fun hji => hi (hji ▸ hj)
    rw [hworkers, Function.update_of_ne hji, hj]
  unfold Phase at h ⊢
  rw [hmain, hcancelled]
  cases hk : s.main with
  | job | fill | postMutex | postFull =>
    rw [hk] at h
    exact h
  | cancel k | join k =>
    rw [hk] at h
    exact fun j hj => hkeep j (h j hj)
  | lock | final =>
    rw [hk] at h
    exact fun j hj => hkeep j (h j hj)

theorem noLoss_of_alive {i : Nat} (hi : i < np) (hs : s.workers i ≠ .dead) :
    NoLoss np s lost ↔ lost = 0 := by
  have halive : ¬ ∀ j < np, s.workers j = .dead := fun hall => hs (hall i hi)
  simp only [NoLoss, halive, false_implies, and_true]

/-- **One worker moves.**  The tokens and `mutex` go with it. -/
theorem Inv.move {i D' lost' mutex : Nat} {w : Worker} {q : Queue}
    (h : Inv chunks np jobs s F D lost) (hi : i < np) (hne : s.workers i ≠ .dead)
    (hworks : ∀ i, q.works[i]? = entry chunks jobs F D' i) (hfill : q.fillPtr = s.queue.fillPtr)
    (huse : q.usePtr = D' % chunks)
    (htok : q.full + (if w.hasToken then 1 else 0) + D' + lost' =
      s.queue.full + (if (s.workers i).hasToken then 1 else 0) + D + lost)
    (hmutex : mutex + (if w.hasMutex then 1 else 0) =
      s.mutex + if (s.workers i).hasMutex then 1 else 0)
    (hdead : w = .dead → s.cancelled i = true) :
    Inv chunks np jobs { s.move i w with queue := q, mutex := mutex } F D' lost' := by
  have ht := count_update Worker.hasToken s.workers w hi
  have hm := count_update Worker.hasMutex s.workers w hi
  have htokens := h.tokens
  have hheld := h.mutex
  refine ⟨h.le, h.filled, hworks, hfill.trans h.fillPtr, huse, ?_, ?_, fun j hj hd => ?_,
    h.phase.move hne rfl rfl rfl⟩
  · simp only [State.move]
    omega
  · simp only [State.move]
    omega
  · simp only [State.move] at hd
    by_cases hji : j = i
    · subst hji
      rw [Function.update_self] at hd
      exact hdead hd
    · rw [Function.update_of_ne hji] at hd
      exact h.dead j hj hd

/-- A step of a worker loses no token. -/
theorem workerStep_inv {i : Nat} (hle : jobs.length ≤ chunks) (hi : i < np)
    (h : Inv chunks np jobs s F D lost) (hs : workerStep chunks s i = some s') :
    ∃ D', Inv chunks np jobs s' F D' lost ∧ (NoLoss np s' lost ↔ NoLoss np s lost) := by
  unfold workerStep at hs
  cases hw : s.workers i with
  | waitFull =>
    have hne : s.workers i ≠ .dead := by simp [hw]
    simp only [hw, Option.ite_none_right_eq_some, Option.some.injEq] at hs
    obtain ⟨hpos, rfl⟩ := hs
    refine ⟨D, h.move hi hne h.works rfl h.usePtr ?_ ?_ (by simp), ?_⟩
    · simp [hw, Worker.hasToken]
      omega
    · simp [hw, Worker.hasMutex, State.move]
    · rw [noLoss_of_alive hi hne, noLoss_of_alive hi (by simp [State.move])]
  | waitMutex =>
    have hne : s.workers i ≠ .dead := by simp [hw]
    simp only [hw, Option.ite_none_right_eq_some, Option.some.injEq] at hs
    obtain ⟨hpos, rfl⟩ := hs
    refine ⟨D, h.move hi hne h.works rfl h.usePtr ?_ ?_ (by simp), ?_⟩
    · simp [hw, Worker.hasToken, State.move]
    · simp [hw, Worker.hasMutex]
      omega
    · rw [noLoss_of_alive hi hne, noLoss_of_alive hi (by simp [State.move])]
  | compress =>
    have hne : s.workers i ≠ .dead := by simp [hw]
    simp only [hw] at hs
    cases hs
    -- the worker holds a token, so there is a job that is not done
    have htoken : 0 < count np Worker.hasToken s.workers :=
      count_pos.2 ⟨i, hi, by rw [hw]; rfl⟩
    have hlt : D < F := by
      have := h.tokens
      omega
    have huse : (use chunks s.queue).usePtr = (D + 1) % chunks := by
      simp [use, Queue.work, h.usePtr]
    refine ⟨D + 1, h.move hi hne (entry_use hlt (h.le.trans hle) h.le h.works h.usePtr) rfl huse
      ?_ ?_ (by simp), ?_⟩
    · simp [hw, Worker.hasToken, use]
      omega
    · simp [hw, Worker.hasMutex, State.move]
    · rw [noLoss_of_alive hi hne, noLoss_of_alive hi (by simp [State.move])]
  | postMutex =>
    have hne : s.workers i ≠ .dead := by simp [hw]
    simp only [hw] at hs
    cases hs
    refine ⟨D, h.move hi hne h.works rfl h.usePtr ?_ ?_ (by simp), ?_⟩
    · simp [hw, Worker.hasToken, State.move]
    · simp [hw, Worker.hasMutex]
    · rw [noLoss_of_alive hi hne, noLoss_of_alive hi (by simp [State.move])]
  | dead =>
    simp only [hw] at hs
    cases hs

/-- **A worker ends**: a token is lost iff it holds one, or leaves one to nobody. -/
theorem die_inv {i : Nat} (h : Inv chunks np jobs s F D lost)
    (hs : step chunks np s (.die i) = some s') :
    ∃ lost', Inv chunks np jobs s' F D lost' ∧
      (NoLoss np s' lost' ↔ NoLoss np s lost ∧ LeavesNoJob np s (.die i)) := by
  simp only [step, Option.ite_none_right_eq_some, Option.some.injEq] at hs
  obtain ⟨⟨hi, hc, hwait⟩, rfl⟩ := hs
  have hne : s.workers i ≠ .dead := by
    intro hd
    rw [hd] at hwait
    cases hwait
  rw [noLoss_of_alive hi hne]
  cases hw : s.workers i with
  | waitFull =>
    refine ⟨lost, h.move hi hne h.works rfl h.usePtr ?_ ?_ fun _ => hc, ?_⟩
    · simp [hw, Worker.hasToken]
    · simp [hw, Worker.hasMutex]
    have hall : (∀ j < np, (s.move i .dead).workers j = .dead) ↔
        ¬ ∃ j < np, j ≠ i ∧ s.workers j ≠ .dead := by
      simp only [State.move, not_exists, not_and, not_not]
      constructor
      · intro h j hj hji
        rw [← h j hj, Function.update_of_ne hji]
      · intro h j hj
        by_cases hji : j = i
        · rw [hji, Function.update_self]
        · rw [Function.update_of_ne hji, h j hj hji]
    simp only [NoLoss, hall, LeavesNoJob, hw, true_and]
    refine and_congr_right fun _ => ⟨fun hfull => ?_, fun hor hnone => hor.resolve_right hnone⟩
    by_cases hother : ∃ j < np, j ≠ i ∧ s.workers j ≠ .dead
    · exact Or.inr hother
    · exact Or.inl (hfull hother)
  | waitMutex =>
    refine ⟨lost + 1, h.move hi hne h.works rfl h.usePtr ?_ ?_ fun _ => hc, ?_⟩
    · simp [hw, Worker.hasToken]
      omega
    · simp [hw, Worker.hasMutex]
    · simp [NoLoss, LeavesNoJob, hw]
  | compress | postMutex | dead =>
    rw [hw] at hwait
    cases hwait

/-- **After every run** the tokens are accounted for, and none is lost iff no step of the run leaves a
job. -/
theorem inv_run (hle : jobs.length ≤ chunks) (hnp : 0 < np) {l : List Act}
    (hrun : run (step chunks np) (start chunks jobs) l = some s) :
    ∃ F D lost, Inv chunks np jobs s F D lost ∧
      (NoLoss np s lost ↔
        StepsMeet (step chunks np) (LeavesNoJob np) (start chunks jobs) l) := by
  refine run_induction (P := fun l s => ∃ F D lost, Inv chunks np jobs s F D lost ∧
    (NoLoss np s lost ↔ StepsMeet (step chunks np) (LeavesNoJob np) (start chunks jobs) l))
    ?_ ?_ hrun
  · refine ⟨0, 0, 0, inv_start, ?_⟩
    simp [StepsMeet, NoLoss, start]
  · rintro l m a m' hm ⟨F, D, lost, hinv, hiff⟩ ha
    have hconcat : StepsMeet (step chunks np) (LeavesNoJob np) (start chunks jobs) (l ++ [a]) ↔
        NoLoss np m lost ∧ LeavesNoJob np m a := by
      rw [stepsMeet_concat hm, hiff]
      simp [ha]
    rw [hconcat]
    cases a with
    | main =>
      obtain ⟨F', hinv', hiff'⟩ := mainStep_inv hle hnp hinv ha
      exact ⟨F', D, lost, hinv', by simp [hiff', LeavesNoJob]⟩
    | worker i =>
      simp only [step, Option.ite_none_right_eq_some] at ha
      obtain ⟨D', hinv', hiff'⟩ := workerStep_inv hle ha.1 hinv ha.2
      exact ⟨F, D', lost, hinv', by simp [hiff', LeavesNoJob]⟩
    | die i =>
      obtain ⟨lost', hinv', hiff'⟩ := die_inv hinv ha
      exact ⟨F, D, lost', hinv', hiff'⟩

/-! ## The final loop -/

theorem compress_ne_nil (w : Work) : Pzip.compress w ≠ [] := by
  unfold Pzip.compress
  simp only
  split <;> simp

/-- All entries have their results iff all jobs that were filled are done. -/
theorem Inv.allBuilt_iff (h : Inv chunks np jobs s F D lost) (hjobs : ∀ w ∈ jobs, w.results = []) :
    AllBuilt s ↔ F ≤ D := by
  constructor
  · intro hbuilt
    by_contra hlt
    have hF := h.le
    have hget : jobs[D]? = some jobs[D] := List.getElem?_eq_getElem (by omega)
    have hworks := h.works D
    rw [entry, if_pos (by omega), hget, Option.map_some, if_neg (Nat.lt_irrefl D)] at hworks
    have hres := hbuilt D _ hworks
    rw [hjobs _ (List.getElem_mem _)] at hres
    exact compress_ne_nil _ hres.symm
  · intro hFD i w hw
    rw [h.works, entry] at hw
    split at hw
    · rename_i hi
      obtain ⟨v, _, hv⟩ := Option.map_eq_some_iff.mp hw
      rw [if_pos (by omega)] at hv
      obtain rfl := Option.some.inj hv
      rfl
    · split at hw <;> cases hw

/-- **When the final loop starts**, all jobs are done iff no step of the run left a job. -/
theorem final_built_iff (hle : jobs.length ≤ chunks) (hnp : 0 < np)
    (hjobs : ∀ w ∈ jobs, w.results = []) {l : List Act}
    (hrun : run (step chunks np) (start chunks jobs) l = some s) (hfinal : s.main = .final) :
    AllBuilt s ↔ StepsMeet (step chunks np) (LeavesNoJob np) (start chunks jobs) l := by
  obtain ⟨F, D, lost, h, hiff⟩ := inv_run hle hnp hrun
  have hphase := h.phase
  have htokens := h.tokens
  simp only [Phase, hfinal, Main.unposted] at hphase htokens
  have hzero : count np Worker.hasToken s.workers = 0 :=
    count_eq_zero.2 fun i hi => by rw [hphase i hi]; rfl
  rw [← hiff, h.allBuilt_iff hjobs, NoLoss]
  constructor
  · intro hFD
    exact ⟨by omega, fun _ => by omega⟩
  · rintro ⟨rfl, hfull⟩
    have := hfull hphase
    omega

/-- `main` is at a `Sem_wait(&mutex)`. -/
def Main.WaitsMutex : Main → Prop
  | .job rest => rest ≠ []
  | .lock => True
  | _ => False

/-- **`mutex` comes back**: when `main` waits for it, the workers that have not ended can post it. -/
theorem mutex_released (hle : jobs.length ≤ chunks) (hnp : 0 < np) {l : List Act}
    (hrun : run (step chunks np) (start chunks jobs) l = some s) (hwaits : s.main.WaitsMutex) :
    ∃ (is : List Nat) (s' : State), run (step chunks np) s (is.map .worker) = some s' ∧
      s'.main = s.main ∧ 0 < s'.mutex := by
  obtain ⟨F, D, lost, h, _⟩ := inv_run hle hnp hrun
  have hmutex := h.mutex
  have hnone : s.main.hasMutex = 0 := by
    cases hmain : s.main <;> simp_all [Main.WaitsMutex, Main.hasMutex]
  by_cases hpos : 0 < s.mutex
  · exact ⟨[], s, rfl, rfl, hpos⟩
  obtain ⟨i, hi, hheld⟩ := count_pos.1 (show 0 < count np Worker.hasMutex s.workers by omega)
  cases hw : s.workers i with
  | compress =>
    have hfirst : step chunks np s (.worker i) =
        some { s.move i .postMutex with queue := use chunks s.queue } := by
      simp [step, hi, workerStep, hw]
    have hsecond : step chunks np { s.move i .postMutex with queue := use chunks s.queue } (.worker i) =
        some { (s.move i .postMutex).move i .waitFull with
          queue := use chunks s.queue, mutex := s.mutex + 1 } := by
      simp [step, hi, workerStep, State.move]
    refine ⟨[i, i], _, run_cons.2 ⟨_, hfirst, run_cons.2 ⟨_, hsecond, rfl⟩⟩, rfl, ?_⟩
    exact Nat.succ_pos _
  | postMutex =>
    have hfirst : step chunks np s (.worker i) =
        some { s.move i .waitFull with mutex := s.mutex + 1 } := by
      simp [step, hi, workerStep, hw]
    exact ⟨[i], _, run_cons.2 ⟨_, hfirst, rfl⟩, rfl, Nat.succ_pos _⟩
  | waitFull | waitMutex | dead =>
    rw [hw] at hheld
    cases hheld

end Steps

/-! ## `pzip` -/

/-- The threads of `pzip` on the given files. -/
def pzipStart (pageSize : Nat) (files : List (List UInt8)) : State :=
  start (countChunks pageSize files) (allJobs pageSize files)

def pzipStep (pageSize : Nat) (files : List (List UInt8)) (np : Nat) : State → Act → Option State :=
  step (countChunks pageSize files) np

theorem results_allJobs (pageSize : Nat) (files : List (List UInt8)) :
    ∀ w ∈ allJobs pageSize files, w.results = [] := by
  intro w hw
  obtain ⟨file, _, hw⟩ := List.mem_flatMap.mp hw
  have hfile : ∀ fuel offset, ∀ w ∈ fileJobs pageSize file fuel offset, w.results = [] := by
    intro fuel
    induction fuel with
    | zero =>
      intro offset w hw
      exact absurd hw List.not_mem_nil
    | succ fuel ih =>
      intro offset w hw
      rw [fileJobs] at hw
      split at hw
      · rcases List.mem_cons.mp hw with rfl | hw
        · rfl
        · exact ih _ w hw
      · exact absurd hw List.not_mem_nil
  exact hfile _ _ w hw

/-- **Any number of workers, any files, any interleaving.**  When the final loop starts, all jobs have
their results iff no step of the run left a job; and `main` never waits for a `mutex` that will not be
posted. -/
theorem pzip_jobs_done_iff (pageSize np : Nat) (hp : 0 < pageSize) (hnp : 0 < np)
    (files : List (List UInt8)) (l : List Act) (s : State)
    (hrun : run (pzipStep pageSize files np) (pzipStart pageSize files) l = some s) :
    (s.main = .final → (AllBuilt s ↔ StepsMeet (pzipStep pageSize files np) (LeavesNoJob np)
      (pzipStart pageSize files) l)) ∧
    (s.main.WaitsMutex → ∃ (is : List Nat) (s' : State),
      run (pzipStep pageSize files np) s (is.map .worker) = some s' ∧
        s'.main = s.main ∧ 0 < s'.mutex) := by
  have hle := (allJobs_length hp files).1
  exact ⟨final_built_iff hle hnp (results_allJobs pageSize files) hrun,
    mutex_released hle hnp hrun⟩

/-- One job, one worker, which is cancelled before it takes its token. -/
def lostJob : List Act :=
  [.main, .main, .main, .main, .main, .main, .die 0, .main, .main, .main]

/-- The final loop starts, and the results are still `NULL`. -/
theorem oneWorker_loses_job : ∃ s, run (pzipStep 4096 [[97]] 1) (pzipStart 4096 [[97]]) lostJob = some s ∧
    s.main = .final ∧ ¬ AllBuilt s := by
  refine ⟨_, rfl, rfl, fun h => ?_⟩
  exact absurd (h 0 ⟨1, [97], []⟩ rfl) (by decide)

/-- The same, when the worker is faster. -/
def doneJob : List Act :=
  [.main, .main, .main, .main, .worker 0, .worker 0, .worker 0, .worker 0, .main, .main, .die 0, .main,
    .main, .main]

theorem oneWorker_jobs_done : ∃ s, run (pzipStep 4096 [[97]] 1) (pzipStart 4096 [[97]]) doneJob = some s ∧
    s.main = .final ∧ AllBuilt s := by
  refine ⟨_, rfl, rfl, ((pzip_jobs_done_iff 4096 1 (by decide) (by decide) [[97]] doneJob _ rfl).1
    rfl).mpr ?_⟩
  decide

end OstepHw.Pzip.Schedule
