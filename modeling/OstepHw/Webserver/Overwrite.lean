import OstepHw.Webserver.InOrder

/-!
# Slots that are overwritten

The master fills the slots round-robin, and the semaphores only count them.  As soon as a request can be
passed by later ones, the master comes round to its slot before it was served.

* `run_storing`, `run_serving` — the moves of the master for a request, and of a worker;
* `Round`, `round_succ` — one request stays where it is while the others are served;
* `overwritten` — the run in which its slot is lost;
* `server_good_iff` — when every run is good in which all calls return;
* `masterHangs_not_good` — a `pre_handle_request` that does not return keeps the mutex.
-/

set_option autoImplicit false

namespace OstepHw.Webserver

open Machine

variable {c : Config} {s : State}

/-! ## One request, one worker -/

/-- The moves of the master for a connection. -/
def storing (conn : Conn) (stat : List UInt8 → Option Stat) : List Action :=
  [.master, .accept (some conn), .master, .preHandle stat fun _ => ⟨0, false, 0, [], [], false⟩, .master,
    .master]

/-- The moves of a worker for a request. -/
def serving (w : Nat) : List Action := List.replicate 9 (.worker w)

def afterStoring (c : Config) (s : State) (r : BufferT) : State :=
  { s with
    full := s.full + 1
    empty := s.empty - 1
    fill := (s.fill + 1) % c.buffers
    slots := Function.update s.slots s.fill r
    holds := Function.update s.holds s.fill (some s.stored.length)
    stored := s.stored ++ [r] }

theorem run_storing {conn : Conn} {stat : List UInt8 → Option Stat} {r : BufferT}
    (hpre : preHandleRequest stat conn = .ok r) (hfit : r.StringsFit) (hm : s.master = .waitEmpty)
    (he : 0 < s.empty) (hmu : s.mutex = 1) :
    run (step c) s (storing conn stat) = some (afterStoring c s r) := by
  have hs : s = { s with mutex := 1, master := .waitEmpty } := by rw [← hm, ← hmu]
  rw [hs]
  simp [storing, run, step, masterStep, he, hpre, hfit, store, afterStoring]

/-- What a worker does with a slot that does not change under its eyes. -/
def serve (x : BufferT) (request : Option Nat) : Served where
  request := request
  call :=
    if x.isStatic then .requestServeStatic x.fd x.pathname (toInt x.size)
    else .requestServeDynamic x.fd x.pathname x.cgiargs
  closed := x.fd

theorem run_serving {w : Nat} (hi : w < c.threads) (hw : s.workers w = .waitFull) (hf : 0 < s.full)
    (hmu : s.mutex = 1) :
    run (step c) s (serving w) = some { s with
      full := s.full - 1
      empty := s.empty + 1
      use := (pick c s).use
      slots := (pick c s).slots
      served := s.served ++
        [serve ((pick c s).slots (pick c s).useCopy) (s.holds (pick c s).useCopy)] } := by
  have hpick : ∀ full mutex workers, pick c { s with
      full := full, mutex := mutex, workers := workers } = pick c s := fun _ _ _ => rfl
  have hback : Function.update s.workers w .waitFull = s.workers := by rw [← hw, Function.update_eq_self]
  simp [serving, serve, run, step, workerStep, hi, hw, hf, hmu, List.replicate_succ, Function.update_idem,
    hpick, hback]

/-- A worker that has taken a request and does not go on. -/
theorem run_taking {w : Nat} (hi : w < c.threads) (hw : s.workers w = .waitFull) (hf : 0 < s.full)
    (hmu : s.mutex = 1) :
    run (step c) s (List.replicate 4 (.worker w)) = some { s with
      full := s.full - 1
      use := (pick c s).use
      slots := (pick c s).slots
      workers := Function.update s.workers w
        (.readStatic ⟨(pick c s).useCopy, s.holds (pick c s).useCopy⟩) } := by
  have hpick : ∀ full mutex workers, pick c { s with
      full := full, mutex := mutex, workers := workers } = pick c s := fun _ _ _ => rfl
  simp [run, step, workerStep, hi, hw, hf, hmu, List.replicate_succ, Function.update_idem, hpick]

/-- The smallest request that waits is picked. -/
theorem pickSFF_eq {slots : Nat → BufferT} {use b k : Nat} (hk : k < b) (hwait : (slots k).waiting)
    (hsize : (slots k).size < LLONG_MAX)
    (hmin : ∀ i < b, i ≠ k → (slots i).waiting → (slots k).size < (slots i).size) :
    (pickSFF slots use b).2 = k := by
  -- before slot `k` the minimum is larger than its size, and after it nothing is smaller
  have hloop : ∀ n ≤ b, (k < n → pickSFF slots use n = ((slots k).size, k)) ∧
      (n ≤ k → (slots k).size < (pickSFF slots use n).1) := by
    intro n
    induction n with
    | zero => exact fun _ => ⟨fun h => absurd h (Nat.not_lt_zero k), fun _ => hsize⟩
    | succ n ih =>
      intro hn
      obtain ⟨hafter, hbefore⟩ := ih (by omega)
      have hstep : pickSFF slots use (n + 1) =
          if (slots n).waiting ∧ (slots n).size < (pickSFF slots use n).1 then ((slots n).size, n)
          else pickSFF slots use n := by
        rw [pickSFF, List.range_succ, List.foldl_append]
        rfl
      rw [hstep]
      constructor
      · intro hkn
        rcases Nat.lt_or_eq_of_le (Nat.le_of_lt_succ hkn) with hlt | rfl
        · rw [hafter hlt, if_neg]
          rintro ⟨hw, hlt'⟩
          have := hmin n (by omega) (by omega) hw
          omega
        · rw [if_pos ⟨hwait, hbefore (Nat.le_refl _)⟩]
      · intro hnk
        split
        · rename_i hw
          exact hmin n (by omega) (by omega) hw.1
        · exact hbefore (by omega)
  exact congrArg Prod.snd ((hloop b (Nat.le_refl _)).1 hk)

/-! ## Rounds -/

/-- `GET /a` -/
def getA : Conn := ⟨5, some [71, 69, 84, 32, 47, 97], [], true, true⟩

/-- Every file can be read and has `size` bytes. -/
def sized (size : Nat) (_ : List UInt8) : Option Stat := some ⟨true, true, true, size⟩

/-- What is stored for `./a`. -/
def fileA (size : Nat) : BufferT := ⟨5, true, size, [46, 47, 97], [], false⟩

theorem pre_handle_getA (size : Nat) : preHandleRequest (sized size) getA = .ok (fileA size) := rfl

theorem fileA_fits {size : Nat} (h : size < 2 ^ 31) : (fileA size).Fits :=
  ⟨⟨by show 3 < SMALL_BUF; decide, by show 0 < SMALL_BUF; decide⟩, h⟩

/-- After `k` rounds: request 0 was not served, worker `w` waits and the master is about to fill the next
slot.  In a round worker `w` serves the request that the master stores; for `FIFO` request 0 was taken by
another worker, for `SFF` it is larger than all others. -/
structure Round (c : Config) (w k : Nat) (s : State) : Prop where
  master : s.master = .waitEmpty
  worker : s.workers w = .waitFull
  empty : s.empty + 1 = c.buffers
  mutex : s.mutex = 1
  fill : s.fill = (k + 1) % c.buffers
  stored : s.stored.length = k + 1
  unserved : some 0 ∉ s.served.map Served.request
  elsewhere : ∀ i, i ≠ 0 → s.holds i ≠ some 0
  fits : ∀ r ∈ s.stored, r.Fits
  returned : s.Returned c
  fifo : c.schedalg = .FIFO → s.use = s.fill
  sff : c.schedalg = .SFF → (s.slots 0).size = 2 ∧ ∀ i < c.buffers, i ≠ 0 → (s.slots i).waiting = false

/-- The request of this round is picked. -/
theorem Round.pick {w k : Nat} (h : Round c w k s) (hk : k + 1 < c.buffers) {t : State}
    (hslots : t.slots = Function.update s.slots s.fill (fileA 1)) (huse : t.use = s.use) :
    (pick c t).useCopy = k + 1 ∧
      (c.schedalg = .FIFO → (pick c t).use = (k + 2) % c.buffers) ∧
      (c.schedalg = .SFF → ((pick c t).slots 0).size = 2 ∧
        ∀ i < c.buffers, i ≠ 0 → ((pick c t).slots i).waiting = false) := by
  have hfill : s.fill = k + 1 := by rw [h.fill, Nat.mod_eq_of_lt hk]
  rw [hfill] at hslots
  unfold Webserver.pick
  cases hs : c.schedalg with
  | FIFO =>
    have huse' : t.use = k + 1 := by rw [huse, h.fifo hs, hfill]
    refine ⟨huse', fun _ => ?_, nofun⟩
    simp only [huse']
  | SFF =>
    obtain ⟨hbig, hothers⟩ := h.sff hs
    have hpicked : (pickSFF t.slots t.use c.buffers).2 = k + 1 := by
      rw [hslots]
      refine pickSFF_eq hk ?_ ?_ ?_
      · rw [Function.update_self]
        rfl
      · rw [Function.update_self]
        decide
      · intro i hi hne hwait
        rw [Function.update_self]
        rw [Function.update_of_ne hne] at hwait ⊢
        by_cases hi0 : i = 0
        · rw [hi0, hbig]
          decide
        · rw [hothers i hi hi0] at hwait
          cases hwait
    simp only [hpicked]
    refine ⟨trivial, nofun, fun _ => ⟨?_, ?_⟩⟩
    · rw [Function.update_of_ne (by omega), hslots, Function.update_of_ne (by omega), hbig]
    · intro i hi hi0
      by_cases hik : i = k + 1
      · rw [hik, Function.update_self]
        rfl
      · rw [Function.update_of_ne hik, hslots, Function.update_of_ne hik, hothers i hi hi0]

/-- **One more round.** -/
theorem round_succ {w k : Nat} (hw : w < c.threads) (h : Round c w k s) (hk : k + 1 < c.buffers) :
    ∃ s', Reaches (step c) s s' ∧ Round c w (k + 1) s' := by
  have hfill : s.fill = k + 1 := by rw [h.fill, Nat.mod_eq_of_lt hk]
  have hempty := h.empty
  have hstoring := run_storing (c := c) (pre_handle_getA 1) (fileA_fits (by decide)).1 h.master (by omega)
    h.mutex
  obtain ⟨hcopy, hfifo, hsff⟩ := h.pick hk (t := afterStoring c s (fileA 1)) rfl rfl
  have hserving := run_serving (s := afterStoring c s (fileA 1)) hw h.worker (Nat.succ_pos _) h.mutex
  refine ⟨_, Reaches.trans ⟨_, hstoring⟩ ⟨_, hserving⟩, ?_⟩
  refine ⟨h.master, h.worker, ?_, h.mutex, ?_, ?_, ?_, ?_, ?_, ⟨h.returned.master, h.returned.workers⟩, ?_, hsff⟩
  · simp only [afterStoring]
    omega
  · simp only [afterStoring, hfill]
  · simp only [afterStoring, List.length_append, List.length_singleton, h.stored]
  · rw [List.map_append, List.mem_append, not_or]
    refine ⟨h.unserved, ?_⟩
    rw [hcopy]
    simp [serve, afterStoring, hfill, h.stored]
  · intro i hi
    simp only [afterStoring, hfill, h.stored]
    by_cases hik : i = k + 1
    · rw [hik, Function.update_self]
      simp
    · rw [Function.update_of_ne hik]
      exact h.elsewhere i hi
  · intro r hr
    rcases List.mem_append.mp hr with hr | hr
    · exact h.fits r hr
    · rw [List.mem_singleton.mp hr]
      exact fileA_fits (by decide)
  · intro hs
    rw [hfifo hs]
    simp only [afterStoring, hfill]

/-- All rounds. -/
theorem round_last {w : Nat} (hw : w < c.threads) (h : Round c w 0 s) :
    ∀ k < c.buffers, ∃ s', Reaches (step c) s s' ∧ Round c w k s'
  | 0, _ => ⟨s, Reaches.refl s, h⟩
  | k + 1, hk => by
    obtain ⟨m, hm, hround⟩ := round_last hw h k (by omega)
    obtain ⟨s', hs', hround'⟩ := round_succ hw hround hk
    exact ⟨s', hm.trans hs', hround'⟩

/-- **The slot of request 0 is overwritten** in the round after the last. -/
theorem overwritten {w : Nat} (hw : w < c.threads) (hb : 2 ≤ c.buffers) (h : Round c w 0 s) :
    ∃ s', Reaches (step c) s s' ∧ (∀ r ∈ s'.stored, r.Fits) ∧ s'.Returned c ∧ ¬ Good c s' := by
  obtain ⟨m, hm, hround⟩ := round_last hw h (c.buffers - 1) (by omega)
  have hempty := hround.empty
  have hfill : m.fill = 0 := by rw [hround.fill, Nat.sub_add_cancel (by omega), Nat.mod_self]
  have hstoring := run_storing (c := c) (pre_handle_getA 1) (fileA_fits (by decide)).1 hround.master
    (by omega) hround.mutex
  refine ⟨_, hm.trans ⟨_, hstoring⟩, ?_, ⟨hround.returned.master, hround.returned.workers⟩, ?_⟩
  · intro r hr
    rcases List.mem_append.mp hr with hr | hr
    · exact hround.fits r hr
    · rw [List.mem_singleton.mp hr]
      exact fileA_fits (by decide)
  · intro hgood
    have hpos : 0 < (afterStoring c m (fileA 1)).stored.length := by
      simp [afterStoring]
    obtain ⟨i, -, hi⟩ := hgood.kept 0 hpos hround.unserved
    simp only [afterStoring, hfill, hround.stored] at hi
    by_cases hi0 : i = 0
    · rw [hi0, Function.update_self] at hi
      simp at hi
    · rw [Function.update_of_ne hi0] at hi
      exact hround.elsewhere i hi0 hi

/-! ## The start -/

/-- Slots that no worker would take for a request. -/
def blank (_ : Nat) : BufferT := ⟨0, false, 0, [], [], false⟩

/-- The first request is stored. -/
theorem run_first (hb : 0 < c.buffers) :
    run (step c) (init c blank) (storing getA (sized 2)) =
      some (afterStoring c (init c blank) (fileA 2)) :=
  run_storing (pre_handle_getA 2) (fileA_fits (by decide)).1 rfl hb rfl

theorem first_fits : ∀ r ∈ (afterStoring c (init c blank) (fileA 2)).stored, r.Fits := by
  intro r hr
  have hr : r ∈ [fileA 2] := hr
  rw [List.mem_singleton.mp hr]
  exact fileA_fits (by decide)

theorem first_elsewhere : ∀ i, i ≠ 0 → (afterStoring c (init c blank) (fileA 2)).holds i ≠ some 0 := by
  intro i hi
  show Function.update (fun _ => none) 0 _ i ≠ _
  rw [Function.update_of_ne hi]
  exact nofun

/-- With `SFF` a large request waits from the start. -/
theorem round_zero_sff (hs : c.schedalg = .SFF) (hb : 2 ≤ c.buffers) :
    ∃ s, Reaches (step c) (init c blank) s ∧ Round c 0 0 s := by
  refine ⟨_, ⟨_, run_first (by omega)⟩, rfl, rfl, ?_, rfl, rfl, rfl, nofun, first_elsewhere, first_fits,
    ⟨nofun, fun _ _ => nofun⟩, ?_, ?_⟩
  · show c.buffers - 1 + 1 = c.buffers
    omega
  · intro hfifo
    rw [hs] at hfifo
    cases hfifo
  · intro _
    refine ⟨rfl, ?_⟩
    intro i _ hi
    show BufferT.waiting (Function.update blank 0 _ i) = false
    rw [Function.update_of_ne hi]
    rfl

/-- With `FIFO` worker 0 takes the first request, and worker 1 is left. -/
theorem round_zero_fifo (hs : c.schedalg = .FIFO) (hb : 2 ≤ c.buffers) (ht : 2 ≤ c.threads) :
    ∃ s, Reaches (step c) (init c blank) s ∧ Round c 1 0 s := by
  have htaking := run_taking (c := c) (s := afterStoring c (init c blank) (fileA 2)) (w := 0) (by omega) rfl
    (Nat.succ_pos _) rfl
  have hpick : pick c (afterStoring c (init c blank) (fileA 2)) =
      ⟨0, 1 % c.buffers, (afterStoring c (init c blank) (fileA 2)).slots⟩ := by
    unfold pick
    rw [hs]
    rfl
  refine ⟨_, Reaches.trans ⟨_, run_first (by omega)⟩ ⟨_, htaking⟩, rfl, ?_, ?_, rfl, rfl, rfl, nofun,
    first_elsewhere, first_fits, ⟨nofun, fun i _ => ?_⟩, ?_, ?_⟩
  · simp [afterStoring, init]
  · show c.buffers - 1 + 1 = c.buffers
    omega
  · show Function.update (fun _ => Worker.waitFull) 0 _ i ≠ _
    intro hstuck
    by_cases hi : i = 0
    · rw [hi, Function.update_self] at hstuck
      cases hstuck
    · rw [Function.update_of_ne hi] at hstuck
      cases hstuck
  · intro _
    simp only [hpick]
    rfl
  · intro hsff
    rw [hs] at hsff
    cases hsff

/-- Every state is good that a run reaches from any contents of the slots, with requests that fit and calls
that return. -/
def RunsGood (c : Config) : Prop :=
  ∀ slots l s, run (step c) (init c slots) l = some s → (∀ r ∈ s.stored, r.Fits) → s.Returned c → Good c s

/-- **When the server is good.**  For every number of slots and workers and both policies: all runs in which
the requests fit and the calls return are good iff there is only one slot, or one worker that serves in
order. -/
theorem server_good_iff (hb : 1 ≤ c.buffers) (ht : 1 ≤ c.threads) :
    RunsGood c ↔ c.buffers = 1 ∨ c.schedalg = .FIFO ∧ c.threads = 1 := by
  constructor
  · intro hgood
    by_contra hnot
    rw [not_or] at hnot
    have hb2 : 2 ≤ c.buffers := by omega
    have hbad : ∃ s, Reaches (step c) (init c blank) s ∧ (∀ r ∈ s.stored, r.Fits) ∧ s.Returned c ∧
        ¬ Good c s := by
      cases hs : c.schedalg with
      | FIFO =>
        have hne : c.threads ≠ 1 := fun h => hnot.2 ⟨hs, h⟩
        obtain ⟨m, hm, hround⟩ := round_zero_fifo hs hb2 (by omega)
        obtain ⟨s, hs', hbad⟩ := overwritten (by omega) hb2 hround
        exact ⟨s, hm.trans hs', hbad⟩
      | SFF =>
        obtain ⟨m, hm, hround⟩ := round_zero_sff hs hb2
        obtain ⟨s, hs', hbad⟩ := overwritten (by omega) hb2 hround
        exact ⟨s, hm.trans hs', hbad⟩
    obtain ⟨s, ⟨l, hl⟩, hfits, hret, hbad⟩ := hbad
    exact hbad (hgood blank l s hl hfits hret)
  · intro hc slots l s hrun hfits hret
    exact (inv_run hc hrun hfits).good hb ht hret

/-- One slot for two workers. -/
theorem oneSlot_good : RunsGood ⟨1, 2, .SFF⟩ :=
  (server_good_iff (c := ⟨1, 2, .SFF⟩) (by decide) (by decide)).mpr (.inl rfl)

/-- **A call that does not return**: a request is stored, and `pre_handle_request` hangs for the next one, with the
mutex in its hands.  The first request is never served, whatever the policy. -/
theorem masterHangs_not_good (hb : 2 ≤ c.buffers) (ht : 1 ≤ c.threads) :
    ∃ s, Reaches (step c) (init c blank) s ∧ (∀ r ∈ s.stored, r.Fits) ∧ ¬ Good c s := by
  refine ⟨{ afterStoring c (init c blank) (fileA 2) with
    full := 0, empty := c.buffers - 2, mutex := 0, master := .stuck
    workers := Function.update (fun _ => .waitFull) 0 .waitMutex },
    Reaches.trans ⟨_, run_first (by omega)⟩
      ⟨[.master, .accept (some getA), .master, .masterHangs, .worker 0], ?_⟩, first_fits, fun hgood => ?_⟩
  · have hroom : 0 < c.buffers - 1 := by omega
    have hworker : c.threads ≠ 0 := by omega
    simp [run, step, masterStep, workerStep, afterStoring, init, hroom, hworker, Nat.sub_sub]
  · refine absurd (hgood.all (fun a ha => ?_) 0 Nat.one_pos) List.not_mem_nil
    cases a with
    | accept conn => cases ha
    | worker i =>
      by_cases hi : i = 0
      · subst hi
        simp [step, workerStep]
      · simp [step, workerStep, Function.update_of_ne hi]
    | workerHangs i =>
      by_cases hi : i = 0
      · subst hi
        simp [step]
      · simp [step, Function.update_of_ne hi]
    | _ => rfl

/-- `GET /b` on another descriptor. -/
def getB : Conn := ⟨6, some [71, 69, 84, 32, 47, 98], [], true, true⟩

/-- Two slots, two workers, `FIFO`: worker 0 takes the first request, worker 1 serves the second one, and
the third is stored in the slot of the first.  Then worker 0 serves it in the place of the first. -/
def mixUp : List Action :=
  storing getA (sized 1) ++ List.replicate 4 (.worker 0) ++ storing getA (sized 1) ++ serving 1 ++
    storing getB (sized 1) ++ List.replicate 5 (.worker 0)

theorem mixUp_not_good : ∃ s, run (step ⟨2, 2, .FIFO⟩) (init ⟨2, 2, .FIFO⟩ blank) mixUp = some s ∧
    (∀ r ∈ s.stored, r.Fits) ∧ s.Returned ⟨2, 2, .FIFO⟩ ∧ ¬ Good ⟨2, 2, .FIFO⟩ s := by
  have hrun : (run (step ⟨2, 2, .FIFO⟩) (init ⟨2, 2, .FIFO⟩ blank) mixUp).map
      (fun s => (s.served, s.stored, s.master, s.workers 0, s.workers 1)) =
      some ([⟨some 1, .requestServeStatic 5 [46, 47, 97] 1, 5⟩,
        ⟨some 0, .requestServeStatic 6 [46, 47, 98] 1, 6⟩],
        [fileA 1, fileA 1, ⟨6, true, 1, [46, 47, 98], [], false⟩], .waitEmpty, .waitFull, .waitFull) := by decide
  obtain ⟨s, hs, heq⟩ := Option.map_eq_some_iff.mp hrun
  simp only [Prod.mk.injEq] at heq
  obtain ⟨hserved, hstored, hmaster, hworker0, hworker1⟩ := heq
  have hret : s.Returned ⟨2, 2, .FIFO⟩ := by
    refine ⟨by rw [hmaster]; exact nofun, fun i hi => ?_⟩
    match i, hi with
    | 0, _ => rw [hworker0]; exact nofun
    | 1, _ => rw [hworker1]; exact nofun
  refine ⟨s, hs, ?_, hret, ?_⟩
  · rw [hstored]
    simp only [List.forall_mem_cons]
    refine ⟨fileA_fits (by decide), fileA_fits (by decide), ⟨by decide, by decide⟩, nofun⟩
  · intro hgood
    obtain ⟨k, r, hk, hr, hcall, -⟩ := hgood.right _ (hserved ▸ List.mem_cons_of_mem _ List.mem_cons_self)
    cases hk
    rw [hstored] at hr
    cases hr
    cases hcall

end OstepHw.Webserver
