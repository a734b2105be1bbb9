import OstepHw.Lib.CInt
import OstepHw.Webserver.Server
import Mathlib.Data.List.Nodup

/-!
# Requests that are served in order

With one slot, or with one worker that takes the slots in order, requests are served in the order in
which they were stored.

* `step_cases` — what one step can do;
* `step_measure` — every step without a new connection leaves less to do;
* `Inv` — the semaphores count tokens and requests, the requests not yet served are in consecutive
  slots, and the only busy worker serves the first of them;
* `inv_step`, `inv_run` — it holds in every run;
* `Inv.good` — what it says about the requests.
-/

set_option autoImplicit false

namespace OstepHw.Webserver

open Machine OstepHw.Count

variable {c : Config} {s s' : State}

/-! ## What a step can do -/

/-- A move of the master from one place to another, and the rest of the state after it. -/
inductive MasterMove (c : Config) (s : State) : Master → State → Master → Prop
  | waitEmpty (h : 0 < s.empty) : MasterMove c s .waitEmpty { s with empty := s.empty - 1 } .accept
  | refused : MasterMove c s .accept s .postEmpty
  | accepted (conn : Conn) : MasterMove c s .accept s (.waitMutex conn)
  | waitMutex (conn : Conn) (h : 0 < s.mutex) :
    MasterMove c s (.waitMutex conn) { s with mutex := s.mutex - 1 } (.preHandle conn)
  | rejected (conn : Conn) : MasterMove c s (.preHandle conn) s (.postMutex false)
  | stored (conn : Conn) (r : BufferT) (junk : Nat → BufferT) :
    MasterMove c s (.preHandle conn) (store c s r junk) (.postMutex true)
  | hung (conn : Conn) : MasterMove c s (.preHandle conn) s .stuck
  | postMutex (ok : Bool) :
    MasterMove c s (.postMutex ok) { s with mutex := s.mutex + 1 } (if ok then .postFull else .postEmpty)
  | postFull : MasterMove c s .postFull { s with full := s.full + 1 } .waitEmpty
  | postEmpty : MasterMove c s .postEmpty { s with empty := s.empty + 1 } .waitEmpty

/-- The same for a worker. -/
inductive WorkerMove (c : Config) (s : State) : Worker → State → Worker → Prop
  | waitFull (h : 0 < s.full) : WorkerMove c s .waitFull { s with full := s.full - 1 } .waitMutex
  | waitMutex (h : 0 < s.mutex) : WorkerMove c s .waitMutex { s with mutex := s.mutex - 1 } .pick
  | pick :
    WorkerMove c s .pick { s with use := (pick c s).use, slots := (pick c s).slots }
      (.postMutex ⟨(pick c s).useCopy, s.holds (pick c s).useCopy⟩)
  | postMutex (job : Job) :
    WorkerMove c s (.postMutex job) { s with mutex := s.mutex + 1 } (.readStatic job)
  | readStatic (job : Job) :
    WorkerMove c s (.readStatic job) s (.readArgs job (s.slots job.slot).isStatic)
  | readArgs (job : Job) (isStatic : Bool) :
    WorkerMove c s (.readArgs job isStatic) s
      (.readPath job isStatic (s.slots job.slot).fd (s.slots job.slot).size)
  | readPath (job : Job) (isStatic : Bool) (fd : Int) (size : Nat) :
    WorkerMove c s (.readPath job isStatic fd size) s (.close job
      (if isStatic then .requestServeStatic fd (s.slots job.slot).pathname (toInt size)
      else .requestServeDynamic fd (s.slots job.slot).pathname (s.slots job.slot).cgiargs))
  | close (job : Job) (call : Call) :
    WorkerMove c s (.close job call)
      { s with served := s.served ++ [⟨job.request, call, (s.slots job.slot).fd⟩] } .postEmpty
  | postEmpty : WorkerMove c s .postEmpty { s with empty := s.empty + 1 } .waitFull
  | hung (job : Job) (call : Call) : WorkerMove c s (.close job call) s .stuck

theorem masterStep_cases (h : masterStep s = some s') :
    ∃ m t m', s.master = m ∧ m ≠ .accept ∧ MasterMove c s m t m' ∧ s' = { t with master := m' } := by
  unfold masterStep at h
  cases hm : s.master <;> simp only [hm] at h
  case waitEmpty =>
    split at h <;> cases h
    rename_i hpos
    exact ⟨_, _, _, rfl, nofun, .waitEmpty hpos, rfl⟩
  case waitMutex conn =>
    split at h <;> cases h
    rename_i hpos
    exact ⟨_, _, _, rfl, nofun, .waitMutex conn hpos, rfl⟩
  case postMutex ok =>
    cases h
    exact ⟨_, _, _, rfl, nofun, .postMutex ok, rfl⟩
  case postFull =>
    cases h
    exact ⟨_, _, _, rfl, nofun, .postFull, rfl⟩
  case postEmpty =>
    cases h
    exact ⟨_, _, _, rfl, nofun, .postEmpty, rfl⟩
  all_goals cases h

theorem workerStep_cases {i : Nat} (h : workerStep c s i = some s') :
    ∃ w t w', s.workers i = w ∧ WorkerMove c s w t w' ∧
      s' = { t with workers := Function.update t.workers i w' } := by
  unfold workerStep at h
  cases hw : s.workers i <;> simp only [hw] at h
  case waitFull =>
    split at h <;> cases h
    rename_i hpos
    exact ⟨_, _, _, rfl, .waitFull hpos, rfl⟩
  case waitMutex =>
    split at h <;> cases h
    rename_i hpos
    exact ⟨_, _, _, rfl, .waitMutex hpos, rfl⟩
  case pick =>
    cases h
    exact ⟨_, _, _, rfl, .pick, rfl⟩
  case postMutex job =>
    cases h
    exact ⟨_, _, _, rfl, .postMutex job, rfl⟩
  case readStatic job =>
    cases h
    exact ⟨_, _, _, rfl, .readStatic job, rfl⟩
  case readArgs job isStatic =>
    cases h
    exact ⟨_, _, _, rfl, .readArgs job isStatic, rfl⟩
  case readPath job isStatic fd size =>
    cases h
    exact ⟨_, _, _, rfl, .readPath job isStatic fd size, rfl⟩
  case close job call =>
    cases h
    exact ⟨_, _, _, rfl, .close job call, rfl⟩
  case postEmpty =>
    cases h
    exact ⟨_, _, _, rfl, .postEmpty, rfl⟩
  case stuck => cases h

/-- **What a step can do.** -/
theorem step_cases {a : Action} (h : step c s a = some s') :
    (∃ m t m', s.master = m ∧ (a.internal → m ≠ .accept) ∧ MasterMove c s m t m' ∧
      s' = { t with master := m' }) ∨
    ∃ i < c.threads, ∃ w t w', s.workers i = w ∧ WorkerMove c s w t w' ∧
      s' = { t with workers := Function.update t.workers i w' } := by
  cases a with
  | master =>
    obtain ⟨m, t, m', hm, hne, hmove, rfl⟩ := @masterStep_cases c _ _ h
    exact .inl ⟨m, t, m', hm, fun _ => hne, hmove, rfl⟩
  | accept conn =>
    left
    unfold step at h
    cases hm : s.master <;> cases conn <;> simp only [hm] at h <;> cases h
    · exact ⟨_, _, _, rfl, nofun, .refused, rfl⟩
    · exact ⟨_, _, _, rfl, nofun, .accepted _, rfl⟩
  | preHandle stat junk =>
    left
    unfold step at h
    cases hm : s.master <;> simp only [hm] at h <;> try cases h
    split at h
    · cases h
      exact ⟨_, _, _, rfl, nofun, .stored _ _ junk, rfl⟩
    · cases h
      exact ⟨_, _, _, rfl, nofun, .rejected _, rfl⟩
  | masterHangs =>
    left
    unfold step at h
    cases hm : s.master <;> simp only [hm] at h <;> cases h
    exact ⟨_, _, _, rfl, nofun, .hung _, rfl⟩
  | worker i =>
    right
    unfold step at h
    simp only at h
    split at h
    · rename_i hi
      exact ⟨i, hi, workerStep_cases h⟩
    · cases h
  | workerHangs i =>
    right
    unfold step at h
    simp only at h
    split at h
    · rename_i hi
      cases hw : s.workers i <;> simp only [hw] at h <;> cases h
      exact ⟨i, hi, _, _, _, hw, .hung _ _, rfl⟩
    · cases h

/-! ## The system comes to rest -/

def Master.rank : Master → Nat
  | .waitEmpty => 1
  | .accept => 0
  | .waitMutex _ => 14
  | .preHandle _ => 13
  | .postMutex _ => 12
  | .postFull => 11
  | .postEmpty => 2
  | .stuck => 0

def Worker.rank : Worker → Nat
  | .waitFull => 0
  | .waitMutex => 8
  | .pick => 7
  | .postMutex _ => 6
  | .readStatic _ => 5
  | .readArgs _ _ => 4
  | .readPath _ _ _ _ => 3
  | .close _ _ => 2
  | .postEmpty => 1
  | .stuck => 0

/-- What is left to do without a new connection. -/
def measure (c : Config) (s : State) : Nat :=
  9 * s.full + total c.threads Worker.rank s.workers + s.master.rank

theorem step_measure {a : Action} (ha : a.internal) (h : step c s a = some s') :
    measure c s' < measure c s := by
  unfold measure
  rcases step_cases h with ⟨m, t, m', hm, hne, hmove, rfl⟩ | ⟨i, hi, w, t, w', hw, hmove, rfl⟩
  · rw [hm]
    cases hmove with
    | refused => exact absurd rfl (hne ha)
    | accepted conn => exact absurd rfl (hne ha)
    | stored conn r junk => simp [store, Master.rank]
    | postMutex ok => cases ok <;> simp [Master.rank]
    | _ => simp only [Master.rank]; omega
  · have hrank := total_update Worker.rank s.workers w' hi
    rw [hw] at hrank
    cases hmove <;> simp only [Worker.rank] at hrank ⊢ <;> omega

/-! ## The invariant -/

/-- Between `Zem_wait(&full)` and `Zem_post(&empty)`. -/
def Worker.token : Worker → Bool
  | .waitFull => false
  | _ => true

/-- Holding a request that was not served yet. -/
def Worker.unfinished : Worker → Bool
  | .waitFull | .postEmpty => false
  | _ => true

def Worker.locked : Worker → Bool
  | .pick | .postMutex _ => true
  | _ => false

/-- Between the choice of a slot and `close`. -/
def Worker.active : Worker → Bool
  | .waitFull | .waitMutex | .pick | .postEmpty => false
  | _ => true

def Master.token : Master → Nat
  | .waitEmpty => 0
  | _ => 1

/-- A request was stored and `full` not yet posted. -/
def Master.pending : Master → Nat
  | .postMutex true | .postFull => 1
  | _ => 0

def Master.locked : Master → Nat
  | .preHandle _ | .postMutex _ | .stuck => 1
  | _ => 0

/-- The fields that `pre_handle_request` fills in from the request. -/
def BufferT.data (r : BufferT) : BufferT := { r with handling := false }

/-- An active worker serves request `d` from its slot, and what it has read is the data of `d`. -/
def WorkerOk (b d : Nat) (stored : List BufferT) : Worker → Prop
  | .postMutex job | .readStatic job => job = ⟨d % b, some d⟩
  | .readArgs job isStatic => job = ⟨d % b, some d⟩ ∧ ∃ r, stored[d]? = some r ∧ isStatic = r.isStatic
  | .readPath job isStatic fd size =>
    job = ⟨d % b, some d⟩ ∧
      ∃ r, stored[d]? = some r ∧ isStatic = r.isStatic ∧ fd = r.fd ∧ size = r.size
  | .close job call => job = ⟨d % b, some d⟩ ∧ ∃ r, stored[d]? = some r ∧ call = r.call
  | _ => True

structure Inv (c : Config) (s : State) : Prop where
  tokens : s.empty + s.full + count c.threads Worker.token s.workers + s.master.token = c.buffers
  pending : s.served.length + s.full + count c.threads Worker.unfinished s.workers + s.master.pending =
    s.stored.length
  lock : s.mutex + count c.threads Worker.locked s.workers + s.master.locked = 1
  fill : s.fill = s.stored.length % c.buffers
  use : s.use = (s.served.length + count c.threads Worker.active s.workers) % c.buffers
  order : s.served.map Served.request = (List.range s.served.length).map some
  right : ∀ e ∈ s.served, ∃ k r, e.request = some k ∧ s.stored[k]? = some r ∧ e.call = r.call ∧
    e.closed = r.fd
  slots : ∀ k r, s.served.length ≤ k → s.stored[k]? = some r →
    s.holds (k % c.buffers) = some k ∧ (s.slots (k % c.buffers)).data = r.data
  workers : ∀ i < c.threads, WorkerOk c.buffers s.served.length s.stored (s.workers i)

/-- One slot, or one worker that takes the slots in order. -/
def InOrder (c : Config) : Prop := c.buffers = 1 ∨ c.schedalg = .FIFO ∧ c.threads = 1

theorem inv_init (slots : Nat → BufferT) : Inv c (init c slots) := by
  have hzero : ∀ p : Worker → Bool, p .waitFull = false →
      count c.threads p (fun _ => .waitFull) = 0 := by
    intro p hp
    rw [count_eq_zero]
    exact fun _ _ => hp
  refine ⟨?_, ?_, ?_, ?_, ?_, rfl, ?_, ?_, ?_⟩
  · simp [init, hzero Worker.token rfl, Master.token]
  · simp [init, hzero Worker.unfinished rfl, Master.pending]
  · simp [init, hzero Worker.locked rfl, Master.locked]
  · simp [init]
  · simp [init, hzero Worker.active rfl]
  · intro e he
    cases he
  · intro k r _ hr
    cases hr
  · intro i _
    trivial

/-! ## Steps of the master keep it -/

theorem WorkerOk.append {b d : Nat} {stored : List BufferT} {w : Worker} (h : WorkerOk b d stored w)
    (l : List BufferT) : WorkerOk b d (stored ++ l) w := by
  have hget : ∀ {r}, stored[d]? = some r → (stored ++ l)[d]? = some r := by
    intro r hr
    rw [List.getElem?_append_left (List.getElem?_eq_some_iff.mp hr).1, hr]
  cases w <;> simp only [WorkerOk] at h ⊢
  case postMutex => exact h
  case readStatic => exact h
  case readArgs => exact ⟨h.1, h.2.choose, hget h.2.choose_spec.1, h.2.choose_spec.2⟩
  case readPath => exact ⟨h.1, h.2.choose, hget h.2.choose_spec.1, h.2.choose_spec.2⟩
  case close => exact ⟨h.1, h.2.choose, hget h.2.choose_spec.1, h.2.choose_spec.2⟩

/-- The slot `fill` is free, because the request that is not served yet for the longest is less than
`buffers` behind. -/
theorem Inv.store (h : Inv c s) {conn : Conn} (hm : s.master = .preHandle conn) {r : BufferT}
    (hfit : r.StringsFit) (junk : Nat → BufferT) : Inv c (store c s r junk) := by
  have htokens := h.tokens
  have hpending := h.pending
  have hlock := h.lock
  have hmono : count c.threads Worker.unfinished s.workers ≤ count c.threads Worker.token s.workers := by
    apply count_mono
    intro w hw
    cases w <;> first | rfl | cases hw
  rw [hm] at htokens hpending hlock
  simp only [Master.token, Master.pending, Master.locked] at htokens hpending hlock
  refine ⟨?_, ?_, ?_, ?_, h.use, h.order, ?_, ?_, ?_⟩
  · simp only [Webserver.store, Master.token]
    omega
  · simp only [Webserver.store, Master.pending, List.length_append, List.length_singleton]
    omega
  · simp only [Webserver.store, Master.locked]
    omega
  · simp only [Webserver.store, h.fill, List.length_append, List.length_singleton, Nat.mod_add_mod]
  · intro e he
    obtain ⟨k, r', hk, hr', hrest⟩ := h.right e he
    refine ⟨k, r', hk, ?_, hrest⟩
    show (s.stored ++ [r])[k]? = some r'
    rw [List.getElem?_append_left (List.getElem?_eq_some_iff.mp hr').1, hr']
  · intro k r' hk hr'
    change s.served.length ≤ k at hk
    change (s.stored ++ [r])[k]? = some r' at hr'
    show Function.update s.holds s.fill (some s.stored.length) (k % c.buffers) = some k ∧
      ((if r.StringsFit then Function.update s.slots s.fill r else junk) (k % c.buffers)).data = r'.data
    rw [if_pos hfit, h.fill]
    by_cases hlast : k = s.stored.length
    · subst hlast
      rw [List.getElem?_concat_length] at hr'
      cases hr'
      simp only [Function.update_self, and_self]
    · have hlt := (List.getElem?_eq_some_iff.mp hr').1
      rw [List.length_append, List.length_singleton] at hlt
      have hne : k % c.buffers ≠ s.stored.length % c.buffers := by
        intro heq
        have hzero := Nat.sub_mod_eq_zero_of_mod_eq heq.symm
        rw [Nat.mod_eq_of_lt (by omega)] at hzero
        omega
      rw [Function.update_of_ne hne, Function.update_of_ne hne]
      rw [List.getElem?_append_left (by omega)] at hr'
      exact h.slots k r' hk hr'
  · intro i hi
    exact (h.workers i hi).append [r]

theorem inv_masterMove (h : Inv c s) {m m' : Master} {t : State} (hm : s.master = m)
    (hmove : MasterMove c s m t m') (hfits : ∀ r ∈ t.stored, r.StringsFit) :
    Inv c { t with master := m' } := by
  have htokens := h.tokens
  have hpending := h.pending
  have hlock := h.lock
  rw [hm] at htokens hpending hlock
  cases hmove with
  | stored conn r junk =>
    exact h.store hm (hfits r (List.mem_append_right _ (List.mem_singleton_self r))) junk
  | postMutex ok =>
    refine ⟨?_, ?_, ?_, h.fill, h.use, h.order, h.right, h.slots, h.workers⟩ <;>
      cases ok <;> simp only [Master.token, Master.pending, Master.locked, if_true, if_false,
        Bool.false_eq_true] at * <;> omega
  | _ =>
    refine ⟨?_, ?_, ?_, h.fill, h.use, h.order, h.right, h.slots, h.workers⟩ <;>
      simp only [Master.token, Master.pending, Master.locked] at * <;> omega

/-! ## Steps of a worker keep it -/

/-- At most one worker holds a request. -/
theorem Inv.unfinished_le (h : Inv c s) (hc : InOrder c) :
    count c.threads Worker.unfinished s.workers ≤ 1 := by
  rcases hc with hb | ⟨-, ht⟩
  · have htokens := h.tokens
    have hmono : count c.threads Worker.unfinished s.workers ≤ count c.threads Worker.token s.workers := by
      apply count_mono
      intro w hw
      cases w <;> first | rfl | cases hw
    omega
  · rw [ht]
    exact count_le _ _ _

theorem Inv.others_not_active (h : Inv c s) (hc : InOrder c) {i j : Nat} (hi : i < c.threads)
    (hj : j < c.threads) (hij : j ≠ i) (hw : (s.workers i).unfinished = true) :
    (s.workers j).active = false := by
  have hle := h.unfinished_le hc
  by_contra hact
  have hun : (s.workers j).unfinished = true := by
    cases hwj : s.workers j <;> rw [hwj] at hact <;> first | rfl | exact absurd rfl hact
  have hpair := count_pair hj hi hij hun hw
  omega

theorem workerOk_of_not_active {b d : Nat} {stored : List BufferT} {w : Worker}
    (h : w.active = false) : WorkerOk b d stored w := by
  cases w <;> trivial

theorem pickSFF_lt {slots : Nat → BufferT} {use b : Nat} (h : use < b) : (pickSFF slots use b).2 < b := by
  have hfold : ∀ (l : List Nat) (p : Nat × Nat), (∀ i ∈ l, i < b) → p.2 < b →
      (l.foldl (fun p i => if (slots i).waiting ∧ (slots i).size < p.1 then ((slots i).size, i) else p)
        p).2 < b := by
    intro l
    induction l with
    | nil => exact fun p _ hp => hp
    | cons i l ih =>
      intro p hl hp
      rw [List.forall_mem_cons] at hl
      rw [List.foldl_cons]
      apply ih _ hl.2
      split
      · exact hl.1
      · exact hp
  exact hfold _ _ (fun i hi => List.mem_range.mp hi) h

/-- The first request that is not served yet. -/
theorem Inv.first (h : Inv c s) (hlt : s.served.length < s.stored.length) :
    ∃ r, s.stored[s.served.length]? = some r ∧
      s.holds (s.served.length % c.buffers) = some s.served.length ∧
      (s.slots (s.served.length % c.buffers)).data = r.data := by
  have hget := List.getElem?_eq_getElem hlt
  exact ⟨_, hget, h.slots _ _ (Nat.le_refl _) hget⟩

/-- **The worker picks the first request that is not served yet.** -/
theorem Inv.pick (h : Inv c s) (hc : InOrder c) {i : Nat} (hi : i < c.threads)
    (hw : s.workers i = .pick) :
    (pick c s).useCopy = s.served.length % c.buffers ∧ (pick c s).use = (s.use + 1) % c.buffers ∧
      ∀ k, ((pick c s).slots k).data = (s.slots k).data := by
  have hactive : count c.threads Worker.active s.workers = 0 := by
    rw [count_eq_zero]
    intro j hj
    by_cases hij : j = i
    · rw [hij, hw]
      rfl
    · exact h.others_not_active hc hi hj hij (by rw [hw]; rfl)
  have huse := h.use
  rw [hactive, Nat.add_zero] at huse
  unfold Webserver.pick
  cases hs : c.schedalg with
  | FIFO => exact ⟨huse, rfl, fun _ => rfl⟩
  | SFF =>
    have hb : c.buffers = 1 := hc.resolve_right (by rw [hs]; exact fun hcon => nomatch hcon.1)
    have hslot := @pickSFF_lt s.slots s.use c.buffers (by rw [huse]; exact Nat.mod_lt _ (by omega))
    refine ⟨?_, ?_, ?_⟩
    · simp only
      rw [hb] at hslot ⊢
      omega
    · simp only
      rw [huse, hb]
      omega
    · intro k
      simp only
      by_cases hk : k = (pickSFF s.slots s.use c.buffers).2
      · rw [hk, Function.update_self]
        rfl
      · rw [Function.update_of_ne hk]

theorem toInt_of_lt {size : Nat} (h : size < 2 ^ 31) : toInt size = size :=
  CInt.toInt_of_lt (Int.natCast_nonneg size) (by exact_mod_cast h)

theorem fields_of_data {x r : BufferT} (h : x.data = r.data) : x.fd = r.fd ∧
    x.isStatic = r.isStatic ∧ x.size = r.size ∧ x.pathname = r.pathname ∧ x.cgiargs = r.cgiargs := by
  simpa [BufferT.data] using h

/-- One worker moves, and its new place is right. -/
theorem workersOk_update {b d n i : Nat} {stored : List BufferT} {f : Nat → Worker} {w : Worker}
    (h : ∀ j < n, j ≠ i → WorkerOk b d stored (f j)) (hw : WorkerOk b d stored w) :
    ∀ j < n, WorkerOk b d stored (Function.update f i w j) := by
  intro j hj
  by_cases hij : j = i
  · rw [hij, Function.update_self]
    exact hw
  · rw [Function.update_of_ne hij]
    exact h j hj hij

/-- The served request is the next one. -/
theorem Inv.close (h : Inv c s) (hc : InOrder c) {i : Nat} (hi : i < c.threads) {job : Job} {call : Call}
    (hw : s.workers i = .close job call) :
    Inv c { s with
      served := s.served ++ [⟨job.request, call, (s.slots job.slot).fd⟩]
      workers := Function.update s.workers i .postEmpty } := by
  have htokens := count_update Worker.token s.workers .postEmpty hi
  have hunfinished := count_update Worker.unfinished s.workers .postEmpty hi
  have hlocked := count_update Worker.locked s.workers .postEmpty hi
  have hactive := count_update Worker.active s.workers .postEmpty hi
  have hok := h.workers i hi
  have h₁ := h.tokens
  have h₂ := h.pending
  have h₃ := h.lock
  rw [hw] at htokens hunfinished hlocked hactive hok
  simp only [Worker.token, Worker.unfinished, Worker.locked, Worker.active, if_true,
    Bool.false_eq_true, if_false] at htokens hunfinished hlocked hactive
  obtain ⟨rfl, r, hr, rfl⟩ := hok
  have hslot := h.slots _ r (Nat.le_refl _) hr
  refine ⟨by simp only; omega, ?_, by simp only; omega, h.fill, ?_, ?_, ?_, ?_, ?_⟩
  · simp only [List.length_append, List.length_singleton]
    omega
  · simp only [List.length_append, List.length_singleton]
    rw [h.use]
    congr 1
    omega
  · simp only [List.map_append, List.map_singleton, List.length_append, List.length_singleton,
      List.range_succ, h.order]
  · intro e he
    rcases List.mem_append.mp he with he | he
    · exact h.right e he
    · rw [List.mem_singleton.mp he]
      exact ⟨_, r, rfl, hr, rfl, (fields_of_data hslot.2).1⟩
  · intro k r' hk hr'
    simp only [List.length_append, List.length_singleton] at hk
    exact h.slots k r' (by omega) hr'
  · refine workersOk_update ?_ (workerOk_of_not_active rfl)
    intro j hj hij
    exact workerOk_of_not_active (h.others_not_active hc hi hj hij (by rw [hw]; rfl))

/-- A worker picks a slot. -/
theorem Inv.picked (h : Inv c s) (hc : InOrder c) {i : Nat} (hi : i < c.threads)
    (hw : s.workers i = .pick) :
    Inv c { s with
      use := (Webserver.pick c s).use
      slots := (Webserver.pick c s).slots
      workers := Function.update s.workers i
        (.postMutex ⟨(Webserver.pick c s).useCopy, s.holds (Webserver.pick c s).useCopy⟩) } := by
  obtain ⟨hslot, huse, hdata⟩ := h.pick hc hi hw
  rw [hslot]
  generalize hw' : Worker.postMutex ⟨_, _⟩ = w'
  have htokens := count_update Worker.token s.workers w' hi
  have hunfinished := count_update Worker.unfinished s.workers w' hi
  have hlocked := count_update Worker.locked s.workers w' hi
  have hactive := count_update Worker.active s.workers w' hi
  have h₁ := h.tokens
  have h₂ := h.pending
  have h₃ := h.lock
  subst hw'
  rw [hw] at htokens hunfinished hlocked hactive
  simp only [Worker.token, Worker.unfinished, Worker.locked, Worker.active, if_true,
    Bool.false_eq_true, if_false] at htokens hunfinished hlocked hactive
  have hpos := count_pos.2 ⟨i, hi, show (s.workers i).unfinished = true by rw [hw]; rfl⟩
  obtain ⟨r, hr, hholds, -⟩ := h.first (by omega)
  refine ⟨by simp only; omega, by simp only; omega, by simp only; omega, h.fill, ?_, h.order, h.right,
    ?_, ?_⟩
  · simp only
    rw [huse, h.use, Nat.mod_add_mod]
    congr 1
    omega
  · intro k r' hk hr'
    simp only
    rw [hdata]
    exact h.slots k r' hk hr'
  · refine workersOk_update (fun j hj _ => h.workers j hj) ?_
    rw [hholds]
    rfl

/-- A worker moves on, and perhaps takes or posts a semaphore. -/
theorem Inv.moved (h : Inv c s) {i : Nat} (hi : i < c.threads) {w w' : Worker} (hw : s.workers i = w)
    {full empty mutex : Nat}
    (htokens : empty + full + (if w'.token then 1 else 0) = s.empty + s.full + if w.token then 1 else 0)
    (hpending : full + (if w'.unfinished then 1 else 0) = s.full + if w.unfinished then 1 else 0)
    (hlock : mutex + (if w'.locked then 1 else 0) = s.mutex + if w.locked then 1 else 0)
    (hactive : w'.active = w.active) (hok : WorkerOk c.buffers s.served.length s.stored w') :
    Inv c { s with
      full := full
      empty := empty
      mutex := mutex
      workers := Function.update s.workers i w' } := by
  have g₁ := count_update Worker.token s.workers w' hi
  have g₂ := count_update Worker.unfinished s.workers w' hi
  have g₃ := count_update Worker.locked s.workers w' hi
  have g₄ := count_update Worker.active s.workers w' hi
  have h₁ := h.tokens
  have h₂ := h.pending
  have h₃ := h.lock
  rw [hw] at g₁ g₂ g₃ g₄
  rw [hactive, Nat.add_right_cancel_iff] at g₄
  refine ⟨by simp only; omega, by simp only; omega, by simp only; omega, h.fill, ?_, h.order, h.right,
    h.slots, workersOk_update (fun j hj _ => h.workers j hj) hok⟩
  simp only
  rw [g₄, h.use]

theorem inv_workerMove (h : Inv c s) (hc : InOrder c) (hfits : ∀ r ∈ s.stored, r.Fits) {i : Nat}
    (hi : i < c.threads) {w w' : Worker} {t : State} (hw : s.workers i = w)
    (hmove : WorkerMove c s w t w') : Inv c { t with workers := Function.update t.workers i w' } := by
  have hok := h.workers i hi
  rw [hw] at hok
  -- what an active worker reads from its slot
  have hread : ∀ r, s.stored[s.served.length]? = some r →
      (s.slots (s.served.length % c.buffers)).data = r.data :=
    fun r hr => (h.slots _ r (Nat.le_refl _) hr).2
  have hfirst : w.unfinished = true → ∃ r, s.stored[s.served.length]? = some r := by
    intro hun
    have hpos := count_pos.2 ⟨i, hi, hw ▸ hun⟩
    have hpending := h.pending
    exact ⟨_, List.getElem?_eq_getElem (by omega)⟩
  cases hmove with
  | waitFull hpos =>
    refine h.moved hi hw ?_ ?_ rfl rfl (workerOk_of_not_active rfl)
    · simp [Worker.token]
      omega
    · simp [Worker.unfinished]
      omega
  | waitMutex hpos =>
    refine h.moved hi hw rfl rfl ?_ rfl (workerOk_of_not_active rfl)
    simp [Worker.locked]
    omega
  | pick => exact h.picked hc hi hw
  | postMutex job => exact h.moved hi hw rfl rfl rfl rfl hok
  | readStatic job =>
    obtain ⟨r, hr⟩ := hfirst rfl
    have hjob : job = _ := hok
    refine h.moved hi hw rfl rfl rfl rfl ⟨hjob, r, hr, ?_⟩
    rw [hjob]
    exact (fields_of_data (hread r hr)).2.1
  | readArgs job isStatic =>
    obtain ⟨hjob, r, hr, hstatic⟩ := hok
    have hfields := fields_of_data (hread r hr)
    refine h.moved hi hw rfl rfl rfl rfl ⟨hjob, r, hr, hstatic, ?_, ?_⟩
    · rw [hjob]
      exact hfields.1
    · rw [hjob]
      exact hfields.2.2.1
  | readPath job isStatic fd size =>
    obtain ⟨hjob, r, hr, rfl, rfl, rfl⟩ := hok
    have hfields := fields_of_data (hread r hr)
    have hsize := (hfits r (List.mem_of_getElem? hr)).2
    refine h.moved hi hw rfl rfl rfl rfl ⟨hjob, r, hr, ?_⟩
    rw [hjob, BufferT.call, hfields.2.2.2.1, hfields.2.2.2.2, toInt_of_lt hsize]
  | close job call => exact h.close hc hi hw
  | postEmpty =>
    refine h.moved hi hw ?_ rfl rfl rfl (workerOk_of_not_active rfl)
    simp [Worker.token]
    omega
  | hung job call => exact h.moved hi hw rfl rfl rfl rfl trivial

/-! ## Runs -/

theorem stored_subset {a : Action} (h : step c s a = some s') : s.stored ⊆ s'.stored := by
  rcases step_cases h with ⟨m, t, m', -, -, hmove, rfl⟩ | ⟨i, -, w, t, w', -, hmove, rfl⟩
  · cases hmove with
    | stored conn r junk => exact List.subset_append_left _ _
    | _ => exact fun _ hr => hr
  · cases hmove <;> exact fun _ hr => hr

/-- **Every step keeps the invariant**, as long as the requests fit. -/
theorem inv_step (hc : InOrder c) (h : Inv c s) {a : Action} (ha : step c s a = some s')
    (hfits : ∀ r ∈ s'.stored, r.Fits) : Inv c s' := by
  have hsub := stored_subset ha
  rcases step_cases ha with ⟨m, t, m', hm, -, hmove, rfl⟩ | ⟨i, hi, w, t, w', hw, hmove, rfl⟩
  · exact inv_masterMove h hm hmove fun r hr => (hfits r hr).1
  · exact inv_workerMove h hc (fun r hr => hfits r (hsub hr)) hi hw hmove

theorem inv_run (hc : InOrder c) {slots : Nat → BufferT} {l : List Action}
    (hrun : run (step c) (init c slots) l = some s) (hfits : ∀ r ∈ s.stored, r.Fits) : Inv c s := by
  have hind := @run_induction _ _ (step c) (fun _ s => (∀ r ∈ s.stored, r.Fits) → Inv c s) _
    (fun _ => inv_init slots)
    (fun _ m a m' _ ih ha hm' => inv_step hc (ih fun r hr => hm' r (stored_subset ha hr)) ha hm') _ _ hrun
  exact hind hfits

/-! ## What it says about the requests -/

theorem worker_of_quiet (hret : s.Returned c) (hq : Quiet c s) {i : Nat} (hi : i < c.threads) :
    s.workers i = .waitFull ∧ s.full = 0 ∨ s.workers i = .waitMutex ∧ s.mutex = 0 := by
  have hnone := hq (.worker i) rfl
  rw [step, if_pos hi, workerStep] at hnone
  cases hw : s.workers i <;> simp only [hw] at hnone
  case waitFull =>
    split at hnone
    · cases hnone
    · exact .inl ⟨rfl, by omega⟩
  case waitMutex =>
    split at hnone
    · cases hnone
    · exact .inr ⟨rfl, by omega⟩
  case stuck => exact absurd hw (hret.workers i hi)
  all_goals cases hnone

theorem master_of_quiet (hret : s.Returned c) (hq : Quiet c s) :
    s.master = .waitEmpty ∨ s.master = .accept ∨ ∃ conn, s.master = .waitMutex conn ∧ s.mutex = 0 := by
  have hnone := hq .master rfl
  have hpre := hq (.preHandle (fun _ => none) s.slots) rfl
  rw [step, masterStep] at hnone
  rw [step] at hpre
  cases hm : s.master <;> simp only [hm] at hnone hpre
  case waitEmpty => exact .inl rfl
  case accept => exact .inr (.inl rfl)
  case waitMutex conn =>
    split at hnone
    · cases hnone
    · exact .inr (.inr ⟨conn, rfl, by omega⟩)
  case preHandle conn => split at hpre <;> cases hpre
  case stuck => exact absurd hm hret.master
  all_goals cases hnone

/-- At rest the mutex is free: who holds it can move. -/
theorem Inv.mutex_of_quiet (h : Inv c s) (hret : s.Returned c) (hq : Quiet c s) : 0 < s.mutex := by
  have hworkers : count c.threads Worker.locked s.workers = 0 := by
    rw [count_eq_zero]
    intro i hi
    rcases worker_of_quiet hret hq hi with ⟨hw, -⟩ | ⟨hw, -⟩ <;> rw [hw] <;> rfl
  have hmaster : s.master.locked = 0 := by
    rcases master_of_quiet hret hq with hm | hm | ⟨conn, hm, -⟩ <;> rw [hm] <;> rfl
  have hlock := h.lock
  omega

/-- **At rest everything was served.** -/
theorem Inv.all_of_quiet (h : Inv c s) (ht : 0 < c.threads) (hret : s.Returned c) (hq : Quiet c s) :
    s.served.length = s.stored.length := by
  have hmutex := h.mutex_of_quiet hret hq
  have hworkers : ∀ i < c.threads, s.workers i = .waitFull ∧ s.full = 0 := fun i hi =>
    (worker_of_quiet hret hq hi).resolve_right fun hcon => by omega
  have hmaster : s.master.pending = 0 := by
    rcases master_of_quiet hret hq with hm | hm | ⟨conn, hm, -⟩ <;> rw [hm] <;> rfl
  have hunfinished : count c.threads Worker.unfinished s.workers = 0 := by
    rw [count_eq_zero]
    intro i hi
    rw [(hworkers i hi).1]
    rfl
  have hfull := (hworkers 0 ht).2
  have hpending := h.pending
  omega

/-- **Requests that are served in order** are served as they should be. -/
theorem Inv.good (h : Inv c s) (hb : 0 < c.buffers) (ht : 0 < c.threads) (hret : s.Returned c) : Good c s := by
  have hmem : ∀ k, some k ∈ s.served.map Served.request ↔ k < s.served.length := by
    intro k
    rw [h.order]
    simp
  refine ⟨h.right, ?_, ?_, ?_, ?_⟩
  · rw [h.order]
    exact List.Nodup.map (Option.some_injective Nat) List.nodup_range
  · intro k hk hnot
    rw [hmem] at hnot
    have hslot := h.slots k _ (by omega) (List.getElem?_eq_getElem hk)
    exact ⟨k % c.buffers, Nat.mod_lt _ hb, hslot.1⟩
  · refine ⟨measure c s, ?_⟩
    intro l s' hl hrun
    have hle := length_le_measure (measure c) (fun _ _ _ => step_measure) hl hrun
    omega
  · intro hq k hk
    have hall := h.all_of_quiet ht hret hq
    rw [hmem]
    omega

end OstepHw.Webserver
