import OstepHw.Lib.Program

/-!
# Queues of entries with a semaphore of their own

A thread that wants to be served makes an entry with a semaphore, inserts it in a queue and waits for the
semaphore.  A server takes the first entry and posts to its semaphore.  An entry is named after the thread
that has made it.

* `Roles` — what the place of a thread says about the queue;
* `Line` — an entry that waits is in the queue, in the hands of a server, or posted to;
* `Given` — the threads that a server has posted to, until they give back what they were given.

For each operation on the queue there is one lemma about `Line` and one about `Given`; `Effect` and
`Kept.step` put them together.
-/

set_option autoImplicit false

namespace OstepHw.Handover

open OstepHw.Count

variable {τ : Type*}

structure Roles (τ : Type*) where
  /-- The entry is inserted, and the wait for its semaphore is not over. -/
  waiting : τ → Bool
  /-- The semaphore is initialised and not destroyed. -/
  hasSem : τ → Bool
  /-- The wait is over, and what was given is not given back. -/
  served : τ → Bool
  /-- A server has taken the entry of thread `c` and not posted to it. -/
  holds : Nat → τ → Bool

/-- The values of the semaphores are `sem`. -/
structure Line (r : Roles τ) (n : Nat) (queue : List Nat) (sem : Nat → Option Nat) (place : Nat → τ) : Prop where
  waiting : ∀ c, queue.count c + count n (r.holds c) place + (sem c).getD 0 =
    if r.waiting (place c) then 1 else 0
  hasSem : ∀ c, (sem c).isSome = r.hasSem (place c)

structure Given (r : Roles τ) (given : List Nat) (sem : Nat → Option Nat) (place : Nat → τ) : Prop where
  count : ∀ c, given.count c = (sem c).getD 0 + if r.served (place c) then 1 else 0

variable {r : Roles τ} {n i : Nat} {queue given : List Nat} {sem : Nat → Option Nat} {place : Nat → τ} {x : τ}

/-! ## What the equations say -/

theorem Line.sem_eq_none (h : Line r n queue sem place) {c : Nat} (hc : r.hasSem (place c) = false) :
    sem c = none := by
  have := h.hasSem c
  rwa [hc, Option.isSome_eq_false_iff, Option.isNone_iff_eq_none] at this

theorem Line.waiting_of_mem (h : Line r n queue sem place) {c : Nat} (hc : c ∈ queue) :
    r.waiting (place c) = true := by
  have := h.waiting c
  have := List.count_pos_iff.mpr hc
  by_contra hw
  rw [if_neg hw] at *
  omega

/-- The thread whose entry a server holds waits. -/
theorem Line.waiting_of_holds (h : Line r n queue sem place) (hi : i < n) {c : Nat}
    (hc : r.holds c (place i) = true) : r.waiting (place c) = true := by
  have := h.waiting c
  have := count_pos.2 ⟨i, hi, hc⟩
  by_contra hw
  rw [if_neg hw] at *
  omega

theorem Line.sem_eq_zero (h : Line r n queue sem place) {c : Nat} (hc : r.waiting (place c) = false) :
    (sem c).getD 0 = 0 := by
  have := h.waiting c
  rw [hc, if_neg Bool.false_ne_true] at this
  omega

theorem Given.mem (h : Given r given sem place) {c : Nat} (hc : r.served (place c) = true) : c ∈ given := by
  have := h.count c
  rw [if_pos hc] at this
  exact List.count_pos_iff.mp (by omega)

/-! ## Operations -/

theorem Line.same (h : Line r n queue sem place) (hi : i < n) (hw : r.waiting x = r.waiting (place i))
    (hs : r.hasSem x = r.hasSem (place i)) (hh : ∀ c, r.holds c x = r.holds c (place i)) :
    Line r n queue sem (Function.update place i x) where
  waiting c := by rw [update_apply_of_eq hw, count_update_of_eq hi (hh c), h.waiting]
  hasSem c := by rw [update_apply_of_eq hs, h.hasSem]

theorem Given.same (h : Given r given sem place) (hv : r.served x = r.served (place i)) :
    Given r given sem (Function.update place i x) where
  count c := by rw [update_apply_of_eq hv, h.count]

/-- `sem_init` -/
theorem Line.init (h : Line r n queue sem place) (hi : i < n) (hw : r.waiting x = r.waiting (place i))
    (hs : r.hasSem (place i) = false) (hs' : r.hasSem x = true) (hh : ∀ c, r.holds c x = r.holds c (place i)) :
    Line r n queue (Function.update sem i (some 0)) (Function.update place i x) where
  waiting c := by
    have hwaiting := h.waiting c
    rw [update_apply_of_eq hw, count_update_of_eq hi (hh c)]
    rcases eq_or_ne c i with rfl | hc
    · rw [h.sem_eq_none hs] at hwaiting
      rwa [Function.update_self]
    · rwa [Function.update_of_ne hc]
  hasSem c := by
    rcases eq_or_ne c i with rfl | hc
    · rw [Function.update_self, Function.update_self, hs']
      rfl
    · rw [Function.update_of_ne hc, Function.update_of_ne hc, h.hasSem]

theorem Given.init (h : Given r given sem place) (hs : sem i = none) (hv : r.served x = r.served (place i)) :
    Given r given (Function.update sem i (some 0)) (Function.update place i x) where
  count c := by
    have hcount := h.count c
    rw [update_apply_of_eq hv]
    rcases eq_or_ne c i with rfl | hc
    · rw [hs] at hcount
      rwa [Function.update_self]
    · rwa [Function.update_of_ne hc]

theorem Line.insert (h : Line r n queue sem place) (hi : i < n) (hw : r.waiting (place i) = false)
    (hw' : r.waiting x = true) (hs : r.hasSem x = r.hasSem (place i))
    (hh : ∀ c, r.holds c x = r.holds c (place i)) :
    Line r n (queue ++ [i]) sem (Function.update place i x) where
  waiting c := by
    have hwaiting := h.waiting c
    rw [count_update_of_eq hi (hh c), List.count_append, List.count_singleton]
    rcases eq_or_ne c i with rfl | hc
    · rw [hw, if_neg Bool.false_ne_true] at hwaiting
      rw [Function.update_self, hw', beq_self_eq_true, if_pos rfl]
      omega
    · rw [Function.update_of_ne hc, ← hwaiting, if_neg (by simpa using Ne.symm hc), Nat.add_zero]
  hasSem c := by rw [update_apply_of_eq hs, h.hasSem]

/-- A server takes the first entry. -/
theorem Line.take {e : Nat} (h : Line r n (e :: queue) sem place) (hi : i < n)
    (hw : r.waiting x = r.waiting (place i)) (hs : r.hasSem x = r.hasSem (place i))
    (hh : ∀ c, r.holds c (place i) = false) (hh' : ∀ c, r.holds c x = decide (e = c)) :
    Line r n queue sem (Function.update place i x) where
  waiting c := by
    have hwaiting := h.waiting c
    have hcount := count_update (r.holds c) place x hi
    rw [hh, hh', if_neg Bool.false_ne_true, Nat.add_zero] at hcount
    rw [List.count_cons] at hwaiting
    rw [update_apply_of_eq hw, ← hwaiting, hcount]
    simp only [beq_iff_eq, decide_eq_true_eq]
    omega
  hasSem c := by rw [update_apply_of_eq hs, h.hasSem]

/-- A server posts to the entry that it has taken. -/
theorem Line.post {e v : Nat} (h : Line r n queue sem place) (hi : i < n)
    (hw : r.waiting x = r.waiting (place i)) (hs : r.hasSem x = r.hasSem (place i))
    (hh : ∀ c, r.holds c (place i) = decide (e = c)) (hh' : ∀ c, r.holds c x = false)
    (hsem : sem e = some v) :
    Line r n queue (Function.update sem e (some (v + 1))) (Function.update place i x) where
  waiting c := by
    have hwaiting := h.waiting c
    have hcount := count_update (r.holds c) place x hi
    rw [hh, hh', if_neg Bool.false_ne_true, Nat.add_zero] at hcount
    rw [update_apply_of_eq hw, ← hwaiting, ← hcount]
    rcases eq_or_ne c e with rfl | hc
    · rw [Function.update_self, hsem, Option.getD_some, Option.getD_some, if_pos (by simp)]
      omega
    · rw [Function.update_of_ne hc, if_neg (by simpa using Ne.symm hc), Nat.add_zero]
  hasSem c := by
    rw [update_apply_of_eq hs, ← h.hasSem]
    rcases eq_or_ne c e with rfl | hc
    · rw [Function.update_self, hsem]
      rfl
    · rw [Function.update_of_ne hc]

theorem Given.post {e v : Nat} (h : Given r given sem place) (hv : r.served x = r.served (place i))
    (hsem : sem e = some v) :
    Given r (given ++ [e]) (Function.update sem e (some (v + 1))) (Function.update place i x) where
  count c := by
    have hcount := h.count c
    rw [update_apply_of_eq hv, List.count_append, List.count_singleton, hcount]
    rcases eq_or_ne c e with rfl | hc
    · rw [Function.update_self, hsem, Option.getD_some, Option.getD_some, beq_self_eq_true, if_pos rfl]
      omega
    · have hne : (e == c) = false := by simpa using Ne.symm hc
      rw [Function.update_of_ne hc, hne, if_neg Bool.false_ne_true, Nat.add_zero]

/-- The wait for the semaphore returns. -/
theorem Line.wake {v : Nat} (h : Line r n queue sem place) (hi : i < n) (hw : r.waiting (place i) = true)
    (hw' : r.waiting x = false) (hs : r.hasSem x = r.hasSem (place i))
    (hh : ∀ c, r.holds c x = r.holds c (place i)) (hsem : sem i = some (v + 1)) :
    Line r n queue (Function.update sem i (some v)) (Function.update place i x) where
  waiting c := by
    have hwaiting := h.waiting c
    rw [count_update_of_eq hi (hh c)]
    rcases eq_or_ne c i with rfl | hc
    · rw [hsem, hw, Option.getD_some, if_pos rfl] at hwaiting
      rw [Function.update_self, Function.update_self, hw', Option.getD_some, if_neg Bool.false_ne_true]
      omega
    · rwa [Function.update_of_ne hc, Function.update_of_ne hc]
  hasSem c := by
    rw [update_apply_of_eq hs, ← h.hasSem]
    rcases eq_or_ne c i with rfl | hc
    · rw [Function.update_self, hsem]
      rfl
    · rw [Function.update_of_ne hc]

theorem Given.wake {v : Nat} (h : Given r given sem place) (hv : r.served (place i) = false)
    (hv' : r.served x = true) (hsem : sem i = some (v + 1)) :
    Given r given (Function.update sem i (some v)) (Function.update place i x) where
  count c := by
    have hcount := h.count c
    rcases eq_or_ne c i with rfl | hc
    · rw [hsem, hv, Option.getD_some, if_neg Bool.false_ne_true] at hcount
      rw [Function.update_self, Function.update_self, hv', Option.getD_some, if_pos rfl]
      omega
    · rwa [Function.update_of_ne hc, Function.update_of_ne hc]

/-- `sem_destroy` -/
theorem Line.free (h : Line r n queue sem place) (hi : i < n) (hw : r.waiting (place i) = false)
    (hw' : r.waiting x = false) (hs : r.hasSem x = false) (hh : ∀ c, r.holds c x = r.holds c (place i)) :
    Line r n queue (Function.update sem i none) (Function.update place i x) where
  waiting c := by
    have hwaiting := h.waiting c
    rw [update_apply_of_eq (hw'.trans hw.symm), count_update_of_eq hi (hh c), ← hwaiting]
    rcases eq_or_ne c i with rfl | hc
    · rw [Function.update_self, h.sem_eq_zero hw, Option.getD_none]
    · rw [Function.update_of_ne hc]
  hasSem c := by
    rcases eq_or_ne c i with rfl | hc
    · rw [Function.update_self, Function.update_self, hs]
      rfl
    · rw [Function.update_of_ne hc, Function.update_of_ne hc, h.hasSem]

theorem Given.free (h : Given r given sem place) (hsem : (sem i).getD 0 = 0)
    (hv : r.served x = r.served (place i)) :
    Given r given (Function.update sem i none) (Function.update place i x) where
  count c := by
    have hcount := h.count c
    rw [update_apply_of_eq hv]
    rcases eq_or_ne c i with rfl | hc
    · rw [hsem] at hcount
      rwa [Function.update_self]
    · rwa [Function.update_of_ne hc]

/-- What was given is given back. -/
theorem Given.leave (h : Given r given sem place) (hv : r.served (place i) = true)
    (hv' : r.served x = false) : Given r (given.erase i) sem (Function.update place i x) where
  count c := by
    have hcount := h.count c
    rcases eq_or_ne c i with rfl | hc
    · rw [hv, if_pos rfl] at hcount
      rw [Function.update_self, hv', if_neg Bool.false_ne_true, List.count_erase_self]
      omega
    · rw [Function.update_of_ne hc, List.count_erase_of_ne hc, hcount]

/-! ## All operations together -/

structure Desk where
  queue : List Nat
  sem : Nat → Option Nat
  given : List Nat

/-- What a step of thread `i` from `p` to `p'` does to a queue. -/
inductive Effect (r : Roles τ) (i : Nat) (d : Desk) (p p' : τ) : Desk → Prop
  | same (hw : r.waiting p' = r.waiting p) (hs : r.hasSem p' = r.hasSem p) (hv : r.served p' = r.served p)
      (hh : ∀ c, r.holds c p' = r.holds c p) : Effect r i d p p' d
  | init (hw : r.waiting p' = r.waiting p) (hs : r.hasSem p = false) (hs' : r.hasSem p' = true)
      (hv : r.served p' = r.served p) (hh : ∀ c, r.holds c p' = r.holds c p) :
      Effect r i d p p' { d with sem := Function.update d.sem i (some 0) }
  | insert (hw : r.waiting p = false) (hw' : r.waiting p' = true) (hs : r.hasSem p' = r.hasSem p)
      (hv : r.served p' = r.served p) (hh : ∀ c, r.holds c p' = r.holds c p) :
      Effect r i d p p' { d with queue := d.queue ++ [i] }
  | take {e : Nat} {rest : List Nat} (hq : d.queue = e :: rest) (hw : r.waiting p' = r.waiting p)
      (hs : r.hasSem p' = r.hasSem p) (hv : r.served p' = r.served p) (hh : ∀ c, r.holds c p = false)
      (hh' : ∀ c, r.holds c p' = decide (e = c)) : Effect r i d p p' { d with queue := rest }
  | post {e v : Nat} (hsem : d.sem e = some v) (hw : r.waiting p' = r.waiting p)
      (hs : r.hasSem p' = r.hasSem p) (hv : r.served p' = r.served p)
      (hh : ∀ c, r.holds c p = decide (e = c)) (hh' : ∀ c, r.holds c p' = false) :
      Effect r i d p p'
        { d with sem := Function.update d.sem e (some (v + 1)), given := d.given ++ [e] }
  | wake {v : Nat} (hsem : d.sem i = some (v + 1)) (hw : r.waiting p = true) (hw' : r.waiting p' = false)
      (hs : r.hasSem p' = r.hasSem p) (hv : r.served p = false) (hv' : r.served p' = true)
      (hh : ∀ c, r.holds c p' = r.holds c p) :
      Effect r i d p p' { d with sem := Function.update d.sem i (some v) }
  | free (hw : r.waiting p = false) (hw' : r.waiting p' = false) (hs' : r.hasSem p' = false)
      (hv : r.served p' = r.served p) (hh : ∀ c, r.holds c p' = r.holds c p) :
      Effect r i d p p' { d with sem := Function.update d.sem i none }
  | leave (hw : r.waiting p' = r.waiting p) (hs : r.hasSem p' = r.hasSem p) (hv : r.served p = true)
      (hv' : r.served p' = false) (hh : ∀ c, r.holds c p' = r.holds c p) :
      Effect r i d p p' { d with given := d.given.erase i }

structure Kept (r : Roles τ) (n : Nat) (d : Desk) (place : Nat → τ) : Prop where
  line : Line r n d.queue d.sem place
  given : Given r d.given d.sem place

/-- Nothing is given while nobody is served and no token is left. -/
theorem Kept.given_eq_nil {d : Desk} (h : Kept r n d place) (hserved : ∀ c, r.served (place c) = false)
    (hsem : ∀ c, r.waiting (place c) = true → (d.sem c).getD 0 = 0) : d.given = [] := by
  refine List.eq_nil_iff_forall_not_mem.mpr fun c hc => ?_
  have hcount := h.given.count c
  have hpos := List.count_pos_iff.mpr hc
  have hzero : (d.sem c).getD 0 = 0 := by
    cases hw : r.waiting (place c) with
    | true => exact hsem c hw
    | false => exact h.line.sem_eq_zero hw
  rw [hzero, hserved, if_neg Bool.false_ne_true] at hcount
  omega

/-- Nobody waits when the queue is empty, the servers have posted, and no token is left. -/
theorem Kept.waiting_eq_false {d : Desk} (h : Kept r n d place) (hqueue : d.queue = [])
    (hholds : ∀ c, ∀ i < n, r.holds c (place i) = false)
    (hsem : ∀ c, r.waiting (place c) = true → (d.sem c).getD 0 = 0) (c : Nat) :
    r.waiting (place c) = false := by
  by_contra hw
  have hw : r.waiting (place c) = true := by simpa using hw
  have := h.line.waiting c
  rw [hqueue, List.count_nil, count_eq_zero.2 (hholds c), hsem c hw, hw] at this
  cases this

theorem Kept.step {d d' : Desk} (h : Kept r n d place) (hi : i < n) (heffect : Effect r i d (place i) x d') :
    Kept r n d' (Function.update place i x) := by
  obtain ⟨hline, hgiven⟩ := h
  cases heffect with
  | same hw hs hv hh => exact ⟨hline.same hi hw hs hh, hgiven.same hv⟩
  | init hw hs hs' hv hh => exact ⟨hline.init hi hw hs hs' hh, hgiven.init (hline.sem_eq_none hs) hv⟩
  | insert hw hw' hs hv hh => exact ⟨hline.insert hi hw hw' hs hh, hgiven.same hv⟩
  | take hq hw hs hv hh hh' =>
    rw [hq] at hline
    exact ⟨hline.take hi hw hs hh hh', hgiven.same hv⟩
  | post hsem hw hs hv hh hh' => exact ⟨hline.post hi hw hs hh hh' hsem, hgiven.post hv hsem⟩
  | wake hsem hw hw' hs hv hv' hh => exact ⟨hline.wake hi hw hw' hs hh hsem, hgiven.wake hv hv' hsem⟩
  | free hw hw' hs' hv hh => exact ⟨hline.free hi hw hw' hs' hh, hgiven.free (hline.sem_eq_zero hw) hv⟩
  | leave hw hs hv hv' hh => exact ⟨hline.same hi hw hs hh, hgiven.leave hv hv'⟩

end OstepHw.Handover
