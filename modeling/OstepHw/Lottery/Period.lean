import OstepHw.Lib.Sampling
import OstepHw.Lottery.Draw
import OstepHw.Lottery.Tickets

/-!
# The lottery in the long run

Passes of the scheduler, one after the other, over processes that come back to it as they were: ready to run, with as
many tickets.

* `passes`, `passes_spec` — the passes never get stuck, and each dispatches the processes whose tickets do not all lie
  below the winning one;
* `period_shares` — **over a period of `random` a process runs as often as its own tickets and those before it in the
  table together are worth**.
-/

set_option autoImplicit false

namespace OstepHw.Lottery

open Lcg Sampling

/-- `k` passes of the outer loop of `scheduler`. -/
def passes (fuel : Nat) (runs : Nat → Proc → Proc) : Nat → Nat → List Proc → Option (List Pass)
  | 0, _, _ => some []
  | k + 1, val, table =>
    match schedulerPass fuel runs val table with
    | some (.ok pass) => (passes fuel runs k pass.val pass.table).map (pass :: ·)
    | _ => none

/-- A process that runs comes back ready to run again, with as many tickets. -/
def Steady (runs : Nat → Proc → Proc) : Prop :=
  ∀ i p, p.state = .RUNNABLE → (runs i p).state = .RUNNABLE ∧ (runs i p).tickets = p.tickets

/-- What `scheduler` looks at. -/
def Proc.bid (p : Proc) : Option Int := if p.state = .RUNNABLE then some p.tickets else none

def bids (table : List Proc) : List (Option Int) := table.map Proc.bid

/-- The values that `getwinner` does not reject. -/
def accepted (t : Int) (x : Nat) : Bool := decide (x < numRand - defect t)

variable {table table' : List Proc} {runs : Nat → Proc → Proc}

/-! ## The draw -/

theorem first_of_draw {t : Int} {fuel val x : Nat} (h : draw (defect t) fuel val = some x) :
    First random (accepted t) val x := by
  induction fuel generalizing val with
  | zero => cases h
  | succ fuel ih =>
    rw [draw] at h
    split at h
    · next hreject => exact .later (decide_eq_false (Nat.not_lt.2 hreject)) (ih h)
    · next haccept =>
      obtain rfl := Option.some.inj h
      have hyes : accepted t (random val) = true := decide_eq_true (Nat.not_le.1 haccept)
      exact .here hyes

theorem getwinner_draws {t : Int} (h0 : 0 ≤ t) (hmax : t ≤ INT_MAX) {fuel : Nat} (hfuel : defect t < fuel) (val : Nat) :
    ∃ x, getwinner fuel t val = some (.ok (x / binSize t, x)) ∧ First random (accepted t) val x := by
  obtain ⟨n, h1, hn, hlt⟩ : ∃ n, 1 ≤ n ∧ n ≤ defect t + 1 ∧ random^[n] val < numRand - defect t := by
    rw [random_eq_lcg]
    exact exists_iterate_lcg_lt rfl rfl val (defect_lt h0 hmax)
  obtain ⟨x, hx⟩ := Option.isSome_iff_exists.1 ((draw_isSome_iff _ fuel val).2 ⟨n, h1, by omega, hlt⟩)
  refine ⟨x, ?_, first_of_draw hx⟩
  have hbins := numBins_eq h0 hmax
  rw [getwinner, if_neg (by omega), hx]
  simp only [Option.map_some, if_neg (Nat.pos_iff_ne_zero.1 (binSize_pos h0 hmax))]

/-! ## Tables with the same bids -/

theorem share_eq_bid (p : Proc) : p.share = p.bid.getD 0 := by
  unfold Proc.share Proc.bid
  split <;> rfl

theorem shares_of_bids (h : bids table = bids table') (k : Nat) : shares (table.take k) = shares (table'.take k) := by
  have hshares (l : List Proc) : shares (l.take k) = (((bids l).take k).map fun b => b.getD 0).sum := by
    rw [shares, bids, ← List.map_take, List.map_map]
    exact congrArg List.sum (List.map_congr_left fun p _ => share_eq_bid p)
  rw [hshares, hshares, h]

theorem bids_getElem? (table : List Proc) (i : Nat) (tickets : Int) :
    (bids table)[i]? = some (some tickets) ↔ ∃ p, table[i]? = some p ∧ p.state = .RUNNABLE ∧ p.tickets = tickets := by
  rw [bids, List.getElem?_map, Option.map_eq_some_iff]
  refine exists_congr fun p => and_congr_right fun _ => ?_
  unfold Proc.bid
  split
  · next hrun => simp [hrun]
  · next hrun => simp [hrun]

theorem haveTickets_of_bids (h : HaveTickets table) (hbids : bids table' = bids table) : HaveTickets table' := by
  intro p hp hrun
  obtain ⟨i, hi⟩ := List.getElem?_of_mem hp
  have hbid := (bids_getElem? table' i p.tickets).2 ⟨p, hi, hrun, rfl⟩
  rw [hbids] at hbid
  obtain ⟨q, hq, hqrun, htickets⟩ := (bids_getElem? table i p.tickets).1 hbid
  rw [← htickets]
  exact h q (List.mem_of_getElem? hq) hqrun

/-- The processes that run bid as before. -/
theorem bids_scan (hsteady : Steady runs) (winner : Nat) :
    ∀ (l : List Proc) (k : Nat) (counter : Int), bids (scan runs winner k counter l).2 = bids l
  | [], _, _ => rfl
  | p :: rest, k, counter => by
    have ih := fun counter => bids_scan hsteady winner rest (k + 1) counter
    unfold bids at ih ⊢
    rw [scan]
    split
    · exact congrArg (p.bid :: ·) (ih _)
    · next hrun =>
      have hrun := not_not.1 hrun
      simp only
      split
      · exact congrArg (p.bid :: ·) (ih _)
      · obtain ⟨hstate, htickets⟩ := hsteady k p hrun
        have hbid : (runs k p).bid = p.bid := by rw [Proc.bid, Proc.bid, hstate, htickets, hrun]
        rw [List.map_cons, List.map_cons, hbid, ih]

/-! ## Passes -/

/-- The process in slot `i` can run, and not all tickets up to its own lie below the winner. -/
def Served (table : List Proc) (winner i : Nat) : Prop :=
  ∃ tickets, (bids table)[i]? = some (some tickets) ∧ (winner : Int) < shares (table.take (i + 1))

/-- **One pass**, which draws the next value that is not rejected. -/
theorem pass_spec (hsteady : Steady runs) (h : HaveTickets table) (hmax : shares table ≤ INT_MAX) {fuel : Nat}
    (hfuel : defect (shares table) < fuel) (val : Nat) :
    ∃ pass, schedulerPass fuel runs val table = some (.ok pass) ∧
      First random (accepted (shares table)) val pass.val ∧ bids pass.table = bids table ∧
      ∀ i, i ∈ pass.dispatched ↔ Served table (pass.val / binSize (shares table)) i := by
  obtain ⟨x, hx, hfirst⟩ := getwinner_draws (shares_nonneg h) hmax hfuel val
  refine ⟨_, by rw [schedulerPass, totaltickets_eq h hmax, hx]; rfl, hfirst, bids_scan hsteady _ table 0 0, fun i => ?_⟩
  rw [mem_scan runs _ i h (Int.le_refl 0) (by omega)]
  constructor
  · rintro ⟨j, p, rfl, hp, hrun, hlt⟩
    rw [Nat.zero_add, Int.zero_add] at *
    exact ⟨p.tickets, (bids_getElem? table j p.tickets).2 ⟨p, hp, hrun, rfl⟩, hlt⟩
  · rintro ⟨tickets, hbid, hlt⟩
    obtain ⟨p, hp, hrun, -⟩ := (bids_getElem? table i tickets).1 hbid
    exact ⟨i, p, (Nat.zero_add i).symm, hp, hrun, by rwa [Int.zero_add]⟩

/-- **A run of passes.** -/
theorem passes_spec (hsteady : Steady runs) (h : HaveTickets table) (hmax : shares table ≤ INT_MAX) {fuel : Nat}
    (hfuel : defect (shares table) < fuel) (k val : Nat) {table' : List Proc} (hbids : bids table' = bids table) :
    ∃ ps, passes fuel runs k val table' = some ps ∧ ps.length = k ∧
      (val :: ps.map Pass.val).IsChain (First random (accepted (shares table))) ∧
      ∀ pass ∈ ps, ∀ i, i ∈ pass.dispatched ↔ Served table (pass.val / binSize (shares table)) i := by
  induction k generalizing val table' with
  | zero => exact ⟨[], rfl, rfl, .singleton _, fun pass hpass => by cases hpass⟩
  | succ k ih =>
    have htake := shares_of_bids hbids
    have hshares : shares table' = shares table := by
      have hlen : table'.length = table.length := by simpa [bids] using congrArg List.length hbids
      have heq := htake table.length
      rwa [List.take_length, ← hlen, List.take_length] at heq
    obtain ⟨pass, hpass, hfirst, hkept, hdispatched⟩ := pass_spec hsteady (haveTickets_of_bids h hbids)
      (hshares ▸ hmax) (hshares.symm ▸ hfuel) val
    rw [hshares] at hfirst hdispatched
    obtain ⟨ps, hps, hlen, hchain, hall⟩ := ih pass.val (hkept.trans hbids)
    refine ⟨pass :: ps, ?_, by rw [List.length_cons, hlen], .cons_cons hfirst hchain, ?_⟩
    · simp only [passes, hpass, hps, Option.map_some]
    · rw [List.forall_mem_cons]
      refine ⟨fun i => ?_, hall⟩
      rw [hdispatched, Served, Served, hbids, htake]

/-! ## A period -/

theorem numRand_sub_defect {t : Int} (h0 : 0 ≤ t) (hmax : t ≤ INT_MAX) :
    numRand - defect t = (t.toNat + 1) * binSize t := by
  rw [defect, binSize, numBins_eq h0 hmax]
  exact sub_mod_eq _ _

/-- The passes of a period that draw a value worth less than `s`. -/
theorem countP_worth {t : Int} (h0 : 0 ≤ t) (hmax : t ≤ INT_MAX) {val s : Nat} (hs : s ≤ t.toNat) {draws : List Nat}
    (hchain : (val :: draws).IsChain (First random (accepted t)))
    (hlen : draws.length = (t.toNat + 1) * binSize t) :
    draws.countP (fun x => decide (x / binSize t < s)) = s * binSize t := by
  have hbin := binSize_pos h0 hmax
  have hsub := numRand_sub_defect h0 hmax
  have hlast : numRand - defect t ≤ 2 ^ 31 := Nat.sub_le _ _
  have hperiod : Set.BijOn (fun n => random^[n] val) (Set.Icc 1 (2 ^ 31)) (Set.Iio (2 ^ 31)) := by
    rw [random_eq_lcg]
    exact bijOn_iterate_lcg rfl rfl val
  have haccepted : (List.range (2 ^ 31)).countP (accepted t) = numRand - defect t := countP_lt_range hlast
  have hworth : s * binSize t ≤ numRand - defect t := by
    rw [hsub]
    exact Nat.mul_le_mul_right _ (by omega)
  rw [countP_draws hperiod hchain (by rw [hlen, haccepted, hsub]), ← countP_lt_range (hworth.trans hlast)]
  refine List.countP_congr fun x _ => ?_
  rw [Bool.and_eq_true, decide_eq_true_iff, decide_eq_true_iff, Nat.div_lt_iff_lt_mul hbin, accepted,
    decide_eq_true_iff]
  exact ⟨fun hx => hx.1, fun hx => ⟨hx, hx.trans_le hworth⟩⟩

/-- **The shares of a period.**  After a period of `random` the process in slot `i` has been dispatched once for every
value that is worth one of its own tickets or one of those before it in the table. -/
theorem period_shares (table : List Proc) (runs : Nat → Proc → Proc) (fuel val : Nat) (hsteady : Steady runs)
    (h : HaveTickets table) (hmax : shares table ≤ INT_MAX) (hfuel : defect (shares table) < fuel) :
    ∃ ps, passes fuel runs (((shares table).toNat + 1) * binSize (shares table)) val table = some ps ∧
      ∀ i p, table[i]? = some p → p.state = .RUNNABLE →
        ps.countP (fun pass => decide (i ∈ pass.dispatched)) =
          (shares (table.take (i + 1))).toNat * binSize (shares table) := by
  obtain ⟨ps, hps, hlen, hchain, hall⟩ := passes_spec hsteady h hmax hfuel _ val rfl
  refine ⟨ps, hps, fun i p hp hrun => ?_⟩
  have hbefore : HaveTickets (table.take (i + 1)) := fun q hq => h q (List.mem_of_mem_take hq)
  have hle : shares (table.take (i + 1)) ≤ shares table := by
    have hmono := shares_take_mono h (Nat.le_max_left (i + 1) table.length)
    rwa [List.take_of_length_le (Nat.le_max_right _ _)] at hmono
  have h0 := shares_nonneg hbefore
  rw [← countP_worth (shares_nonneg h) hmax (Int.toNat_le_toNat hle) hchain (by rw [List.length_map, hlen]),
    List.countP_map]
  refine List.countP_congr fun pass hpass => ?_
  rw [Function.comp_apply, decide_eq_true_iff, decide_eq_true_iff, hall pass hpass, Int.lt_toNat, Served]
  constructor
  · rintro ⟨-, -, hlt⟩
    exact hlt
  · intro hlt
    exact ⟨p.tickets, (bids_getElem? table i p.tickets).2 ⟨p, hp, hrun, rfl⟩, hlt⟩

/-- Of three processes with one ticket each the last runs three times as often as the first. -/
theorem period_shares_three : ∃ ps, passes 1 (fun _ p => p) (4 * 2 ^ 29) 1
      (List.replicate 3 ⟨.RUNNABLE, 2, some 0, none, false, 1⟩) = some ps ∧
    ps.countP (fun pass => decide (0 ∈ pass.dispatched)) = 2 ^ 29 ∧
    ps.countP (fun pass => decide (2 ∈ pass.dispatched)) = 3 * 2 ^ 29 := by
  have hsteady : Steady fun _ p => p := fun _ _ hrun => ⟨hrun, rfl⟩
  obtain ⟨ps, hps, hshares⟩ := period_shares (List.replicate 3 ⟨.RUNNABLE, 2, some 0, none, false, 1⟩)
    (fun _ p => p) 1 1 hsteady (fun p hp _ => by rw [List.eq_of_mem_replicate hp]) (by decide) (by decide)
  exact ⟨ps, hps, hshares 0 _ rfl rfl, hshares 2 _ rfl rfl⟩

end OstepHw.Lottery
