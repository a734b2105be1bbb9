import Mathlib.Algebra.Order.BigOperators.Group.List
import Mathlib.Algebra.Ring.Int.Defs
import Mathlib.Algebra.Ring.Nat
import Mathlib.Data.List.Basic
import Mathlib.Data.Int.Init
import Mathlib.Tactic.Common
import OstepHw.Lib.CInt

/-!
# `scheduler` of the lottery kernel

Model of one pass of the outer loop of `scheduler` and of `getwinner` in
`scheduling-xv6-lottery/src/proc.c`, for i386, where `int` and `long` have 32 bits.

A process that is dispatched runs until it comes back to the scheduler; what it does to its own slot in
between is a parameter.

* `mem_scan` — which processes a pass dispatches;
* `dispatch_iff` — a pass dispatches the winner and nobody else iff the winning ticket belongs to the
  last process that can run.
-/

set_option autoImplicit false

namespace OstepHw.Lottery

inductive Procstate
  | UNUSED
  | EMBRYO
  | SLEEPING
  | RUNNABLE
  | RUNNING
  | ZOMBIE
  deriving DecidableEq

/-- A slot of the process table.  The parent and the channel are slots. -/
structure Proc where
  state : Procstate
  pid : Int
  parent : Option Nat
  chan : Option Nat
  killed : Bool
  tickets : Int
  deriving DecidableEq

def INT_MAX : Int := 2 ^ 31 - 1

/-- The value of an `int` after an addition that may overflow. -/
def wrap (x : Int) : Int := x.bmod (2 ^ 32)

/-! ## `getwinner` -/

def random (val : Nat) : Nat := (1103515245 * val + 12345) % 0x80000000

def numBins (totaltickets : Int) : Nat := ((totaltickets % 2 ^ 32).toNat + 1) % 2 ^ 32

def numRand : Nat := 0x7fffffff + 1

def binSize (totaltickets : Int) : Nat := numRand / numBins totaltickets

def defect (totaltickets : Int) : Nat := numRand % numBins totaltickets

inductive Fault
  | divisionByZero
  deriving DecidableEq

/-- The `do` loop; `none` when it takes more than `fuel` rounds. -/
def draw (defect : Nat) : Nat → Nat → Option Nat
  | 0, _ => none
  | fuel + 1, val =>
    let x := random val
    if numRand - defect ≤ x then draw defect fuel x else some x

/-- The winner and the new value of `val`. -/
def getwinner (fuel : Nat) (totaltickets : Int) (val : Nat) : Option (Except Fault (Nat × Nat)) :=
  if numBins totaltickets = 0 then some (.error .divisionByZero)
  else
    (draw (defect totaltickets) fuel val).map fun x =>
      if binSize totaltickets = 0 then .error .divisionByZero
      else .ok (x / binSize totaltickets, x)

theorem numBins_eq {t : Int} (h0 : 0 ≤ t) (h : t ≤ INT_MAX) : numBins t = t.toNat + 1 := by
  unfold numBins
  unfold INT_MAX at h
  omega

theorem binSize_pos {t : Int} (h0 : 0 ≤ t) (h : t ≤ INT_MAX) : 0 < binSize t := by
  unfold binSize
  rw [numBins_eq h0 h]
  apply Nat.div_pos _ (Nat.succ_pos _)
  unfold INT_MAX at h
  unfold numRand
  omega

/-! ## `scheduler` -/

/-- The first loop of a pass. -/
def totaltickets (table : List Proc) : Int :=
  table.foldl (fun t p => if p.state = .RUNNABLE then wrap (t + p.tickets) else t) 0

/-- The second loop from slot `i` on: the slots that are dispatched, and the table afterwards. -/
def scan (runs : Nat → Proc → Proc) (winner : Nat) : Nat → Int → List Proc → List Nat × List Proc
  | _, _, [] => ([], [])
  | i, counter, p :: rest =>
    if p.state ≠ .RUNNABLE then
      let r := scan runs winner (i + 1) counter rest
      (r.1, p :: r.2)
    else
      let counter := wrap (counter + p.tickets)
      let r := scan runs winner (i + 1) counter rest
      if counter ≤ winner then (r.1, p :: r.2) else (i :: r.1, runs i p :: r.2)

structure Pass where
  winner : Nat
  val : Nat
  dispatched : List Nat
  table : List Proc

/-- One pass of the outer loop. -/
def schedulerPass (fuel : Nat) (runs : Nat → Proc → Proc) (val : Nat) (table : List Proc) :
    Option (Except Fault Pass) :=
  (getwinner fuel (totaltickets table) val).map fun r => r.map fun w =>
    let s := scan runs w.1 0 0 table
    { winner := w.1, val := w.2, dispatched := s.1, table := s.2 }

/-! ## Tickets that can win -/

/-- The tickets that count in this pass. -/
def Proc.share (p : Proc) : Int := if p.state = .RUNNABLE then p.tickets else 0

def shares (table : List Proc) : Int := (table.map Proc.share).sum

/-- Every process that can run has a ticket. -/
def HaveTickets (table : List Proc) : Prop := ∀ p ∈ table, p.state = .RUNNABLE → 1 ≤ p.tickets

variable {table : List Proc}

theorem shares_cons (p : Proc) (table : List Proc) : shares (p :: table) = p.share + shares table := by
  simp [shares]

theorem share_nonneg {p : Proc} (h : p.state = .RUNNABLE → 1 ≤ p.tickets) : 0 ≤ p.share := by
  unfold Proc.share
  split
  · rename_i hp
    have := h hp
    omega
  · exact Int.le_refl 0

theorem shares_nonneg (h : HaveTickets table) : 0 ≤ shares table := by
  apply List.sum_nonneg
  intro x hx
  obtain ⟨p, hp, rfl⟩ := List.mem_map.mp hx
  exact share_nonneg (h p hp)

theorem shares_take_succ {i : Nat} {p : Proc} (hp : table[i]? = some p) :
    shares (table.take (i + 1)) = shares (table.take i) + p.share := by
  rw [List.take_add_one, hp]
  simp [shares]

/-- Intervals that start later start higher. -/
theorem shares_take_mono (h : HaveTickets table) {i j : Nat} (hij : i ≤ j) :
    shares (table.take i) ≤ shares (table.take j) := by
  obtain ⟨k, rfl⟩ := Nat.exists_eq_add_of_le hij
  have hrest : HaveTickets ((table.drop i).take k) := fun p hp =>
    h p (List.mem_of_mem_drop (List.mem_of_mem_take hp))
  have hnonneg := shares_nonneg hrest
  rw [List.take_add]
  unfold shares at *
  rw [List.map_append, List.sum_append]
  omega

theorem wrap_of_le {x : Int} (h0 : 0 ≤ x) (h : x ≤ INT_MAX) : wrap x = x :=
  CInt.toInt_of_lt h0 (Int.lt_of_le_sub_one h)

/-! ## What a pass dispatches -/

/-- One round of the second loop. -/
theorem scan_cons (runs : Nat → Proc → Proc) (winner k : Nat) {counter : Int} {p : Proc}
    (rest : List Proc) (hp : p.state = .RUNNABLE → 1 ≤ p.tickets) (h0 : 0 ≤ counter)
    (hmax : counter + p.share ≤ INT_MAX) :
    (scan runs winner k counter (p :: rest)).1 =
      if p.state = .RUNNABLE ∧ (winner : Int) < counter + p.share then
        k :: (scan runs winner (k + 1) (counter + p.share) rest).1
      else (scan runs winner (k + 1) (counter + p.share) rest).1 := by
  have hshare := share_nonneg hp
  rw [scan]
  by_cases hrun : p.state = .RUNNABLE
  · have hs : p.share = p.tickets := if_pos hrun
    have hwrap : wrap (counter + p.tickets) = counter + p.share := by
      rw [hs] at hmax hshare ⊢
      exact wrap_of_le (by omega) hmax
    rw [if_neg (not_not.mpr hrun)]
    simp only [hwrap]
    split
    · rename_i hle
      rw [if_neg (by omega)]
    · rename_i hlt
      rw [if_pos ⟨hrun, by omega⟩]
  · have hs : p.share = 0 := if_neg hrun
    rw [if_pos hrun, if_neg (fun h => hrun h.1), hs, Int.add_zero]

/-- A process is dispatched if its interval does not lie below the winning ticket. -/
theorem mem_scan (runs : Nat → Proc → Proc) (winner i : Nat) :
    ∀ {l : List Proc} {k : Nat} {counter : Int}, HaveTickets l → 0 ≤ counter →
      counter + shares l ≤ INT_MAX →
      (i ∈ (scan runs winner k counter l).1 ↔ ∃ j p, i = k + j ∧ l[j]? = some p ∧ p.state = .RUNNABLE ∧
        (winner : Int) < counter + shares (l.take (j + 1)))
  | [], k, counter, _, _, _ => by simp [scan]
  | p :: rest, k, counter, h, h0, hmax => by
    have hp := h p List.mem_cons_self
    have hrest : HaveTickets rest := fun q hq => h q (List.mem_cons_of_mem p hq)
    have hshare := share_nonneg hp
    have hshares := shares_nonneg hrest
    rw [shares_cons] at hmax
    have ih := @mem_scan runs winner i rest (k + 1) (counter + p.share) hrest (by omega) (by omega)
    have hfirst : shares ((p :: rest).take (0 + 1)) = p.share := by simp [shares]
    have hlater : ∀ j, shares ((p :: rest).take (j + 1 + 1)) = p.share + shares (rest.take (j + 1)) := by
      intro j
      rw [List.take_succ_cons, shares_cons]
    have hsplit : i ∈ (scan runs winner k counter (p :: rest)).1 ↔
        (i = k ∧ p.state = .RUNNABLE ∧ (winner : Int) < counter + p.share) ∨
          i ∈ (scan runs winner (k + 1) (counter + p.share) rest).1 := by
      rw [scan_cons runs winner k rest hp h0 (by omega)]
      split
      · rename_i hd
        simp [hd]
      · rename_i hd
        simp [hd]
    rw [hsplit, ih]
    constructor
    · rintro (⟨hi, hrun, hlt⟩ | ⟨j, q, hi, hq, hrun, hlt⟩)
      · exact ⟨0, p, hi, rfl, hrun, by rw [hfirst]; exact hlt⟩
      · refine ⟨j + 1, q, by omega, hq, hrun, ?_⟩
        rw [hlater]
        omega
    · rintro ⟨j, q, hi, hq, hrun, hlt⟩
      cases j with
      | zero =>
        cases hq
        rw [hfirst] at hlt
        exact .inl ⟨hi, hrun, hlt⟩
      | succ j =>
        rw [hlater] at hlt
        exact .inr ⟨j, q, by omega, hq, hrun, by omega⟩

/-- The slots are dispatched in the order of the table. -/
theorem scan_pairwise (runs : Nat → Proc → Proc) (winner : Nat) :
    ∀ (l : List Proc) (k : Nat) (counter : Int),
      (scan runs winner k counter l).1.Pairwise (· < ·) ∧ ∀ i ∈ (scan runs winner k counter l).1, k ≤ i
  | [], _, _ => ⟨.nil, nofun⟩
  | p :: rest, k, counter => by
    have ih := fun counter => scan_pairwise runs winner rest (k + 1) counter
    rw [scan]
    split
    · exact ⟨(ih _).1, fun i hi => Nat.le_of_succ_le ((ih _).2 i hi)⟩
    · simp only
      split
      · exact ⟨(ih _).1, fun i hi => Nat.le_of_succ_le ((ih _).2 i hi)⟩
      · refine ⟨List.pairwise_cons.mpr ⟨(ih _).2, (ih _).1⟩, ?_⟩
        intro i hi
        rcases List.mem_cons.mp hi with rfl | hi
        · exact Nat.le_refl _
        · exact Nat.le_of_succ_le ((ih _).2 i hi)

theorem eq_singleton {l : List Nat} {i : Nat} (hi : i ∈ l) (honly : ∀ j ∈ l, j = i)
    (hlt : l.Pairwise (· < ·)) : l = [i] := by
  match l, hlt with
  | [], _ => cases hi
  | [a], _ => rw [honly a List.mem_cons_self]
  | a :: b :: l, hlt =>
    have hab := (List.pairwise_cons.mp hlt).1 b List.mem_cons_self
    have ha := honly a List.mem_cons_self
    have hb := honly b (List.mem_cons_of_mem a List.mem_cons_self)
    omega

/-! ## The winner -/

/-- The process in slot `i` can run, and the winning ticket is one of its own. -/
def Wins (table : List Proc) (winner i : Nat) : Prop :=
  ∃ p, table[i]? = some p ∧ p.state = .RUNNABLE ∧
    shares (table.take i) ≤ winner ∧ (winner : Int) < shares (table.take i) + p.tickets

/-- No process behind slot `i` can run. -/
def LastRunnable (table : List Proc) (i : Nat) : Prop :=
  ∀ j q, i < j → table[j]? = some q → q.state ≠ .RUNNABLE

/-- **Dispatch.**  For every table and every winner that `getwinner` returns, a pass dispatches exactly one
process, the one with the winning ticket, iff no process behind it can run: the scan goes on after a
dispatch, and `counter` stays above the winner. -/
theorem dispatch_iff {fuel val : Nat} {runs : Nat → Proc → Proc} {pass : Pass} (h : HaveTickets table)
    (hmax : shares table ≤ INT_MAX) (hpass : schedulerPass fuel runs val table = some (.ok pass)) :
    (∃ i, pass.dispatched = [i] ∧ Wins table pass.winner i) ↔
      ∃ i, Wins table pass.winner i ∧ LastRunnable table i := by
  have hdispatched : pass.dispatched = (scan runs pass.winner 0 0 table).1 := by
    unfold schedulerPass at hpass
    obtain ⟨r, hr, heq⟩ := Option.map_eq_some_iff.mp hpass
    cases r with
    | error e => cases heq
    | ok w =>
      cases heq
      rfl
  rw [hdispatched]
  generalize pass.winner = winner
  have hmem := fun i => @mem_scan runs winner i table 0 0 h (Int.le_refl 0) (by omega)
  constructor
  · rintro ⟨i, hone, p, hp, hrun, hlow, hhigh⟩
    refine ⟨i, ⟨p, hp, hrun, hlow, hhigh⟩, ?_⟩
    intro j q hij hq hqrun
    have hshare : p.share = p.tickets := if_pos hrun
    have hle := shares_take_mono h (show i + 1 ≤ j + 1 by omega)
    rw [shares_take_succ hp, hshare] at hle
    have hj : j ∈ (scan runs winner 0 0 table).1 := (hmem j).mpr ⟨j, q, by omega, hq, hqrun, by omega⟩
    rw [hone, List.mem_singleton] at hj
    omega
  · rintro ⟨i, ⟨p, hp, hrun, hlow, hhigh⟩, hlast⟩
    refine ⟨i, ?_, p, hp, hrun, hlow, hhigh⟩
    have hshare : p.share = p.tickets := if_pos hrun
    have hi : i ∈ (scan runs winner 0 0 table).1 := by
      refine (hmem i).mpr ⟨i, p, by omega, hp, hrun, ?_⟩
      rw [shares_take_succ hp, hshare]
      omega
    have honly : ∀ j ∈ (scan runs winner 0 0 table).1, j = i := by
      intro j hj
      obtain ⟨j', q, hjj, hq, hqrun, hlt⟩ := (hmem j).mp hj
      rw [Nat.zero_add] at hjj
      subst hjj
      rcases Nat.lt_trichotomy j i with hlt' | rfl | hgt
      · have hle := shares_take_mono h (show j + 1 ≤ i from hlt')
        omega
      · rfl
      · exact absurd hqrun (hlast j q hgt hq)
    exact eq_singleton hi honly (scan_pairwise runs winner table 0 0).1

/-- Two processes that can run, with one and with three tickets. -/
def oneThree : List Proc :=
  [⟨.RUNNABLE, 1, none, none, false, 1⟩, ⟨.RUNNABLE, 2, some 0, none, false, 3⟩]

/-- The first draw after boot is ticket 2, which is one of the second process. -/
theorem oneThree_dispatch : ∃ pass : Pass,
    schedulerPass 1 (fun _ p => p) 1 oneThree = some (.ok pass) ∧
      ∃ i, pass.dispatched = [i] ∧ Wins oneThree pass.winner i := by
  have hpass : schedulerPass 1 (fun _ p => p) 1 oneThree =
      some (.ok ⟨2, 1103527590, [1], oneThree⟩) := rfl
  refine ⟨_, hpass, (dispatch_iff ?_ (by decide) hpass).mpr ⟨1, ⟨_, rfl, rfl, by decide, by decide⟩, ?_⟩⟩
  · unfold HaveTickets
    decide
  · intro j q hj hq
    have hlt := (List.getElem?_eq_some_iff.mp hq).1
    simp only [oneThree, List.length_cons, List.length_nil] at hlt
    omega

/-- The same with the tickets the other way round. -/
def threeOne : List Proc :=
  [⟨.RUNNABLE, 1, none, none, false, 3⟩, ⟨.RUNNABLE, 2, some 0, none, false, 1⟩]

/-- Here ticket 2 is one of the first process, and the scan goes on to the second. -/
theorem threeOne_dispatch_both : ∃ pass : Pass,
    schedulerPass 1 (fun _ p => p) 1 threeOne = some (.ok pass) ∧
      ¬ ∃ i, pass.dispatched = [i] ∧ Wins threeOne pass.winner i := by
  have hpass : schedulerPass 1 (fun _ p => p) 1 threeOne =
      some (.ok ⟨2, 1103527590, [0, 1], threeOne⟩) := rfl
  refine ⟨_, hpass, ?_⟩
  rintro ⟨i, hone, -⟩
  cases hone

end OstepHw.Lottery
