import Mathlib.Order.Bounds.Defs
import OstepHw.PagingPolicy.Model

/-!
# `paging-policy.py`: the policies compared

* `opt_least` — OPT misses as rarely as any schedule can, so no policy with at most as many pages misses less often;
* `unopt_greatest` — UNOPT misses as often as demand paging can;
* `lru_holds` — LRU holds the pages of the latest last references; more pages never cost it a miss;
* `queue_competitive` — FIFO and LRU miss at most `cachesize` times as often as any schedule.
-/

set_option autoImplicit false

namespace OstepHw.PagingPolicy

open Paging Recency

/-- Enough rounds for the loop of CLOCK. -/
def Enough (o : Options) (fuel : Nat) : Prop := o.cachesize.toNat * (max 1 o.clockbits).toNat < fuel

theorem Served.demands {o : Options} {addrList : List Int} {s : State} (h : Served o addrList {} s) :
    Demand (rule o.policy) o.cachesize.toNat ∅ addrList s.miss := by
  obtain ⟨m, hm, hdemand⟩ := h.demand
  rw [hm]
  simpa using hdemand

theorem Served.serves {o : Options} {addrList : List Int} {s : State} (h : Served o addrList {} s) :
    Serves o.cachesize.toNat ∅ addrList s.miss :=
  demand_serves h.demands (Nat.zero_le _)

instance (o : Options) (fuel : Nat) : Decidable (Enough o fuel) := inferInstanceAs (Decidable (_ < _))

/-- References on which the policies differ. -/
def sample : List Int := [1, 2, 3, 4, 1, 2, 5, 1, 2, 3, 4, 5]

/-- The source of random numbers that always picks the first page. -/
def firstPage : Random := ⟨fun _ _ => 0, fun _ _ h => h⟩

/-- **Every run ends**, with each reference counted once, no page twice in memory and the reference bits in bounds. -/
theorem run_ends (o : Options) (fuel : Nat) (addrList : List Int) (hsize : 0 < o.cachesize) (hfuel : Enough o fuel) :
    ∃ s, run o fuel addrList = some s ∧ Valid o s ∧ s.hits + s.miss = addrList.length := by
  obtain ⟨s, hrun, hserved⟩ := run_spec hsize hfuel addrList
  exact ⟨s, hrun, hserved.valid, by simpa using hserved.total⟩

theorem run_ends_clock : ∃ s, run ⟨.CLOCK, 3, 2, firstPage⟩ 7 sample = some s ∧
    Valid ⟨.CLOCK, 3, 2, firstPage⟩ s ∧ s.hits + s.miss = 12 :=
  run_ends ⟨.CLOCK, 3, 2, firstPage⟩ 7 sample (by decide) (by decide)

/-- **OPT misses as rarely as any schedule can**, and no policy with at most as many pages misses less often. -/
theorem opt_least (o : Options) (fuel : Nat) (addrList : List Int) (hopt : o.policy = .OPT) (hsize : 0 < o.cachesize)
    (hfuel : Enough o fuel) :
    ∃ s, run o fuel addrList = some s ∧ IsLeast {m | Serves o.cachesize.toNat ∅ addrList m} s.miss ∧
      ∀ o' fuel' s', 0 < o'.cachesize → o'.cachesize ≤ o.cachesize → Enough o' fuel' →
        run o' fuel' addrList = some s' → s.miss ≤ s'.miss := by
  obtain ⟨s, hrun, hserved⟩ := run_spec hsize hfuel addrList
  have hdemand := hserved.demands
  rw [hopt] at hdemand
  refine ⟨s, hrun, ⟨hserved.serves, fun m hm => optimal_le hdemand hm⟩, ?_⟩
  intro o' fuel' s' hsize' hle hfuel' hrun'
  obtain ⟨s'', hrun'', hserved'⟩ := run_spec hsize' hfuel' addrList
  obtain rfl : s' = s'' := Option.some.inj (hrun'.symm.trans hrun'')
  exact optimal_le hdemand (hserved'.serves.mono (Int.toNat_le_toNat hle))

theorem opt_least_three : ∃ s, run ⟨.OPT, 3, 2, firstPage⟩ 7 sample = some s ∧
    IsLeast {m | Serves 3 ∅ sample m} s.miss := by
  obtain ⟨s, hrun, hleast, _⟩ := opt_least ⟨.OPT, 3, 2, firstPage⟩ 7 sample rfl
    (by decide) (by decide)
  exact ⟨s, hrun, hleast⟩

example : (run ⟨.OPT, 3, 2, firstPage⟩ 7 sample).map State.miss = some 7 := by decide

/-- **UNOPT misses as often as demand paging can**, and no policy with the same number of pages misses more often. -/
theorem unopt_greatest (o : Options) (fuel : Nat) (addrList : List Int) (hunopt : o.policy = .UNOPT)
    (hsize : 0 < o.cachesize) (hfuel : Enough o fuel) :
    ∃ s, run o fuel addrList = some s ∧ IsGreatest {m | Demand anyPage o.cachesize.toNat ∅ addrList m} s.miss ∧
      ∀ o' fuel' s', o'.cachesize = o.cachesize → Enough o' fuel' → run o' fuel' addrList = some s' →
        s'.miss ≤ s.miss := by
  obtain ⟨s, hrun, hserved⟩ := run_spec hsize hfuel addrList
  have hdemand := hserved.demands
  rw [hunopt] at hdemand
  refine ⟨s, hrun, ⟨hdemand.anyPage, fun m hm => le_soonest hdemand hm⟩, ?_⟩
  intro o' fuel' s' hsame hfuel' hrun'
  obtain ⟨s'', hrun'', hserved'⟩ := run_spec (hsame ▸ hsize) hfuel' addrList
  obtain rfl : s' = s'' := Option.some.inj (hrun'.symm.trans hrun'')
  exact le_soonest hdemand (hsame ▸ hserved'.demands.anyPage)

theorem unopt_greatest_three : ∃ s, run ⟨.UNOPT, 3, 2, firstPage⟩ 7 sample = some s ∧
    IsGreatest {m | Demand anyPage 3 ∅ sample m} s.miss := by
  obtain ⟨s, hrun, hgreatest, _⟩ := unopt_greatest ⟨.UNOPT, 3, 2, firstPage⟩ 7 sample rfl
    (by decide) (by decide)
  exact ⟨s, hrun, hgreatest⟩

/-- **LRU**: what it holds, which references hit, and that more pages never cost a miss. -/
theorem lru_holds (o : Options) (fuel : Nat) (addrList : List Int) (hlru : o.policy = .LRU) (hsize : 0 < o.cachesize)
    (hfuel : Enough o fuel) :
    ∃ s, run o fuel addrList = some s ∧ s.memory = addrList.dedup.rtake o.cachesize.toNat ∧
      (∀ before r since, addrList = before ++ r :: since → r ∉ since →
        (r ∈ s.memory ↔ (since.toFinset.card : Int) < o.cachesize)) ∧
      ∀ o' fuel' s', o'.policy = .LRU → o.cachesize ≤ o'.cachesize → Enough o' fuel' →
        run o' fuel' addrList = some s' → s.memory <:+ s'.memory ∧ s'.miss ≤ s.miss := by
  have hc : 0 < o.cachesize.toNat := by omega
  obtain ⟨s, hrun, hserved⟩ := run_spec hsize hfuel addrList
  obtain ⟨hmemory, hmiss⟩ := hserved.lru hlru
  have hmiss₀ : s.miss = misses (lru o.cachesize.toNat) [] addrList := by simpa using hmiss
  refine ⟨s, hrun, by rw [hmemory]; exact lru_eq_rtake hc addrList, ?_, ?_⟩
  · intro before r since hsplit hr
    rw [hmemory, hsplit]
    have := mem_lru_iff hc (a := before) hr
    exact this.trans (by omega)
  · intro o' fuel' s' hlru' hle hfuel' hrun'
    obtain ⟨s'', hrun'', hserved'⟩ := run_spec (Int.lt_of_lt_of_le hsize hle) hfuel' addrList
    obtain rfl : s' = s'' := Option.some.inj (hrun'.symm.trans hrun'')
    obtain ⟨hmemory', hmiss'⟩ := hserved'.lru hlru'
    have hmiss₁ : s'.miss = misses (lru o'.cachesize.toNat) [] addrList := by simpa using hmiss'
    have hle' : o.cachesize.toNat ≤ o'.cachesize.toNat := Int.toNat_le_toNat hle
    refine ⟨by rw [hmemory, hmemory']; exact lru_suffix hc hle' addrList, ?_⟩
    rw [hmiss₀, hmiss₁]
    exact misses_lru_anti hc hle' addrList []

theorem lru_holds_three : ∃ s, run ⟨.LRU, 3, 2, firstPage⟩ 7 sample = some s ∧
    s.memory = sample.dedup.rtake 3 := by
  obtain ⟨s, hrun, hmemory, _⟩ := lru_holds ⟨.LRU, 3, 2, firstPage⟩ 7 sample rfl
    (by decide) (by decide)
  exact ⟨s, hrun, hmemory⟩

/-- OPT with the number of pages of `o`. -/
def optOf (o : Options) : Options := { o with policy := .OPT }

/-- **FIFO and LRU miss at most `cachesize` times as often as any schedule with as many pages.** -/
theorem queue_competitive (o : Options) (fuel : Nat) (addrList : List Int) (hqueue : o.policy = .FIFO ∨ o.policy = .LRU)
    (hsize : 0 < o.cachesize) (hfuel : Enough o fuel) :
    ∃ s, run o fuel addrList = some s ∧
      ∀ m, Serves o.cachesize.toNat ∅ addrList m → (s.miss : Int) ≤ o.cachesize * m := by
  have hc : 0 < o.cachesize.toNat := by omega
  obtain ⟨s, hrun, hserved⟩ := run_spec hsize hfuel addrList
  -- between the two stands OPT
  obtain ⟨best, _, hbest⟩ := run_spec (o := optOf o) hsize hfuel addrList
  have hkept : Kept o.cachesize.toNat (∅ : Finset Int) [] :=
    ⟨List.nodup_nil, Nat.zero_le _, fun _ x hx => absurd hx (Finset.notMem_empty x)⟩
  have hbound {step : List Int → Int → List Int} (hages : Ages o.cachesize.toNat step)
      (hmiss : s.miss = misses step [] addrList) : s.miss ≤ o.cachesize.toNat * best.miss := by
    rw [hmiss]
    exact misses_le hages hc hbest.demands hkept (Nat.zero_le _)
  have hle : s.miss ≤ o.cachesize.toNat * best.miss := by
    rcases hqueue with hp | hp
    · exact hbound (ages_fifo _) (by simpa using (hserved.fifo hp).2)
    · exact hbound (ages_lru _) (by simpa using (hserved.lru hp).2)
  refine ⟨s, hrun, fun m hm => ?_⟩
  have hopt : best.miss ≤ m := optimal_le hbest.demands hm
  have hcast : ((o.cachesize.toNat * m : Nat) : Int) = o.cachesize * m := by
    rw [Int.natCast_mul, Int.toNat_of_nonneg (Int.le_of_lt hsize)]
  rw [← hcast]
  exact Int.ofNat_le.2 (Nat.le_trans hle (Nat.mul_le_mul_left _ hopt))

theorem queue_competitive_fifo : ∃ s, run ⟨.FIFO, 3, 2, firstPage⟩ 7 sample = some s ∧
    ∀ m, Serves 3 ∅ sample m → (s.miss : Int) ≤ 3 * m :=
  queue_competitive ⟨.FIFO, 3, 2, firstPage⟩ 7 sample (Or.inl rfl) (by decide) (by decide)

end OstepHw.PagingPolicy
