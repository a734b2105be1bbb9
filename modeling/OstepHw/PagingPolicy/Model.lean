import Mathlib.Algebra.Order.BigOperators.Group.List
import Mathlib.Algebra.Order.Ring.Nat
import Mathlib.Algebra.Module.NatInt
import OstepHw.Lib.Recency

/-!
# `paging-policy.py`: the page cache

Model of the loop over `addrList` in `22/paging-policy.py` when the answers are computed.  Each operation that raises
an exception gives `none`, and so does the loop of CLOCK when it is still running after `fuel` rounds.  The random
numbers come from a source that may return anything.  Printing is left out.

* `access` — one reference; `run` — all of them;
* `Valid` — the count, no page twice, the reference bits;
* `Evicts` — what the choice of a victim promises, for every policy (`evict_spec`);
* `access_spec`, `run_spec` — **no exception, and CLOCK ends; the run is demand paging**.
-/

set_option autoImplicit false

namespace OstepHw.PagingPolicy

open Paging Recency

inductive Policy where
  | FIFO
  | LRU
  | MRU
  | OPT
  | UNOPT
  | RAND
  | CLOCK
deriving DecidableEq, Repr

/-- `index k count` is `int(random.random() * count)` for the number that is drawn after `k` others. -/
structure Random where
  index : Nat → Nat → Nat
  index_lt : ∀ k count, 0 < count → index k count < count

structure Options where
  policy : Policy
  cachesize : Int
  clockbits : Int
  random : Random

structure State where
  count : Nat := 0
  memory : List Int := []
  hits : Nat := 0
  miss : Nat := 0
  ref : Int → Option Int := fun _ => none
  drawn : Nat := 0
  addrIndex : Nat := 0

/-- `memory.pop(i)`: a negative index counts from the end. -/
def pop (memory : List Int) (i : Int) : Option (Int × List Int) :=
  let j := if i < 0 then i + memory.length else i
  if j < 0 then none else memory[j.toNat]?.map fun page => (page, memory.eraseIdx j.toNat)

/-- What the choice of a victim leaves. -/
structure Evicted where
  victim : Int
  memory : List Int
  ref : Int → Option Int
  drawn : Nat

/-- The loop of CLOCK. -/
def scan (o : Options) (memory : List Int) (count : Nat) : Nat → (Int → Option Int) → Nat → Option Evicted
  | 0, _, _ => none
  | fuel + 1, ref, drawn => do
    let page ← memory[o.random.index drawn count]?
    let bits ← ref page
    if bits ≥ 1 then scan o memory count fuel (Function.update ref page (some (bits - 1))) (drawn + 1)
    else some ⟨page, memory.erase page, Function.update ref page none, drawn + 1⟩

/-- When the page is referenced next: an index of `addrList`, or its length. -/
def whenReferenced (addrList : List Int) (addrIndex : Nat) (page : Int) : Nat :=
  match (addrList.drop (addrIndex + 1)).idxOf? page with
  | some i => addrIndex + 1 + i
  | none => addrList.length

/-- The loop of OPT and UNOPT: `maxReplace` or `minReplace`, and `replaceIdx`. -/
def replaceIdx (better : Int → Int → Bool) (start : Int) (whenRef : Int → Nat) (memory : List Int) (count : Nat) :
    Option (Int × Int) :=
  (List.range count).foldlM (fun (best : Int × Int) (pageIndex : Nat) => do
    let page ← memory[pageIndex]?
    pure (if better (whenRef page) best.1 then ((whenRef page : Int), (pageIndex : Int)) else best)) (start, -1)

def evict (o : Options) (fuel : Nat) (addrList : List Int) (s : State) : Option Evicted :=
  let popped (drawn : Nat) (p : Int × List Int) : Evicted := ⟨p.1, p.2, s.ref, drawn⟩
  let whenRef := whenReferenced addrList s.addrIndex
  match o.policy with
  | .FIFO => (pop s.memory 0).map (popped s.drawn)
  | .LRU => (pop s.memory 0).map (popped s.drawn)
  | .MRU => (pop s.memory (s.count - 1)).map (popped s.drawn)
  | .RAND => (pop s.memory (o.random.index s.drawn s.count)).map (popped (s.drawn + 1))
  | .CLOCK => scan o s.memory s.count fuel s.ref s.drawn
  | .OPT => do
    -- the last of the farthest pages
    let best ← replaceIdx (fun a b => decide (b ≤ a)) (-1) whenRef s.memory s.count
    (pop s.memory best.2).map (popped s.drawn)
  | .UNOPT => do
    -- the first of the soonest pages
    let best ← replaceIdx (fun a b => decide (a < b)) (addrList.length + 1) whenRef s.memory s.count
    (pop s.memory best.2).map (popped s.drawn)

/-- The reference bits after `n` has been referenced. -/
def touch (o : Options) (ref : Int → Option Int) (n : Int) : Int → Option Int :=
  Function.update ref n (some (match ref n with
    | none => 1
    | some bits => if bits + 1 > o.clockbits then o.clockbits else bits + 1))

/-- One reference. -/
def access (o : Options) (fuel : Nat) (addrList : List Int) (s : State) (n : Int) : Option State :=
  if n ∈ s.memory then
    let memory := if o.policy = .LRU ∨ o.policy = .MRU then s.memory.erase n ++ [n] else s.memory
    some { s with hits := s.hits + 1, memory := memory, ref := touch o s.ref n, addrIndex := s.addrIndex + 1 }
  else if (s.count : Int) = o.cachesize then do
    let e ← evict o fuel addrList s
    let memory := e.memory ++ [n]
    if e.victim ≠ -1 ∧ e.victim ∈ memory then none   -- assert(victim not in memory)
    else some { s with miss := s.miss + 1, memory := memory, ref := touch o e.ref n, drawn := e.drawn,
                       addrIndex := s.addrIndex + 1 }
  else
    some { s with miss := s.miss + 1, count := s.count + 1, memory := s.memory ++ [n], ref := touch o s.ref n,
                  addrIndex := s.addrIndex + 1 }

def run (o : Options) (fuel : Nat) (addrList : List Int) : Option State :=
  addrList.foldlM (access o fuel addrList) {}

/-! ## Choosing a victim -/

/-- The reference bits of the pages in memory; CLOCK has none for other pages. -/
structure Bits (o : Options) (memory : List Int) (ref : Int → Option Int) : Prop where
  held : ∀ page ∈ memory, ∃ bits, ref page = some bits
  bounded : ∀ page bits, ref page = some bits → min 0 o.clockbits ≤ bits ∧ bits ≤ max 1 o.clockbits
  only : o.policy = .CLOCK → ∀ page, ref page ≠ none → page ∈ memory

/-- What holds between two references. -/
structure Valid (o : Options) (s : State) : Prop where
  count_eq : s.count = s.memory.length
  count_le : (s.count : Int) ≤ o.cachesize
  nodup : s.memory.Nodup
  bits : Bits o s.memory s.ref

/-- Which page the policy allows to leave, for the pages that are referenced afterwards. -/
def rule : Policy → Finset Int → List Int → Int → Prop
  | .OPT => farthest
  | .UNOPT => soonest
  | _ => anyPage

/-- What the choice of a victim promises. -/
structure Evicts (o : Options) (rest : List Int) (s : State) (e : Evicted) : Prop where
  held : e.victim ∈ s.memory
  memory_eq : e.memory = s.memory.erase e.victim
  bits : Bits o e.memory e.ref
  allowed : rule o.policy s.memory.toFinset rest e.victim
  oldest : o.policy = .FIFO ∨ o.policy = .LRU → e.memory = s.memory.tail

theorem pop_spec {memory : List Int} (hnodup : memory.Nodup) {i : Nat} (hi : i < memory.length) :
    pop memory i = some (memory[i], memory.erase memory[i]) := by
  have hneg : ¬(i : Int) < 0 := by omega
  simp only [pop, if_neg hneg, Int.toNat_natCast, List.getElem?_eq_getElem hi, Option.map_some,
    hnodup.erase_getElem i hi]

theorem Bits.erase {o : Options} {memory : List Int} {ref : Int → Option Int} (h : Bits o memory ref) (page : Int)
    (hpolicy : o.policy ≠ .CLOCK) : Bits o (memory.erase page) ref where
  held p hp := h.held p (List.mem_of_mem_erase hp)
  bounded := h.bounded
  only hclock := absurd hclock hpolicy

/-- A new value for one page. -/
theorem bounded_update {o : Options} {ref : Int → Option Int} {page : Int} {x : Option Int}
    (h : ∀ page bits, ref page = some bits → min 0 o.clockbits ≤ bits ∧ bits ≤ max 1 o.clockbits)
    (hx : ∀ bits, x = some bits → min 0 o.clockbits ≤ bits ∧ bits ≤ max 1 o.clockbits) (p bits : Int)
    (hp : Function.update ref page x p = some bits) : min 0 o.clockbits ≤ bits ∧ bits ≤ max 1 o.clockbits := by
  by_cases heq : p = page
  · subst heq
    rw [Function.update_self] at hp
    exact hx bits hp
  · rw [Function.update_of_ne heq] at hp
    exact h p bits hp

theorem Bits.remove {o : Options} {memory : List Int} {ref : Int → Option Int} (h : Bits o memory ref)
    (hnodup : memory.Nodup) (page : Int) : Bits o (memory.erase page) (Function.update ref page none) where
  held p hp := by
    have hne : p ≠ page := (hnodup.mem_erase_iff.1 hp).1
    rw [Function.update_of_ne hne]
    exact h.held p (List.mem_of_mem_erase hp)
  bounded := bounded_update h.bounded fun _ hnone => by cases hnone
  only hclock p hp := by
    have hne : p ≠ page := by
      rintro rfl
      exact hp (Function.update_self _ _ _)
    rw [Function.update_of_ne hne] at hp
    exact (List.mem_erase_of_ne hne).2 (h.only hclock p hp)

/-- A page that is in memory gets another value. -/
theorem Bits.update {o : Options} {memory : List Int} {ref : Int → Option Int} (h : Bits o memory ref) {page bits : Int}
    (hmem : page ∈ memory) (hbits : min 0 o.clockbits ≤ bits ∧ bits ≤ max 1 o.clockbits) :
    Bits o memory (Function.update ref page (some bits)) where
  held p hp := by
    by_cases heq : p = page
    · exact ⟨bits, heq ▸ Function.update_self _ _ _⟩
    · rw [Function.update_of_ne heq]
      exact h.held p hp
  bounded := bounded_update h.bounded fun b hb => Option.some.inj hb ▸ hbits
  only hclock p hp := by
    by_cases heq : p = page
    · exact heq ▸ hmem
    · rw [Function.update_of_ne heq] at hp
      exact h.only hclock p hp

/-- The bits that CLOCK can still take away. -/
def left (memory : List Int) (ref : Int → Option Int) : Nat := (memory.map fun page => ((ref page).getD 0).toNat).sum

theorem left_le {o : Options} {memory : List Int} {ref : Int → Option Int} (h : Bits o memory ref) :
    left memory ref ≤ memory.length * (max 1 o.clockbits).toNat := by
  have hall : ∀ x ∈ memory.map fun page => ((ref page).getD 0).toNat, x ≤ (max 1 o.clockbits).toNat := by
    intro x hx
    obtain ⟨page, hpage, rfl⟩ := List.mem_map.1 hx
    obtain ⟨bits, hbits⟩ := h.held page hpage
    have hle := (h.bounded page bits hbits).2
    rw [hbits, Option.getD_some]
    omega
  have := List.sum_le_card_nsmul _ _ hall
  rwa [List.length_map, smul_eq_mul] at this

theorem left_update_of_not_mem {memory : List Int} {ref : Int → Option Int} {page : Int} (h : page ∉ memory)
    (x : Option Int) : left memory (Function.update ref page x) = left memory ref := by
  rw [left, List.map_congr_left (g := fun p => ((ref p).getD 0).toNat)]
  · rfl
  · intro p hp
    rw [Function.update_of_ne]
    rintro rfl
    exact h hp

theorem left_update {ref : Int → Option Int} {page bits : Int} (href : ref page = some bits) (hbits : 1 ≤ bits) :
    ∀ {memory : List Int}, memory.Nodup → page ∈ memory →
      left memory (Function.update ref page (some (bits - 1))) + 1 = left memory ref
  | p :: memory, hnodup, hmem => by
    have hcons (f : Int → Option Int) : left (p :: memory) f = ((f p).getD 0).toNat + left memory f := rfl
    rw [hcons, hcons]
    by_cases hp : p = page
    · subst hp
      rw [left_update_of_not_mem (List.nodup_cons.1 hnodup).1, Function.update_self, href, Option.getD_some,
        Option.getD_some]
      omega
    · have ih := left_update href hbits hnodup.of_cons ((List.mem_cons.1 hmem).resolve_left (Ne.symm hp))
      rw [Function.update_of_ne hp]
      omega

/-- The loop of CLOCK ends: every round takes a bit away or finds the victim, whatever the random numbers are. -/
theorem scan_spec {o : Options} {memory : List Int} (hnodup : memory.Nodup) (hpos : 0 < memory.length) :
    ∀ {fuel : Nat} {ref : Int → Option Int} (drawn : Nat), Bits o memory ref → left memory ref < fuel →
      ∃ e, scan o memory memory.length fuel ref drawn = some e ∧ e.victim ∈ memory ∧
        e.memory = memory.erase e.victim ∧ Bits o e.memory e.ref
  | 0, _, _, _, h => absurd h (Nat.not_lt_zero _)
  | fuel + 1, ref, drawn, hbits, hfuel => by
    have hindex := o.random.index_lt drawn memory.length hpos
    have hmem : memory[o.random.index drawn memory.length] ∈ memory := List.getElem_mem hindex
    generalize hpage : memory[o.random.index drawn memory.length] = page at hmem
    obtain ⟨bits, href⟩ := hbits.held page hmem
    have hbound := hbits.bounded page bits href
    have hget : memory[o.random.index drawn memory.length]? = some page := by
      rw [List.getElem?_eq_getElem hindex, hpage]
    simp only [scan, hget, href, Option.bind_eq_bind, Option.bind_some]
    by_cases hone : bits ≥ 1
    · rw [if_pos hone]
      have hleft := left_update href hone hnodup hmem
      exact scan_spec hnodup hpos (drawn + 1) (hbits.update hmem (by omega)) (by omega)
    · rw [if_neg hone]
      exact ⟨_, rfl, hmem, rfl, hbits.remove hnodup page⟩

/-! ### OPT and UNOPT -/

theorem idxOf_of_idxOf? {page : Int} : ∀ {l : List Int} {i : Nat}, l.idxOf? page = some i → l.idxOf page = i
  | x :: l, i, h => by
    rw [List.idxOf?_cons] at h
    by_cases hx : x = page
    · subst hx
      simp only [beq_self_eq_true, if_true, Option.some.injEq] at h
      rw [List.idxOf_cons_self, h]
    · rw [if_neg (by simpa using hx)] at h
      obtain ⟨j, hj, rfl⟩ := Option.map_eq_some_iff.1 h
      rw [List.idxOf_cons_ne _ hx, idxOf_of_idxOf? hj]

theorem whenReferenced_eq {before rest : List Int} {n : Int} (page : Int) :
    whenReferenced (before ++ n :: rest) before.length page = before.length + 1 + rest.idxOf page := by
  have hdrop : (before ++ n :: rest).drop (before.length + 1) = rest := by
    rw [List.drop_length_add_append]
    rfl
  rw [whenReferenced, hdrop]
  cases hidx : rest.idxOf? page with
  | none =>
    have hnot : page ∉ rest := List.idxOf?_eq_none_iff.1 hidx
    rw [List.idxOf_eq_length_iff.2 hnot]
    simp only [List.length_append, List.length_cons]
    omega
  | some i => rw [idxOf_of_idxOf? hidx]

theorem replaceIdx_succ {better : Int → Int → Bool} {start : Int} {whenRef : Int → Nat} {memory : List Int} {k : Nat}
    {page : Int} (hpage : memory[k]? = some page) :
    replaceIdx better start whenRef memory (k + 1) = (replaceIdx better start whenRef memory k).map fun best =>
      if better (whenRef page) best.1 then ((whenRef page : Int), (k : Int)) else best := by
  simp only [replaceIdx, List.range_succ, List.foldlM_append, List.foldlM_cons, List.foldlM_nil, hpage,
    Option.bind_eq_bind, Option.bind_some, Option.pure_def, Option.map_eq_bind]
  rfl

/-- The loop has found a page than which none of the first `k` is better. -/
def Found (worse : Int → Int → Prop) (whenRef : Int → Nat) (memory : List Int) (k : Nat) (best : Int × Int) : Prop :=
  ∃ (i : Nat) (page : Int), memory[i]? = some page ∧ best = ((whenRef page : Int), (i : Int)) ∧
    ∀ p ∈ memory.take k, worse (whenRef p) (whenRef page)

/-- The loop with a comparison that decides the preorder `worse`. -/
theorem replaceIdx_spec {better : Int → Int → Bool} {start : Int} {whenRef : Int → Nat} {memory : List Int}
    (worse : Int → Int → Prop) (hrefl : ∀ a, worse a a) (htrans : ∀ {a b d}, worse a b → worse b d → worse a d)
    (hpos : ∀ {a b}, better a b = true → worse b a) (hneg : ∀ {a b}, better a b = false → worse a b)
    (hstart : ∀ page ∈ memory, better (whenRef page) start = true) {k : Nat} (hk : k < memory.length) :
    ∃ best, replaceIdx better start whenRef memory (k + 1) = some best ∧ Found worse whenRef memory (k + 1) best := by
  have hget := List.getElem?_eq_getElem hk
  generalize hpage : memory[k] = page at hget
  have hmem : page ∈ memory := hpage ▸ List.getElem_mem hk
  have htake : memory.take (k + 1) = memory.take k ++ [page] := by
    rw [List.take_succ_eq_append_getElem hk, hpage]
  induction k generalizing page with
  | zero =>
    refine ⟨(whenRef page, 0), ?_, 0, page, hget, rfl, ?_⟩
    · rw [replaceIdx_succ hget]
      exact congrArg some (if_pos (hstart page hmem))
    · intro p hp
      rw [htake, List.take_zero, List.nil_append, List.mem_singleton] at hp
      exact hp ▸ hrefl _
  | succ k ih =>
    have hk' : k < memory.length := by omega
    obtain ⟨best, hbest, i, found, hi, rfl, hworse⟩ := ih hk' memory[k] rfl (List.getElem?_eq_getElem hk')
      (List.getElem_mem hk') (List.take_succ_eq_append_getElem hk')
    rw [replaceIdx_succ hget, hbest, Option.map_some]
    by_cases hbetter : better (whenRef page) (whenRef found) = true
    · refine ⟨_, rfl, k + 1, page, hget, if_pos hbetter, fun p hp => ?_⟩
      rw [htake, List.mem_append, List.mem_singleton] at hp
      rcases hp with hp | rfl
      · exact htrans (hworse p hp) (hpos hbetter)
      · exact hrefl _
    · refine ⟨_, rfl, i, found, hi, if_neg hbetter, fun p hp => ?_⟩
      rw [htake, List.mem_append, List.mem_singleton] at hp
      rcases hp with hp | rfl
      · exact hworse p hp
      · exact hneg (Bool.not_eq_true _ ▸ hbetter)

/-- The page that OPT or UNOPT pops. -/
theorem replaced (better : Int → Int → Bool) (start : Int) (whenRef : Int → Nat) (memory : List Int)
    (worse : Int → Int → Prop) (hrefl : ∀ a, worse a a) (htrans : ∀ {a b d}, worse a b → worse b d → worse a d)
    (hpos : ∀ {a b}, better a b = true → worse b a) (hneg : ∀ {a b}, better a b = false → worse a b)
    (hstart : ∀ page ∈ memory, better (whenRef page) start = true) (hnodup : memory.Nodup) (hne : 0 < memory.length) :
    ∃ best page, replaceIdx better start whenRef memory memory.length = some best ∧
      pop memory best.2 = some (page, memory.erase page) ∧ page ∈ memory ∧
        ∀ p ∈ memory, worse (whenRef p) (whenRef page) := by
  obtain ⟨k, hk⟩ : ∃ k, memory.length = k + 1 := ⟨memory.length - 1, by omega⟩
  obtain ⟨best, hbest, i, page, hi, rfl, hworse⟩ :=
    replaceIdx_spec worse hrefl htrans hpos hneg hstart (Nat.lt_of_lt_of_eq (Nat.lt_succ_self k) hk.symm)
  obtain ⟨hlt, rfl⟩ := List.getElem?_eq_some_iff.1 hi
  rw [← hk] at hbest hworse
  rw [List.take_length] at hworse
  exact ⟨_, _, hbest, pop_spec hnodup hlt, List.getElem_mem hlt, hworse⟩

/-- **Every policy finds a victim**, and OPT and UNOPT find the farthest and the soonest page. -/
theorem evict_spec {o : Options} {fuel : Nat} {before rest : List Int} {n : Int} {s : State} (h : Valid o s)
    (hpos : 0 < s.memory.length) (hindex : s.addrIndex = before.length)
    (hfuel : o.cachesize.toNat * (max 1 o.clockbits).toNat < fuel) :
    ∃ e, evict o fuel (before ++ n :: rest) s = some e ∧ Evicts o rest s e := by
  have hcount := h.count_eq
  -- what holds for a page that is popped
  have hpopped {page : Int} {drawn : Nat} (hclock : o.policy ≠ .CLOCK) (hmem : page ∈ s.memory)
      (hrule : rule o.policy s.memory.toFinset rest page)
      (hold : o.policy = .FIFO ∨ o.policy = .LRU → s.memory.erase page = s.memory.tail) :
      Evicts o rest s ⟨page, s.memory.erase page, s.ref, drawn⟩ :=
    ⟨hmem, rfl, h.bits.erase page hclock, hrule, hold⟩
  have hwhen (page : Int) :
      whenReferenced (before ++ n :: rest) s.addrIndex page = before.length + 1 + rest.idxOf page := by
    rw [hindex]
    exact whenReferenced_eq page
  have hzero : pop s.memory 0 = some (s.memory[0], s.memory.erase s.memory[0]) := pop_spec h.nodup hpos
  have hhead : s.memory.erase s.memory[0] = s.memory.tail := by
    rw [h.nodup.erase_getElem 0 hpos, List.eraseIdx_zero]
  cases hp : o.policy with
  | FIFO =>
    refine ⟨_, by simp only [evict, hp, hzero, Option.map_some]; rfl, ?_⟩
    exact hpopped (by simp [hp]) (List.getElem_mem hpos) (by rw [hp]; trivial) fun _ => hhead
  | LRU =>
    refine ⟨_, by simp only [evict, hp, hzero, Option.map_some]; rfl, ?_⟩
    exact hpopped (by simp [hp]) (List.getElem_mem hpos) (by rw [hp]; trivial) fun _ => hhead
  | MRU =>
    have hlt : s.memory.length - 1 < s.memory.length := by omega
    have hlast : ((s.count : Int) - 1) = (s.memory.length - 1 : Nat) := by omega
    refine ⟨_, by simp only [evict, hp, hlast, pop_spec h.nodup hlt, Option.map_some]; rfl, ?_⟩
    exact hpopped (by simp [hp]) (List.getElem_mem hlt) (by rw [hp]; trivial) (by simp [hp])
  | RAND =>
    have hlt : o.random.index s.drawn s.count < s.memory.length := hcount ▸ o.random.index_lt _ _ (hcount ▸ hpos)
    refine ⟨_, by simp only [evict, hp, pop_spec h.nodup hlt, Option.map_some]; rfl, ?_⟩
    exact hpopped (by simp [hp]) (List.getElem_mem hlt) (by rw [hp]; trivial) (by simp [hp])
  | CLOCK =>
    have hlen : s.memory.length ≤ o.cachesize.toNat := by
      have := h.count_le
      omega
    have hleft : left s.memory s.ref < fuel :=
      Nat.lt_of_le_of_lt (Nat.le_trans (left_le h.bits) (Nat.mul_le_mul_right _ hlen)) hfuel
    obtain ⟨e, he, hmem, hmemory, hbits⟩ := scan_spec h.nodup hpos s.drawn h.bits hleft
    refine ⟨e, by simp only [evict, hp, hcount, he], hmem, hmemory, hbits, by rw [hp]; trivial, by simp [hp]⟩
  | OPT =>
    obtain ⟨best, page, hbest, hpop, hmem, hworse⟩ :=
      replaced (fun a b => decide (b ≤ a)) (-1) (whenReferenced (before ++ n :: rest) s.addrIndex) s.memory
        (fun a b => a ≤ b)
        (fun _ => Int.le_refl _) (fun hab hbd => Int.le_trans hab hbd) (fun h => of_decide_eq_true h)
        (fun h => Int.le_of_lt (Int.not_le.1 (of_decide_eq_false h))) (fun p _ => decide_eq_true (by omega))
        h.nodup hpos
    refine ⟨_, by simp only [evict, hp, hcount, hbest, Option.bind_eq_bind, Option.bind_some, hpop,
      Option.map_some]; rfl, ?_⟩
    apply hpopped (by simp [hp]) hmem _ (by simp [hp])
    rw [hp]
    intro q hq
    have := hworse q (List.mem_toFinset.1 hq)
    rw [hwhen, hwhen] at this
    omega
  | UNOPT =>
    have hbound (p : Int) : whenReferenced (before ++ n :: rest) s.addrIndex p < (before ++ n :: rest).length + 1 := by
      have := List.idxOf_le_length (a := p) (l := rest)
      rw [hwhen, List.length_append, List.length_cons]
      omega
    obtain ⟨best, page, hbest, hpop, hmem, hworse⟩ :=
      replaced (fun a b => decide (a < b)) ((before ++ n :: rest).length + 1)
        (whenReferenced (before ++ n :: rest) s.addrIndex) s.memory (fun a b => b ≤ a)
        (fun _ => Int.le_refl _) (fun hab hbd => Int.le_trans hbd hab)
        (fun h => Int.le_of_lt (of_decide_eq_true h)) (fun h => Int.not_lt.1 (of_decide_eq_false h))
        (fun p _ => decide_eq_true (by have := hbound p; omega)) h.nodup hpos
    refine ⟨_, by simp only [evict, hp, hcount, hbest, Option.bind_eq_bind, Option.bind_some, hpop,
      Option.map_some]; rfl, ?_⟩
    apply hpopped (by simp [hp]) hmem _ (by simp [hp])
    rw [hp]
    intro q hq
    have := hworse q (List.mem_toFinset.1 hq)
    rw [hwhen, hwhen] at this
    omega

/-! ## One reference -/

theorem Bits.touch {o : Options} {memory memory' : List Int} {ref : Int → Option Int} {n : Int} (h : Bits o memory ref)
    (hmem : ∀ p, p ∈ memory' ↔ p = n ∨ p ∈ memory) : Bits o memory' (touch o ref n) := by
  refine ⟨fun p hp => ?_, bounded_update h.bounded fun bits hbits => ?_, fun hclock p hp => (hmem p).2 ?_⟩
  · by_cases heq : p = n
    · subst heq
      exact ⟨_, Function.update_self _ _ _⟩
    · rw [PagingPolicy.touch, Function.update_of_ne heq]
      exact h.held p (((hmem p).1 hp).resolve_left heq)
  · rw [← Option.some.inj hbits]
    cases hn : ref n with
    | none =>
      show min 0 o.clockbits ≤ 1 ∧ (1 : Int) ≤ max 1 o.clockbits
      omega
    | some b =>
      have := h.bounded n b hn
      show min 0 o.clockbits ≤ (if b + 1 > o.clockbits then o.clockbits else b + 1) ∧
        (if b + 1 > o.clockbits then o.clockbits else b + 1) ≤ max 1 o.clockbits
      split <;> omega
  · by_cases heq : p = n
    · exact Or.inl heq
    · rw [PagingPolicy.touch, Function.update_of_ne heq] at hp
      exact Or.inr (h.only hclock p hp)

/-- What one reference does to the state. -/
structure Accessed (o : Options) (rest : List Int) (s : State) (n : Int) (s' : State) : Prop where
  valid : Valid o s'
  index : s'.addrIndex = s.addrIndex + 1
  moved :
    (n ∈ s.memory ∧ s'.hits = s.hits + 1 ∧ s'.miss = s.miss ∧ s'.memory.toFinset = s.memory.toFinset) ∨
    (n ∉ s.memory ∧ s'.hits = s.hits ∧ s'.miss = s.miss + 1 ∧ s.memory.length < o.cachesize.toNat ∧
      s'.memory.toFinset = insert n s.memory.toFinset) ∨
    (n ∉ s.memory ∧ s'.hits = s.hits ∧ s'.miss = s.miss + 1 ∧ s.memory.length = o.cachesize.toNat ∧
      ∃ p ∈ s.memory, rule o.policy s.memory.toFinset rest p ∧
        s'.memory.toFinset = insert n (s.memory.toFinset.erase p))
  fifo : o.policy = .FIFO → s'.memory = Recency.fifo o.cachesize.toNat s.memory n
  lru : o.policy = .LRU → s'.memory = Recency.lru o.cachesize.toNat s.memory n

theorem mem_concat {l : List Int} {p n : Int} : p ∈ l ++ [n] ↔ p = n ∨ p ∈ l := by
  rw [List.mem_append, List.mem_singleton, or_comm]

theorem nodup_concat {l : List Int} {n : Int} (hl : l.Nodup) (hn : n ∉ l) : (l ++ [n]).Nodup :=
  (List.perm_append_singleton n l).nodup_iff.2 (List.nodup_cons.2 ⟨hn, hl⟩)

theorem toFinset_concat (l : List Int) (n : Int) : (l ++ [n]).toFinset = insert n l.toFinset := by
  ext p
  simp

theorem access_hit {o : Options} {fuel : Nat} {addrList rest : List Int} {n : Int} {s : State} (h : Valid o s)
    (hhit : n ∈ s.memory) : ∃ s', access o fuel addrList s n = some s' ∧ Accessed o rest s n s' := by
  have hperm : (if o.policy = .LRU ∨ o.policy = .MRU then s.memory.erase n ++ [n] else s.memory).Perm s.memory := by
    split
    · exact (List.perm_append_singleton n _).trans (List.perm_cons_erase hhit).symm
    · exact List.Perm.refl _
  have hmem (p : Int) :
      p ∈ (if o.policy = .LRU ∨ o.policy = .MRU then s.memory.erase n ++ [n] else s.memory) ↔ p = n ∨ p ∈ s.memory := by
    rw [hperm.mem_iff]
    exact ⟨Or.inr, fun hp => hp.elim (fun heq => heq ▸ hhit) id⟩
  refine ⟨_, if_pos hhit, ?_⟩
  exact {
    valid := {
      count_eq := by rw [hperm.length_eq, h.count_eq]
      count_le := h.count_le
      nodup := hperm.nodup_iff.2 h.nodup
      bits := h.bits.touch hmem }
    index := rfl
    moved := Or.inl ⟨hhit, rfl, rfl, List.toFinset_eq_of_perm _ _ hperm⟩
    fifo := fun hp => by simp [hp, Recency.fifo, hhit]
    lru := fun hp => by simp [hp, Recency.lru, hhit] }

theorem access_room {o : Options} {fuel : Nat} {addrList rest : List Int} {n : Int} {s : State} (h : Valid o s)
    (hmiss : n ∉ s.memory) (hroom : (s.count : Int) ≠ o.cachesize) :
    ∃ s', access o fuel addrList s n = some s' ∧ Accessed o rest s n s' := by
  have hcount := h.count_eq
  have hle := h.count_le
  have hlen : s.memory.length < o.cachesize.toNat := by omega
  have hbring : s.memory ++ [n] = bring o.cachesize.toNat s.memory n := by rw [bring, if_neg (Nat.ne_of_lt hlen)]
  refine ⟨_, (if_neg hmiss).trans (if_neg hroom), ?_⟩
  exact {
    valid := {
      count_eq := by rw [hcount, List.length_append, List.length_singleton]
      count_le := by
        show ((s.count + 1 : Nat) : Int) ≤ o.cachesize
        omega
      nodup := nodup_concat h.nodup hmiss
      bits := h.bits.touch fun p => mem_concat }
    index := rfl
    moved := Or.inr (Or.inl ⟨hmiss, rfl, rfl, hlen, toFinset_concat _ _⟩)
    fifo := fun _ => by rw [Recency.fifo, if_neg hmiss, ← hbring]
    lru := fun _ => by rw [Recency.lru, if_neg hmiss, ← hbring] }

theorem access_full {o : Options} {fuel : Nat} {before rest : List Int} {n : Int} {s : State} (h : Valid o s)
    (hsize : 0 < o.cachesize) (hindex : s.addrIndex = before.length)
    (hfuel : o.cachesize.toNat * (max 1 o.clockbits).toNat < fuel) (hmiss : n ∉ s.memory)
    (hfull : (s.count : Int) = o.cachesize) :
    ∃ s', access o fuel (before ++ n :: rest) s n = some s' ∧ Accessed o rest s n s' := by
  have hcount := h.count_eq
  have hlen : s.memory.length = o.cachesize.toNat := by omega
  obtain ⟨e, he, hheld, hmemory, hbits, hrule, hold⟩ :
      ∃ e, evict o fuel (before ++ n :: rest) s = some e ∧ Evicts o rest s e := evict_spec h (by omega) hindex hfuel
  have hn : n ∉ e.memory := fun hmem => hmiss (List.mem_of_mem_erase (hmemory ▸ hmem))
  have hassert : ¬(e.victim ≠ -1 ∧ e.victim ∈ e.memory ++ [n]) := by
    rintro ⟨-, hmem⟩
    rcases mem_concat.1 hmem with heq | hmem
    · exact hmiss (heq ▸ hheld)
    · rw [hmemory] at hmem
      exact (h.nodup.mem_erase_iff.1 hmem).1 rfl
  have hbring (hp : o.policy = .FIFO ∨ o.policy = .LRU) : e.memory ++ [n] = bring o.cachesize.toNat s.memory n := by
    rw [bring, if_pos hlen, hold hp]
  have haccess : access o fuel (before ++ n :: rest) s n = some { s with
      miss := s.miss + 1, memory := e.memory ++ [n], ref := touch o e.ref n, drawn := e.drawn,
      addrIndex := s.addrIndex + 1 } := by
    rw [access, if_neg hmiss, if_pos hfull, he, Option.bind_eq_bind, Option.bind_some]
    exact if_neg hassert
  refine ⟨_, haccess, ?_⟩
  exact {
    valid := {
      count_eq := by
        have := List.length_pos_of_mem hheld
        show s.count = (e.memory ++ [n]).length
        rw [hmemory, List.length_append, List.length_erase_of_mem hheld, List.length_singleton]
        omega
      count_le := h.count_le
      nodup := nodup_concat (hmemory ▸ h.nodup.erase _) hn
      bits := hbits.touch fun p => mem_concat }
    index := rfl
    moved := by
      refine Or.inr (Or.inr ⟨hmiss, rfl, rfl, hlen, e.victim, hheld, hrule, ?_⟩)
      show (e.memory ++ [n]).toFinset = _
      rw [toFinset_concat, hmemory]
      congr 1
      ext p
      simp [h.nodup.mem_erase_iff]
    fifo := fun hp => by
      rw [Recency.fifo, if_neg hmiss]
      exact hbring (Or.inl hp)
    lru := fun hp => by
      rw [Recency.lru, if_neg hmiss]
      exact hbring (Or.inr hp) }

/-- **One reference**: no operation raises an exception, and the assertion holds. -/
theorem access_spec {o : Options} {fuel : Nat} {before rest : List Int} {n : Int} {s : State} (h : Valid o s)
    (hsize : 0 < o.cachesize) (hindex : s.addrIndex = before.length)
    (hfuel : o.cachesize.toNat * (max 1 o.clockbits).toNat < fuel) :
    ∃ s', access o fuel (before ++ n :: rest) s n = some s' ∧ Accessed o rest s n s' := by
  by_cases hhit : n ∈ s.memory
  · exact access_hit h hhit
  · by_cases hfull : (s.count : Int) = o.cachesize
    · exact access_full h hsize hindex hfuel hhit hfull
    · exact access_room h hhit hfull

/-! ## All references -/

theorem valid_init (o : Options) (hsize : 0 < o.cachesize) : Valid o {} where
  count_eq := rfl
  count_le := Int.le_of_lt hsize
  nodup := List.nodup_nil
  bits := {
    held := fun _ h => absurd h List.not_mem_nil
    bounded := fun _ _ h => by cases h
    only := fun _ _ h => absurd rfl h }

/-- What serving `rest` from the state `s` does. -/
structure Served (o : Options) (rest : List Int) (s s' : State) : Prop where
  valid : Valid o s'
  total : s'.hits + s'.miss = s.hits + s.miss + rest.length
  demand : ∃ m, s'.miss = s.miss + m ∧ Demand (rule o.policy) o.cachesize.toNat s.memory.toFinset rest m
  fifo : o.policy = .FIFO → s'.memory = rest.foldl (Recency.fifo o.cachesize.toNat) s.memory ∧
    s'.miss = s.miss + misses (Recency.fifo o.cachesize.toNat) s.memory rest
  lru : o.policy = .LRU → s'.memory = rest.foldl (Recency.lru o.cachesize.toNat) s.memory ∧
    s'.miss = s.miss + misses (Recency.lru o.cachesize.toNat) s.memory rest

theorem Accessed.served {o : Options} {rest : List Int} {n : Int} {s s₁ s₂ : State} (hs : Valid o s)
    (h : Accessed o rest s n s₁) (h' : Served o rest s₁ s₂) : Served o (n :: rest) s s₂ := by
  have hcard : s.memory.toFinset.card = s.memory.length := List.toFinset_card_of_nodup hs.nodup
  have hmiss : s₁.miss = s.miss + if n ∈ s.memory then 0 else 1 := by
    rcases h.moved with ⟨hn, _, hm, _⟩ | ⟨hn, _, hm, _⟩ | ⟨hn, _, hm, _⟩ <;> simp [hn, hm]
  obtain ⟨m, hm, hdemand⟩ := h'.demand
  refine ⟨h'.valid, ?_, ?_, ?_, ?_⟩
  · have := h'.total
    rw [List.length_cons]
    rcases h.moved with ⟨_, hh, hm, _⟩ | ⟨_, hh, hm, _⟩ | ⟨_, hh, hm, _⟩ <;> omega
  · rcases h.moved with ⟨hn, _, hmoved, hset⟩ | ⟨hn, _, hmoved, hlen, hset⟩ | ⟨hn, _, hmoved, hlen, p, hp, hrule, hset⟩
    · rw [hset] at hdemand
      exact ⟨m, by omega, .hit (List.mem_toFinset.2 hn) hdemand⟩
    · rw [hset] at hdemand
      exact ⟨m + 1, by omega, .fill (by simpa using hn) (by omega) hdemand⟩
    · rw [hset] at hdemand
      exact ⟨m + 1, by omega, .replace (by simpa using hn) (by omega) (List.mem_toFinset.2 hp) hrule hdemand⟩
  · intro hp
    obtain ⟨hmemory, hmisses⟩ := h'.fifo hp
    rw [h.fifo hp] at hmemory hmisses
    exact ⟨hmemory, by rw [hmisses, hmiss, misses, Nat.add_assoc]⟩
  · intro hp
    obtain ⟨hmemory, hmisses⟩ := h'.lru hp
    rw [h.lru hp] at hmemory hmisses
    exact ⟨hmemory, by rw [hmisses, hmiss, misses, Nat.add_assoc]⟩

theorem served_from {o : Options} {fuel : Nat} (hsize : 0 < o.cachesize)
    (hfuel : o.cachesize.toNat * (max 1 o.clockbits).toNat < fuel) {addrList : List Int} (rest : List Int) :
    ∀ {before : List Int} {s : State}, addrList = before ++ rest → Valid o s → s.addrIndex = before.length →
      ∃ s', rest.foldlM (access o fuel addrList) s = some s' ∧ Served o rest s s' := by
  induction rest with
  | nil =>
    intro before s _ hs _
    exact ⟨s, rfl, hs, rfl, ⟨0, rfl, .done _⟩, fun _ => ⟨rfl, rfl⟩, fun _ => ⟨rfl, rfl⟩⟩
  | cons n rest ih =>
    intro before s hsplit hs hindex
    obtain ⟨s₁, haccess, hstep⟩ : ∃ s₁, access o fuel (before ++ n :: rest) s n = some s₁ ∧ Accessed o rest s n s₁ :=
      access_spec hs hsize hindex hfuel
    rw [← hsplit] at haccess
    have hnext : addrList = (before ++ [n]) ++ rest := by rw [hsplit, List.append_assoc, List.singleton_append]
    obtain ⟨s₂, hrun, hserved⟩ := ih hnext hstep.valid (by
      rw [hstep.index, hindex, List.length_append, List.length_singleton])
    refine ⟨s₂, ?_, hstep.served hs hserved⟩
    rw [List.foldlM_cons, haccess]
    exact hrun

/-- **Every run ends without an exception, whatever the random numbers are, and is demand paging.** -/
theorem run_spec {o : Options} {fuel : Nat} (hsize : 0 < o.cachesize)
    (hfuel : o.cachesize.toNat * (max 1 o.clockbits).toNat < fuel) (addrList : List Int) :
    ∃ s, run o fuel addrList = some s ∧ Served o addrList {} s :=
  served_from hsize hfuel addrList (List.nil_append addrList).symm (valid_init o hsize) rfl

end OstepHw.PagingPolicy
