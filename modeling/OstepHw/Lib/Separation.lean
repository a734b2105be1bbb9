import Mathlib.Algebra.Order.Quantale
import Mathlib.Algebra.BigOperators.Group.List.Basic
import Mathlib.Data.Set.Lattice
import Mathlib.Order.ConditionallyCompleteLattice.Basic
import Mathlib.Order.CompletePartialOrder

/-!
# Separation logic for programs that call `malloc` and `free`

A memory is the list of all blocks that have ever been allocated; the address of a block is its place in that list,
counted from 1, and address 0 is `NULL`.  A block that has been freed stays free: a pointer to it points to nothing for
ever.  A program is undefined (`none`) when it reads, writes or frees what is not allocated.

* `Assn` — assertions on heaps, a commutative quantale: `P * Q` is the separating conjunction, `1` the empty heap, `⨆`
  the existential quantifier;
* `cell`, `fact` — one block, and a fact that needs no block;
* `Triple` — **total correctness with the frame built in**: from `P` the program is defined and ends in `Q`, and what
  lies beside `P` is left alone;
* `Triple.bind_frame`, `Triple.iSup`, `Triple.fact_mul`, … — the rules; `Triple.malloc_step`, `Triple.free_step`,
  `Reads.read`, `Triple.write_step` are those of the single steps;
* `Reads` — a program that only finds something out;
* `Triple.forM`, `Triple.forM_range` — a loop over a list or up to a bound, with an invariant;
* `Triple.run`, `Triple.heap_eq` — **a program that starts with nothing leaves the heap as it was, but for what it has
  made**.
-/

set_option autoImplicit false

namespace OstepHw.Separation

abbrev Addr := Nat

abbrev Heap (V : Type) := Addr → Option V

variable {V α β : Type}

/-! ## Heaps -/

def Apart (h k : Heap V) : Prop := ∀ a, h a = none ∨ k a = none

def join (h k : Heap V) : Heap V := fun a => (h a).or (k a)

variable {h k l : Heap V}

theorem Apart.symm (hk : Apart h k) : Apart k h := fun a => (hk a).symm

theorem join_eq_none {a : Addr} : join h k a = none ↔ h a = none ∧ k a = none := Option.or_eq_none_iff

theorem join_comm (hk : Apart h k) : join h k = join k h := by
  funext a
  rcases hk a with ha | ha <;> simp [join, ha]

theorem join_assoc : join (join h k) l = join h (join k l) := funext fun _ => Option.or_assoc

theorem apart_join_left : Apart (join h k) l ↔ Apart h l ∧ Apart k l := by
  simp only [Apart, join_eq_none, ← forall_and]
  refine forall_congr' fun a => ?_
  tauto

theorem apart_join_right : Apart h (join k l) ↔ Apart h k ∧ Apart h l := by
  rw [show Apart h (join k l) ↔ Apart (join k l) h from ⟨Apart.symm, Apart.symm⟩, apart_join_left]
  exact and_congr ⟨Apart.symm, Apart.symm⟩ ⟨Apart.symm, Apart.symm⟩

/-! ## Assertions -/

def Assn (V : Type) : Type := Set (Heap V)

namespace Assn

instance : CompleteLattice (Assn V) := inferInstanceAs (CompleteLattice (Set (Heap V)))

/-- The heap is as the assertion says. -/
def Holds (P : Assn V) (h : Heap V) : Prop := Set.Mem P h

def mk (p : Heap V → Prop) : Assn V := {h | p h}

variable {P P' Q R F : Assn V}

theorem ext_holds (hPQ : ∀ h, P.Holds h ↔ Q.Holds h) : P = Q := Set.ext hPQ

theorem holds_sSup {S : Set (Assn V)} : (sSup S).Holds h ↔ ∃ P ∈ S, P.Holds h := Set.mem_sUnion

theorem holds_iSup {ι : Sort*} {P : ι → Assn V} : (⨆ i, P i).Holds h ↔ ∃ i, (P i).Holds h := Set.mem_iUnion

theorem holds_sup : (P ⊔ Q).Holds h ↔ P.Holds h ∨ Q.Holds h := Iff.rfl

/-- `P * Q`: the heap has two parts, one for `P` and one for `Q`. -/
instance : Mul (Assn V) where
  mul P Q := mk fun h => ∃ h₁ h₂, Apart h₁ h₂ ∧ join h₁ h₂ = h ∧ P.Holds h₁ ∧ Q.Holds h₂

/-- The empty heap. -/
instance : One (Assn V) where
  one := mk fun h => h = fun _ => none

theorem holds_mul : (P * Q).Holds h ↔ ∃ h₁ h₂, Apart h₁ h₂ ∧ join h₁ h₂ = h ∧ P.Holds h₁ ∧ Q.Holds h₂ := Iff.rfl

theorem star_comm (P Q : Assn V) : P * Q = Q * P := by
  have hswap (P Q : Assn V) (h : Heap V) : (P * Q).Holds h → (Q * P).Holds h := by
    rintro ⟨h₁, h₂, hapart, rfl, hP, hQ⟩
    exact ⟨h₂, h₁, hapart.symm, (join_comm hapart).symm, hQ, hP⟩
  exact ext_holds fun h => ⟨hswap P Q h, hswap Q P h⟩

theorem star_assoc_le (P Q R : Assn V) : P * Q * R ≤ P * (Q * R) := by
  rintro h ⟨h₁₂, h₃, hapart, rfl, ⟨h₁, h₂, hapart', rfl, hP, hQ⟩, hR⟩
  obtain ⟨h13, h23⟩ := apart_join_left.1 hapart
  exact ⟨h₁, join h₂ h₃, apart_join_right.2 ⟨hapart', h13⟩, join_assoc.symm, hP, h₂, h₃, h23, rfl, hQ, hR⟩

theorem star_assoc (P Q R : Assn V) : P * Q * R = P * (Q * R) := by
  refine le_antisymm (star_assoc_le P Q R) ?_
  calc P * (Q * R) = R * Q * P := by rw [star_comm P, star_comm Q]
    _ ≤ R * (Q * P) := star_assoc_le R Q P
    _ = P * Q * R := by rw [star_comm R, star_comm Q]

theorem one_star (P : Assn V) : 1 * P = P := by
  refine ext_holds fun h => ⟨?_, fun hP => ⟨fun _ => none, h, fun _ => .inl rfl, rfl, rfl, hP⟩⟩
  rintro ⟨h₁, h₂, -, rfl, rfl, hP⟩
  exact hP

instance : CommMonoid (Assn V) where
  mul_comm := star_comm
  mul_assoc := star_assoc
  one_mul := one_star
  mul_one P := (star_comm P 1).trans (one_star P)

theorem star_sSup (P : Assn V) (S : Set (Assn V)) : P * sSup S = ⨆ Q ∈ S, P * Q := by
  refine ext_holds fun h => ?_
  simp only [holds_iSup]
  constructor
  · rintro ⟨h₁, h₂, hapart, rfl, hP, hS⟩
    obtain ⟨Q, hQ, hh⟩ := holds_sSup.1 hS
    exact ⟨Q, hQ, h₁, h₂, hapart, rfl, hP, hh⟩
  · rintro ⟨Q, hQ, h₁, h₂, hapart, rfl, hP, hh⟩
    exact ⟨h₁, h₂, hapart, rfl, hP, holds_sSup.2 ⟨Q, hQ, hh⟩⟩

instance : IsQuantale (Assn V) where
  mul_sSup_distrib := star_sSup
  sSup_mul_distrib S P := by simp only [mul_comm _ P, star_sSup]

theorem Holds.mono (hPQ : P ≤ Q) (hP : P.Holds h) : Q.Holds h := hPQ hP

/-- A fact that needs no memory. -/
def fact (p : Prop) : Assn V := mk fun h => p ∧ h = fun _ => none

theorem holds_fact_mul {p : Prop} : (fact p * P).Holds h ↔ p ∧ P.Holds h := by
  constructor
  · rintro ⟨h₁, h₂, -, rfl, ⟨hp, rfl⟩, hP⟩
    exact ⟨hp, hP⟩
  · rintro ⟨hp, hP⟩
    exact ⟨fun _ => none, h, fun _ => .inl rfl, rfl, ⟨hp, rfl⟩, hP⟩

theorem fact_of {p : Prop} (hp : p) : (fact p : Assn V) = 1 :=
  ext_holds fun _ => and_iff_right hp

theorem le_fact_mul {p : Prop} (hp : p) (hP : P ≤ Q) : P ≤ fact p * Q := by
  rwa [fact_of hp, one_mul]

/-- The heap is this one. -/
def exactly (h : Heap V) : Assn V := mk fun k => k = h

/-- The heap is one block. -/
def cell (a : Addr) (v : V) : Assn V := mk fun h => a ≠ 0 ∧ h = Function.update (fun _ => none) a (some v)

/-- A heap with the block `a`, seen from that block. -/
theorem holds_cell_mul {a : Addr} {v : V} :
    (cell a v * P).Holds h ↔ a ≠ 0 ∧ h a = some v ∧ P.Holds (Function.update h a none) := by
  constructor
  · rintro ⟨h₁, h₂, hapart, rfl, ⟨ha, rfl⟩, hP⟩
    have hnone : h₂ a = none := (hapart a).resolve_left (by simp)
    refine ⟨ha, by simp [join], ?_⟩
    convert hP
    funext b
    by_cases hb : b = a
    · subst hb
      simp [hnone]
    · simp [hb, join]
  · rintro ⟨ha, hv, hP⟩
    refine ⟨Function.update (fun _ => none) a (some v), Function.update h a none, fun b => ?_, ?_, ⟨ha, rfl⟩, hP⟩
    · by_cases hb : b = a
      · exact .inr (by simp [hb])
      · exact .inl (by simp [hb])
    · funext b
      by_cases hb : b = a
      · subst hb
        simp [join, hv]
      · simp [join, hb]

end Assn

/-! ## Programs -/

/-- All blocks that have been allocated; a freed block is `none`. -/
structure Mem (V : Type) where
  blocks : List (Option V)

def Mem.heap (m : Mem V) : Heap V
  | 0 => none
  | a + 1 => m.blocks[a]?.join

theorem heap_set {m : Mem V} {a : Addr} {v : V} (ha : m.heap a = some v) (x : Option V) :
    (Mem.mk (m.blocks.set (a - 1) x)).heap = Function.update m.heap a x := by
  cases a with
  | zero => cases ha
  | succ a =>
    have hlt : a < m.blocks.length := by
      by_contra hge
      rw [Mem.heap, List.getElem?_eq_none (Nat.le_of_not_lt hge)] at ha
      cases ha
    funext b
    cases b with
    | zero => rfl
    | succ b =>
      by_cases hb : b = a
      · subst hb
        simp [Mem.heap, hlt]
      · rw [Function.update_of_ne (by simpa using hb)]
        exact congrArg Option.join (List.getElem?_set_ne (Ne.symm hb))

theorem heap_append (m : Mem V) (v : V) :
    (Mem.mk (m.blocks ++ [some v])).heap = Function.update m.heap (m.blocks.length + 1) (some v) := by
  funext b
  cases b with
  | zero => rfl
  | succ b =>
    by_cases hb : b = m.blocks.length
    · subst hb
      simp [Mem.heap]
    · rw [Function.update_of_ne (by simpa using hb), Mem.heap, Mem.heap, List.getElem?_append]
      split
      · rfl
      · rw [List.getElem?_eq_none (l := m.blocks) (by omega), List.getElem?_eq_none (by simp; omega)]

theorem heap_length (m : Mem V) : m.heap (m.blocks.length + 1) = none := by
  simp [Mem.heap]

/-- A program that allocates and frees; `none` when what it does is undefined. -/
abbrev HeapM (V : Type) := StateT (Mem V) Option

/-- `malloc`, with what is stored in the new block at once. -/
def malloc (v : V) : HeapM V Addr := fun m => some (m.blocks.length + 1, ⟨m.blocks ++ [some v]⟩)

/-- `free`, which does nothing for `NULL`. -/
def free (a : Addr) : HeapM V Unit := fun m =>
  if a = 0 then some ((), m) else (m.heap a).map fun _ => ((), ⟨m.blocks.set (a - 1) none⟩)

/-- Reads a part of a block. -/
def read (a : Addr) (proj : V → Option β) : HeapM V β := fun m => ((m.heap a).bind proj).map fun b => (b, m)

/-- Writes a part of a block. -/
def write (a : Addr) (upd : V → Option V) : HeapM V Unit := fun m =>
  ((m.heap a).bind upd).map fun v => ((), ⟨m.blocks.set (a - 1) (some v)⟩)

/-! ## Triples -/

/-- From `P` the program is defined and ends in `Q`, whatever lies beside `P`. -/
def Triple (P : Assn V) (c : HeapM V α) (Q : α → Assn V) : Prop :=
  ∀ (F : Assn V) (m : Mem V), (P * F).Holds m.heap → ∃ r m', c m = some (r, m') ∧ (Q r * F).Holds m'.heap

namespace Triple

variable {P P' F : Assn V} {c : HeapM V α} {f : α → HeapM V β} {Q Q' : α → Assn V} {R : β → Assn V}

theorem of_le (hP : P' ≤ P) (hc : Triple P c Q) : Triple P' c Q := fun F _ hm => hc F _ (hm.mono (mul_le_mul_left hP F))

theorem of_eq (hP : P' = P) (hc : Triple P c Q) : Triple P' c Q := hP ▸ hc

theorem post_le (hQ : ∀ r, Q r ≤ Q' r) (hc : Triple P c Q) : Triple P c Q' := by
  intro F m hm
  obtain ⟨r, m', hrun, hm'⟩ := hc F m hm
  exact ⟨r, m', hrun, hm'.mono (mul_le_mul_left (hQ r) F)⟩

theorem frame (hc : Triple P c Q) (F : Assn V) : Triple (P * F) c fun r => Q r * F := by
  intro G m hm
  rw [mul_assoc] at hm
  obtain ⟨r, m', hrun, hm'⟩ := hc (F * G) m hm
  exact ⟨r, m', hrun, by rwa [mul_assoc]⟩

theorem pure {r : α} (hP : P ≤ Q r) : Triple P (Pure.pure r : HeapM V α) Q :=
  fun F m hm => ⟨r, m, rfl, hm.mono (mul_le_mul_left hP F)⟩

theorem bind (hc : Triple P c Q) (hf : ∀ r, Triple (Q r) (f r) R) : Triple P (c >>= f) R := by
  intro F m hm
  obtain ⟨r, m', hrun, hm'⟩ := hc F m hm
  obtain ⟨r', m'', hrun', hm''⟩ := hf r F m' hm'
  exact ⟨r', m'', (congrArg (Option.bind · _) hrun).trans hrun', hm''⟩

/-- The rule for a call: the rest of the memory stands beside it. -/
theorem bind_frame (hc : Triple P c Q) (hf : ∀ r, Triple (Q r * F) (f r) R) : Triple (P * F) (c >>= f) R :=
  (hc.frame F).bind hf

theorem iSup {ι : Type} {P : ι → Assn V} (hc : ∀ i, Triple (P i) c Q) : Triple (⨆ i, P i) c Q := by
  intro F m hm
  rw [Quantale.iSup_mul_distrib] at hm
  obtain ⟨i, hi⟩ := Assn.holds_iSup.1 hm
  exact hc i F m hi

theorem iSup_mul {ι : Type} {P : ι → Assn V} (hc : ∀ i, Triple (P i * F) c Q) : Triple ((⨆ i, P i) * F) c Q :=
  of_eq Quantale.iSup_mul_distrib (iSup hc)

theorem bot : Triple ⊥ c Q := of_eq (iSup_of_empty fun i : Empty => i.elim).symm (iSup fun i => i.elim)

theorem sup_mul (hl : Triple (P * F) c Q) (hr : Triple (P' * F) c Q) : Triple ((P ⊔ P') * F) c Q := by
  intro G m hm
  rw [Quantale.sup_mul_distrib, Quantale.sup_mul_distrib] at hm
  rcases Assn.holds_sup.1 hm with hm | hm
  · exact hl G m hm
  · exact hr G m hm

theorem fact_mul {p : Prop} (hc : p → Triple P c Q) : Triple (Assn.fact p * P) c Q := by
  intro F m hm
  rw [mul_assoc] at hm
  obtain ⟨hp, hm⟩ := Assn.holds_fact_mul.1 hm
  exact hc hp F m hm

/-- What follows from `P` may be used. -/
theorem of_holds {p : Prop} (hP : ∀ h, P.Holds h → p) (hc : p → Triple (P * F) c Q) : Triple (P * F) c Q := by
  intro G m hm
  obtain ⟨_, -, -, -, ⟨h, -, -, -, hh, -⟩, -⟩ := Assn.holds_mul.1 hm
  exact hc (hP h hh) G m hm

/-! ### Single steps -/

variable {a : Addr} {v w : V} {b : β} {g : β → HeapM V α} {proj : V → Option β} {upd : V → Option V}

theorem malloc_step : Triple (1 : Assn V) (malloc v) fun a => Assn.cell a v := by
  intro F m hm
  rw [one_mul] at hm
  refine ⟨_, _, rfl, Assn.holds_cell_mul.2 ⟨Nat.succ_ne_zero _, ?_, ?_⟩⟩
  · rw [heap_append, Function.update_self]
  · rwa [heap_append, Function.update_idem, ← heap_length m, Function.update_eq_self]

theorem malloc_bind {f : Addr → HeapM V α} (hf : ∀ a, Triple (Assn.cell a v * P) (f a) Q) :
    Triple P (malloc v >>= f) Q :=
  of_eq (one_mul P).symm (bind_frame malloc_step hf)

theorem free_step : Triple (Assn.cell a v) (free a) fun _ => 1 := by
  intro F m hm
  obtain ⟨ha, hv, hm⟩ := Assn.holds_cell_mul.1 hm
  refine ⟨(), ⟨m.blocks.set (a - 1) none⟩, by rw [free, if_neg ha, hv]; rfl, ?_⟩
  rwa [heap_set hv, one_mul]

theorem free_bind {f : Unit → HeapM V α} (hf : Triple P (f ()) Q) : Triple (Assn.cell a v * P) (free a >>= f) Q :=
  bind_frame free_step fun _ => of_eq (one_mul P) hf

theorem free_null_bind {f : Unit → HeapM V α} (hf : Triple P (f ()) Q) : Triple P (free 0 >>= f) Q :=
  bind (Q := fun _ => P) (fun _ m hm => ⟨(), m, rfl, hm⟩) fun _ => hf

theorem write_step (hw : upd v = some w) : Triple (Assn.cell a v) (write a upd) fun _ => Assn.cell a w := by
  intro F m hm
  obtain ⟨ha, hv, hm⟩ := Assn.holds_cell_mul.1 hm
  refine ⟨(), ⟨m.blocks.set (a - 1) (some w)⟩, by rw [write, hv, Option.bind_some, hw]; rfl, ?_⟩
  rw [Assn.holds_cell_mul, heap_set hv, Function.update_self, Function.update_idem]
  exact ⟨ha, rfl, hm⟩

/-! ### Loops -/

/-- `I done` holds before the element behind `done` has its turn. -/
theorem forM {ι : Type} {body : ι → HeapM V Unit} (I : List ι → Assn V) (l : List ι)
    (hbody : ∀ done i rest, l = done ++ i :: rest → Triple (I done) (body i) fun _ => I (done ++ [i])) :
    Triple (I []) (l.forM body) fun _ => I l := by
  suffices hall : ∀ done rest, l = done ++ rest → Triple (I done) (rest.forM body) fun _ => I l from hall [] l rfl
  intro done rest
  induction rest generalizing done with
  | nil =>
    intro hl
    rw [hl, List.append_nil]
    exact pure le_rfl
  | cons i rest ih =>
    intro hl
    exact bind (hbody done i rest hl) fun _ => ih (done ++ [i]) (hl.trans (List.append_cons ..))

/-- `for (i = 0; i < n; i++)`. -/
theorem forM_range {body : Nat → HeapM V Unit} (I : Nat → Assn V) (n : Nat)
    (hbody : ∀ i < n, Triple (I i) (body i) fun _ => I (i + 1)) :
    Triple (I 0) ((List.range n).forM body) fun _ => I n := by
  have hloop := forM (fun done => I done.length) (List.range n) fun done i rest hl => by
    have hget : (List.range n)[done.length]? = some i := by simp [hl]
    obtain ⟨hlt, hi⟩ := List.getElem?_eq_some_iff.1 hget
    rw [List.getElem_range] at hi
    rw [List.length_range] at hlt
    rw [List.length_append, List.length_singleton, hi]
    exact hbody i (hi ▸ hlt)
  simpa only [List.length_nil, List.length_range] using hloop

/-! ### A program that starts with nothing -/

/-- The heap is the one before, and besides what the program has made. -/
theorem run (hc : Triple (1 : Assn V) c Q) (m : Mem V) :
    ∃ r m', c m = some (r, m') ∧ (Q r * Assn.exactly m.heap).Holds m'.heap :=
  hc (Assn.exactly m.heap) m (by rw [one_mul]; rfl)

theorem heap_eq (hc : Triple (1 : Assn V) c fun _ => 1) (m : Mem V) :
    ∃ r m', c m = some (r, m') ∧ m'.heap = m.heap := by
  obtain ⟨r, m', hrun, hm'⟩ := hc.run m
  rw [one_mul] at hm'
  exact ⟨r, m', hrun, hm'⟩

end Triple

/-! ### Programs that only read -/

/-- From `P` the program gives `b` and changes nothing. -/
def Reads (P : Assn V) (c : HeapM V β) (b : β) : Prop := Triple P c fun r => Assn.fact (r = b) * P

namespace Reads

variable {P P' F : Assn V} {c : HeapM V β} {b : β} {f : β → HeapM V α} {Q : α → Assn V}

theorem pure : Reads P (Pure.pure b : HeapM V β) b := Triple.pure (Assn.le_fact_mul rfl le_rfl)

theorem read {a : Addr} {v : V} {proj : V → Option β} (hb : proj v = some b) :
    Reads (Assn.cell a v) (read a proj) b := by
  intro F m hm
  obtain ⟨-, hv, -⟩ := Assn.holds_cell_mul.1 hm
  refine ⟨b, m, by rw [Separation.read, hv, Option.bind_some, hb]; rfl, ?_⟩
  rw [mul_assoc]
  exact Assn.holds_fact_mul.2 ⟨rfl, hm⟩

theorem of_eq (hP : P' = P) (hc : Reads P c b) : Reads P' c b := hP ▸ hc

theorem frame (hc : Reads P c b) (F : Assn V) : Reads (P * F) c b :=
  (Triple.frame hc F).post_le fun _ => (mul_assoc ..).le

theorem frame_left (hc : Reads P c b) (F : Assn V) : Reads (F * P) c b := of_eq (mul_comm ..) (hc.frame F)

theorem iSup {ι : Type} {P : ι → Assn V} (hc : ∀ i, Reads (P i) c b) : Reads (⨆ i, P i) c b :=
  Triple.iSup fun i => (hc i).post_le fun _ => mul_le_mul_right (le_iSup P i) _

theorem fact_mul {p : Prop} (hc : p → Reads P c b) : Reads (Assn.fact p * P) c b :=
  Triple.fact_mul fun hp => by
    rw [Assn.fact_of hp, one_mul]
    exact hc hp

theorem bind (hc : Reads P c b) (hf : Triple P (f b) Q) : Triple P (c >>= f) Q :=
  Triple.bind hc fun _ => Triple.fact_mul fun hr => hr ▸ hf

theorem comp {g : β → HeapM V α} {r : α} (hc : Reads P c b) (hg : Reads P (g b) r) : Reads P (c >>= g) r := hc.bind hg

theorem bind_frame (hc : Reads P c b) (hf : Triple (P * F) (f b) Q) : Triple (P * F) (c >>= f) Q :=
  (hc.frame F).bind hf

end Reads

end OstepHw.Separation
