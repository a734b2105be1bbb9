import OstepHw.Lib.CInt
import OstepHw.Lib.Machine

/-!
# `vector.h`: the dynamic array

Model of `14/vector.h`.  The block of the array is the list of its elements, and `none` is one that has not been
written; `realloc` succeeds, and keeps what the old and the new block have in common.  Each call also returns the
index at which it stores, with the capacity at that time.

* `Holds` — the array holds the elements of a stack;
* `Holds.insertAtEnd`, `Holds.deleteAtEnd` — what one call keeps, and `insertAtEnd_outside` the call that does not;
* `good_iff` — **the runs throughout which the array is a stack**.
-/

set_option autoImplicit false

namespace OstepHw.DynamicArray

open CInt Machine

structure Vector where
  data : List (Option Int)
  size : Int
  capacity : Int
deriving DecidableEq

/-- An assignment to an element, with the capacity at that time. -/
structure Store where
  index : Int
  capacity : Int
deriving DecidableEq

/-- `n * sizeof(int)`, which is of type `size_t`. -/
def bytes (n : Int) : Nat := (n % 2 ^ 64 * 4 % 2 ^ 64).toNat

def realloc (data : List (Option Int)) (size : Nat) : List (Option Int) :=
  data.take (size / 4) ++ List.replicate (size / 4 - data.length) none

/-- `data[i] = value`; what lies outside of the block is not part of the model. -/
def assign (data : List (Option Int)) (i : Int) (value : Int) : List (Option Int) :=
  if 0 ≤ i then data.set i.toNat (some value) else data

def vectorInsertAtEnd (v : Vector) (value : Int) : Vector × Store :=
  let v :=
    if v.size = v.capacity then
      let capacity := toInt (v.capacity * 2)
      { v with capacity, data := realloc v.data (bytes capacity) }
    else v
  ({ v with data := assign v.data v.size value, size := toInt (v.size + 1) }, ⟨v.size, v.capacity⟩)

def vectorDeleteAtEnd (v : Vector) : Vector × Store :=
  let size := toInt (v.size - 1)
  let data := assign v.data size 0
  let store := ⟨size, v.capacity⟩
  if size = v.capacity.tdiv 4 then
    let capacity := v.capacity.tdiv 2
    ({ data := realloc data (bytes capacity), size, capacity }, store)
  else ({ v with data, size }, store)

/-! ## One call -/

/-- The array holds the elements of the stack `xs`, and has room for as many as its capacity says. -/
structure Holds (v : Vector) (xs : List Int) : Prop where
  size_eq : v.size = xs.length
  fits : v.size ≤ v.capacity
  block : (v.data.length : Int) = v.capacity
  small : v.capacity < 2 ^ 31
  contents : v.data.take xs.length = xs.map some

/-- The element is one of the array. -/
def Store.Inside (s : Store) : Prop := 0 ≤ s.index ∧ s.index < s.capacity

instance (s : Store) : Decidable s.Inside := inferInstanceAs (Decidable (_ ∧ _))

variable {v : Vector} {xs : List Int} {x : Int}

theorem bytes_div {n : Nat} (hn : n < 2 ^ 31) : bytes n / 4 = n := by
  unfold bytes
  omega

theorem Holds.length_le (h : Holds v xs) : xs.length ≤ v.data.length := by
  have hfits := h.fits
  rw [h.size_eq, ← h.block] at hfits
  exact_mod_cast hfits

/-- A new capacity that is large enough. -/
theorem Holds.resize {n : Nat} (h : Holds v xs) (hle : xs.length ≤ n) (hn : n < 2 ^ 31) :
    Holds { v with data := realloc v.data (bytes n), capacity := n } xs where
  size_eq := h.size_eq
  fits := by
    show v.size ≤ n
    rw [h.size_eq]
    exact_mod_cast hle
  block := by
    show ((realloc v.data (bytes n)).length : Int) = n
    rw [realloc, bytes_div hn, List.length_append, List.length_take, List.length_replicate]
    omega
  small := by
    show (n : Int) < 2 ^ 31
    exact_mod_cast hn
  contents := by
    have hlen := h.length_le
    show (realloc v.data (bytes n)).take xs.length = xs.map some
    rw [realloc, bytes_div hn, List.take_append_of_le_length (by rw [List.length_take]; omega), List.take_take,
      Nat.min_eq_left hle, h.contents]

theorem Holds.push (h : Holds v xs) (hroom : v.size < v.capacity) :
    Holds { v with data := assign v.data v.size x, size := toInt (v.size + 1) } (xs ++ [x]) := by
  obtain ⟨hsize, -, hblock, hsmall, hcontents⟩ := h
  have hlt : xs.length < v.data.length := by omega
  have hnext : toInt (v.size + 1) = (xs ++ [x]).length := by
    rw [toInt_of_lt (by omega) (by omega), hsize, List.length_append, List.length_singleton, Int.natCast_add]
    rfl
  have hdata : assign v.data v.size x = v.data.set xs.length (some x) := by
    rw [assign, hsize, if_pos (Int.natCast_nonneg _), Int.toNat_natCast]
  rw [hnext, hdata]
  refine ⟨rfl, ?_, ?_, hsmall, ?_⟩
  · show ((xs ++ [x]).length : Int) ≤ v.capacity
    rw [List.length_append, List.length_singleton]
    omega
  · show ((v.data.set xs.length (some x)).length : Int) = v.capacity
    rw [List.length_set, hblock]
  · show (v.data.set xs.length (some x)).take (xs ++ [x]).length = (xs ++ [x]).map some
    have hset : xs.length < (v.data.set xs.length (some x)).length := by rwa [List.length_set]
    rw [List.length_append, List.length_singleton, List.take_succ_eq_append_getElem hset,
      List.take_set_of_le (Nat.le_refl _), hcontents, List.getElem_set_self, List.map_append]
    rfl

theorem Holds.pop (h : Holds v (xs ++ [x])) :
    Holds { v with data := assign v.data (toInt (v.size - 1)) 0, size := toInt (v.size - 1) } xs := by
  obtain ⟨hsize, hfits, hblock, hsmall, hcontents⟩ := h
  rw [List.length_append, List.length_singleton] at hsize hcontents
  have hlast : toInt (v.size - 1) = xs.length := by
    rw [toInt_of_lt (by omega) (by omega)]
    omega
  have hdata : assign v.data xs.length 0 = v.data.set xs.length (some 0) := by
    rw [assign, if_pos (Int.natCast_nonneg _), Int.toNat_natCast]
  rw [hlast, hdata]
  refine ⟨rfl, ?_, ?_, hsmall, ?_⟩
  · show (xs.length : Int) ≤ v.capacity
    omega
  · show ((v.data.set xs.length (some 0)).length : Int) = v.capacity
    rw [List.length_set, hblock]
  · show (v.data.set xs.length (some 0)).take xs.length = xs.map some
    have htake := congrArg (List.take xs.length) hcontents
    rw [List.take_take, Nat.min_eq_left (Nat.le_succ _), List.map_append,
      List.take_left' (List.length_map some)] at htake
    rw [List.take_set_of_le (Nat.le_refl _), htake]

/-- The calls that keep the array: one without room gets some. -/
def Room (v : Vector) : Prop := v.size = v.capacity → 0 < v.capacity ∧ v.capacity < 2 ^ 30

instance (v : Vector) : Decidable (Room v) := inferInstanceAs (Decidable (_ → _))

theorem Holds.insertAtEnd (h : Holds v xs) (hroom : Room v) :
    Holds (vectorInsertAtEnd v x).1 (xs ++ [x]) ∧ (vectorInsertAtEnd v x).2.Inside := by
  have hsize := h.size_eq
  have hblock := h.block
  unfold vectorInsertAtEnd
  by_cases hfull : v.size = v.capacity
  · obtain ⟨hpos, hlt⟩ := hroom hfull
    have hdouble : toInt (v.capacity * 2) = (2 * v.data.length : Nat) := by
      rw [toInt_of_lt (by omega) (by omega)]
      omega
    have hgrown : Holds { v with data := realloc v.data (bytes (2 * v.data.length : Nat)),
                                 capacity := (2 * v.data.length : Nat) } xs :=
      h.resize (Nat.le_trans h.length_le (Nat.le_mul_of_pos_left _ Nat.two_pos)) (by omega)
    rw [if_pos hfull, hdouble]
    refine ⟨hgrown.push ?_, ?_, ?_⟩
    · show v.size < (2 * v.data.length : Nat)
      omega
    · show 0 ≤ v.size
      omega
    · show v.size < (2 * v.data.length : Nat)
      omega
  · rw [if_neg hfull]
    have hlt : v.size < v.capacity := Int.lt_iff_le_and_ne.2 ⟨h.fits, hfull⟩
    refine ⟨h.push hlt, ?_, hlt⟩
    show 0 ≤ v.size
    omega

/-- Doubling a capacity of 0 gives no room, and doubling one of `2 ^ 30` a negative capacity. -/
theorem insertAtEnd_outside (h : Holds v xs) (hroom : ¬Room v) : ¬(vectorInsertAtEnd v x).2.Inside := by
  have hblock := h.block
  have hsmall := h.small
  obtain ⟨hfull, hcap⟩ := Classical.not_imp.1 hroom
  unfold vectorInsertAtEnd
  rw [if_pos hfull]
  rintro ⟨-, hinside⟩
  change v.size < toInt (v.capacity * 2) at hinside
  by_cases hzero : v.capacity = 0
  · rw [hfull, hzero] at hinside
    exact absurd hinside (by decide)
  · have hneg : toInt (v.capacity * 2) < 0 := toInt_lt_zero (by omega) (by omega)
    omega

theorem Holds.deleteAtEnd (h : Holds v xs) (hpos : 0 < v.size) :
    Holds (vectorDeleteAtEnd v).1 xs.dropLast ∧ (vectorDeleteAtEnd v).2.Inside := by
  have hsize := h.size_eq
  have hblock := h.block
  have hfits := h.fits
  have hsmall := h.small
  have hne : xs ≠ [] := by
    rintro rfl
    exact absurd hpos (by rw [hsize]; decide)
  obtain ⟨ys, y, rfl⟩ := (List.eq_nil_or_concat xs).resolve_left hne
  rw [List.concat_eq_append] at h hsize ⊢
  rw [List.length_append, List.length_singleton] at hsize
  rw [List.dropLast_concat]
  have hpop := h.pop
  have hlast : toInt (v.size - 1) = ys.length := by
    rw [toInt_of_lt (by omega) (by omega)]
    omega
  have hinside : Store.Inside ⟨toInt (v.size - 1), v.capacity⟩ := by
    rw [hlast]
    exact ⟨Int.natCast_nonneg _, by show (ys.length : Int) < v.capacity; omega⟩
  have hquarter : v.capacity.tdiv 4 = v.capacity / 4 := Int.tdiv_eq_ediv_of_nonneg (by omega)
  have hhalf : v.capacity.tdiv 2 = (v.data.length / 2 : Nat) := by
    rw [Int.tdiv_eq_ediv_of_nonneg (by omega)]
    omega
  unfold vectorDeleteAtEnd
  by_cases hshrink : toInt (v.size - 1) = v.capacity.tdiv 4
  · rw [if_pos hshrink, hhalf]
    exact ⟨hpop.resize (by omega) (by omega), hinside⟩
  · rw [if_neg hshrink]
    exact ⟨hpop, hinside⟩

/-! ## Runs -/

/-- The array, what has been assigned, and the stack that it stands for. -/
structure State where
  vector : Vector
  stores : List Store
  stack : List Int

inductive Call
  | insertAtEnd (value : Int)
  | deleteAtEnd

/-- An element is only deleted when there is one. -/
def Allowed (v : Vector) : Call → Prop
  | .insertAtEnd _ => True
  | .deleteAtEnd => 0 < v.size

instance (v : Vector) : (c : Call) → Decidable (Allowed v c)
  | .insertAtEnd _ => inferInstanceAs (Decidable True)
  | .deleteAtEnd => inferInstanceAs (Decidable (0 < v.size))

def call (v : Vector) : Call → Vector × Store
  | .insertAtEnd value => vectorInsertAtEnd v value
  | .deleteAtEnd => vectorDeleteAtEnd v

def Call.onStack (stack : List Int) : Call → List Int
  | .insertAtEnd value => stack ++ [value]
  | .deleteAtEnd => stack.dropLast

def step (s : State) (c : Call) : Option State :=
  if Allowed s.vector c then
    some ⟨(call s.vector c).1, s.stores ++ [(call s.vector c).2], c.onStack s.stack⟩
  else none

/-- The vector of `vector.c`. -/
def init : State := ⟨⟨[some 4], 1, 1⟩, [], [4]⟩

/-- What is expected of the array in every state. -/
structure Good (s : State) : Prop where
  fits : s.vector.size ≤ s.vector.capacity
  inside : ∀ w ∈ s.stores, w.Inside
  size_eq : s.vector.size = s.stack.length
  contents : s.vector.data.take s.stack.length = s.stack.map some

/-- An insertion with room, or a deletion. -/
def HasRoom (s : State) : Call → Prop
  | .insertAtEnd _ => Room s.vector
  | .deleteAtEnd => True

variable {s s' : State} {c : Call}

/-- As long as all assignments went inside, the array holds the stack. -/
def Inv (s : State) : Prop := (∀ w ∈ s.stores, w.Inside) → Holds s.vector s.stack

theorem inv_init : Inv init := fun _ => ⟨rfl, by decide, rfl, by decide, rfl⟩

theorem good_iff_inside (hinv : Inv s) : Good s ↔ ∀ w ∈ s.stores, w.Inside :=
  ⟨fun h => h.inside, fun h => ⟨(hinv h).fits, h, (hinv h).size_eq, (hinv h).contents⟩⟩

/-- A call keeps the array and assigns inside it if and only if there is room. -/
theorem Holds.call (h : Holds s.vector s.stack) (hallowed : Allowed s.vector c) :
    HasRoom s c ∧ (call s.vector c).2.Inside ∧ Holds (call s.vector c).1 (c.onStack s.stack) ∨
      ¬HasRoom s c ∧ ¬(call s.vector c).2.Inside := by
  cases c with
  | insertAtEnd value =>
    by_cases hroom : Room s.vector
    · obtain ⟨hholds, hinside⟩ := h.insertAtEnd (x := value) hroom
      exact .inl ⟨hroom, hinside, hholds⟩
    · exact .inr ⟨hroom, insertAtEnd_outside h hroom⟩
  | deleteAtEnd =>
    obtain ⟨hholds, hinside⟩ := h.deleteAtEnd hallowed
    exact .inl ⟨trivial, hinside, hholds⟩

theorem step_eq_some (hstep : step s c = some s') :
    Allowed s.vector c ∧ s' = ⟨(call s.vector c).1, s.stores ++ [(call s.vector c).2], c.onStack s.stack⟩ := by
  unfold step at hstep
  split at hstep
  next hallowed =>
    cases hstep
    exact ⟨hallowed, rfl⟩
  next => cases hstep

theorem inv_step (hinv : Inv s) (hstep : step s c = some s') : Inv s' := by
  obtain ⟨hallowed, rfl⟩ := step_eq_some hstep
  intro hall
  rw [List.forall_mem_append, List.forall_mem_singleton] at hall
  rcases (hinv hall.1).call hallowed with ⟨_, _, hholds⟩ | ⟨_, hout⟩
  · exact hholds
  · exact absurd hall.2 hout

theorem good_step (hinv : Inv s) (hgood : Good s) (hstep : step s c = some s') : Good s' ↔ HasRoom s c := by
  rw [good_iff_inside (inv_step hinv hstep)]
  obtain ⟨hallowed, rfl⟩ := step_eq_some hstep
  rw [List.forall_mem_append, List.forall_mem_singleton, and_iff_right hgood.inside]
  rcases (hinv hgood.inside).call hallowed with ⟨hroom, hin, _⟩ | ⟨hroom, hout⟩
  · exact iff_of_true hin hroom
  · exact iff_of_false hout hroom

/-- **The array is a stack throughout a run if and only if every insertion finds room**, which one into the capacity 0
does not. -/
theorem good_iff (calls : List Call) : Along step Good init calls ↔ StepsMeet step HasRoom init calls :=
  along_iff_stepsMeet (fun _ _ _ => inv_step) (fun _ _ _ => good_step) inv_init
    ((good_iff_inside inv_init).2 fun _ h => absurd h (List.not_mem_nil))

/-- Deleting the first element and inserting another stores outside of the array. -/
theorem empty_vector_overflows : ¬∀ calls : List Call, Along step Good init calls := by
  intro h
  have hgood := ((h [.deleteAtEnd, .insertAtEnd 5]).2 _ rfl).2 _ rfl
  exact absurd hgood.fits (by decide)

end OstepHw.DynamicArray
