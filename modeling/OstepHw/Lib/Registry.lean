import Mathlib.Logic.Function.Basic

/-!
# Objects registered under names

A table of names, and the objects that have been created under them.  An object keeps its number for ever, also when
its name has been removed or given to another one, so that a new object can be told from the old ones.

* `create`, `remove` — a new object under a name, and a name without its object;
* `Renewed` — what there is after a new object has been put under a name, whether or not there was one before;
* `create_renewed`, `remove_create_renewed` — the two ways to get there;
* `Renewed.named_eq_none` — the names that are free afterwards.
-/

set_option autoImplicit false

namespace OstepHw

structure Registry (κ β : Type) where
  /-- The contents of all objects in the order of their creation; the number of an object is its place here. -/
  objects : List β
  named : κ → Option Nat
  existing : ∀ k i, named k = some i → i < objects.length

namespace Registry

variable {κ β : Type}

def empty : Registry κ β := ⟨[], fun _ => none, fun _ _ h => by cases h⟩

/-- What an object holds; `none` for a number that no object has had so far. -/
def content (r : Registry κ β) (i : Nat) : Option β := r.objects[i]?

/-- The number of the next object. -/
def next (r : Registry κ β) : Nat := r.objects.length

theorem content_next (r : Registry κ β) : r.content r.next = none := List.getElem?_eq_none (Nat.le_refl _)

variable [DecidableEq κ]

def create (r : Registry κ β) (k : κ) (b : β) : Registry κ β where
  objects := r.objects ++ [b]
  named := Function.update r.named k (some r.next)
  existing := by
    intro k' i h
    rw [List.length_append, List.length_singleton]
    by_cases hk : k' = k
    · rw [hk, Function.update_self, Option.some.injEq] at h
      exact h ▸ Nat.lt_succ_self _
    · rw [Function.update_of_ne hk] at h
      exact Nat.lt_succ_of_lt (r.existing k' i h)

def remove (r : Registry κ β) (k : κ) : Registry κ β where
  objects := r.objects
  named := Function.update r.named k none
  existing := by
    intro k' i h
    by_cases hk : k' = k
    · rw [hk, Function.update_self] at h
      cases h
    · rw [Function.update_of_ne hk] at h
      exact r.existing k' i h

variable {r r' : Registry κ β} {k k' : κ} {b : β} {i : Nat}

@[simp] theorem named_create_self : (r.create k b).named k = some r.next := Function.update_self ..

@[simp] theorem named_create_of_ne (h : k' ≠ k) : (r.create k b).named k' = r.named k' := Function.update_of_ne h ..

@[simp] theorem named_remove_self : (r.remove k).named k = none := Function.update_self ..

@[simp] theorem named_remove_of_ne (h : k' ≠ k) : (r.remove k).named k' = r.named k' := Function.update_of_ne h ..

@[simp] theorem content_remove : (r.remove k).content i = r.content i := rfl

theorem content_create_next : (r.create k b).content r.next = some b := List.getElem?_concat_length

/-- A new object leaves the old ones as they are. -/
theorem content_create {x : β} (h : r.content i = some x) : (r.create k b).content i = some x := by
  obtain ⟨hi, _⟩ := List.getElem?_eq_some_iff.1 h
  rw [content, create, List.getElem?_append_left hi]
  exact h

/-- `r'` is `r` with a new object `i` under the name `k`, which holds `b`. -/
structure Renewed (r : Registry κ β) (k : κ) (b : β) (r' : Registry κ β) (i : Nat) : Prop where
  fresh : r.content i = none
  registered : r'.named k = some i
  holds : r'.content i = some b
  others : ∀ k', k' ≠ k → r'.named k' = r.named k'
  kept : ∀ j x, r.content j = some x → r'.content j = some x

theorem create_renewed (r : Registry κ β) (k : κ) (b : β) : Renewed r k b (r.create k b) r.next where
  fresh := content_next r
  registered := named_create_self
  holds := content_create_next
  others := fun _ => named_create_of_ne
  kept := fun _ _ => content_create

/-- The object that had the name before loses it, and nothing else happens to it. -/
theorem remove_create_renewed (r : Registry κ β) (k : κ) (b : β) :
    Renewed r k b ((r.remove k).create k b) r.next where
  fresh := content_next r
  registered := named_create_self
  holds := content_create_next
  others := by
    intro k' hk'
    rw [named_create_of_ne hk', named_remove_of_ne hk']
  kept := by
    intro j x hx
    apply content_create
    rw [content_remove]
    exact hx

theorem Renewed.named_eq_none (h : Renewed r k b r' i) : r'.named k' = none ↔ r.named k' = none ∧ k' ≠ k := by
  by_cases hk : k' = k
  · rw [hk, h.registered]
    simp
  · rw [h.others k' hk]
    simp [hk]

end Registry

end OstepHw
