import Mathlib.Data.List.Range
import Mathlib.Data.List.Perm.Subperm
import OstepHw.Lib.Chain

/-!
# The list with one lock

Model of `List_Init`, `List_Insert` and `List_Lookup` of `concurrent-linked-list.c`.  Each function holds the only
lock while it uses the list, so the calls come one after the other.  `malloc` returns the next address that was never
used.

* `Shows` — the keys of the list, newest first;
* `insert_shows`, `lookup_eq` — what the two functions do.
-/

set_option autoImplicit false

namespace OstepHw.LinkedList

structure Node where
  next : Option Nat
  key : Int

structure ListT where
  heap : Nat → Option Node
  /-- What `malloc` returns next. -/
  brk : Nat
  head : Option Nat

def listInit : ListT := ⟨fun _ => none, 0, none⟩

def listInsert (L : ListT) (key : Int) : ListT where
  heap := Function.update L.heap L.brk (some ⟨L.head, key⟩)
  brk := L.brk + 1
  head := some L.brk

/-- `while (curr)`; without a result where the fuel ends, or at a pointer to no node. -/
def lookupLoop (heap : Nat → Option Node) (key : Int) : Nat → Option Nat → Option Int
  | 0, _ => none
  | _ + 1, none => some (-1)
  | fuel + 1, some curr =>
    match heap curr with
    | none => none
    | some node => if node.key = key then some 0 else lookupLoop heap key fuel node.next

/-- There are at most as many nodes as `malloc` has returned. -/
def listLookup (L : ListT) (key : Int) : Option Int := lookupLoop L.heap key (L.brk + 1) L.head

def link (heap : Nat → Option Node) (a : Nat) : Option (Option Nat) := (heap a).map Node.next

def keyAt (heap : Nat → Option Node) (a : Nat) : Option Int := (heap a).map Node.key

structure Shows (L : ListT) (keys : List Int) : Prop where
  chain : ∃ nodes, Chain (link L.heap) L.head nodes ∧ nodes.map (keyAt L.heap) = keys.map some
  fresh : ∀ a, L.brk ≤ a → L.heap a = none

variable {L : ListT} {keys : List Int}

theorem init_shows : Shows listInit [] := ⟨⟨[], rfl, rfl⟩, fun _ _ => rfl⟩

theorem Shows.lt_brk (h : Shows L keys) {nodes : List Nat} (hchain : Chain (link L.heap) L.head nodes) {a : Nat}
    (ha : a ∈ nodes) : a < L.brk := by
  by_contra hle
  have hnone := hchain.link_ne_none ha
  rw [link, h.fresh a (Nat.le_of_not_lt hle)] at hnone
  exact hnone rfl

theorem insert_shows (h : Shows L keys) (key : Int) : Shows (listInsert L key) (key :: keys) := by
  obtain ⟨nodes, hchain, hkeys⟩ := h.chain
  have hold : ∀ a ∈ nodes, (listInsert L key).heap a = L.heap a := fun a ha =>
    Function.update_of_ne (fun hab : a = L.brk => Nat.lt_irrefl _ (hab ▸ h.lt_brk hchain ha)) ..
  have hnew : (listInsert L key).heap L.brk = some ⟨L.head, key⟩ := Function.update_self ..
  have hlinks : ∀ a ∈ nodes, link (listInsert L key).heap a = link L.heap a := fun a ha => by
    rw [link, link, hold a ha]
  refine ⟨⟨L.brk :: nodes, (hchain.congr hlinks).push (by rw [link, hnew]; rfl), ?_⟩, fun a ha => ?_⟩
  · rw [List.map_cons, List.map_cons, keyAt, hnew, ← hkeys]
    congr 1
    exact List.map_congr_left fun a ha => by rw [keyAt, hold a ha, keyAt]
  · have hle : L.brk + 1 ≤ a := ha
    rw [show (listInsert L key).heap a = L.heap a from Function.update_of_ne (by omega) ..]
    exact h.fresh a (by omega)

theorem lookupLoop_eq {heap : Nat → Option Node} {key : Int} {nodes : List Nat} {p : Option Nat} {fuel : Nat}
    (hchain : Chain (link heap) p nodes) (hkeys : nodes.map (keyAt heap) = keys.map some)
    (hfuel : nodes.length < fuel) : lookupLoop heap key fuel p = some (if key ∈ keys then 0 else -1) := by
  induction nodes generalizing p fuel keys with
  | nil =>
    obtain rfl : p = none := hchain
    obtain rfl : keys = [] := List.map_eq_nil_iff.mp hkeys.symm
    match fuel, hfuel with
    | fuel + 1, _ => simp [lookupLoop]
  | cons a nodes ih =>
    obtain ⟨rfl, q, hlink, hrest⟩ := hchain
    obtain ⟨node, hnode, rfl⟩ := Option.map_eq_some_iff.mp hlink
    match keys, fuel, hkeys, hfuel with
    | k :: keys, fuel + 1, hkeys, hfuel =>
      obtain ⟨hk, hkeysRest⟩ := List.cons.inj hkeys
      rw [keyAt, hnode] at hk
      cases hk
      simp only [lookupLoop, hnode, ih hrest hkeysRest (Nat.lt_of_succ_lt_succ hfuel), List.mem_cons]
      by_cases hkey : node.key = key
      · simp [hkey]
      · simp [hkey, Ne.symm hkey]

theorem lookup_eq (h : Shows L keys) (key : Int) : listLookup L key = some (if key ∈ keys then 0 else -1) := by
  obtain ⟨nodes, hchain, hkeys⟩ := h.chain
  have hle : nodes.length ≤ (List.range L.brk).length :=
    (hchain.nodup.subperm fun a ha => List.mem_range.mpr (h.lt_brk hchain ha)).length_le
  rw [List.length_range] at hle
  exact lookupLoop_eq hchain hkeys (Nat.lt_succ_of_le hle)

end OstepHw.LinkedList
