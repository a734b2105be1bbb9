import Mathlib.Data.List.Basic
import Mathlib.Data.List.Infix
import Mathlib.Data.List.TakeWhile
import Mathlib.Tactic.Common

/-!
# Path names

A path name is a list of bytes; its components are what lies between the slashes.

* `resolve`, `resolve_isSome` — walking along the components from a base directory; a path without a
  `..` never leaves it;
* `joined`, `joined_injective` — names behind a path, and that they can be told from it;
* `Confined` — relative and inside the base directory;
* `dotdot_mem_dot_cons` — when a dot in front of a name makes a `..`;
* `dotdot_mem_glued` — when two parts that are put together do.
-/

set_option autoImplicit false

namespace OstepHw.Path

def slash : UInt8 := 47

def dot : UInt8 := 46

def dotdot : List UInt8 := [dot, dot]

def components (path : List UInt8) : List (List UInt8) := path.splitOn slash

/-- The directory reached from `dir`, which is given by its names below the base, innermost first;
`none` when the walk goes above the base. -/
def resolve : List (List UInt8) → List (List UInt8) → Option (List (List UInt8))
  | dir, [] => some dir
  | dir, c :: cs =>
    if c = [] ∨ c = [dot] then resolve dir cs
    else if c = dotdot then
      if dir = [] then none else resolve dir.tail cs
    else resolve (c :: dir) cs

/-- A path that is looked up from the base directory and stays below it. -/
structure Confined (path : List UInt8) : Prop where
  relative : path.head? ≠ some slash
  no_dotdot : dotdot ∉ components path
  inside : (resolve [] (components path)).isSome

theorem resolve_isSome : ∀ {cs : List (List UInt8)} (dir : List (List UInt8)), dotdot ∉ cs →
    (resolve dir cs).isSome
  | [], _, _ => rfl
  | c :: cs, dir, h => by
    rw [List.mem_cons, not_or] at h
    rw [resolve]
    split
    · exact resolve_isSome dir h.2
    · rw [if_neg (Ne.symm h.1)]
      exact resolve_isSome _ h.2

theorem confined_iff_no_dotdot {path : List UInt8} (h : path.head? ≠ some slash) :
    Confined path ↔ dotdot ∉ components path :=
  ⟨fun hc => hc.no_dotdot, fun hd => ⟨h, hd, resolve_isSome [] hd⟩⟩

theorem components_append (p q : List UInt8) :
    components (p ++ slash :: q) = components p ++ components q := List.splitOn_append_cons_self p q

theorem components_of_not_mem {p : List UInt8} (h : slash ∉ p) : components p = [p] :=
  List.splitOn_eq_singleton h

/-- The path followed by the names, each behind a slash. -/
def joined (path : List UInt8) (names : List (List UInt8)) : List UInt8 := path ++ names.flatMap (slash :: ·)

theorem joined_cons (path n : List UInt8) (ns : List (List UInt8)) :
    joined path (n :: ns) = joined (path ++ slash :: n) ns := by
  rw [joined, joined, List.flatMap_cons, List.append_assoc]

theorem components_joined {ns : List (List UInt8)} (hns : ∀ n ∈ ns, slash ∉ n) (path : List UInt8) :
    components (joined path ns) = components path ++ ns := by
  induction ns generalizing path with
  | nil => rw [joined, List.flatMap_nil, List.append_nil, List.append_nil]
  | cons n ns ih =>
    obtain ⟨hn, hns⟩ := List.forall_mem_cons.1 hns
    rw [joined_cons, ih hns, components_append, components_of_not_mem hn, List.append_assoc, List.singleton_append]

/-- Names without slashes are found again. -/
theorem joined_injective {path : List UInt8} {ns ms : List (List UInt8)} (hns : ∀ n ∈ ns, slash ∉ n)
    (hms : ∀ m ∈ ms, slash ∉ m) (h : joined path ns = joined path ms) : ns = ms := by
  have hsame := congrArg components h
  rw [components_joined hns, components_joined hms] at hsame
  exact List.append_cancel_left hsame

/-- A component is a part of the path. -/
theorem infix_of_mem_components {c p : List UInt8} (h : c ∈ components p) : c <:+: p := by
  by_cases hs : slash ∈ p
  · obtain ⟨as, bs, rfl, has⟩ := List.eq_append_cons_of_mem hs
    rw [components_append, components_of_not_mem has, List.singleton_append, List.mem_cons] at h
    rcases h with rfl | h
    · exact List.infix_append' [] _ _
    · have hbs := infix_of_mem_components h
      exact hbs.trans ⟨as ++ [slash], [], by simp⟩
  · rw [components_of_not_mem hs, List.mem_singleton] at h
    rw [h]
termination_by p.length
decreasing_by simp_all; omega

/-- What has no slash lies on one side of a slash. -/
theorem infix_append_slash {l p q : List UInt8} (hl : slash ∉ l) (h : l <:+: p ++ slash :: q) :
    l <:+: p ∨ l <:+: q := by
  obtain ⟨s, t, heq⟩ := h
  rw [List.append_assoc] at heq
  rcases List.append_eq_append_iff.mp heq with ⟨r, rfl, hr⟩ | ⟨r, rfl, hr⟩
  · rcases List.append_eq_append_iff.mp hr with ⟨r', rfl, -⟩ | ⟨r', rfl, hr'⟩
    · exact .inl ⟨s, r', by rw [List.append_assoc]⟩
    · cases r' with
      | nil => exact .inl ⟨s, [], by simp⟩
      | cons x r' =>
        obtain ⟨rfl, -⟩ := List.cons.inj hr'
        exact absurd (List.mem_append_right r List.mem_cons_self) hl
  · cases r with
    | nil =>
      cases l with
      | nil => exact .inl (List.nil_infix)
      | cons x l =>
        obtain ⟨rfl, -⟩ := List.cons.inj hr
        exact absurd List.mem_cons_self hl
    | cons x r =>
      obtain ⟨-, hr⟩ := List.cons.inj hr
      exact .inr ⟨r, t, by rw [List.append_assoc]; exact hr.symm⟩

/-- The first component of the second part goes on where the first part stops. -/
theorem dotdot_mem_append {q u : List UInt8} (hq : slash ∉ q) (hu : ¬ dotdot <:+: u) :
    dotdot ∈ components (q ++ u) ↔ q ++ u.takeWhile (· ≠ slash) = dotdot := by
  by_cases hs : slash ∈ u
  · obtain ⟨as, bs, rfl, has⟩ := List.eq_append_cons_of_mem hs
    have hfirst : slash ∉ q ++ as := by
      rw [List.mem_append, not_or]
      exact ⟨hq, has⟩
    have htake : (as ++ slash :: bs).takeWhile (· ≠ slash) = as := by
      rw [List.takeWhile_append_of_pos]
      · simp
      · intro x hx
        have hne : x ≠ slash := fun heq => has (heq ▸ hx)
        simp [hne]
    rw [htake, ← List.append_assoc, components_append, components_of_not_mem hfirst,
      List.singleton_append, List.mem_cons]
    constructor
    · rintro (heq | hmem)
      · exact heq.symm
      · exact absurd ((infix_of_mem_components hmem).trans ⟨as ++ [slash], [], by simp⟩) hu
    · exact fun heq => .inl heq.symm
  · have hfirst : slash ∉ q ++ u := by
      rw [List.mem_append, not_or]
      exact ⟨hq, hs⟩
    have htake : u.takeWhile (· ≠ slash) = u := by
      rw [List.takeWhile_eq_self_iff]
      intro x hx
      have hne : x ≠ slash := fun heq => hs (heq ▸ hx)
      simp [hne]
    rw [components_of_not_mem hfirst, htake, List.mem_singleton]
    exact eq_comm

/-- A dot in front of a name without two dots in a row. -/
theorem dotdot_mem_dot_cons {u : List UInt8} (hu : ¬ dotdot <:+: u) :
    dotdot ∈ components (dot :: u) ↔ u.takeWhile (· ≠ slash) = [dot] := by
  have hdot : slash ∉ [dot] := by decide
  rw [← List.singleton_append, dotdot_mem_append hdot hu, List.singleton_append]
  exact List.cons_inj_right dot

/-- A first component of one byte is seen in two. -/
theorem takeWhile_take_eq_singleton {p : UInt8 → Bool} {x : UInt8} (k : Nat) (l : List UInt8) :
    (l.take (k + 2)).takeWhile p = [x] ↔ l.takeWhile p = [x] := by
  match l with
  | [] | [_] => rfl
  | a :: b :: l => cases ha : p a <;> cases hb : p b <;> simp [ha, hb]

/-- The last slash of a path that has one. -/
theorem exists_eq_append_slash {p : List UInt8} (h : slash ∈ p) : ∃ a q, p = a ++ slash :: q ∧ slash ∉ q := by
  obtain ⟨as, bs, heq, has⟩ := List.eq_append_cons_of_mem (List.mem_reverse.mpr h)
  refine ⟨bs.reverse, as.reverse, ?_, fun hmem => has (List.mem_reverse.mp hmem)⟩
  rw [← List.reverse_reverse p, heq, List.reverse_append, List.reverse_cons, List.append_assoc, List.singleton_append]

/-- **Two parts, glued together**: a `..` in the middle takes a dot from each. -/
theorem dotdot_mem_glued {p u : List UInt8} (hp : dotdot ∉ components p) (hlen : 2 < p.length)
    (hu : ¬ dotdot <:+: u) :
    dotdot ∈ components (p ++ u) ↔ [slash, dot] <:+ p ∧ u.takeWhile (· ≠ slash) = [dot] := by
  by_cases hs : slash ∈ p
  · obtain ⟨a, q, rfl, hq⟩ := exists_eq_append_slash hs
    rw [components_append, List.mem_append, not_or, components_of_not_mem hq, List.mem_singleton] at hp
    have hsuffix : [slash, dot] <:+ a ++ slash :: q ↔ q = [dot] := by
      constructor
      · rintro ⟨b, hb⟩
        have hlast : components (b ++ slash :: [dot]) = components (a ++ slash :: q) := by rw [← hb]
        rw [components_append, components_append, components_of_not_mem hq,
          components_of_not_mem (p := [dot]) (by decide)] at hlast
        exact (List.cons.inj (List.append_inj' hlast rfl).2).1.symm
      · rintro rfl
        exact List.suffix_append a _
    rw [List.append_assoc, List.cons_append, components_append, List.mem_append, or_iff_right hp.1,
      dotdot_mem_append hq hu, hsuffix]
    constructor
    · intro heq
      match q, heq with
      | [], heq =>
        rw [List.nil_append] at heq
        exact absurd (heq ▸ (List.takeWhile_prefix _).isInfix) hu
      | [x], heq =>
        obtain ⟨rfl, htake⟩ := List.cons.inj heq
        exact ⟨rfl, htake⟩
      | x :: y :: q, heq =>
        simp only [dotdot, List.cons_append, List.cons.injEq, List.append_eq_nil_iff] at heq hp
        exact absurd ⟨heq.1.symm, heq.2.1.symm, heq.2.2.1.symm⟩ hp.2
    · rintro ⟨rfl, htake⟩
      rw [htake]
      rfl
  · have hsuffix : ¬ [slash, dot] <:+ p := fun h => hs (h.subset List.mem_cons_self)
    rw [dotdot_mem_append hs hu]
    refine iff_of_false (fun heq => ?_) fun h => hsuffix h.1
    have hlength := congrArg List.length heq
    rw [List.length_append] at hlength
    have htwo : dotdot.length = 2 := rfl
    omega

end OstepHw.Path
