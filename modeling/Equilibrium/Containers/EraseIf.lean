import Mathlib.Data.List.Basic

/-! `EraseIf` of `base/algorithm.h` for node containers: an erase hands out the element
after the erased one. The loop is given a number of rounds and gives nothing without. -/

namespace Equilibrium.EraseIf

open List

/-- What `EraseIf` calls of a `TContainer`, over the elements `E` at its iterators `I`. -/
structure Container (C I E : Type) where
  first : C → Option I
  last : C → I
  value : C → I → Option E
  advance : C → I → Option I
  erase : C → I → Option (C × I)

variable {C I E : Type} [DecidableEq I]

/-- The loop; it also records the iterators whose elements `pred` was asked about. -/
def eraseIfLoop (ops : Container C I E) (pred : E → Bool) :
    ℕ → C → I → ℕ → List I → Option (C × ℕ × List I)
  | 0, _, _, _, _ => none
  | rounds + 1, container, it, removed, visited =>
    if it = ops.last container then some (container, removed, visited)
    else do
      let element ← ops.value container it
      if pred element then do
        let (container, next) ← ops.erase container it
        eraseIfLoop ops pred rounds container next (removed + 1) (visited ++ [it])
      else do
        let next ← ops.advance container it
        eraseIfLoop ops pred rounds container next removed (visited ++ [it])

def eraseIf (ops : Container C I E) (pred : E → Bool) (rounds : ℕ) (container : C) :
    Option (C × ℕ × List I) := do
  let it ← ops.first container
  eraseIfLoop ops pred rounds container it 0 []

/-- The element at an iterator satisfies `pred`. -/
def hits (ops : Container C I E) (pred : E → Bool) (container : C) (it : I) : Bool :=
  (ops.value container it).any pred

/-- The container holds the nodes of a list, and its iterators go along that list. -/
structure Listed (ops : Container C I E) (Holds : C → List I → Prop) : Prop where
  first_eq : ∀ {c l}, Holds c l → ops.first c = some (l.head?.getD (ops.last c))
  ne_last : ∀ {c l x}, Holds c l → x ∈ l → x ≠ ops.last c
  value_isSome : ∀ {c l x}, Holds c l → x ∈ l → (ops.value c x).isSome
  advance_eq : ∀ {c l x r}, Holds c (l ++ x :: r) →
    ops.advance c x = some (r.head?.getD (ops.last c))
  erase_eq : ∀ {c l x r}, Holds c (l ++ x :: r) → ∃ c',
    ops.erase c x = some (c', r.head?.getD (ops.last c)) ∧ Holds c' (l ++ r) ∧
      ops.last c' = ops.last c ∧ ops.value c' = ops.value c

variable {ops : Container C I E} {Holds : C → List I → Prop} {c : C}

theorem Listed.eraseIfLoop_eq (h : Listed ops Holds) (pred : E → Bool) {rounds : ℕ}
    {kept rest : List I} (hc : Holds c (kept ++ rest)) (hrounds : rest.length < rounds)
    (removed : ℕ) (visited : List I) :
    ∃ c', eraseIfLoop ops pred rounds c (rest.head?.getD (ops.last c)) removed visited =
        some (c', removed + (rest.filter (hits ops pred c)).length, visited ++ rest) ∧
      Holds c' (kept ++ rest.filter fun x => !hits ops pred c x) ∧ ops.value c' = ops.value c := by
  induction rest generalizing c kept rounds removed visited with
  | nil =>
    obtain _ | rounds := rounds
    · omega
    refine ⟨c, ?_, hc, rfl⟩
    rw [eraseIfLoop, head?_nil, Option.getD_none, if_pos rfl, append_nil]
    rfl
  | cons x rest ih =>
    obtain _ | rounds := rounds
    · omega
    have hrounds' : rest.length < rounds := Nat.lt_of_succ_lt_succ hrounds
    have hmem : x ∈ kept ++ x :: rest := mem_append_right _ mem_cons_self
    obtain ⟨element, helement⟩ := Option.isSome_iff_exists.mp (h.value_isSome hc hmem)
    have hhits : hits ops pred c x = pred element := by rw [hits, helement, Option.any_some]
    rw [eraseIfLoop, head?_cons, Option.getD_some, if_neg (h.ne_last hc hmem), helement,
      filter_cons, filter_cons, hhits, append_cons visited x rest]
    cases hpred : pred element with
    | true =>
      obtain ⟨c₁, herase, hc₁, hlast, hvalue⟩ := h.erase_eq hc
      obtain ⟨c', hloop, hholds, hkept⟩ := ih hc₁ hrounds' (removed + 1) (visited ++ [x])
      have hsame : hits ops pred c₁ = hits ops pred c := funext fun y => by rw [hits, hits, hvalue]
      rw [hlast, hsame] at hloop
      rw [hsame] at hholds
      refine ⟨c', ?_, hholds, hkept.trans hvalue⟩
      rw [if_pos rfl, length_cons,
        show removed + ((rest.filter (hits ops pred c)).length + 1) =
          removed + 1 + (rest.filter (hits ops pred c)).length by omega]
      simp only [bind, Option.bind, herase, hpred, if_true]
      exact hloop
    | false =>
      have hadvance := h.advance_eq hc
      rw [append_cons] at hc
      obtain ⟨c', hloop, hholds, hkept⟩ := ih hc hrounds' removed (visited ++ [x])
      refine ⟨c', ?_, ?_, hkept⟩
      · rw [if_neg nofun]
        simp only [bind, Option.bind, hadvance, hpred, Bool.false_eq_true, if_false]
        exact hloop
      · rw [Bool.not_false, if_pos rfl, append_cons kept x]
        exact hholds

theorem Listed.eraseIf_eq (h : Listed ops Holds) (pred : E → Bool) {l : List I} (hc : Holds c l)
    {rounds : ℕ} (hrounds : l.length < rounds) :
    ∃ c', eraseIf ops pred rounds c = some (c', (l.filter (hits ops pred c)).length, l) ∧
      Holds c' (l.filter fun x => !hits ops pred c x) ∧ ops.value c' = ops.value c := by
  have hc' : Holds c ([] ++ l) := hc
  obtain ⟨c', hloop, hholds, hvalue⟩ := h.eraseIfLoop_eq pred hc' hrounds 0 []
  refine ⟨c', ?_, hholds, hvalue⟩
  rw [Nat.zero_add, nil_append] at hloop
  rw [eraseIf, h.first_eq hc]
  exact hloop

/-- A sweep of a container from `c` to `c'`: the nodes it visited, and those that are left. -/
structure Sweep {C E : Type} (Contains : C → ℕ → Prop) (value : C → ℕ → E) (size : C → ℕ)
    (pred : E → Bool) (c c' : C) (removed : ℕ) (visited : List ℕ) : Prop where
  once : visited.Nodup
  all : ∀ x, x ∈ visited ↔ Contains c x
  remaining : ∀ x, Contains c' x ↔ Contains c x ∧ pred (value c x) = false
  unchanged : ∀ x, Contains c' x → value c' x = value c x
  removed_eq : removed = (visited.filter fun x => pred (value c x)).length
  size_eq : size c' + removed = size c

end Equilibrium.EraseIf
