import Mathlib.Data.List.ReduceOption

/-! Arrays of slots for objects whose lifetimes begin and end: a slot is raw, or an object is
constructed in it. An operation that the state of its slot does not allow gives `none`. -/

namespace Equilibrium.Library.SlotArray

open List

variable {α : Type}

abbrev Slots (α : Type) := List (Option α)

def read (a : Slots α) (i : ℕ) : Option α := a[i]?.join

def construct (a : Slots α) (i : ℕ) (v : α) : Option (Slots α) :=
  match a[i]? with
  | some none => some (a.set i (some v))
  | _ => none

def assign (a : Slots α) (i : ℕ) (v : α) : Option (Slots α) :=
  match a[i]? with
  | some (some _) => some (a.set i (some v))
  | _ => none

def write (a : Slots α) (i : ℕ) (v : α) : Option (Slots α) :=
  if i < a.length then some (a.set i (some v)) else none

def destroy (a : Slots α) (i : ℕ) : Option (Slots α) :=
  match a[i]? with
  | some (some _) => some (a.set i none)
  | _ => none

/-- The object in a slot, which becomes what a move leaves behind. -/
def moveOut (moved : α → α) (a : Slots α) (i : ℕ) : Option (Slots α × α) :=
  (read a i).map fun v => (a.set i (some (moved v)), v)

/-- The objects of `n` slots destroyed, from `first` on. -/
def destroyRange (a : Slots α) (first : ℕ) : ℕ → Option (Slots α)
  | 0 => some a
  | n + 1 => do
    let a ← destroy a first
    destroyRange a (first + 1) n

/-- Values written to consecutive slots: assigned to the first ones, and constructed in those
behind them. -/
def place (a : Slots α) (i assigned : ℕ) : List α → Option (Slots α)
  | [] => some a
  | v :: vs => do
    let a ← if 0 < assigned then assign a i v else construct a i v
    place a (i + 1) (assigned - 1) vs

/-- `n` objects moved to the same slots of another array. -/
def relocate (moved : α → α) (old new : Slots α) (i : ℕ) : ℕ → Option (Slots α × Slots α)
  | 0 => some (old, new)
  | n + 1 => do
    let (old, v) ← moveOut moved old i
    let new ← construct new i v
    relocate moved old new (i + 1) n

/-- The slots in front of `n` are constructed and the others raw. -/
def FirstConstructed (a : Slots α) (n : ℕ) : Prop :=
  n ≤ a.length ∧ ∀ i, (read a i).isSome ↔ i < n

def holding (xs : List α) (capacity : ℕ) : Slots α :=
  xs.map some ++ List.replicate (capacity - xs.length) none

section Slot

variable {a f b : Slots α} {slot : Option α} {u v : α} {i : ℕ}

section

variable (h : i = f.length)
include h

theorem getElem?_at : (f ++ slot :: b)[i]? = some slot := by
  rw [h, getElem?_append_right (Nat.le_refl _), Nat.sub_self]
  rfl

theorem set_at (new : Option α) : (f ++ slot :: b).set i new = f ++ new :: b := by
  rw [h, set_append_right _ _ (Nat.le_refl _), Nat.sub_self]
  rfl

theorem read_at : read (f ++ some u :: b) i = some u := by
  rw [read, getElem?_at h]
  rfl

theorem construct_at (v : α) : construct (f ++ none :: b) i v = some (f ++ some v :: b) := by
  rw [construct, getElem?_at h]
  exact congrArg some (set_at h (some v))

theorem assign_at (v : α) : assign (f ++ some u :: b) i v = some (f ++ some v :: b) := by
  rw [assign, getElem?_at h]
  exact congrArg some (set_at h (some v))

theorem write_at (v : α) : write (f ++ slot :: b) i v = some (f ++ some v :: b) := by
  have hlt : i < (f ++ slot :: b).length := by
    rw [h, length_append, length_cons]
    omega
  rw [write, if_pos hlt, set_at h]

theorem destroy_at : destroy (f ++ some u :: b) i = some (f ++ none :: b) := by
  rw [destroy, getElem?_at h]
  exact congrArg some (set_at h none)

theorem moveOut_at (moved : α → α) :
    moveOut moved (f ++ some u :: b) i = some (f ++ some (moved u) :: b, u) := by
  rw [moveOut, read_at h, Option.map_some, set_at h]

end

end Slot

theorem length_construct {a a' : Slots α} {i : ℕ} {v : α} (h : construct a i v = some a') :
    a'.length = a.length := by
  rw [construct] at h
  split at h
  case h_1 => rw [← Option.some.inj h, length_set]
  case h_2 => cases h

theorem length_assign {a a' : Slots α} {i : ℕ} {v : α} (h : assign a i v = some a') :
    a'.length = a.length := by
  rw [assign] at h
  split at h
  case h_1 => rw [← Option.some.inj h, length_set]
  case h_2 => cases h

section Loops

variable {f b : Slots α} {i : ℕ}

theorem destroyRange_eq (xs : List α) (h : i = f.length) :
    destroyRange (f ++ (xs.map some ++ b)) i xs.length =
      some (f ++ (replicate xs.length none ++ b)) := by
  induction xs generalizing f i with
  | nil => rfl
  | cons x xs ih =>
    have hnext := ih (f := f ++ [none]) (i := i + 1)
      (by rw [h, length_append, length_singleton])
    rw [map_cons, cons_append, length_cons, destroyRange, destroy_at h]
    rw [append_assoc, append_assoc] at hnext
    exact hnext

theorem place_eq (hs vs : List α) {r : ℕ} (h : i = f.length)
    (hlength : vs.length = hs.length + r) :
    place (f ++ (hs.map some ++ (replicate r none ++ b))) i hs.length vs =
      some (f ++ (vs.map some ++ b)) := by
  induction vs generalizing f i hs r with
  | nil =>
    have hnil : hs = [] := length_eq_zero_iff.mp (by rw [length_nil] at hlength; omega)
    have hzero : r = 0 := by rw [length_nil] at hlength; omega
    subst hnil hzero
    rfl
  | cons v vs ih =>
    have hnext : i + 1 = (f ++ [some v]).length := by
      rw [h, length_append, length_singleton]
    rw [place]
    cases hs with
    | nil =>
      rw [length_cons, length_nil] at hlength
      obtain ⟨k, rfl⟩ : ∃ k, r = k + 1 := ⟨r - 1, by omega⟩
      have hrest := ih [] (r := k) hnext (by rw [length_nil]; omega)
      rw [append_assoc, append_assoc] at hrest
      rw [length_nil, if_neg (Nat.lt_irrefl 0), map_nil, nil_append,
        replicate_succ, cons_append, construct_at h]
      exact hrest
    | cons u hs =>
      have hrest := ih hs (r := r) hnext
        (by simp only [length_cons] at hlength; omega)
      rw [append_assoc, append_assoc] at hrest
      rw [length_cons, if_pos (Nat.succ_pos _), map_cons, cons_append, assign_at h]
      exact hrest

theorem relocate_eq (moved : α → α) (xs : List α) {g c : Slots α} (h : i = f.length)
    (h' : i = g.length) : relocate moved (f ++ (xs.map some ++ b))
        (g ++ (replicate xs.length none ++ c)) i xs.length =
      some (f ++ ((xs.map moved).map some ++ b), g ++ (xs.map some ++ c)) := by
  induction xs generalizing f g i with
  | nil => rfl
  | cons x xs ih =>
    have hnext := ih (f := f ++ [some (moved x)]) (g := g ++ [some x])
      (i := i + 1) (by rw [h, length_append, length_singleton])
      (by rw [h', length_append, length_singleton])
    rw [append_assoc, append_assoc, append_assoc, append_assoc] at hnext
    rw [map_cons, cons_append, length_cons, relocate, moveOut_at h]
    change (construct _ i x >>= fun _ => _) = _
    rw [replicate_succ, cons_append, construct_at h']
    exact hnext

end Loops

section Holding

variable {xs : List α} {capacity : ℕ}

theorem length_holding (h : xs.length ≤ capacity) : (holding xs capacity).length = capacity := by
  rw [holding, length_append, length_map, length_replicate, Nat.add_sub_cancel' h]

theorem reduceOption_holding : (holding xs capacity).reduceOption = xs := by
  have hmap : (xs.map some).reduceOption = xs := by
    rw [reduceOption, filterMap_map]
    exact filterMap_some
  rw [holding, reduceOption_append, reduceOption_replicate_none, append_nil, hmap]

theorem read_holding (i : ℕ) : read (holding xs capacity) i = xs[i]? := by
  rw [read, holding]
  by_cases hi : i < xs.length
  · rw [getElem?_append_left (by rw [length_map]; exact hi), getElem?_map,
      getElem?_eq_getElem hi]
    rfl
  · rw [getElem?_append_right (by rw [length_map]; omega), getElem?_replicate,
      getElem?_eq_none (by omega)]
    split
    case isTrue => rfl
    case isFalse => rfl

theorem moveOut_holding (moved : α → α) {i : ℕ} (h : i < xs.length) :
    moveOut moved (holding xs capacity) i =
      some (holding (xs.set i (moved xs[i])) capacity, xs[i]) := by
  rw [moveOut, read_holding, getElem?_eq_getElem h, Option.map_some, holding,
    set_append_left _ _ (by rw [length_map]; exact h), holding, map_set,
    length_set]

theorem firstConstructed_holding (h : xs.length ≤ capacity) :
    FirstConstructed (holding xs capacity) xs.length := by
  refine ⟨Nat.le_trans h (Nat.le_of_eq (length_holding h).symm), fun i => ?_⟩
  rw [read_holding, isSome_getElem?]

end Holding

end Equilibrium.Library.SlotArray
