import Equilibrium.Library.ArrayWrite
import Mathlib.Algebra.Group.Nat.Defs

/-! Blocks of cells by address. An access to a block that is not there, or past its end, and
a block that is freed with another size than its own give `none`. -/

namespace Equilibrium.Library

open Function Option

abbrev BlockHeap (α : Type) := ℕ → Option (List α)

namespace BlockHeap

variable {α ι : Type} {h h' : BlockHeap α} {cells xs : List α} {a b i n : ℕ}

def allocate (h : BlockHeap α) (a : ℕ) (cells : List α) : BlockHeap α :=
  Function.update h a (some cells)

def free (h : BlockHeap α) (a n : ℕ) : Option (BlockHeap α) :=
  if (h a).any (·.length = n) then some (Function.update h a none) else none

def read (h : BlockHeap α) (a i n : ℕ) : Option (List α) :=
  (h a).bind fun cells => ArrayWrite.read cells i n

def write (h : BlockHeap α) (a i : ℕ) (xs : List α) : Option (BlockHeap α) :=
  (h a).bind fun cells => (ArrayWrite.write cells i xs).map (allocate h a)

theorem allocate_self : allocate h a cells a = some cells := update_self a _ h

theorem allocate_of_ne (hne : b ≠ a) : allocate h a cells b = h b :=
  update_of_ne hne _ h

theorem allocate_allocate (cells' : List α) :
    allocate (allocate h a cells) a cells' = allocate h a cells' :=
  update_idem _ _ h

section

variable (hcells : h a = some cells)
include hcells

theorem free_eq (hn : cells.length = n) : free h a n = some (Function.update h a none) := by
  rw [free, hcells, any_some, if_pos (decide_eq_true hn)]

theorem read_eq : read h a i n = ArrayWrite.read cells i n := by
  rw [read, hcells, bind_some]

theorem write_eq {cells' : List α} (hwrite : ArrayWrite.write cells i xs = some cells') :
    write h a i xs = some (allocate h a cells') := by
  rw [write, hcells, bind_some, hwrite, map_some]

end

theorem isSome_of_read (hread : read h a i n = some xs) : (h a).isSome := by
  obtain ⟨cells, hcells, -⟩ := bind_eq_some_iff.mp hread
  rw [hcells]
  rfl

theorem read_congr (heq : h' a = h a) : read h' a i n = read h a i n := by
  rw [read, read, heq]

/-- Every block has one owner. -/
structure Owned (h : BlockHeap α) (own : ι → Option ℕ) : Prop where
  live : ∀ i a, own i = some a → (h a).isSome
  unique : ∀ i j a, own i = some a → own j = some a → i = j
  owner : ∀ a, (h a).isSome → ∃ i, own i = some a

/-- A step of one owner that frees the block it had, if it gives it up, and takes a block
that was not there before. -/
theorem Owned.update [DecidableEq ι] {own : ι → Option ℕ} {i : ι} (new : Option ℕ)
    (hown : Owned h own)
    (hsame : ∀ a, own i ≠ some a → new ≠ some a → h' a = h a)
    (hfreed : ∀ a, own i = some a → new ≠ some a → h' a = none)
    (hfresh : ∀ a, new = some a → own i ≠ some a → h a = none)
    (hlive : ∀ a, new = some a → (h' a).isSome) : Owned h' (Function.update own i new) := by
  have hother : ∀ j a, j ≠ i → own j = some a → own i ≠ some a ∧ new ≠ some a := by
    intro j a hj ha
    have hi : own i ≠ some a := fun hi => hj (hown.unique j i a ha hi)
    refine ⟨hi, fun hnew => ?_⟩
    have hsome := hown.live j a ha
    rw [hfresh a hnew hi] at hsome
    cases hsome
  constructor
  case live =>
    intro j a ha
    by_cases hj : j = i
    · rw [hj, update_self] at ha
      exact hlive a ha
    · rw [update_of_ne hj] at ha
      obtain ⟨hi, hnew⟩ := hother j a hj ha
      rw [hsame a hi hnew]
      exact hown.live j a ha
  case unique =>
    intro j k a hj hk
    by_cases hji : j = i <;> by_cases hki : k = i
    · rw [hji, hki]
    · rw [hji, update_self] at hj
      rw [update_of_ne hki] at hk
      exact absurd hj (hother k a hki hk).2
    · rw [hki, update_self] at hk
      rw [update_of_ne hji] at hj
      exact absurd hk (hother j a hji hj).2
    · rw [update_of_ne hji] at hj
      rw [update_of_ne hki] at hk
      exact hown.unique j k a hj hk
  case owner =>
    intro a ha
    by_cases hnew : new = some a
    · exact ⟨i, by rw [update_self, hnew]⟩
    · by_cases hi : own i = some a
      · rw [hfreed a hi hnew] at ha
        cases ha
      · rw [hsame a hi hnew] at ha
        obtain ⟨j, hj⟩ := hown.owner a ha
        have hji : j ≠ i := fun h => hi (h ▸ hj)
        exact ⟨j, by rw [update_of_ne hji, hj]⟩

theorem Owned.handOver [DecidableEq ι] {own : ι → Option ℕ} {i j : ι} (hown : Owned h own)
    (hi : own i = none) (hij : i ≠ j) :
    Owned h (Function.update (Function.update own i (own j)) j none) := by
  have hown' : ∀ k a, Function.update (Function.update own i (own j)) j none k = some a ↔
      (k = i ∧ own j = some a) ∨ (k ≠ i ∧ k ≠ j ∧ own k = some a) := by
    intro k a
    by_cases hkj : k = j
    · subst hkj
      rw [update_self]
      constructor
      · exact nofun
      · rintro (⟨h, -⟩ | ⟨-, h, -⟩)
        · exact absurd h.symm hij
        · exact absurd rfl h
    · rw [update_of_ne hkj]
      by_cases hki : k = i
      · subst hki
        rw [update_self]
        exact ⟨fun h => .inl ⟨rfl, h⟩, fun h => h.elim And.right fun h => absurd rfl h.1⟩
      · rw [update_of_ne hki]
        exact ⟨fun h => .inr ⟨hki, hkj, h⟩,
          fun h => h.elim (fun h => absurd h.1 hki) fun h => h.2.2⟩
  constructor
  case live =>
    intro k a hk
    obtain ⟨-, ha⟩ | ⟨-, -, ha⟩ := (hown' k a).mp hk
    · exact hown.live j a ha
    · exact hown.live k a ha
  case unique =>
    intro k l a hk hl
    obtain ⟨hki, hjk⟩ | ⟨hki, hkj, hkk⟩ := (hown' k a).mp hk <;>
      obtain ⟨hli, hjl⟩ | ⟨hli, hlj, hll⟩ := (hown' l a).mp hl
    · rw [hki, hli]
    · exact absurd (hown.unique l j a hll hjk) hlj
    · exact absurd (hown.unique k j a hkk hjl) hkj
    · exact hown.unique k l a hkk hll
  case owner =>
    intro a ha
    obtain ⟨k, hk⟩ := hown.owner a ha
    by_cases hkj : k = j
    · exact ⟨i, (hown' i a).mpr (.inl ⟨rfl, hkj ▸ hk⟩)⟩
    · by_cases hki : k = i
      · rw [hki, hi] at hk
        cases hk
      · exact ⟨k, (hown' k a).mpr (.inr ⟨hki, hkj, hk⟩)⟩

end BlockHeap

end Equilibrium.Library
