import Mathlib.Data.List.Basic
import Mathlib.Data.Nat.Init

/-! Arrays of a fixed length that are written in place, and the terminated strings that they
hold. A write past the end gives `none`. -/

namespace Equilibrium.Library.ArrayWrite

open List

variable {α : Type} {a b xs cs : List α} {i k n : ℕ} {z : α}

/-- `xs` written over the cells from `i` on. -/
def write (a : List α) (i : ℕ) (xs : List α) : Option (List α) :=
  if i + xs.length ≤ a.length then some (a.take i ++ xs ++ a.drop (i + xs.length)) else none

/-- The `n` cells from `i` on. -/
def read (a : List α) (i n : ℕ) : Option (List α) :=
  if i + n ≤ a.length then some ((a.drop i).take n) else none

theorem write_eq (h : i + xs.length ≤ a.length) :
    write a i xs = some (a.take i ++ xs ++ a.drop (i + xs.length)) := if_pos h

theorem write_eq_some : write a i xs = some b ↔
      i + xs.length ≤ a.length ∧ b = a.take i ++ xs ++ a.drop (i + xs.length) := by
  unfold write
  split
  case isTrue h => simp [h, eq_comm]
  case isFalse h => simp [h]

theorem exists_write (h : i + xs.length ≤ a.length) : ∃ b, write a i xs = some b :=
  ⟨_, write_eq h⟩

section

variable (h : write a i xs = some b)
include h

theorem length_write : b.length = a.length := by
  obtain ⟨hle, rfl⟩ := write_eq_some.mp h
  simp only [length_append, length_take, length_drop]
  omega

theorem take_write : b.take (i + xs.length) = a.take i ++ xs := by
  obtain ⟨hle, rfl⟩ := write_eq_some.mp h
  rw [take_append_of_le_length, take_of_length_le]
  · simp only [length_append, length_take]
    omega
  · simp only [length_append, length_take]
    omega

theorem take_write_of_le (hk : k ≤ i) : b.take k = a.take k := by
  have htake := congrArg (List.take k) (take_write h)
  obtain ⟨hle, -⟩ := write_eq_some.mp h
  rw [take_take, Nat.min_eq_left (by omega)] at htake
  rw [htake, take_append_of_le_length (by rw [length_take]; omega), take_take,
    Nat.min_eq_left hk]

theorem drop_write (hk : i + xs.length ≤ k) : b.drop k = a.drop k := by
  obtain ⟨hle, rfl⟩ := write_eq_some.mp h
  have hlength : (a.take i ++ xs).length = i + xs.length := by
    rw [length_append, length_take]
    omega
  rw [drop_append, hlength, drop_eq_nil_of_le (by omega), nil_append,
    drop_drop]
  congr 1
  omega

end

theorem read_eq (h : i + n ≤ a.length) : read a i n = some ((a.drop i).take n) := if_pos h

theorem length_read (h : read a i n = some xs) : xs.length = n ∧ i + n ≤ a.length := by
  unfold read at h
  split at h
  case isTrue hle =>
    cases h
    rw [length_take, length_drop]
    omega
  case isFalse => cases h

def Holds (z : α) (a cs : List α) : Prop := ∃ rest, a = cs ++ z :: rest

section

variable (h : Holds z a cs)
include h

theorem Holds.length_lt : cs.length < a.length := by
  obtain ⟨rest, rfl⟩ := h
  simp only [length_append, length_cons]
  omega

theorem Holds.take : a.take cs.length = cs := by
  obtain ⟨rest, rfl⟩ := h
  exact take_left

theorem Holds.take_of_le (hk : k ≤ cs.length) : a.take k = cs.take k := by
  obtain ⟨rest, rfl⟩ := h
  exact take_append_of_le_length hk

theorem Holds.nul : a[cs.length]? = some z := by
  obtain ⟨rest, rfl⟩ := h
  simp

theorem Holds.read (hle : i + n ≤ cs.length) : read a i n = some ((cs.drop i).take n) := by
  have hlt := h.length_lt
  rw [read_eq (by omega)]
  obtain ⟨rest, rfl⟩ := h
  rw [drop_append_of_le_length (by omega),
    take_append_of_le_length (by rw [length_drop]; omega)]

theorem Holds.read_terminated : ArrayWrite.read a 0 (cs.length + 1) = some (cs ++ [z]) := by
  have hlt := h.length_lt
  rw [read_eq (by omega)]
  obtain ⟨rest, rfl⟩ := h
  rw [drop_zero, take_length_add_append]
  rfl

end

theorem holds_of_write (h : write a 0 (cs ++ [z]) = some b) : Holds z b cs := by
  obtain ⟨-, rfl⟩ := write_eq_some.mp h
  exact ⟨_, by rw [take_zero, nil_append, append_assoc, singleton_append]⟩

theorem terminate (htake : a.take cs.length = cs) (hlt : cs.length < a.length) :
    ∃ b, write a cs.length [z] = some b ∧ b.length = a.length ∧ Holds z b cs := by
  have hfits : cs.length + [z].length ≤ a.length := hlt
  obtain ⟨b, hb⟩ := exists_write hfits
  refine ⟨b, hb, length_write hb, ?_⟩
  obtain ⟨-, rfl⟩ := write_eq_some.mp hb
  exact ⟨a.drop (cs.length + [z].length), by rw [htake, append_assoc]; rfl⟩

theorem write_front (z : α) (h : xs.length < a.length) :
    ∃ b c, write a 0 xs = some b ∧ write b xs.length [z] = some c ∧ c.length = a.length ∧
      Holds z c xs := by
  have hfits : 0 + xs.length ≤ a.length := by omega
  obtain ⟨b, hb⟩ := exists_write hfits
  have htake := take_write hb
  rw [Nat.zero_add, take_zero, nil_append] at htake
  have hlength := length_write hb
  obtain ⟨c, hc, hlen, hholds⟩ := terminate htake (by omega)
  exact ⟨b, c, hb, hc, by omega, hholds⟩

end Equilibrium.Library.ArrayWrite
