import Mathlib.Algebra.GroupWithZero.Nat
import Mathlib.Data.List.Basic

/-! A stream that is taken in blocks of one size: its whole blocks, and what is left behind them.
However the stream is split, the blocks are the same. -/

namespace Equilibrium.Library.BlockStream

open List

variable {β : Type*} (size : ℕ) {xs ys : List β}

def blocks [NeZero size] (xs : List β) : List (List β) :=
  if size ≤ xs.length then xs.take size :: blocks (xs.drop size) else []
termination_by xs.length
decreasing_by
  have := Nat.pos_of_neZero size
  rw [List.length_drop]
  omega

def leftover (xs : List β) : List β := xs.drop (size * (xs.length / size))

variable {size}

@[simp]
theorem length_leftover (xs : List β) : (leftover size xs).length = xs.length % size := by
  rw [leftover, length_drop, Nat.mod_def]

theorem leftover_of_lt (h : xs.length < size) : leftover size xs = xs := by
  rw [leftover, Nat.div_eq_of_lt h, Nat.mul_zero, drop_zero]

variable [NeZero size]

theorem blocks_of_lt (h : xs.length < size) : blocks size xs = [] := by
  rw [blocks, if_neg (by omega)]

theorem blocks_of_le (h : size ≤ xs.length) :
    blocks size xs = xs.take size :: blocks size (xs.drop size) := by
  rw [blocks, if_pos h]

theorem leftover_of_le (h : size ≤ xs.length) :
    leftover size xs = leftover size (xs.drop size) := by
  have hdiv : xs.length / size = (xs.length - size) / size + 1 :=
    Nat.div_eq_sub_div (Nat.pos_of_neZero size) h
  rw [leftover, leftover, drop_drop, length_drop, hdiv, Nat.mul_add, Nat.mul_one,
    Nat.add_comm]

theorem blocks_append (xs ys : List β) :
    blocks size (xs ++ ys) = blocks size xs ++ blocks size (leftover size xs ++ ys) := by
  by_cases h : size ≤ xs.length
  case pos =>
    have happend : size ≤ (xs ++ ys).length := by
      rw [length_append]
      omega
    rw [blocks_of_le happend, blocks_of_le h, leftover_of_le h, take_append_of_le_length h,
      drop_append_of_le_length h, blocks_append (xs.drop size) ys, cons_append]
  case neg =>
    have hlt : xs.length < size := Nat.lt_of_not_le h
    rw [blocks_of_lt hlt, leftover_of_lt hlt, nil_append]
termination_by xs.length
decreasing_by
  have := Nat.pos_of_neZero size
  rw [length_drop]
  omega

theorem leftover_append (xs ys : List β) :
    leftover size (xs ++ ys) = leftover size (leftover size xs ++ ys) := by
  by_cases h : size ≤ xs.length
  case pos =>
    have happend : size ≤ (xs ++ ys).length := by
      rw [length_append]
      omega
    rw [leftover_of_le happend, leftover_of_le h, drop_append_of_le_length h,
      leftover_append (xs.drop size) ys]
  case neg => rw [leftover_of_lt (Nat.lt_of_not_le h)]
termination_by xs.length
decreasing_by
  have := Nat.pos_of_neZero size
  rw [length_drop]
  omega

end Equilibrium.Library.BlockStream
