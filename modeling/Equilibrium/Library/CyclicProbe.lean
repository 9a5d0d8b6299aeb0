import Mathlib.Data.Nat.Bitwise
import Mathlib.Data.Nat.Find

/-! Linear probing around a table of `n` places: the places visited from a
start, and the first of them that meets a condition. -/

namespace Equilibrium.Library.CyclicProbe

/-- The place reached from `start` after `j` steps around a table of `n` places. -/
def pos (n start j : Nat) : Nat := (start + j) % n

theorem pos_lt {n : Nat} (hn : 0 < n) (start j : Nat) : pos n start j < n :=
  Nat.mod_lt _ hn

theorem pos_zero {n start : Nat} (h : start < n) : pos n start 0 = start :=
  Nat.mod_eq_of_lt h

theorem pos_succ (n start j : Nat) : pos n start (j + 1) = (pos n start j + 1) % n := by
  rw [pos, pos, Nat.mod_add_mod, Nat.add_assoc]

theorem exists_pos_eq {n start target : Nat} (hs : start < n) (ht : target < n) :
    ∃ j < n, pos n start j = target := by
  by_cases h : start ≤ target
  · refine ⟨target - start, by omega, ?_⟩
    rw [pos, Nat.add_sub_cancel' h, Nat.mod_eq_of_lt ht]
  · refine ⟨n - start + target, by omega, ?_⟩
    have : start + (n - start + target) = target + n := by omega
    rw [pos, this, Nat.add_mod_right, Nat.mod_eq_of_lt ht]

theorem exists_first {n start : Nat} {p : Nat → Prop} (hs : start < n)
    (h : ∃ target < n, p target) : ∃ d < n, p (pos n start d) ∧ ∀ l < d, ¬p (pos n start l) := by
  classical
  obtain ⟨target, ht, hp⟩ := h
  obtain ⟨j, hj, hpos⟩ := exists_pos_eq hs ht
  have hex : ∃ j, p (pos n start j) := ⟨j, hpos ▸ hp⟩
  refine ⟨Nat.find hex, ?_, Nat.find_spec hex, fun l hl => Nat.find_min hex hl⟩
  exact lt_of_le_of_lt (Nat.find_min' hex (hpos ▸ hp)) hj

theorem and_pred_eq_mod {n : Nat} (h : ∃ k, n = 2 ^ k) (x : Nat) : x &&& (n - 1) = x % n := by
  obtain ⟨k, rfl⟩ := h
  exact Nat.and_two_pow_sub_one_eq_mod x k

end Equilibrium.Library.CyclicProbe
