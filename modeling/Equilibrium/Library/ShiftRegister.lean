import Mathlib.Data.Nat.Init
import Mathlib.Tactic.Common

/-! Registers that are shifted down bit by bit, with a polynomial added wherever a one falls
out: the remainders of a division of polynomials over two elements, lowest bit first. -/

namespace Equilibrium.Library.ShiftRegister

variable {v w k : ℕ}

def shift (p x : BitVec w) : BitVec w := if x.getLsbD 0 then (x >>> 1) ^^^ p else x >>> 1

def shifts (p : BitVec w) : ℕ → BitVec w → BitVec w
  | 0, x => x
  | n + 1, x => shifts p n (shift p x)

/-- A unit of `k` bits comes in at the low end and goes through. -/
def feed (p : BitVec w) (x : BitVec w) (u : BitVec k) : BitVec w :=
  shifts p k (x ^^^ u.setWidth w)

def word (v : ℕ) : List (BitVec k) → BitVec v
  | [] => 0#v
  | u :: us => u.setWidth v ^^^ (word v us <<< k)

variable {p x y : BitVec w} {n m : ℕ}

theorem shift_xor : shift p (x ^^^ y) = shift p x ^^^ shift p y := by
  rw [shift, shift, shift, BitVec.getLsbD_xor, BitVec.ushiftRight_xor_distrib]
  cases x.getLsbD 0 <;> cases y.getLsbD 0
  · rfl
  · change x >>> 1 ^^^ y >>> 1 ^^^ p = x >>> 1 ^^^ (y >>> 1 ^^^ p)
    rw [BitVec.xor_assoc]
  · change x >>> 1 ^^^ y >>> 1 ^^^ p = x >>> 1 ^^^ p ^^^ y >>> 1
    rw [BitVec.xor_assoc, BitVec.xor_assoc, BitVec.xor_comm (y >>> 1)]
  · change x >>> 1 ^^^ y >>> 1 = x >>> 1 ^^^ p ^^^ (y >>> 1 ^^^ p)
    rw [BitVec.xor_assoc, BitVec.xor_comm (y >>> 1), ← BitVec.xor_assoc p, BitVec.xor_self,
      BitVec.zero_xor]

theorem shifts_xor : shifts p n (x ^^^ y) = shifts p n x ^^^ shifts p n y := by
  induction n generalizing x y with
  | zero => rfl
  | succ n ih => rw [shifts, shifts, shifts, shift_xor, ih]

theorem shifts_add : shifts p (n + m) x = shifts p m (shifts p n x) := by
  induction n generalizing x with
  | zero => rw [Nat.zero_add, shifts]
  | succ n ih => rw [Nat.succ_add, shifts, shifts, ih]

theorem shifts_of_clear (h : ∀ i < n, x.getLsbD i = false) : shifts p n x = x >>> n := by
  induction n generalizing x with
  | zero => rw [shifts, BitVec.ushiftRight_zero]
  | succ n ih =>
    have hlow : shift p x = x >>> 1 := by
      rw [shift, h 0 (Nat.succ_pos n)]
      rfl
    rw [shifts, hlow, ih, ← BitVec.shiftRight_add, Nat.add_comm]
    intro i hi
    rw [BitVec.getLsbD_ushiftRight]
    exact h (1 + i) (by omega)

theorem shift_setWidth (h : w ≤ v) :
    shift (p.setWidth v) (x.setWidth v) = (shift p x).setWidth v := by
  obtain rfl | hpos := Nat.eq_zero_or_pos v
  · exact Subsingleton.elim _ _
  · have hshift : x.setWidth v >>> 1 = (x >>> 1).setWidth v := by
      refine BitVec.eq_of_getLsbD_eq fun i hi => ?_
      rw [BitVec.getLsbD_ushiftRight, BitVec.getLsbD_setWidth, BitVec.getLsbD_setWidth,
        BitVec.getLsbD_ushiftRight, decide_eq_true hi, Bool.true_and]
      by_cases hv : 1 + i < v
      · rw [decide_eq_true hv, Bool.true_and]
      · rw [BitVec.getLsbD_of_ge x (1 + i) (by omega), Bool.and_false]
    rw [shift, shift, BitVec.getLsbD_setWidth, decide_eq_true hpos, Bool.true_and, hshift]
    split
    · rw [BitVec.setWidth_xor]
    · rfl

theorem shifts_setWidth (h : w ≤ v) :
    shifts (p.setWidth v) n (x.setWidth v) = (shifts p n x).setWidth v := by
  induction n generalizing x with
  | zero => rfl
  | succ n ih => rw [shifts, shifts, shift_setWidth h, ih]

theorem getLsbD_word_of_le {us : List (BitVec k)} {i : ℕ} (h : k * us.length ≤ i) :
    (word v us).getLsbD i = false := by
  induction us generalizing i with
  | nil => exact BitVec.getLsbD_zero
  | cons u us ih =>
    rw [List.length_cons, Nat.mul_add_one] at h
    rw [word, BitVec.getLsbD_xor, BitVec.getLsbD_setWidth, BitVec.getLsbD_shiftLeft,
      ih (by omega), BitVec.getLsbD_of_ge u i (by omega),
      Bool.and_false, Bool.and_false]
    rfl

theorem word_shiftLeft_shiftRight {us : List (BitVec k)} (h : k * us.length + k ≤ v) :
    word v us <<< k >>> k = word v us := by
  refine BitVec.eq_of_getLsbD_eq fun i hi => ?_
  rw [BitVec.getLsbD_ushiftRight, BitVec.getLsbD_shiftLeft, Nat.add_sub_cancel_left,
    decide_eq_false (by omega : ¬ k + i < k), Bool.not_false, Bool.and_true]
  by_cases hki : k + i < v
  · rw [decide_eq_true hki, Bool.true_and]
  · rw [getLsbD_word_of_le (by omega), Bool.and_false]

theorem shifts_word {us : List (BitVec k)} (hk : k ≤ w) (hw : w ≤ v) (hv : k * us.length ≤ v) :
    shifts (p.setWidth v) (k * us.length) (x.setWidth v ^^^ word v us) =
      (us.foldl (feed p) x).setWidth v := by
  induction us generalizing x with
  | nil =>
    rw [List.length_nil, Nat.mul_zero, shifts, word]
    exact BitVec.xor_zero
  | cons u us ih =>
    rw [List.length_cons, Nat.mul_add_one] at hv
    have hunit : u.setWidth v = (u.setWidth w).setWidth v :=
      (BitVec.setWidth_setWidth (by omega)).symm
    have hclear : ∀ i < k, (word v us <<< k).getLsbD i = false := by
      intro i hi
      rw [BitVec.getLsbD_shiftLeft, decide_eq_true hi]
      simp
    rw [List.length_cons, Nat.mul_add_one, Nat.add_comm, shifts_add, word, ← BitVec.xor_assoc,
      hunit, ← BitVec.setWidth_xor, shifts_xor, shifts_setWidth hw, shifts_of_clear hclear,
      word_shiftLeft_shiftRight hv, List.foldl_cons]
    exact ih (by omega)

end Equilibrium.Library.ShiftRegister
