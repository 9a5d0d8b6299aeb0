import Mathlib.Data.Nat.Digits.Lemmas
import Mathlib.Data.List.DropRight

/-! Decimal numerals as lists of digits, most significant first. -/

namespace Equilibrium.Library.DecimalNumeral

open List

/-- Named, so that every digit literal carries the same instance. -/
instance neZero_ten : NeZero (10 : ℕ) := ⟨by omega⟩

def digitChar (d : Fin 10) : Char := Char.ofNat (48 + d)

def numeral (ds : List (Fin 10)) : ℕ := ds.foldl (fun n (d : Fin 10) => 10 * n + (d : ℕ)) 0

@[simp] theorem numeral_nil : numeral [] = 0 := rfl

theorem foldl_numeral (ds : List (Fin 10)) (n : ℕ) :
    ds.foldl (fun n (d : Fin 10) => 10 * n + (d : ℕ)) n = n * 10 ^ ds.length + numeral ds := by
  induction ds generalizing n with
  | nil => simp
  | cons d ds ih =>
    have hcons : numeral (d :: ds) = (10 * 0 + (d : ℕ)) * 10 ^ ds.length + numeral ds := by
      conv_lhs => rw [numeral, foldl_cons, ih]
    rw [foldl_cons, ih, hcons, length_cons]
    ring

theorem numeral_append (as bs : List (Fin 10)) :
    numeral (as ++ bs) = numeral as * 10 ^ bs.length + numeral bs := by
  rw [numeral, foldl_append, foldl_numeral]
  rfl

theorem numeral_concat (ds : List (Fin 10)) (d : Fin 10) :
    numeral (ds ++ [d]) = 10 * numeral ds + d := by
  rw [numeral, foldl_append]
  rfl

theorem numeral_cons (d : Fin 10) (ds : List (Fin 10)) :
    numeral (d :: ds) = d * 10 ^ ds.length + numeral ds := by
  rw [numeral, foldl_cons, foldl_numeral]
  simp

theorem numeral_step (n : ℕ) (d : Fin 10) (ds : List (Fin 10)) :
    n * 10 ^ (d :: ds).length + numeral (d :: ds) = (10 * n + d) * 10 ^ ds.length + numeral ds := by
  rw [numeral_cons, length_cons]
  ring

theorem numeral_lt (ds : List (Fin 10)) : numeral ds < 10 ^ ds.length := by
  induction ds with
  | nil => simp
  | cons d ds ih =>
    rw [numeral_cons, length_cons, pow_succ]
    have := Nat.mul_le_mul_right (10 ^ ds.length) (show (d : ℕ) + 1 ≤ 10 by omega)
    rw [Nat.add_mul] at this
    omega

/-- The last `k` digits of a number. -/
def padded : ℕ → ℕ → List (Fin 10)
  | 0, _ => []
  | k + 1, n => padded k (n / 10) ++ [Fin.ofNat 10 n]

@[simp] theorem length_padded (k n : ℕ) : (padded k n).length = k := by
  induction k generalizing n with
  | zero => rfl
  | succ k ih => rw [padded, length_append, ih, length_singleton]

theorem padded_succ_ne_nil (k n : ℕ) : padded (k + 1) n ≠ [] :=
  append_ne_nil_of_right_ne_nil _ (cons_ne_nil _ _)

theorem numeral_padded (k n : ℕ) : numeral (padded k n) = n % 10 ^ k := by
  induction k generalizing n with
  | zero => simp [padded, Nat.mod_one]
  | succ k ih =>
    rw [padded, numeral_concat, ih, Fin.val_ofNat, pow_succ', Nat.mod_mul]
    ring

theorem numeral_padded_of_lt {k n : ℕ} (h : n < 10 ^ k) : numeral (padded k n) = n := by
  rw [numeral_padded, Nat.mod_eq_of_lt h]

theorem padded_add (a b n : ℕ) : padded (a + b) n = padded a (n / 10 ^ b) ++ padded b n := by
  induction b generalizing n with
  | zero => simp [padded]
  | succ b ih =>
    rw [← Nat.add_assoc, padded, padded, ih, Nat.div_div_eq_div_mul, ← pow_succ',
      append_assoc]

theorem numeral_take (ds : List (Fin 10)) (k : ℕ) :
    numeral (ds.take k) = numeral ds / 10 ^ (ds.length - k) := by
  have hsplit := numeral_append (ds.take k) (ds.drop k)
  have hlt := numeral_lt (ds.drop k)
  rw [take_append_drop, length_drop] at hsplit
  rw [length_drop] at hlt
  rw [hsplit, Nat.mul_comm, Nat.mul_add_div (by positivity), Nat.div_eq_of_lt hlt, Nat.add_zero]

theorem getD_eq_numeral (ds : List (Fin 10)) {k : ℕ} (h : k < ds.length) :
    (ds.getD k 0 : ℕ) = numeral ds / 10 ^ (ds.length - (k + 1)) % 10 := by
  have hget : ds.getD k 0 = ds[k] := by simp [getD_eq_getElem?_getD, h]
  rw [← numeral_take, take_succ_eq_append_getElem h, numeral_concat, hget]
  omega

theorem padded_zero (k : ℕ) : padded k 0 = replicate k 0 := by
  induction k with
  | zero => rfl
  | succ k ih => rw [padded, Nat.zero_div, ih, replicate_succ']; rfl

theorem numeral_eq_zero_iff {ds : List (Fin 10)} : numeral ds = 0 ↔ ∀ d ∈ ds, d = 0 := by
  induction ds with
  | nil => simp
  | cons d ds ih =>
    have hpos : 0 < 10 ^ ds.length := by positivity
    rw [numeral_cons, Nat.add_eq_zero_iff, Nat.mul_eq_zero, ih, forall_mem_cons]
    simp only [hpos.ne', or_false, Fin.val_eq_zero_iff]

theorem rdropWhile_padded {k j m : ℕ} (h : k = 0 ∨ m % 10 ≠ 0) :
    (padded (k + j) (m * 10 ^ j)).rdropWhile (· = 0) = padded k m := by
  induction j with
  | zero =>
    rw [pow_zero, Nat.mul_one, Nat.add_zero]
    cases k with
    | zero => rfl
    | succ k =>
      have hne : ¬(Fin.ofNat 10 m = 0) := by
        have hm := h.resolve_left (by omega)
        rw [Fin.ext_iff, Fin.val_ofNat]
        exact hm
      rw [padded, rdropWhile_concat_neg _ _ _ (by simpa using hne)]
  | succ j ih =>
    have hdiv : m * 10 ^ (j + 1) / 10 = m * 10 ^ j := by
      rw [pow_succ, ← Nat.mul_assoc, Nat.mul_div_cancel _ (by norm_num)]
    have hlast : Fin.ofNat 10 (m * 10 ^ (j + 1)) = 0 := by
      apply Fin.ext
      rw [Fin.val_ofNat, pow_succ, ← Nat.mul_assoc, Nat.mul_mod_left]
      rfl
    rw [← Nat.add_assoc, padded, hdiv, hlast, rdropWhile_concat_pos _ _ _ (by simp), ih]

end Equilibrium.Library.DecimalNumeral
