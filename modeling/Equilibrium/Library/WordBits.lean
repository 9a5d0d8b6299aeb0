import Mathlib.Data.Fintype.Fin
import Mathlib.Tactic.Ring
import Mathlib.Tactic.LinearCombination

/-! Sets of positions stored as the bits of an array of words. Position `p` is bit `p % w` of
word `p / w`; an array that has no bit from `n` on stands for a set of numbers below `n`. -/

namespace Equilibrium.Library.WordBits

open Function List Nat

variable {w : ℕ}

def wordAt (a : List (BitVec w)) (i : ℕ) : BitVec w := a.getD i 0

def bitAt (a : List (BitVec w)) (p : ℕ) : Bool := (wordAt a (p / w)).getLsbD (p % w)

def popCount (v : BitVec w) : ℕ := v.cpopNatRec w 0

def count (a : List (BitVec w)) : ℕ := (a.map popCount).sum

/-- The positions below `n` that are set. -/
def positions (n : ℕ) (a : List (BitVec w)) : Finset (Fin n) :=
  Finset.univ.filter fun p => bitAt a p = true

def members (n : ℕ) (a : List (BitVec w)) : Finset ℕ := (Finset.range n).filter fun p => bitAt a p

/-- No position from `n` on is set. -/
def Within (n : ℕ) (a : List (BitVec w)) : Prop := ∀ p, n ≤ p → bitAt a p = false

@[simp] theorem mem_positions {n : ℕ} {a : List (BitVec w)} {p : Fin n} :
    p ∈ positions n a ↔ bitAt a p = true := by
  rw [positions, Finset.mem_filter]
  exact and_iff_right (Finset.mem_univ p)

@[simp] theorem mem_members {n p : ℕ} {a : List (BitVec w)} :
    p ∈ members n a ↔ p < n ∧ bitAt a p = true := by
  rw [members, Finset.mem_filter, Finset.mem_range]

theorem Within.mem_members {n p : ℕ} {a : List (BitVec w)} (ha : Within n a) :
    p ∈ members n a ↔ bitAt a p = true := by
  rw [WordBits.mem_members]
  refine and_iff_right_of_imp fun h => ?_
  by_contra hge
  rw [ha p (by omega)] at h
  cases h

section Words

variable {a b : List (BitVec w)} {i j p : ℕ} {v : BitVec w}

theorem wordAt_of_length_le (h : a.length ≤ i) : wordAt a i = 0 := by
  rw [wordAt, List.getD_eq_getElem?_getD, List.getElem?_eq_none h]
  rfl

theorem wordAt_eq_getElem (h : i < a.length) : wordAt a i = a[i] := by
  rw [wordAt, List.getD_eq_getElem?_getD, List.getElem?_eq_getElem h]
  rfl

theorem wordAt_set (h : i < a.length) : wordAt (a.set i v) j = if i = j then v else wordAt a j := by
  rw [wordAt, List.getD_eq_getElem?_getD, getElem?_set]
  by_cases hij : i = j
  · subst hij
    rw [if_pos rfl, if_pos h, if_pos rfl]
    rfl
  · rw [if_neg hij, if_neg hij, wordAt, List.getD_eq_getElem?_getD]

theorem wordAt_zipWith (f : BitVec w → BitVec w → BitVec w) (ha : i < a.length)
    (hb : i < b.length) : wordAt (zipWith f a b) i = f (wordAt a i) (wordAt b i) := by
  rw [wordAt_eq_getElem (by rw [length_zipWith]; omega), getElem_zipWith,
    wordAt_eq_getElem ha, wordAt_eq_getElem hb]

theorem wordAt_replicate (h : i < j) : wordAt (List.replicate j v) i = v := by
  rw [wordAt_eq_getElem (by rw [List.length_replicate]; exact h), List.getElem_replicate]

theorem wordAt_map {f : BitVec w → BitVec w} (h : i < a.length) :
    wordAt (a.map f) i = f (wordAt a i) := by
  rw [wordAt_eq_getElem (by rw [length_map]; exact h), getElem_map, wordAt_eq_getElem h]

theorem wordAt_take (h : i < j) : wordAt (a.take j) i = wordAt a i := by
  rw [wordAt, wordAt, List.getD_eq_getElem?_getD, List.getD_eq_getElem?_getD, getElem?_take,
    if_pos h]

theorem wordAt_concat : wordAt (a ++ [v]) i =
    if i < a.length then wordAt a i else if i = a.length then v else 0 := by
  split
  case isTrue h =>
    rw [wordAt, List.getD_eq_getElem?_getD, getElem?_append_left h, wordAt,
      List.getD_eq_getElem?_getD]
  case isFalse h =>
    rw [wordAt, List.getD_eq_getElem?_getD, getElem?_append_right (Nat.le_of_not_lt h)]
    split
    case isTrue heq =>
      subst heq
      rw [Nat.sub_self]
      rfl
    case isFalse hne =>
      obtain ⟨k, hk⟩ : ∃ k, i - a.length = k + 1 := ⟨i - a.length - 1, by omega⟩
      rw [hk]
      rfl

theorem bitAt_eq (hw : 0 < w) (hj : j < w) : bitAt a (i * w + j) = (wordAt a i).getLsbD j := by
  rw [bitAt, Nat.mul_comm, mul_add_div hw, div_eq_of_lt hj, mul_add_mod,
    mod_eq_of_lt hj, Nat.add_zero]

theorem bitAt_set (h : i < a.length) :
    bitAt (a.set i v) p = if i = p / w then v.getLsbD (p % w) else bitAt a p := by
  rw [bitAt, wordAt_set h]
  split
  case isTrue => rfl
  case isFalse => rfl

theorem bitAt_word (hword : p / w = i) : (wordAt a i).getLsbD (p % w) = bitAt a p := by
  subst hword
  rfl

theorem decide_place {q : ℕ} (hword : p / w = q / w) : decide (p % w = q % w) = decide (p = q) := by
  refine decide_eq_decide.mpr ⟨fun hbit => ?_, ?_⟩
  · rw [← div_add_mod p w, hword, hbit, div_add_mod]
  · rintro rfl
    rfl

theorem and_not_decide (b : Bool) (c : Prop) [Decidable c] :
    (b && !decide c) = if c then false else b := by
  by_cases h : c
  · rw [decide_eq_true h, if_pos h, Bool.not_true, Bool.and_false]
  · rw [decide_eq_false h, if_neg h, Bool.not_false, Bool.and_true]

theorem or_decide (b : Bool) (c : Prop) [Decidable c] :
    (b || decide c) = if c then true else b := by
  by_cases h : c
  · rw [decide_eq_true h, if_pos h, Bool.or_true]
  · rw [decide_eq_false h, if_neg h, Bool.or_false]

theorem bitAt_of_zero (h : ∀ v ∈ a, v = 0) : bitAt a p = false := by
  have hword : wordAt a (p / w) = 0 := by
    by_cases hlt : p / w < a.length
    · rw [wordAt_eq_getElem hlt]
      exact h _ (getElem_mem hlt)
    · exact wordAt_of_length_le (Nat.le_of_not_lt hlt)
  rw [bitAt, hword]
  exact BitVec.getLsbD_zero

theorem bitAt_of_length_le (hw : 0 < w) (h : a.length * w ≤ p) : bitAt a p = false := by
  rw [bitAt, wordAt_of_length_le ((Nat.le_div_iff_mul_le hw).mpr h)]
  exact BitVec.getLsbD_zero

theorem word_lt (hp : p < j * w) : p / w < j := Nat.div_lt_of_lt_mul (Nat.mul_comm j w ▸ hp)

theorem ext_bitAt (hw : 0 < w) (hlength : a.length = b.length)
    (h : ∀ p, bitAt a p = bitAt b p) : a = b := by
  refine ext_getElem hlength fun i hi hi' => BitVec.eq_of_getLsbD_eq fun j hj => ?_
  have hbit := h (i * w + j)
  rw [bitAt_eq hw hj, bitAt_eq hw hj, wordAt_eq_getElem hi, wordAt_eq_getElem hi'] at hbit
  exact hbit

theorem members_injective {n : ℕ} (hw : 0 < w) (hlength : a.length = b.length) (ha : Within n a)
    (hb : Within n b) (h : members n a = members n b) : a = b := by
  refine ext_bitAt hw hlength fun p => Bool.eq_iff_iff.mpr ?_
  rw [← ha.mem_members, ← hb.mem_members, h]

theorem positions_injective {n : ℕ} (hw : 0 < w) (hlength : a.length = b.length) (ha : Within n a)
    (hb : Within n b) (h : positions n a = positions n b) : a = b := by
  refine ext_bitAt hw hlength fun p => ?_
  by_cases hp : p < n
  · have hmem := Finset.ext_iff.mp h ⟨p, hp⟩
    rw [mem_positions, mem_positions] at hmem
    exact Bool.eq_iff_iff.mpr hmem
  · rw [ha p (by omega), hb p (by omega)]

end Words

section Masks

theorem getLsbD_bit {j k : ℕ} (hj : j < w) : (1#w <<< k).getLsbD j = decide (j = k) := by
  rw [BitVec.getLsbD_shiftLeft, BitVec.getLsbD_one, Bool.eq_iff_iff]
  simp only [Bool.and_eq_true, decide_eq_true_eq, Bool.not_eq_true', decide_eq_false_iff_not]
  omega

theorem getLsbD_clear {j k : ℕ} (hj : j < 64) : (~~~(1#64 <<< k)).getLsbD j = !decide (j = k) := by
  rw [BitVec.getLsbD_not, getLsbD_bit hj, decide_eq_true hj, Bool.true_and]

theorem getLsbD_lowMask {j : ℕ} (hj : j < 64) (m : ℕ) :
    (~~~(~~~1#64 <<< m)).getLsbD j = decide (j ≤ m) := by
  rw [BitVec.getLsbD_not, BitVec.getLsbD_shiftLeft, BitVec.getLsbD_not, BitVec.getLsbD_one]
  have hone : decide (0 < 64) = true := rfl
  rw [decide_eq_true hj, hone, Bool.true_and, Bool.true_and, Bool.true_and]
  by_cases hle : j ≤ m
  · rw [decide_eq_true hle]
    by_cases heq : j = m
    · rw [heq, Nat.sub_self]
      simp only [decide_true, Bool.not_true, Bool.and_false, Bool.not_false]
    · rw [decide_eq_true (by omega)]
      rfl
  · rw [decide_eq_false hle, decide_eq_false (by omega),
      decide_eq_true (by omega), decide_eq_false (by omega)]
    rfl

theorem getLsbD_belowMask {m : ℕ} (hm : m < 64) (j : ℕ) :
    ((1#64 <<< m) - 1#64).getLsbD j = decide (j < m) := by
  have hpow : 2 ^ m < 2 ^ 64 := Nat.pow_lt_pow_right (by decide) hm
  have hone : 0 < 2 ^ m := Nat.two_pow_pos _
  have hnat : ((1#64 <<< m) - 1#64).toNat = 2 ^ m - 1 := by
    rw [BitVec.toNat_sub, BitVec.toNat_shiftLeft, BitVec.toNat_ofNat, Nat.shiftLeft_eq,
      mod_eq_of_lt (by decide : 1 < 2 ^ 64), Nat.one_mul, mod_eq_of_lt hpow]
    omega
  rw [BitVec.getLsbD, hnat, testBit_two_pow_sub_one]

theorem getLsbD_test {v : BitVec 64} {k : ℕ} : (v >>> k &&& 1#64 != 0) = v.getLsbD k := by
  rw [BitVec.and_one_eq_setWidth_ofBool_getLsbD, BitVec.getLsbD_ushiftRight, Nat.add_zero]
  cases v.getLsbD k
  case false => rfl
  case true => rfl

end Masks

section Shifts

/-- The words at the given indices rewritten in place, one after the other. -/
def sweep (f : (ℕ → BitVec w) → ℕ → BitVec w) (order : List ℕ) (a : List (BitVec w)) :
    List (BitVec w) :=
  order.foldl (fun a i => a.set i (f (wordAt a) i)) a

theorem length_sweep (f : (ℕ → BitVec w) → ℕ → BitVec w) (order : List ℕ)
    (a : List (BitVec w)) : (sweep f order a).length = a.length := by
  induction order generalizing a with
  | nil => rfl
  | cons i order ih => exact (ih _).trans length_set

/-- Where no word is read after it was rewritten, every new word comes from the old ones. -/
theorem wordAt_sweep (f : (ℕ → BitVec w) → ℕ → BitVec w) (order : List ℕ) {a : List (BitVec w)}
    (hbound : ∀ i ∈ order, i < a.length)
    (hreads : order.Pairwise fun i j => i ≠ j ∧ ∀ g v, f (update g i v) j = f g j)
    (k : ℕ) : wordAt (sweep f order a) k = if k ∈ order then f (wordAt a) k else wordAt a k := by
  induction order generalizing a with
  | nil => exact (if_neg not_mem_nil).symm
  | cons i order ih =>
    have hi := hbound i mem_cons_self
    obtain ⟨hlater, hrest⟩ := pairwise_cons.mp hreads
    have hupdate : wordAt (a.set i (f (wordAt a) i)) = update (wordAt a) i (f (wordAt a) i) := by
      funext j
      rw [wordAt_set hi, update_apply]
      simp only [eq_comm]
    have hstep := ih (a := a.set i (f (wordAt a) i))
      (fun j hj => by rw [length_set]; exact hbound j (mem_cons_of_mem i hj)) hrest
    rw [sweep, foldl_cons]
    refine hstep.trans ?_
    rw [hupdate]
    by_cases hk : k ∈ order
    · rw [if_pos hk, if_pos (mem_cons_of_mem i hk), (hlater k hk).2]
    · rw [if_neg hk, update_apply]
      by_cases hki : k = i
      · rw [if_pos hki, if_pos (hki ▸ mem_cons_self), hki]
      · rw [if_neg hki, if_neg fun h => (mem_cons.mp h).elim hki hk]

theorem place_add {p k : ℕ} (hlt : p % w + k % w < w) :
    (p + k) / w = p / w + k / w ∧ (p + k) % w = p % w + k % w := by
  have hsum : p + k = w * (p / w + k / w) + (p % w + k % w) := by
    conv_lhs => rw [← div_add_mod p w, ← div_add_mod k w]
    ring
  have hw : 0 < w := by omega
  rw [hsum, mul_add_div hw, div_eq_of_lt hlt, mul_add_mod, mod_eq_of_lt hlt]
  exact ⟨Nat.add_zero _, rfl⟩

theorem place_add_carry {p k : ℕ} (hw : 0 < w) (hle : w ≤ p % w + k % w) :
    (p + k) / w = p / w + k / w + 1 ∧ (p + k) % w = p % w + k % w - w := by
  have hp := mod_lt p hw
  have hk := mod_lt k hw
  obtain ⟨c, hc⟩ : ∃ c, p % w + k % w = w + c := ⟨p % w + k % w - w, by omega⟩
  have hsum : p + k = w * (p / w + k / w + 1) + c := by
    conv_lhs => rw [← div_add_mod p w, ← div_add_mod k w]
    linear_combination hc
  have hlt : c < w := by omega
  rw [hsum, mul_add_div hw, div_eq_of_lt hlt, mul_add_mod, mod_eq_of_lt hlt]
  exact ⟨Nat.add_zero _, by omega⟩

theorem getLsbD_right (hw : 0 < w) (g : ℕ → BitVec w) (p k : ℕ) :
    (g (p / w + k / w) >>> (k % w) ||| g (p / w + 1 + k / w) <<< (w - k % w)).getLsbD (p % w) =
      (g ((p + k) / w)).getLsbD ((p + k) % w) := by
  have hp := mod_lt p hw
  have hk := mod_lt k hw
  rw [BitVec.getLsbD_or, BitVec.getLsbD_ushiftRight, BitVec.getLsbD_shiftLeft,
    decide_eq_true hp, Bool.true_and]
  by_cases hlt : p % w + k % w < w
  · obtain ⟨hdiv, hmod⟩ := place_add hlt
    rw [decide_eq_true (by omega : p % w < w - k % w), Bool.not_true, Bool.false_and, Bool.or_false,
      hdiv, hmod, Nat.add_comm (k % w)]
  · obtain ⟨hdiv, hmod⟩ := place_add_carry hw (Nat.le_of_not_lt hlt)
    have hword : p / w + 1 + k / w = p / w + k / w + 1 := by omega
    have hbit : p % w - (w - k % w) = p % w + k % w - w := by omega
    rw [decide_eq_false (by omega : ¬p % w < w - k % w), Bool.not_false, Bool.true_and,
      BitVec.getLsbD_of_ge _ (k % w + p % w) (by omega), Bool.false_or, hdiv, hmod, hword, hbit]

/-- Words moved up by whole words, then by bits: every position takes the bit `k` below it. -/
theorem getLsbD_left (hw : 0 < w) (g : ℕ → BitVec w) (p k : ℕ) :
    ((if k / w ≤ p / w then g (p / w - k / w) else 0) <<< (k % w) |||
        (if k / w + 1 ≤ p / w then g (p / w - 1 - k / w) else 0) >>> (w - k % w)).getLsbD (p % w) =
      (decide (k ≤ p) && (g ((p - k) / w)).getLsbD ((p - k) % w)) := by
  have hp := mod_lt p hw
  have hk := mod_lt k hw
  rw [BitVec.getLsbD_or, BitVec.getLsbD_ushiftRight, BitVec.getLsbD_shiftLeft,
    decide_eq_true hp, Bool.true_and]
  by_cases hkp : k ≤ p
  · obtain ⟨q, rfl⟩ : ∃ q, p = q + k := ⟨p - k, by omega⟩
    rw [decide_eq_true hkp, Bool.true_and, Nat.add_sub_cancel]
    have hq := mod_lt q hw
    by_cases hlt : q % w + k % w < w
    · obtain ⟨hdiv, hmod⟩ := place_add hlt
      rw [hdiv, hmod, if_pos (Nat.le_add_left _ _), decide_eq_false (by omega), Bool.not_false,
        Bool.true_and, BitVec.getLsbD_of_ge _ (w - k % w + (q % w + k % w)) (by omega),
        Bool.or_false, Nat.add_sub_cancel, Nat.add_sub_cancel]
    · obtain ⟨hdiv, hmod⟩ := place_add_carry hw (Nat.le_of_not_lt hlt)
      have hword : q / w + k / w + 1 - 1 - k / w = q / w := by
        rw [Nat.add_sub_cancel, Nat.add_sub_cancel]
      have hbit : w - k % w + (q % w + k % w - w) = q % w := by omega
      rw [hdiv, hmod, if_pos (succ_le_succ (Nat.le_add_left (k / w) (q / w))),
        decide_eq_true (by omega : q % w + k % w - w < k % w), Bool.not_true, Bool.false_and,
        Bool.false_or, hword, hbit]
  · have hnot : ¬k / w + 1 ≤ p / w := by
      intro hle
      have hmul := Nat.mul_le_mul_left w hle
      have hpd := div_add_mod p w
      have hkd := div_add_mod k w
      rw [Nat.mul_add] at hmul
      omega
    rw [decide_eq_false hkp, Bool.false_and, if_neg hnot]
    by_cases hword : k / w ≤ p / w
    · have hsame : k / w = p / w := by omega
      have hbelow : p % w < k % w := by
        have hpd := div_add_mod p w
        have hkd := div_add_mod k w
        rw [hsame] at hkd
        omega
      rw [decide_eq_true hbelow, Bool.not_true, Bool.false_and, Bool.false_or]
      exact BitVec.getLsbD_zero
    · rw [if_neg hword]
      simp only [BitVec.ofNat_eq_ofNat, BitVec.getLsbD_zero, Bool.and_false, Bool.or_self]

end Shifts

section Count

theorem popCount_eq (v : BitVec w) : popCount v = (range w).countP fun j => v.getLsbD j := by
  have hrec : ∀ k, v.cpopNatRec k 0 = (range k).countP fun j => v.getLsbD j := by
    intro k
    induction k with
    | zero => rfl
    | succ k ih =>
      rw [BitVec.cpopNatRec_succ, BitVec.cpopNatRec_eq, ih, range_succ, countP_append,
        countP_singleton, Nat.zero_add]
      cases v.getLsbD k
      case false => rfl
      case true => rfl
  exact hrec w

theorem bitAt_cons (hw : 0 < w) (v : BitVec w) (a : List (BitVec w)) (p : ℕ) :
    bitAt (v :: a) (w + p) = bitAt a p := by
  rw [bitAt, add_div_left _ hw, add_mod_left]
  rfl

theorem count_eq (hw : 0 < w) (a : List (BitVec w)) :
    count a = (range (a.length * w)).countP fun p => bitAt a p := by
  induction a with
  | nil => rw [length_nil, Nat.zero_mul]; rfl
  | cons v a ih =>
    have hfirst : (range w).countP (fun p => bitAt (v :: a) p) = popCount v := by
      rw [popCount_eq]
      refine countP_congr fun j hj => ?_
      have hlt := List.mem_range.mp hj
      have hbit := bitAt_eq (a := v :: a) (i := 0) hw hlt
      rw [Nat.zero_mul, Nat.zero_add] at hbit
      rw [hbit]
      rfl
    have hrest : ((range (a.length * w)).map (w + ·)).countP (fun p => bitAt (v :: a) p) =
        count a := by
      rw [ih, countP_map]
      refine countP_congr fun p _ => ?_
      rw [comp_apply, bitAt_cons hw]
    rw [length_cons, Nat.succ_mul, Nat.add_comm, range_add, countP_append, hfirst,
      hrest]
    rfl

theorem count_eq_card_members {n : ℕ} (hw : 0 < w) {a : List (BitVec w)}
    (hn : n ≤ a.length * w) (ha : Within n a) : count a = (members n a).card := by
  obtain ⟨k, hk⟩ : ∃ k, a.length * w = n + k := ⟨a.length * w - n, by omega⟩
  have hnone : ((range k).map (n + ·)).countP (fun p => bitAt a p) = 0 := by
    rw [countP_eq_zero]
    intro p hp
    obtain ⟨q, -, rfl⟩ := List.mem_map.mp hp
    rw [ha (n + q) (Nat.le_add_right n q)]
    exact Bool.false_ne_true
  rw [count_eq hw, hk, range_add, countP_append, hnone, Nat.add_zero,
    countP_eq_length_filter]
  exact congrArg length (filter_congr fun p _ => Bool.decide_eq_true.symm)

theorem card_positions (n : ℕ) (a : List (BitVec w)) :
    (positions n a).card = (members n a).card := by
  rw [← Finset.card_map Fin.valEmbedding]
  congr 1
  ext p
  rw [Finset.mem_map, mem_members]
  constructor
  · rintro ⟨q, hq, rfl⟩
    exact ⟨q.isLt, mem_positions.mp hq⟩
  · rintro ⟨hp, hbit⟩
    exact ⟨⟨p, hp⟩, mem_positions.mpr hbit, rfl⟩

theorem count_eq_card {n : ℕ} (hw : 0 < w) {a : List (BitVec w)} (hn : n ≤ a.length * w)
    (ha : Within n a) : count a = (positions n a).card := by
  rw [card_positions, count_eq_card_members hw hn ha]

end Count

end Equilibrium.Library.WordBits
