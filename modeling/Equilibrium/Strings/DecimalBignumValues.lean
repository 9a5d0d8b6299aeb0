import Equilibrium.Strings.DecimalBignum

/-! What the operations of `BigUInt` make of the value of the limbs for every operand, also where
the result needs more limbs than there are, and when they leave the top limb nonzero. -/

namespace Equilibrium.BigUInt

open List Nat

variable {x : BigUInt} {n multiplier addend part room carry : ℕ} {ls : List ℕ}

def value (x : BigUInt) : ℕ := Nat.ofDigits (2 ^ kLimbBits) x.limbs

/-- The top limb is not zero, and zero has no limb. -/
def Normalised (x : BigUInt) : Prop := ∀ l ∈ x.limbs.getLast?, l ≠ 0

instance (x : BigUInt) : Decidable x.Normalised :=
  inferInstanceAs (Decidable (∀ l ∈ x.limbs.getLast?, l ≠ 0))

theorem Holds.value_eq (h : x.Holds n) : x.value = n := by
  rw [value, show x.limbs = _ from h, ofDigits_digits]

theorem Holds.normalised (h : x.Holds n) : x.Normalised := by
  intro l hl
  rw [show x.limbs = _ from h] at hl
  obtain ⟨hne, rfl⟩ := mem_getLast?_eq_getLast hl
  refine getLast_digit_ne_zero _ ?_
  rintro rfl
  simp at hne

theorem Normalised.holds (h : x.Normalised) : x.Holds x.value := by
  refine (digits_ofDigits _ one_lt_base _ x.limb_lt fun hne => ?_).symm
  exact h _ (getLast?_eq_some_getLast hne)

theorem value_lt_capacity (x : BigUInt) : x.value < capacity :=
  (ofDigits_lt_base_pow_length one_lt_base x.limb_lt).trans_le
    (Nat.pow_le_pow_right (by positivity) x.used_le)

section Multiply

theorem value_carryLimbs :
    ofDigits (2 ^ kLimbBits) (carryLimbs room carry) = carry % (2 ^ kLimbBits) ^ room := by
  induction room generalizing carry with
  | zero => simp [carryLimbs, mod_one]
  | succ room ih =>
    unfold carryLimbs
    split
    · next hzero => simp [hzero]
    · rw [ofDigits_cons, ih, pow_succ', mod_mul]

theorem value_mulAddLimbs : ofDigits (2 ^ kLimbBits) (mulAddLimbs multiplier room carry ls) =
      (ofDigits (2 ^ kLimbBits) ls * multiplier + carry) %
        (2 ^ kLimbBits) ^ (ls.length + room) := by
  induction ls generalizing carry with
  | nil => simpa [mulAddLimbs] using value_carryLimbs
  | cons l ls ih =>
    have hB : 0 < 2 ^ kLimbBits := by positivity
    have hlength : (l :: ls).length + room = ls.length + room + 1 := by
      rw [length_cons]
      omega
    have hsplit : ofDigits (2 ^ kLimbBits) (l :: ls) * multiplier + carry = l * multiplier + carry +
          2 ^ kLimbBits * (ofDigits (2 ^ kLimbBits) ls * multiplier) := by
      rw [ofDigits_cons]
      ring
    unfold mulAddLimbs
    rw [ofDigits_cons, ih, hlength, pow_succ', mod_mul, hsplit,
      add_mul_mod_self_left, add_mul_div_left _ _ hB, Nat.add_comm (_ / _)]

/-- A carry that finds no room is lost. -/
theorem value_mulAddSmall (x : BigUInt) (multiplier addend : ℕ) :
    (x.mulAddSmall multiplier addend).value = (x.value * multiplier + addend) % capacity := by
  have hlimbs := @value_mulAddLimbs multiplier (kMaxLimbs - x.limbs.length) addend x.limbs
  rwa [add_sub_of_le x.used_le] at hlimbs

end Multiply

section Shift

theorem value_shiftLimbs (hpart : part < kLimbBits) (hc : carry < 2 ^ part)
    (hls : ∀ l ∈ ls, l < 2 ^ kLimbBits) : ofDigits (2 ^ kLimbBits) (shiftLimbs part room carry ls) =
      (ofDigits (2 ^ kLimbBits) ls * 2 ^ part + carry) %
        (2 ^ kLimbBits) ^ (ls.length + room) := by
  have hB : 0 < 2 ^ kLimbBits := by positivity
  have hcarry : carry < 2 ^ kLimbBits := hc.trans (Nat.pow_lt_pow_right (by norm_num) hpart)
  induction ls generalizing carry with
  | nil =>
    unfold shiftLimbs
    rw [ofDigits_nil, Nat.zero_mul, Nat.zero_add, length_nil, Nat.zero_add]
    split
    · next h =>
      have hfits : carry < (2 ^ kLimbBits) ^ room :=
        hcarry.trans_le (Nat.le_self_pow h.2.ne' _)
      rw [ofDigits_singleton, mod_eq_of_lt hfits]
    · next h =>
      by_cases hzero : carry = 0
      · simp [hzero]
      · have hroom : room = 0 := by
          by_contra hpos
          exact h ⟨hzero, Nat.pos_of_ne_zero hpos⟩
        simp [hroom, mod_one]
  | cons l ls ih =>
    obtain ⟨hl, hls⟩ := forall_mem_cons.mp hls
    have hlimb := @shift_limb part l carry hpart.le hc
    have hnext : l >>> (kLimbBits - part) < 2 ^ part := by
      rw [shiftRight_eq_div_pow]
      refine Nat.div_lt_of_lt_mul ?_
      rwa [← pow_add, Nat.sub_add_cancel hpart.le]
    have hlow : ((l <<< part) % 2 ^ kLimbBits ||| carry) < 2 ^ kLimbBits :=
      or_lt_two_pow (mod_lt _ hB) hcarry
    have hlength : (l :: ls).length + room = ls.length + room + 1 := by
      rw [length_cons]
      omega
    have hrest := ih hnext hls (hnext.trans (Nat.pow_lt_pow_right (by norm_num) hpart))
    unfold shiftLimbs
    rw [ofDigits_cons, hrest]
    generalize ((l <<< part) % 2 ^ kLimbBits ||| carry) = low at *
    generalize l >>> (kLimbBits - part) = next at *
    have hsplit : ofDigits (2 ^ kLimbBits) (l :: ls) * 2 ^ part + carry =
        low + 2 ^ kLimbBits * (ofDigits (2 ^ kLimbBits) ls * 2 ^ part + next) := by
      rw [ofDigits_cons, add_mul, mul_add, mul_assoc]
      linarith
    rw [hlength, pow_succ', mod_mul, hsplit, add_mul_mod_self_left,
      add_mul_div_left _ _ hB, mod_eq_of_lt hlow, div_eq_of_lt hlow, Nat.zero_add]

theorem value_shiftPart (x : BigUInt) (hpart : part < kLimbBits) :
    (x.shiftPart part).value = x.value * 2 ^ part % capacity := by
  have hlimbs : (x.shiftPart part).value = (x.value * 2 ^ part + 0) %
      (2 ^ kLimbBits) ^ (x.limbs.length + min (kMaxLimbs - x.limbs.length) 1) :=
    value_shiftLimbs hpart (by positivity) x.limb_lt
  rw [hlimbs, Nat.add_zero]
  have hused := x.used_le
  by_cases hfull : x.limbs.length = kMaxLimbs
  · rw [hfull, Nat.sub_self, Nat.zero_min, Nat.add_zero, capacity]
  · -- there is room for the carry, so the whole product is kept
    have hmin : min (kMaxLimbs - x.limbs.length) 1 = 1 := by omega
    have hlt : x.value * 2 ^ part < (2 ^ kLimbBits) ^ (x.limbs.length + 1) := by
      rw [pow_succ]
      exact Nat.mul_lt_mul'' (ofDigits_lt_base_pow_length one_lt_base x.limb_lt)
        (Nat.pow_lt_pow_right (by norm_num) hpart)
    have hcapacity : (2 ^ kLimbBits) ^ (x.limbs.length + 1) ≤ capacity :=
      Nat.pow_le_pow_right (by positivity) (by omega)
    rw [hmin, mod_eq_of_lt hlt, mod_eq_of_lt (hlt.trans_le hcapacity)]

theorem value_shiftWhole (x : BigUInt) (whole : ℕ) :
    (x.shiftWhole whole).value = x.value * 2 ^ (kLimbBits * whole) % capacity := by
  have hlt : ∀ l ∈ replicate whole 0 ++ x.limbs, l < 2 ^ kLimbBits := by
    intro l hl
    rcases mem_append.mp hl with hzero | hlimb
    · rw [eq_of_mem_replicate hzero]
      positivity
    · exact x.limb_lt l hlimb
  have htake := ofDigits_mod_pow_eq_ofDigits_take kMaxLimbs (by positivity) _ hlt
  rw [ofDigits_append, ofDigits_replicate_zero, Nat.zero_add, length_replicate,
    ← pow_mul, Nat.mul_comm] at htake
  exact htake.symm

theorem value_shiftLeft (x : BigUInt) (bits : ℤ) :
    (x.shiftLeft bits).value = x.value * 2 ^ bits.toNat % capacity := by
  unfold shiftLeft
  split
  · next hnone =>
    rcases hnone with hzero | hbits
    · have hlimbs : x.limbs = [] := by simpa [isZero] using hzero
      simp [value, hlimbs]
    · rw [Int.toNat_of_nonpos hbits, pow_zero, Nat.mul_one, mod_eq_of_lt x.value_lt_capacity]
  · have hpart : (if bits.toNat % kLimbBits ≠ 0 then x.shiftPart (bits.toNat % kLimbBits)
        else x).value = x.value * 2 ^ (bits.toNat % kLimbBits) % capacity := by
      split
      · exact x.value_shiftPart (mod_lt _ (by norm_num [kLimbBits]))
      · next hnone =>
        rw [not_not.mp hnone, pow_zero, Nat.mul_one, mod_eq_of_lt x.value_lt_capacity]
    have hsplit : 2 ^ bits.toNat = 2 ^ (bits.toNat % kLimbBits) *
        2 ^ (kLimbBits * (bits.toNat / kLimbBits)) := by
      rw [← pow_add, mod_add_div]
    dsimp only
    rw [hsplit, ← mul_assoc]
    split
    · rw [value_shiftWhole, hpart, mod_mul_mod]
    · next hnone =>
      rw [hpart, not_not.mp hnone, Nat.mul_zero, pow_zero, Nat.mul_one]

end Shift

section Operations

theorem Normalised.mulAddSmall (h : x.Normalised) (hm : 0 < multiplier)
    (hlt : x.value * multiplier + addend < capacity) :
    (x.mulAddSmall multiplier addend).Normalised :=
  (h.holds.mulAddSmall hm hlt).normalised

theorem Normalised.shiftLeft (h : x.Normalised) {bits : ℤ}
    (hlt : x.value * 2 ^ bits.toNat < capacity) : (x.shiftLeft bits).Normalised := by
  rcases Int.le_total bits 0 with hbits | hbits
  · rwa [BigUInt.shiftLeft, if_pos (.inr hbits)]
  · obtain ⟨k, rfl⟩ := Int.eq_ofNat_of_zero_le hbits
    exact (h.holds.shiftLeft hlt).normalised

theorem divModSmall_spec (x : BigUInt) {divisor : ℕ} (hd : 0 < divisor) :
    (x.divModSmall divisor).1.value = x.value / divisor ∧
      (x.divModSmall divisor).2 = x.value % divisor ∧ (x.divModSmall divisor).1.Normalised := by
  obtain ⟨hquot, hrem⟩ := divLimbs_spec hd x.limb_lt
  have htrim : (x.divModSmall divisor).1.Holds (x.value / divisor) := by
    rw [value, ← hquot]
    exact trim_eq_digits (@divLimbs_lt divisor x.limbs)
  exact ⟨htrim.value_eq, hrem, htrim.normalised⟩

theorem Holds.bitAt_int (h : x.Holds n) (index : ℤ) :
    x.bitAt index = true ↔ 0 ≤ index ∧ n.testBit index.toNat = true := by
  rcases lt_or_ge index 0 with hneg | hpos
  · rw [BigUInt.bitAt, if_pos (.inl hneg)]
    exact iff_of_false Bool.false_ne_true fun hbit => absurd hbit.1 (not_le.mpr hneg)
  · obtain ⟨i, rfl⟩ := Int.eq_ofNat_of_zero_le hpos
    rw [h.bitAt, Int.toNat_natCast]
    exact (and_iff_right hpos).symm

theorem Holds.anyBitBelow_int (h : x.Holds n) (index : ℤ) :
    x.anyBitBelow index = true ↔ n % 2 ^ index.toNat ≠ 0 := by
  rcases Int.le_total index 0 with hneg | hpos
  · rw [BigUInt.anyBitBelow, if_pos hneg, Int.toNat_of_nonpos hneg, pow_zero, mod_one]
    exact iff_of_false Bool.false_ne_true fun hne => hne rfl
  · obtain ⟨i, rfl⟩ := Int.eq_ofNat_of_zero_le hpos
    exact h.anyBitBelow i

theorem Holds.highBits_int (h : x.Holds n) {count : ℤ} (h64 : count ≤ 64) :
    (x.highBits count).1 = n / 2 ^ (n.size - count.toNat) ∧
      ((x.highBits count).2 = true ↔ n % 2 ^ (n.size - count : ℤ).toNat ≠ 0) := by
  constructor
  · have hsize : min n.size count.toNat ≤ n.size := Nat.min_le_left ..
    have htaken := h.highBitsAfter hsize (by omega)
    rw [show n.size - min n.size count.toNat = n.size - count.toNat by omega] at htaken
    rw [BigUInt.highBits, h.bitLength]
    exact htaken
  · rw [BigUInt.highBits, h.bitLength, ← exists_testBit_lt_iff]
    simp [h.bitAt]

/-- The operations on a `BigUInt` with a nonzero top limb: those that make it larger are exact up to
what the limbs can hold, and keep the top limb nonzero where the result fits. -/
theorem operations_exact (x : BigUInt) (h : x.Normalised) :
    (∀ multiplier addend, (x.mulAddSmall multiplier addend).value =
        (x.value * multiplier + addend) % capacity ∧
      (0 < multiplier → x.value * multiplier + addend < capacity →
        (x.mulAddSmall multiplier addend).Normalised)) ∧
    (∀ bits : ℤ, (x.shiftLeft bits).value = x.value * 2 ^ bits.toNat % capacity ∧
      (x.value * 2 ^ bits.toNat < capacity → (x.shiftLeft bits).Normalised)) ∧
    (∀ divisor, 0 < divisor → (x.divModSmall divisor).1.value = x.value / divisor ∧
      (x.divModSmall divisor).2 = x.value % divisor ∧ (x.divModSmall divisor).1.Normalised) ∧
    (∀ count : ℤ, count ≤ 64 → (x.highBits count).1 = x.value / 2 ^ (x.value.size - count.toNat) ∧
      ((x.highBits count).2 = true ↔ x.value % 2 ^ (x.value.size - count : ℤ).toNat ≠ 0)) ∧
    (∀ index : ℤ, x.bitAt index = true ↔ 0 ≤ index ∧ x.value.testBit index.toNat = true) ∧
    ∀ index : ℤ, x.anyBitBelow index = true ↔ x.value % 2 ^ index.toNat ≠ 0 :=
  ⟨fun _ _ => ⟨x.value_mulAddSmall .., h.mulAddSmall⟩,
    fun bits => ⟨x.value_shiftLeft bits, h.shiftLeft⟩,
    fun _ hd => x.divModSmall_spec hd,
    fun _ h64 => h.holds.highBits_int h64,
    h.holds.bitAt_int,
    h.holds.anyBitBelow_int⟩

theorem operations_exact_small :
    ((setU64 (2 ^ 40)).mulAddSmall 10 7).value = (setU64 (2 ^ 40)).value * 10 + 7 := by
  obtain ⟨hmul, -⟩ := operations_exact (setU64 (2 ^ 40)) (by decide +kernel)
  rw [(hmul 10 7).1]
  decide +kernel

/-- All limbs are in use. -/
def full : BigUInt where
  limbs := List.replicate kMaxLimbs (2 ^ kLimbBits - 1)
  limb_lt l hl := by
    rw [List.eq_of_mem_replicate hl]
    decide
  used_le := by rw [List.length_replicate]

/-- A result that needs one limb more than there are is cut, 65 bits do not fit into a `u64`, and a
multiplication by zero leaves a zero limb in use. -/
theorem operations_inexact : (full.Normalised ∧ (full.mulAddSmall 2 0).value ≠ full.value * 2 + 0 ∧
      (full.shiftLeft 1).value ≠ full.value * 2 ^ 1 ∧
        (full.highBits 65).1 ≠ full.value / 2 ^ (full.bitLength - 65)) ∧
      (setU64 1).Normalised ∧ ¬((setU64 1).mulAddSmall 0 0).Normalised := by
  decide +kernel

end Operations

end Equilibrium.BigUInt
