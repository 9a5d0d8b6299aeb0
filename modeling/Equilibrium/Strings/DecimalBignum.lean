import Mathlib.Data.Nat.Digits.Lemmas
import Mathlib.Data.Nat.Size
import Mathlib.Data.List.DropRight

/-! The fixed-capacity big integer of `base/strings/decimal_bignum.h`. The value
is the list of the used limbs, least significant first; limbs above the used
ones are never read. `Holds` says that the limbs are the base `2 ^ 32` digits of
a number, with no leading zero limb, and every operation that stays within the
capacity keeps it. -/

namespace Equilibrium

open List Nat

def kLimbBits : Nat := 32

def kMaxLimbs : Nat := 224

structure BigUInt where
  limbs : List Nat
  limb_lt : ∀ l ∈ limbs, l < 2 ^ kLimbBits
  used_le : limbs.length ≤ kMaxLimbs

namespace BigUInt

def Holds (x : BigUInt) (n : Nat) : Prop := x.limbs = Nat.digits (2 ^ kLimbBits) n

def capacity : Nat := (2 ^ kLimbBits) ^ kMaxLimbs

theorem mul_pow_le_mul_pow {a b c p q : Nat} (hc : 0 < c) (hab : a ≤ b) (hpq : p ≤ q) :
    a * c ^ p ≤ b * c ^ q :=
  Nat.mul_le_mul hab (Nat.pow_le_pow_right hc hpq)

theorem one_lt_base : 1 < 2 ^ kLimbBits := by norm_num [kLimbBits]

theorem Holds.lt_pow_used {x : BigUInt} {n : Nat} (h : x.Holds n) :
    n < (2 ^ kLimbBits) ^ x.limbs.length := by
  rw [h]
  exact lt_base_pow_length_digits one_lt_base

/-- The limbs a carry appends while it is not zero and there is room. -/
def carryLimbs : Nat → Nat → List Nat
  | 0, _ => []
  | room + 1, carry =>
    if carry = 0 then [] else carry % 2 ^ kLimbBits :: carryLimbs room (carry / 2 ^ kLimbBits)

theorem carryLimbs_lt {room carry : Nat} : ∀ l ∈ carryLimbs room carry, l < 2 ^ kLimbBits := by
  induction room generalizing carry with
  | zero => simp [carryLimbs]
  | succ room ih =>
    unfold carryLimbs
    split
    · simp
    · rw [forall_mem_cons]
      exact ⟨mod_lt _ (by positivity), ih⟩

theorem carryLimbs_length {room carry : Nat} : (carryLimbs room carry).length ≤ room := by
  induction room generalizing carry with
  | zero => simp [carryLimbs]
  | succ room ih =>
    unfold carryLimbs
    split
    · simp
    · rw [length_cons]
      exact succ_le_succ ih

theorem carryLimbs_eq {room carry : Nat} (h : carry < (2 ^ kLimbBits) ^ room) :
    carryLimbs room carry = digits (2 ^ kLimbBits) carry := by
  induction room generalizing carry with
  | zero =>
    have hzero : carry = 0 := by simpa using h
    simp [carryLimbs, hzero]
  | succ room ih =>
    unfold carryLimbs
    split
    · next hzero => simp [hzero]
    · next hne =>
      have hdiv : carry / 2 ^ kLimbBits < (2 ^ kLimbBits) ^ room := by
        rw [pow_succ'] at h
        exact Nat.div_lt_of_lt_mul h
      rw [ih hdiv, digits_def' one_lt_base (Nat.pos_of_ne_zero hne)]

/-- `SetU64`: a `u64` fills at most two limbs. -/
def setU64 (value : Nat) : BigUInt where
  limbs := carryLimbs 2 (value % 2 ^ 64)
  limb_lt := carryLimbs_lt
  used_le := carryLimbs_length.trans (by norm_num [kMaxLimbs])

theorem holds_setU64 {value : Nat} (h : value < 2 ^ 64) : (setU64 value).Holds value := by
  have hbound : value < (2 ^ kLimbBits) ^ 2 := by
    rw [← pow_mul]
    exact h
  simp only [Holds, setU64, mod_eq_of_lt h, carryLimbs_eq hbound]

/-- A `BigUInt` before any operation has no used limb. -/
def zero : BigUInt := ⟨[], by simp, by simp⟩

theorem holds_zero : zero.Holds 0 := by simp [Holds, zero]

def isZero (x : BigUInt) : Bool := x.limbs.length = 0

theorem Holds.isZero_iff {x : BigUInt} {n : Nat} (h : x.Holds n) : x.isZero = true ↔ n = 0 := by
  rw [isZero, decide_eq_true_eq, length_eq_zero_iff, show x.limbs = _ from h,
    digits_eq_nil_iff_eq_zero]

/-- The loop of `MulAddSmall` over the limbs; no product leaves a `u64`. -/
def mulAddLimbs (multiplier : Nat) (room : Nat) : Nat → List Nat → List Nat
  | carry, [] => carryLimbs room carry
  | carry, l :: ls =>
    let product := l * multiplier + carry
    product % 2 ^ kLimbBits :: mulAddLimbs multiplier room (product / 2 ^ kLimbBits) ls

theorem mulAddLimbs_lt {multiplier room carry : Nat} {ls : List Nat} :
    ∀ l ∈ mulAddLimbs multiplier room carry ls, l < 2 ^ kLimbBits := by
  induction ls generalizing carry with
  | nil => exact carryLimbs_lt
  | cons l ls ih =>
    unfold mulAddLimbs
    rw [forall_mem_cons]
    exact ⟨mod_lt _ (by positivity), ih⟩

theorem mulAddLimbs_length {multiplier room carry : Nat} {ls : List Nat} :
    (mulAddLimbs multiplier room carry ls).length ≤ ls.length + room := by
  induction ls generalizing carry with
  | nil => simpa [mulAddLimbs] using carryLimbs_length
  | cons l ls ih =>
    unfold mulAddLimbs
    simp only [length_cons]
    have := @ih ((l * multiplier + carry) / 2 ^ kLimbBits)
    omega

theorem mulAddLimbs_eq {multiplier room carry n : Nat} (hm : 0 < multiplier)
    (h : n * multiplier + carry <
      (2 ^ kLimbBits) ^ ((digits (2 ^ kLimbBits) n).length + room)) :
    mulAddLimbs multiplier room carry (digits (2 ^ kLimbBits) n) =
      digits (2 ^ kLimbBits) (n * multiplier + carry) := by
  induction n using Nat.strong_induction_on generalizing carry with
  | _ n ih =>
    rcases Nat.eq_zero_or_pos n with rfl | hn
    · simp only [digits_zero, length_nil, Nat.zero_mul, Nat.zero_add] at h ⊢
      exact carryLimbs_eq h
    · rw [digits_def' one_lt_base hn, length_cons] at h
      rw [digits_def' one_lt_base hn, mulAddLimbs]
      generalize hB : 2 ^ kLimbBits = B at *
      have hBpos : 0 < B := hB ▸ by positivity
      have hsplit : n * multiplier + carry =
          n % B * multiplier + carry + B * (n / B * multiplier) := by
        conv_lhs => rw [← mod_add_div n B]
        ring
      have hdiv : (n * multiplier + carry) / B =
          n / B * multiplier + (n % B * multiplier + carry) / B := by
        rw [hsplit, add_mul_div_left _ _ hBpos, Nat.add_comm]
      have hmod : (n * multiplier + carry) % B = (n % B * multiplier + carry) % B := by
        rw [hsplit, add_mul_mod_self_left]
      have hbound : n / B * multiplier + (n % B * multiplier + carry) / B <
          B ^ ((digits B (n / B)).length + room) := by
        rw [← hdiv]
        refine Nat.div_lt_of_lt_mul ?_
        rw [← pow_succ']
        convert h using 2
        omega
      rw [ih (n / B) (Nat.div_lt_self hn (hB ▸ one_lt_base)) hbound,
        digits_def' (hB ▸ one_lt_base) (show 0 < n * multiplier + carry by positivity),
        hmod, hdiv]

def mulAddSmall (x : BigUInt) (multiplier addend : Nat) : BigUInt where
  limbs := mulAddLimbs multiplier (kMaxLimbs - x.limbs.length) addend x.limbs
  limb_lt := mulAddLimbs_lt
  used_le := by
    have := @mulAddLimbs_length multiplier (kMaxLimbs - x.limbs.length) addend x.limbs
    have := x.used_le
    omega

theorem Holds.mulAddSmall {x : BigUInt} {n multiplier addend : Nat} (h : x.Holds n)
    (hm : 0 < multiplier) (hlt : n * multiplier + addend < capacity) :
    (x.mulAddSmall multiplier addend).Holds (n * multiplier + addend) := by
  have hroom : n * multiplier + addend < (2 ^ kLimbBits) ^
      ((digits (2 ^ kLimbBits) n).length + (kMaxLimbs - x.limbs.length)) := by
    rwa [← show x.limbs = _ from h, add_sub_of_le x.used_le]
  have hlimbs := mulAddLimbs_eq hm hroom
  rwa [← show x.limbs = _ from h] at hlimbs

def mulSmall (x : BigUInt) (multiplier : Nat) : BigUInt := x.mulAddSmall multiplier 0

theorem Holds.mulSmall {x : BigUInt} {n multiplier : Nat} (h : x.Holds n)
    (hm : 0 < multiplier) (hlt : n * multiplier < capacity) :
    (x.mulSmall multiplier).Holds (n * multiplier) :=
  h.mulAddSmall hm hlt

/-- The loop of `ShiftLeft` that moves bits inside the limbs. -/
def shiftLimbs (part room : Nat) : Nat → List Nat → List Nat
  | carry, [] => if carry ≠ 0 ∧ 0 < room then [carry] else []
  | carry, l :: ls =>
    ((l <<< part) % 2 ^ kLimbBits ||| carry) :: shiftLimbs part room (l >>> (kLimbBits - part)) ls

theorem shiftLimbs_lt {part room carry : Nat} {ls : List Nat} (hc : carry < 2 ^ kLimbBits)
    (hls : ∀ l ∈ ls, l < 2 ^ kLimbBits) :
    ∀ l ∈ shiftLimbs part room carry ls, l < 2 ^ kLimbBits := by
  induction ls generalizing carry with
  | nil =>
    unfold shiftLimbs
    split <;> simp [hc]
  | cons l ls ih =>
    obtain ⟨hl, hls⟩ := forall_mem_cons.mp hls
    unfold shiftLimbs
    rw [forall_mem_cons]
    exact ⟨or_lt_two_pow (mod_lt _ (by positivity)) hc,
      ih ((shiftRight_le _ _).trans_lt hl) hls⟩

theorem shiftLimbs_length {part room carry : Nat} {ls : List Nat} :
    (shiftLimbs part room carry ls).length ≤ ls.length + room := by
  induction ls generalizing carry with
  | nil =>
    unfold shiftLimbs
    split
    · next h => simpa using succ_le_of_lt h.2
    · simp
  | cons l ls ih =>
    unfold shiftLimbs
    simp only [length_cons]
    have := @ih (l >>> (kLimbBits - part))
    omega

theorem shift_limb {part l carry : Nat} (hpart : part ≤ kLimbBits) (hc : carry < 2 ^ part) :
    ((l <<< part) % 2 ^ kLimbBits ||| carry) + 2 ^ kLimbBits * (l >>> (kLimbBits - part)) =
      l * 2 ^ part + carry := by
  have hpow : 2 ^ kLimbBits = 2 ^ part * 2 ^ (kLimbBits - part) := by
    rw [← pow_add, add_sub_of_le hpart]
  have hkeep : (l <<< part) % 2 ^ kLimbBits = 2 ^ part * (l % 2 ^ (kLimbBits - part)) := by
    rw [shiftLeft_eq, hpow, Nat.mul_comm l, mul_mod_mul_left]
  rw [hkeep, ← two_pow_add_eq_or_of_lt hc, hpow, shiftRight_eq_div_pow]
  conv_rhs => rw [← mod_add_div l (2 ^ (kLimbBits - part))]
  ring

theorem shiftLimbs_eq {part room carry n : Nat} (hpart : part < kLimbBits) (hc : carry < 2 ^ part)
    (h : n * 2 ^ part + carry <
      (2 ^ kLimbBits) ^ ((digits (2 ^ kLimbBits) n).length + room)) :
    shiftLimbs part room carry (digits (2 ^ kLimbBits) n) =
      digits (2 ^ kLimbBits) (n * 2 ^ part + carry) := by
  induction n using Nat.strong_induction_on generalizing carry with
  | _ n ih =>
    rcases Nat.eq_zero_or_pos n with rfl | hn
    · simp only [digits_zero, length_nil, Nat.zero_mul, Nat.zero_add] at h ⊢
      unfold shiftLimbs
      by_cases hzero : carry = 0
      · simp [hzero]
      · have hroom : 0 < room := by
          by_contra hroom
          rw [Nat.eq_zero_of_not_pos hroom, pow_zero] at h
          omega
        have hlt : carry < 2 ^ kLimbBits :=
          hc.trans (Nat.pow_lt_pow_right (by norm_num) hpart)
        rw [if_pos ⟨hzero, hroom⟩, digits_of_lt _ _ hzero hlt]
    · rw [digits_def' one_lt_base hn, length_cons] at h
      rw [digits_def' one_lt_base hn, shiftLimbs]
      have hlimb := @shift_limb part (n % 2 ^ kLimbBits) carry hpart.le hc
      have hcarry : (n % 2 ^ kLimbBits) >>> (kLimbBits - part) < 2 ^ part := by
        rw [shiftRight_eq_div_pow]
        refine Nat.div_lt_of_lt_mul ?_
        rw [← pow_add, Nat.sub_add_cancel hpart.le]
        exact mod_lt _ (by positivity)
      have hlow : (((n % 2 ^ kLimbBits) <<< part) % 2 ^ kLimbBits ||| carry) < 2 ^ kLimbBits :=
        or_lt_two_pow (mod_lt _ (by positivity))
          (hc.trans (Nat.pow_lt_pow_right (by norm_num) hpart))
      generalize ((n % 2 ^ kLimbBits) <<< part) % 2 ^ kLimbBits ||| carry = low at *
      generalize (n % 2 ^ kLimbBits) >>> (kLimbBits - part) = next at *
      have hsum : n * 2 ^ part + carry =
          low + 2 ^ kLimbBits * (n / 2 ^ kLimbBits * 2 ^ part + next) := by
        rw [mul_add, ← mul_assoc]
        conv_lhs => rw [← mod_add_div n (2 ^ kLimbBits)]
        linarith
      have hpos : 0 < 2 ^ kLimbBits := by positivity
      have hdiv : (n * 2 ^ part + carry) / 2 ^ kLimbBits = n / 2 ^ kLimbBits * 2 ^ part + next := by
        rw [hsum, add_mul_div_left _ _ hpos, div_eq_of_lt hlow, Nat.zero_add]
      have hmod : (n * 2 ^ part + carry) % 2 ^ kLimbBits = low := by
        rw [hsum, add_mul_mod_self_left, mod_eq_of_lt hlow]
      have hbound : n / 2 ^ kLimbBits * 2 ^ part + next <
          (2 ^ kLimbBits) ^ ((digits (2 ^ kLimbBits) (n / 2 ^ kLimbBits)).length + room) := by
        rw [← hdiv]
        refine Nat.div_lt_of_lt_mul ?_
        rw [← pow_succ']
        convert h using 2
        omega
      rw [ih (n / 2 ^ kLimbBits) (Nat.div_lt_self hn one_lt_base) hcarry hbound,
        digits_def' one_lt_base (show 0 < n * 2 ^ part + carry by positivity), hmod, hdiv]

/-- The first half of `ShiftLeft`: by less than a limb. -/
def shiftPart (x : BigUInt) (part : Nat) : BigUInt where
  limbs := shiftLimbs part (min (kMaxLimbs - x.limbs.length) 1) 0 x.limbs
  limb_lt := shiftLimbs_lt (by positivity) x.limb_lt
  used_le := by
    have := @shiftLimbs_length part (min (kMaxLimbs - x.limbs.length) 1) 0 x.limbs
    have := x.used_le
    omega

/-- The second half of `ShiftLeft`: by whole limbs, which past the capacity are dropped. -/
def shiftWhole (x : BigUInt) (whole : Nat) : BigUInt where
  limbs := (List.replicate whole 0 ++ x.limbs).take kMaxLimbs
  limb_lt := fun l hl => by
    rcases List.mem_append.mp (List.mem_of_mem_take hl) with h | h
    · rw [List.eq_of_mem_replicate h]
      positivity
    · exact x.limb_lt l h
  used_le := by simp

def shiftLeft (x : BigUInt) (bits : ℤ) : BigUInt :=
  if x.isZero ∨ bits ≤ 0 then x
  else
    let whole := bits.toNat / kLimbBits
    let part := bits.toNat % kLimbBits
    let shifted := if part ≠ 0 then x.shiftPart part else x
    if whole ≠ 0 then shifted.shiftWhole whole else shifted

theorem pow_length_digits_le {n : Nat} (hn : n ≠ 0) :
    (2 ^ kLimbBits) ^ ((digits (2 ^ kLimbBits) n).length - 1) ≤ n := by
  have hlen := length_digits (2 ^ kLimbBits) n one_lt_base hn
  rw [hlen, Nat.add_sub_cancel]
  exact pow_log_le_self _ hn

theorem length_digits_le {n : Nat} (hlt : n < capacity) :
    (digits (2 ^ kLimbBits) n).length ≤ kMaxLimbs :=
  (digits_length_le_iff one_lt_base n).mpr hlt

theorem Holds.shiftPart {x : BigUInt} {n part : Nat} (h : x.Holds n) (hpart : part < kLimbBits)
    (hlt : n * 2 ^ part < capacity) : (x.shiftPart part).Holds (n * 2 ^ part) := by
  have hroom : n * 2 ^ part + 0 < (2 ^ kLimbBits) ^ ((digits (2 ^ kLimbBits) n).length +
      min (kMaxLimbs - x.limbs.length) 1) := by
    rw [← show x.limbs = _ from h]
    have hused := x.used_le
    by_cases hfull : x.limbs.length = kMaxLimbs
    · rw [hfull, Nat.sub_self]
      exact hlt
    · have hmin : min (kMaxLimbs - x.limbs.length) 1 = 1 := by omega
      rw [hmin, pow_succ, Nat.add_zero]
      exact Nat.mul_lt_mul'' h.lt_pow_used (Nat.pow_lt_pow_right (by norm_num) hpart)
  have hlimbs := shiftLimbs_eq hpart (by positivity) hroom
  rwa [← show x.limbs = _ from h] at hlimbs

theorem Holds.shiftWhole {x : BigUInt} {n whole : Nat} (h : x.Holds n) (hn : 0 < n)
    (hlt : n * 2 ^ (kLimbBits * whole) < capacity) :
    (x.shiftWhole whole).Holds (n * 2 ^ (kLimbBits * whole)) := by
  have hdigits : replicate whole 0 ++ x.limbs =
      digits (2 ^ kLimbBits) (n * 2 ^ (kLimbBits * whole)) := by
    rw [show x.limbs = _ from h, pow_mul, Nat.mul_comm n, digits_base_pow_mul one_lt_base hn]
  rw [Holds, BigUInt.shiftWhole]
  dsimp only
  rw [hdigits]
  exact take_of_length_le (length_digits_le hlt)

theorem Holds.shiftLeft {x : BigUInt} {n bits : Nat} (h : x.Holds n)
    (hlt : n * 2 ^ bits < capacity) : (x.shiftLeft bits).Holds (n * 2 ^ bits) := by
  unfold BigUInt.shiftLeft
  by_cases hzero : n = 0
  · rw [if_pos (.inl (h.isZero_iff.mpr hzero)), hzero, Nat.zero_mul]
    rwa [hzero] at h
  · by_cases hbits : bits = 0
    · rw [if_pos (.inr (by omega)), hbits, pow_zero, Nat.mul_one]
      exact h
    · have hcond : ¬(x.isZero = true ∨ (bits : ℤ) ≤ 0) := by
        rw [h.isZero_iff]
        omega
      rw [if_neg hcond]
      simp only [Int.toNat_natCast]
      have hsplit : 2 ^ bits = 2 ^ (bits % kLimbBits) * 2 ^ (kLimbBits * (bits / kLimbBits)) := by
        rw [← pow_add, mod_add_div]
      have hpart : (if bits % kLimbBits ≠ 0 then x.shiftPart (bits % kLimbBits) else x).Holds
          (n * 2 ^ (bits % kLimbBits)) := by
        split
        · refine h.shiftPart (mod_lt _ (by norm_num [kLimbBits])) (lt_of_le_of_lt ?_ hlt)
          rw [hsplit, ← mul_assoc]
          exact Nat.le_mul_of_pos_right _ (by positivity)
        · next hnone =>
          rw [not_not.mp hnone, pow_zero, Nat.mul_one]
          exact h
      rw [hsplit, ← mul_assoc] at hlt ⊢
      split
      · exact hpart.shiftWhole (by positivity) hlt
      · next hnone =>
        rw [not_not.mp hnone, Nat.mul_zero, pow_zero, Nat.mul_one]
        exact hpart

/-- The loop of `DivModSmall`, from the highest limb down: the quotient limbs and
the remainder. -/
def divLimbs (divisor : Nat) : List Nat → List Nat × Nat
  | [] => ([], 0)
  | l :: ls =>
    let higher := divLimbs divisor ls
    let current := higher.2 * 2 ^ kLimbBits + l
    (current / divisor % 2 ^ kLimbBits :: higher.1, current % divisor)

theorem divLimbs_lt {divisor : Nat} {ls : List Nat} :
    ∀ l ∈ (divLimbs divisor ls).1, l < 2 ^ kLimbBits := by
  induction ls with
  | nil => simp [divLimbs]
  | cons l ls ih =>
    unfold divLimbs
    rw [forall_mem_cons]
    exact ⟨mod_lt _ (by positivity), ih⟩

theorem divLimbs_length {divisor : Nat} {ls : List Nat} :
    (divLimbs divisor ls).1.length = ls.length := by
  induction ls with
  | nil => simp [divLimbs]
  | cons l ls ih => simp only [divLimbs, length_cons, ih]

theorem divLimbs_spec {divisor : Nat} (hd : 0 < divisor) {ls : List Nat}
    (hls : ∀ l ∈ ls, l < 2 ^ kLimbBits) : ofDigits (2 ^ kLimbBits) (divLimbs divisor ls).1 =
        ofDigits (2 ^ kLimbBits) ls / divisor ∧
      (divLimbs divisor ls).2 = ofDigits (2 ^ kLimbBits) ls % divisor := by
  induction ls with
  | nil => simp [divLimbs]
  | cons l ls ih =>
    obtain ⟨hl, hls⟩ := forall_mem_cons.mp hls
    obtain ⟨hquot, hrem⟩ := ih hls
    unfold divLimbs
    dsimp only
    rw [ofDigits_cons, ofDigits_cons, hquot, hrem]
    generalize ofDigits (2 ^ kLimbBits) ls = n
    generalize 2 ^ kLimbBits = B at hl
    have hrest := mod_lt n hd
    have hcurrent : (n % divisor * B + l) / divisor < B := by
      refine Nat.div_lt_of_lt_mul ?_
      have := Nat.mul_le_mul_right B (succ_le_of_lt hrest)
      rw [succ_mul] at this
      omega
    have hsplit : l + B * n = n % divisor * B + l + divisor * (B * (n / divisor)) := by
      conv_lhs => rw [← mod_add_div n divisor]
      ring
    rw [mod_eq_of_lt hcurrent, hsplit, add_mul_div_left _ _ hd,
      add_mul_mod_self_left]
    exact ⟨rfl, rfl⟩

theorem trim_eq_digits {ls : List Nat} (hls : ∀ l ∈ ls, l < 2 ^ kLimbBits) :
    ls.rdropWhile (· = 0) = digits (2 ^ kLimbBits) (ofDigits (2 ^ kLimbBits) ls) := by
  induction ls using reverseRecOn with
  | nil => simp
  | append_singleton ls l ih =>
    by_cases hzero : l = 0
    · rw [rdropWhile_concat_pos _ _ _ (by simpa using hzero),
        ih fun a ha => hls a (mem_append_left _ ha), hzero, ofDigits_append_zero]
    · rw [rdropWhile_concat_neg _ _ _ (by simpa using hzero)]
      refine (digits_ofDigits _ one_lt_base _ hls fun hne => ?_).symm
      simpa using hzero

def divModSmall (x : BigUInt) (divisor : Nat) : BigUInt × Nat :=
  let divided := divLimbs divisor x.limbs
  ({ limbs := divided.1.rdropWhile (· = 0)
     limb_lt := fun l hl => divLimbs_lt l ((List.rdropWhile_prefix _ _).subset hl)
     used_le := ((List.rdropWhile_prefix _ _).length_le.trans_eq divLimbs_length).trans x.used_le },
    divided.2)

theorem Holds.divModSmall {x : BigUInt} {n divisor : Nat} (h : x.Holds n) (hd : 0 < divisor) :
    (x.divModSmall divisor).1.Holds (n / divisor) ∧ (x.divModSmall divisor).2 = n % divisor := by
  obtain ⟨hquot, hrem⟩ := divLimbs_spec hd x.limb_lt
  have hvalue : ofDigits (2 ^ kLimbBits) x.limbs = n := by
    rw [show x.limbs = _ from h, ofDigits_digits]
  rw [hvalue] at hquot hrem
  refine ⟨?_, hrem⟩
  rw [← hquot]
  exact trim_eq_digits (@divLimbs_lt divisor x.limbs)

def bitCount : Nat → Nat → Nat
  | 0, _ => 0
  | fuel + 1, v => if v = 0 then 0 else bitCount fuel (v >>> 1) + 1

theorem bitCount_eq {fuel v : Nat} (h : v < 2 ^ fuel) : bitCount fuel v = v.size := by
  induction fuel generalizing v with
  | zero =>
    have hzero : v = 0 := by simpa using h
    simp [bitCount, hzero]
  | succ fuel ih =>
    unfold bitCount
    split
    · next hzero => simp [hzero]
    · next hne =>
      have hbit := bit_bodd_div2 v
      rw [shiftRight_one, ih (by omega), ← div2_val]
      conv_rhs => rw [← hbit, size_bit (by rwa [hbit])]

theorem size_div_two_pow (n m : Nat) : (n / 2 ^ m).size = n.size - m := by
  refine eq_of_forall_ge_iff fun c => ?_
  rw [size_le, Nat.div_lt_iff_lt_mul (by positivity), ← pow_add, ← size_le]
  omega

def bitLength (x : BigUInt) : Nat :=
  if x.limbs.length = 0 then 0
  else (x.limbs.length - 1) * kLimbBits + bitCount kLimbBits (x.limbs.getD (x.limbs.length - 1) 0)

theorem Holds.limb {x : BigUInt} {n : Nat} (h : x.Holds n) (i : Nat) :
    x.limbs.getD i 0 = n / 2 ^ (kLimbBits * i) % 2 ^ kLimbBits := by
  rw [show x.limbs = _ from h, getD_digits _ _ one_lt_base, pow_mul]

theorem Holds.bitLength {x : BigUInt} {n : Nat} (h : x.Holds n) : x.bitLength = n.size := by
  unfold BigUInt.bitLength
  split
  · next hnil =>
    have hzero : n = 0 := h.isZero_iff.mp (by simpa [isZero] using hnil)
    simp [hzero]
  · next hne =>
    have hn : n ≠ 0 := fun hzero => hne (by simpa [isZero] using h.isZero_iff.mpr hzero)
    have hlt := h.lt_pow_used
    have hle := pow_length_digits_le hn
    rw [← show x.limbs = _ from h, ← pow_mul] at hle
    rw [h.limb]
    generalize hk : x.limbs.length - 1 = k at *
    rw [show x.limbs.length = k + 1 by omega, ← pow_mul, mul_succ, pow_add] at hlt
    have htop : n / 2 ^ (kLimbBits * k) < 2 ^ kLimbBits := Nat.div_lt_of_lt_mul hlt
    rw [mod_eq_of_lt htop, bitCount_eq htop]
    have hsize : kLimbBits * k < n.size := lt_size.mpr hle
    rw [size_div_two_pow, Nat.mul_comm]
    omega

def bitAt (x : BigUInt) (index : ℤ) : Bool :=
  if index < 0 ∨ (x.limbs.length * kLimbBits : ℤ) ≤ index then false
  else (x.limbs.getD (index.toNat / kLimbBits) 0).testBit (index.toNat % kLimbBits)

theorem Holds.bitAt {x : BigUInt} {n : Nat} (h : x.Holds n) (i : Nat) :
    x.bitAt i = n.testBit i := by
  unfold BigUInt.bitAt
  split
  · next hout =>
    have hbound : kLimbBits * x.limbs.length ≤ i := by
      have : (x.limbs.length * kLimbBits : ℤ) ≤ i := hout.resolve_left (by omega)
      rw [Nat.mul_comm]
      exact_mod_cast this
    have hlt := h.lt_pow_used
    rw [← pow_mul] at hlt
    exact (testBit_lt_two_pow (hlt.trans_le (Nat.pow_le_pow_right (by norm_num) hbound))).symm
  · rw [Int.toNat_natCast, h.limb, testBit_mod_two_pow, testBit_div_two_pow,
      decide_eq_true (mod_lt _ (by norm_num [kLimbBits])), Bool.true_and, Nat.add_comm,
      div_add_mod]

/-- Whether any bit strictly below `index` is set. -/
def anyBitBelow (x : BigUInt) (index : ℤ) : Bool :=
  if index ≤ 0 then false
  else
    let limit := if index < x.limbs.length * kLimbBits then index else x.limbs.length * kLimbBits
    (List.range limit.toNat).any fun i => x.bitAt i

theorem exists_testBit_lt_iff {n i : Nat} : (∃ j < i, n.testBit j = true) ↔ n % 2 ^ i ≠ 0 := by
  constructor
  · rintro ⟨j, hj, hbit⟩ hzero
    have hmod := testBit_mod_two_pow n i j
    simp [hzero, hbit, hj] at hmod
  · intro hne
    by_contra hnone
    push Not at hnone
    refine hne (eq_of_testBit_eq fun j => ?_)
    rw [testBit_mod_two_pow, zero_testBit]
    by_cases hj : j < i
    · simp [hnone j hj]
    · simp [hj]

theorem Holds.anyBitBelow {x : BigUInt} {n : Nat} (h : x.Holds n) (i : Nat) :
    x.anyBitBelow i = true ↔ n % 2 ^ i ≠ 0 := by
  have hlt := h.lt_pow_used
  rw [← pow_mul, Nat.mul_comm] at hlt
  unfold BigUInt.anyBitBelow
  split
  · next hzero =>
    have hi : i = 0 := by omega
    simp [hi, mod_one]
  · have hany : ∀ k : Nat, ((range k).any fun j => x.bitAt j) = true ↔ n % 2 ^ k ≠ 0 := by
      intro k
      rw [← exists_testBit_lt_iff]
      simp [h.bitAt]
    dsimp only
    split
    · rw [Int.toNat_natCast]
      exact hany i
    · next hout =>
      have hused : x.limbs.length * kLimbBits ≤ i := by
        have := not_lt.mp hout
        exact_mod_cast this
      have hcast : ((x.limbs.length : ℤ) * (kLimbBits : ℤ)).toNat = x.limbs.length * kLimbBits := by
        rw [← cast_mul, Int.toNat_natCast]
      rw [hcast, hany, mod_eq_of_lt hlt,
        mod_eq_of_lt (hlt.trans_le (Nat.pow_le_pow_right (by norm_num) hused))]

/-- The `u64` of `HighBits` after its loop has taken the given number of bits. -/
def highBitsAfter (x : BigUInt) : Nat → Nat
  | 0 => 0
  | taken + 1 =>
    (x.highBitsAfter taken <<< 1) % 2 ^ 64 |||
      if x.bitAt (x.bitLength - 1 - taken) then 1 else 0

/-- The `count` highest bits, and whether a bit below them is set. -/
def highBits (x : BigUInt) (count : ℤ) : Nat × Bool :=
  let lowest := x.bitLength - count
  (x.highBitsAfter (min x.bitLength count.toNat),
    (List.range lowest.toNat).any fun i => x.bitAt i)

theorem Holds.highBitsAfter {x : BigUInt} {n : Nat} (h : x.Holds n) {taken : Nat}
    (hle : taken ≤ n.size) (h64 : taken ≤ 64) :
    x.highBitsAfter taken = n / 2 ^ (n.size - taken) := by
  induction taken with
  | zero => simp [BigUInt.highBitsAfter, div_eq_of_lt (lt_size_self n)]
  | succ taken ih =>
    have hsize : (n / 2 ^ (n.size - taken)).size ≤ taken := by
      rw [size_div_two_pow]
      omega
    have hlt : n / 2 ^ (n.size - taken) < 2 ^ taken := size_le.mp hsize
    have hwrap : (n / 2 ^ (n.size - taken)) <<< 1 < 2 ^ 64 := by
      rw [shiftLeft_eq]
      have : 2 ^ taken * 2 ^ 1 ≤ 2 ^ 64 := by
        rw [← pow_add]
        exact Nat.pow_le_pow_right (by norm_num) (by omega)
      omega
    have hindex : ((x.bitLength : ℤ) - 1 - (taken : ℤ)) = ((n.size - (taken + 1) : Nat) : ℤ) := by
      rw [h.bitLength]
      omega
    have hstep : n.size - taken = n.size - (taken + 1) + 1 := by omega
    have hhalf : n / 2 ^ (n.size - taken) = n / 2 ^ (n.size - (taken + 1)) / 2 := by
      rw [hstep, pow_succ, Nat.div_div_eq_div_mul]
    have hbit : n.testBit (n.size - (taken + 1)) =
        decide (n / 2 ^ (n.size - (taken + 1)) % 2 = 1) := by
      rw [testBit_eq_decide_div_mod_eq]
    rw [BigUInt.highBitsAfter, ih (by omega) (by omega), mod_eq_of_lt hwrap, hindex, h.bitAt,
      hbit, hhalf, shiftLeft_eq, pow_one]
    generalize n / 2 ^ (n.size - (taken + 1)) = m
    by_cases hodd : m % 2 = 1
    · have hor := two_pow_add_eq_or_of_lt (show 1 < 2 ^ 1 by norm_num) (m / 2)
      rw [if_pos (by simpa using hodd), Nat.mul_comm, ← hor]
      omega
    · rw [if_neg (by simpa using hodd), or_zero]
      omega

theorem Holds.highBits {x : BigUInt} {n count : Nat} (h : x.Holds n) (hle : count ≤ n.size)
    (h64 : count ≤ 64) : (x.highBits count).1 = n / 2 ^ (n.size - count) := by
  simp only [BigUInt.highBits, Int.toNat_natCast, h.bitLength, Nat.min_eq_right hle]
  exact h.highBitsAfter hle h64

end BigUInt

end Equilibrium
