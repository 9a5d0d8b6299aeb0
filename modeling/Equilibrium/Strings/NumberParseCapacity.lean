import Equilibrium.Strings.NumberParseScan

/-! The limbs that an operation of `BigUInt` needs. The code drops a carry or a shifted limb that
the capacity leaves no room for; a checked operation gives `none` there. What an operation needs
are the limbs of its exact result, so that none is dropped from a result below the capacity. -/

namespace Equilibrium.BigUInt

/-- The carry of `MulAddSmall` behind the last used limb. -/
def carryOut (multiplier : Nat) : Nat → List Nat → Nat
  | carry, [] => carry
  | carry, l :: ls => carryOut multiplier ((l * multiplier + carry) / 2 ^ kLimbBits) ls

def mulAddNeeds (x : BigUInt) (multiplier addend : Nat) : Nat :=
  x.limbs.length + (Nat.digits (2 ^ kLimbBits) (carryOut multiplier addend x.limbs)).length

def checkedMulAddSmall (x : BigUInt) (multiplier addend : Nat) : Option BigUInt :=
  if x.mulAddNeeds multiplier addend ≤ kMaxLimbs then some (x.mulAddSmall multiplier addend)
  else none

def checkedMulSmall (x : BigUInt) (multiplier : Nat) : Option BigUInt :=
  x.checkedMulAddSmall multiplier 0

/-- The carry of `ShiftLeft` out of the last used limb. -/
def shiftOut (part : Nat) : Nat → List Nat → Nat
  | carry, [] => carry
  | _, l :: ls => shiftOut part (l >>> (kLimbBits - part)) ls

def shiftNeeds (x : BigUInt) (bits : ℤ) : Nat :=
  if x.isZero ∨ bits ≤ 0 then x.limbs.length
  else
    let whole := bits.toNat / kLimbBits
    let part := bits.toNat % kLimbBits
    let carried := if part ≠ 0 ∧ shiftOut part 0 x.limbs ≠ 0 then 1 else 0
    x.limbs.length + carried + whole

def checkedShiftLeft (x : BigUInt) (bits : ℤ) : Option BigUInt :=
  if x.shiftNeeds bits ≤ kMaxLimbs then some (x.shiftLeft bits) else none

variable {x : BigUInt} {n multiplier addend bits : Nat}

theorem length_mulAddLimbs {room carry : Nat} (ls : List Nat) :
    (mulAddLimbs multiplier room carry ls).length =
      ls.length + (carryLimbs room (carryOut multiplier carry ls)).length := by
  induction ls generalizing carry with
  | nil => rw [mulAddLimbs, carryOut, List.length_nil, Nat.zero_add]
  | cons l ls ih =>
    rw [mulAddLimbs, carryOut, List.length_cons, List.length_cons, ih]
    omega

theorem lt_base_pow_of_le {m room : Nat} (h : m ≤ room) : m < (2 ^ kLimbBits) ^ room :=
  (Nat.lt_pow_self one_lt_base).trans_le (Nat.pow_le_pow_right (by positivity) h)

theorem Holds.mulAddNeeds (h : x.Holds n) (hm : 0 < multiplier) : x.mulAddNeeds multiplier addend =
      (Nat.digits (2 ^ kLimbBits) (n * multiplier + addend)).length := by
  obtain ⟨room, hroom⟩ : ∃ room, room =
      n * multiplier + addend + carryOut multiplier addend x.limbs := ⟨_, rfl⟩
  have hsum : n * multiplier + addend < (2 ^ kLimbBits) ^
      ((Nat.digits (2 ^ kLimbBits) n).length + room) := lt_base_pow_of_le (by omega)
  have hcarry : carryOut multiplier addend x.limbs < (2 ^ kLimbBits) ^ room :=
    lt_base_pow_of_le (by omega)
  rw [← mulAddLimbs_eq hm hsum, ← show x.limbs = _ from h, length_mulAddLimbs,
    carryLimbs_eq hcarry, BigUInt.mulAddNeeds]

theorem Holds.checkedMulAddSmall (h : x.Holds n) (hm : 0 < multiplier)
    (hlt : n * multiplier + addend < capacity) :
    x.checkedMulAddSmall multiplier addend = some (x.mulAddSmall multiplier addend) := by
  have hneeds := length_digits_le hlt
  rw [← h.mulAddNeeds hm] at hneeds
  exact if_pos hneeds

theorem Holds.checkedMulSmall (h : x.Holds n) (hm : 0 < multiplier)
    (hlt : n * multiplier < capacity) :
    x.checkedMulSmall multiplier = some (x.mulSmall multiplier) :=
  h.checkedMulAddSmall hm hlt

theorem length_shiftLimbs {part carry : Nat} (ls : List Nat) : (shiftLimbs part 1 carry ls).length =
      ls.length + if shiftOut part carry ls ≠ 0 then 1 else 0 := by
  induction ls generalizing carry with
  | nil =>
    rw [shiftLimbs, shiftOut]
    by_cases hcarry : carry = 0
    · simp [hcarry]
    · simp [hcarry]
  | cons l ls ih =>
    rw [shiftLimbs, shiftOut, List.length_cons, List.length_cons, ih]
    omega

theorem length_digits_shift {part : Nat} (h : x.Holds n) (hpart : part < kLimbBits) :
    (Nat.digits (2 ^ kLimbBits) (n * 2 ^ part)).length =
      x.limbs.length + if part ≠ 0 ∧ shiftOut part 0 x.limbs ≠ 0 then 1 else 0 := by
  by_cases hzero : part = 0
  · rw [hzero, pow_zero, Nat.mul_one, if_neg (by simp), ← show x.limbs = _ from h, Nat.add_zero]
  · have hfit : n * 2 ^ part + 0 < (2 ^ kLimbBits) ^
        ((Nat.digits (2 ^ kLimbBits) n).length + 1) := by
      rw [← show x.limbs = _ from h, pow_succ, Nat.add_zero]
      exact Nat.mul_lt_mul'' h.lt_pow_used (Nat.pow_lt_pow_right (by norm_num) hpart)
    have hlimbs := shiftLimbs_eq hpart (by positivity) hfit
    rw [Nat.add_zero, ← show x.limbs = _ from h] at hlimbs
    rw [← hlimbs, length_shiftLimbs]
    simp [hzero]

theorem Holds.shiftNeeds (h : x.Holds n) :
    x.shiftNeeds bits = (Nat.digits (2 ^ kLimbBits) (n * 2 ^ bits)).length := by
  unfold BigUInt.shiftNeeds
  by_cases hzero : n = 0
  · rw [if_pos (.inl (h.isZero_iff.mpr hzero)), hzero, Nat.zero_mul]
    rw [hzero] at h
    rw [show x.limbs = _ from h]
  · by_cases hbits : bits = 0
    · rw [if_pos (.inr (by omega)), hbits, pow_zero, Nat.mul_one, show x.limbs = _ from h]
    · have hcond : ¬(x.isZero = true ∨ (bits : ℤ) ≤ 0) := by
        rw [h.isZero_iff]
        omega
      have hpart := length_digits_shift h (Nat.mod_lt bits (by decide))
      have hpos : 0 < n * 2 ^ (bits % kLimbBits) := by positivity
      have hsplit : n * 2 ^ bits =
          (2 ^ kLimbBits) ^ (bits / kLimbBits) * (n * 2 ^ (bits % kLimbBits)) := by
        rw [← pow_mul, Nat.mul_left_comm, ← pow_add, Nat.div_add_mod]
      rw [if_neg hcond, hsplit, Nat.digits_base_pow_mul one_lt_base hpos, List.length_append,
        List.length_replicate, hpart]
      simp only [Int.toNat_natCast]
      omega

theorem Holds.checkedShiftLeft (h : x.Holds n) (hlt : n * 2 ^ bits < capacity) :
    x.checkedShiftLeft bits = some (x.shiftLeft bits) := by
  have hneeds := length_digits_le hlt
  rw [← h.shiftNeeds] at hneeds
  exact if_pos hneeds

end Equilibrium.BigUInt

/-! `ParseFloat` with its big integer and its tables checked: `none` where a limb is dropped or an
index is past the table. No text gets there. The digits kept are below the power of ten of their
count, and a conversion is cut short unless the exponent leaves that product or that quotient
inside the capacity, whatever integer the exponent is. -/

namespace Equilibrium.NumberParse

open Library Option

namespace Checked

/-- `mulTens`, over the nine powers of its table. -/
def mulTens : Nat → BigUInt → Option BigUInt
  | power + 9, value => (value.checkedMulSmall 1000000000).bind (mulTens power)
  | power, value =>
    if power ≠ 0 then (kPow10.take 9)[power]?.bind value.checkedMulSmall else some value

def divTens : Nat → BigUInt → Bool → Option (BigUInt × Bool)
  | remaining + 9, value, sticky =>
    kPow10[9]?.bind fun ten =>
      let divided := value.divModSmall ten
      divTens remaining divided.1 (sticky || divided.2 ≠ 0)
  | remaining, value, sticky =>
    if remaining = 0 then some (value, sticky)
    else
      kPow10[remaining]?.map fun ten =>
        let divided := value.divModSmall ten
        (divided.1, sticky || divided.2 ≠ 0)

def decimalToDouble (digits : BigUInt) (decimalExponent : ℤ) (sticky negative : Bool) :
    Option Binary64 :=
  if digits.isZero then some (assembleDouble digits 0 false negative)
  else if 0 ≤ decimalExponent then
    (mulTens decimalExponent.toNat digits).map fun value => assembleDouble value 0 sticky negative
  else
    let power := (-decimalExponent).toNat
    let shift := shiftFor power
    ((digits.checkedShiftLeft shift).bind fun value => divTens power value sticky).map
      fun divided => assembleDouble divided.1 (-shift) divided.2 negative

def integerDigit (s : Scan) (digit : Nat) : Option Scan :=
  let s := { s with anyDigit := true }
  if s.digits.isZero ∧ digit = 0 then some s
  else if s.significant < kMaxSignificantDigits then
    (s.digits.checkedMulAddSmall 10 digit).map fun digits =>
      { s with digits := digits, significant := s.significant + 1 }
  else some { s with exponent := s.exponent + 1, sticky := s.sticky || digit ≠ 0 }

def fractionDigit (s : Scan) (digit : Nat) : Option Scan :=
  let s := { s with anyDigit := true }
  if s.digits.isZero ∧ digit = 0 then some { s with exponent := s.exponent - 1 }
  else if s.significant < kMaxSignificantDigits then
    (s.digits.checkedMulAddSmall 10 digit).map fun digits =>
      { s with digits := digits, significant := s.significant + 1, exponent := s.exponent - 1 }
  else some { s with sticky := s.sticky || digit ≠ 0 }

/-- The loop over the digits at the cursor. -/
def scanDigits (body : Scan → Nat → Option Scan) (p : List Char) (s : Option Scan) :
    Option Scan × List Char :=
  NumberParse.scanDigits (fun s digit => s.bind (body · digit)) p s

def scanFraction : List Char → Option Scan → Option Scan × List Char
  | '.' :: p, s => scanDigits fractionDigit p s
  | p, s => (s, p)

def convertScan (negative : Bool) (s : Scan) (exponent : ℤ) : Option Binary64 :=
  let magnitudeEstimate := s.significant + exponent
  if s.digits.isZero ∨ magnitudeEstimate < -400 then some (fromBits (signBit negative))
  else if magnitudeEstimate > 350 then some (infinity negative)
  else decimalToDouble s.digits exponent s.sticky negative

def parseNumber (negative : Bool) (p : List Char) : Option (Option (Binary64 × List Char)) :=
  let (s, p) := scanDigits integerDigit p (some Scan.start)
  let (s, p) := scanFraction p s
  s.bind fun s =>
    if !s.anyDigit then some none
    else
      let (written, p) := scanExponent p
      (convertScan negative s (s.exponent + written)).map fun x => some (x, p)

def parseFloat (text : Option (List Char)) : Option (Option (Binary64 × List Char)) :=
  match text with
  | none => some none
  | some text =>
    let (negative, p) := skipSpaceAndSign text
    match matchWord p ['i', 'n', 'f'] with
    | some p =>
      some (some (infinity negative, (matchWord p ['i', 'n', 'i', 't', 'y']).getD p))
    | none =>
      match matchWord p ['n', 'a', 'n'] with
      | some p => some (some (nan negative, p))
      | none => parseNumber negative p

end Checked

/-- The digits kept are as many as are counted, at most 800. -/
structure Kept (s : Scan) (D : Nat) : Prop where
  holds : s.digits.Holds D
  lt : D < 10 ^ s.significant
  le : s.significant ≤ kMaxSignificantDigits

section Conversion

variable {x : BigUInt} {n D power : Nat} {s : Scan}

theorem mulTens_checked (h : x.Holds n) (hlt : n * 10 ^ power < BigUInt.capacity) :
    Checked.mulTens power x = some (mulTens power x) := by
  induction power using Nat.strong_induction_on generalizing x n with
  | _ power ih =>
    by_cases hnine : 9 ≤ power
    · obtain ⟨rest, rfl⟩ := Nat.exists_eq_add_of_le' hnine
      have hsplit : n * 10 ^ (rest + 9) = n * 1000000000 * 10 ^ rest := by
        rw [pow_add]
        ring
      rw [hsplit] at hlt
      have hchunk : n * 1000000000 < BigUInt.capacity :=
        (Nat.le_mul_of_pos_right _ (by positivity)).trans_lt hlt
      rw [Checked.mulTens, mulTens, h.checkedMulSmall (by norm_num) hchunk, bind_some]
      exact ih rest (by omega) (h.mulSmall (by norm_num) hchunk) hlt
    · have hsmall : ∀ rest, power ≠ rest + 9 := fun rest heq => by omega
      rw [Checked.mulTens, mulTens]
      · by_cases hzero : power = 0
        · rw [if_neg (not_not.mpr hzero), if_neg (not_not.mpr hzero)]
        · have htable : (kPow10.take 9)[power]? = some (10 ^ power) ∧
              kPow10.getD power 1 = 10 ^ power := by
            have hall : ∀ power < 9, (kPow10.take 9)[power]? = some (10 ^ power) ∧
                kPow10.getD power 1 = 10 ^ power := by decide
            exact hall power (by omega)
          rw [if_pos hzero, if_pos hzero, htable.1, htable.2, bind_some]
          exact h.checkedMulSmall (by positivity) hlt
      · exact hsmall
      · exact hsmall

theorem divTens_checked (power : Nat) (x : BigUInt) (sticky : Bool) :
    Checked.divTens power x sticky = some (divTens power x sticky) := by
  induction power using Nat.strong_induction_on generalizing x sticky with
  | _ power ih =>
    by_cases hnine : 9 ≤ power
    · obtain ⟨rest, rfl⟩ := Nat.exists_eq_add_of_le' hnine
      rw [Checked.divTens, divTens]
      exact ih rest (by omega) _ _
    · have hsmall : ∀ rest, power ≠ rest + 9 := fun rest heq => by omega
      rw [Checked.divTens, divTens]
      · by_cases hzero : power = 0
        · rw [if_pos hzero, if_pos hzero]
        · have htable : kPow10[power]? = some (kPow10.getD power 1) := by
            have hall : ∀ power < 9, kPow10[power]? = some (kPow10.getD power 1) := by decide
            exact hall power (by omega)
          rw [if_neg hzero, if_neg hzero, htable]
          rfl
      · exact hsmall
      · exact hsmall

/-- Between the ranges that are cut short every step of the conversion fits, for any exponent. -/
theorem convertScan_checked (h : Kept s D) (negative : Bool) (exponent : ℤ) :
    Checked.convertScan negative s exponent = some (convertScan negative s exponent) := by
  have hsig : s.significant ≤ 800 := h.le
  unfold Checked.convertScan convertScan
  by_cases htiny : s.digits.isZero = true ∨ (s.significant : ℤ) + exponent < -400
  · rw [if_pos htiny, if_pos htiny]
  rw [if_neg htiny, if_neg htiny]
  by_cases hhuge : (s.significant : ℤ) + exponent > 350
  · rw [if_pos hhuge, if_pos hhuge]
  rw [if_neg hhuge, if_neg hhuge]
  obtain ⟨hnonzero, hlow⟩ := not_or.mp htiny
  unfold Checked.decimalToDouble decimalToDouble
  rw [if_neg hnonzero, if_neg hnonzero]
  by_cases hwhole : 0 ≤ exponent
  · obtain ⟨power, rfl⟩ := Int.eq_ofNat_of_zero_le hwhole
    have hfit : D * 10 ^ power < BigUInt.capacity := by
      have hpow : D * 10 ^ power < 10 ^ (s.significant + power) := by
        rw [pow_add]
        exact Nat.mul_lt_mul_of_pos_right h.lt (by positivity)
      have hle : 10 ^ (s.significant + power) ≤ 10 ^ kMaxSignificantDigits :=
        Nat.pow_le_pow_right (by norm_num)
          (show s.significant + power ≤ 800 by omega)
      exact (hpow.trans_le hle).trans kept_lt_capacity
    rw [if_pos hwhole, if_pos hwhole, Int.toNat_natCast, mulTens_checked h.holds hfit]
    rfl
  · obtain ⟨power, rfl⟩ : ∃ power : ℕ, exponent = -(power : ℤ) := ⟨(-exponent).toNat, by omega⟩
    have hfit : D * 2 ^ shiftFor power < BigUInt.capacity := by
      have hmax : 10 ^ kMaxSignificantDigits * 2 ^ 4060 < BigUInt.capacity := by decide +kernel
      have hshift := (shiftFor_spec (show power ≤ 1200 by omega)).2
      have hkept : D ≤ 10 ^ kMaxSignificantDigits :=
        h.lt.le.trans (Nat.pow_le_pow_right (by norm_num) h.le)
      exact (BigUInt.mul_pow_le_mul_pow (by norm_num) hkept hshift).trans_lt hmax
    rw [if_neg hwhole, if_neg hwhole, neg_neg, Int.toNat_natCast]
    dsimp only
    rw [h.holds.checkedShiftLeft hfit, bind_some, divTens_checked]
    rfl

end Conversion

section Scanning

variable {s : Scan} {D digit : Nat}

theorem kept_start : Kept Scan.start 0 :=
  ⟨BigUInt.holds_zero, by simp [Scan.start], by simp [Scan.start]⟩

theorem Kept.append_lt (h : Kept s D) (hroom : s.significant < kMaxSignificantDigits)
    (hdigit : digit < 10) : D * 10 + digit < BigUInt.capacity := by
  have hpow := Nat.pow_le_pow_right (show 0 < 10 by norm_num) (Nat.succ_le_of_lt hroom)
  have hcapacity := kept_lt_capacity
  have hlt := h.lt
  omega

theorem integerDigit_checked (h : Kept s D) (hdigit : digit < 10) :
    Checked.integerDigit s digit = some (integerDigit s digit) ∧
      ∃ D', Kept (integerDigit s digit) D' := by
  unfold Checked.integerDigit integerDigit
  dsimp only
  by_cases hzero : s.digits.isZero = true ∧ digit = 0
  · rw [if_pos hzero, if_pos hzero]
    exact ⟨rfl, D, h.holds, h.lt, h.le⟩
  rw [if_neg hzero, if_neg hzero]
  by_cases hroom : s.significant < kMaxSignificantDigits
  · have hfit := h.append_lt hroom hdigit
    rw [if_pos hroom, if_pos hroom, h.holds.checkedMulAddSmall (by norm_num) hfit]
    refine ⟨rfl, D * 10 + digit, h.holds.mulAddSmall (by norm_num) hfit, ?_, hroom⟩
    have hlt := h.lt
    rw [pow_succ]
    omega
  · rw [if_neg hroom, if_neg hroom]
    exact ⟨rfl, D, h.holds, h.lt, h.le⟩

theorem fractionDigit_checked (h : Kept s D) (hdigit : digit < 10) :
    Checked.fractionDigit s digit = some (fractionDigit s digit) ∧
      ∃ D', Kept (fractionDigit s digit) D' := by
  obtain ⟨heq, D', hkept⟩ := integerDigit_checked h hdigit
  constructor
  · unfold Checked.fractionDigit fractionDigit
    by_cases hzero : s.digits.isZero = true ∧ digit = 0
    · rw [if_pos hzero, if_pos hzero]
    rw [if_neg hzero, if_neg hzero]
    by_cases hroom : s.significant < kMaxSignificantDigits
    · rw [if_pos hroom, if_pos hroom,
        h.holds.checkedMulAddSmall (by norm_num) (h.append_lt hroom hdigit)]
      rfl
    · rw [if_neg hroom, if_neg hroom]
  · rw [fractionDigit_eq]
    exact ⟨D', hkept.holds, hkept.lt, hkept.le⟩

theorem digitOf_lt {c : Char} (h : isDigit c = true) : digitOf c < 10 := by
  rw [isDigit, decide_eq_true_eq] at h
  have hhigh : c.toNat ≤ '9'.toNat := h.2
  have hnine : '9'.toNat = 57 := rfl
  have hzero : '0'.toNat = 48 := rfl
  unfold digitOf
  omega

theorem scanDigits_checked {checked : Scan → Nat → Option Scan} {body : Scan → Nat → Scan}
    (hbody : ∀ {s D digit}, Kept s D → digit < 10 →
      checked s digit = some (body s digit) ∧ ∃ D', Kept (body s digit) D')
    (p : List Char) (h : Kept s D) : Checked.scanDigits checked p (some s) =
        (some (scanDigits body p s).1, (scanDigits body p s).2) ∧
      ∃ D', Kept (scanDigits body p s).1 D' := by
  unfold Checked.scanDigits
  induction p generalizing s D with
  | nil => exact ⟨rfl, D, h⟩
  | cons c p ih =>
    rw [scanDigits, scanDigits]
    by_cases hc : isDigit c = true
    · obtain ⟨heq, D', hkept⟩ := hbody h (digitOf_lt hc)
      rw [if_pos hc, if_pos hc, bind_some, heq]
      exact ih hkept
    · rw [if_neg hc, if_neg hc]
      exact ⟨rfl, D, h⟩

theorem scanFraction_checked (p : List Char) (h : Kept s D) :
    Checked.scanFraction p (some s) = (some (scanFraction p s).1, (scanFraction p s).2) ∧
      ∃ D', Kept (scanFraction p s).1 D' := by
  by_cases hdot : ∃ q, p = '.' :: q
  · obtain ⟨q, rfl⟩ := hdot
    exact scanDigits_checked fractionDigit_checked q h
  · have hother : ∀ q, p ≠ '.' :: q := fun q hq => hdot ⟨q, hq⟩
    rw [Checked.scanFraction.eq_2 p _ hother, scanFraction.eq_2 p _ hother]
    exact ⟨rfl, D, h⟩

theorem parseNumber_checked (negative : Bool) (p : List Char) :
    Checked.parseNumber negative p = some (parseNumber negative p) := by
  obtain ⟨hinteger, D, hkept⟩ := scanDigits_checked integerDigit_checked p kept_start
  obtain ⟨hfraction, D', hkept'⟩ :=
    scanFraction_checked (scanDigits integerDigit p Scan.start).2 hkept
  unfold Checked.parseNumber parseNumber
  dsimp only
  rw [hinteger]
  rw [hfraction]
  rw [bind_some]
  split
  · rfl
  · rw [convertScan_checked hkept']
    rfl

theorem parseFloat_checked (text : Option (List Char)) :
    Checked.parseFloat text = some (parseFloat text) := by
  cases text with
  | none => rfl
  | some text =>
    unfold Checked.parseFloat parseFloat
    rw [bind_some]
    dsimp only
    cases matchWord (skipSpaceAndSign text).2 ['i', 'n', 'f'] with
    | some p => rfl
    | none =>
      cases matchWord (skipSpaceAndSign text).2 ['n', 'a', 'n'] with
      | some p => rfl
      | none => exact parseNumber_checked _ _

end Scanning

end Equilibrium.NumberParse
