import Equilibrium.Library.Binary64
import Equilibrium.Library.DecimalNumeral
import Equilibrium.Strings.DecimalBignum
import Mathlib.Algebra.Order.Floor.Semifield

/-! Double to text, after `base/strings/float_format.cc`. The ASCII digits of an
expansion are kept as digits and written as characters. An `int` is an integer:
for a precision with `precision + 400` representable no step leaves the range. -/

namespace Equilibrium.FloatFormat

open Library Library.DecimalNumeral

/-! Exact decimal expansion. -/

def kPow5Table : List Nat :=
  [1, 5, 25, 125, 625, 3125, 15625, 78125, 390625, 1953125, 9765625, 48828125, 244140625]

/-- Significant digits, most significant first: the value is `0.digits * 10 ^ exponent`. -/
structure Decimal where
  digits : List (Fin 10)
  exponent : ℤ

namespace Decimal

def count (d : Decimal) : Nat := d.digits.length

def digitAt (d : Decimal) (index : ℤ) : Fin 10 :=
  if 0 ≤ index ∧ index < d.count then d.digits.getD index.toNat 0 else 0

end Decimal

def mulFives : Nat → BigUInt → BigUInt
  | power + 13, n => mulFives power (n.mulSmall 1220703125)
  | power, n => if power ≠ 0 then n.mulSmall (kPow5Table.getD power 1) else n

def groupDigits : Nat → Nat → List (Fin 10)
  | 0, _ => []
  | k + 1, group => Fin.ofNat 10 group :: groupDigits k (group / 10)

def extractDigits : Nat → BigUInt → List (Fin 10)
  | 0, _ => []
  | fuel + 1, n =>
    if n.isZero then []
    else
      let divided := n.divModSmall 1000000000
      groupDigits 9 divided.2 ++ extractDigits fuel divided.1

def expandExact (mantissa : Nat) (exponent2 : ℤ) : Decimal :=
  let n := BigUInt.setU64 mantissa
  let n := if 0 ≤ exponent2 then n.shiftLeft exponent2 else mulFives (-exponent2).toNat n
  let fractionDigits := if 0 ≤ exponent2 then 0 else -exponent2
  let reversed := (extractDigits (kMaxLimbs * kLimbBits) n).rdropWhile (· = 0)
  ⟨reversed.reverse, reversed.length - fractionDigits⟩

/-! Rounding. -/

/-- The carry loop of `RoundTo`, from the last digit: the digits one unit up, and
whether every digit was a nine. -/
def carryUp : List (Fin 10) → List (Fin 10) × Bool
  | [] => ([], true)
  | d :: ds =>
    let rest := carryUp ds
    if rest.2 then if d ≠ 9 then ((d + 1) :: rest.1, false) else (0 :: rest.1, true)
    else (d :: rest.1, false)

/-- The decision of `RoundTo` on the first dropped digit and what follows it. -/
def roundsUp (digits : List (Fin 10)) (keep : Nat) : Bool :=
  let firstDropped := digits.getD keep 0
  if 5 < firstDropped then true
  else if firstDropped < 5 then false
  else
    (digits.drop (keep + 1)).any (· ≠ 0) || decide (0 < keep) && (digits.getD (keep - 1) 0 : ℕ) % 2 ≠ 0

/-- Rounds the expansion to `keep` significant digits, half-to-even. -/
def roundTo (d : Decimal) (keep : ℤ) : Decimal :=
  if d.count ≤ keep then d
  else if keep < 0 then { d with digits := [] }
  else
    let kept := d.digits.take keep.toNat
    if roundsUp d.digits keep.toNat then
      let carried := carryUp kept
      if carried.2 then ⟨1 :: carried.1.tail, d.exponent + 1⟩ else { d with digits := carried.1 }
    else { d with digits := kept }

/-! Writing. -/

/-- The characters that fit the buffer, and the count of all of them. -/
structure Writer where
  capacity : Nat
  out : List Char
  length : Nat

namespace Writer

def put (w : Writer) (c : Char) : Writer :=
  { w with out := if w.length < w.capacity then w.out ++ [c] else w.out, length := w.length + 1 }

def putAll (w : Writer) (text : List Char) : Writer := text.foldl put w

end Writer

def writeSign (w : Writer) (negative : Bool) (sign : Char) : Writer :=
  if negative then w.put '-' else if sign = '+' ∨ sign = ' ' then w.put sign else w

/-- A loop that writes one digit for each index. -/
def writeDigits (w : Writer) (times : ℤ) (digit : ℤ → Fin 10) : Writer :=
  (List.range times.toNat).foldl (fun w (i : ℕ) => w.put (digitChar (digit i))) w

/-- `d.dddd` with `precision` digits after the point. -/
def writeFixed (w : Writer) (value : Decimal) (precision : ℤ) (alt : Bool) : Writer :=
  let w := if value.exponent ≤ 0 then w.put '0' else writeDigits w value.exponent value.digitAt
  if precision ≤ 0 then if alt then w.put '.' else w
  else writeDigits (w.put '.') precision fun k => value.digitAt (value.exponent + (k + 1) - 1)

def writeExponent (w : Writer) (exponent : ℤ) (uppercase : Bool) : Writer :=
  let w := w.put (if uppercase then 'E' else 'e')
  let w := w.put (if exponent < 0 then '-' else '+')
  let magnitude := (if exponent < 0 then -exponent else exponent).toNat
  if 100 ≤ magnitude then
    ((w.put (Char.ofNat (48 + magnitude / 100))).put
      (Char.ofNat (48 + magnitude / 10 % 10))).put (Char.ofNat (48 + magnitude % 10))
  else (w.put (Char.ofNat (48 + magnitude / 10))).put (Char.ofNat (48 + magnitude % 10))

/-- `d.dddde±XX` with `precision` digits after the point. -/
def writeScientific (w : Writer) (value : Decimal) (precision : ℤ) (alt uppercase : Bool) :
    Writer :=
  let zero := decide (value.count = 0)
  let w := w.put (digitChar (if zero then 0 else value.digitAt 0))
  let w :=
    if 0 < precision then writeDigits (w.put '.') precision fun i => value.digitAt (i + 1)
    else if alt then w.put '.'
    else w
  writeExponent w (if zero then 0 else value.exponent - 1) uppercase

/-- `%g`: the shorter of the two layouts, then no trailing zeros. -/
def writeGeneral (w : Writer) (value : Decimal) (precision : ℤ) (alt uppercase : Bool) : Writer :=
  let significant := if precision < 0 then 6 else if precision = 0 then 1 else precision
  let value := roundTo value significant
  let scientificExponent := if value.count = 0 then 0 else value.exponent - 1
  let value := if alt then value else { value with digits := value.digits.rdropWhile (· = 0) }
  if -4 ≤ scientificExponent ∧ scientificExponent < significant then
    let fraction :=
      if alt then significant - 1 - scientificExponent
      else
        let needed := value.count - value.exponent
        if 0 < needed then needed else 0
    writeFixed w value fraction alt
  else
    let fraction :=
      if alt then significant - 1 else if 0 < value.count then (value.count : ℤ) - 1 else 0
    writeScientific w value fraction alt uppercase

def writeNonFinite (w : Writer) (negative : Bool) (sign : Char) (isNan uppercase : Bool) :
    Writer :=
  (writeSign w negative sign).putAll
    (if isNan then if uppercase then ['N', 'A', 'N'] else ['n', 'a', 'n']
    else if uppercase then ['I', 'N', 'F'] else ['i', 'n', 'f'])

def writeFinite (w : Writer) (decimal : Decimal) (lower : Char) (precision : ℤ)
    (alt uppercase : Bool) : Writer :=
  let digits := if precision < 0 then 6 else precision
  if lower = 'e' then writeScientific w (roundTo decimal (digits + 1)) digits alt uppercase
  else if lower = 'g' then writeGeneral w decimal precision alt uppercase
  else
    let rounded := roundTo decimal (decimal.exponent + digits)
    let rounded := if rounded.count = 0 then { rounded with exponent := 1 } else rounded
    writeFixed w rounded digits alt

/-- The characters written into the buffer, and the length the conversion needs. -/
def formatFloatTo (capacity : Nat) (value : Binary64) (type : Char) (precision : ℤ) (sign : Char)
    (alt : Bool) : List Char × Nat :=
  let w : Writer := ⟨capacity, [], 0⟩
  let uppercase := decide ('A' ≤ type ∧ type ≤ 'Z')
  let lower := if uppercase then Char.ofNat (type.toNat - 'A'.toNat + 'a'.toNat) else type
  let negative := decide (value.bits / 2 ^ 63 ≠ 0)
  let biasedExponent : Nat := value.bits / 2 ^ 52 % 2 ^ 11
  let fraction := value.bits % 2 ^ 52
  if biasedExponent = 0x7FF then
    let w := writeNonFinite w negative sign (fraction ≠ 0) uppercase
    (w.out, w.length)
  else
    let mantissa := if biasedExponent = 0 then fraction else fraction ||| 2 ^ 52
    let exponent2 : ℤ := if biasedExponent = 0 then -1074 else (biasedExponent : ℤ) - 1075
    let decimal := if mantissa = 0 then ⟨[], 1⟩ else expandExact mantissa exponent2
    let w := writeFinite (writeSign w negative sign) decimal lower precision alt uppercase
    (w.out, w.length)

/-! The exact decimal expansion of a double: `ExpandExact` produces digits that
represent the value, and every digit of an expansion is a digit of the value. -/

open BigUInt List

/-- The expansion has the value, and its first digit is not zero. -/
structure Represents (d : Decimal) (x : ℚ) : Prop where
  value : (numeral d.digits : ℚ) * 10 ^ (d.exponent - d.count) = x
  leading : d.digits ≠ [] → 10 ^ (d.count - 1) ≤ numeral d.digits

variable {d : Decimal} {x : ℚ}

section

variable (h : Represents d x)
include h

theorem Represents.nonneg : 0 ≤ x := by
  rw [← h.value]
  positivity

theorem Represents.lt : x < 10 ^ d.exponent := by
  have hlt : (numeral d.digits : ℚ) < 10 ^ d.count := by exact_mod_cast numeral_lt d.digits
  have hsplit : (10 : ℚ) ^ d.exponent = 10 ^ d.count * 10 ^ (d.exponent - d.count) := by
    rw [← zpow_natCast, ← zpow_add₀ (by norm_num)]
    congr 1
    ring
  rw [← h.value, hsplit]
  exact mul_lt_mul_of_pos_right hlt (by positivity)

theorem Represents.le (hne : d.digits ≠ []) : (10 : ℚ) ^ (d.exponent - 1) ≤ x := by
  have hpos : 0 < d.count := length_pos_of_ne_nil hne
  have hle : (10 : ℚ) ^ (d.count - 1) ≤ numeral d.digits := by exact_mod_cast h.leading hne
  have hsplit : (10 : ℚ) ^ (d.exponent - 1) = 10 ^ (d.count - 1) * 10 ^ (d.exponent - d.count) := by
    rw [← zpow_natCast, ← zpow_add₀ (by norm_num)]
    congr 1
    omega
  rw [← h.value, hsplit]
  exact mul_le_mul_of_nonneg_right hle (by positivity)

theorem Represents.eq_zero_iff : x = 0 ↔ d.digits = [] := by
  constructor
  · intro hx
    by_contra hne
    have := h.le hne
    rw [hx] at this
    exact absurd this (not_le.mpr (by positivity))
  · intro hnil
    rw [← h.value, hnil, numeral_nil, Nat.cast_zero, zero_mul]

theorem Represents.log (hne : d.digits ≠ []) : Int.log 10 x = d.exponent - 1 := by
  have hpos : 0 < x := lt_of_lt_of_le (by positivity) (h.le hne)
  apply le_antisymm
  · have := (Int.lt_zpow_iff_log_lt (by norm_num) hpos).mp (show x < ((10 : ℕ) : ℚ) ^ d.exponent from h.lt)
    omega
  · exact (Int.zpow_le_iff_le_log (by norm_num) hpos).mp (h.le hne)

theorem Represents.digitAt (i : ℤ) :
    d.digitAt i = Fin.ofNat 10 ⌊x * 10 ^ (i + 1 - d.exponent)⌋₊ := by
  apply Fin.ext
  rw [Fin.val_ofNat]
  have hscale : (10 : ℚ) ^ (d.exponent - d.count) * 10 ^ (i + 1 - d.exponent) =
      10 ^ (i + 1 - d.count) := by
    rw [← zpow_add₀ (by norm_num)]
    congr 1
    ring
  have hvalue : x * 10 ^ (i + 1 - d.exponent) = numeral d.digits * 10 ^ (i + 1 - d.count) := by
    rw [← h.value, mul_assoc, hscale]
  rw [hvalue]
  unfold Decimal.digitAt
  split
  · next hin =>
    obtain ⟨k, rfl⟩ := Int.eq_ofNat_of_zero_le hin.1
    have hk : k < d.digits.length := by exact_mod_cast hin.2
    have hexp : (k : ℤ) + 1 - d.count = -((d.digits.length - (k + 1) : ℕ) : ℤ) := by
      unfold Decimal.count
      omega
    rw [Int.toNat_natCast, getD_eq_numeral _ hk, hexp, zpow_neg, zpow_natCast, ← div_eq_mul_inv]
    congr 1
    have := @Nat.floor_div_eq_div ℚ _ _ _ _ (numeral d.digits) (10 ^ (d.digits.length - (k + 1)))
    push_cast at this
    exact this.symm
  · next hout =>
    rw [not_and_or, not_le, not_lt] at hout
    by_cases hneg : i < 0
    · have hlt : (numeral d.digits : ℚ) * 10 ^ (i + 1 - d.count) < 1 := by
        have hdigits : (numeral d.digits : ℚ) < 10 ^ d.count := by exact_mod_cast numeral_lt d.digits
        have hscale : (10 : ℚ) ^ d.count * 10 ^ (i + 1 - d.count) ≤ 1 := by
          rw [← zpow_natCast, ← zpow_add₀ (by norm_num)]
          exact zpow_le_one_of_nonpos₀ (by norm_num) (by omega)
        exact (mul_lt_mul_of_pos_right hdigits (by positivity)).trans_le hscale
      rw [Nat.floor_eq_zero.mpr hlt]
      rfl
    · obtain ⟨j, hj⟩ : ∃ j : ℕ, i + 1 - d.count = ((j + 1 : ℕ) : ℤ) :=
        ⟨(i - d.count).toNat, by omega⟩
      have hnat : (numeral d.digits : ℚ) * 10 ^ (i + 1 - d.count) =
          ((numeral d.digits * 10 ^ j * 10 : ℕ) : ℚ) := by
        rw [hj, zpow_natCast, pow_succ]
        push_cast
        ring
      rw [hnat, Nat.floor_natCast, Nat.mul_mod_left]
      rfl

theorem Represents.digits_window (a : ℤ) (n : ℕ) : (range n).map (fun i : ℕ => d.digitAt (a + i)) =
      padded n ⌊x * 10 ^ (a + n - d.exponent)⌋₊ := by
  induction n with
  | zero => rfl
  | succ n ih =>
    have hdiv : ⌊x * 10 ^ (a + (n + 1 : ℕ) - d.exponent)⌋₊ / 10 =
        ⌊x * 10 ^ (a + n - d.exponent)⌋₊ := by
      have hfloor := Nat.floor_div_natCast (x * 10 ^ (a + (n + 1 : ℕ) - d.exponent)) 10
      rw [← hfloor]
      congr 1
      have hexp : a + ((n + 1 : ℕ) : ℤ) - d.exponent = a + n - d.exponent + 1 := by
        push_cast
        ring
      rw [hexp, zpow_add_one₀ (by norm_num)]
      push_cast
      ring
    have hlast : a + (n : ℤ) + 1 - d.exponent = a + ((n + 1 : ℕ) : ℤ) - d.exponent := by
      push_cast
      ring
    rw [range_succ, map_append, ih, padded, hdiv, map_singleton, h.digitAt, hlast]

end

/-! The exact expansion. -/

theorem kPow5Table_getD {power : Nat} (h : power < 13) : kPow5Table.getD power 1 = 5 ^ power := by
  revert power
  decide

theorem mulFives_holds {power n : Nat} {b : BigUInt} (h : b.Holds n)
    (hlt : n * 5 ^ power < capacity) : (mulFives power b).Holds (n * 5 ^ power) := by
  induction power using Nat.strong_induction_on generalizing b n with
  | _ power ih =>
    by_cases hmany : 13 ≤ power
    · obtain ⟨rest, rfl⟩ := Nat.exists_eq_add_of_le' hmany
      have hsplit : n * 5 ^ (rest + 13) = n * 1220703125 * 5 ^ rest := by
        rw [pow_add]
        ring
      rw [hsplit] at hlt ⊢
      rw [mulFives]
      refine ih rest (by omega) (h.mulSmall (by norm_num) (lt_of_le_of_lt ?_ hlt)) hlt
      exact Nat.le_mul_of_pos_right _ (by positivity)
    · rw [mulFives]
      · split
        · rw [kPow5Table_getD (by omega)]
          exact h.mulSmall (by positivity) hlt
        · next hzero =>
          rw [not_not.mp hzero, pow_zero, Nat.mul_one]
          exact h
      · rintro rest rfl
        omega

theorem groupDigits_eq (k group : Nat) : groupDigits k group = (padded k group).reverse := by
  induction k generalizing group with
  | zero => rfl
  | succ k ih => rw [groupDigits, padded, ih, reverse_append]; rfl

theorem numeral_extractDigits {fuel n : Nat} {b : BigUInt} (h : b.Holds n) (hlt : n < 2 ^ fuel) :
    numeral (extractDigits fuel b).reverse = n := by
  induction fuel generalizing b n with
  | zero =>
    have hzero : n = 0 := by simpa using hlt
    rw [hzero]
    rfl
  | succ fuel ih =>
    unfold extractDigits
    split
    · next hz =>
      rw [h.isZero_iff.mp hz]
      rfl
    · obtain ⟨hquot, hrem⟩ := h.divModSmall (show 0 < 1000000000 by norm_num)
      have hdiv : n / 1000000000 < 2 ^ fuel := by
        omega
      dsimp only
      rw [reverse_append, groupDigits_eq, reverse_reverse, numeral_append, ih hquot hdiv,
        length_padded, numeral_padded, hrem]
      omega

theorem le_numeral_of_head {c : Fin 10} {ds : List (Fin 10)} (hc : c ≠ 0) :
    10 ^ ds.length ≤ numeral (c :: ds) := by
  have hpos : 1 ≤ (c : ℕ) := Nat.one_le_iff_ne_zero.mpr (Fin.val_ne_zero_iff.mpr hc)
  rw [numeral_cons]
  exact (Nat.le_mul_of_pos_left _ hpos).trans (Nat.le_add_right _ _)

theorem numeral_trimmed (ds : List (Fin 10)) :
    numeral (ds.rdropWhile (· = 0)).reverse = numeral ds.reverse := by
  have hzeros : numeral (ds.rtakeWhile (· = 0)).reverse = 0 := by
    rw [numeral_eq_zero_iff]
    intro c hc
    simpa using mem_rtakeWhile_imp (mem_reverse.mp hc)
  conv_rhs => rw [← rdropWhile_append_rtakeWhile (p := (· = 0)) (l := ds)]
  rw [reverse_append, numeral_append, hzeros, Nat.zero_mul, Nat.zero_add]

theorem represents_trimmed {ds : List (Fin 10)} {N : Nat} {fractionDigits : ℤ}
    (h : numeral ds.reverse = N) : Represents ⟨(ds.rdropWhile (· = 0)).reverse,
      (ds.rdropWhile (· = 0)).length - fractionDigits⟩ (N * 10 ^ (-fractionDigits)) := by
  refine ⟨?_, fun hne => ?_⟩
  · dsimp only [Decimal.count]
    rw [numeral_trimmed, h, length_reverse]
    congr 2
    ring
  · dsimp only [Decimal.count] at hne ⊢
    cases hcase : (ds.rdropWhile (· = 0)).reverse with
    | nil => exact absurd hcase hne
    | cons c rest =>
      have hne' : ds.rdropWhile (· = 0) ≠ [] := by simpa using hne
      have hlast := rdropWhile_last_not (· = 0) ds hne'
      have hc : c ≠ 0 := by
        have heq : ds.rdropWhile (· = 0) = rest.reverse ++ [c] := by
          rw [← reverse_inj, hcase]
          simp
        simp only [heq, getLast_concat] at hlast
        simpa using hlast
      rw [length_cons, Nat.add_sub_cancel]
      exact le_numeral_of_head hc

theorem expandExact_represents {mantissa : Nat} {exponent2 : ℤ} (hm : mantissa < 2 ^ 53)
    (hlow : -1074 ≤ exponent2) (hhigh : exponent2 ≤ 971) :
    Represents (expandExact mantissa exponent2) (mantissa * 2 ^ exponent2) := by
  have hset := holds_setU64 (hm.trans (by norm_num))
  have hfuel : capacity = 2 ^ (kMaxLimbs * kLimbBits) := by
    rw [capacity, ← pow_mul, Nat.mul_comm]
  unfold expandExact
  dsimp only
  by_cases hsign : 0 ≤ exponent2
  · obtain ⟨e, rfl⟩ := Int.eq_ofNat_of_zero_le hsign
    have hfit : mantissa * 2 ^ e < capacity := by
      have hmax : 2 ^ 53 * 2 ^ 971 < capacity := by decide +kernel
      have hle : e ≤ 971 := by omega
      exact (mul_pow_le_mul_pow (by norm_num) hm.le hle).trans_lt hmax
    have hnum := numeral_extractDigits (hset.shiftLeft hfit) (by rwa [← hfuel])
    rw [if_pos hsign, if_pos hsign]
    convert represents_trimmed hnum using 1
    push_cast
    rw [mul_one, zpow_natCast]
  · obtain ⟨e, rfl⟩ : ∃ e : ℕ, exponent2 = -(e : ℤ) := ⟨(-exponent2).toNat, by omega⟩
    have hfit : mantissa * 5 ^ e < capacity := by
      have hmax : 2 ^ 53 * 5 ^ 1074 < capacity := by decide +kernel
      have hle : e ≤ 1074 := by omega
      exact (mul_pow_le_mul_pow (by norm_num) hm.le hle).trans_lt hmax
    have hnum := numeral_extractDigits (mulFives_holds hset hfit) (by rwa [← hfuel])
    rw [if_neg hsign, if_neg hsign, neg_neg, Int.toNat_natCast]
    convert represents_trimmed hnum using 1
    rw [zpow_neg, zpow_neg, zpow_natCast, zpow_natCast, show (10 : ℚ) = 5 * 2 by norm_num, mul_pow]
    push_cast
    field_simp

/-! `RoundTo` is half-even rounding at a decimal position, also before the first
digit and after the last one; a carry out of the kept digits moves the exponent. -/

open Library.Rounding

theorem length_carryUp (ds : List (Fin 10)) : (carryUp ds).1.length = ds.length := by
  induction ds with
  | nil => rfl
  | cons d ds ih =>
    unfold carryUp
    dsimp only
    split
    · split <;> rw [List.length_cons, List.length_cons, ih]
    · rw [List.length_cons, List.length_cons, ih]

theorem numeral_carryUp (ds : List (Fin 10)) :
    numeral (carryUp ds).1 + (if (carryUp ds).2 then 10 ^ ds.length else 0) = numeral ds + 1 := by
  induction ds with
  | nil => rfl
  | cons d ds ih =>
    have hlen := length_carryUp ds
    unfold carryUp
    by_cases hcarry : (carryUp ds).2 = true
    · rw [if_pos hcarry] at ih ⊢
      by_cases hnine : d ≠ 9
      · have hsucc : ((d + 1 : Fin 10) : ℕ) = d + 1 := by
          have hlt : (d : ℕ) ≠ 9 := fun heq => hnine (Fin.ext heq)
          rw [Fin.val_add]
          exact Nat.mod_eq_of_lt (by simp; omega)
        rw [if_pos hnine]
        simp only [Bool.false_eq_true, if_false, numeral_cons, hlen, hsucc]
        linarith
      · rw [if_neg hnine, not_not.mp hnine]
        simp only [if_true, numeral_cons, hlen, List.length_cons, pow_succ]
        have h9 : ((9 : Fin 10) : ℕ) = 9 := rfl
        have h0 : ((0 : Fin 10) : ℕ) = 0 := rfl
        rw [h9, h0]
        linarith
    · rw [if_neg hcarry] at ih ⊢
      simp only [Bool.false_eq_true, if_false, numeral_cons, hlen]
      linarith

theorem roundsUp_iff {ds : List (Fin 10)} {keep : Nat} (hkeep : keep < ds.length) :
    roundsUp ds keep = true ↔ 5 * 10 ^ (ds.length - (keep + 1)) ≤ numeral (ds.drop keep) ∧
        (numeral (ds.drop keep) ≠ 5 * 10 ^ (ds.length - (keep + 1)) ∨
          numeral (ds.take keep) % 2 = 1) := by
  have hdrop : ds.drop keep = ds[keep] :: ds.drop (keep + 1) := List.drop_eq_getElem_cons hkeep
  have hget : ds.getD keep 0 = ds[keep] := by simp [List.getD_eq_getElem?_getD, hkeep]
  have hlt := numeral_lt (ds.drop (keep + 1))
  rw [List.length_drop] at hlt
  have hparity : numeral (ds.take keep) % 2 = 1 ↔
      0 < keep ∧ (ds.getD (keep - 1) 0 : ℕ) % 2 ≠ 0 := by
    cases keep with
    | zero => simp
    | succ k =>
      have hk : k < ds.length := by omega
      have hgetk : ds.getD k 0 = ds[k] := by simp [List.getD_eq_getElem?_getD, hk]
      rw [List.take_succ_eq_append_getElem hk, numeral_concat, Nat.add_sub_cancel, hgetk]
      omega
  have hrest : (ds.drop (keep + 1)).any (· ≠ 0) = true ↔ numeral (ds.drop (keep + 1)) ≠ 0 := by
    rw [ne_eq, numeral_eq_zero_iff]
    simp
  unfold roundsUp
  rw [hdrop, numeral_cons, List.length_drop, hget, hparity]
  generalize ds[keep] = d at *
  generalize 10 ^ (ds.length - (keep + 1)) = w at *
  generalize numeral (ds.drop (keep + 1)) = m at *
  dsimp only
  split
  · next hgt =>
    have hd : 6 ≤ (d : ℕ) := hgt
    have := Nat.mul_le_mul_right w hd
    simp only [true_iff]
    omega
  · next hngt =>
    split
    · next hlt' =>
      have hd : (d : ℕ) + 1 ≤ 5 := hlt'
      have := Nat.mul_le_mul_right w hd
      rw [Nat.add_mul] at this
      simp only [Bool.false_eq_true, false_iff]
      omega
    · next hnlt =>
      have hd : (d : ℕ) = 5 := le_antisymm (not_lt.mp hngt) (not_lt.mp hnlt)
      rw [Bool.or_eq_true, hrest, Bool.and_eq_true, decide_eq_true_eq, decide_eq_true_eq, hd]
      omega

variable {d : Decimal} {x : ℚ}

theorem Represents.roundHalfEven_cut (h : Represents d x) {keep : Nat} (hkeep : keep < d.count) :
    roundHalfEven (x * 10 ^ ((keep : ℤ) - d.exponent)) =
      if roundsUp d.digits keep then (numeral (d.digits.take keep) : ℤ) + 1
      else numeral (d.digits.take keep) := by
  have hlen : keep < d.digits.length := hkeep
  have hdecomp := numeral_append (d.digits.take keep) (d.digits.drop keep)
  have hdrop := numeral_lt (d.digits.drop keep)
  have hunit : 10 ^ (d.digits.length - keep) = 2 * (5 * 10 ^ (d.digits.length - (keep + 1))) := by
    rw [show d.digits.length - keep = d.digits.length - (keep + 1) + 1 by omega, pow_succ]
    ring
  rw [List.take_append_drop, List.length_drop, hunit] at hdecomp
  rw [List.length_drop, hunit] at hdrop
  have hscale : x * 10 ^ ((keep : ℤ) - d.exponent) =
      (numeral d.digits : ℚ) / (2 * (5 * 10 ^ (d.digits.length - (keep + 1))) : ℕ) := by
    rw [← hunit, ← h.value, mul_assoc, ← zpow_add₀ (by norm_num), div_eq_mul_inv, Nat.cast_pow,
      ← zpow_natCast, ← zpow_neg]
    congr 2
    unfold Decimal.count
    omega
  have hround := @roundHalfEven_div_double ℚ _ _ _ _ _ _ _ (numeral d.digits : ℚ) hdrop
    (by rw [← hdecomp]) (by rw [← hdecomp]; linarith)
  rw [hscale, hround, ← hdecomp]
  refine if_congr ?_ rfl rfl
  rw [roundsUp_iff hlen]
  simp

theorem Represents.leading_take (h : Represents d x) {keep : Nat} (hkeep : keep < d.count)
    (hpos : 0 < keep) : 10 ^ (keep - 1) ≤ numeral (d.digits.take keep) := by
  have hlen : keep < d.digits.length := hkeep
  have hlead := h.leading (List.ne_nil_of_length_pos (by omega))
  rw [numeral_take, Nat.le_div_iff_mul_le (by positivity), ← pow_add]
  refine le_trans (le_of_eq ?_) hlead
  congr 1
  unfold Decimal.count
  omega

theorem represents_of_numeral {ds : List (Fin 10)} {exponent : ℤ} {N k : Nat}
    (hlen : ds.length = k) (hnum : numeral ds = N) (hlead : 0 < k → 10 ^ (k - 1) ≤ N) :
    Represents ⟨ds, exponent⟩ ((N : ℤ) * 10 ^ (exponent - k)) := by
  refine ⟨?_, fun hne => ?_⟩
  · rw [Decimal.count, hlen, hnum]
    push_cast
    rfl
  · rw [Decimal.count, hlen, hnum]
    exact hlead (hlen ▸ List.length_pos_of_ne_nil hne)

/-- Rounding to `keep` significant digits gives the half-even rounding of the
value at that position. -/
theorem Represents.roundTo (h : Represents d x) (keep : ℤ) : Represents (roundTo d keep)
      (roundHalfEven (x * 10 ^ (keep - d.exponent)) * 10 ^ (d.exponent - keep)) := by
  unfold FloatFormat.roundTo
  split
  · next hle =>
    obtain ⟨j, hj⟩ : ∃ j : ℕ, keep = d.count + j := ⟨(keep - d.count).toNat, by omega⟩
    have hint : x * 10 ^ (keep - d.exponent) = ((numeral d.digits * 10 ^ j : ℕ) : ℚ) := by
      rw [← h.value, mul_assoc, ← zpow_add₀ (by norm_num), hj,
        show d.exponent - d.count + (d.count + j - d.exponent) = (j : ℤ) by ring, zpow_natCast]
      push_cast
      rfl
    rw [hint, roundHalfEven_natCast, Int.cast_natCast, ← hint, mul_assoc,
      ← zpow_add₀ (by norm_num), show keep - d.exponent + (d.exponent - keep) = 0 by ring,
      zpow_zero, mul_one]
    exact h
  · next hgt =>
    split
    · next hneg =>
      have hsmall : |x * 10 ^ (keep - d.exponent) - (0 : ℤ)| < 1 / 2 := by
        have hlt : x * 10 ^ (keep - d.exponent) < 10 ^ d.exponent * 10 ^ (keep - d.exponent) :=
          mul_lt_mul_of_pos_right h.lt (by positivity)
        have hle : (10 : ℚ) ^ d.exponent * 10 ^ (keep - d.exponent) ≤ 10 ^ (-1 : ℤ) := by
          rw [← zpow_add₀ (by norm_num)]
          exact zpow_le_zpow_right₀ (by norm_num) (by omega)
        have hx := h.nonneg
        rw [Int.cast_zero, sub_zero, abs_of_nonneg (by positivity)]
        refine (hlt.trans_le hle).trans ?_
        norm_num
      rw [roundHalfEven_of_abs_lt hsmall]
      exact ⟨by simp, by simp⟩
    · next hnonneg =>
      obtain ⟨k, rfl⟩ := Int.eq_ofNat_of_zero_le (not_lt.mp hnonneg)
      have hk : k < d.count := by omega
      rw [h.roundHalfEven_cut hk, Int.toNat_natCast]
      have hlen : (d.digits.take k).length = k := by
        rw [List.length_take]
        exact Nat.min_eq_left hk.le
      have hlead := h.leading_take hk
      split
      · have hcarry := numeral_carryUp (d.digits.take k)
        have hclen := length_carryUp (d.digits.take k)
        have hbound := numeral_lt (d.digits.take k)
        rw [hlen] at hcarry hclen hbound
        dsimp only
        split
        · next hover =>
          -- Every kept digit was a nine: a one at the next decade, the rest zero.
          rw [if_pos hover] at hcarry
          have hzero : numeral (carryUp (d.digits.take k)).1 = 0 := by omega
          have hfull : numeral (d.digits.take k) + 1 = 10 ^ k := by omega
          have htail : numeral (carryUp (d.digits.take k)).1.tail = 0 :=
            numeral_eq_zero_iff.mpr fun c hc =>
              numeral_eq_zero_iff.mp hzero c (List.mem_of_mem_tail hc)
          have hone : numeral (1 :: (carryUp (d.digits.take k)).1.tail) =
              10 ^ (carryUp (d.digits.take k)).1.tail.length := by
            rw [numeral_cons, htail, Nat.add_zero]
            exact Nat.one_mul _
          refine ⟨?_, fun _ => ?_⟩
          · have hcast : ((numeral (d.digits.take k) : ℤ) + 1 : ℚ) = 10 ^ k := by exact_mod_cast hfull
            dsimp only [Decimal.count]
            push_cast
            push_cast at hcast
            rw [hone, List.length_cons, hcast]
            push_cast
            rw [← zpow_natCast, ← zpow_natCast, ← zpow_add₀ (by norm_num), ← zpow_add₀ (by norm_num)]
            congr 1
            ring
          · dsimp only [Decimal.count]
            rw [hone, List.length_cons, Nat.add_sub_cancel]
        · next hfit =>
          rw [if_neg hfit, Nat.add_zero] at hcarry
          have := @represents_of_numeral _ d.exponent _ _ hclen hcarry
            fun hpos => (hlead hpos).trans (Nat.le_succ _)
          push_cast at this ⊢
          exact this
      · exact represents_of_numeral hlen rfl hlead

end Equilibrium.FloatFormat
