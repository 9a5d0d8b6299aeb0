import Equilibrium.Library.Binary64
import Equilibrium.Strings.DecimalBignum

/-! Text to double and to integer, after `base/strings/number_parse.cc`. A text is the list of
its characters up to the terminating zero, and a cursor into it is the list of
the characters still to read. An `int` is an integer: the exponent of a text with
fewer than `2 ^ 30` digits stays in its range. -/

namespace Equilibrium.NumberParse

open Library

def isSpace (c : Char) : Bool :=
  c = ' ' ∨ c = '\t' ∨ c = '\n' ∨ c = '\x0b' ∨ c = '\x0c' ∨ c = '\r'

def lower (c : Char) : Char :=
  if 'A' ≤ c ∧ c ≤ 'Z' then Char.ofNat (c.toNat - 'A'.toNat + 'a'.toNat) else c

def isDigit (c : Char) : Bool := '0' ≤ c ∧ c ≤ '9'

def digitOf (c : Char) : Nat := c.toNat - '0'.toNat

/-- An optional sign: whether it was a minus, and what follows it. -/
def skipSign : List Char → Bool × List Char
  | '+' :: p => (false, p)
  | '-' :: p => (true, p)
  | p => (false, p)

def skipSpaceAndSign (text : List Char) : Bool × List Char := skipSign (text.dropWhile isSpace)

/-- What follows the word, compared without regard to the text's case. -/
def matchWord : List Char → List Char → Option (List Char)
  | q, [] => some q
  | [], _ :: _ => none
  | c :: q, w :: word => if lower c = w then matchWord q word else none

/-! Decimal to binary. -/

def fromBits (bits : Nat) : Binary64 := ⟨bits % 2 ^ 64, Nat.mod_lt _ (by positivity)⟩

def signBit (negative : Bool) : Nat := if negative then 2 ^ 63 else 0

/-- The `keep` bits down to `2 ^ lowest`, rounded half-to-even by the round bit
and the bits below it. -/
def roundAt (mantissa : BigUInt) (exponent2 : ℤ) (sticky : Bool) (lowest keep : ℤ) : Nat :=
  let cut := lowest - exponent2
  if cut ≤ 0 then
    ((mantissa.highBits mantissa.bitLength).1 <<< (-cut).toNat) % 2 ^ 64
  else
    let significand := (mantissa.highBits keep).1
    let roundBit := mantissa.bitAt (cut - 1)
    let below := sticky || mantissa.anyBitBelow (cut - 1)
    if roundBit && (below || significand % 2 = 1) then (significand + 1) % 2 ^ 64 else significand

/-- The double nearest to `mantissa * 2 ^ exponent2`, with `sticky` for a
discarded part below it. -/
def assembleDouble (mantissa : BigUInt) (exponent2 : ℤ) (sticky negative : Bool) : Binary64 :=
  let length := mantissa.bitLength
  if length = 0 then fromBits (signBit negative)
  else
    let msb : ℤ := (length - 1 : ℤ) + exponent2
    if msb - 52 < -1074 then
      let keep := msb - (-1074) + 1
      if keep ≤ 0 then
        if msb < -1075 then fromBits (signBit negative)
        else
          let aboveHalf := decide (length > 1) || sticky
          fromBits (signBit negative ||| if aboveHalf then 1 else 0)
      else fromBits (signBit negative ||| roundAt mantissa exponent2 sticky (-1074) keep)
    else
      let significand := roundAt mantissa exponent2 sticky (msb - 52) 53
      let carried := decide (significand >>> 53 ≠ 0)
      let significand := if carried then significand >>> 1 else significand
      let exponent := if carried then msb + 1 else msb
      if exponent > 1023 then fromBits (signBit negative ||| 0x7FF <<< 52)
      else
        let biased := (exponent + 1023).toNat
        fromBits (signBit negative ||| biased <<< 52 ||| significand % 2 ^ 52)

def kMaxSignificantDigits : Nat := 800

def kPow10 : List Nat :=
  [1, 10, 100, 1000, 10000, 100000, 1000000, 10000000, 100000000, 1000000000]

def mulTens : Nat → BigUInt → BigUInt
  | power + 9, value => mulTens power (value.mulSmall 1000000000)
  | power, value => if power ≠ 0 then value.mulSmall (kPow10.getD power 1) else value

/-- Division by a power of ten in chunks, folding every remainder into the sticky bit. -/
def divTens : Nat → BigUInt → Bool → BigUInt × Bool
  | remaining + 9, value, sticky =>
    let divided := value.divModSmall (kPow10.getD 9 1)
    divTens remaining divided.1 (sticky || divided.2 ≠ 0)
  | remaining, value, sticky =>
    if remaining = 0 then (value, sticky)
    else
      let divided := value.divModSmall (kPow10.getD remaining 1)
      (divided.1, sticky || divided.2 ≠ 0)

/-- The double nearest to a natural number: 53 bits, ties to even. -/
def toF64 (n : Nat) : Nat :=
  let drop := n.log2 - 52
  let kept := n / 2 ^ drop
  let rest := n % 2 ^ drop
  (if 2 ^ drop < 2 * rest ∨ 2 ^ drop = 2 * rest ∧ kept % 2 = 1 then kept + 1 else kept) * 2 ^ drop

/-- The literal `3.3219280948873626` as a double, in units of `2 ^ -51`. -/
def log2Of10 : Nat := 7480317065143154

/-- `static_cast<int>(power * 3.3219280948873626) + 64`; the product is a double. -/
def shiftFor (power : Nat) : Nat := toF64 (power * log2Of10) / 2 ^ 51 + 64

def decimalToDouble (digits : BigUInt) (decimalExponent : ℤ) (sticky negative : Bool) : Binary64 :=
  if digits.isZero then assembleDouble digits 0 false negative
  else if 0 ≤ decimalExponent then
    assembleDouble (mulTens decimalExponent.toNat digits) 0 sticky negative
  else
    let power := (-decimalExponent).toNat
    let shift := shiftFor power
    let divided := divTens power (digits.shiftLeft shift) sticky
    assembleDouble divided.1 (-shift) divided.2 negative

/-! The scanner. -/

structure Scan where
  digits : BigUInt
  significant : Nat
  exponent : ℤ
  anyDigit : Bool
  sticky : Bool

def Scan.start : Scan := ⟨BigUInt.zero, 0, 0, false, false⟩

/-- The body of the integer loop. -/
def integerDigit (s : Scan) (digit : Nat) : Scan :=
  let s := { s with anyDigit := true }
  if s.digits.isZero ∧ digit = 0 then s
  else if s.significant < kMaxSignificantDigits then
    { s with digits := s.digits.mulAddSmall 10 digit, significant := s.significant + 1 }
  else { s with exponent := s.exponent + 1, sticky := s.sticky || digit ≠ 0 }

/-- The body of the fraction loop. -/
def fractionDigit (s : Scan) (digit : Nat) : Scan :=
  let s := { s with anyDigit := true }
  if s.digits.isZero ∧ digit = 0 then { s with exponent := s.exponent - 1 }
  else if s.significant < kMaxSignificantDigits then
    { s with
      digits := s.digits.mulAddSmall 10 digit
      significant := s.significant + 1
      exponent := s.exponent - 1 }
  else { s with sticky := s.sticky || digit ≠ 0 }

/-- A loop over the digits at the cursor. -/
def scanDigits {σ : Type} (body : σ → Nat → σ) : List Char → σ → σ × List Char
  | c :: p, s => if isDigit c then scanDigits body p (body s (digitOf c)) else (s, c :: p)
  | [], s => (s, [])

def scanFraction : List Char → Scan → Scan × List Char
  | '.' :: p, s => scanDigits fractionDigit p s
  | p, s => (s, p)

/-- The body of the exponent loop, which stops growing far past any usable range. -/
def exponentDigit (magnitude digit : Nat) : Nat :=
  if magnitude < 100000 then magnitude * 10 + digit else magnitude

/-- The written exponent, zero when there is none, and the cursor after it. -/
def scanExponent (p : List Char) : ℤ × List Char :=
  match p with
  | c :: after =>
    if lower c = 'e' then
      let (negative, after) := skipSign after
      match after with
      | d :: _ =>
        if isDigit d then
          let (magnitude, rest) := scanDigits exponentDigit after 0
          (if negative then -magnitude else magnitude, rest)
        else (0, p)
      | [] => (0, p)
    else (0, p)
  | [] => (0, p)

def infinity (negative : Bool) : Binary64 := fromBits (signBit negative ||| 0x7FF <<< 52)

def nan (negative : Bool) : Binary64 := fromBits (signBit negative ||| 0x7FF <<< 52 ||| 1 <<< 51)

/-- The double of a scanned number, with the ranges where the answer cannot be
anything else cut short. -/
def convertScan (negative : Bool) (s : Scan) (exponent : ℤ) : Binary64 :=
  let magnitudeEstimate := s.significant + exponent
  if s.digits.isZero ∨ magnitudeEstimate < -400 then fromBits (signBit negative)
  else if magnitudeEstimate > 350 then infinity negative
  else decimalToDouble s.digits exponent s.sticky negative

def parseNumber (negative : Bool) (p : List Char) : Option (Binary64 × List Char) :=
  let (s, p) := scanDigits integerDigit p Scan.start
  let (s, p) := scanFraction p s
  if !s.anyDigit then none
  else
    let (written, p) := scanExponent p
    some (convertScan negative s (s.exponent + written), p)

/-- `none` is a null pointer for the text, and the result of a call that returns
false; a call that returns true gives the double and the cursor it stopped at. -/
def parseFloat (text : Option (List Char)) : Option (Binary64 × List Char) :=
  text.bind fun text =>
    let (negative, p) := skipSpaceAndSign text
    match matchWord p ['i', 'n', 'f'] with
    | some p => some (infinity negative, (matchWord p ['i', 'n', 'i', 't', 'y']).getD p)
    | none =>
      match matchWord p ['n', 'a', 'n'] with
      | some p => some (nan negative, p)
      | none => parseNumber negative p

/-! Text to integer. -/

/-- The digit `c` stands for in `radix`. -/
def digitValue (c : Char) (radix : ℤ) : Option ℕ :=
  let value :=
    if '0' ≤ c ∧ c ≤ '9' then some (c.toNat - '0'.toNat)
    else if 'a' ≤ c ∧ c ≤ 'z' then some (c.toNat - 'a'.toNat + 10)
    else if 'A' ≤ c ∧ c ≤ 'Z' then some (c.toNat - 'A'.toNat + 10)
    else none
  value.filter fun value => (value : ℤ) < radix

/-- The character at a distance from the cursor; the terminator is the last that is read. -/
def charAt (p : List Char) (i : ℕ) : Char := p.getD i '\x00'

/-- What follows the radix prefix, and the radix that a radix of 0 is resolved to. -/
def applyRadixPrefix (p : List Char) (radix : ℤ) : List Char × ℤ :=
  if (radix = 0 ∨ radix = 16) ∧ charAt p 0 = '0' ∧ lower (charAt p 1) = 'x' ∧
      (digitValue (charAt p 2) 16).isSome then (p.drop 2, 16)
  else if radix = 0 then
    (p, if charAt p 0 = '0' ∧ (digitValue (charAt p 1) 8).isSome then 8 else 10)
  else (p, radix)

/-- The loop of `AccumulateDigits`. -/
def accumulateLoop (radix limit : ℕ) : List Char → ℕ → Bool → ℕ × List Char
  | [], value, _ => (value, [])
  | c :: p, value, saturated =>
    match digitValue c radix with
    | none => (value, c :: p)
    | some digit =>
      if saturated then accumulateLoop radix limit p value saturated
      else if value > limit / radix ∨ value = limit / radix ∧ digit > limit % radix then
        accumulateLoop radix limit p limit true
      else accumulateLoop radix limit p ((value * radix + digit) % 2 ^ 64) saturated

/-- The digits at the cursor, if there are any, saturated at `limit`. -/
def accumulateDigits (p : List Char) (radix limit : ℕ) : Option (ℕ × List Char) :=
  if (digitValue (charAt p 0) radix).isSome then some (accumulateLoop radix limit p 0 false)
  else none

/-- The magnitude of an integer and what follows it, given the limit for its sign. -/
def parseMagnitude (text : List Char) (radix : ℤ) (limit : Bool → ℕ) :
    Option (Bool × UInt64 × List Char) :=
  let (negative, cursor) := skipSpaceAndSign text
  let (p, radix) := applyRadixPrefix cursor radix
  if radix < 2 ∨ 36 < radix then none
  else
    (accumulateDigits p radix.toNat (limit negative)).map fun (magnitude, p) =>
      (negative, UInt64.ofNat magnitude, p)

def signedLimit (negative : Bool) : ℕ := if negative then 2 ^ 63 - 1 + 1 else 2 ^ 63 - 1

def applySign (negative : Bool) (magnitude : UInt64) : UInt64 :=
  if negative then ~~~magnitude + 1 else magnitude

/-- The number, and the text that `end` is left at. -/
def parseInteger (text : Option (List Char)) (radix : ℤ) : Option (Int64 × List Char) := do
  let (negative, magnitude, p) ← parseMagnitude (← text) radix signedLimit
  return ((applySign negative magnitude).toInt64, p)

def parseUnsigned (text : Option (List Char)) (radix : ℤ) : Option (UInt64 × List Char) := do
  let (negative, magnitude, p) ← parseMagnitude (← text) radix fun _ => 2 ^ 64 - 1
  return (applySign negative magnitude, p)

/-! `AssembleDouble` rounds once. The mantissa and the sticky bit stand for a
rational in `[mantissa * 2 ^ exponent2, (mantissa + 1) * 2 ^ exponent2)`; the
double assembled from them is the half-even rounding of that rational. -/

open Library.Binary64 Library.Rounding Nat

/-- The rational that a mantissa, its exponent and the sticky bit stand for. -/
structure Stands (mantissa : BigUInt) (exponent2 : ℤ) (sticky : Bool) (M : Nat) (r : ℚ) :
    Prop where
  holds : mantissa.Holds M
  pos : 0 < M
  lower : (M : ℚ) * 2 ^ exponent2 ≤ r
  upper : r < (M + 1 : ℚ) * 2 ^ exponent2
  sticky_iff : sticky = true ↔ r ≠ M * 2 ^ exponent2
  wide : sticky = true → 2 ^ 63 ≤ M

theorem size_spec {M : Nat} (h : 0 < M) : 2 ^ (M.size - 1) ≤ M ∧ M < 2 ^ M.size := by
  have hpos := Nat.size_pos.mpr h
  exact ⟨lt_size.mp (by omega), lt_size_self M⟩

theorem testBit_eq_half (M c : Nat) : M.testBit c = decide (2 ^ c ≤ M % (2 * 2 ^ c)) := by
  rw [testBit_eq_decide_div_mod_eq]
  refine decide_eq_decide.mpr ?_
  have hmod : M / 2 ^ c % 2 = M % (2 * 2 ^ c) / 2 ^ c := by
    rw [Nat.mul_comm, mod_mul_right_div_self]
  have hlt : M % (2 * 2 ^ c) / 2 ^ c < 2 := by
    refine Nat.div_lt_of_lt_mul ?_
    rw [Nat.mul_comm]
    exact mod_lt _ (by positivity)
  rw [hmod, ← Nat.one_le_div_iff (by positivity)]
  omega

variable {mantissa : BigUInt} {exponent2 : ℤ} {sticky : Bool} {M : Nat} {r : ℚ}

theorem Stands.binade (h : Stands mantissa exponent2 sticky M r) :
    (2 : ℚ) ^ ((M.size : ℤ) - 1 + exponent2) ≤ r ∧ r < 2 ^ ((M.size : ℤ) + exponent2) := by
  obtain ⟨hlow, hhigh⟩ := size_spec h.pos
  have hpos := Nat.size_pos.mpr h.pos
  have hscale : (0 : ℚ) < 2 ^ exponent2 := by positivity
  constructor
  · refine le_trans ?_ h.lower
    rw [zpow_add₀ (by norm_num), show (M.size : ℤ) - 1 = ((M.size - 1 : Nat) : ℤ) by omega,
      zpow_natCast]
    exact mul_le_mul_of_nonneg_right (by exact_mod_cast hlow) hscale.le
  · refine lt_of_lt_of_le h.upper ?_
    rw [zpow_add₀ (by norm_num), zpow_natCast]
    exact mul_le_mul_of_nonneg_right (by exact_mod_cast hhigh) hscale.le

/-- The bits kept above the cut, the round bit and the bits below it decide the
rounding of the rational at the cut. -/
theorem Stands.roundAt (h : Stands mantissa exponent2 sticky M r) {lowest keep : ℤ}
    (hkeep : keep = M.size + exponent2 - lowest) (h0 : 0 < keep) (h53 : keep ≤ 53) :
    IsHalfEven (roundAt mantissa exponent2 sticky lowest keep : ℤ) (r / 2 ^ lowest) := by
  unfold NumberParse.roundAt
  have hscale : (0 : ℚ) < 2 ^ exponent2 := by positivity
  dsimp only
  split
  · next hcut =>
    have hnot : ¬sticky = true := by
      intro hs
      have := lt_size.mpr (h.wide hs)
      omega
    have hr : r = M * 2 ^ exponent2 := not_not.mp fun hne => hnot (h.sticky_iff.mpr hne)
    obtain ⟨up, hup⟩ : ∃ up : Nat, exponent2 = lowest + up := ⟨(exponent2 - lowest).toNat, by omega⟩
    have hbits := h.holds.highBits (le_refl M.size) (by omega)
    rw [Nat.sub_self, pow_zero, Nat.div_one] at hbits
    have hfit : M <<< up < 2 ^ 64 := by
      rw [shiftLeft_eq]
      have h1 := Nat.mul_lt_mul_of_pos_right (size_spec h.pos).2 (show 0 < 2 ^ up by positivity)
      rw [← pow_add] at h1
      exact h1.trans_le (Nat.pow_le_pow_right (by norm_num) (by omega))
    rw [h.holds.bitLength, hbits, show (-(lowest - exponent2)).toNat = up by omega,
      mod_eq_of_lt hfit, shiftLeft_eq]
    have hexact : r / 2 ^ lowest = ((M * 2 ^ up : Nat) : ℤ) := by
      rw [hr, hup, zpow_add₀ (by norm_num), zpow_natCast]
      have hpos : (0 : ℚ) < 2 ^ lowest := by positivity
      field_simp
      push_cast
      ring
    rw [hexact]
    have := roundHalfEven_spec (((M * 2 ^ up : Nat) : ℤ) : ℚ)
    rwa [roundHalfEven_intCast] at this
  · next hcut =>
    obtain ⟨c, hc⟩ : ∃ c : Nat, lowest = exponent2 + (c + 1) :=
      ⟨(lowest - exponent2 - 1).toNat, by omega⟩
    obtain ⟨kept, hkept⟩ : ∃ kept : Nat, keep = kept := ⟨keep.toNat, by omega⟩
    have hsize : M.size = kept + (c + 1) := by omega
    have hbits := h.holds.highBits (show kept ≤ M.size by omega) (by omega)
    rw [show M.size - kept = c + 1 by omega] at hbits
    have hindex : lowest - exponent2 - 1 = (c : ℤ) := by omega
    rw [hindex, hkept, hbits, h.holds.bitAt]
    have hy1 : (M : ℚ) ≤ r / 2 ^ exponent2 := by
      rw [le_div_iff₀ hscale]
      exact h.lower
    have hy2 : r / 2 ^ exponent2 < M + 1 := by
      rw [div_lt_iff₀ hscale]
      exact h.upper
    have hy3 : sticky = true ↔ r / 2 ^ exponent2 ≠ M := by
      rw [h.sticky_iff, not_iff_not, div_eq_iff hscale.ne']
    have hunit : r / 2 ^ lowest = r / 2 ^ exponent2 / (2 * 2 ^ c : Nat) := by
      rw [hc, zpow_add₀ (by norm_num), div_mul_eq_div_div, zpow_add_one₀ (by norm_num),
        zpow_natCast, mul_comm]
      push_cast
      rfl
    have hdecomp := div_add_mod' M (2 * 2 ^ c)
    have hrest := mod_lt M (show 0 < 2 * 2 ^ c by positivity)
    have hround := testBit_eq_half M c
    have hany := h.holds.anyBitBelow c
    have hsig : M / (2 * 2 ^ c) < 2 ^ 53 := by
      have hsize : (M / 2 ^ (c + 1)).size ≤ 53 := by
        rw [BigUInt.size_div_two_pow]
        omega
      rw [← pow_succ']
      exact size_le.mp hsize
    have hbelow : 2 ^ c ≤ M % (2 * 2 ^ c) → (M % 2 ^ c ≠ 0 ↔ M % (2 * 2 ^ c) ≠ 2 ^ c) := by
      intro hle
      rw [← mod_mod_of_dvd M (Dvd.intro_left 2 rfl), mod_eq_sub_mod hle,
        mod_eq_of_lt (by omega)]
      omega
    have hparts := @roundHalfEven_div_double ℚ _ _ _ _ (M / (2 * 2 ^ c)) (M % (2 * 2 ^ c)) (2 ^ c)
      (r / 2 ^ exponent2) hrest (by rwa [hdecomp]) (by rwa [hdecomp])
    rw [← hunit, hdecomp] at hparts
    have hdecide : (M.testBit c && (sticky || mantissa.anyBitBelow c ||
        decide (M / (2 * 2 ^ c) % 2 = 1))) = true ↔ 2 ^ c ≤ M % (2 * 2 ^ c) ∧
          ((r / 2 ^ exponent2 ≠ M ∨ M % (2 * 2 ^ c) ≠ 2 ^ c) ∨ M / (2 * 2 ^ c) % 2 = 1) := by
      rw [Bool.and_eq_true, Bool.or_eq_true, Bool.or_eq_true, decide_eq_true_eq, hround,
        decide_eq_true_eq, hany, hy3]
      exact and_congr_right fun hup => by rw [hbelow hup]
    have hspec := roundHalfEven_spec (r / 2 ^ lowest)
    convert hspec using 1
    rw [hparts, pow_succ']
    by_cases hup : (M.testBit c && (sticky || mantissa.anyBitBelow c ||
        decide (M / (2 * 2 ^ c) % 2 = 1))) = true
    · rw [if_pos hup, if_pos (hdecide.mp hup), mod_eq_of_lt (by omega)]
      push_cast
      rfl
    · rw [if_neg hup, if_neg fun hc => hup (hdecide.mpr hc)]

variable {negative : Bool}

theorem fromBits_signBit {b : Nat} (h : b < 2 ^ 63) :
    fromBits (signBit negative ||| b) = ofMagnitude negative b h := by
  have hor : signBit negative ||| b = (if negative then 2 ^ 63 else 0) + b := by
    unfold signBit
    cases negative with
    | false => simp
    | true =>
      have := two_pow_add_eq_or_of_lt h 1
      exact this.symm
  simp only [fromBits, ofMagnitude, Binary64.mk.injEq, hor]
  refine mod_eq_of_lt ?_
  split <;> omega

theorem fromBits_signBit_zero (negative : Bool) :
    fromBits (signBit negative) = capped negative 0 := by
  have := @fromBits_signBit negative 0 (by norm_num)
  rw [or_zero] at this
  exact this

theorem fromBits_capped {b : Nat} (h : b ≤ infBits) :
    fromBits (signBit negative ||| b) = capped negative b := by
  rw [fromBits_signBit (h.trans_lt (by norm_num [infBits]))]
  simp only [capped, Nat.min_eq_left h]

theorem fromBits_infinity (negative : Bool) {b : Nat} (h : infBits ≤ b) :
    fromBits (signBit negative ||| 0x7FF <<< 52) = capped negative b := by
  have hinf : 0x7FF <<< 52 = infBits := by norm_num [infBits, shiftLeft_eq]
  rw [hinf, fromBits_capped le_rfl]
  simp only [capped, Nat.min_eq_right h, Nat.min_self]

theorem fromBits_normal {k m : Nat} (hm : 2 ^ 52 ≤ m ∧ m < 2 ^ 53) (hk : k < 2046) :
    fromBits (signBit negative ||| (k + 1) <<< 52 ||| m % 2 ^ 52) =
      capped negative (k * 2 ^ 52 + m) := by
  have hor : (k + 1) <<< 52 ||| m % 2 ^ 52 = k * 2 ^ 52 + m := by
    have := two_pow_add_eq_or_of_lt (show m % 2 ^ 52 < 2 ^ 52 by omega) (k + 1)
    rw [shiftLeft_eq, Nat.mul_comm, ← this]
    omega
  rw [Nat.or_assoc, hor, fromBits_capped]
  norm_num [infBits]
  omega

section

variable (h : Stands mantissa exponent2 sticky M r)
include h

theorem Stands.size_pos : 0 < M.size :=
  Nat.size_pos.mpr h.pos

theorem Stands.assembled_normal (hmsb : -1022 ≤ (M.size : ℤ) - 1 + exponent2) :
    ∃ b, Rounds b r ∧ assembleDouble mantissa exponent2 sticky negative = capped negative b := by
  obtain ⟨k, hk⟩ : ∃ k : Nat, (M.size : ℤ) - 1 + exponent2 = k - 1022 :=
    ⟨((M.size : ℤ) - 1 + exponent2 + 1022).toNat, by omega⟩
  have hspec := h.roundAt (show (53 : ℤ) = M.size + exponent2 - ((k : ℤ) - 1074) by omega)
    (by norm_num) le_rfl
  obtain ⟨hlow, hhigh⟩ := h.binade
  have hunit : (0 : ℚ) < 2 ^ ((k : ℤ) - 1074) := by positivity
  have hlow' : (2 : ℚ) ^ 52 ≤ r / 2 ^ ((k : ℤ) - 1074) := by
    rw [le_div_iff₀ hunit, ← zpow_natCast, ← zpow_add₀ (by norm_num),
      show ((52 : ℕ) : ℤ) + ((k : ℤ) - 1074) = (M.size : ℤ) - 1 + exponent2 by omega]
    exact hlow
  have hhigh' : r / 2 ^ ((k : ℤ) - 1074) < (2 : ℚ) ^ 53 := by
    rw [div_lt_iff₀ hunit, ← zpow_natCast, ← zpow_add₀ (by norm_num),
      show ((53 : ℕ) : ℤ) + ((k : ℤ) - 1074) = (M.size : ℤ) + exponent2 by omega]
    exact hhigh
  generalize hm : NumberParse.roundAt mantissa exponent2 sticky ((k : ℤ) - 1074) 53 = m at hspec
  have hm52 : 2 ^ 52 ≤ m := hspec.natCast_le (by push_cast; exact hlow')
  have hm53 : m ≤ 2 ^ 53 := hspec.le_natCast (by push_cast; exact hhigh'.le)
  refine ⟨k * 2 ^ 52 + m, rounds_of_isHalfEven hm53 hspec (.inr hlow') hhigh', ?_⟩
  have hsize := h.size_pos
  unfold assembleDouble
  dsimp only
  rw [h.holds.bitLength, if_neg (by omega), hk, if_neg (by omega),
    show ((k : ℤ) - 1022 - 52) = (k : ℤ) - 1074 by ring, hm]
  have hshift : m >>> 53 ≠ 0 ↔ m = 2 ^ 53 := by
    rw [shiftRight_eq_div_pow]
    omega
  by_cases hcarry : m = 2 ^ 53
  · rw [decide_eq_true (hshift.mpr hcarry)]
    simp only [if_true]
    by_cases hover : (k : ℤ) - 1022 + 1 > 1023
    · rw [if_pos hover, fromBits_infinity]
      norm_num [infBits]
      omega
    · have hnext := @fromBits_normal negative (k + 1) (2 ^ 52) (by norm_num) (by omega)
      rw [if_neg hover, show ((k : ℤ) - 1022 + 1 + 1023).toNat = k + 1 + 1 by omega, hcarry,
        show 2 ^ 53 >>> 1 = 2 ^ 52 by norm_num [shiftRight_eq_div_pow], hnext,
        show (k + 1) * 2 ^ 52 + 2 ^ 52 = k * 2 ^ 52 + 2 ^ 53 by ring]
  · rw [decide_eq_false fun hne => hcarry (hshift.mp hne)]
    simp only [Bool.false_eq_true, if_false]
    by_cases hover : (k : ℤ) - 1022 > 1023
    · rw [if_pos hover, fromBits_infinity]
      norm_num [infBits]
      omega
    · rw [if_neg hover, show ((k : ℤ) - 1022 + 1023).toNat = k + 1 by omega,
        fromBits_normal (by omega) (by omega)]

/-- Below the normal range the exponent is pinned and the significand floats;
the one value this branch gets wrong is exactly half the smallest subnormal,
which a mantissa of more than one bit rounds up. -/
theorem Stands.assembled_subnormal (hmsb : (M.size : ℤ) - 1 + exponent2 < -1022)
    (hhalf : r ≠ 2 ^ (-1075 : ℤ)) :
    ∃ b, Rounds b r ∧ assembleDouble mantissa exponent2 sticky negative = capped negative b := by
  obtain ⟨hlow, hhigh⟩ := h.binade
  have hsize := h.size_pos
  have hpos : 0 < r := lt_of_lt_of_le (by positivity) hlow
  unfold assembleDouble
  rw [h.holds.bitLength, if_neg (by omega), if_pos (by omega)]
  by_cases hkeep : (M.size : ℤ) - 1 + exponent2 - (-1074) + 1 ≤ 0
  · rw [if_pos hkeep]
    by_cases htiny : (M.size : ℤ) - 1 + exponent2 < -1075
    · rw [if_pos htiny, fromBits_signBit_zero]
      have hlt : r < mid 0 := by
        rw [mid_zero]
        exact hhigh.trans_le (zpow_le_zpow_right₀ (by norm_num) (by omega))
      exact ⟨0, rounds_zero_of_lt hlt, rfl⟩
    · have hmsb' : (M.size : ℤ) - 1 + exponent2 = -1075 := by omega
      rw [hmsb'] at hlow
      have hgt : mid 0 < r := by
        rw [mid_zero]
        exact lt_of_le_of_ne hlow hhalf.symm
      have habove : (decide (M.size > 1) || sticky) = true := by
        rw [Bool.or_eq_true, decide_eq_true_eq, h.sticky_iff]
        by_contra hnone
        push Not at hnone
        obtain ⟨hone, hexact⟩ := hnone
        have hM : M = 1 := by
          have := (size_spec h.pos).2
          rw [show M.size = 1 by omega] at this
          have := h.pos
          omega
        refine hhalf ?_
        rw [hexact, hM, show exponent2 = -1075 by omega]
        simp
      rw [if_neg htiny, habove]
      simp only [if_true]
      rw [fromBits_capped (by norm_num [infBits])]
      have hmid1 := @mid_binade 0 1 (.inl rfl) (by norm_num)
      have hlt : r < mid 1 := by
        refine hhigh.trans_le ?_
        rw [show (0 * 2 ^ 52 + 1 : ℕ) = 1 from rfl] at hmid1
        rw [hmid1, show (M.size : ℤ) + exponent2 = ((0 : ℕ) : ℤ) - 1075 + 1 by push_cast; omega,
          zpow_add_one₀ (by norm_num)]
        have hunit : (0 : ℚ) < 2 ^ (((0 : ℕ) : ℤ) - 1075) := by positivity
        generalize (2 : ℚ) ^ (((0 : ℕ) : ℤ) - 1075) = u at hunit
        push_cast
        linarith
      exact ⟨1, ⟨fun _ => hgt.le, hlt.le, fun _ heq => absurd heq hgt.ne', fun heq =>
        absurd heq hlt.ne⟩, rfl⟩
  · rw [if_neg hkeep]
    have hspec := h.roundAt (show (M.size : ℤ) - 1 + exponent2 - (-1074) + 1 =
      M.size + exponent2 - ((0 : ℕ) - 1074) by push_cast; ring) (by omega) (by omega)
    have hunit : (0 : ℚ) < 2 ^ (((0 : ℕ) : ℤ) - 1074) := by positivity
    have hhigh' : r / 2 ^ (((0 : ℕ) : ℤ) - 1074) < (2 : ℚ) ^ 52 := by
      rw [div_lt_iff₀ hunit, ← zpow_natCast, ← zpow_add₀ (by norm_num)]
      exact hhigh.trans_le (zpow_le_zpow_right₀ (by norm_num) (by push_cast; omega))
    have hlowest : ((0 : ℕ) : ℤ) - 1074 = -1074 := by norm_num
    generalize hm : NumberParse.roundAt mantissa exponent2 sticky (((0 : ℕ) : ℤ) - 1074) _ = m at hspec
    rw [hlowest] at hm
    rw [hm]
    have hm52 : m ≤ 2 ^ 52 := hspec.le_natCast (by push_cast; exact hhigh'.le)
    refine ⟨0 * 2 ^ 52 + m, rounds_of_isHalfEven (by omega) hspec (.inl rfl)
      (hhigh'.trans (by norm_num)), ?_⟩
    have hle : m ≤ infBits := hm52.trans (by norm_num [infBits])
    rw [fromBits_capped hle, Nat.zero_mul, Nat.zero_add]

theorem Stands.assembled (negative : Bool) (hhalf : r ≠ 2 ^ (-1075 : ℤ)) :
    ∃ b, Rounds b r ∧ assembleDouble mantissa exponent2 sticky negative = capped negative b := by
  by_cases hmsb : -1022 ≤ (M.size : ℤ) - 1 + exponent2
  · exact h.assembled_normal hmsb
  · exact h.assembled_subnormal (by omega) hhalf

theorem Stands.assembled_half (negative : Bool) (hhalf : r = 2 ^ (-1075 : ℤ))
    (hexp : exponent2 < -1075) :
    assembleDouble mantissa exponent2 sticky negative = capped negative 1 := by
  obtain ⟨hlow, hhigh⟩ := h.binade
  have hsize := h.size_pos
  rw [hhalf] at hlow hhigh
  have h1 := (zpow_le_zpow_iff_right₀ (by norm_num)).mp hlow
  have h2 := (zpow_lt_zpow_iff_right₀ (by norm_num)).mp hhigh
  unfold assembleDouble
  rw [h.holds.bitLength, if_neg (by omega), if_pos (by omega), if_pos (by omega),
    if_neg (by omega), decide_eq_true (by omega), Bool.true_or]
  simp only [if_true]
  exact fromBits_capped (by norm_num [infBits])

end

end Equilibrium.NumberParse
