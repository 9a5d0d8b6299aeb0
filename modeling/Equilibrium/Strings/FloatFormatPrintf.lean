import Equilibrium.Strings.FloatFormat

/-! What C's `printf` prints for a finite double under `%f`, `%e` and `%g`, from
the rational value of the double alone. -/

namespace Equilibrium.Printf

open Library Library.DecimalNumeral Library.Rounding

def natural (n : ℕ) : List (Fin 10) := padded (Nat.log 10 n + 1) n

/-- The value in units of `10 ^ -places`, rounded half-even. -/
def units (x : ℚ) (places : ℤ) : ℕ := (roundHalfEven (x * 10 ^ places)).toNat

/-- The digits around a point that `alt` keeps when no digit follows it. -/
def layout (whole fraction : List (Fin 10)) (alt : Bool) : List Char :=
  whole.map digitChar ++
    if fraction = [] ∧ alt = false then [] else '.' :: fraction.map digitChar

/-- The exponent after rounding to one digit before the point and `p` after it. -/
def exponentAfter (x : ℚ) (p : ℕ) : ℤ :=
  if x = 0 then 0
  else if units x (p - Int.log 10 x) = 10 ^ (p + 1) then Int.log 10 x + 1
  else Int.log 10 x

def fixedWhole (x : ℚ) (p : ℕ) : List (Fin 10) := natural (units x p / 10 ^ p)

def fixedFraction (x : ℚ) (p : ℕ) : List (Fin 10) := padded p (units x p)

/-- The digits of `%e`: one before the point and `p` after it. -/
def scientificDigits (x : ℚ) (p : ℕ) : List (Fin 10) :=
  padded (p + 1) (units x (p - exponentAfter x p))

/-- At least two digits, and only as many more as the exponent needs. -/
def exponentText (exponent : ℤ) (upper : Bool) : List Char :=
  (if upper then 'E' else 'e') :: (if exponent < 0 then '-' else '+') ::
    (padded (max 2 (Nat.log 10 exponent.natAbs + 1)) exponent.natAbs).map digitChar

/-- `%g` removes trailing zeros of the fraction unless `alt` keeps them. -/
def strip (fraction : List (Fin 10)) (alt : Bool) : List (Fin 10) :=
  if alt then fraction else fraction.rdropWhile (· = 0)

def fixed (x : ℚ) (p : ℕ) (alt : Bool) : List Char :=
  layout (fixedWhole x p) (fixedFraction x p) alt

def scientific (x : ℚ) (p : ℕ) (alt upper : Bool) : List Char :=
  layout ((scientificDigits x p).take 1) ((scientificDigits x p).drop 1) alt ++
    exponentText (exponentAfter x p) upper

/-- `%g` with `p > 0` significant digits, its layout chosen by the exponent after rounding. -/
def general (x : ℚ) (p : ℕ) (alt upper : Bool) : List Char :=
  let exponent := exponentAfter x (p - 1)
  if -4 ≤ exponent ∧ exponent < p then
    let places := (p - 1 - exponent).toNat
    layout (fixedWhole x places) (strip (fixedFraction x places) alt) alt
  else
    layout ((scientificDigits x (p - 1)).take 1) (strip ((scientificDigits x (p - 1)).drop 1) alt)
      alt ++ exponentText exponent upper

def signText (negative : Bool) (sign : Char) : List Char :=
  if negative then ['-'] else if sign = '+' ∨ sign = ' ' then [sign] else []

def text (v : Binary64) (type : Char) (precision : ℤ) (sign : Char) (alt : Bool) : List Char :=
  let x := |v.value|
  let p := if precision < 0 then 6 else precision.toNat
  signText v.negative sign ++
    if type = 'e' ∨ type = 'E' then scientific x p alt (type = 'E')
    else if type = 'g' ∨ type = 'G' then general x (if p = 0 then 1 else p) alt (type = 'G')
    else fixed x p alt

end Equilibrium.Printf

/-! `FormatFloatTo` writes the text of `printf`. Each writer is reduced to the
text it appends; the text of a represented value depends on the value alone. -/

namespace Equilibrium.FloatFormat

open Library Library.Binary64 Library.DecimalNumeral Library.Rounding Printf List

/-! The writer. -/

theorem put_eq (w : Writer) (c : Char) : w.put c = w.putAll [c] := rfl

theorem putAll_putAll (w : Writer) (a b : List Char) :
    (w.putAll a).putAll b = w.putAll (a ++ b) := by
  unfold Writer.putAll
  rw [foldl_append]

theorem writeDigits_eq (w : Writer) (n : Nat) (digit : ℤ → Fin 10) : writeDigits w n digit =
      w.putAll (((List.range n).map fun i : ℕ => digit i).map digitChar) := by
  rw [writeDigits, Int.toNat_natCast, Writer.putAll, List.foldl_map, List.foldl_map]

theorem putAll_spec (capacity : Nat) (text : List Char) :
    ((⟨capacity, [], 0⟩ : Writer).putAll text).out = text.take capacity ∧
      ((⟨capacity, [], 0⟩ : Writer).putAll text).length = text.length ∧
      ((⟨capacity, [], 0⟩ : Writer).putAll text).capacity = capacity := by
  induction text using reverseRecOn with
  | nil => simp [Writer.putAll]
  | append_singleton text c ih =>
    obtain ⟨hout, hlength, hcapacity⟩ := ih
    rw [← putAll_putAll]
    generalize (⟨capacity, [], 0⟩ : Writer).putAll text = w at *
    rw [← put_eq, Writer.put, hout, hlength, hcapacity]
    refine ⟨?_, by simp, rfl⟩
    split
    · next hlt =>
      rw [take_of_length_le hlt.le, take_of_length_le (by simpa using hlt)]
    · next hge => rw [take_append_of_le_length (not_lt.mp hge)]

theorem writeSign_eq (w : Writer) (negative : Bool) (sign : Char) :
    writeSign w negative sign = w.putAll (signText negative sign) := by
  unfold writeSign signText
  split
  · rfl
  · split <;> rfl

/-! The layouts. -/

variable {d : Decimal} {x : ℚ}

theorem Represents.natural_floor (h : Represents d x) (hpos : 0 < d.exponent)
    (hnil : d.digits = [] → d.exponent = 1) : (Nat.log 10 ⌊x⌋₊ + 1 : ℤ) = d.exponent := by
  by_cases hd : d.digits = []
  · rw [h.eq_zero_iff.mpr hd, Nat.floor_zero, Nat.log_zero_right, hnil hd]
    rfl
  · obtain ⟨e, he⟩ : ∃ e : ℕ, d.exponent = (e : ℤ) + 1 := ⟨(d.exponent - 1).toNat, by omega⟩
    have hle := h.le hd
    have hlt := h.lt
    rw [he, add_sub_cancel_right, zpow_natCast] at hle
    rw [he, show ((e : ℤ) + 1) = ((e + 1 : ℕ) : ℤ) by push_cast; ring, zpow_natCast] at hlt
    have hlog : Nat.log 10 ⌊x⌋₊ = e := by
      refine Nat.log_eq_of_pow_le_of_lt_pow ?_ ?_
      · exact Nat.le_floor (by exact_mod_cast hle)
      · exact (Nat.floor_lt h.nonneg).mpr (by exact_mod_cast hlt)
    rw [hlog, he]

theorem Represents.writeFixed (h : Represents d x) (hnil : d.digits = [] → d.exponent = 1)
    (w : Writer) (p : Nat) (alt : Bool) :
    writeFixed w d p alt = w.putAll (layout (natural ⌊x⌋₊) (padded p ⌊x * 10 ^ p⌋₊) alt) := by
  have hwhole : (if d.exponent ≤ 0 then w.put '0' else writeDigits w d.exponent d.digitAt) =
      w.putAll ((natural ⌊x⌋₊).map digitChar) := by
    split
    · next hle =>
      have hlt : x < 1 := h.lt.trans_le (zpow_le_one_of_nonpos₀ (by norm_num) hle)
      rw [Nat.floor_eq_zero.mpr hlt]
      rfl
    · next hpos =>
      have hlog := h.natural_floor (not_le.mp hpos) hnil
      have hwindow := h.digits_window 0 (Nat.log 10 ⌊x⌋₊ + 1)
      have hexp : (0 : ℤ) + ((Nat.log 10 ⌊x⌋₊ + 1 : ℕ) : ℤ) - d.exponent = 0 := by
        push_cast
        omega
      rw [hexp, zpow_zero, mul_one] at hwindow
      simp only [zero_add] at hwindow
      rw [← hlog, ← Nat.cast_succ, writeDigits_eq, hwindow]
      rfl
  have hwindow := h.digits_window d.exponent p
  rw [show d.exponent + p - d.exponent = (p : ℤ) by ring, zpow_natCast] at hwindow
  unfold FloatFormat.writeFixed layout
  rw [hwhole]
  by_cases hp : p = 0
  · subst hp
    simp only [Nat.cast_zero, le_refl, if_true, padded, true_and, map_nil]
    cases alt with
    | false => simp
    | true => simp [put_eq, putAll_putAll]
  · have hne : padded p ⌊x * 10 ^ p⌋₊ ≠ [] :=
      List.ne_nil_of_length_pos (by rw [length_padded]; omega)
    rw [if_neg (by omega), if_neg fun hc => hne hc.1, put_eq, putAll_putAll, writeDigits_eq,
      putAll_putAll, ← hwindow]
    have hindex : (fun i : ℕ => d.digitAt (d.exponent + ((i : ℤ) + 1) - 1)) =
        fun i : ℕ => d.digitAt (d.exponent + i) := by
      funext i
      congr 1
      ring
    rw [hindex]
    simp only [append_assoc, cons_append, nil_append]

theorem writeExponent_eq (w : Writer) {exponent : ℤ} (h : exponent.natAbs < 1000)
    (uppercase : Bool) :
    writeExponent w exponent uppercase = w.putAll (exponentText exponent uppercase) := by
  have hdigits : ∀ m < 1000, (padded (max 2 (Nat.log 10 m + 1)) m).map digitChar = if 100 ≤ m then
        [Char.ofNat (48 + m / 100), Char.ofNat (48 + m / 10 % 10), Char.ofNat (48 + m % 10)]
      else [Char.ofNat (48 + m / 10), Char.ofNat (48 + m % 10)] := by
    intro m hm
    have hchar : ∀ n, digitChar (Fin.ofNat 10 n) = Char.ofNat (48 + n % 10) := fun _ => rfl
    by_cases hlarge : 100 ≤ m
    · have hlog : Nat.log 10 m = 2 := Nat.log_eq_of_pow_le_of_lt_pow hlarge hm
      have hpadded : padded 3 m =
          [Fin.ofNat 10 (m / 10 / 10), Fin.ofNat 10 (m / 10), Fin.ofNat 10 m] := rfl
      rw [hlog, if_pos hlarge, show max 2 (2 + 1) = 3 from rfl, hpadded]
      simp only [map_cons, map_nil, hchar]
      rw [Nat.div_div_eq_div_mul, Nat.mod_eq_of_lt (by omega)]
    · have hlog : Nat.log 10 m ≤ 1 := Nat.lt_succ_iff.mp (Nat.log_lt_of_lt_pow' (by omega)
        (by omega))
      have hpadded : padded 2 m = [Fin.ofNat 10 (m / 10), Fin.ofNat 10 m] := rfl
      rw [if_neg hlarge, show max 2 (Nat.log 10 m + 1) = 2 by omega, hpadded]
      simp only [map_cons, map_nil, hchar]
      rw [Nat.mod_eq_of_lt (by omega)]
  have habs : (if exponent < 0 then -exponent else exponent).toNat = exponent.natAbs := by
    split <;> omega
  unfold writeExponent exponentText
  rw [hdigits _ h, habs]
  dsimp only
  split <;> simp only [put_eq, putAll_putAll, cons_append, nil_append]

theorem digitAt_nil (h : d.count = 0) (i : ℤ) : d.digitAt i = 0 := by
  unfold Decimal.digitAt
  rw [h]
  split
  · omega
  · rfl

theorem Represents.scientific_window (h : Represents d x) (p : ℕ) :
    padded (p + 1) ⌊x * 10 ^ ((p : ℤ) - (d.exponent - 1))⌋₊ =
      d.digitAt 0 :: (List.range p).map fun i : ℕ => d.digitAt (i + 1) := by
  have hwindow := h.digits_window 0 (p + 1)
  rw [show (0 : ℤ) + ((p + 1 : ℕ) : ℤ) - d.exponent = (p : ℤ) - (d.exponent - 1) by
    push_cast; ring] at hwindow
  rw [← hwindow, range_succ_eq_map, map_cons, map_map]
  simp only [zero_add, Nat.cast_zero]
  congr 1

theorem Represents.writeScientific (h : Represents d x) (hnil : d.digits = [] → d.exponent = 1)
    (hexp : (d.exponent - 1).natAbs < 1000) (w : Writer) (p : ℕ) (alt uppercase : Bool) :
    writeScientific w d p alt uppercase = w.putAll
      (layout ((padded (p + 1) ⌊x * 10 ^ ((p : ℤ) - (d.exponent - 1))⌋₊).take 1)
          ((padded (p + 1) ⌊x * 10 ^ ((p : ℤ) - (d.exponent - 1))⌋₊).drop 1) alt ++
        exponentText (d.exponent - 1) uppercase) := by
  have hzero : (if decide (d.count = 0) = true then 0 else d.exponent - 1) = d.exponent - 1 := by
    split
    · next hc =>
      rw [hnil (length_eq_zero_iff.mp (of_decide_eq_true hc))]
      rfl
    · rfl
  have hfirst : (if decide (d.count = 0) = true then (0 : Fin 10) else d.digitAt 0) = d.digitAt 0 := by
    split
    · next hc => rw [digitAt_nil (by simpa using hc)]
    · rfl
  unfold FloatFormat.writeScientific layout
  dsimp only
  rw [hzero, hfirst, writeExponent_eq _ hexp, h.scientific_window, ← putAll_putAll]
  congr 1
  by_cases hp : p = 0
  · subst hp
    cases alt with
    | false => simp [put_eq]
    | true => simp [put_eq, putAll_putAll]
  · have hne : (List.range p).map (fun i : ℕ => d.digitAt (i + 1)) ≠ [] := by
      simpa using hp
    rw [if_pos (by omega), writeDigits_eq, put_eq, put_eq, putAll_putAll, putAll_putAll]
    simp only [take_succ_cons, take_zero, drop_succ_cons, drop_zero]
    rw [if_neg fun hc => hne hc.1]
    rfl

/-! Rounding to significant digits. -/

theorem units_eq {places : ℤ} (hx : 0 ≤ x) :
    ((roundHalfEven (x * 10 ^ places) : ℤ) : ℚ) = units x places := by
  have hnonneg := roundHalfEven_nonneg (show 0 ≤ x * 10 ^ places by positivity)
  have hcast : ((units x places : ℕ) : ℤ) = roundHalfEven (x * 10 ^ places) :=
    Int.toNat_of_nonneg hnonneg
  rw [← hcast, Int.cast_natCast]

theorem units_zero (places : ℤ) : units 0 places = 0 := by
  have hzero : roundHalfEven (0 : ℚ) = 0 := by exact_mod_cast @roundHalfEven_natCast ℚ _ _ _ _ 0
  rw [units, zero_mul, hzero]
  rfl

theorem units_carry {e : ℤ} {p : ℕ} (hx : 0 ≤ x) (hlt : x < 10 ^ (e + 1))
    (hcarry : units x (p - e) = 10 ^ (p + 1)) : units x (p - (e + 1)) = 10 ^ p := by
  have hround := roundHalfEven_spec (x * 10 ^ ((p : ℤ) - e))
  have hcast := @units_eq x ((p : ℤ) - e) hx
  have hlower := hround.lower
  rw [hcast, hcarry] at hlower
  push_cast at hlower
  have hfine : x * 10 ^ ((p : ℤ) - e) = x * 10 ^ ((p : ℤ) - (e + 1)) * 10 := by
    rw [show (p : ℤ) - e = (p : ℤ) - (e + 1) + 1 by ring, zpow_add_one₀ (by norm_num)]
    ring
  have hupper : x * 10 ^ ((p : ℤ) - (e + 1)) < 10 ^ p := by
    have hscale := mul_lt_mul_of_pos_right hlt (show (0 : ℚ) < 10 ^ ((p : ℤ) - (e + 1)) by positivity)
    rwa [← zpow_add₀ (by norm_num), show e + 1 + ((p : ℤ) - (e + 1)) = p by ring,
      zpow_natCast] at hscale
  have hnear : |x * 10 ^ ((p : ℤ) - (e + 1)) - ((10 ^ p : ℕ) : ℤ)| < 1 / 2 := by
    rw [hfine, pow_succ] at hlower
    push_cast
    rw [abs_lt]
    constructor <;> linarith
  rw [units, roundHalfEven_of_abs_lt hnear]
  rfl

theorem units_bounds (p : ℕ) (hx : 0 < x) :
    10 ^ p ≤ units x (p - Int.log 10 x) ∧ units x (p - Int.log 10 x) ≤ 10 ^ (p + 1) := by
  have hle := Int.zpow_log_le_self (b := 10) (by norm_num) hx
  have hlt := Int.lt_zpow_succ_log_self (b := 10) (by norm_num) x
  have hunit : (0 : ℚ) < 10 ^ ((p : ℤ) - Int.log 10 x) := by positivity
  have hround := roundHalfEven_spec (x * 10 ^ ((p : ℤ) - Int.log 10 x))
  have hcast : ((units x (p - Int.log 10 x) : ℕ) : ℤ) = roundHalfEven (x * 10 ^ ((p : ℤ) - Int.log 10 x)) :=
    Int.toNat_of_nonneg (roundHalfEven_nonneg (by positivity))
  rw [← hcast] at hround
  constructor
  · refine hround.natCast_le ?_
    have := mul_le_mul_of_nonneg_right hle hunit.le
    push_cast at this ⊢
    rwa [← zpow_add₀ (by norm_num), show Int.log 10 x + ((p : ℤ) - Int.log 10 x) = p by ring,
      zpow_natCast] at this
  · refine hround.le_natCast ?_
    have := (mul_lt_mul_of_pos_right hlt hunit).le
    push_cast at this ⊢
    rwa [← zpow_add₀ (by norm_num), show Int.log 10 x + 1 + ((p : ℤ) - Int.log 10 x) =
      ((p + 1 : ℕ) : ℤ) by push_cast; ring, zpow_natCast] at this

theorem significant_value (p : ℕ) (hx : 0 < x) :
    (units x (p - exponentAfter x p) : ℚ) * 10 ^ (exponentAfter x p - p) =
      units x (p - Int.log 10 x) * 10 ^ (Int.log 10 x - p) := by
  have hlt := Int.lt_zpow_succ_log_self (b := 10) (by norm_num) x
  unfold exponentAfter
  rw [if_neg hx.ne']
  split
  · next hcarry =>
    rw [units_carry hx.le hlt hcarry, hcarry]
    push_cast
    rw [← zpow_natCast, ← zpow_natCast, ← zpow_add₀ (by norm_num), ← zpow_add₀ (by norm_num)]
    congr 1
    push_cast
    ring
  · rfl

theorem Represents.exponent_eq (h : Represents d x) {e : ℤ} (hle : (10 : ℚ) ^ e ≤ x)
    (hlt : x < 10 ^ (e + 1)) : d.exponent = e + 1 ∧ d.digits ≠ [] := by
  have hne : d.digits ≠ [] := by
    intro hnil
    rw [h.eq_zero_iff.mpr hnil] at hle
    exact absurd hle (not_le.mpr (by positivity))
  have h1 := (zpow_lt_zpow_iff_right₀ (by norm_num)).mp (hle.trans_lt h.lt)
  have h2 := (zpow_lt_zpow_iff_right₀ (by norm_num)).mp ((h.le hne).trans_lt hlt)
  exact ⟨by omega, hne⟩

/-- Rounding to `p + 1` significant digits: the exponent is the one after
rounding, and the value is that many units. -/
theorem Represents.significant (h : Represents d x) (hnil : d.digits = [] → d.exponent = 1)
    (p : ℕ) : Represents (FloatFormat.roundTo d ((p : ℤ) + 1))
        (units x (p - exponentAfter x p) * 10 ^ (exponentAfter x p - p)) ∧
      (FloatFormat.roundTo d ((p : ℤ) + 1)).exponent = exponentAfter x p + 1 ∧
      ((FloatFormat.roundTo d ((p : ℤ) + 1)).digits = [] → x = 0) := by
  by_cases hd : d.digits = []
  · have hx := h.eq_zero_iff.mpr hd
    have hround : FloatFormat.roundTo d ((p : ℤ) + 1) = d := by
      have hle : (d.count : ℤ) ≤ (p : ℤ) + 1 := by
        rw [Decimal.count, hd, List.length_nil]
        omega
      rw [FloatFormat.roundTo, if_pos hle]
    rw [hround, hx, units_zero, exponentAfter, if_pos rfl, Nat.cast_zero, zero_mul, ← hx]
    exact ⟨h, hnil hd, fun _ => rfl⟩
  · have hlog := h.log hd
    have hx0 : 0 < x := lt_of_lt_of_le (by positivity) (h.le hd)
    have hround := h.roundTo ((p : ℤ) + 1)
    rw [show (p : ℤ) + 1 - d.exponent = p - Int.log 10 x by rw [hlog]; ring,
      show d.exponent - ((p : ℤ) + 1) = Int.log 10 x - p by rw [hlog]; ring,
      units_eq hx0.le] at hround
    obtain ⟨hlow, hhigh⟩ := units_bounds p hx0
    rw [significant_value p hx0]
    generalize FloatFormat.roundTo d ((p : ℤ) + 1) = r at *
    have hlow' : (10 : ℚ) ^ p ≤ units x (p - Int.log 10 x) := by exact_mod_cast hlow
    have hunit : (0 : ℚ) < 10 ^ (Int.log 10 x - p) := by positivity
    by_cases hcarry : units x (p - Int.log 10 x) = 10 ^ (p + 1)
    · have hvalue : (units x (p - Int.log 10 x) : ℚ) * 10 ^ (Int.log 10 x - p) =
          10 ^ (Int.log 10 x + 1) := by
        rw [hcarry]
        push_cast
        rw [← zpow_natCast, ← zpow_add₀ (by norm_num)]
        congr 1
        push_cast
        ring
      have hexp := hround.exponent_eq hvalue.ge
        (hvalue.trans_lt (zpow_lt_zpow_right₀ (by norm_num) (by omega)))
      rw [exponentAfter, if_neg hx0.ne', if_pos hcarry]
      exact ⟨hround, hexp.1, fun hnone => absurd hnone hexp.2⟩
    · have hhigh' : (units x (p - Int.log 10 x) : ℚ) < 10 ^ (p + 1) := by
        exact_mod_cast lt_of_le_of_ne hhigh hcarry
      have hexp := hround.exponent_eq (e := Int.log 10 x) ?_ ?_
      · rw [exponentAfter, if_neg hx0.ne', if_neg hcarry]
        exact ⟨hround, hexp.1, fun hnone => absurd hnone hexp.2⟩
      · refine le_trans (le_of_eq ?_) (mul_le_mul_of_nonneg_right hlow' hunit.le)
        rw [← zpow_natCast, ← zpow_add₀ (by norm_num)]
        congr 1
        ring
      · refine (mul_lt_mul_of_pos_right hhigh' hunit).trans_le (le_of_eq ?_)
        rw [← zpow_natCast, ← zpow_add₀ (by norm_num)]
        congr 1
        push_cast
        ring

end Equilibrium.FloatFormat
