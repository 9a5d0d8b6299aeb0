import Equilibrium.Strings.FloatFormatGeneral
import Equilibrium.Strings.NumberParseText

/-! Seventeen significant digits identify a double: `ParseFloat` reads back the
text `FormatFloatTo` writes, whichever layout and flags it has. -/

namespace Equilibrium.FloatRoundTrip

open List NumberParse Printf
open DecimalText (exponentChars number)
open Library Library.Binary64 Library.DecimalNumeral Library.Rounding Printf FloatFormat

/-! The printed text as a decimal text. -/

def printedSign (negative : Bool) (sign : Char) : TextSign :=
  if negative then .minus else if sign = '+' then .plus else .none

def printedBlanks (negative : Bool) (sign : Char) : List Char :=
  if negative = false ∧ sign = ' ' then [' '] else []

theorem printedBlanks_space (negative : Bool) (sign : Char) :
    ∀ c ∈ printedBlanks negative sign, isSpace c := by
  unfold printedBlanks
  split
  · simp [isSpace]
  · simp

theorem printedSign_chars (negative : Bool) (sign : Char) :
    printedBlanks negative sign ++ (printedSign negative sign).chars = signText negative sign := by
  unfold printedBlanks printedSign signText
  cases negative with
  | true => rfl
  | false =>
    by_cases hplus : sign = '+'
    · subst hplus
      rfl
    · by_cases hspace : sign = ' '
      · subst hspace
        rfl
      · simp [hplus, hspace, TextSign.chars]

theorem printedSign_negative (negative : Bool) (sign : Char) :
    (printedSign negative sign).negative = negative := by
  unfold printedSign
  cases negative with
  | true => rfl
  | false =>
    rw [if_neg (by simp)]
    split <;> rfl

def printedExponent (X : ℤ) (upper : Bool) : ExponentText where
  upper := upper
  sign := if X < 0 then .minus else .plus
  digits := padded (max 2 (Nat.log 10 X.natAbs + 1)) X.natAbs
  nonempty := List.ne_nil_of_length_pos (by rw [length_padded]; omega)

theorem printedExponent_chars (X : ℤ) (upper : Bool) :
    (printedExponent X upper).chars = exponentText X upper := by
  unfold ExponentText.chars printedExponent exponentText
  split <;> rfl

theorem numeral_natural (n : ℕ) : numeral (natural n) = n :=
  numeral_padded_of_lt (Nat.lt_pow_succ_log_self (by norm_num) n)

theorem printedExponent_value (X : ℤ) (upper : Bool) : (printedExponent X upper).value = X := by
  have hlt : X.natAbs < 10 ^ max 2 (Nat.log 10 X.natAbs + 1) :=
    (Nat.lt_pow_succ_log_self (by norm_num) _).trans_le
      (Nat.pow_le_pow_right (by norm_num) (le_max_right _ _))
  unfold ExponentText.value printedExponent
  dsimp only
  rw [numeral_padded_of_lt hlt]
  split
  · simp only [TextSign.negative, if_true]
    omega
  · simp only [TextSign.negative, Bool.false_eq_true, if_false]
    omega

def printed (negative : Bool) (sign : Char) (whole fraction : List (Fin 10)) (alt : Bool)
    (exponent : Option ExponentText) (hwhole : whole ≠ []) : DecimalText where
  blanks := printedBlanks negative sign
  blank := printedBlanks_space negative sign
  sign := printedSign negative sign
  integer := whole
  fraction := if fraction = [] ∧ alt = false then none else some fraction
  exponent := exponent
  nonempty := List.append_ne_nil_of_left_ne_nil hwhole _

variable {negative : Bool} {sign : Char} {whole fraction : List (Fin 10)} {alt : Bool}
  {exponent : Option ExponentText} {hwhole : whole ≠ []}

theorem printed_fraction :
    (printed negative sign whole fraction alt exponent hwhole).fraction.getD [] = fraction := by
  unfold printed
  dsimp only
  split
  · next h => rw [h.1]; rfl
  · rfl

theorem printed_chars : (printed negative sign whole fraction alt exponent hwhole).chars =
    signText negative sign ++ (layout whole fraction alt ++ exponentChars exponent) := by
  rw [DecimalText.chars, ← append_assoc, ← printedSign_chars]
  unfold number printed layout
  dsimp only
  congr 1
  rw [← append_assoc]
  congr 2
  split <;> rfl

theorem printed_negative :
    (printed negative sign whole fraction alt exponent hwhole).negative = negative :=
  printedSign_negative negative sign

theorem printed_magnitude : (printed negative sign whole fraction alt exponent hwhole).magnitude =
    numeral (whole ++ fraction) *
      10 ^ ((exponent.map ExponentText.value).getD 0 - fraction.length) := by
  unfold DecimalText.magnitude DecimalText.digits DecimalText.scale
  rw [printed_fraction]
  rfl

theorem strip_value (whole fraction : List (Fin 10)) (alt : Bool) (X : ℤ) :
    (numeral (whole ++ strip fraction alt) : ℚ) * 10 ^ (X - (strip fraction alt).length) =
      numeral (whole ++ fraction) * 10 ^ (X - fraction.length) := by
  cases alt with
  | true => rfl
  | false =>
    have hnum := numeral_rdropWhile fraction
    have hle : (fraction.rdropWhile (· = 0)).length ≤ fraction.length :=
      (List.rdropWhile_prefix _ _).length_le
    obtain ⟨j, hj⟩ := Nat.exists_eq_add_of_le hle
    rw [hj, Nat.add_sub_cancel_left] at hnum
    have hstrip : strip fraction false = fraction.rdropWhile (· = 0) := rfl
    have hexp : X - ((fraction.rdropWhile (· = 0)).length : ℤ) = (j : ℤ) + (X - fraction.length) := by
      omega
    rw [hstrip, hexp, zpow_add₀ (by norm_num), zpow_natCast, numeral_append, numeral_append, hnum,
      hj, pow_add]
    push_cast
    ring

/-! Reading the printed text back. -/

/-- The decimal of seventeen significant digits nearest to a double rounds to it. -/
theorem rounds_of_significant (b : ℕ) :
    Rounds b (units (magnitude b) (16 - exponentAfter (magnitude b) 16) *
      10 ^ (exponentAfter (magnitude b) 16 - 16)) := by
  rcases Nat.eq_zero_or_pos b with rfl | hb
  · rw [magnitude_zero, units_zero, Nat.cast_zero, zero_mul]
    exact rounds_zero_of_lt (by rw [mid_zero]; positivity)
  · have hx : 0 < magnitude b := by
      have := magnitude_strictMono hb
      rwa [magnitude_zero] at this
    refine rounds_of_near ?_
    have hvalue := significant_value 16 hx
    push_cast at hvalue
    rw [hvalue]
    have hle := Int.zpow_log_le_self (b := 10) (by norm_num) hx
    have hround := roundHalfEven_spec (magnitude b * 10 ^ ((16 : ℤ) - Int.log 10 (magnitude b)))
    have hcast := @units_eq (magnitude b) (16 - Int.log 10 (magnitude b)) hx.le
    have hlower := hround.lower
    have hupper := hround.upper
    rw [hcast] at hlower hupper
    generalize Int.log 10 (magnitude b) = e at *
    generalize (units (magnitude b) (16 - e) : ℚ) = U at *
    have hunit : (0 : ℚ) < 10 ^ (e - 16) := by positivity
    have hscale : magnitude b * 10 ^ (16 - e) * 10 ^ (e - 16) = magnitude b := by
      rw [mul_assoc, ← zpow_add₀ (by norm_num), show 16 - e + (e - 16) = 0 by ring, zpow_zero,
        mul_one]
    have hlower' := mul_le_mul_of_nonneg_right hlower hunit.le
    have hupper' := mul_le_mul_of_nonneg_right hupper hunit.le
    have hdecade : (10 : ℚ) ^ e = 10 ^ 16 * 10 ^ (e - 16) := by
      rw [← zpow_natCast, ← zpow_add₀ (by norm_num)]
      congr 1
      push_cast
      ring
    push_cast at hle
    rw [hscale] at hlower' hupper'
    rw [abs_lt]
    constructor <;> linarith

theorem capped_magnitudeBits {v : Binary64} (hfin : v.Finite) :
    capped v.negative v.magnitudeBits = v := by
  refine ext_of_magnitude (negative_capped _ _) ?_
  rw [magnitudeBits_capped]
  exact Nat.min_eq_left hfin.le

theorem parseFloat_significant {v : Binary64} (hfin : v.Finite) {t : DecimalText}
    (hlen : t.chars.length < 50000) (hneg : t.negative = v.negative)
    (hmag : t.magnitude = units |v.value| (16 - exponentAfter |v.value| 16) *
      10 ^ (exponentAfter |v.value| 16 - 16)) : parseFloat (some t.chars) = some (v, []) := by
  have hv := rounds_of_significant v.magnitudeBits
  rw [← abs_value, ← hmag] at hv
  have hhalf : t.magnitude ≠ 2 ^ (-1075 : ℤ) := by
    intro heq
    rw [← mid_zero] at heq
    have hzero : Rounds 0 (mid 0) :=
      ⟨fun hne => absurd rfl hne, le_rfl, fun hne => absurd rfl hne, fun _ => Even.zero⟩
    rw [heq] at hv
    have hbits := hv.unique hzero
    rw [hmag, abs_value, hbits, magnitude_zero, units_zero, Nat.cast_zero, zero_mul, mid_zero] at heq
    exact absurd heq.symm (by positivity)
  obtain ⟨b, hb, hparse⟩ := parseFloat_rounds t hlen hhalf
  rw [hparse, hb.unique hv, hneg, capped_magnitudeBits hfin]

theorem formatFloatTo_whole {v : Binary64} (hfin : v.Finite) {type : Char}
    (htype : type ∈ ['e', 'E', 'f', 'F', 'g', 'G']) {precision : ℤ} {sign : Char} {alt : Bool}
    {capacity : ℕ}
    (hcapacity : (formatFloatTo capacity v type precision sign alt).2 ≤ capacity) :
    (formatFloatTo capacity v type precision sign alt).1 = text v type precision sign alt := by
  obtain ⟨hout, hlength, -⟩ := putAll_spec capacity (text v type precision sign alt)
  rw [formatFloatTo_written v hfin type htype] at hcapacity ⊢
  rw [hlength] at hcapacity
  rw [hout, take_of_length_le hcapacity]

theorem printed_length_le : (printed negative sign whole fraction alt exponent hwhole).chars.length ≤
    2 + whole.length + fraction.length + (exponentChars exponent).length := by
  rw [printed_chars]
  unfold signText layout
  simp only [length_append, length_map]
  have hsign : (if negative = true then ['-'] else
      if sign = '+' ∨ sign = ' ' then [sign] else []).length ≤ 1 := by
    split
    · simp
    · split <;> simp
  have hpoint : (if fraction = [] ∧ alt = false then [] else '.' :: fraction.map digitChar).length ≤
      fraction.length + 1 := by
    split <;> simp
  omega

theorem units_lt {x : ℚ} (hx : 0 ≤ x) (p : ℕ) : units x (p - exponentAfter x p) < 10 ^ (p + 1) := by
  rcases hx.eq_or_lt with rfl | hpos
  · rw [units_zero]
    positivity
  · obtain ⟨-, hhigh⟩ := units_bounds p hpos
    have hlt := Int.lt_zpow_succ_log_self (b := 10) (by norm_num) x
    unfold exponentAfter
    rw [if_neg hpos.ne']
    split
    · next hcarry =>
      rw [units_carry hx hlt hcarry]
      exact Nat.pow_lt_pow_right (by norm_num) (Nat.lt_succ_self p)
    · next hfit => exact lt_of_le_of_ne hhigh hfit

theorem exponentChars_length {X : ℤ} (hX : X.natAbs < 1000) (upper : Bool) :
    (exponentChars (some (printedExponent X upper))).length ≤ 5 := by
  have hlog : Nat.log 10 X.natAbs < 3 := Nat.log_lt_of_lt_pow' (by norm_num) (by omega)
  rw [exponentChars, printedExponent_chars, exponentText]
  simp only [length_cons, length_map, length_padded]
  omega

/-- The text of the scientific layout, stripped or not, is a decimal text of the
rounded value. -/
theorem scientific_printed {x : ℚ} (hx : 0 ≤ x) {p : ℕ} (hp : p ≤ 16)
    (hbound : (exponentAfter x p).natAbs < 1000) (negative : Bool) (sign : Char)
    (alt keep upper : Bool) : ∃ t : DecimalText, t.chars = signText negative sign ++
        (layout ((scientificDigits x p).take 1) (strip ((scientificDigits x p).drop 1) keep) alt ++
          exponentText (exponentAfter x p) upper) ∧ t.negative = negative ∧ t.chars.length < 50000 ∧
      t.magnitude = units x (p - exponentAfter x p) * 10 ^ (exponentAfter x p - p) := by
  have hD : (scientificDigits x p).length = p + 1 := length_padded _ _
  have hwhole : (scientificDigits x p).take 1 ≠ [] :=
    ne_nil_of_length_pos (by rw [length_take, hD]; omega)
  have hdrop : ((scientificDigits x p).drop 1).length = p := by
    rw [length_drop, hD]
    omega
  have hstrip : (strip ((scientificDigits x p).drop 1) keep).length ≤ p := by
    unfold strip
    split
    · exact hdrop.le
    · exact (List.rdropWhile_prefix _ _).length_le.trans hdrop.le
  refine ⟨printed negative sign _ (strip ((scientificDigits x p).drop 1) keep) alt
    (some (printedExponent (exponentAfter x p) upper)) hwhole, ?_, printed_negative, ?_, ?_⟩
  · rw [printed_chars, exponentChars, printedExponent_chars]
  · refine lt_of_le_of_lt printed_length_le ?_
    have := exponentChars_length hbound upper
    have htake : ((scientificDigits x p).take 1).length ≤ 1 := by simp
    omega
  · rw [printed_magnitude, strip_value, take_append_drop, hdrop, Option.map_some,
      Option.getD_some, printedExponent_value, scientificDigits,
      numeral_padded_of_lt (units_lt hx p)]

/-- The text of the fixed layout, stripped or not, is a decimal text of the
rounded value. -/
theorem fixed_printed {x : ℚ} {places : ℕ} (hplaces : places ≤ 100)
    (hU : units x places < 10 ^ 100) (negative : Bool) (sign : Char) (alt keep : Bool) :
    ∃ t : DecimalText, t.chars = signText negative sign ++
        layout (fixedWhole x places) (strip (fixedFraction x places) keep) alt ∧
      t.negative = negative ∧ t.chars.length < 50000 ∧
      t.magnitude = units x places * 10 ^ (-(places : ℤ)) := by
  have hwhole : fixedWhole x places ≠ [] :=
    ne_nil_of_length_pos (by rw [fixedWhole, natural, length_padded]; omega)
  have hlog : Nat.log 10 (units x places / 10 ^ places) < 100 :=
    Nat.log_lt_of_lt_pow' (by norm_num) ((Nat.div_le_self _ _).trans_lt hU)
  have hwholeLength : (fixedWhole x places).length ≤ 100 := by
    rw [fixedWhole, natural, length_padded]
    exact hlog
  have hlen : (fixedFraction x places).length = places := length_padded _ _
  have hstrip : (strip (fixedFraction x places) keep).length ≤ places := by
    unfold strip
    split
    · exact hlen.le
    · exact (List.rdropWhile_prefix _ _).length_le.trans hlen.le
  refine ⟨printed negative sign _ (strip (fixedFraction x places) keep) alt none hwhole, ?_,
    printed_negative, ?_, ?_⟩
  · rw [printed_chars, exponentChars, append_nil]
  · refine lt_of_le_of_lt printed_length_le ?_
    have hnone : (exponentChars none).length = 0 := rfl
    omega
  · rw [printed_magnitude, strip_value, hlen, Option.map_none, Option.getD_none, zero_sub,
      numeral_append, fixedWhole, fixedFraction, numeral_natural, numeral_padded, length_padded,
      Nat.div_add_mod']

theorem general_printed {x : ℚ} (hx : 0 ≤ x) (hbound : (exponentAfter x 16).natAbs < 1000)
    (negative : Bool) (sign : Char) (alt upper : Bool) :
    ∃ t : DecimalText, t.chars = signText negative sign ++ general x 17 alt upper ∧
      t.negative = negative ∧ t.chars.length < 50000 ∧
      t.magnitude = units x (16 - exponentAfter x 16) * 10 ^ (exponentAfter x 16 - 16) := by
  unfold general
  dsimp only
  have hU := units_lt hx 16
  split
  · next hfixed =>
    obtain ⟨places, hplaces⟩ : ∃ places : ℕ, 16 - exponentAfter x 16 = (places : ℤ) :=
      Int.eq_ofNat_of_zero_le (by push_cast at hfixed; omega)
    have htoNat : (((17 : ℕ) : ℤ) - 1 - exponentAfter x 16).toNat = places := by
      push_cast
      omega
    push_cast at hU
    rw [hplaces] at hU ⊢
    rw [htoNat, show exponentAfter x 16 - 16 = -(places : ℤ) by omega]
    exact fixed_printed (by push_cast at hfixed; omega) (hU.trans (by norm_num)) negative sign alt alt
  · exact scientific_printed hx le_rfl hbound negative sign alt alt upper

theorem exponentAfter_value_bound {v : Binary64} (hfin : v.Finite) (p : ℕ) :
    (exponentAfter |v.value| p).natAbs < 1000 := by
  obtain ⟨-, hm, hlow, hhigh, hvalue⟩ := magnitude_fields v hfin
  rw [hvalue]
  exact exponentAfter_bound hm hlow hhigh p

theorem text_scientific (v : Binary64) (sign : Char) (alt : Bool) :
    text v 'e' 16 sign alt = signText v.negative sign ++
      (layout ((scientificDigits |v.value| 16).take 1)
          (strip ((scientificDigits |v.value| 16).drop 1) true) alt ++
        exponentText (exponentAfter |v.value| 16) false) := by
  simp [text, scientific, strip]

theorem text_general (v : Binary64) (sign : Char) (alt : Bool) : text v 'g' 17 sign alt =
      signText v.negative sign ++ general |v.value| 17 alt false := by
  simp [text]

/-- The text of a double with seventeen significant digits, as `%e` or `%g`
writes it, is read back whole as the same double. -/
theorem parseFloat_formatFloatTo (v : Binary64) (hfin : v.Finite) (type : Char) (precision : ℤ)
    (hdigits : type = 'e' ∧ precision = 16 ∨ type = 'g' ∧ precision = 17) (sign : Char)
    (alt : Bool) (capacity : ℕ)
    (hcapacity : (formatFloatTo capacity v type precision sign alt).2 ≤ capacity) :
    NumberParse.parseFloat (some (formatFloatTo capacity v type precision sign alt).1) =
      some (v, []) := by
  have hbound := exponentAfter_value_bound hfin 16
  rcases hdigits with ⟨rfl, rfl⟩ | ⟨rfl, rfl⟩
  · obtain ⟨t, htext, hneg, hlen, hmag⟩ := scientific_printed (abs_nonneg v.value) le_rfl hbound
      v.negative sign alt true false
    rw [formatFloatTo_whole hfin (by decide) hcapacity]
    rw [text_scientific, ← htext]
    exact parseFloat_significant hfin hlen hneg hmag
  · obtain ⟨t, htext, hneg, hlen, hmag⟩ := general_printed (abs_nonneg v.value) hbound
      v.negative sign alt false
    rw [formatFloatTo_whole hfin (by decide) hcapacity]
    rw [text_general, ← htext]
    exact parseFloat_significant hfin hlen hneg hmag

/-- The smallest subnormal, negated. -/
theorem parseFloat_formatFloatTo_smallest : NumberParse.parseFloat
    (some (formatFloatTo 32 ⟨0x8000000000000001, by decide⟩ 'g' 17 ' ' false).1) =
      some (⟨0x8000000000000001, by decide⟩, []) :=
  parseFloat_formatFloatTo _ (by decide) 'g' 17 (.inr ⟨rfl, rfl⟩) ' ' false 32 (by decide +kernel)

end Equilibrium.FloatRoundTrip
