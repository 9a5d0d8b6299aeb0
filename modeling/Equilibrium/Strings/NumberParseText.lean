import Equilibrium.Strings.NumberParseScan

/-! `ParseFloat` on decimal texts: the whole text is consumed, and the double is
the half-even rounding of the rational the text stands for. -/

namespace Equilibrium.NumberParse

open Library Library.Binary64 Library.DecimalNumeral Library.Rounding List Option
open DecimalText (digits exponentChars fractionChars number)

theorem number_head (t : DecimalText) :
    ∃ c p, t.number = c :: p ∧ (c = '.' ∨ ∃ d, c = digitChar d) := by
  have hne := t.nonempty
  unfold number
  cases hi : t.integer with
  | cons d ds => exact ⟨digitChar d, _, rfl, .inr ⟨d, rfl⟩⟩
  | nil =>
    cases hf : t.fraction with
    | some ds => exact ⟨'.', _, rfl, .inl rfl⟩
    | none =>
      rw [hi, hf] at hne
      exact absurd rfl hne

theorem not_space_of_head {c : Char} (h : c = '.' ∨ ∃ d, c = digitChar d) : isSpace c = false := by
  obtain rfl | ⟨d, rfl⟩ := h
  · decide
  · exact isSpace_digitChar d

theorem lower_of_head {c : Char} (h : c = '.' ∨ ∃ d, c = digitChar d) : lower c = c := by
  obtain rfl | ⟨d, rfl⟩ := h
  · decide
  · exact lower_digitChar d

theorem head_not_letter {c : Char} (h : c = '.' ∨ ∃ d, c = digitChar d) :
    c ≠ '+' ∧ c ≠ '-' ∧ c ≠ 'i' ∧ c ≠ 'n' := by
  obtain rfl | ⟨d, rfl⟩ := h
  · decide
  · revert d
    decide

theorem skipSign_of_head {c : Char} {p : List Char} (h1 : c ≠ '+') (h2 : c ≠ '-') :
    skipSign (c :: p) = (false, c :: p) := by
  unfold skipSign
  split
  · next heq => exact absurd (List.cons.inj heq).1 h1
  · next heq => exact absurd (List.cons.inj heq).1 h2
  · rfl

theorem skipSign_chars (sign : TextSign) {c : Char} {p : List Char} (h1 : c ≠ '+') (h2 : c ≠ '-') :
    skipSign (sign.chars ++ c :: p) = (sign.negative, c :: p) := by
  cases sign with
  | none => exact skipSign_of_head h1 h2
  | plus => rfl
  | minus => rfl

theorem skipSpaceAndSign_chars (t : DecimalText) :
    skipSpaceAndSign t.chars = (t.negative, t.number) := by
  obtain ⟨c, p, hnumber, hc⟩ := number_head t
  obtain ⟨hplus, hminus, -, -⟩ := head_not_letter hc
  have hdrop : t.chars.dropWhile isSpace = t.sign.chars ++ t.number := by
    rw [DecimalText.chars, dropWhile_append_of_pos t.blank]
    cases hs : t.sign with
    | none =>
      rw [hnumber, TextSign.chars, nil_append, dropWhile_cons_of_neg]
      simp [not_space_of_head hc]
    | plus => rfl
    | minus => rfl
  rw [skipSpaceAndSign, hdrop, hnumber]
  exact skipSign_chars t.sign hplus hminus

theorem matchWord_of_head {c w : Char} {p word : List Char} (h : lower c ≠ w) :
    matchWord (c :: p) (w :: word) = none := by
  rw [matchWord, if_neg h]

theorem parseFloat_chars (t : DecimalText) :
    parseFloat (some t.chars) = parseNumber t.negative t.number := by
  obtain ⟨c, p, hnumber, hc⟩ := number_head t
  obtain ⟨-, -, hi, hn⟩ := head_not_letter hc
  rw [← lower_of_head hc] at hi hn
  simp only [parseFloat, bind_some, skipSpaceAndSign_chars, hnumber,
    matchWord_of_head hi, matchWord_of_head hn]

theorem noDigit_exponentChars (e : Option ExponentText) : NoDigit (exponentChars e) := by
  cases e with
  | none => simp [NoDigit, exponentChars]
  | some e =>
    intro c hc
    simp only [exponentChars, ExponentText.chars, head?_cons,
      mem_some_iff] at hc
    rw [← hc]
    cases e.upper <;> decide

theorem noDigit_fractionChars (f : Option (List (Fin 10))) (e : Option ExponentText) :
    NoDigit (fractionChars f ++ exponentChars e) := by
  cases f with
  | none => exact noDigit_exponentChars e
  | some ds =>
    intro c hc
    simp only [fractionChars, cons_append, head?_cons,
      mem_some_iff] at hc
    rw [← hc]
    decide

theorem scanFraction_chars (f : Option (List (Fin 10))) (e : Option ExponentText) (s : Scan) :
    scanFraction (fractionChars f ++ exponentChars e) s =
      ((f.getD []).foldl (fun s (d : Fin 10) => fractionDigit s d) s,
        exponentChars e) := by
  cases f with
  | none =>
    cases e with
    | none => rfl
    | some e =>
      have hne : (if e.upper then 'E' else 'e') ≠ '.' := by cases e.upper <;> decide
      simp only [fractionChars, nil_append, exponentChars,
        ExponentText.chars, getD_none, foldl_nil]
      unfold scanFraction
      split
      · next heq => exact absurd (List.cons.inj heq).1 hne
      · rfl
  | some ds => exact scanDigits_map fractionDigit ds (noDigit_exponentChars e) s

def readExponent : Option ExponentText → ℤ
  | none => 0
  | some e =>
    if e.sign.negative then -(readMagnitude (numeral e.digits))
    else readMagnitude (numeral e.digits)

theorem scanExponent_chars (e : Option ExponentText) :
    scanExponent (exponentChars e) = (readExponent e, []) := by
  cases e with
  | none => rfl
  | some e =>
    obtain ⟨d, ds, hds⟩ := exists_cons_of_ne_nil e.nonempty
    obtain ⟨hplus, hminus, -, -⟩ := head_not_letter (.inr ⟨d, rfl⟩ : _ ∨ ∃ d', digitChar d = digitChar d')
    have hmarker : lower (if e.upper then 'E' else 'e') = 'e' := by cases e.upper <;> decide
    have hsign := @skipSign_chars e.sign (digitChar d) (ds.map digitChar) hplus hminus
    have hscan := @scanDigits_map Nat exponentDigit e.digits [] (by simp [NoDigit]) 0
    have hread := exponentDigits_read e.digits 0
    rw [Nat.zero_mul, Nat.zero_add, readMagnitude_of_lt (by norm_num)] at hread
    rw [hread, append_nil, hds, map_cons] at hscan
    simp only [exponentChars, ExponentText.chars, scanExponent, hmarker, if_true,
      hds, map_cons, hsign, isDigit_digitChar, hscan, readExponent]

theorem anyDigit_foldl {body : Scan → Nat → Scan} (hbody : ∀ s d, (body s d).anyDigit = true)
    (ds : List (Fin 10)) {s : Scan} (h : s.anyDigit = true ∨ ds ≠ []) :
    (ds.foldl (fun s (d : Fin 10) => body s d) s).anyDigit = true := by
  induction ds generalizing s with
  | nil => exact h.resolve_right (by simp)
  | cons d ds ih => exact ih (.inl (hbody s d))

theorem integerDigit_anyDigit (s : Scan) (d : Nat) : (integerDigit s d).anyDigit = true := by
  unfold integerDigit
  dsimp only
  split
  · rfl
  · split <;> rfl

theorem fractionDigit_anyDigit (s : Scan) (d : Nat) : (fractionDigit s d).anyDigit = true := by
  rw [fractionDigit_eq]
  exact integerDigit_anyDigit s d

theorem parseFloat_scanned (t : DecimalText) :
    ∃ s cut D, Scanned s (numeral t.digits) (t.fraction.getD []).length cut D ∧
      parseFloat (some t.chars) =
        some (convertScan t.negative s (s.exponent + readExponent t.exponent), []) := by
  obtain ⟨cut, D, hinteger⟩ := integerDigits_scanned t.integer scanned_start
  obtain ⟨cut', D', hfraction⟩ := fractionDigits_scanned (t.fraction.getD []) hinteger
  rw [Nat.zero_mul, Nat.zero_add, Nat.zero_add, ← numeral_append] at hfraction
  refine ⟨_, cut', D', hfraction, ?_⟩
  have hany : ((t.fraction.getD []).foldl (fun s (d : Fin 10) => fractionDigit s d)
      (t.integer.foldl (fun s (d : Fin 10) => integerDigit s d) Scan.start)).anyDigit = true := by
    refine anyDigit_foldl fractionDigit_anyDigit _ ?_
    by_cases hnil : t.integer = []
    · have hne := t.nonempty
      rw [hnil, nil_append] at hne
      exact .inr hne
    · exact .inl (anyDigit_foldl integerDigit_anyDigit _ (.inr hnil))
  rw [parseFloat_chars, parseNumber, number,
    scanDigits_map integerDigit t.integer (noDigit_fractionChars t.fraction t.exponent)]
  simp only [scanFraction_chars, scanExponent_chars, hany, Bool.not_true, Bool.false_eq_true,
    if_false]

theorem length_digits_le (t : DecimalText) : t.digits.length ≤ t.chars.length := by
  have hfraction : (t.fraction.getD []).length ≤ (fractionChars t.fraction).length := by
    cases t.fraction with
    | none => simp
    | some ds => simp [fractionChars]
  simp only [digits, DecimalText.chars, number, length_append,
    length_map]
  omega

section

variable {s : Scan} {cut D : Nat} {t : DecimalText}
  (h : Scanned s (numeral t.digits) (t.fraction.getD []).length cut D)
include h

theorem Scanned.abs_exponent_lt (hlen : t.chars.length < 50000) : |s.exponent| < 50000 := by
  have hdigits := length_digits_le t
  have hfraction : (t.fraction.getD []).length ≤ t.digits.length := by
    simp [digits]
  have hcut : cut ≤ t.digits.length := by
    by_cases hzero : cut = 0
    · omega
    · have hlt := (h.cut_lt hzero).trans_lt (numeral_lt t.digits)
      exact ((Nat.pow_lt_pow_iff_right (by norm_num)).mp hlt).le
  rw [h.exponent, abs_lt]
  omega

theorem Scanned.harmless (hlen : t.chars.length < 50000) :
    Harmless s (readExponent t.exponent) ((t.exponent.map ExponentText.value).getD 0) := by
  obtain ⟨hlow, hhigh⟩ := abs_lt.mp (h.abs_exponent_lt hlen)
  have hsig : s.significant ≤ 800 := h.significant_le
  unfold Harmless
  cases t.exponent with
  | none => exact .inl rfl
  | some e =>
    simp only [readExponent, map_some, getD_some, ExponentText.value]
    by_cases hsmall : numeral e.digits < 100000
    · rw [readMagnitude_of_lt (by omega)]
      exact .inl rfl
    · have hbounds := readMagnitude_bounds (not_lt.mp hsmall)
      split <;> omega

end

theorem parseFloat_rounds (t : DecimalText) (hlen : t.chars.length < 50000)
    (hhalf : t.magnitude ≠ 2 ^ (-1075 : ℤ)) :
    ∃ b, Rounds b t.magnitude ∧ parseFloat (some t.chars) = some (capped t.negative b, []) := by
  obtain ⟨s, cut, D, hscan, heq⟩ := parseFloat_scanned t
  obtain ⟨b, hb, hconvert⟩ := convertScan_rounds hscan (hscan.harmless hlen) t.negative hhalf
  rw [hconvert] at heq
  exact ⟨b, hb, heq⟩

theorem parseFloat_half (t : DecimalText) (hlen : t.chars.length < 50000)
    (hhalf : t.magnitude = 2 ^ (-1075 : ℤ)) :
    parseFloat (some t.chars) = some (capped t.negative 1, []) := by
  obtain ⟨s, cut, D, hscan, heq⟩ := parseFloat_scanned t
  rw [convertScan_half hscan (hscan.harmless hlen) t.negative hhalf] at heq
  exact heq

theorem hasSign_value (t : DecimalText) : HasSign t.negative t.value := by
  unfold HasSign DecimalText.value
  split
  · exact neg_nonpos.mpr t.magnitude_nonneg
  · exact t.magnitude_nonneg

theorem abs_value_capped (negative : Bool) (b : Nat) :
    |(capped negative b).value| = magnitude (min b infBits) := by
  rw [Binary64.abs_value, magnitudeBits_capped]

theorem half_rounds_to_zero : roundHalfEven ((2 : ℚ) ^ (-1075 : ℤ) / 2 ^ (-1074 : ℤ)) = 0 := by
  have hhalf : (2 : ℚ) ^ (-1075 : ℤ) / 2 ^ (-1074 : ℤ) = 1 / 2 := by
    rw [← zpow_sub₀ two_ne_zero]
    norm_num
  rw [hhalf]
  exact roundHalfEven_eq ⟨by norm_num, by norm_num, by norm_num, by norm_num⟩

/-- A text of a normal magnitude gives the nearest double, and infinity from the
rounding threshold of the largest double on. -/
theorem parseFloat_nearest (t : DecimalText) (hlen : t.chars.length < 50000)
    (hnormal : 2 ^ (-1022 : ℤ) ≤ |t.value|) :
    ∃ x : Binary64, parseFloat (some t.chars) = some (x, []) ∧ x.negative = t.negative ∧
      (|t.value| < overflowThreshold → Nearest t.value x) ∧
      (x.magnitudeBits = infBits ↔ overflowThreshold ≤ |t.value|) := by
  rw [t.abs_value] at hnormal ⊢
  have hhalf : t.magnitude ≠ 2 ^ (-1075 : ℤ) := by
    intro heq
    rw [heq, zpow_le_zpow_iff_right₀ (by norm_num)] at hnormal
    omega
  obtain ⟨b, hb, heq⟩ := parseFloat_rounds t hlen hhalf
  have hinf := hb.infBits_le_iff
  refine ⟨capped t.negative b, heq, negative_capped _ _, fun hlt => ?_, ?_⟩
  · have hfinite : b < infBits := by
      by_contra hge
      exact absurd (hinf.mp (not_lt.mp hge)) (not_le.mpr hlt)
    refine Rounds.toNearest ?_ ?_ (by rwa [t.abs_value])
    · rwa [magnitudeBits_capped, Nat.min_eq_left hfinite.le, t.abs_value]
    · rw [negative_capped]
      exact hasSign_value t
  · rw [magnitudeBits_capped, ← hinf]
    exact min_eq_right_iff

/-- `9007199254740993` lies halfway between two doubles. -/
def halfwayText : DecimalText where
  blanks := [' ']
  blank := by simp [isSpace]
  sign := .minus
  integer := padded 16 9007199254740993
  fraction := some []
  exponent := none
  nonempty := List.append_ne_nil_of_left_ne_nil (padded_succ_ne_nil 15 _) _

theorem parseFloat_nearest_halfway : ∃ x : Binary64,
    parseFloat (some halfwayText.chars) = some (x, []) ∧ x.negative = halfwayText.negative ∧
      (|halfwayText.value| < overflowThreshold → Nearest halfwayText.value x) ∧
      (x.magnitudeBits = infBits ↔ overflowThreshold ≤ |halfwayText.value|) := by
  refine parseFloat_nearest halfwayText (by decide) ?_
  have hmagnitude : halfwayText.magnitude = 9007199254740993 := by
    have hnumeral : numeral halfwayText.digits = 9007199254740993 := by decide
    rw [DecimalText.magnitude, hnumeral]
    simp [halfwayText, DecimalText.scale]
  rw [DecimalText.abs_value, hmagnitude]
  exact (zpow_le_one_of_nonpos₀ (by norm_num) (by norm_num)).trans (by norm_num)

/-- A text below the normal range gives the nearest multiple of the smallest
subnormal, ties to even, except that half of it is rounded up. -/
theorem parseFloat_subnormal_iff (t : DecimalText) (hlen : t.chars.length < 50000)
    (hsub : |t.value| < 2 ^ (-1022 : ℤ)) :
    (∃ x : Binary64, parseFloat (some t.chars) = some (x, []) ∧ x.negative = t.negative ∧
      |x.value| = roundHalfEven (|t.value| / 2 ^ (-1074 : ℤ)) * 2 ^ (-1074 : ℤ)) ↔
        |t.value| ≠ 2 ^ (-1075 : ℤ) := by
  rw [t.abs_value] at hsub ⊢
  constructor
  · rintro ⟨x, hx, -, hvalue⟩ hhalf
    rw [parseFloat_half t hlen hhalf] at hx
    obtain ⟨rfl, -⟩ := Prod.mk.inj (Option.some.inj hx)
    have hone : min 1 infBits = 1 := Nat.min_eq_left (by norm_num [infBits])
    rw [hhalf, half_rounds_to_zero, abs_value_capped, hone, magnitude_subnormal (by norm_num),
      Int.cast_zero, zero_mul, Nat.cast_one, one_mul] at hvalue
    exact absurd hvalue (by positivity)
  · intro hhalf
    obtain ⟨b, hb, heq⟩ := parseFloat_rounds t hlen hhalf
    obtain ⟨hle, hround⟩ := hb.isHalfEven_of_subnormal t.magnitude_nonneg hsub
    refine ⟨_, heq, negative_capped _ _, ?_⟩
    rw [abs_value_capped, Nat.min_eq_left (hle.trans (by norm_num [infBits])),
      magnitude_subnormal (hle.trans (by norm_num)), roundHalfEven_eq hround]
    push_cast
    rfl

/-- `5e-324`, which the smallest subnormal is printed as. -/
def smallestText : DecimalText where
  blanks := []
  blank := List.forall_mem_nil _
  sign := .none
  integer := padded 1 5
  fraction := none
  exponent := some ⟨false, .minus, padded 3 324, padded_succ_ne_nil _ _⟩
  nonempty := List.append_ne_nil_of_left_ne_nil (padded_succ_ne_nil 0 _) _

theorem smallestText_magnitude : smallestText.magnitude = 5 / 10 ^ 324 := by
  have hscale : smallestText.scale = -((324 : ℕ) : ℤ) := by decide
  have hnumeral : numeral smallestText.digits = 5 := by decide
  rw [DecimalText.magnitude, hscale, hnumeral, zpow_neg, zpow_natCast, ← div_eq_mul_inv]
  rfl

theorem parseFloat_subnormal_iff_smallest :
    (∃ x : Binary64, parseFloat (some smallestText.chars) = some (x, []) ∧
      x.negative = smallestText.negative ∧
      |x.value| = roundHalfEven (|smallestText.value| / 2 ^ (-1074 : ℤ)) * 2 ^ (-1074 : ℤ)) ↔
        |smallestText.value| ≠ 2 ^ (-1075 : ℤ) := by
  refine parseFloat_subnormal_iff smallestText (by decide) ?_
  have hnat : 5 * 2 ^ 1022 < 10 ^ 324 := by decide +kernel
  rw [DecimalText.abs_value, smallestText_magnitude, zpow_neg, lt_inv_comm₀ (by positivity)
    (by positivity), inv_div, lt_div_iff₀ (by positivity), mul_comm]
  exact_mod_cast hnat

def halfSubnormalText : DecimalText where
  blanks := []
  blank := List.forall_mem_nil _
  sign := .none
  integer := padded 752 (5 ^ 1075)
  fraction := none
  exponent := some ⟨false, .minus, padded 4 1075, padded_succ_ne_nil _ _⟩
  nonempty := List.append_ne_nil_of_left_ne_nil (padded_succ_ne_nil 751 _) _

theorem halfSubnormalText_magnitude : halfSubnormalText.magnitude = 2 ^ (-1075 : ℤ) := by
  obtain ⟨e, he⟩ : ∃ e : ℕ, e = 1075 := ⟨_, rfl⟩
  have hscale : halfSubnormalText.scale = -(e : ℤ) := by rw [he]; decide
  have hfit : 5 ^ 1075 < 10 ^ 752 := by decide +kernel
  have hnumeral : numeral halfSubnormalText.digits = 5 ^ e := by
    rw [digits, halfSubnormalText, getD_none, append_nil, he]
    exact numeral_padded_of_lt hfit
  rw [DecimalText.magnitude, hscale, hnumeral, show (-1075 : ℤ) = -(e : ℤ) by omega, zpow_neg,
    zpow_neg, zpow_natCast, zpow_natCast, show (10 : ℚ) = 5 * 2 by norm_num, mul_pow]
  push_cast
  field_simp

/-- Half the smallest subnormal ties to even, which is zero, but its text gives
the smallest subnormal. -/
theorem halfSubnormal_rounds_up : halfSubnormalText.value ≠ 0 ∧
    |halfSubnormalText.value| < 2 ^ (-1022 : ℤ) ∧
    parseFloat (some halfSubnormalText.chars) = some (capped false 1, []) ∧
    |(capped false 1).value| ≠
      roundHalfEven (|halfSubnormalText.value| / 2 ^ (-1074 : ℤ)) * 2 ^ (-1074 : ℤ) := by
  have hlen : halfSubnormalText.chars.length < 50000 := by
    simp [DecimalText.chars, number, halfSubnormalText, fractionChars,
      exponentChars, ExponentText.chars, TextSign.chars]
  have hmagnitude := halfSubnormalText_magnitude
  have hone : min 1 infBits = 1 := Nat.min_eq_left (by norm_num [infBits])
  rw [← abs_ne_zero, DecimalText.abs_value, hmagnitude, half_rounds_to_zero, abs_value_capped, hone,
    magnitude_subnormal (by norm_num), Int.cast_zero, zero_mul, Nat.cast_one, one_mul]
  refine ⟨by positivity, zpow_lt_zpow_right₀ (by norm_num) (by norm_num),
    parseFloat_half _ hlen hmagnitude, by positivity⟩

end Equilibrium.NumberParse
