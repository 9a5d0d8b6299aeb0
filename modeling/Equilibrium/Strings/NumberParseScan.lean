import Equilibrium.Library.DecimalNumeral
import Equilibrium.Strings.NumberParseDecimal

/-! Decimal floating point texts: blanks, a sign, the digits before and after
the point, and an exponent. `value` is the rational a text stands for. -/

namespace Equilibrium

open Library.DecimalNumeral

inductive TextSign where
  | none
  | plus
  | minus
  deriving DecidableEq

namespace TextSign

def chars : TextSign → List Char
  | none => []
  | plus => ['+']
  | minus => ['-']

def negative : TextSign → Bool
  | minus => true
  | _ => false

end TextSign

/-- The exponent of a text: its marker, its sign and at least one digit. -/
structure ExponentText where
  upper : Bool
  sign : TextSign
  digits : List (Fin 10)
  nonempty : digits ≠ []

namespace ExponentText

def chars (e : ExponentText) : List Char :=
  (if e.upper then 'E' else 'e') :: (e.sign.chars ++ e.digits.map digitChar)

def value (e : ExponentText) : ℤ :=
  if e.sign.negative then -(numeral e.digits) else numeral e.digits

end ExponentText

structure DecimalText where
  blanks : List Char
  blank : ∀ c ∈ blanks, NumberParse.isSpace c
  sign : TextSign
  integer : List (Fin 10)
  fraction : Option (List (Fin 10))
  exponent : Option ExponentText
  nonempty : integer ++ fraction.getD [] ≠ []

namespace DecimalText

def fractionChars : Option (List (Fin 10)) → List Char
  | none => []
  | some ds => '.' :: ds.map digitChar

def exponentChars : Option ExponentText → List Char
  | none => []
  | some e => e.chars

def number (t : DecimalText) : List Char :=
  t.integer.map digitChar ++ (fractionChars t.fraction ++ exponentChars t.exponent)

def chars (t : DecimalText) : List Char := t.blanks ++ (t.sign.chars ++ t.number)

def negative (t : DecimalText) : Bool := t.sign.negative

def digits (t : DecimalText) : List (Fin 10) := t.integer ++ t.fraction.getD []

def scale (t : DecimalText) : ℤ :=
  (t.exponent.map ExponentText.value).getD 0 - (t.fraction.getD []).length

def magnitude (t : DecimalText) : ℚ := numeral t.digits * 10 ^ t.scale

def value (t : DecimalText) : ℚ := if t.negative then -t.magnitude else t.magnitude

theorem magnitude_nonneg (t : DecimalText) : 0 ≤ t.magnitude := by
  unfold magnitude
  positivity

theorem abs_value (t : DecimalText) : |t.value| = t.magnitude := by
  unfold value
  split
  · rw [abs_neg, abs_of_nonneg t.magnitude_nonneg]
  · rw [abs_of_nonneg t.magnitude_nonneg]

end DecimalText

end Equilibrium

/-! The scanner of `ParseFloat`: what its loops have read of a decimal text. The
state after any digits stands for the number they write: the digits kept
exactly, the count of the digits cut, and the sticky bit for a nonzero one. -/

namespace Equilibrium.NumberParse

open Library Library.Binary64 Library.DecimalNumeral

theorem isDigit_digitChar (d : Fin 10) : isDigit (digitChar d) = true := by
  revert d
  decide

theorem digitOf_digitChar (d : Fin 10) : digitOf (digitChar d) = d := by
  revert d
  decide

theorem lower_digitChar (d : Fin 10) : lower (digitChar d) = digitChar d := by
  revert d
  decide

theorem isSpace_digitChar (d : Fin 10) : isSpace (digitChar d) = false := by
  revert d
  decide

def NoDigit (p : List Char) : Prop := ∀ c ∈ p.head?, isDigit c = false

theorem scanDigits_map {σ : Type} (body : σ → Nat → σ) (ds : List (Fin 10)) {rest : List Char}
    (hrest : NoDigit rest) (s : σ) : scanDigits body (ds.map digitChar ++ rest) s =
      (ds.foldl (fun s (d : Fin 10) => body s d) s, rest) := by
  induction ds generalizing s with
  | nil =>
    cases rest with
    | nil => rfl
    | cons c rest =>
      have hc : isDigit c = false := hrest c (by simp)
      simp [scanDigits, hc]
  | cons d ds ih =>
    rw [List.map_cons, List.cons_append, scanDigits, if_pos (isDigit_digitChar d), ih,
      digitOf_digitChar]
    rfl

/-- What the scan state says about a number written with the given count of
digits after the point. -/
structure Scanned (s : Scan) (N fraction cut D : Nat) : Prop where
  holds : s.digits.Holds D
  significant : s.significant = (Nat.digits 10 D).length
  exponent : s.exponent = cut - fraction
  lower : D * 10 ^ cut ≤ N
  upper : N < (D + 1) * 10 ^ cut
  sticky_iff : s.sticky = true ↔ N ≠ D * 10 ^ cut
  full : cut ≠ 0 → s.significant = kMaxSignificantDigits
  significant_le : s.significant ≤ kMaxSignificantDigits

theorem scanned_start : Scanned Scan.start 0 0 0 0 :=
  ⟨BigUInt.holds_zero, by simp [Scan.start], by simp [Scan.start], by simp, by simp,
    by simp [Scan.start], by simp, by simp [Scan.start]⟩

theorem kept_lt_capacity : 10 ^ kMaxSignificantDigits < BigUInt.capacity := by decide +kernel

section

variable {s : Scan} {N fraction cut D : Nat} (h : Scanned s N fraction cut D)
include h

theorem Scanned.digits_lt : D < 10 ^ s.significant := by
  rw [h.significant]
  exact Nat.lt_base_pow_length_digits (by norm_num)

theorem Scanned.digits_lt_max : D < 10 ^ kMaxSignificantDigits :=
  h.digits_lt.trans_le (Nat.pow_le_pow_right (by norm_num) h.significant_le)

theorem integerDigit_scanned (d : Fin 10) :
    ∃ cut' D', Scanned (integerDigit s d) (10 * N + d) fraction cut' D' := by
  have hD := h.digits_lt
  unfold integerDigit
  dsimp only
  split
  · next hzero =>
    obtain ⟨hz, hd⟩ := hzero
    have hD0 : D = 0 := h.holds.isZero_iff.mp hz
    have hcut : cut = 0 := by
      by_contra hne
      have := h.full hne
      rw [h.significant, hD0] at this
      norm_num [kMaxSignificantDigits] at this
    subst hcut hD0
    have hN : N = 0 := by have := h.upper; omega
    refine ⟨0, 0, { h with lower := by simp, upper := by omega, sticky_iff := ?_ }⟩
    have := h.sticky_iff
    simp only [hN, hd] at this ⊢
    exact this
  · next hzero =>
    split
    · next hroom =>
      have hcut : cut = 0 := by
        by_contra hne
        have := h.full hne
        omega
      subst hcut
      have hN : N = D := by have := h.upper; have := h.lower; omega
      have hpos : 0 < 10 * D + d := by
        by_contra hnone
        exact hzero ⟨h.holds.isZero_iff.mpr (by omega), by omega⟩
      have hlen : (Nat.digits 10 (10 * D + d)).length = (Nat.digits 10 D).length + 1 := by
        rw [Nat.digits_def' (by norm_num) hpos, List.length_cons,
          show (10 * D + (d : ℕ)) / 10 = D by omega]
      have hbound : D * 10 + d < BigUInt.capacity := by
        have hpow := Nat.pow_le_pow_right (show 0 < 10 by norm_num) (Nat.succ_le_of_lt hroom)
        have := kept_lt_capacity
        omega
      have hholds := h.holds.mulAddSmall (by norm_num) hbound
      rw [Nat.mul_comm D] at hholds
      refine ⟨0, 10 * D + d, ⟨hholds, ?_, h.exponent, by omega, by omega, ?_, by simp, hroom⟩⟩
      · rw [hlen, ← h.significant]
      · have := h.sticky_iff
        simpa using this
    · next hroom =>
      refine ⟨cut + 1, D, ⟨h.holds, h.significant, ?_, ?_, ?_, ?_, ?_, h.significant_le⟩⟩
      · rw [h.exponent]
        push_cast
        ring
      · have := h.lower
        rw [pow_succ, ← Nat.mul_assoc]
        omega
      · have := h.upper
        rw [pow_succ, ← Nat.mul_assoc]
        omega
      · rw [Bool.or_eq_true, h.sticky_iff, decide_eq_true_eq, pow_succ, ← Nat.mul_assoc]
        have := h.lower
        omega
      · intro _
        exact le_antisymm h.significant_le (not_lt.mp hroom)

end

theorem fractionDigit_eq (s : Scan) (d : Nat) :
    fractionDigit s d = { integerDigit s d with exponent := (integerDigit s d).exponent - 1 } := by
  unfold fractionDigit integerDigit
  dsimp only
  split
  · rfl
  · split
    · rfl
    · simp

theorem fractionDigit_scanned {s : Scan} {N fraction cut D : Nat}
    (h : Scanned s N fraction cut D) (d : Fin 10) :
    ∃ cut' D', Scanned (fractionDigit s d) (10 * N + d) (fraction + 1) cut' D' := by
  obtain ⟨cut', D', h'⟩ := integerDigit_scanned h d
  rw [fractionDigit_eq]
  refine ⟨cut', D', { h' with exponent := ?_ }⟩
  rw [h'.exponent]
  push_cast
  ring

theorem integerDigits_scanned (ds : List (Fin 10)) {s : Scan} {N fraction cut D : Nat}
    (h : Scanned s N fraction cut D) :
    ∃ cut' D', Scanned (ds.foldl (fun s (d : Fin 10) => integerDigit s d) s)
      (N * 10 ^ ds.length + numeral ds) fraction cut' D' := by
  induction ds generalizing s N cut D with
  | nil => exact ⟨cut, D, by simpa using h⟩
  | cons d ds ih =>
    obtain ⟨cut', D', h'⟩ := integerDigit_scanned h d
    rw [List.foldl_cons, numeral_step]
    exact ih h'

theorem fractionDigits_scanned (ds : List (Fin 10)) {s : Scan} {N fraction cut D : Nat}
    (h : Scanned s N fraction cut D) :
    ∃ cut' D', Scanned (ds.foldl (fun s (d : Fin 10) => fractionDigit s d) s)
      (N * 10 ^ ds.length + numeral ds) (fraction + ds.length) cut' D' := by
  induction ds generalizing s N cut D fraction with
  | nil => exact ⟨cut, D, by simpa using h⟩
  | cons d ds ih =>
    obtain ⟨cut', D', h'⟩ := fractionDigit_scanned h d
    rw [List.foldl_cons, numeral_step, List.length_cons, Nat.add_comm ds.length, ← Nat.add_assoc]
    exact ih h'

/-! The exponent loop. -/

/-- The exponent that the loop reads: the one written, cut to its first six digits. -/
def readMagnitude (written : Nat) : Nat :=
  if written < 1000000 then written else readMagnitude (written / 10)

theorem readMagnitude_of_lt {written : Nat} (h : written < 1000000) :
    readMagnitude written = written := by
  rw [readMagnitude, if_pos h]

theorem readMagnitude_bounds {written : Nat} (h : 100000 ≤ written) :
    100000 ≤ readMagnitude written ∧ readMagnitude written ≤ written := by
  induction written using Nat.strong_induction_on with
  | _ written ih =>
    by_cases hlt : written < 1000000
    · rw [readMagnitude_of_lt hlt]
      exact ⟨h, le_rfl⟩
    · have hnext := ih (written / 10) (by omega) (by omega)
      rw [readMagnitude, if_neg hlt]
      omega

theorem exponentDigit_readMagnitude (written : Nat) (d : Fin 10) :
    exponentDigit (readMagnitude written) d = readMagnitude (10 * written + d) := by
  have hd := d.isLt
  unfold exponentDigit
  by_cases hsmall : written < 100000
  · rw [readMagnitude_of_lt (by omega), if_pos hsmall, readMagnitude_of_lt (by omega)]
    omega
  · have hbounds := readMagnitude_bounds (not_lt.mp hsmall)
    have hdrop : (10 * written + (d : ℕ)) / 10 = written := by omega
    rw [if_neg (by omega), readMagnitude.eq_1 (10 * written + d), if_neg (by omega), hdrop]

theorem exponentDigits_read (ds : List (Fin 10)) (written : Nat) :
    ds.foldl (fun m (d : Fin 10) => exponentDigit m d) (readMagnitude written) =
      readMagnitude (written * 10 ^ ds.length + numeral ds) := by
  induction ds generalizing written with
  | nil => simp
  | cons d ds ih => rw [List.foldl_cons, numeral_step, exponentDigit_readMagnitude, ih]

/-! Conversion of a scanned number. -/

section Conversion

variable {s : Scan} {N fraction cut D : Nat} {read written : ℤ}

section

variable (h : Scanned s N fraction cut D)
include h

theorem Scanned.cut_lt (hcut : cut ≠ 0) : 10 ^ cut ≤ N := by
  have hD : D ≠ 0 := by
    intro hzero
    have := h.full hcut
    rw [h.significant, hzero] at this
    norm_num [kMaxSignificantDigits] at this
  exact (Nat.le_mul_of_pos_left _ (Nat.pos_of_ne_zero hD)).trans h.lower

theorem Scanned.le_digits (hD : 0 < D) : 10 ^ (s.significant - 1) ≤ D := by
  rw [h.significant, Nat.length_digits 10 D (by norm_num) hD.ne', Nat.add_sub_cancel]
  exact Nat.pow_log_le_self _ hD.ne'

theorem Scanned.significant_pos (hD : 0 < D) : 0 < s.significant := by
  rw [h.significant]
  exact List.length_pos_of_ne_nil (Nat.digits_ne_nil_iff_ne_zero.mpr hD.ne')

theorem Scanned.decade (hD : 0 < D) (T : ℤ) :
    (10 : ℚ) ^ (s.significant - 1 + s.exponent + T) ≤ N * 10 ^ (T - fraction) ∧
      (N : ℚ) * 10 ^ (T - fraction) < 10 ^ (s.significant + s.exponent + T) := by
  have hpos := h.significant_pos hD
  have hscale : (0 : ℚ) < 10 ^ (T - fraction) := by positivity
  constructor
  · have hle : 10 ^ (s.significant - 1 + cut) ≤ N := by
      rw [pow_add]
      exact (Nat.mul_le_mul_right _ (h.le_digits hD)).trans h.lower
    have hsplit : (s.significant : ℤ) - 1 + s.exponent + T =
        ((s.significant - 1 + cut : ℕ) : ℤ) + (T - fraction) := by
      rw [h.exponent]
      omega
    rw [hsplit, zpow_add₀ (by norm_num), zpow_natCast]
    exact mul_le_mul_of_nonneg_right (by exact_mod_cast hle) hscale.le
  · have hlt : N < 10 ^ (s.significant + cut) := by
      rw [pow_add]
      exact h.upper.trans_le (Nat.mul_le_mul_right _ h.digits_lt)
    have hsplit : (s.significant : ℤ) + s.exponent + T =
        ((s.significant + cut : ℕ) : ℤ) + (T - fraction) := by
      rw [h.exponent]
      omega
    rw [hsplit, zpow_add₀ (by norm_num), zpow_natCast]
    exact mul_lt_mul_of_pos_right (by exact_mod_cast hlt) hscale

theorem Scanned.scaled (T : ℤ) : Scaled D (s.exponent + T) s.sticky (N * 10 ^ (T - fraction)) := by
  have hscale : (0 : ℚ) < 10 ^ (T - fraction) := by positivity
  have hsplit : s.exponent + T = (cut : ℤ) + (T - fraction) := by
    rw [h.exponent]
    ring
  rw [hsplit]
  have hunit : (10 : ℚ) ^ ((cut : ℤ) + (T - fraction)) = 10 ^ cut * 10 ^ (T - fraction) := by
    rw [zpow_add₀ (by norm_num), zpow_natCast]
  refine ⟨?_, ?_, ?_⟩
  · rw [hunit, ← mul_assoc]
    exact mul_le_mul_of_nonneg_right (by exact_mod_cast h.lower) hscale.le
  · rw [hunit, ← mul_assoc]
    exact mul_lt_mul_of_pos_right (by exact_mod_cast h.upper) hscale
  · rw [h.sticky_iff, hunit, ← mul_assoc, not_iff_not, mul_left_inj' hscale.ne']
    exact_mod_cast Iff.rfl

end

theorem tiny_lt_mid_zero : (10 : ℚ) ^ (-401 : ℤ) < mid 0 := by
  have hnat : 2 ^ 1075 < 10 ^ 401 := by decide +kernel
  rw [mid_zero, zpow_neg, zpow_neg]
  refine inv_strictAnti₀ (by positivity) ?_
  exact_mod_cast hnat

theorem overflowThreshold_le_huge : overflowThreshold ≤ (10 : ℚ) ^ (350 : ℤ) := by
  have hnat : 2 ^ 53 * 2 ^ 971 ≤ 10 ^ 350 := by decide +kernel
  have hle : overflowThreshold ≤ 2 ^ 53 * 2 ^ 971 :=
    mul_le_mul_of_nonneg_right (by norm_num) (by positivity)
  exact hle.trans (by exact_mod_cast hnat)

/-- The exponent read gives what the one written does: it is the same, or both lie past the
same end of the range that is converted. -/
def Harmless (s : Scan) (read written : ℤ) : Prop :=
  read = written ∨ (350 < s.significant + (s.exponent + read) ∧ read ≤ written) ∨
    s.significant + (s.exponent + read) < -400 ∧ written ≤ read

theorem Scanned.zero (h : Scanned s N fraction cut 0) : N = 0 := by
  have hcut : cut = 0 := by
    by_contra hne
    have := h.full hne
    rw [h.significant] at this
    norm_num [kMaxSignificantDigits] at this
  have := h.upper
  rw [hcut] at this
  omega

section

variable (h : Scanned s N fraction cut D)
include h

theorem Scanned.full_of_sticky (hs : s.sticky = true) : s.significant = kMaxSignificantDigits := by
  refine h.full ?_
  rintro rfl
  have := h.sticky_iff.mp hs
  have := h.lower
  have := h.upper
  omega

theorem Scanned.not_sticky_of_whole (hle : s.significant + (s.exponent + read) ≤ 350)
    (hwhole : 0 ≤ s.exponent + read) : s.sticky = false := by
  rw [Bool.eq_false_iff]
  intro hs
  have := h.full_of_sticky hs
  norm_num [kMaxSignificantDigits] at this
  omega

theorem Scanned.le_of_sticky (hD : 0 < D) (hs : s.sticky = true) : 10 ^ 799 ≤ D := by
  have hle := h.le_digits hD
  rwa [h.full_of_sticky hs, show kMaxSignificantDigits - 1 = 799 from rfl] at hle

/-- The converted number is the half-even rounding of the number read. -/
theorem convertScan_rounds (hclamp : Harmless s read written) (negative : Bool)
    (hhalf : (N : ℚ) * 10 ^ (written - fraction) ≠ 2 ^ (-1075 : ℤ)) :
    ∃ b, Rounds b (N * 10 ^ (written - fraction)) ∧
      convertScan negative s (s.exponent + read) = capped negative b := by
  have hsig : s.significant ≤ 800 := h.significant_le
  unfold convertScan
  rcases Nat.eq_zero_or_pos D with rfl | hD
  · rw [if_pos (.inl (h.holds.isZero_iff.mpr rfl)), fromBits_signBit_zero, h.zero]
    refine ⟨0, rounds_zero_of_lt ?_, rfl⟩
    rw [mid_zero, Nat.cast_zero, zero_mul]
    positivity
  have hnonzero : ¬s.digits.isZero = true := by
    rw [h.holds.isZero_iff]
    omega
  obtain ⟨hdecade1, hdecade2⟩ := h.decade hD written
  by_cases htiny : s.significant + (s.exponent + read) < -400
  · rw [if_pos (.inr htiny), fromBits_signBit_zero]
    refine ⟨0, rounds_zero_of_lt (lt_trans ?_ tiny_lt_mid_zero), rfl⟩
    refine hdecade2.trans_le (zpow_le_zpow_right₀ (by norm_num) ?_)
    unfold Harmless at hclamp
    omega
  rw [if_neg (by rw [not_or]; exact ⟨hnonzero, htiny⟩)]
  by_cases hhuge : s.significant + (s.exponent + read) > 350
  · obtain ⟨b, hb⟩ := exists_rounds (show (0 : ℚ) ≤ N * 10 ^ (written - fraction) by positivity)
    have hinf : infBits ≤ b := by
      refine hb.infBits_le_iff.mpr (overflowThreshold_le_huge.trans (le_trans ?_ hdecade1))
      refine zpow_le_zpow_right₀ (by norm_num) ?_
      unfold Harmless at hclamp
      omega
    rw [if_pos hhuge, infinity, fromBits_infinity negative hinf]
    exact ⟨b, hb, rfl⟩
  rw [if_neg hhuge]
  have hread : read = written := by
    unfold Harmless at hclamp
    omega
  subst hread
  have hscaled := h.scaled read
  have hDlt := h.digits_lt
  by_cases hwhole : 0 ≤ s.exponent + read
  · have hsticky := h.not_sticky_of_whole (not_lt.mp hhuge) hwhole
    obtain ⟨power, hpower⟩ := Int.eq_ofNat_of_zero_le hwhole
    rw [hsticky, hpower] at hscaled ⊢
    have hvalue : (N : ℚ) * 10 ^ (read - fraction) = (D * 10 ^ power : ℕ) := by
      have := not_not.mp (fun hne => absurd (hscaled.sticky_iff.mpr hne) (by simp))
      rw [this, zpow_natCast]
      push_cast
      rfl
    rw [hvalue]
    refine decimalToDouble_whole h.holds hD ?_ negative
    have hpow : D * 10 ^ power < 10 ^ (s.significant + power) := by
      rw [pow_add]
      exact Nat.mul_lt_mul_of_pos_right hDlt (by positivity)
    have hle := Nat.pow_le_pow_right (show 0 < 10 by norm_num)
      (show s.significant + power ≤ kMaxSignificantDigits by norm_num [kMaxSignificantDigits]; omega)
    exact (hpow.trans_le hle).trans kept_lt_capacity
  · obtain ⟨power, hpower⟩ : ∃ power : ℕ, s.exponent + read = -(power : ℤ) :=
      ⟨(-(s.exponent + read)).toNat, by omega⟩
    rw [hpower] at hscaled ⊢
    exact decimalToDouble_fraction h.holds hD h.digits_lt_max (by omega) hscaled
      (fun hs => h.le_of_sticky hD hs) negative hhalf

/-- The one value the conversion gets wrong: half the smallest subnormal is
rounded up to it. -/
theorem convertScan_half (hclamp : Harmless s read written) (negative : Bool)
    (hhalf : (N : ℚ) * 10 ^ (written - fraction) = 2 ^ (-1075 : ℤ)) :
    convertScan negative s (s.exponent + read) = capped negative 1 := by
  have hsig : s.significant ≤ 800 := h.significant_le
  have hmid := mid_zero
  rw [← hhalf] at hmid
  unfold convertScan
  rcases Nat.eq_zero_or_pos D with rfl | hD
  · rw [h.zero, Nat.cast_zero, zero_mul] at hhalf
    exact absurd hhalf.symm (by positivity)
  have hnonzero : ¬s.digits.isZero = true := by
    rw [h.holds.isZero_iff]
    omega
  obtain ⟨hdecade1, hdecade2⟩ := h.decade hD written
  have htiny : ¬(s.significant + (s.exponent + read) : ℤ) < -400 := by
    intro htiny
    have hlt : mid 0 < 10 ^ (-401 : ℤ) := by
      rw [hmid]
      refine hdecade2.trans_le (zpow_le_zpow_right₀ (by norm_num) ?_)
      unfold Harmless at hclamp
      omega
    exact absurd (hlt.trans tiny_lt_mid_zero) (lt_irrefl _)
  have hlt1 : (10 : ℚ) ^ (s.significant - 1 + s.exponent + written : ℤ) < 10 ^ (0 : ℤ) := by
    refine hdecade1.trans_lt ?_
    rw [hhalf, zpow_zero]
    exact zpow_lt_one_of_neg₀ (by norm_num) (by norm_num)
  have hneg := (zpow_lt_zpow_iff_right₀ (by norm_num)).mp hlt1
  have hhuge : ¬(s.significant + (s.exponent + read) : ℤ) > 350 := by
    unfold Harmless at hclamp
    omega
  rw [if_neg (by rw [not_or]; exact ⟨hnonzero, htiny⟩), if_neg hhuge]
  have hread : read = written := by
    unfold Harmless at hclamp
    omega
  subst hread
  have hscaled := h.scaled read
  obtain ⟨power, hpower⟩ : ∃ power : ℕ, s.exponent + read = -(power : ℤ) := by
    have := h.significant_pos hD
    exact ⟨(-(s.exponent + read)).toNat, by omega⟩
  rw [hpower] at hscaled ⊢
  have hsticky : s.sticky = false := by
    rw [Bool.eq_false_iff]
    intro hs
    obtain ⟨hlower, hupper, hne⟩ := hscaled
    rw [zpow_neg, zpow_natCast, ← div_eq_mul_inv] at hlower hupper hne
    have hgt := lt_of_le_of_ne hlower (hne.mp hs).symm
    rcases no_mid_between (h.le_of_sticky hD hs) power 0 with h0 | h0 <;> linarith
  have hvalue := not_not.mp (fun hne => absurd (hscaled.sticky_iff.mpr hne) (by simp [hsticky]))
  rw [hhalf, zpow_neg (10 : ℚ), zpow_natCast, ← div_eq_mul_inv] at hvalue
  rw [hsticky]
  refine decimalToDouble_half h.holds hD h.digits_lt_max ?_ negative hvalue.symm
  have := h.significant_pos hD
  omega

end

end Conversion

end Equilibrium.NumberParse
