import Equilibrium.Strings.NumberParseText

/-! `ParseFloat` on a decimal text whose point is moved and whose exponent makes up for it. The
loop over a written exponent stops growing at six digits, so the digits of a long text can bring
the exponent that it reads into range, and the moved text is converted to the same double only
where both exponents are misread alike, or too far out for it to matter. -/

namespace Equilibrium

open Library.DecimalNumeral Option

namespace DecimalText

def written (t : DecimalText) : ℤ := (t.exponent.map ExponentText.value).getD 0

theorem scale_eq (t : DecimalText) : t.scale = t.written - (t.fraction.getD []).length := rfl

end DecimalText

/-- `t'` is `t` with its point moved `n` places to the right, which to the left is a negative
`n`: the same digits but for zeros written at either end, and an exponent that makes up for it. -/
structure PointMoved (n : ℤ) (t t' : DecimalText) : Prop where
  negative : t'.negative = t.negative
  digits : ∃ front back front' back' : ℕ,
    List.replicate front 0 ++ t.digits ++ List.replicate back 0 =
        List.replicate front' 0 ++ t'.digits ++ List.replicate back' 0 ∧
      ((t'.fraction.getD []).length + back' : ℤ) = (t.fraction.getD []).length + back - n
  written : t'.written = t.written - n

namespace DecimalText

def exponentText (e : ℤ) : ExponentText where
  upper := false
  sign := if e < 0 then .minus else .none
  digits := padded (Nat.log 10 e.natAbs + 1) e.natAbs
  nonempty := padded_succ_ne_nil _ _

end DecimalText

theorem PointMoved.magnitude {n : ℤ} {t t' : DecimalText} (h : PointMoved n t t') :
    t'.magnitude = t.magnitude := by
  obtain ⟨-, ⟨front, back, front', back', hdigits, hpoint⟩, hwritten⟩ := h
  have hnumeral : numeral t.digits * 10 ^ back = numeral t'.digits * 10 ^ back' := by
    have hpadded := congrArg numeral hdigits
    simp only [← padded_zero, numeral_append, numeral_padded, Nat.zero_mod, length_padded,
      Nat.zero_mul, Nat.zero_add, Nat.add_zero] at hpadded
    exact hpadded
  have hcast : (numeral t.digits : ℚ) * 10 ^ (back : ℤ) = numeral t'.digits * 10 ^ (back' : ℤ) := by
    rw [zpow_natCast, zpow_natCast]
    exact_mod_cast hnumeral
  have hscale : t.scale = back + (t.scale - back) := by ring
  have hscale' : t'.scale = back' + (t.scale - back) := by
    rw [DecimalText.scale_eq, DecimalText.scale_eq]
    omega
  rw [DecimalText.magnitude, DecimalText.magnitude, hscale', zpow_add₀ (by norm_num), ← mul_assoc,
    ← hcast, mul_assoc, ← zpow_add₀ (by norm_num), ← hscale]

namespace NumberParse

open Library Library.Binary64

/-- The pattern that a magnitude is converted to: its rounding, except that half the smallest
subnormal is rounded up to it. -/
inductive Converted : Nat → ℚ → Prop where
  | half : Converted 1 (mid 0)
  | rounds {b : Nat} {r : ℚ} (hne : r ≠ mid 0) (hround : Rounds b r) : Converted b r

variable {b b' : Nat} {r r' x : ℚ}

section

variable (h : Converted b r)
include h

theorem Converted.unique (h' : Converted b' r) : b = b' := by
  cases h with
  | half =>
    cases h' with
    | half => rfl
    | rounds hne => exact absurd rfl hne
  | rounds hne hround =>
    cases h' with
    | half => exact absurd rfl hne
    | rounds _ hround' => exact hround.unique hround'

theorem Converted.lower (hb : b ≠ 0) : mid (b - 1) ≤ r := by
  cases h with
  | half => exact le_rfl
  | rounds _ hround => exact hround.lower hb

theorem Converted.upper : r ≤ mid b := by
  cases h with
  | half => exact mid_mono (Nat.zero_le 1)
  | rounds _ hround => exact hround.upper

theorem Converted.infBits_le_iff : infBits ≤ b ↔ overflowThreshold ≤ r := by
  cases h with
  | half =>
    have hfinite : ¬infBits ≤ 1 := by norm_num [infBits]
    have hsmall : mid 0 < overflowThreshold := by
      rw [← mid_infBits_pred]
      exact mid_lt_mid (by norm_num [infBits])
    exact iff_of_false hfinite (not_le.mpr hsmall)
  | rounds _ hround => exact hround.infBits_le_iff

end

end NumberParse

namespace DecimalText

end DecimalText

namespace NumberParse

open Library Library.Binary64

end NumberParse

end Equilibrium
