import Equilibrium.Strings.NumberParse

/-! `DecimalToDouble` scales by the power of ten exactly, or divides by it with
every remainder folded into the sticky bit. Digits past the cap change nothing,
because no midpoint of two doubles lies between two neighbouring decimals of
800 digits. -/

namespace Equilibrium.NumberParse

open Library Library.Binary64 Library.Rounding BigUInt

theorem kPow10_getD {power : Nat} (h : power ≤ 9) : kPow10.getD power 1 = 10 ^ power := by
  revert power
  decide

theorem mulTens_holds {power n : Nat} {x : BigUInt} (h : x.Holds n)
    (hlt : n * 10 ^ power < capacity) : (mulTens power x).Holds (n * 10 ^ power) := by
  induction power using Nat.strong_induction_on generalizing x n with
  | _ power ih =>
    by_cases hnine : 9 ≤ power
    · obtain ⟨rest, rfl⟩ := Nat.exists_eq_add_of_le' hnine
      have hsplit : n * 10 ^ (rest + 9) = n * 1000000000 * 10 ^ rest := by
        rw [pow_add]
        ring
      rw [hsplit] at hlt ⊢
      rw [mulTens]
      refine ih rest (by omega) (h.mulSmall (by norm_num) (lt_of_le_of_lt ?_ hlt)) hlt
      exact Nat.le_mul_of_pos_right _ (by positivity)
    · rw [mulTens]
      · split
        · rw [kPow10_getD (by omega)]
          exact h.mulSmall (by positivity) hlt
        · next hzero =>
          rw [not_not.mp hzero, pow_zero, Nat.mul_one]
          exact h
      · rintro rest rfl
        omega

theorem divTens_spec {power n : Nat} {x : BigUInt} {sticky : Bool} (h : x.Holds n) :
    (divTens power x sticky).1.Holds (n / 10 ^ power) ∧
      ((divTens power x sticky).2 = true ↔ sticky = true ∨ n % 10 ^ power ≠ 0) := by
  induction power using Nat.strong_induction_on generalizing x n sticky with
  | _ power ih =>
    by_cases hnine : 9 ≤ power
    · obtain ⟨rest, rfl⟩ := Nat.exists_eq_add_of_le' hnine
      rw [divTens, kPow10_getD le_rfl]
      obtain ⟨hquot, hrem⟩ := h.divModSmall (show 0 < 10 ^ 9 by positivity)
      obtain ⟨hholds, hsticky⟩ := @ih rest (by omega) _ _
        (sticky || (x.divModSmall (10 ^ 9)).2 ≠ 0) hquot
      have hpow : 10 ^ (rest + 9) = 10 ^ 9 * 10 ^ rest := by
        rw [pow_add]
        ring
      rw [hpow, ← Nat.div_div_eq_div_mul]
      refine ⟨hholds, ?_⟩
      rw [hsticky, Bool.or_eq_true, decide_eq_true_eq, hrem, or_assoc, Nat.mod_mul]
      refine or_congr_right ?_
      have hten : (0 : ℕ) < 10 ^ 9 := by positivity
      rw [← not_and_or, not_iff_not, Nat.add_eq_zero_iff, Nat.mul_eq_zero]
      simp
    · rw [divTens]
      · split
        · next hzero =>
          rw [hzero, pow_zero, Nat.div_one, Nat.mod_one]
          exact ⟨h, by simp⟩
        · rw [kPow10_getD (by omega)]
          obtain ⟨hquot, hrem⟩ := h.divModSmall (show 0 < 10 ^ power by positivity)
          refine ⟨hquot, ?_⟩
          rw [Bool.or_eq_true, decide_eq_true_eq, hrem]
      · rintro rest rfl
        omega

theorem toF64_near {n k : Nat} (h : n < 2 ^ (k + 53)) :
    n < toF64 n + 2 ^ k ∧ toF64 n ≤ n + 2 ^ k := by
  have hdrop : 2 ^ (n.log2 - 52) ≤ 2 ^ k := by
    refine Nat.pow_le_pow_right (by decide) ?_
    by_cases hzero : n = 0
    · simp [hzero]
    · have := (Nat.log2_lt hzero).mpr h
      omega
  have hdiv := Nat.div_add_mod' n (2 ^ (n.log2 - 52))
  have hmod := Nat.mod_lt n (Nat.two_pow_pos (n.log2 - 52))
  simp only [toF64]
  split
  · rw [Nat.add_mul, Nat.one_mul]
    omega
  · omega

theorem shiftFor_spec {power : Nat} (h : power ≤ 1200) :
    2 ^ 63 * 10 ^ power ≤ 2 ^ shiftFor power ∧ shiftFor power ≤ 4060 := by
  obtain ⟨hlow, hhigh⟩ := @toF64_near (power * log2Of10) 11 (by rw [log2Of10]; omega)
  rw [shiftFor]
  rw [log2Of10] at *
  generalize toF64 _ = product at *
  refine ⟨?_, by omega⟩
  -- `2136 / 643` is above the logarithm of ten, so close that no whole number is passed.
  have hten : 10 ^ power ≤ 2 ^ (product / 2 ^ 51 + 1) := by
    refine le_of_pow_le_pow_left₀ (by decide : 643 ≠ 0) (Nat.zero_le _) ?_
    rw [← pow_mul, ← pow_mul, Nat.mul_comm power, pow_mul]
    calc (10 ^ 643) ^ power ≤ (2 ^ 2136) ^ power := Nat.pow_le_pow_left (by decide +kernel) _
      _ = 2 ^ (2136 * power) := (pow_mul ..).symm
      _ ≤ _ := Nat.pow_le_pow_right (by decide) (by omega)
  calc 2 ^ 63 * 10 ^ power ≤ 2 ^ 63 * 2 ^ (product / 2 ^ 51 + 1) := Nat.mul_le_mul_left _ hten
    _ = 2 ^ (product / 2 ^ 51 + 64) := by rw [← pow_add, Nat.add_comm, Nat.add_assoc]

/-- The quotient and its sticky bit stand for every rational from the exact
decimal up to the next quotient, as long as the sticky bit tells it apart from
the decimal. -/
theorem stands_divTens {digits : BigUInt} {D power : Nat} {sticky : Bool} {r : ℚ}
    (h : digits.Holds D) (hpos : 0 < D) (hD : D < 10 ^ kMaxSignificantDigits) (hpower : power ≤ 1200)
    (hlow : (D : ℚ) / 10 ^ power ≤ r)
    (hhigh : r < ((D * 2 ^ shiftFor power / 10 ^ power : Nat) + 1 : ℚ) *
      2 ^ (-(shiftFor power : ℤ)))
    (hsticky : sticky = true ↔ r ≠ D / 10 ^ power) :
    Stands (divTens power (digits.shiftLeft (shiftFor power)) sticky).1 (-(shiftFor power : ℤ))
      (divTens power (digits.shiftLeft (shiftFor power)) sticky).2
      (D * 2 ^ shiftFor power / 10 ^ power) r := by
  obtain ⟨hwide, hcap⟩ := shiftFor_spec hpower
  generalize shiftFor power = shift at *
  have hfit : D * 2 ^ shift < capacity := by
    have hmax : 10 ^ kMaxSignificantDigits * 2 ^ 4060 < capacity := by decide +kernel
    exact (mul_pow_le_mul_pow (by norm_num) hD.le hcap).trans_lt hmax
  obtain ⟨hholds, hdropped⟩ := @divTens_spec power _ _ sticky (h.shiftLeft hfit)
  have hten : (0 : ℚ) < 10 ^ power := by positivity
  have hscale : (0 : ℚ) < 2 ^ shift := by positivity
  have hdecomp := Nat.div_add_mod' (D * 2 ^ shift) (10 ^ power)
  have h63 : 2 ^ 63 ≤ D * 2 ^ shift / 10 ^ power := by
    rw [Nat.le_div_iff_mul_le (by positivity)]
    exact hwide.trans (Nat.le_mul_of_pos_left _ hpos)
  generalize D * 2 ^ shift / 10 ^ power = M at *
  generalize hm : D * 2 ^ shift % 10 ^ power = m at *
  have hexact : (D : ℚ) / 10 ^ power - M * 2 ^ (-(shift : ℤ)) = m / (10 ^ power * 2 ^ shift) := by
    have hcast : (M : ℚ) * 10 ^ power + m = D * 2 ^ shift := by exact_mod_cast hdecomp
    rw [zpow_neg, zpow_natCast]
    field_simp
    linarith
  have hm0 : (0 : ℚ) ≤ m / (10 ^ power * 2 ^ shift) :=
    div_nonneg m.cast_nonneg (mul_pos hten hscale).le
  refine ⟨hholds, by omega, by linarith, hhigh, ?_, fun _ => h63⟩
  rw [hdropped, hsticky]
  constructor
  · intro hcase heq
    have hzero : (m : ℚ) / (10 ^ power * 2 ^ shift) = 0 := by linarith
    rcases hcase with hne | hne
    · exact hne (by linarith)
    · rw [div_eq_zero_iff] at hzero
      have hcast : (m : ℚ) = 0 := hzero.resolve_right (by positivity)
      exact hne (by exact_mod_cast hcast)
  · intro hne
    by_contra hnone
    push Not at hnone
    obtain ⟨heq, hzero⟩ := hnone
    rw [hzero] at hexact
    refine hne ?_
    rw [heq]
    simp only [Nat.cast_zero, zero_div] at hexact
    linarith

theorem lt_next_quotient (D power : Nat) : (D : ℚ) / 10 ^ power <
    ((D * 2 ^ shiftFor power / 10 ^ power : Nat) + 1 : ℚ) * 2 ^ (-(shiftFor power : ℤ)) := by
  have hten : (0 : ℚ) < 10 ^ power := by positivity
  have htwo : (0 : ℚ) < 2 ^ shiftFor power := by positivity
  rw [zpow_neg, zpow_natCast, ← div_eq_mul_inv, div_lt_div_iff₀ hten htwo]
  exact_mod_cast Nat.lt_mul_of_div_lt (Nat.lt_succ_self _) (by positivity)

/-- No midpoint of two doubles lies strictly between two neighbouring decimals
with a fraction and at least 800 digits. -/
theorem no_mid_between {D : Nat} (hD : 10 ^ 799 ≤ D) (power b : Nat) :
    mid b ≤ (D : ℚ) / 10 ^ power ∨ (D + 1 : ℚ) / 10 ^ power ≤ mid b := by
  obtain ⟨k, m, rfl, hk, hm⟩ := exists_binade b
  rw [mid_binade hk hm]
  have hten : (0 : ℚ) < 10 ^ power := by positivity
  rw [le_div_iff₀ hten, div_le_iff₀ hten]
  generalize hj : 2 * m + 1 = j
  by_cases hscale : 1075 ≤ k + power
  · -- The power of ten cancels the denominator, so the midpoint is a whole number of units.
    have hint : (j : ℚ) * 2 ^ ((k : ℤ) - 1075) * 10 ^ power =
        (j * 5 ^ power * 2 ^ (k + power - 1075) : Nat) := by
      have htwo : (2 : ℚ) ^ ((k : ℤ) - 1075) * 2 ^ power = 2 ^ (k + power - 1075) := by
        rw [← zpow_natCast (2 : ℚ) power, ← zpow_add₀ two_ne_zero, ← zpow_natCast]
        congr 1
        omega
      push_cast
      rw [show (10 : ℚ) = 2 * 5 by norm_num, mul_pow, ← htwo]
      ring
    rw [hint]
    have hcases : j * 5 ^ power * 2 ^ (k + power - 1075) ≤ D ∨
        D + 1 ≤ j * 5 ^ power * 2 ^ (k + power - 1075) := by omega
    rcases hcases with h | h
    · exact .inl (by exact_mod_cast h)
    · exact .inr (by exact_mod_cast h)
  · -- The midpoint is too small to lie above a decimal of that many digits.
    left
    have hpow : (2 : ℚ) ^ ((k : ℤ) - 1075) * 10 ^ power ≤ 5 ^ power := by
      have htwo : (2 : ℚ) ^ ((k : ℤ) - 1075) * 2 ^ power ≤ 1 := by
        rw [← zpow_natCast (2 : ℚ) power, ← zpow_add₀ two_ne_zero]
        exact zpow_le_one_of_nonpos₀ (by norm_num) (by omega)
      rw [show (10 : ℚ) = 2 * 5 by norm_num, mul_pow, ← mul_assoc]
      exact mul_le_of_le_one_left (by positivity) htwo
    have hj54 : j ≤ 2 ^ 54 := by omega
    have hnat : j * 5 ^ power ≤ D := by
      have hmax : 2 ^ 54 * 5 ^ 1074 ≤ 10 ^ 799 := by decide +kernel
      have hle : power ≤ 1074 := by omega
      exact (mul_pow_le_mul_pow (by norm_num) hj54 hle).trans (hmax.trans hD)
    rw [mul_assoc]
    refine (mul_le_mul_of_nonneg_left hpow (by positivity)).trans ?_
    exact_mod_cast hnat

/-- A rational that agrees with the scanned digits: equal to the decimal, or
strictly between it and the next one when nonzero digits were cut. -/
structure Scaled (D : Nat) (exponent : ℤ) (sticky : Bool) (r : ℚ) : Prop where
  lower : (D : ℚ) * 10 ^ exponent ≤ r
  upper : r < (D + 1 : ℚ) * 10 ^ exponent
  sticky_iff : sticky = true ↔ r ≠ D * 10 ^ exponent

variable {digits : BigUInt} {D : Nat} {sticky : Bool} {r : ℚ}

/-- The division rounds the scanned decimal, whatever the cut digits were. -/
theorem decimalToDouble_fraction {power : Nat} (h : digits.Holds D) (hpos : 0 < D)
    (hD : D < 10 ^ kMaxSignificantDigits) (hpower : 0 < power ∧ power ≤ 1200)
    (hr : Scaled D (-(power : ℤ)) sticky r) (hcut : sticky = true → 10 ^ 799 ≤ D) (negative : Bool)
    (hhalf : r ≠ 2 ^ (-1075 : ℤ)) :
    ∃ b, Rounds b r ∧ decimalToDouble digits (-(power : ℤ)) sticky negative = capped negative b := by
  obtain ⟨hlow, hhigh, hsticky⟩ := hr
  rw [zpow_neg, zpow_natCast, ← div_eq_mul_inv] at hlow hhigh hsticky
  unfold decimalToDouble
  rw [if_neg (by rw [h.isZero_iff]; omega), if_neg (by omega), neg_neg, Int.toNat_natCast]
  have hquot := lt_next_quotient D power
  by_cases hs : sticky = true
  · -- Any rational strictly between stands for the cut digits.
    obtain ⟨r', hlow', hhigh'⟩ := exists_between (lt_min hquot (div_lt_div_of_pos_right
      (lt_add_one (D : ℚ)) (by positivity)))
    obtain ⟨hquot', hnext'⟩ := lt_min_iff.mp hhigh'
    have hlow'' : (D : ℚ) / 10 ^ power < r := lt_of_le_of_ne hlow (hsticky.mp hs).symm
    have hno := no_mid_between (hcut hs) power
    have hhalf' : r' ≠ 2 ^ (-1075 : ℤ) := by
      rw [← mid_zero]
      rintro rfl
      rcases hno 0 with h0 | h0 <;> linarith
    have hstands := @stands_divTens digits D power sticky r' h hpos hD hpower.2 hlow'.le hquot'
      ⟨fun _ => hlow'.ne', fun _ => hs⟩
    obtain ⟨b, hb, heq⟩ := hstands.assembled negative hhalf'
    refine ⟨b, hb.of_no_mid fun c => ?_, heq⟩
    rcases hno c with hc | hc
    · exact .inl (lt_min (by linarith) (by linarith))
    · exact .inr (max_lt (by linarith) (by linarith))
  · have heq : r = D / 10 ^ power := not_not.mp fun hne => hs (hsticky.mpr hne)
    have hstands := @stands_divTens digits D power sticky r h hpos hD hpower.2 hlow
      (by rwa [heq]) hsticky
    exact hstands.assembled negative hhalf

theorem decimalToDouble_whole {power : Nat} (h : digits.Holds D) (hpos : 0 < D)
    (hfit : D * 10 ^ power < capacity) (negative : Bool) : ∃ b, Rounds b (D * 10 ^ power : Nat) ∧
      decimalToDouble digits power false negative = capped negative b := by
  unfold decimalToDouble
  rw [if_neg (by rw [h.isZero_iff]; omega), if_pos (by omega), Int.toNat_natCast]
  have hstands : Stands (mulTens power digits) 0 false (D * 10 ^ power) (D * 10 ^ power : Nat) :=
    ⟨mulTens_holds h hfit, by positivity, by simp, by simp, by simp, by simp⟩
  refine hstands.assembled negative fun heq => ?_
  have hone : (1 : ℚ) ≤ (D * 10 ^ power : Nat) := by
    have : 1 ≤ D * 10 ^ power := Nat.succ_le_of_lt (by positivity)
    exact_mod_cast this
  have hlt : (2 : ℚ) ^ (-1075 : ℤ) < 1 := zpow_lt_one_of_neg₀ (by norm_num) (by norm_num)
  linarith

theorem decimalToDouble_half {power : Nat} (h : digits.Holds D) (hpos : 0 < D)
    (hD : D < 10 ^ kMaxSignificantDigits) (hpower : 0 < power ∧ power ≤ 1200) (negative : Bool)
    (hhalf : (D : ℚ) / 10 ^ power = 2 ^ (-1075 : ℤ)) :
    decimalToDouble digits (-(power : ℤ)) false negative = capped negative 1 := by
  have hshift : 1075 < shiftFor power := by
    obtain ⟨hwide, -⟩ := shiftFor_spec hpower.2
    obtain ⟨e, he⟩ : ∃ e : ℕ, e = 1075 := ⟨_, rfl⟩
    rw [show (-1075 : ℤ) = -(e : ℤ) by omega, zpow_neg, zpow_natCast, div_eq_iff (by positivity),
      ← div_eq_inv_mul, eq_div_iff (by positivity)] at hhalf
    have hnat : D * 2 ^ e = 10 ^ power := by exact_mod_cast hhalf
    have hlt : 2 ^ e < 2 ^ shiftFor power :=
      calc 2 ^ e ≤ D * 2 ^ e := Nat.le_mul_of_pos_left _ hpos
        _ = 10 ^ power := hnat
        _ < 2 ^ 63 * 10 ^ power := (Nat.lt_mul_iff_one_lt_left (by positivity)).mpr (by norm_num)
        _ ≤ 2 ^ shiftFor power := hwide
    rw [← he]
    exact (Nat.pow_lt_pow_iff_right (by norm_num)).mp hlt
  have hquot := lt_next_quotient D power
  unfold decimalToDouble
  rw [if_neg (by rw [h.isZero_iff]; omega), if_neg (by omega), neg_neg, Int.toNat_natCast]
  have hstands := @stands_divTens digits D power false _ h hpos hD hpower.2 le_rfl hquot (by simp)
  exact hstands.assembled_half negative hhalf (by omega)

end Equilibrium.NumberParse
