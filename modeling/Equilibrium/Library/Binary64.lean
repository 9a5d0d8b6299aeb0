import Equilibrium.Library.Rounding
import Mathlib.Data.Rat.Floor
import Mathlib.Data.Int.Log
import Mathlib.Algebra.Order.Field.Power
import Mathlib.Tactic.Positivity

/-! The binary64 format as its 64-bit patterns. A pattern without its sign bit
is a natural number; the magnitudes of consecutive patterns are consecutive
doubles, and the pattern past the largest finite one stands for `2 ^ 1024`.
`Rounds` says by the midpoints around a pattern that it is the half-even
rounding of a non-negative rational. -/

namespace Equilibrium.Library

open Rounding

structure Binary64 where
  bits : Nat
  lt : bits < 2 ^ 64
  deriving DecidableEq

namespace Binary64

def magnitudeBits (x : Binary64) : Nat := x.bits % 2 ^ 63

def negative (x : Binary64) : Bool := 2 ^ 63 ≤ x.bits

def infBits : Nat := 0x7FF * 2 ^ 52

/-- The mantissa of a pattern: the fraction, with the implicit bit when the exponent field is not zero. -/
def significand (b : Nat) : Nat := if b / 2 ^ 52 = 0 then b else 2 ^ 52 + b % 2 ^ 52

def scale (b : Nat) : ℤ := max ((b / 2 ^ 52 : Nat) : ℤ) 1 - 1075

def magnitude (b : Nat) : ℚ := significand b * 2 ^ scale b

def Finite (x : Binary64) : Prop := x.magnitudeBits < infBits

instance (x : Binary64) : Decidable x.Finite := inferInstanceAs (Decidable (_ < _))

def value (x : Binary64) : ℚ :=
  if x.negative then -magnitude x.magnitudeBits else magnitude x.magnitudeBits

def ofMagnitude (negative : Bool) (b : Nat) (h : b < 2 ^ 63) : Binary64 :=
  ⟨(if negative then 2 ^ 63 else 0) + b, by split <;> omega⟩

variable {b : Nat}

@[simp] theorem magnitudeBits_ofMagnitude (negative : Bool) (h : b < 2 ^ 63) :
    (ofMagnitude negative b h).magnitudeBits = b := by
  simp only [magnitudeBits, ofMagnitude]
  split <;> omega

@[simp] theorem negative_ofMagnitude (negative : Bool) (h : b < 2 ^ 63) :
    (ofMagnitude negative b h).negative = negative := by
  cases negative <;> simp [Binary64.negative, ofMagnitude]
  omega

/-- The double with the given sign and rounded magnitude, past the largest
finite one infinity. -/
def capped (negative : Bool) (b : Nat) : Binary64 :=
  ofMagnitude negative (min b infBits) (lt_of_le_of_lt (min_le_right _ _) (by norm_num [infBits]))

@[simp] theorem magnitudeBits_capped (negative : Bool) (b : Nat) :
    (capped negative b).magnitudeBits = min b infBits := magnitudeBits_ofMagnitude _ _

@[simp] theorem negative_capped (negative : Bool) (b : Nat) :
    (capped negative b).negative = negative := negative_ofMagnitude _ _

variable {x : Binary64}

theorem ext_of_magnitude {y : Binary64} (hs : x.negative = y.negative)
    (hb : x.magnitudeBits = y.magnitudeBits) : x = y := by
  obtain ⟨a, ha⟩ := x
  obtain ⟨b, hb'⟩ := y
  simp only [negative, magnitudeBits, decide_eq_decide] at hs hb
  congr 1
  omega

theorem even_bits_iff (x : Binary64) : x.bits % 2 = 0 ↔ Even x.magnitudeBits := by
  rw [Nat.even_iff, magnitudeBits]
  omega

theorem exists_binade (b : Nat) :
    ∃ k m, b = k * 2 ^ 52 + m ∧ (k = 0 ∨ 2 ^ 52 ≤ m) ∧ m < 2 ^ 53 := by
  by_cases h : b / 2 ^ 52 = 0
  · exact ⟨0, b, by omega, .inl rfl, by omega⟩
  · exact ⟨b / 2 ^ 52 - 1, 2 ^ 52 + b % 2 ^ 52, by omega, .inr (by omega), by omega⟩

variable {k m : Nat}

theorem magnitude_binade (hk : k = 0 ∨ 2 ^ 52 ≤ m) (hm : m ≤ 2 ^ 53) :
    magnitude (k * 2 ^ 52 + m) = m * (2 : ℚ) ^ ((k : ℤ) - 1074) := by
  unfold magnitude significand scale
  obtain h | h | h : m < 2 ^ 52 ∨ (2 ^ 52 ≤ m ∧ m < 2 ^ 53) ∨ m = 2 ^ 53 := by omega
  · have hk0 : k = 0 := by omega
    subst hk0
    have hdiv : (0 * 2 ^ 52 + m) / 2 ^ 52 = 0 := by omega
    rw [if_pos hdiv, hdiv]
    norm_num
  · have hdiv : (k * 2 ^ 52 + m) / 2 ^ 52 = k + 1 := by omega
    have hmod : 2 ^ 52 + (k * 2 ^ 52 + m) % 2 ^ 52 = m := by omega
    rw [if_neg (by omega), hdiv, hmod]
    congr 2
    push_cast
    omega
  · have hdiv : (k * 2 ^ 52 + m) / 2 ^ 52 = k + 2 := by omega
    have hmod : 2 ^ 52 + (k * 2 ^ 52 + m) % 2 ^ 52 = 2 ^ 52 := by omega
    have hscale : max ((k + 2 : Nat) : ℤ) 1 - 1075 = ((k : ℤ) - 1074) + 1 := by
      push_cast
      omega
    rw [if_neg (by omega), hdiv, hmod, hscale, h, zpow_add_one₀ (by norm_num)]
    push_cast
    ring

def ulp (b : Nat) : ℚ := magnitude (b + 1) - magnitude b

theorem ulp_binade (hk : k = 0 ∨ 2 ^ 52 ≤ m) (hm : m < 2 ^ 53) :
    ulp (k * 2 ^ 52 + m) = (2 : ℚ) ^ ((k : ℤ) - 1074) := by
  rw [ulp, Nat.add_assoc, magnitude_binade (by omega) (by omega), magnitude_binade hk (by omega)]
  push_cast
  ring

theorem ulp_pos (b : Nat) : 0 < ulp b := by
  obtain ⟨k, m, rfl, hk, hm⟩ := exists_binade b
  rw [ulp_binade hk hm]
  positivity

theorem magnitude_strictMono : StrictMono magnitude :=
  strictMono_nat_of_lt_succ fun b => by
    have := ulp_pos b
    unfold ulp at this
    linarith

@[simp] theorem magnitude_zero : magnitude 0 = 0 := by simp [magnitude, significand]

theorem magnitude_nonneg (b : Nat) : 0 ≤ magnitude b := by
  unfold magnitude
  positivity

theorem abs_value (v : Binary64) : |v.value| = magnitude v.magnitudeBits := by
  have hnonneg := magnitude_nonneg v.magnitudeBits
  unfold value
  split
  · rw [abs_neg, abs_of_nonneg hnonneg]
  · exact abs_of_nonneg hnonneg

theorem magnitude_succ_le_ulp (b : Nat) : magnitude (b + 1) ≤ 2 ^ 53 * ulp b := by
  obtain ⟨k, m, rfl, hk, hm⟩ := exists_binade b
  rw [ulp_binade hk hm, Nat.add_assoc, magnitude_binade (by omega) (by omega)]
  have hle : ((m + 1 : Nat) : ℚ) ≤ 2 ^ 53 := by exact_mod_cast hm
  exact mul_le_mul_of_nonneg_right hle (by positivity)

def mid (b : Nat) : ℚ := (magnitude b + magnitude (b + 1)) / 2

theorem mid_eq (b : Nat) : mid b = magnitude b + ulp b / 2 := by
  unfold mid ulp
  ring

theorem mid_pred (hb : b ≠ 0) : mid (b - 1) = magnitude b - ulp (b - 1) / 2 := by
  rw [mid_eq, ulp, show b - 1 + 1 = b by omega]
  ring

variable {a : Nat}

theorem mid_mono (h : a ≤ b) : mid a ≤ mid b := by
  have h1 := magnitude_strictMono.monotone h
  have h2 := magnitude_strictMono.monotone (Nat.add_le_add_right h 1)
  unfold mid
  linarith

theorem mid_lt_mid (h : a < b) : mid a < mid b := by
  have h1 := magnitude_strictMono h
  have h2 := magnitude_strictMono (Nat.add_lt_add_right h 1)
  unfold mid
  linarith

theorem mid_binade (hk : k = 0 ∨ 2 ^ 52 ≤ m) (hm : m < 2 ^ 53) :
    mid (k * 2 ^ 52 + m) = (2 * m + 1 : Nat) * (2 : ℚ) ^ ((k : ℤ) - 1075) := by
  have hpow : (2 : ℚ) ^ ((k : ℤ) - 1074) = 2 * 2 ^ ((k : ℤ) - 1075) := by
    rw [show (k : ℤ) - 1074 = ((k : ℤ) - 1075) + 1 by ring, zpow_add_one₀ (by norm_num)]
    ring
  rw [mid_eq, ulp_binade hk hm, magnitude_binade hk (by omega), hpow]
  push_cast
  ring

theorem mid_zero : mid 0 = 2 ^ (-1075 : ℤ) := by
  have := @mid_binade 0 0 (.inl rfl) (by norm_num)
  simpa using this

/-- `b` is the half-even rounding of `r ≥ 0` with an unbounded exponent. -/
structure Rounds (b : Nat) (r : ℚ) : Prop where
  lower : b ≠ 0 → mid (b - 1) ≤ r
  upper : r ≤ mid b
  even_lower : b ≠ 0 → r = mid (b - 1) → Even b
  even_upper : r = mid b → Even b

variable {r : ℚ}

/-- Rounding the argument, measured in units of its binade, to an integer. -/
theorem rounds_of_isHalfEven (hm : m ≤ 2 ^ 53)
    (hround : IsHalfEven (m : ℤ) (r / 2 ^ ((k : ℤ) - 1074)))
    (hlow : k = 0 ∨ 2 ^ 52 ≤ r / 2 ^ ((k : ℤ) - 1074)) (hhigh : r / 2 ^ ((k : ℤ) - 1074) < 2 ^ 53) :
    Rounds (k * 2 ^ 52 + m) r := by
  have hu : (0 : ℚ) < 2 ^ ((k : ℤ) - 1074) := by positivity
  generalize hunit : (2 : ℚ) ^ ((k : ℤ) - 1074) = u at hround hlow hhigh hu
  generalize hy : r / u = y at hround hlow hhigh
  have hr : r = y * u := by
    rw [← hy]
    field_simp
  have hk : k = 0 ∨ 2 ^ 52 ≤ m :=
    hlow.imp_right fun hge => hround.natCast_le (by push_cast; exact hge)
  have hup := hround.upper
  have hlo := hround.lower
  push_cast at hup hlo
  have heven : Even (k * 2 ^ 52 + m) ↔ Even (m : ℤ) := by
    rw [Nat.even_iff, Int.even_iff]
    omega
  have hmid : m < 2 ^ 53 → mid (k * 2 ^ 52 + m) = (m + 1 / 2) * u := by
    intro hlt
    rw [mid_eq, ulp_binade hk hlt, magnitude_binade hk hm, hunit]
    ring
  have hbelow : k * 2 ^ 52 + m ≠ 0 → mid (k * 2 ^ 52 + m - 1) ≤ r ∧
      (r = mid (k * 2 ^ 52 + m - 1) → y = m - 1 / 2) := by
    intro hne
    by_cases hcarry : k ≠ 0 ∧ m = 2 ^ 52
    · -- The pattern below lies in the previous binade, so its midpoint is nearer than half a unit.
      obtain ⟨hk0, hm52⟩ := hcarry
      have hlt : mid (k * 2 ^ 52 + m - 1) < magnitude (k * 2 ^ 52 + m) := by
        rw [mid_pred hne]
        exact sub_lt_self _ (half_pos (ulp_pos _))
      have hle : magnitude (k * 2 ^ 52 + m) ≤ r := by
        rw [magnitude_binade hk hm, hunit, hr, hm52]
        refine mul_le_mul_of_nonneg_right ?_ hu.le
        have := hlow.resolve_left hk0
        push_cast
        exact this
      exact ⟨by linarith, fun h => by linarith⟩
    · have hbelow : mid (k * 2 ^ 52 + m - 1) = (m - 1 / 2) * u := by
        have hm0 : m ≠ 0 := by omega
        rw [show k * 2 ^ 52 + m - 1 = k * 2 ^ 52 + (m - 1) by omega, mid_eq,
          ulp_binade (by omega) (by omega), magnitude_binade (by omega) (by omega), hunit]
        have : ((m - 1 : Nat) : ℚ) = m - 1 := by
          rw [Nat.cast_sub (by omega)]
          norm_num
        rw [this]
        ring
      rw [hbelow, hr]
      exact ⟨mul_le_mul_of_nonneg_right (by linarith) hu.le,
        fun h => mul_right_cancel₀ hu.ne' h⟩
  refine ⟨fun hne => (hbelow hne).1, ?_, fun hne h => ?_, fun h => ?_⟩
  · by_cases hlt : m < 2 ^ 53
    · rw [hmid hlt, hr]
      exact mul_le_mul_of_nonneg_right (by linarith) hu.le
    · have hm53 : m = 2 ^ 53 := by omega
      have hpos := ulp_pos (k * 2 ^ 52 + m)
      have hlt' := mul_lt_mul_of_pos_right hhigh hu
      have hcast : (m : ℚ) = 2 ^ 53 := by exact_mod_cast hm53
      rw [mid_eq, magnitude_binade hk hm, hunit, hr, hcast]
      exact (hlt'.trans (lt_add_of_pos_right _ (half_pos hpos))).le
  · exact heven.mpr (hround.even_lower (by push_cast; exact (hbelow hne).2 h))
  · by_cases hlt : m < 2 ^ 53
    · refine heven.mpr (hround.even_upper ?_)
      rw [hmid hlt, hr] at h
      push_cast
      exact mul_right_cancel₀ hu.ne' h
    · rw [heven, Int.even_iff]
      omega

theorem exists_rounds (h : 0 ≤ r) : ∃ b, Rounds b r := by
  obtain ⟨k, hlow, hhigh⟩ : ∃ k : ℕ, (k = 0 ∨ (2 : ℚ) ^ 52 ≤ r / 2 ^ ((k : ℤ) - 1074)) ∧
      r / 2 ^ ((k : ℤ) - 1074) < 2 ^ 53 := by
    by_cases hsub : r < 2 ^ (-1021 : ℤ)
    · refine ⟨0, .inl rfl, ?_⟩
      rw [div_lt_iff₀ (by positivity), ← zpow_natCast, ← zpow_add₀ two_ne_zero]
      exact hsub
    · have hpos : 0 < r := lt_of_lt_of_le (by positivity) (not_lt.mp hsub)
      have hlog1 := Int.zpow_log_le_self one_lt_two hpos
      have hlog2 := Int.lt_zpow_succ_log_self (b := 2) one_lt_two r
      push_cast at hlog1 hlog2
      have hge : (-1021 : ℤ) < Int.log 2 r + 1 := by
        have hlt := (not_lt.mp hsub).trans_lt hlog2
        exact (zpow_lt_zpow_iff_right₀ one_lt_two).mp hlt
      refine ⟨(Int.log 2 r + 1022).toNat, .inr ?_, ?_⟩
      · rw [le_div_iff₀ (by positivity), ← zpow_natCast, ← zpow_add₀ two_ne_zero]
        convert hlog1 using 2
        omega
      · rw [div_lt_iff₀ (by positivity), ← zpow_natCast, ← zpow_add₀ two_ne_zero]
        convert hlog2 using 2
        omega
  obtain ⟨m, hm⟩ : ∃ m : ℕ, roundHalfEven (r / 2 ^ ((k : ℤ) - 1074)) = m :=
    Int.eq_ofNat_of_zero_le (roundHalfEven_nonneg (by positivity))
  have hspec := roundHalfEven_spec (r / 2 ^ ((k : ℤ) - 1074))
  rw [hm] at hspec
  have hle : m ≤ 2 ^ 53 := hspec.le_natCast (by push_cast; exact hhigh.le)
  exact ⟨_, rounds_of_isHalfEven hle hspec hlow hhigh⟩

theorem Rounds.le (ha : Rounds a r) (hb : Rounds b r) : a ≤ b := by
  by_contra hlt
  have hmono := mid_mono (show b ≤ a - 1 by omega)
  have h1 := hb.upper
  have h2 := ha.lower (by omega)
  have hr1 : r = mid b := le_antisymm h1 (hmono.trans h2)
  have hr2 : r = mid (a - 1) := le_antisymm (h1.trans hmono) h2
  have heven := hb.even_upper hr1
  have heven' := ha.even_lower (by omega) hr2
  have hsame : b = a - 1 := by
    by_contra hne
    have := mid_lt_mid (show b < a - 1 by omega)
    linarith
  rw [Nat.even_iff] at heven heven'
  omega

theorem Rounds.unique (ha : Rounds a r) (hb : Rounds b r) : a = b :=
  le_antisymm (ha.le hb) (hb.le ha)

/-- The rounding is nearest among all patterns, and even when another is as near. -/
theorem Rounds.nearest (h : Rounds b r) (b' : Nat) :
    |magnitude b - r| ≤ |magnitude b' - r| ∧
      (b' ≠ b → |magnitude b' - r| = |magnitude b - r| → Even b) := by
  obtain hlt | rfl | hgt := lt_trichotomy b' b
  · have hb0 : b ≠ 0 := by omega
    have hle := magnitude_strictMono.monotone (show b' ≤ b - 1 by omega)
    have hstep := magnitude_strictMono (by omega)
    have hlow := h.lower hb0
    have hmid : mid (b - 1) = (magnitude (b - 1) + magnitude b) / 2 := by
      rw [mid, show b - 1 + 1 = b by omega]
    have habs' : |magnitude b' - r| = r - magnitude b' := by
      rw [abs_of_nonpos (by linarith)]
      ring
    rw [habs']
    refine ⟨abs_le.mpr ⟨by linarith, by linarith⟩, fun _ heq => h.even_lower hb0 ?_⟩
    rw [hmid]
    rcases abs_cases (magnitude b - r) with ⟨ha, -⟩ | ⟨ha, -⟩ <;> rw [ha] at heq <;> linarith
  · exact ⟨le_rfl, fun hne => absurd rfl hne⟩
  · have hle := magnitude_strictMono.monotone (show b + 1 ≤ b' by omega)
    have hstep := magnitude_strictMono (by omega)
    have hup := h.upper
    unfold mid at hup
    have habs' : |magnitude b' - r| = magnitude b' - r := abs_of_nonneg (by linarith)
    rw [habs']
    refine ⟨abs_le.mpr ⟨by linarith, by linarith⟩, fun _ heq => h.even_upper ?_⟩
    unfold mid
    rcases abs_cases (magnitude b - r) with ⟨ha, -⟩ | ⟨ha, -⟩ <;> rw [ha] at heq <;> linarith

theorem magnitude_subnormal (hb : b ≤ 2 ^ 53) : magnitude b = b * 2 ^ (-1074 : ℤ) := by
  have := @magnitude_binade 0 b (.inl rfl) hb
  rw [Nat.zero_mul, Nat.zero_add, Nat.cast_zero, zero_sub] at this
  exact this

theorem mid_subnormal (hb : b < 2 ^ 53) : mid b = (b + 1 / 2 : ℚ) * 2 ^ (-1074 : ℤ) := by
  rw [mid, magnitude_subnormal hb.le, magnitude_subnormal hb]
  push_cast
  ring

/-- Below the normal range the rounding is to a multiple of the smallest subnormal. -/
theorem Rounds.isHalfEven_of_subnormal {b : Nat} {r : ℚ} (h : Rounds b r) (h0 : 0 ≤ r)
    (hsub : r < 2 ^ (-1022 : ℤ)) : b ≤ 2 ^ 52 ∧ IsHalfEven (b : ℤ) (r / 2 ^ (-1074 : ℤ)) := by
  have hsplit : (2 : ℚ) ^ (-1022 : ℤ) = 2 ^ 52 * 2 ^ (-1074 : ℤ) := by
    rw [← zpow_natCast, ← zpow_add₀ two_ne_zero]
    rfl
  have hunit : (0 : ℚ) < 2 ^ (-1074 : ℤ) := by positivity
  have hmid := @mid_subnormal
  generalize (2 : ℚ) ^ (-1074 : ℤ) = u at *
  have hle : b ≤ 2 ^ 52 := by
    by_contra hlt
    have h1 := mid_mono (show 2 ^ 52 ≤ b - 1 by omega)
    have h2 := h.lower (by omega)
    rw [hmid (by norm_num)] at h1
    push_cast at h1
    linarith
  have hlow : b ≠ 0 → mid (b - 1) = (b - 1 / 2 : ℚ) * u := by
    intro hb
    rw [hmid (by omega), Nat.cast_sub (by omega)]
    push_cast
    ring
  refine ⟨hle, ?_, ?_, fun heq => ?_, fun heq => ?_⟩
  · rw [le_div_iff₀ hunit]
    by_cases hb : b = 0
    · rw [hb]
      push_cast
      linarith
    · have := h.lower hb
      rw [hlow hb] at this
      exact_mod_cast this
  · rw [div_le_iff₀ hunit]
    have := h.upper
    rw [hmid (by omega)] at this
    exact_mod_cast this
  · by_cases hb : b = 0
    · simp [hb]
    · rw [div_eq_iff hunit.ne'] at heq
      refine Int.even_coe_nat b |>.mpr (h.even_lower hb ?_)
      rw [hlow hb]
      exact_mod_cast heq
  · rw [div_eq_iff hunit.ne'] at heq
    refine Int.even_coe_nat b |>.mpr (h.even_upper ?_)
    rw [hmid (by omega)]
    exact_mod_cast heq

theorem Rounds.of_no_mid {b : Nat} {r r' : ℚ} (h : Rounds b r)
    (hno : ∀ c, mid c < min r r' ∨ max r r' < mid c) : Rounds b r' := by
  have hleft := fun c => (hno c).imp (fun h => lt_min_iff.mp h) (fun h => max_lt_iff.mp h)
  refine ⟨fun hb => ?_, ?_, fun hb heq => ?_, fun heq => ?_⟩
  · have := h.lower hb
    rcases hleft (b - 1) with ⟨h1, h2⟩ | ⟨h1, h2⟩ <;> linarith
  · have := h.upper
    rcases hleft b with ⟨h1, h2⟩ | ⟨h1, h2⟩ <;> linarith
  · rcases hleft (b - 1) with ⟨h1, h2⟩ | ⟨h1, h2⟩ <;> linarith
  · rcases hleft b with ⟨h1, h2⟩ | ⟨h1, h2⟩ <;> linarith

theorem rounds_of_near (h : |r - magnitude b| < magnitude b / 2 ^ 54) : Rounds b r := by
  obtain ⟨hlow, hhigh⟩ := abs_lt.mp h
  have hpos : 0 < magnitude b := by
    by_contra hle
    linarith
  have hup : r < mid b := by
    have hulp := magnitude_succ_le_ulp b
    have hnext := ulp_pos b
    rw [mid_eq]
    unfold ulp at hulp hnext ⊢
    linarith
  have hdown : b ≠ 0 → mid (b - 1) < r := by
    intro hb
    have hulp := magnitude_succ_le_ulp (b - 1)
    rw [show b - 1 + 1 = b by omega] at hulp
    rw [mid_pred hb]
    linarith
  exact ⟨fun hb => (hdown hb).le, hup.le, fun hb heq => absurd heq (hdown hb).ne', fun heq =>
    absurd heq hup.ne⟩

/-- The smallest magnitude that rounds to infinity: half a unit past the largest double. -/
def overflowThreshold : ℚ := (2 ^ 53 - 1 / 2) * 2 ^ 971

theorem mid_infBits_pred : mid (infBits - 1) = overflowThreshold := by
  have hbits : infBits - 1 = 2045 * 2 ^ 52 + (2 ^ 53 - 1) := by norm_num [infBits]
  rw [hbits, mid_binade (.inr (by norm_num)) (by norm_num), overflowThreshold]
  rw [show ((2045 : ℕ) : ℤ) - 1075 = 970 by norm_num]
  rw [pow_succ (2 : ℚ) 970, ← zpow_natCast (2 : ℚ) 970]
  generalize (2 : ℚ) ^ ((970 : ℕ) : ℤ) = u
  push_cast
  ring

theorem rounds_zero_of_lt (h : r < mid 0) : Rounds 0 r :=
  ⟨fun hne => absurd rfl hne, h.le, fun hne => absurd rfl hne, fun heq => absurd heq h.ne⟩

theorem Rounds.infBits_le_iff (h : Rounds b r) : infBits ≤ b ↔ overflowThreshold ≤ r := by
  rw [← mid_infBits_pred]
  constructor
  · intro hle
    have := h.lower (by unfold infBits at hle; omega)
    exact (mid_mono (by omega)).trans this
  · intro hle
    by_contra hlt
    have hmono := mid_mono (show b ≤ infBits - 1 by omega)
    have heq : r = mid b := le_antisymm h.upper (hmono.trans hle)
    have heven := h.even_upper heq
    have hlast : b = infBits - 1 := by
      by_contra hne
      have := mid_lt_mid (show b < infBits - 1 by omega)
      linarith
    rw [hlast, infBits, Nat.even_iff] at heven
    omega

/-- `x` is the double nearest to `v`, with an even mantissa when another is as near. -/
structure Nearest (v : ℚ) (x : Binary64) : Prop where
  finite : x.Finite
  nearest : ∀ y : Binary64, y.Finite → |x.value - v| ≤ |y.value - v|
  even : ∀ y : Binary64, y.Finite → y.value ≠ x.value → |y.value - v| = |x.value - v| →
    x.bits % 2 = 0

/-- The rational does not lie on the other side of zero than the sign says. -/
def HasSign (negative : Bool) (v : ℚ) : Prop := if negative then v ≤ 0 else 0 ≤ v

theorem abs_value_sub_same {x : Binary64} {v : ℚ} {s : Bool} (hx : x.negative = s)
    (hv : HasSign s v) : |x.value - v| = abs (magnitude x.magnitudeBits - |v|) := by
  cases s with
  | false =>
    have hv' : 0 ≤ v := hv
    rw [value, if_neg (by simp [hx]), abs_of_nonneg hv']
  | true =>
    have hv' : v ≤ 0 := hv
    rw [value, if_pos hx, abs_of_nonpos hv', ← abs_neg]
    congr 1
    ring

theorem abs_value_sub_other {x : Binary64} {v : ℚ} {s : Bool} (hx : x.negative = !s)
    (hv : HasSign s v) : |x.value - v| = magnitude x.magnitudeBits + |v| := by
  have hmag := magnitude_nonneg x.magnitudeBits
  cases s with
  | false =>
    have hv' : 0 ≤ v := hv
    rw [value, if_pos (by simpa using hx), abs_of_nonneg hv', abs_of_nonpos (by linarith)]
    ring
  | true =>
    have hv' : v ≤ 0 := hv
    rw [value, if_neg (by simp [hx]), abs_of_nonpos hv', abs_of_nonneg (by linarith)]
    ring

/-- The rounding of the magnitude, with the sign of the argument, is the nearest double. -/
theorem Rounds.toNearest {v : ℚ} (h : Rounds x.magnitudeBits |v|) (hs : HasSign x.negative v)
    (hfin : |v| < overflowThreshold) : Nearest v x := by
  have hx := abs_value_sub_same rfl hs
  have hzero := (h.nearest 0).1
  rw [magnitude_zero, zero_sub, abs_neg, abs_abs] at hzero
  have other : ∀ y : Binary64, y.negative ≠ x.negative →
      |y.value - v| = magnitude y.magnitudeBits + |v| := by
    intro y hne
    refine abs_value_sub_other ?_ hs
    cases hxs : x.negative <;> cases hys : y.negative <;> simp_all
  refine ⟨?_, fun y hy => ?_, fun y hy hne heq => ?_⟩
  · by_contra hinf
    have := h.infBits_le_iff.mp (not_lt.mp hinf)
    linarith
  · rw [hx]
    by_cases hys : y.negative = x.negative
    · rw [abs_value_sub_same hys hs]
      exact (h.nearest _).1
    · rw [other y hys]
      have := magnitude_nonneg y.magnitudeBits
      linarith
  · rw [even_bits_iff]
    rw [hx] at heq
    by_cases hys : y.negative = x.negative
    · rw [abs_value_sub_same hys hs] at heq
      refine (h.nearest _).2 (fun hbits => hne ?_) heq
      rw [value, value, hys, hbits]
    · rw [other y hys] at heq
      have hmag := magnitude_nonneg y.magnitudeBits
      by_cases hb : x.magnitudeBits = 0
      · simp [hb]
      · refine (h.nearest 0).2 (Ne.symm hb) ?_
        rw [magnitude_zero, zero_sub, abs_neg, abs_abs]
        linarith

end Binary64

end Equilibrium.Library
