import Equilibrium.Strings.FloatFormatPrintf

/-! `%g` and the whole of `FormatFloatTo`: trailing zeros are dropped from the
expansion before the layout, which prints the stripped fraction of `printf`. -/

namespace Equilibrium.FloatFormat

open Library Library.Binary64 Library.DecimalNumeral Library.Rounding Printf

variable {d : Decimal} {x : ℚ}

def trimmed (d : Decimal) : Decimal := { d with digits := d.digits.rdropWhile (· = 0) }

theorem numeral_rdropWhile (ds : List (Fin 10)) : numeral ds = numeral (ds.rdropWhile (· = 0)) *
      10 ^ (ds.length - (ds.rdropWhile (· = 0)).length) := by
  induction ds using List.reverseRecOn with
  | nil => rfl
  | append_singleton ds c ih =>
    by_cases hc : c = 0
    · have hle : (ds.rdropWhile (· = 0)).length ≤ ds.length := (List.rdropWhile_prefix _ _).length_le
      have hlen : ds.length + 1 - (ds.rdropWhile (· = 0)).length =
          ds.length - (ds.rdropWhile (· = 0)).length + 1 := by omega
      have hzero : ((0 : Fin 10) : ℕ) = 0 := rfl
      rw [List.rdropWhile_concat_pos _ _ _ (by simpa using hc), numeral_concat, hc, hzero,
        List.length_append, List.length_singleton, hlen, pow_succ, ← Nat.mul_assoc, ← ih,
        Nat.add_zero, Nat.mul_comm]
    · rw [List.rdropWhile_concat_neg _ _ _ (by simpa using hc), Nat.sub_self, pow_zero,
        Nat.mul_one]

theorem Represents.trimmed (h : Represents d x) : Represents (trimmed d) x := by
  have hnum := numeral_rdropWhile d.digits
  have hle : (d.digits.rdropWhile (· = 0)).length ≤ d.digits.length :=
    (List.rdropWhile_prefix _ _).length_le
  refine ⟨?_, fun hne => ?_⟩
  · have hvalue := h.value
    unfold FloatFormat.trimmed Decimal.count at *
    rw [hnum] at hvalue
    rw [← hvalue]
    push_cast
    rw [mul_assoc, ← zpow_natCast, ← zpow_add₀ (by norm_num)]
    congr 2
    omega
  · have hpos : 0 < (d.digits.rdropWhile (· = 0)).length := List.length_pos_of_ne_nil hne
    have hlead := h.leading (List.ne_nil_of_length_pos (hpos.trans_le hle))
    unfold FloatFormat.trimmed Decimal.count at *
    rw [hnum, show d.digits.length - 1 = (d.digits.rdropWhile (· = 0)).length - 1 +
      (d.digits.length - (d.digits.rdropWhile (· = 0)).length) by omega, pow_add] at hlead
    exact Nat.le_of_mul_le_mul_right hlead (by positivity)

theorem last_trimmed (hne : (trimmed d).digits ≠ []) : numeral (trimmed d).digits % 10 ≠ 0 := by
  have hlast := List.rdropWhile_last_not (· = 0) d.digits
    (show d.digits.rdropWhile (· = 0) ≠ [] from hne)
  have hsplit := numeral_concat ((trimmed d).digits.dropLast) ((trimmed d).digits.getLast hne)
  rw [List.dropLast_append_getLast] at hsplit
  rw [hsplit, Nat.mul_add_mod, Nat.mod_eq_of_lt (by omega)]
  intro hzero
  exact hlast (decide_eq_true (Fin.ext hzero))

theorem strip_padded {y : ℚ} {m U n q : ℕ} (hU : (U : ℚ) = y * 10 ^ q) (hm : (m : ℚ) = y * 10 ^ n)
    (hlast : n = 0 ∨ m % 10 ≠ 0) : (padded q U).rdropWhile (· = 0) = padded n m := by
  have hle : n ≤ q := by
    by_contra hlt
    obtain ⟨j, rfl⟩ : ∃ j, n = q + (j + 1) := ⟨n - q - 1, by omega⟩
    have hcast : (m : ℚ) = ((U * 10 ^ j * 10 : ℕ) : ℚ) := by
      rw [hm, pow_add, ← mul_assoc, ← hU, pow_succ]
      push_cast
      ring
    have hnat : m = U * 10 ^ j * 10 := by exact_mod_cast hcast
    have hmod := hlast.resolve_left (by omega)
    rw [hnat, Nat.mul_mod_left] at hmod
    exact hmod rfl
  obtain ⟨j, rfl⟩ := Nat.exists_eq_add_of_le hle
  have hcast : (U : ℚ) = ((m * 10 ^ j : ℕ) : ℚ) := by
    rw [hU, pow_add, ← mul_assoc, ← hm]
    push_cast
    rfl
  have hnat : U = m * 10 ^ j := by exact_mod_cast hcast
  rw [hnat, rdropWhile_padded hlast]

theorem floor_units {places : ℕ} {U : ℕ} (hx : x = U * 10 ^ (-(places : ℤ))) :
    ⌊x⌋₊ = U / 10 ^ places ∧ ⌊x * 10 ^ places⌋₊ = U := by
  rw [zpow_neg, zpow_natCast, ← div_eq_mul_inv] at hx
  constructor
  · have := @Nat.floor_div_eq_div ℚ _ _ _ _ U (10 ^ places)
    rw [hx]
    push_cast at this
    exact this
  · rw [hx, div_mul_cancel₀ _ (by positivity), Nat.floor_natCast]

theorem Represents.writeFixed_units (h : Represents d x) (hnil : d.digits = [] → d.exponent = 1)
    (w : Writer) {places U : ℕ} (hx : x = U * 10 ^ (-(places : ℤ))) (alt : Bool) :
    FloatFormat.writeFixed w d places alt =
      w.putAll (layout (natural (U / 10 ^ places)) (padded places U) alt) := by
  obtain ⟨hwhole, hfraction⟩ := floor_units hx
  rw [h.writeFixed hnil, hwhole, hfraction]

/-- The places `%g` keeps after the point: as many as the last nonzero digit needs. -/
theorem Represents.trimmed_places (h : Represents d x)
    (hnil : (FloatFormat.trimmed d).digits = [] → d.exponent = 1) :
    ∃ n m : ℕ, (n : ℤ) = (if 0 < ((FloatFormat.trimmed d).count : ℤ) - d.exponent then
        ((FloatFormat.trimmed d).count : ℤ) - d.exponent else 0) ∧
      (m : ℚ) = x * 10 ^ n ∧ (n = 0 ∨ m % 10 ≠ 0) := by
  have hvalue := h.trimmed.value
  have hexp : (FloatFormat.trimmed d).exponent = d.exponent := rfl
  rw [hexp] at hvalue
  split
  · next hpos =>
    obtain ⟨n, hn⟩ := Int.eq_ofNat_of_zero_le hpos.le
    have hne : (FloatFormat.trimmed d).digits ≠ [] := by
      intro hnone
      rw [hnil hnone, Decimal.count, hnone, List.length_nil] at hpos
      omega
    refine ⟨n, numeral (FloatFormat.trimmed d).digits, hn.symm, ?_, .inr (last_trimmed hne)⟩
    rw [← hvalue, mul_assoc, ← zpow_natCast, ← zpow_add₀ (by norm_num),
      show d.exponent - (FloatFormat.trimmed d).count + (n : ℤ) = 0 by omega, zpow_zero, mul_one]
  · next hnonpos =>
    obtain ⟨j, hj⟩ : ∃ j : ℕ, d.exponent - (FloatFormat.trimmed d).count = j :=
      Int.eq_ofNat_of_zero_le (by omega)
    refine ⟨0, numeral (FloatFormat.trimmed d).digits * 10 ^ j, rfl, ?_, .inl rfl⟩
    rw [← hvalue, hj, zpow_natCast, pow_zero, mul_one]
    push_cast
    rfl

theorem Represents.writeFixed_trimmed (h : Represents d x)
    (hnil : (FloatFormat.trimmed d).digits = [] → d.exponent = 1) (w : Writer) {places U : ℕ}
    (hx : x = U * 10 ^ (-(places : ℤ))) : FloatFormat.writeFixed w (FloatFormat.trimmed d)
        (if 0 < ((FloatFormat.trimmed d).count : ℤ) - d.exponent then
          ((FloatFormat.trimmed d).count : ℤ) - d.exponent else 0) false =
      w.putAll (layout (natural (U / 10 ^ places))
        ((padded places U).rdropWhile (· = 0)) false) := by
  obtain ⟨n, m, hn, hm, hlast⟩ := h.trimmed_places hnil
  have hU : (U : ℚ) = x * 10 ^ places := by
    rw [hx, mul_assoc, zpow_neg, zpow_natCast, inv_mul_cancel₀ (by positivity), mul_one]
  rw [← hn, h.trimmed.writeFixed hnil, (floor_units hx).1, ← hm, Nat.floor_natCast,
    strip_padded hU hm hlast]

theorem padded_succ_eq_cons (k n : ℕ) : (padded (k + 1) n).take 1 = [Fin.ofNat 10 (n / 10 ^ k)] ∧
      (padded (k + 1) n).drop 1 = padded k n := by
  rw [Nat.add_comm k 1, padded_add]
  exact ⟨rfl, rfl⟩

section

variable (h : Represents d x)
include h

theorem Represents.writeScientific_units {p U : ℕ} {X : ℤ} (hx : x = U * 10 ^ (X - p))
    (hX : d.exponent = X + 1) (hnil : d.digits = [] → d.exponent = 1) (hexp : X.natAbs < 1000)
    (w : Writer) (alt uppercase : Bool) : FloatFormat.writeScientific w d p alt uppercase =
      w.putAll (layout ((padded (p + 1) U).take 1) ((padded (p + 1) U).drop 1) alt ++
        exponentText X uppercase) := by
  have hX' : d.exponent - 1 = X := by omega
  have hfloor : x * 10 ^ ((p : ℤ) - X) = U := by
    rw [hx, mul_assoc, ← zpow_add₀ (by norm_num), show X - p + ((p : ℤ) - X) = 0 by ring,
      zpow_zero, mul_one]
  rw [h.writeScientific hnil (by rwa [hX']), hX', hfloor, Nat.floor_natCast]

theorem Represents.writeScientific_trimmed {p U : ℕ} {X : ℤ} (hx : x = U * 10 ^ (X - p))
    (hX : d.exponent = X + 1) (hne : (FloatFormat.trimmed d).digits ≠ []) (hexp : X.natAbs < 1000)
    (w : Writer) (uppercase : Bool) : FloatFormat.writeScientific w (FloatFormat.trimmed d)
        (if 0 < (FloatFormat.trimmed d).count then ((FloatFormat.trimmed d).count : ℤ) - 1 else 0)
        false uppercase = w.putAll (layout ((padded (p + 1) U).take 1)
          (((padded (p + 1) U).drop 1).rdropWhile (· = 0)) false ++
        exponentText X uppercase) := by
  have ht := h.trimmed
  obtain ⟨n, hn⟩ : ∃ n, (FloatFormat.trimmed d).count = n + 1 :=
    Nat.exists_eq_succ_of_ne_zero (List.length_pos_of_ne_nil hne).ne'
  have hvalue := ht.value
  rw [show (FloatFormat.trimmed d).exponent = d.exponent from rfl, hX, hn] at hvalue
  have hm : x = (numeral (FloatFormat.trimmed d).digits) * 10 ^ (X - n) := by
    rw [← hvalue]
    congr 2
    push_cast
    ring
  have hwrite := ht.writeScientific_units hm hX (fun hnone => absurd hnone hne) hexp w false uppercase
  rw [if_pos (by omega), hn, show (((n + 1 : ℕ) : ℤ) - 1) = n by push_cast; ring, hwrite]
  obtain ⟨htake, hdrop⟩ := padded_succ_eq_cons n (numeral (FloatFormat.trimmed d).digits)
  obtain ⟨htake', hdrop'⟩ := padded_succ_eq_cons p U
  rw [htake, hdrop, htake', hdrop']
  have hU : (U : ℚ) = x * 10 ^ (-X) * 10 ^ p := by
    rw [hx, mul_assoc, mul_assoc, ← zpow_natCast, ← zpow_add₀ (by norm_num), ← zpow_add₀ (by norm_num),
      show X - p + (-X + (p : ℤ)) = 0 by ring, zpow_zero, mul_one]
  have hm' : (numeral (FloatFormat.trimmed d).digits : ℚ) = x * 10 ^ (-X) * 10 ^ n := by
    rw [hm, mul_assoc, mul_assoc, ← zpow_natCast, ← zpow_add₀ (by norm_num),
      ← zpow_add₀ (by norm_num), show X - n + (-X + (n : ℤ)) = 0 by ring, zpow_zero, mul_one]
  rw [strip_padded hU hm' (.inr (last_trimmed hne))]
  have hfirst : U / 10 ^ p = numeral (FloatFormat.trimmed d).digits / 10 ^ n := by
    have h1 := @Nat.floor_div_eq_div ℚ _ _ _ _ U (10 ^ p)
    have h2 := @Nat.floor_div_eq_div ℚ _ _ _ _ (numeral (FloatFormat.trimmed d).digits) (10 ^ n)
    rw [← h1, ← h2, hU, hm']
    push_cast
    rw [mul_div_cancel_right₀ _ (by positivity), mul_div_cancel_right₀ _ (by positivity)]
  rw [hfirst]

theorem Represents.trimmed_eq_nil_iff : (FloatFormat.trimmed d).digits = [] ↔ d.digits = [] := by
  rw [← h.eq_zero_iff, ← h.trimmed.eq_zero_iff]

theorem Represents.writeGeneral (hnil : d.digits = [] → d.exponent = 1) {precision : ℤ} {q : ℕ}
    (hprecision : (if precision < 0 then 6 else if precision = 0 then 1 else precision) = (q : ℤ) + 1)
    (hexp : (exponentAfter x q).natAbs < 1000) (w : Writer) (alt uppercase : Bool) :
    FloatFormat.writeGeneral w d precision alt uppercase =
      w.putAll (general x (q + 1) alt uppercase) := by
  obtain ⟨hr, hX, hempty⟩ := h.significant hnil q
  unfold FloatFormat.writeGeneral general
  dsimp only
  rw [hprecision, Nat.add_sub_cancel]
  unfold fixedWhole fixedFraction scientificDigits
  generalize FloatFormat.roundTo d ((q : ℤ) + 1) = r at *
  have hX0 : r.digits = [] → exponentAfter x q = 0 := by
    intro hnone
    rw [hempty hnone, exponentAfter, if_pos rfl]
  generalize exponentAfter x q = X at *
  have hscientific : (if r.count = 0 then 0 else r.exponent - 1) = X := by
    split
    · next hc => rw [hX0 (List.length_eq_zero_iff.mp hc)]
    · omega
  have hnil' : r.digits = [] → r.exponent = 1 := by
    intro hnone
    rw [hX, hX0 hnone, zero_add]
  rw [hscientific, Nat.cast_succ]
  by_cases hfixed : -4 ≤ X ∧ X < (q : ℤ) + 1
  · obtain ⟨places, hplaces⟩ : ∃ places : ℕ, (q : ℤ) - X = places :=
      Int.eq_ofNat_of_zero_le (by omega)
    have hx : (units x (q - X) * 10 ^ (X - q) : ℚ) = units x places * 10 ^ (-(places : ℤ)) := by
      rw [hplaces, show X - q = -(places : ℤ) by omega]
    have htoNat : ((q : ℤ) + 1 - 1 - X).toNat = places := by omega
    rw [if_pos hfixed, if_pos hfixed, htoNat]
    cases alt with
    | true =>
      have hwrite := hr.writeFixed_units hnil' w hx true
      rw [if_pos rfl, if_pos rfl, show (q : ℤ) + 1 - 1 - X = places by omega, hwrite]
      rfl
    | false =>
      have hwrite := hr.writeFixed_trimmed
        (fun hnone => hnil' (hr.trimmed_eq_nil_iff.mp hnone)) w hx
      exact hwrite
  · rw [if_neg hfixed, if_neg hfixed]
    cases alt with
    | true =>
      have hwrite := hr.writeScientific_units rfl hX hnil' hexp w true uppercase
      rw [if_pos rfl, if_pos rfl, show (q : ℤ) + 1 - 1 = q by omega, hwrite]
      rfl
    | false =>
      have hne : (FloatFormat.trimmed r).digits ≠ [] := by
        intro hnone
        have := hX0 (hr.trimmed_eq_nil_iff.mp hnone)
        omega
      exact hr.writeScientific_trimmed rfl hX hne hexp w uppercase

end

/-! The double. -/

/-- The fields `FormatFloatTo` reads are the mantissa and scale of the magnitude. -/
theorem magnitude_fields (v : Binary64) (hfin : v.Finite) :
    let biasedExponent : ℕ := v.bits / 2 ^ 52 % 2 ^ 11
    let fraction : ℕ := v.bits % 2 ^ 52
    let mantissa : ℕ := if biasedExponent = 0 then fraction else fraction ||| 2 ^ 52
    let exponent2 : ℤ := if biasedExponent = 0 then -1074 else (biasedExponent : ℤ) - 1075
    biasedExponent ≠ 0x7FF ∧ mantissa < 2 ^ 53 ∧ -1074 ≤ exponent2 ∧ exponent2 ≤ 971 ∧
      |v.value| = mantissa * 2 ^ exponent2 := by
  have hbits := v.lt
  have hexponent : v.magnitudeBits / 2 ^ 52 = v.bits / 2 ^ 52 % 2 ^ 11 := by
    unfold Binary64.magnitudeBits
    omega
  have hfraction : v.magnitudeBits % 2 ^ 52 = v.bits % 2 ^ 52 := by
    unfold Binary64.magnitudeBits
    omega
  have hor : v.bits % 2 ^ 52 ||| 2 ^ 52 = 2 ^ 52 + v.bits % 2 ^ 52 := by
    have := Nat.two_pow_add_eq_or_of_lt (Nat.mod_lt v.bits (show 0 < 2 ^ 52 by norm_num)) 1
    rw [Nat.mul_one] at this
    rw [this, Nat.or_comm]
  have hlt : v.bits / 2 ^ 52 % 2 ^ 11 < 0x7FF := by
    unfold Binary64.Finite infBits at hfin
    omega
  dsimp only
  rw [v.abs_value, magnitude, significand, scale, hexponent, hfraction, hor]
  generalize hb : v.bits / 2 ^ 52 % 2 ^ 11 = b at *
  by_cases hzero : b = 0
  · have hsmall : v.magnitudeBits = v.bits % 2 ^ 52 := by omega
    rw [if_pos hzero, if_pos hzero, if_pos hzero, hsmall, hzero]
    exact ⟨by omega, by omega, by omega, by omega, rfl⟩
  · rw [if_neg hzero, if_neg hzero, if_neg hzero, max_eq_left (by omega)]
    exact ⟨by omega, by omega, by omega, by omega, rfl⟩

theorem negative_field (v : Binary64) : decide (v.bits / 2 ^ 63 ≠ 0) = v.negative := by
  have := v.lt
  unfold Binary64.negative
  rw [decide_eq_decide]
  omega

theorem represents_decimal {mantissa : ℕ} {exponent2 : ℤ} (hm : mantissa < 2 ^ 53)
    (hlow : -1074 ≤ exponent2) (hhigh : exponent2 ≤ 971) :
    Represents (if mantissa = 0 then ⟨[], 1⟩ else expandExact mantissa exponent2)
        (mantissa * 2 ^ exponent2) ∧
      ((if mantissa = 0 then (⟨[], 1⟩ : Decimal) else expandExact mantissa exponent2).digits = [] →
        (if mantissa = 0 then (⟨[], 1⟩ : Decimal) else expandExact mantissa exponent2).exponent = 1) := by
  by_cases hzero : mantissa = 0
  · rw [if_pos hzero, hzero]
    exact ⟨⟨by simp, by simp⟩, fun _ => rfl⟩
  · have h := expandExact_represents hm hlow hhigh
    rw [if_neg hzero]
    refine ⟨h, fun hnone => ?_⟩
    have hvalue := h.eq_zero_iff.mpr hnone
    have hpos : (0 : ℚ) < mantissa := by exact_mod_cast Nat.pos_of_ne_zero hzero
    exact absurd hvalue (by positivity)

theorem exponentAfter_bound {mantissa : ℕ} {exponent2 : ℤ} (hm : mantissa < 2 ^ 53)
    (hlow : -1074 ≤ exponent2) (hhigh : exponent2 ≤ 971) (p : ℕ) :
    (exponentAfter (mantissa * 2 ^ exponent2) p).natAbs < 1000 := by
  unfold exponentAfter
  split
  · norm_num
  · next hne =>
    have hpos : (0 : ℚ) < mantissa * 2 ^ exponent2 := lt_of_le_of_ne (by positivity) (Ne.symm hne)
    have hscale : (0 : ℚ) < 2 ^ exponent2 := by positivity
    have h1 : (10 : ℚ) ^ (-400 : ℤ) ≤ mantissa * 2 ^ exponent2 := by
      have hone : (1 : ℚ) ≤ mantissa := by
        have hpos' : mantissa ≠ 0 := by
          rintro rfl
          simp at hpos
        exact_mod_cast Nat.one_le_iff_ne_zero.mpr hpos'
      have hnat : 2 ^ 1074 ≤ 10 ^ 400 := by decide +kernel
      have hle : (10 : ℚ) ^ (-400 : ℤ) ≤ 2 ^ (-1074 : ℤ) := by
        rw [zpow_neg, zpow_neg]
        exact inv_anti₀ (by positivity) (by exact_mod_cast hnat)
      have hmono := zpow_le_zpow_right₀ (show (1 : ℚ) ≤ 2 by norm_num) hlow
      exact (hle.trans hmono).trans (le_mul_of_one_le_left hscale.le hone)
    have h2 : mantissa * 2 ^ exponent2 < (10 : ℚ) ^ (400 : ℤ) := by
      have hcast : (mantissa : ℚ) < 2 ^ 53 := by exact_mod_cast hm
      have hnat : 2 ^ 53 * 2 ^ 971 ≤ 10 ^ 400 := by decide +kernel
      have hmono := zpow_le_zpow_right₀ (show (1 : ℚ) ≤ 2 by norm_num) hhigh
      have hle := mul_le_mul_of_nonneg_left hmono (show (0 : ℚ) ≤ 2 ^ 53 by norm_num)
      exact (mul_lt_mul_of_pos_right hcast hscale).trans_le
        (hle.trans (by exact_mod_cast hnat))
    have hlog1 := (Int.zpow_le_iff_le_log (b := 10) (by norm_num) hpos).mp h1
    have hlog2 := (Int.lt_zpow_iff_log_lt (b := 10) (by norm_num) hpos).mp h2
    split <;> omega

section Conversions

variable (h : Represents d x) (hnil : d.digits = [] → d.exponent = 1)
  (hbound : ∀ p, (exponentAfter x p).natAbs < 1000) (w : Writer) {precision : ℤ} {p : ℕ}
  (hp : (if precision < 0 then 6 else precision) = (p : ℤ)) (alt uppercase : Bool)

include h hnil hbound hp in
theorem writeFinite_scientific : writeFinite w d 'e' precision alt uppercase =
    w.putAll (scientific x p alt uppercase) := by
  obtain ⟨hr, hX, hempty⟩ := h.significant hnil p
  have hnil' : (FloatFormat.roundTo d ((p : ℤ) + 1)).digits = [] →
      (FloatFormat.roundTo d ((p : ℤ) + 1)).exponent = 1 := by
    intro hnone
    rw [hX, hempty hnone, exponentAfter, if_pos rfl, zero_add]
  unfold writeFinite
  rw [if_pos rfl, hp, hr.writeScientific_units rfl hX hnil' (hbound p)]
  rfl

include h hnil hbound hp in
theorem writeFinite_general : writeFinite w d 'g' precision alt uppercase =
    w.putAll (general x (if p = 0 then 1 else p) alt uppercase) := by
  obtain ⟨q, hq⟩ : ∃ q, (if p = 0 then 1 else p) = q + 1 :=
    Nat.exists_eq_succ_of_ne_zero (by split <;> omega)
  have hprecision :
      (if precision < 0 then 6 else if precision = 0 then 1 else precision) = (q : ℤ) + 1 := by
    split_ifs at hp hq ⊢ <;> omega
  unfold writeFinite
  rw [if_neg (by decide), if_pos rfl, hq]
  exact h.writeGeneral hnil hprecision (hbound q) w alt uppercase

include h hp in
theorem writeFinite_fixed {lower : Char} (he : lower ≠ 'e') (hg : lower ≠ 'g') :
    writeFinite w d lower precision alt uppercase = w.putAll (fixed x p alt) := by
  have hr := h.roundTo (d.exponent + p)
  rw [show d.exponent + p - d.exponent = (p : ℤ) by ring,
    show d.exponent - (d.exponent + p) = -(p : ℤ) by ring, units_eq h.nonneg] at hr
  unfold writeFinite
  dsimp only
  rw [if_neg he, if_neg hg, hp]
  generalize FloatFormat.roundTo d (d.exponent + p) = r at *
  by_cases hempty : r.count = 0
  · have hdigits : r.digits = [] := List.length_eq_zero_iff.mp hempty
    have hone : Represents { r with exponent := 1 } (units x p * 10 ^ (-(p : ℤ))) := by
      rw [hr.eq_zero_iff.mpr hdigits]
      exact ⟨by simp [hdigits], fun hne => absurd hdigits hne⟩
    rw [if_pos hempty, hone.writeFixed_units (fun _ => rfl) w rfl]
    rfl
  · rw [if_neg hempty, hr.writeFixed_units
      (fun hnone => absurd (List.length_eq_zero_iff.mpr hnone) hempty) w rfl]
    rfl

end Conversions

theorem formatFloatTo_written (v : Binary64) (hfin : v.Finite) (type : Char)
    (htype : type ∈ ['e', 'E', 'f', 'F', 'g', 'G']) (precision : ℤ) (sign : Char) (alt : Bool)
    (capacity : ℕ) : formatFloatTo capacity v type precision sign alt =
      (((⟨capacity, [], 0⟩ : Writer).putAll (Printf.text v type precision sign alt)).out,
        ((⟨capacity, [], 0⟩ : Writer).putAll (Printf.text v type precision sign alt)).length) := by
  obtain ⟨hinf, hm, hlow, hhigh, hvalue⟩ := magnitude_fields v hfin
  obtain ⟨hrep, hnil⟩ := represents_decimal hm hlow hhigh
  have hbound := exponentAfter_bound hm hlow hhigh
  rw [← hvalue] at hrep hbound
  have hp : (if precision < 0 then 6 else precision) =
      ((if precision < 0 then 6 else precision.toNat : ℕ) : ℤ) := by
    split <;> omega
  unfold formatFloatTo Printf.text
  rw [if_neg hinf, negative_field, writeSign_eq, ← putAll_putAll]
  simp only [List.mem_cons, List.not_mem_nil, or_false] at htype
  rcases htype with rfl | rfl | rfl | rfl | rfl | rfl
  · have hlower : decide ('A' ≤ 'e' ∧ 'e' ≤ 'Z') = false := by decide
    simp only [hlower, Bool.false_eq_true, if_false]
    rw [writeFinite_scientific hrep hnil hbound _ hp]
    rfl
  · have hupper : decide ('A' ≤ 'E' ∧ 'E' ≤ 'Z') = true := by decide
    have hlower : Char.ofNat ('E'.toNat - 'A'.toNat + 'a'.toNat) = 'e' := by decide
    simp only [hupper, if_true, hlower]
    rw [writeFinite_scientific hrep hnil hbound _ hp]
    rfl
  · have hlower : decide ('A' ≤ 'f' ∧ 'f' ≤ 'Z') = false := by decide
    simp only [hlower, Bool.false_eq_true, if_false]
    rw [writeFinite_fixed hrep _ hp alt false (by decide) (by decide)]
    rfl
  · have hupper : decide ('A' ≤ 'F' ∧ 'F' ≤ 'Z') = true := by decide
    have hlower : Char.ofNat ('F'.toNat - 'A'.toNat + 'a'.toNat) = 'f' := by decide
    simp only [hupper, if_true, hlower]
    rw [writeFinite_fixed hrep _ hp alt true (by decide) (by decide)]
    rfl
  · have hlower : decide ('A' ≤ 'g' ∧ 'g' ≤ 'Z') = false := by decide
    simp only [hlower, Bool.false_eq_true, if_false]
    rw [writeFinite_general hrep hnil hbound _ hp]
    rfl
  · have hupper : decide ('A' ≤ 'G' ∧ 'G' ≤ 'Z') = true := by decide
    have hlower : Char.ofNat ('G'.toNat - 'A'.toNat + 'a'.toNat) = 'g' := by decide
    simp only [hupper, if_true, hlower]
    rw [writeFinite_general hrep hnil hbound _ hp]
    rfl

/-- `FormatFloatTo` writes the text of `printf`, cut at the capacity, and
returns the length of the whole text. -/
theorem formatFloatTo_printf (v : Binary64) (hfin : v.Finite) (type : Char)
    (htype : type ∈ ['e', 'E', 'f', 'F', 'g', 'G']) (precision : ℤ) (sign : Char) (alt : Bool)
    (capacity : ℕ) : formatFloatTo capacity v type precision sign alt =
      ((Printf.text v type precision sign alt).take capacity,
        (Printf.text v type precision sign alt).length) := by
  obtain ⟨hout, hlength, -⟩ := putAll_spec capacity (Printf.text v type precision sign alt)
  rw [formatFloatTo_written v hfin type htype, hout, hlength]

/-- `9999.59375` carries into a fifth digit, which moves the layout to the scientific one. -/
theorem formatFloatTo_printf_carry : formatFloatTo 8 ⟨0x40C387CC00000000, by decide⟩ 'g' 4 '+' true =
    ((Printf.text ⟨0x40C387CC00000000, by decide⟩ 'g' 4 '+' true).take 8,
      (Printf.text ⟨0x40C387CC00000000, by decide⟩ 'g' 4 '+' true).length) :=
  formatFloatTo_printf _ (by decide) 'g' (by decide) 4 '+' true 8

end Equilibrium.FloatFormat
