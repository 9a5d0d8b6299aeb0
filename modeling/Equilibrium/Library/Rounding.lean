import Mathlib.Algebra.Order.Floor.Ring
import Mathlib.Tactic.Ring

/-! Rounding to the nearest integer, ties to even, over an ordered field with a
floor. The result is the one integer within a half of the argument that is even
when it is exactly a half away. -/

namespace Equilibrium.Library.Rounding

open Int

variable {α : Type*} [Field α] [LinearOrder α] [IsStrictOrderedRing α] [FloorRing α]

def roundHalfEven (x : α) : ℤ :=
  if 1 / 2 < Int.fract x ∨ Int.fract x = 1 / 2 ∧ ⌊x⌋ % 2 = 1 then ⌊x⌋ + 1 else ⌊x⌋

/-- The half-even integer, as bounds: within a half, and even at a half. -/
structure IsHalfEven (n : ℤ) (x : α) : Prop where
  lower : (n : α) - 1 / 2 ≤ x
  upper : x ≤ n + 1 / 2
  even_lower : x = n - 1 / 2 → Even n
  even_upper : x = n + 1 / 2 → Even n

theorem roundHalfEven_spec (x : α) : IsHalfEven (roundHalfEven x) x := by
  have hsplit := floor_add_fract x
  have hnonneg := fract_nonneg x
  have hlt := fract_lt_one x
  unfold roundHalfEven
  split
  · next h =>
    have hhalf : 1 / 2 ≤ fract x := by
      rcases h with h | h
      · exact h.le
      · exact h.1.ge
    refine ⟨by push_cast; linarith, by push_cast; linarith, fun hx => ?_, fun hx => ?_⟩
    · rcases h with h | h
      · push_cast at hx
        linarith
      · rw [even_iff]
        omega
    · push_cast at hx
      linarith
  · next h =>
    push Not at h
    obtain ⟨hle, htie⟩ := h
    refine ⟨by linarith, by linarith, fun hx => ?_, fun hx => ?_⟩
    · linarith
    · have := htie (by linarith)
      rw [even_iff]
      omega

variable {n : ℤ} {x : α}

theorem IsHalfEven.unique {m : ℤ} (hm : IsHalfEven m x) (hn : IsHalfEven n x) : m = n := by
  have hmn : (m : α) - n ≤ 1 := by linarith [hm.lower, hn.upper]
  have hnm : (n : α) - m ≤ 1 := by linarith [hn.lower, hm.upper]
  have hmn' : m - n ≤ 1 := by exact_mod_cast hmn
  have hnm' : n - m ≤ 1 := by exact_mod_cast hnm
  obtain h | h | h : m = n ∨ m = n + 1 ∨ n = m + 1 := by omega
  · exact h
  · subst h
    have hx : x = (n : α) + 1 / 2 := le_antisymm hn.upper (by
      have := hm.lower
      push_cast at this
      linarith)
    have heven := hn.even_upper hx
    have heven' := hm.even_lower (by rw [hx]; push_cast; ring)
    rw [even_iff] at heven heven'
    omega
  · subst h
    have hx : x = (m : α) + 1 / 2 := le_antisymm hm.upper (by
      have := hn.lower
      push_cast at this
      linarith)
    have heven := hm.even_upper hx
    have heven' := hn.even_lower (by rw [hx]; push_cast; ring)
    rw [even_iff] at heven heven'
    omega

theorem roundHalfEven_eq (h : IsHalfEven n x) : roundHalfEven x = n :=
  (roundHalfEven_spec x).unique h

theorem roundHalfEven_of_abs_lt (h : |x - n| < 1 / 2) : roundHalfEven x = n := by
  obtain ⟨hlow, hhigh⟩ := abs_lt.mp h
  exact roundHalfEven_eq ⟨by linarith, by linarith, fun hx => by linarith, fun hx => by linarith⟩

@[simp] theorem roundHalfEven_intCast (n : ℤ) : roundHalfEven (n : α) = n :=
  roundHalfEven_of_abs_lt (by simp)

@[simp] theorem roundHalfEven_natCast (n : ℕ) : roundHalfEven (n : α) = n := by
  exact_mod_cast @roundHalfEven_intCast α _ _ _ _ (n : ℤ)

theorem roundHalfEven_of_parts {m : ℤ} {t : α} (hx : x = m + t) (h0 : 0 ≤ t) (h1 : t < 1) :
    roundHalfEven x = if 1 / 2 ≤ t ∧ (t ≠ 1 / 2 ∨ m % 2 = 1) then m + 1 else m := by
  have hfloor : ⌊x⌋ = m := by
    rw [floor_eq_iff]
    constructor <;> linarith
  have hfract : fract x = t := by
    rw [fract, hfloor]
    linarith
  unfold roundHalfEven
  rw [hfloor, hfract]
  congr 1
  refine propext ⟨?_, ?_⟩
  · rintro (h | ⟨h, hodd⟩)
    · exact ⟨h.le, .inl h.ne'⟩
    · exact ⟨h.ge, .inr hodd⟩
  · rintro ⟨hle, hne | hodd⟩
    · exact .inl (lt_of_le_of_ne hle hne.symm)
    · rcases hle.lt_or_eq with h | h
      · exact .inl h
      · exact .inr ⟨h.symm, hodd⟩

/-- Rounding at a unit of `2 * h`: the argument lies in the unit interval above
`q * (2 * h) + m`, and the rest `m` decides against the half `h`. -/
theorem roundHalfEven_div_double {q m h : ℕ} {y : α} (hm : m < 2 * h)
    (h1 : ((q * (2 * h) + m : ℕ) : α) ≤ y) (h2 : y < ((q * (2 * h) + m : ℕ) : α) + 1) :
    roundHalfEven (y / (2 * h : ℕ)) =
      if h ≤ m ∧ ((y ≠ (q * (2 * h) + m : ℕ) ∨ m ≠ h) ∨ q % 2 = 1) then (q : ℤ) + 1 else q := by
  have hpos : 0 < h := by omega
  have hposα : (0 : α) < h := by exact_mod_cast hpos
  have hm' : (m : α) + 1 ≤ 2 * h := by exact_mod_cast hm
  have hm0 : (0 : α) ≤ m := by positivity
  push_cast at h1 h2 ⊢
  have hunit : y / (2 * h) = ((q : ℤ) : α) + (y - q * (2 * h)) / (2 * h) := by
    push_cast
    field_simp
    ring
  have h0 : 0 ≤ (y - q * (2 * h)) / (2 * h) := div_nonneg (by linarith) (by linarith)
  have hlt : (y - q * (2 * h)) / (2 * h) < 1 := by
    rw [div_lt_one (by linarith)]
    linarith
  rw [roundHalfEven_of_parts hunit h0 hlt]
  have hhalf : 1 / 2 ≤ (y - q * (2 * h)) / (2 * h) ↔ h ≤ m := by
    rw [div_le_div_iff₀ (by norm_num) (by linarith)]
    constructor
    · intro hle
      have hcast : (h : α) < m + 1 := by linarith
      have hnat : h < m + 1 := by exact_mod_cast hcast
      omega
    · intro hle
      have hcast : (h : α) ≤ m := by exact_mod_cast hle
      linarith
  have htie : h ≤ m → ((y - q * (2 * h)) / (2 * h) ≠ 1 / 2 ↔ y ≠ q * (2 * h) + m ∨ m ≠ h) := by
    intro hle
    have hcast : (h : α) ≤ m := by exact_mod_cast hle
    rw [← not_and_or, not_iff_not, div_eq_div_iff (by linarith) (by norm_num)]
    constructor
    · intro heq
      have hle' : (m : α) ≤ h := by linarith
      have hnat : m ≤ h := by exact_mod_cast hle'
      exact ⟨by linarith, by omega⟩
    · rintro ⟨hy, hnat⟩
      rw [hy, hnat]
      ring
  have hodd : (q : ℤ) % 2 = 1 ↔ q % 2 = 1 := by omega
  refine if_congr ?_ rfl rfl
  rw [hhalf, hodd]
  exact and_congr_right fun hup => or_congr_left (htie hup)

theorem roundHalfEven_mono {y : α} (h : x ≤ y) : roundHalfEven x ≤ roundHalfEven y := by
  by_contra hlt
  have hx := roundHalfEven_spec x
  have hy := roundHalfEven_spec y
  have hstep : roundHalfEven y + 1 ≤ roundHalfEven x := by omega
  have hcast : (roundHalfEven y : α) + 1 ≤ roundHalfEven x := by exact_mod_cast hstep
  have heq : x = y := le_antisymm h (by linarith [hx.lower, hy.upper])
  rw [heq] at hlt
  exact hlt le_rfl

theorem roundHalfEven_nonneg (h : 0 ≤ x) : 0 ≤ roundHalfEven x := by
  have := roundHalfEven_mono h
  have hzero : roundHalfEven (0 : α) = 0 := by exact_mod_cast @roundHalfEven_natCast α _ _ _ _ 0
  rwa [hzero] at this

theorem roundHalfEven_le (h : x ≤ n) : roundHalfEven x ≤ n := by
  have := roundHalfEven_mono h
  rwa [roundHalfEven_intCast] at this

theorem le_roundHalfEven (h : (n : α) ≤ x) : n ≤ roundHalfEven x := by
  have := roundHalfEven_mono h
  rwa [roundHalfEven_intCast] at this

theorem IsHalfEven.le_natCast {n m : ℕ} (h : IsHalfEven (m : ℤ) x) (hx : x ≤ n) : m ≤ n := by
  have hle := roundHalfEven_le (show x ≤ ((n : ℤ) : α) by exact_mod_cast hx)
  rw [roundHalfEven_eq h] at hle
  exact_mod_cast hle

theorem IsHalfEven.natCast_le {n m : ℕ} (h : IsHalfEven (m : ℤ) x) (hx : (n : α) ≤ x) : n ≤ m := by
  have hle := le_roundHalfEven (show ((n : ℤ) : α) ≤ x by exact_mod_cast hx)
  rw [roundHalfEven_eq h] at hle
  exact_mod_cast hle

end Equilibrium.Library.Rounding
