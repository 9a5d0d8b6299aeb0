import Equilibrium.Library.CodeForm
import Equilibrium.Text.CodeConvert
import Mathlib.Data.Nat.Bitwise

/-! UTF-8, UTF-16 and UTF-32 as encoding forms, and the units that the conversions write. -/

namespace Equilibrium.CodeConvert

open Library

variable {c d : Char} {v : ℕ}

def utf8Units (c : Char) : List ℕ :=
  let v := c.toNat
  if v ≤ 0x7f then [v]
  else if v ≤ 0x7ff then [0xc0 + v / 64, 0x80 + v % 64]
  else if v ≤ 0xffff then [0xe0 + v / 4096, 0x80 + v / 64 % 64, 0x80 + v % 64]
  else [0xf0 + v / 262144, 0x80 + v / 4096 % 64, 0x80 + v / 64 % 64, 0x80 + v % 64]

def utf16Units (c : Char) : List ℕ :=
  let v := c.toNat
  if v ≤ 0xffff then [v]
  else [0xd800 + (v - 0x10000) / 0x400, 0xdc00 + (v - 0x10000) % 0x400]

def utf32Units (c : Char) : List ℕ := [c.toNat]

theorem toNat_valid (c : Char) : c.toNat < 0xD800 ∨ 0xDFFF < c.toNat ∧ c.toNat < 0x110000 := c.valid

theorem eq_of_toNat (h : c.toNat = d.toNat) : c = d := by
  rw [← Char.ofNat_toNat c, h, Char.ofNat_toNat]

theorem exists_char (h : v < 0xD800 ∨ 0xDFFF < v ∧ v < 0x110000) : ∃ c : Char, c.toNat = v :=
  ⟨Char.ofNatAux v h, rfl⟩

theorem utf8Units_cases (c : Char) : (c.toNat ≤ 0x7f ∧ utf8Units c = [c.toNat]) ∨
    (0x7f < c.toNat ∧ c.toNat ≤ 0x7ff ∧ utf8Units c = [0xc0 + c.toNat / 64, 0x80 + c.toNat % 64]) ∨
    (0x7ff < c.toNat ∧ c.toNat ≤ 0xffff ∧
      utf8Units c = [0xe0 + c.toNat / 4096, 0x80 + c.toNat / 64 % 64, 0x80 + c.toNat % 64]) ∨
    (0xffff < c.toNat ∧ utf8Units c = [0xf0 + c.toNat / 262144, 0x80 + c.toNat / 4096 % 64,
      0x80 + c.toNat / 64 % 64, 0x80 + c.toNat % 64]) := by
  rw [utf8Units]
  by_cases h1 : c.toNat ≤ 0x7f
  · exact .inl ⟨h1, if_pos h1⟩
  · by_cases h2 : c.toNat ≤ 0x7ff
    · exact .inr (.inl ⟨by omega, h2, by simp only [if_neg h1, if_pos h2]⟩)
    · by_cases h3 : c.toNat ≤ 0xffff
      · exact .inr (.inr (.inl ⟨by omega, h3, by simp only [if_neg h1, if_neg h2, if_pos h3]⟩))
      · exact .inr (.inr (.inr ⟨by omega, by simp only [if_neg h1, if_neg h2, if_neg h3]⟩))

theorem utf16Units_cases (c : Char) : (c.toNat ≤ 0xffff ∧ utf16Units c = [c.toNat]) ∨
    (0xffff < c.toNat ∧ utf16Units c =
      [0xd800 + (c.toNat - 0x10000) / 0x400, 0xdc00 + (c.toNat - 0x10000) % 0x400]) := by
  rw [utf16Units]
  by_cases h : c.toNat ≤ 0xffff
  · exact .inl ⟨h, if_pos h⟩
  · exact .inr ⟨by omega, if_neg h⟩

theorem utf8Units_eq (c : Char) : (String.utf8EncodeChar c).map UInt8.toNat = utf8Units c := by
  have hvalid := toNat_valid c
  have hencode : String.utf8EncodeChar c = if c.toNat ≤ 0x7f then [UInt8.ofNat c.toNat]
      else if c.toNat ≤ 0x7ff then
        [UInt8.ofNat (c.toNat / 64 % 0x20 + 0xc0), UInt8.ofNat (c.toNat % 0x40 + 0x80)]
      else if c.toNat ≤ 0xffff then
        [UInt8.ofNat (c.toNat / 4096 % 0x10 + 0xe0), UInt8.ofNat (c.toNat / 64 % 0x40 + 0x80),
          UInt8.ofNat (c.toNat % 0x40 + 0x80)]
      else [UInt8.ofNat (c.toNat / 262144 % 0x08 + 0xf0), UInt8.ofNat (c.toNat / 4096 % 0x40 + 0x80),
        UInt8.ofNat (c.toNat / 64 % 0x40 + 0x80), UInt8.ofNat (c.toNat % 0x40 + 0x80)] := rfl
  rw [hencode]
  obtain ⟨h1, h⟩ | ⟨h1, h2, h⟩ | ⟨h1, h2, h⟩ | ⟨h1, h⟩ := utf8Units_cases c
  · rw [if_pos h1, h]
    simp only [List.map_cons, List.map_nil, UInt8.toNat_ofNat', List.cons.injEq, and_true]
    omega
  · rw [if_neg (by omega), if_pos h2, h]
    simp only [List.map_cons, List.map_nil, UInt8.toNat_ofNat', List.cons.injEq, and_true]
    omega
  · rw [if_neg (by omega), if_neg (by omega), if_pos h2, h]
    simp only [List.map_cons, List.map_nil, UInt8.toNat_ofNat', List.cons.injEq, and_true]
    omega
  · rw [if_neg (by omega), if_neg (by omega), if_neg (by omega), h]
    simp only [List.map_cons, List.map_nil, UInt8.toNat_ofNat', List.cons.injEq, and_true]
    omega

theorem utf8_starts (c d : Char) (xs ys : List ℕ) (h : utf8Units c ++ xs = utf8Units d ++ ys) :
    c = d := by
  have hc := toNat_valid c
  have hd := toNat_valid d
  refine eq_of_toNat ?_
  obtain ⟨hc1, heqc⟩ | ⟨hc1, hc2, heqc⟩ | ⟨hc1, hc2, heqc⟩ | ⟨hc1, heqc⟩ := utf8Units_cases c <;>
    obtain ⟨hd1, heqd⟩ | ⟨hd1, hd2, heqd⟩ | ⟨hd1, hd2, heqd⟩ | ⟨hd1, heqd⟩ := utf8Units_cases d <;>
    rw [heqc, heqd] at h <;>
    simp only [List.cons_append, List.nil_append, List.cons.injEq] at h <;>
    omega

theorem utf16_starts (c d : Char) (xs ys : List ℕ) (h : utf16Units c ++ xs = utf16Units d ++ ys) :
    c = d := by
  have hc := toNat_valid c
  have hd := toNat_valid d
  refine eq_of_toNat ?_
  obtain ⟨hc1, heqc⟩ | ⟨hc1, heqc⟩ := utf16Units_cases c <;>
    obtain ⟨hd1, heqd⟩ | ⟨hd1, heqd⟩ := utf16Units_cases d <;>
    rw [heqc, heqd] at h <;>
    simp only [List.cons_append, List.nil_append, List.cons.injEq] at h <;>
    omega

theorem utf8Units_ne_nil (c : Char) : utf8Units c ≠ [] := by
  obtain ⟨-, h⟩ | ⟨-, -, h⟩ | ⟨-, -, h⟩ | ⟨-, h⟩ := utf8Units_cases c <;> rw [h] <;> exact nofun

theorem utf16Units_ne_nil (c : Char) : utf16Units c ≠ [] := by
  obtain ⟨-, h⟩ | ⟨-, h⟩ := utf16Units_cases c <;> rw [h] <;> exact nofun

def utf8 : CodeForm ℕ := ⟨utf8Units, utf8Units_ne_nil, utf8_starts⟩

def utf16 : CodeForm ℕ := ⟨utf16Units, utf16Units_ne_nil, utf16_starts⟩

def utf32 : CodeForm ℕ :=
  ⟨utf32Units, fun _ => nofun, fun _ _ _ _ h => eq_of_toNat (List.cons.inj h).1⟩

end Equilibrium.CodeConvert

/-! What `CBU8_NEXT` takes from a source: a character, or an ill-formed part. -/

namespace Equilibrium.CodeConvert

open Library List Nat

variable {b c t v : ℕ} {p s : List ℕ}

theorem and_lowBits (n k : ℕ) : n &&& (2 ^ k - 1) = n % 2 ^ k := and_two_pow_sub_one_eq_mod n k

theorem or_highBits {y k : ℕ} (n : ℕ) (h : y < 2 ^ k) : y ||| n * 2 ^ k = n * 2 ^ k + y := by
  rw [Nat.or_comm, ← shiftLeft_eq, ← shiftLeft_add_eq_or_of_lt h]

theorem shift_or {y k : ℕ} (n : ℕ) (h : y < 2 ^ k) : n <<< k ||| y = n * 2 ^ k + y := by
  rw [← shiftLeft_add_eq_or_of_lt h, shiftLeft_eq]

theorem cbu8Append_eq (c : Char) : cbu8Append c.toNat = utf8Units c := by
  have hvalid := toNat_valid c
  have hlow : ∀ n, (n &&& 0x3f ||| 0x80) % 2 ^ 8 = 0x80 + n % 64 := fun n => by
    have hand : n &&& 0x3f = n % 64 := and_lowBits n 6
    have hor : n % 64 ||| 0x80 = 0x80 + n % 64 := or_highBits (k := 6) 2 (mod_lt _ (by decide))
    rw [hand, hor]
    omega
  rw [cbu8Append]
  obtain ⟨h1, h⟩ | ⟨h1, h2, h⟩ | ⟨h1, h2, h⟩ | ⟨h1, h⟩ := utf8Units_cases c
  · rw [if_pos h1, h, mod_eq_of_lt (by omega)]
  · have hhigh : c.toNat >>> 6 ||| 0xc0 = 0xc0 + c.toNat / 64 := by
      rw [shiftRight_eq_div_pow]
      exact or_highBits (k := 6) 3 (by omega)
    rw [if_neg (by omega), if_pos h2, h, hhigh, hlow, mod_eq_of_lt (by omega)]
    rfl
  · have hhigh : c.toNat >>> 12 ||| 0xe0 = 0xe0 + c.toNat / 4096 := by
      rw [shiftRight_eq_div_pow]
      exact or_highBits (k := 5) 7 (by omega)
    rw [if_neg (by omega), if_neg (by omega), if_pos h2, h, hhigh, hlow, hlow,
      shiftRight_eq_div_pow, mod_eq_of_lt (by omega)]
    rfl
  · have hhigh : c.toNat >>> 18 ||| 0xf0 = 0xf0 + c.toNat / 262144 := by
      rw [shiftRight_eq_div_pow]
      exact or_highBits (k := 4) 15 (by omega)
    rw [if_neg (by omega), if_neg (by omega), if_neg (by omega), h, hhigh, hlow, hlow, hlow,
      shiftRight_eq_div_pow, shiftRight_eq_div_pow, mod_eq_of_lt (by omega)]
    rfl

theorem cbu16Append_eq (c : Char) : cbu16Append c.toNat = utf16Units c := by
  have hvalid := toNat_valid c
  rw [cbu16Append]
  obtain ⟨h1, h⟩ | ⟨h1, h⟩ := utf16Units_cases c
  · rw [if_pos h1, h, mod_eq_of_lt (by omega)]
  · have hand : c.toNat &&& 0x3ff = c.toNat % 1024 := and_lowBits c.toNat 10
    have hlow : c.toNat % 1024 ||| 0xdc00 = 0xdc00 + c.toNat % 1024 :=
      or_highBits (k := 10) 55 (mod_lt _ (by decide))
    rw [if_neg (by omega), h, hand, hlow, shiftRight_eq_div_pow, mod_eq_of_lt (by omega),
      mod_eq_of_lt (by omega)]
    simp only [List.cons.injEq, and_true]
    omega

theorem isValidCodepoint_toNat (c : Char) : isValidCodepoint c.toNat = true := by
  have hvalid := toNat_valid c
  exact decide_eq_true (by omega)

theorem validated_toNat (c : Char) : validated c.toNat = (true, c.toNat) := by
  rw [validated, isValidCodepoint_toNat, if_pos rfl]

theorem validated_sentinel : validated kSentinel = (false, kErrorCodePoint) := rfl

theorem lead3_iff : ∀ c < 16, ∀ q < 8, (kLead3T1Bits.getD c 0 &&& 1 <<< q ≠ 0 ↔
    (c = 0 ∧ q = 5) ∨ (c = 13 ∧ q = 4) ∨ (c ≠ 0 ∧ c ≠ 13 ∧ (q = 4 ∨ q = 5))) := by
  decide

theorem lead4_iff : ∀ c < 5, ∀ q < 16, (kLead4T1Bits.getD q 0 &&& 1 <<< c ≠ 0 ↔
    (8 ≤ q ∧ q ≤ 11) ∧ (c = 0 → 9 ≤ q) ∧ (c = 4 → q = 8)) := by
  decide

def NoTrail (p : List ℕ) : Prop := ∀ b ∈ p.head?, b < 0x80 ∨ 0xbf < b

theorem lastTrail_cases (c : ℕ) (hp : ∀ b ∈ p, b < 256) :
    (∃ t p', t < 64 ∧ p = (0x80 + t) :: p' ∧ lastTrail c p = (c * 64 + t, p')) ∨
      (NoTrail p ∧ lastTrail c p = (kSentinel, p)) := by
  cases p with
  | nil => exact .inr ⟨nofun, rfl⟩
  | cons b p =>
    have hb := hp b mem_cons_self
    rw [lastTrail]
    by_cases hr : 0x80 ≤ b ∧ b ≤ 0xbf
    · have ht : (b + (2 ^ 8 - 0x80)) % 2 ^ 8 = b - 0x80 := by omega
      refine .inl ⟨b - 0x80, p, by omega, by rw [Nat.add_sub_cancel' hr.1], ?_⟩
      rw [ht, if_pos (by omega), shift_or c (by omega)]
      rfl
    · refine .inr ⟨fun b' hb' => ?_, ?_⟩
      · rw [← Option.some.inj hb']
        omega
      · rw [if_neg (by omega)]

theorem secondTrail_cases (c : ℕ) (hp : ∀ b ∈ p, b < 256) :
    (∃ t p', t < 64 ∧ p = (0x80 + t) :: p' ∧ secondTrail c p = lastTrail (c * 64 + t) p') ∨
      (NoTrail p ∧ secondTrail c p = (kSentinel, p)) := by
  cases p with
  | nil => exact .inr ⟨nofun, rfl⟩
  | cons b p =>
    have hb := hp b mem_cons_self
    rw [secondTrail]
    by_cases hr : 0x80 ≤ b ∧ b ≤ 0xbf
    · have ht : (b + (2 ^ 8 - 0x80)) % 2 ^ 8 = b - 0x80 := by omega
      refine .inl ⟨b - 0x80, p, by omega, by rw [Nat.add_sub_cancel' hr.1], ?_⟩
      rw [ht, if_pos (by omega), shift_or c (by omega)]
      rfl
    · refine .inr ⟨fun b' hb' => ?_, ?_⟩
      · rw [← Option.some.inj hb']
        omega
      · rw [if_neg (by omega)]

theorem utf8Units_two {x t : ℕ} (hx : 2 ≤ x) (hx' : x < 32) (ht : t < 64) :
    ∃ c : Char, c.toNat = x * 64 + t ∧ utf8Units c = [0xc0 + x, 0x80 + t] := by
  obtain ⟨c, hc⟩ := exists_char (v := x * 64 + t) (by omega)
  refine ⟨c, hc, ?_⟩
  obtain ⟨h1, h⟩ | ⟨h1, h2, h⟩ | ⟨h1, h2, h⟩ | ⟨h1, h⟩ := utf8Units_cases c
  · omega
  · rw [h, hc]
    simp only [List.cons.injEq, and_true]
    omega
  · omega
  · omega

theorem utf8Units_three {x t u : ℕ} (hx : x < 16) (ht : t < 64) (hu : u < 64)
    (hlow : x = 0 → 32 ≤ t) (hsurrogate : x = 13 → t < 32) :
    ∃ c : Char, c.toNat = (x * 64 + t) * 64 + u ∧ utf8Units c = [0xe0 + x, 0x80 + t, 0x80 + u] := by
  obtain ⟨c, hc⟩ := exists_char (v := (x * 64 + t) * 64 + u) (by omega)
  refine ⟨c, hc, ?_⟩
  obtain ⟨h1, h⟩ | ⟨h1, h2, h⟩ | ⟨h1, h2, h⟩ | ⟨h1, h⟩ := utf8Units_cases c
  · omega
  · omega
  · rw [h, hc]
    simp only [List.cons.injEq, and_true]
    omega
  · omega

theorem utf8Units_four {x t u w : ℕ} (hx : x < 5) (ht : t < 64) (hu : u < 64) (hw : w < 64)
    (hlow : x = 0 → 16 ≤ t) (hhigh : x = 4 → t < 16) :
    ∃ c : Char, c.toNat = ((x * 64 + t) * 64 + u) * 64 + w ∧
      utf8Units c = [0xf0 + x, 0x80 + t, 0x80 + u, 0x80 + w] := by
  obtain ⟨c, hc⟩ := exists_char (v := ((x * 64 + t) * 64 + u) * 64 + w) (by omega)
  refine ⟨c, hc, ?_⟩
  obtain ⟨h1, h⟩ | ⟨h1, h2, h⟩ | ⟨h1, h2, h⟩ | ⟨h1, h⟩ := utf8Units_cases c
  · omega
  · omega
  · omega
  · rw [h, hc]
    simp only [List.cons.injEq, and_true]
    omega

def Takes (F : CodeForm ℕ) (r : (Bool × ℕ) × List ℕ) (s : List ℕ) : Prop :=
  (∃ c, r.1 = (true, c.toNat) ∧ s = F.encode c ++ r.2) ∨
    (r.1 = (false, kErrorCodePoint) ∧ ∃ units, s = units ++ r.2 ∧ F.IllFormed units r.2)

/-- `CBU8_NEXT` takes a character, or an ill-formed part for which it gives the sentinel. -/
def NextTakes (s : List ℕ) : Prop :=
  (∃ c rest, cbu8Next s = (Char.toNat c, rest) ∧ s = utf8Units c ++ rest) ∨
    ∃ units rest, cbu8Next s = (kSentinel, rest) ∧ s = units ++ rest ∧ utf8.IllFormed units rest

theorem takes_char {s rest : List ℕ} {c : Char} (hnext : cbu8Next s = (c.toNat, rest))
    (hs : s = utf8Units c ++ rest) : NextTakes s := .inl ⟨c, rest, hnext, hs⟩

theorem takes_illFormed {s rest units : List ℕ} (hill : utf8.IllFormed units rest)
    (hnext : cbu8Next s = (kSentinel, rest)) (hs : s = units ++ rest) : NextTakes s :=
  .inr ⟨units, rest, hnext, hs, hill⟩

theorem starts_cases {s : List ℕ} {c : Char} (h : utf8Units c <+: s) :
    (∃ v p, v ≤ 0x7f ∧ s = v :: p) ∨
    (∃ x t p, 2 ≤ x ∧ x < 32 ∧ t < 64 ∧ s = (0xc0 + x) :: (0x80 + t) :: p) ∨
    (∃ x t u p, x < 16 ∧ t < 64 ∧ u < 64 ∧ (x = 0 → 32 ≤ t) ∧ (x = 13 → t < 32) ∧
      s = (0xe0 + x) :: (0x80 + t) :: (0x80 + u) :: p) ∨
    (∃ x t u w p, x < 5 ∧ t < 64 ∧ u < 64 ∧ w < 64 ∧ (x = 0 → 16 ≤ t) ∧ (x = 4 → t < 16) ∧
      s = (0xf0 + x) :: (0x80 + t) :: (0x80 + u) :: (0x80 + w) :: p) := by
  have hvalid := toNat_valid c
  obtain ⟨p, rfl⟩ := h
  obtain ⟨h1, h⟩ | ⟨h1, h2, h⟩ | ⟨h1, h2, h⟩ | ⟨h1, h⟩ := utf8Units_cases c
  · exact .inl ⟨c.toNat, p, h1, by rw [h]; rfl⟩
  · exact .inr (.inl ⟨c.toNat / 64, c.toNat % 64, p, by omega, by omega, by omega,
      by rw [h]; rfl⟩)
  · exact .inr (.inr (.inl ⟨c.toNat / 4096, c.toNat / 64 % 64, c.toNat % 64, p, by omega,
      by omega, by omega, by omega, by omega, by rw [h]; rfl⟩))
  · exact .inr (.inr (.inr ⟨c.toNat / 262144, c.toNat / 4096 % 64, c.toNat / 64 % 64,
      c.toNat % 64, p, by omega, by omega, by omega, by omega, by omega, by omega,
      by rw [h]; rfl⟩))

theorem noTrail_cons {t : ℕ} {p : List ℕ} (h : NoTrail ((0x80 + t) :: p)) : 64 ≤ t := by
  have := h _ rfl
  omega

theorem illFormed_single {b : ℕ} {p : List ℕ} (hb : 0x7f < b) (hb' : b < 0xc2 ∨ 0xf4 < b) :
    utf8.IllFormed [b] p := by
  refine ⟨nofun, fun c hc => ?_, .inl rfl⟩
  obtain ⟨v, q, hv, heq⟩ | ⟨x, t, q, hx, hx', ht, heq⟩ | ⟨x, t, u, q, hx, ht, hu, hl, hh, heq⟩ |
    ⟨x, t, u, w, q, hx, ht, hu, hw, hl, hh, heq⟩ := starts_cases hc
  all_goals
    have := (List.cons.inj heq).1
    omega

theorem illFormed_noTrail {b : ℕ} {p : List ℕ} (hb : 0x7f < b) (hp : NoTrail p) :
    utf8.IllFormed [b] p := by
  refine ⟨nofun, fun c hc => ?_, .inl rfl⟩
  obtain ⟨v, q, hv, heq⟩ | ⟨x, t, q, hx, hx', ht, heq⟩ | ⟨x, t, u, q, hx, ht, hu, hl, hh, heq⟩ |
    ⟨x, t, u, w, q, hx, ht, hu, hw, hl, hh, heq⟩ := starts_cases hc
  · have := (List.cons.inj heq).1
    omega
  all_goals
    obtain ⟨-, hq⟩ := List.cons.inj heq
    have hq' : p = _ := hq
    rw [hq'] at hp
    have := noTrail_cons hp
    omega

theorem illFormed_second {b t : ℕ} {p : List ℕ} (hb : 0xdf < b)
    (ht : ∀ x u, u < 64 → b = 0xe0 + x → t = 0x80 + u →
      ¬ ((x < 16 ∧ (x = 0 → 32 ≤ u) ∧ (x = 13 → u < 32)) ∨
        (16 ≤ x ∧ x < 21 ∧ (x = 16 → 16 ≤ u) ∧ (x = 20 → u < 16)))) :
    utf8.IllFormed [b] (t :: p) := by
  refine ⟨nofun, fun c hc => ?_, .inl rfl⟩
  obtain ⟨v, q, hv, heq⟩ | ⟨x, u, q, hx, hx', hu, heq⟩ | ⟨x, u, w, q, hx, hu, hw, hl, hh, heq⟩ |
    ⟨x, u, w, z, q, hx, hu, hw, hz, hl, hh, heq⟩ := starts_cases hc
  · have := (List.cons.inj heq).1
    omega
  · have := (List.cons.inj heq).1
    omega
  · obtain ⟨hbx, hq⟩ := List.cons.inj heq
    exact ht x u hu hbx (List.cons.inj hq).1 (.inl ⟨hx, hl, hh⟩)
  · obtain ⟨hbx, hq⟩ := List.cons.inj heq
    exact ht (x + 16) u hu (by omega) (List.cons.inj hq).1
      (.inr ⟨by omega, by omega, by omega, by omega⟩)

/-- How many trail bytes a lead byte asks for. -/
def trailCount (b : ℕ) : ℕ :=
  if b ≤ 0x7f then 0 else if b < 0xe0 then 1 else if b < 0xf0 then 2 else 3

theorem utf8Units_eq_cons (c : Char) : ∃ b trail, utf8Units c = b :: trail ∧
    trail.length = trailCount b ∧ ∀ t ∈ trail, 0x80 ≤ t ∧ t ≤ 0xbf := by
  have hvalid := toNat_valid c
  have htrail : ∀ n, 0x80 ≤ 0x80 + n % 64 ∧ 0x80 + n % 64 ≤ 0xbf := fun n => by omega
  obtain ⟨h1, h⟩ | ⟨h1, h2, h⟩ | ⟨h1, h2, h⟩ | ⟨h1, h⟩ := utf8Units_cases c
  · exact ⟨_, _, h, (if_pos h1).symm, forall_mem_nil _⟩
  · refine ⟨_, _, h, ?_, forall_mem_singleton.mpr (htrail _)⟩
    rw [trailCount, if_neg (by omega), if_pos (by omega)]
    rfl
  · refine ⟨_, _, h, ?_, forall_mem_cons.mpr ⟨htrail _,
      forall_mem_singleton.mpr (htrail _)⟩⟩
    rw [trailCount, if_neg (by omega), if_neg (by omega), if_pos (by omega)]
    rfl
  · refine ⟨_, _, h, ?_, forall_mem_cons.mpr ⟨htrail _,
      forall_mem_cons.mpr ⟨htrail _,
      forall_mem_singleton.mpr (htrail _)⟩⟩⟩
    rw [trailCount, if_neg (by omega), if_neg (by omega), if_neg (by omega)]
    rfl

theorem illFormed_cut {c : Char} {units rest p : List ℕ} (h : utf8Units c = units ++ rest)
    (hunits : units ≠ []) (hrest : rest ≠ []) (hp : NoTrail p) : utf8.IllFormed units p := by
  refine ⟨hunits, fun c' hc' => ?_, .inr ⟨c, rest, h.symm⟩⟩
  obtain ⟨b, trail, hc, hlength, -⟩ := utf8Units_eq_cons c
  obtain ⟨b', trail', heq, hlength', htrail⟩ := utf8Units_eq_cons c'
  cases units with
  | nil => exact hunits rfl
  | cons x us =>
    obtain ⟨hb, hus⟩ := List.cons.inj (hc.symm.trans h)
    have hus : trail = us ++ rest := hus
    change utf8Units c' <+: x :: (us ++ p) at hc'
    rw [heq] at hc'
    obtain ⟨hb', hprefix⟩ := cons_prefix_cons.mp hc'
    have hlong : us.length < trail'.length := by
      rw [hlength', hb', ← hb, ← hlength, hus, length_append]
      exact Nat.lt_add_of_pos_right (length_pos_iff.mpr hrest)
    have hget := prefix_iff_getElem?.mp hprefix us.length hlong
    rw [getElem?_append_right le_rfl, Nat.sub_self, ← head?_eq_getElem?] at hget
    have hbyte := htrail _ (getElem_mem hlong)
    have hno := hp _ hget
    omega

theorem illFormed_three {x t : ℕ} {p : List ℕ} (hx : x < 16) (ht : t < 64) (hlow : x = 0 → 32 ≤ t)
    (hsurrogate : x = 13 → t < 32) (hp : NoTrail p) : utf8.IllFormed [0xe0 + x, 0x80 + t] p := by
  obtain ⟨c, -, hc⟩ := utf8Units_three (u := 0) hx ht (by decide) hlow hsurrogate
  have hcut : utf8Units c = [0xe0 + x, 0x80 + t] ++ [0x80] := hc
  exact illFormed_cut hcut (cons_ne_nil _ _) (cons_ne_nil _ _) hp

theorem illFormed_four {x t : ℕ} {p : List ℕ} (hx : x < 5) (ht : t < 64) (hlow : x = 0 → 16 ≤ t)
    (hhigh : x = 4 → t < 16) (hp : NoTrail p) : utf8.IllFormed [0xf0 + x, 0x80 + t] p := by
  obtain ⟨c, -, hc⟩ := utf8Units_four (u := 0) (w := 0) hx ht (by decide) (by decide) hlow hhigh
  have hcut : utf8Units c = [0xf0 + x, 0x80 + t] ++ [0x80, 0x80] := hc
  exact illFormed_cut hcut (cons_ne_nil _ _) (cons_ne_nil _ _) hp

theorem illFormed_four_last {x t u : ℕ} {p : List ℕ} (hx : x < 5) (ht : t < 64) (hu : u < 64)
    (hlow : x = 0 → 16 ≤ t) (hhigh : x = 4 → t < 16) (hp : NoTrail p) :
    utf8.IllFormed [0xf0 + x, 0x80 + t, 0x80 + u] p := by
  obtain ⟨c, -, hc⟩ := utf8Units_four (w := 0) hx ht hu (by decide) hlow hhigh
  have hcut : utf8Units c = [0xf0 + x, 0x80 + t, 0x80 + u] ++ [0x80] := hc
  exact illFormed_cut hcut (cons_ne_nil _ _) (cons_ne_nil _ _) hp

theorem single_iff : ∀ b < 256, (b &&& 0x80 = 0 ↔ b < 0x80) := by decide +kernel

theorem utf8Units_one (h : v < 0x80) : ∃ c : Char, c.toNat = v ∧ utf8Units c = [v] := by
  obtain ⟨c, hc⟩ := exists_char (v := v) (by omega)
  refine ⟨c, hc, ?_⟩
  obtain ⟨-, h⟩ | ⟨h1, h2, h⟩ | ⟨h1, h2, h⟩ | ⟨h1, h⟩ := utf8Units_cases c
  · rw [h, hc]
  all_goals omega

theorem cbu8Next_single (h : c &&& 0x80 = 0) : cbu8Next (c :: p) = (c, p) := by
  cases p <;> rw [cbu8Next, if_pos h]

theorem cbu8Next_low (h : c &&& 0x80 ≠ 0) (hc : c < 0xe0) :
    cbu8Next (c :: p) = if c ≥ 0xc2 then lastTrail (c &&& 0x1f) p else (kSentinel, p) := by
  cases p <;> rw [cbu8Next, if_neg h, if_neg (by omega)]

theorem takes_two (hb : 0xc2 ≤ b) (hb' : b < 0xe0) (hp : ∀ t ∈ p, t < 256) :
    NextTakes (b :: p) := by
  have hnext : cbu8Next (b :: p) = lastTrail (b % 32) p := by
    have hand : b &&& 0x1f = b % 32 := and_lowBits b 5
    rw [cbu8Next_low (mt (single_iff b (by omega)).mp (by omega)) hb', if_pos hb, hand]
  obtain ⟨t, p', ht, rfl, hlast⟩ | ⟨htrail, hlast⟩ := lastTrail_cases (b % 32) hp
  · obtain ⟨c, hc, hunits⟩ := utf8Units_two (x := b % 32) (by omega) (by omega) ht
    have hlead : b = 0xc0 + b % 32 := by omega
    refine takes_char (by rw [hnext, hlast, hc]) ?_
    rw [hunits, ← hlead]
    rfl
  · have hill := illFormed_noTrail (b := b) (by omega) htrail
    exact takes_illFormed hill (by rw [hnext, hlast]) rfl

theorem takes_three (hb : 0xe0 ≤ b) (hb' : b < 0xf0) (hp : ∀ t ∈ p, t < 256) :
    NextTakes (b :: p) := by
  have hsingle : ¬ b &&& 0x80 = 0 := mt (single_iff b (by omega)).mp (by omega)
  have hand : b &&& 0xf = b % 16 := and_lowBits b 4
  cases p with
  | nil =>
    have hill : utf8.IllFormed [b] [] := illFormed_noTrail (by omega) nofun
    refine takes_illFormed hill ?_ rfl
    rw [cbu8Next, if_neg hsingle, if_pos hb]
  | cons t p =>
    have ht := hp t mem_cons_self
    have hshift : t >>> 5 = t / 32 := shiftRight_eq_div_pow t 5
    have hlow : t &&& 0x3f = t % 64 := and_lowBits t 6
    have hbits := lead3_iff (b % 16) (by omega) (t / 32) (by omega)
    by_cases hok : kLead3T1Bits.getD (b % 16) 0 &&& 1 <<< (t / 32) ≠ 0
    · have hnext : cbu8Next (b :: t :: p) = lastTrail (b % 16 * 64 + t % 64) p := by
        rw [cbu8Next, if_neg hsingle, if_pos hb]
        simp only [if_pos hb', hand, hshift, hlow, if_pos hok]
        exact congrArg (lastTrail · p) (shift_or _ (mod_lt t (by decide)))
      have hrange := hbits.mp hok
      have hlead : b = 0xe0 + b % 16 := by omega
      have htrail : t = 0x80 + t % 64 := by omega
      obtain ⟨u, p', hu, rfl, hlast⟩ | ⟨hnone, hlast⟩ :=
        lastTrail_cases (b % 16 * 64 + t % 64) (fun u hu => hp u (mem_cons_of_mem t hu))
      · obtain ⟨c, hc, hunits⟩ := utf8Units_three (x := b % 16) (t := t % 64)
          (by omega) (by omega) hu (by omega) (by omega)
        refine takes_char (by rw [hnext, hlast, hc]) ?_
        rw [hunits, ← hlead, ← htrail]
        rfl
      · have hill := illFormed_three (x := b % 16) (t := t % 64) (by omega) (by omega)
          (by omega) (by omega) hnone
        rw [← hlead, ← htrail] at hill
        exact takes_illFormed hill (by rw [hnext, hlast]) rfl
    · have hrange := mt hbits.mpr hok
      have hill : utf8.IllFormed [b] (t :: p) := illFormed_second (by omega) (by omega)
      refine takes_illFormed hill ?_ rfl
      rw [cbu8Next, if_neg hsingle, if_pos hb]
      simp only [if_pos hb', hand, hshift, hlow, if_neg hok]

theorem takes_four (hb : 0xf0 ≤ b) (hb' : b < 0xf5) (hp : ∀ t ∈ p, t < 256) :
    NextTakes (b :: p) := by
  have hsingle : ¬ b &&& 0x80 = 0 := mt (single_iff b (by omega)).mp (by omega)
  cases p with
  | nil =>
    have hill : utf8.IllFormed [b] [] := illFormed_noTrail (by omega) nofun
    refine takes_illFormed hill ?_ rfl
    rw [cbu8Next, if_neg hsingle, if_pos (by omega)]
  | cons t p =>
    have ht := hp t mem_cons_self
    have hshift : t >>> 4 = t / 16 := shiftRight_eq_div_pow t 4
    have hlow : t &&& 0x3f = t % 64 := and_lowBits t 6
    have hbits := lead4_iff (b - 0xf0) (by omega) (t / 16) (by omega)
    by_cases hok : kLead4T1Bits.getD (t / 16) 0 &&& 1 <<< (b - 0xf0) ≠ 0
    · have hnext : cbu8Next (b :: t :: p) = secondTrail ((b - 0xf0) * 64 + t % 64) p := by
        rw [cbu8Next, if_neg hsingle, if_pos (by omega)]
        simp only [if_neg (show ¬ b < 0xf0 by omega), hshift, hlow]
        rw [if_pos ⟨by omega, hok⟩]
        exact congrArg (secondTrail · p) (shift_or _ (mod_lt t (by decide)))
      have hrange := hbits.mp hok
      have hlead : b = 0xf0 + (b - 0xf0) := by omega
      have htrail : t = 0x80 + t % 64 := by omega
      have hp' : ∀ u ∈ p, u < 256 := fun u hu => hp u (mem_cons_of_mem t hu)
      obtain ⟨u, p', hu, rfl, hsecond⟩ | ⟨hnone, hsecond⟩ :=
        secondTrail_cases ((b - 0xf0) * 64 + t % 64) hp'
      · obtain ⟨w, q, hw, rfl, hlast⟩ | ⟨hnone, hlast⟩ :=
          lastTrail_cases (((b - 0xf0) * 64 + t % 64) * 64 + u)
            (fun w hw => hp' w (mem_cons_of_mem _ hw))
        · obtain ⟨c, hc, hunits⟩ := utf8Units_four (x := b - 0xf0) (t := t % 64)
            (by omega) (by omega) hu hw (by omega) (by omega)
          refine takes_char (by rw [hnext, hsecond, hlast, hc]) ?_
          rw [hunits, ← hlead, ← htrail]
          rfl
        · have hill := illFormed_four_last (x := b - 0xf0) (t := t % 64) (by omega)
            (by omega) hu (by omega) (by omega) hnone
          rw [← hlead, ← htrail] at hill
          exact takes_illFormed hill (by rw [hnext, hsecond, hlast]) rfl
      · have hill := illFormed_four (x := b - 0xf0) (t := t % 64) (by omega) (by omega)
          (by omega) (by omega) hnone
        rw [← hlead, ← htrail] at hill
        exact takes_illFormed hill (by rw [hnext, hsecond]) rfl
    · have hrange := mt hbits.mpr hok
      have hill : utf8.IllFormed [b] (t :: p) := illFormed_second (by omega) (by omega)
      refine takes_illFormed hill ?_ rfl
      rw [cbu8Next, if_neg hsingle, if_pos (by omega)]
      simp only [if_neg (show ¬ b < 0xf0 by omega), hshift, hlow]
      rw [if_neg (fun h => hok h.2)]

/-- `CBU8_NEXT` takes the character that the source starts with, or the longest part that
could start one. -/
theorem nextTakes_of_ne_nil {s : List ℕ} (hs : ∀ b ∈ s, b < 256) (hne : s ≠ []) : NextTakes s := by
  obtain ⟨b, p, rfl⟩ := exists_cons_of_ne_nil hne
  have hb := hs b mem_cons_self
  have hp : ∀ t ∈ p, t < 256 := fun t ht => hs t (mem_cons_of_mem b ht)
  by_cases hone : b < 0x80
  · obtain ⟨c, hc, hunits⟩ := utf8Units_one hone
    refine takes_char ?_ (by rw [hunits]; rfl)
    rw [cbu8Next_single ((single_iff b hb).mpr hone), hc]
  · have hsingle : ¬ b &&& 0x80 = 0 := mt (single_iff b hb).mp hone
    by_cases hlead : 0xc2 ≤ b ∧ b < 0xf5
    · by_cases htwo : b < 0xe0
      · exact takes_two hlead.1 htwo hp
      · by_cases hthree : b < 0xf0
        · exact takes_three (by omega) hthree hp
        · exact takes_four (by omega) hlead.2 hp
    · have hill : ∀ p, utf8.IllFormed [b] p := fun p => illFormed_single (by omega) (by omega)
      by_cases hhigh : b ≥ 0xe0
      · cases p with
        | nil =>
          refine takes_illFormed (hill []) ?_ rfl
          rw [cbu8Next, if_neg hsingle, if_pos hhigh]
        | cons t p =>
          refine takes_illFormed (hill (t :: p)) ?_ rfl
          rw [cbu8Next, if_neg hsingle, if_pos hhigh]
          simp only [if_neg (show ¬ b < 0xf0 by omega)]
          rw [if_neg (by omega)]
      · refine takes_illFormed (hill p) ?_ rfl
        rw [cbu8Next_low hsingle (by omega), if_neg (by omega)]

theorem takes_nextUtf8 {s : List ℕ} (hs : ∀ b ∈ s, b < 256) (hne : s ≠ []) :
    Takes utf8 (nextUtf8 s) s := by
  obtain ⟨c, rest, hnext, heq⟩ | ⟨units, rest, hnext, heq, hill⟩ := nextTakes_of_ne_nil hs hne
  · refine .inl ⟨c, ?_, ?_⟩
    · rw [nextUtf8, hnext, validated_toNat]
    · rw [nextUtf8, hnext]
      exact heq
  · refine .inr ⟨?_, units, ?_, ?_⟩
    · rw [nextUtf8, hnext, validated_sentinel]
    · rw [nextUtf8, hnext]
      exact heq
    · rw [nextUtf8, hnext]
      exact hill

end Equilibrium.CodeConvert
