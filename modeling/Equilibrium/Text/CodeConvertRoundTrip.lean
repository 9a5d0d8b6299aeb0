import Equilibrium.Text.CodeConvertUtf8
import Equilibrium.Text.CodeConvert

/-! What the decoders of UTF-16 and UTF-32 take from a source. -/

namespace Equilibrium.CodeConvert

open Library

variable {c d n k : ℕ} {rest : List ℕ}

theorem and_highBits (h : c < 2 ^ (n + k)) : c &&& (2 ^ n - 1) <<< k = c / 2 ^ k * 2 ^ k := by
  rw [← Nat.shiftRight_eq_div_pow, ← Nat.shiftLeft_eq]
  refine Nat.eq_of_testBit_eq fun i => ?_
  rw [Nat.testBit_and, Nat.testBit_shiftLeft, Nat.testBit_shiftLeft, Nat.testBit_shiftRight]
  by_cases hki : k ≤ i
  · rw [Nat.add_sub_cancel' hki]
    by_cases hi : i - k < n
    · simp [hki, hi]
    · have hpow : 2 ^ (n + k) ≤ 2 ^ i := Nat.pow_le_pow_right (by decide) (by omega)
      rw [Nat.testBit_lt_two_pow (by omega)]
      simp
  · simp [hki]

theorem cbu16IsLead_iff (hc : c < 2 ^ 16) : cbu16IsLead c = true ↔ 0xd800 ≤ c ∧ c < 0xdc00 := by
  have hand : c &&& 0xfffffc00 = c / 1024 * 1024 := and_highBits (n := 22) (k := 10) (by omega)
  rw [cbu16IsLead, decide_eq_true_eq]
  omega

theorem cbu16IsTrail_iff (hc : c < 2 ^ 16) : cbu16IsTrail c = true ↔ 0xdc00 ≤ c ∧ c < 0xe000 := by
  have hand : c &&& 0xfffffc00 = c / 1024 * 1024 := and_highBits (n := 22) (k := 10) (by omega)
  rw [cbu16IsTrail, decide_eq_true_eq]
  omega

theorem cbu16IsSingle_iff (hc : c < 2 ^ 16) : cbu16IsSingle c = true ↔ c < 0xd800 ∨ 0xdfff < c := by
  have hand : c &&& 0xfffff800 = c / 2048 * 2048 := and_highBits (n := 21) (k := 11) (by omega)
  rw [cbu16IsSingle, decide_eq_true_eq]
  omega

theorem utf16_starts_cases {s : List ℕ} {x : Char} (h : utf16Units x <+: s) :
    (∃ v p, (v < 0xd800 ∨ 0xdfff < v) ∧ s = v :: p) ∨
    (∃ v w p, 0xd800 ≤ v ∧ v < 0xdc00 ∧ 0xdc00 ≤ w ∧ w < 0xe000 ∧ s = v :: w :: p) := by
  have hvalid := toNat_valid x
  obtain ⟨p, rfl⟩ := h
  obtain ⟨h1, h⟩ | ⟨h1, h⟩ := utf16Units_cases x
  · exact .inl ⟨x.toNat, p, by omega, by rw [h]; rfl⟩
  · exact .inr ⟨0xd800 + (x.toNat - 0x10000) / 0x400, 0xdc00 + (x.toNat - 0x10000) % 0x400, p,
      by omega, by omega, by omega, by omega, by rw [h]; rfl⟩

theorem utf16Units_one (hc : c < 2 ^ 16) (h : c < 0xd800 ∨ 0xdfff < c) :
    ∃ x : Char, x.toNat = c ∧ utf16Units x = [c] := by
  obtain ⟨x, hx⟩ := exists_char (v := c) (by omega)
  refine ⟨x, hx, ?_⟩
  obtain ⟨-, h⟩ | ⟨h1, -⟩ := utf16Units_cases x
  · rw [h, hx]
  · omega

theorem utf16Units_two (hc : 0xd800 ≤ c) (hc' : c < 0xdc00) (hd : 0xdc00 ≤ d) (hd' : d < 0xe000) :
    ∃ x : Char, x.toNat = cbu16GetSupplementary c d ∧ utf16Units x = [c, d] := by
  have hvalue : cbu16GetSupplementary c d = (c - 0xd800) * 1024 + (d - 0xdc00) + 0x10000 := by
    have hoffset : 0xd800 <<< 10 + 0xdc00 - 0x10000 = 56613888 := by decide
    have hsum : cbu16GetSupplementary c d = c <<< 10 + d - 56613888 :=
      congrArg (c <<< 10 + d - ·) hoffset
    have hshift : c <<< 10 = c * 1024 := Nat.shiftLeft_eq c 10
    omega
  obtain ⟨x, hx⟩ := exists_char (v := cbu16GetSupplementary c d) (by omega)
  refine ⟨x, hx, ?_⟩
  obtain ⟨h1, -⟩ | ⟨-, h⟩ := utf16Units_cases x
  · omega
  · rw [h, hx]
    simp only [List.cons.injEq, and_true]
    omega

theorem singleUnit_eq (hc : c < 2 ^ 16) :
    singleUnit c = if c < 0xd800 ∨ 0xdfff < c then (true, c) else (false, kErrorCodePoint) := by
  have hsingle := cbu16IsSingle_iff hc
  have hvalid : isValidCodepoint c = true ↔ c < 0xd800 ∨ 0xdfff < c := by
    rw [isValidCodepoint, decide_eq_true_eq]
    omega
  rw [singleUnit]
  by_cases h : c < 0xd800 ∨ 0xdfff < c
  · rw [if_neg (fun hbad => hbad.elim (absurd (hsingle.mpr h)) (absurd (hvalid.mpr h))), if_pos h]
  · rw [if_pos (.inl (mt hsingle.mp h)), if_neg h]

theorem takes_singleUnit (hc : c < 2 ^ 16)
    (hpair : ∀ d p, rest = d :: p → cbu16IsLead c = true → ¬ (0xdc00 ≤ d ∧ d < 0xe000)) :
    Takes utf16 (singleUnit c, rest) (c :: rest) := by
  rw [singleUnit_eq hc]
  by_cases h : c < 0xd800 ∨ 0xdfff < c
  · obtain ⟨x, hx, hunits⟩ := utf16Units_one hc h
    refine .inl ⟨x, by rw [if_pos h, hx], ?_⟩
    exact congrArg (· ++ rest) hunits.symm
  · refine .inr ⟨by rw [if_neg h], [c], rfl, nofun, fun x hx => ?_, .inl rfl⟩
    obtain ⟨v, p, hv, heq⟩ | ⟨v, w, p, hv, hv', hw, hw', heq⟩ := utf16_starts_cases hx
    · have := (List.cons.inj heq).1
      omega
    · obtain ⟨hcv, hrest⟩ := List.cons.inj heq
      exact hpair w p hrest ((cbu16IsLead_iff hc).mpr (by omega)) ⟨hw, hw'⟩

theorem takes_nextUtf16 {s : List ℕ} (hs : ∀ c ∈ s, c < 2 ^ 16) (hne : s ≠ []) :
    Takes utf16 (nextUtf16 s) s := by
  obtain ⟨c, p, rfl⟩ := List.exists_cons_of_ne_nil hne
  have hc := hs c List.mem_cons_self
  cases p with
  | nil => exact takes_singleUnit hc nofun
  | cons d rest =>
    have hd := hs d (List.mem_cons_of_mem c List.mem_cons_self)
    by_cases hpair : cbu16IsLead c = true ∧ cbu16IsTrail d = true
    · have hlead := (cbu16IsLead_iff hc).mp hpair.1
      have htrail := (cbu16IsTrail_iff hd).mp hpair.2
      obtain ⟨x, hx, hunits⟩ := utf16Units_two hlead.1 hlead.2 htrail.1 htrail.2
      rw [nextUtf16, if_pos hpair, ← hx, validated_toNat]
      exact .inl ⟨x, rfl, congrArg (· ++ rest) hunits.symm⟩
    · rw [nextUtf16, if_neg hpair]
      refine takes_singleUnit hc fun t p heq hlead htrail => hpair ⟨hlead, ?_⟩
      exact (cbu16IsTrail_iff hd).mpr ((List.cons.inj heq).1 ▸ htrail)

theorem takes_nextUtf32 {s : List ℕ} (hne : s ≠ []) : Takes utf32 (nextUtf32 s) s := by
  obtain ⟨c, p, rfl⟩ := List.exists_cons_of_ne_nil hne
  by_cases h : isValidCodepoint c = true
  · have hvalid := of_decide_eq_true h
    obtain ⟨x, hx⟩ := exists_char (v := c) (by omega)
    refine .inl ⟨x, ?_, ?_⟩
    · rw [nextUtf32, ← hx, validated_toNat]
    · rw [← hx]
      rfl
  · refine .inr ⟨?_, [c], rfl, nofun, fun x hx => ?_, .inl rfl⟩
    · rw [nextUtf32, validated, if_neg h]
    · obtain ⟨q, hq⟩ := hx
      have hc : x.toNat = c := (List.cons.inj hq).1
      exact h (hc ▸ isValidCodepoint_toNat x)

theorem illFormed_utf16_single (us rest : List ℕ) (h : utf16.IllFormed us rest) : us.length = 1 := by
  obtain ⟨u, vs, rfl⟩ := List.exists_cons_of_ne_nil h.ne_nil
  obtain hlength | ⟨c, hc⟩ := h.start
  case inl => exact hlength
  case inr =>
    have hnot : ¬utf16Units c <+: u :: vs := fun hpre =>
      h.no_char c (hpre.trans (List.prefix_append _ rest))
    have hc : u :: vs <+: utf16Units c := hc
    obtain ⟨-, hunit⟩ | ⟨-, hpair⟩ := utf16Units_cases c
    case inl =>
      rw [hunit] at hc
      rw [List.prefix_nil.mp (List.cons_prefix_cons.mp hc).2]
      rfl
    case inr =>
      rw [hpair] at hc hnot
      obtain ⟨hu, hc'⟩ := List.cons_prefix_cons.mp hc
      rw [hu] at hnot
      cases vs with
      | nil => rfl
      | cons v vs =>
        obtain ⟨hv, hvs⟩ := List.cons_prefix_cons.mp hc'
        rw [hv, List.prefix_nil.mp hvs] at hnot
        exact absurd (List.prefix_refl _) hnot

theorem illFormed_utf32_single (us rest : List ℕ) (h : utf32.IllFormed us rest) : us.length = 1 := by
  obtain ⟨u, vs, rfl⟩ := List.exists_cons_of_ne_nil h.ne_nil
  obtain hlength | ⟨c, hc⟩ := h.start
  case inl => exact hlength
  case inr =>
    have hc : u :: vs <+: [c.toNat] := hc
    rw [List.prefix_nil.mp (List.cons_prefix_cons.mp hc).2]
    rfl

end Equilibrium.CodeConvert

/-! The conversions on every source: the result tells whether the source is well formed, a
well-formed text survives the way back, and an ill-formed part becomes U+FFFD. -/

namespace Equilibrium.CodeConvert

open List (length_append length_cons length_nil mem_map replicate)
open Library Library.CodeForm

variable {F G : CodeForm ℕ} {src : SrcChar} {dest : DestChar} {s out rest us : List ℕ} {k : ℕ}

/-- What a source type has to do with an encoding form. -/
structure Decodes (F : CodeForm ℕ) (src : SrcChar) : Prop where
  isWidth : IsWidth src.width
  takes : ∀ s, s ≠ [] → (∀ u ∈ s, u < 2 ^ (8 * src.width)) → Takes F (src.next s) s
  ascii : ∀ c : Char, c.toNat < 0x80 → F.encode c = [c.toNat]

/-- What a destination type has to do with an encoding form. -/
structure Encodes (G : CodeForm ℕ) (dest : DestChar) : Prop where
  isWidth : IsWidth dest.width
  append : ∀ c : Char, dest.append c.toNat = G.encode c
  ascii : ∀ c : Char, c.toNat < 0x80 → G.encode c = [c.toNat]

/-- The destination with what was written, and the units behind it. -/
def written (out rest : List ℕ) : Dest := ⟨out ++ rest, out.length⟩

theorem put_written (old unit : ℕ) (h : out.length + 1 < 2 ^ 31) :
    (written out (old :: rest)).put unit = some (written (out ++ [unit]) rest) := by
  have hwrite : ArrayWrite.write (out ++ old :: rest) out.length [unit] =
      some ((out ++ [unit]) ++ rest) := by
    rw [ArrayWrite.write_eq (by simp), List.drop_append]
    simp
  simp only [written, Dest.put, if_pos h, hwrite, Option.map_some, length_append,
    List.length_singleton]

theorem puts_written (h : out.length + us.length < 2 ^ 31) (hrest : us.length ≤ rest.length) :
    (written out rest).puts us = some (written (out ++ us) (rest.drop us.length)) := by
  induction us generalizing out rest with
  | nil => rw [List.append_nil]; rfl
  | cons u us ih =>
    rw [length_cons] at h hrest
    obtain ⟨old, rest, rfl⟩ := List.exists_cons_of_length_pos (show 0 < rest.length by omega)
    rw [length_cons] at hrest
    rw [Dest.puts, put_written old u (by omega), Option.bind_some, ih]
    · rw [List.append_assoc, List.singleton_append, length_cons, List.drop_succ_cons]
    · rw [length_append, List.length_singleton]
      omega
    · omega

theorem puts_overflow (hout : out.length < 2 ^ 31) (h : 2 ^ 31 ≤ out.length + us.length)
    (hrest : us.length ≤ rest.length) : (written out rest).puts us = none := by
  induction us generalizing out rest with
  | nil =>
    rw [length_nil] at h
    omega
  | cons u us ih =>
    rw [length_cons] at h hrest
    obtain ⟨old, rest, rfl⟩ := List.exists_cons_of_length_pos (show 0 < rest.length by omega)
    rw [length_cons] at hrest
    rw [Dest.puts]
    by_cases hlast : out.length + 1 < 2 ^ 31
    case pos =>
      rw [put_written old u hlast, Option.bind_some, ih]
      · rwa [length_append, List.length_singleton]
      · rw [length_append, List.length_singleton]
        omega
      · omega
    case neg =>
      have hput : (written out (old :: rest)).put u = none := if_neg hlast
      rw [hput, Option.bind_none]

theorem unitWrites_append (size : ℕ) (us vs : List ℕ) :
    unitWrites size (us ++ vs) = unitWrites size us ++ unitWrites (size + us.length) vs := by
  induction us generalizing size with
  | nil => rfl
  | cons u us ih =>
    rw [List.cons_append, unitWrites, unitWrites, ih, length_cons, List.cons_append,
      Nat.add_assoc, Nat.add_comm 1]

/-- The loop on a source writes the text of its parts, as far as it can be counted. -/
structure Writes (G : CodeForm ℕ) (src : SrcChar) (dest : DestChar) (rounds : ℕ) (s : List ℕ)
    (cs : List (Option Char)) : Prop where
  counted : ∀ success out rest, out.length + (G.encodeAll (replaced cs)).length < 2 ^ 31 →
    (G.encodeAll (replaced cs)).length ≤ rest.length →
    decodeLoop src.next dest.append rounds success (written out rest) s =
      some (success && cs.all (·.isSome), written (out ++ G.encodeAll (replaced cs))
        (rest.drop (G.encodeAll (replaced cs)).length))
  overflow : ∀ success out rest, out.length < 2 ^ 31 →
    2 ^ 31 ≤ out.length + (G.encodeAll (replaced cs)).length →
    (G.encodeAll (replaced cs)).length ≤ rest.length →
    decodeLoop src.next dest.append rounds success (written out rest) s = none
  writes : ∀ size, loopWrites src.next dest.append rounds size s =
    unitWrites size (G.encodeAll (replaced cs))

theorem writes_nil (rounds : ℕ) : Writes G src dest rounds [] [] := by
  have hnil : G.encodeAll (replaced []) = [] := rfl
  constructor
  case counted =>
    intro success out rest _ _
    have hloop : decodeLoop src.next dest.append rounds success (written out rest) [] =
        some (success, written out rest) := by
      cases rounds <;> rfl
    rw [hloop, hnil, List.append_nil, List.all_nil, Bool.and_true]
    rfl
  case overflow =>
    intro success out rest hout hlength _
    rw [hnil, length_nil] at hlength
    omega
  case writes =>
    intro size
    cases rounds <;> rfl

theorem Writes.cons (hG : Encodes G dest) {rounds u : ℕ} {p tail : List ℕ} {c : Option Char}
    {cs : List (Option Char)}
    (hnext : src.next (u :: p) = ((c.isSome, (c.getD '\uFFFD').toNat), tail))
    (h : Writes G src dest rounds tail cs) : Writes G src dest (rounds + 1) (u :: p) (c :: cs) := by
  constructor
  case counted =>
    intro success out rest hlength hrest
    rw [encodeAll_replaced_cons, length_append] at hlength hrest
    rw [decodeLoop, hnext]
    simp only
    rw [hG.append, puts_written (by omega) (by omega), Option.bind_some, h.counted]
    · rw [encodeAll_replaced_cons, List.all_cons, Bool.and_assoc, List.append_assoc out,
        List.drop_drop, length_append]
    · rw [length_append]
      omega
    · rw [List.length_drop]
      omega
  case overflow =>
    intro success out rest hout hlength hrest
    rw [encodeAll_replaced_cons, length_append] at hlength hrest
    rw [decodeLoop, hnext]
    simp only
    rw [hG.append]
    by_cases hfirst : out.length + (G.encode (c.getD '\uFFFD')).length < 2 ^ 31
    case pos =>
      rw [puts_written hfirst (by omega), Option.bind_some, h.overflow]
      · rwa [length_append]
      · rw [length_append]
        omega
      · rw [List.length_drop]
        omega
    case neg => rw [puts_overflow hout (not_lt.mp hfirst) (by omega), Option.bind_none]
  case writes =>
    intro size
    rw [encodeAll_replaced_cons, unitWrites_append, loopWrites, hnext]
    simp only
    rw [hG.append, h.writes]

theorem exists_parts (hF : Decodes F src) (hG : Encodes G dest) (rounds : ℕ)
    (hs : ∀ u ∈ s, u < 2 ^ (8 * src.width)) (hrounds : s.length ≤ rounds) :
    ∃ cs, F.Parts s cs ∧ Writes G src dest rounds s cs := by
  induction rounds generalizing s with
  | zero =>
    obtain rfl := List.length_eq_zero_iff.mp (Nat.le_zero.mp hrounds)
    exact ⟨[], .nil, writes_nil 0⟩
  | succ rounds ih =>
    cases s with
    | nil => exact ⟨[], .nil, writes_nil (rounds + 1)⟩
    | cons u p =>
      -- what is behind the part is shorter, so that the rounds last
      have hbehind : ∀ units, units ≠ [] → u :: p = units ++ (src.next (u :: p)).2 →
          ∃ cs, F.Parts (src.next (u :: p)).2 cs ∧
            Writes G src dest rounds (src.next (u :: p)).2 cs := by
        intro units hne hsplit
        have hlength := congrArg List.length hsplit
        have hpos := List.length_pos_iff.mpr hne
        rw [length_append] at hlength
        exact ih (fun v hv => hs v (hsplit ▸ List.mem_append_right _ hv)) (by omega)
      obtain ⟨c, hnext, hsplit⟩ | ⟨hnext, units, hsplit, hill⟩ := hF.takes (u :: p) nofun hs
      · obtain ⟨cs, hparts, hwrites⟩ := hbehind _ (F.encode_ne_nil c) hsplit
        refine ⟨some c :: cs, ?_, hwrites.cons hG (Prod.ext hnext rfl)⟩
        rw [hsplit]
        exact .char c hparts
      · obtain ⟨cs, hparts, hwrites⟩ := hbehind _ hill.ne_nil hsplit
        refine ⟨none :: cs, ?_, hwrites.cons hG (Prod.ext hnext rfl)⟩
        rw [hsplit]
        exact .illFormed hill hparts

/-- The estimate of the size holds the text of every source. -/
structure Fits (F G : CodeForm ℕ) (src : SrcChar) (dest : DestChar) : Prop where
  size : ∀ c, (G.encode c).length ≤ sizeCoefficient src dest * (F.encode c).length
  replace : (G.encode '\uFFFD').length ≤ sizeCoefficient src dest

theorem sizeCoefficient_le (src : SrcChar) (dest : DestChar) : sizeCoefficient src dest ≤ 4 := by
  unfold sizeCoefficient
  split_ifs <;> decide

theorem le_kMaxCapacity {width n : ℕ} (hw : IsWidth width) (hn : n ≤ 2 ^ 33) :
    n ≤ kMaxCapacity width := by
  unfold kMaxCapacity
  obtain rfl | rfl | rfl := hw <;> omega

theorem castInt32_eq {n : ℕ} (hn : n < 2 ^ 31) : (castInt32 n).toNat = n := by
  unfold castInt32
  rw [Int.bmod_eq_of_le (by omega) (by omega)]
  omega

theorem exists_ascii (hF : Decodes F src) (hG : Encodes G dest) (hs : ∀ u ∈ s, u < 0x80) :
    ∃ ds, s = F.encodeAll ds ∧ s = G.encodeAll ds := by
  induction s with
  | nil => exact ⟨[], rfl, rfl⟩
  | cons u s ih =>
    obtain ⟨ds, hsF, hsG⟩ := ih fun v hv => hs v (List.mem_cons_of_mem u hv)
    have hu := hs u List.mem_cons_self
    obtain ⟨c, rfl⟩ := exists_char (v := u) (by omega)
    refine ⟨c :: ds, ?_, ?_⟩
    · rw [encodeAll_cons, hF.ascii c hu, ← hsF]
      rfl
    · rw [encodeAll_cons, hG.ascii c hu, ← hsG]
      rfl

/-- The units that an `int32_t` counts of a source. -/
def counted (s : List ℕ) : List ℕ := s.take (castInt32 s.length).toNat

theorem counted_eq (h : s.length < 2 ^ 31) : counted s = s := by
  rw [counted, castInt32_eq h, List.take_length]

theorem castInt32_lt (n : ℕ) : castInt32 n < 2 ^ 31 := by
  exact Int.bmod_lt (Nat.two_pow_pos 32)

theorem length_counted_lt (s : List ℕ) : (counted s).length < 2 ^ 31 := by
  have hlt := castInt32_lt s.length
  rw [counted, List.length_take]
  omega

/-- What lets the decoder return. -/
structure Counts (src : SrcChar) (dest : DestChar) (n size : ℕ) : Prop where
  room : n * sizeCoefficient src dest ≤ kMaxCapacity dest.width
  bound : ¬(src.width = 2 ∧ castInt32 n = -2 ^ 31)
  size : size < 2 ^ 31

/-- The decoder writes the text of the units that it counts, or cannot count it. -/
theorem exists_convertDecoded (hF : Decodes F src) (hG : Encodes G dest) (hfits : Fits F G src dest)
    (hs : ∀ u ∈ s, u < 2 ^ (8 * src.width)) (hproduct : s.length * sizeCoefficient src dest < 2 ^ 64) :
    ∃ cs, F.Parts (counted s) cs ∧ loopWrites src.next dest.append s.length 0 (counted s) =
        unitWrites 0 (G.encodeAll (replaced cs)) ∧
      (Counts src dest s.length (G.encodeAll (replaced cs)).length →
        convertDecoded src dest s = some (cs.all (·.isSome), G.encodeAll (replaced cs))) ∧
      (¬Counts src dest s.length (G.encodeAll (replaced cs)).length →
        convertDecoded src dest s = none) := by
  have hcounted : (counted s).length ≤ s.length := List.length_take_le' _ _
  obtain ⟨cs, hparts, hwrites⟩ := exists_parts (s := counted s) hF hG s.length
    (fun u hu => hs u (List.mem_of_mem_take hu)) hcounted
  refine ⟨cs, hparts, hwrites.writes 0, ?_⟩
  have hestimate := hparts.length_encodeAll_le hfits.size hfits.replace
  have hmul : (counted s).length * sizeCoefficient src dest ≤
      s.length * sizeCoefficient src dest := Nat.mul_le_mul_right _ hcounted
  rw [Nat.mul_comm] at hestimate
  have hreserved : reserved src dest s.length = s.length * sizeCoefficient src dest :=
    Nat.mod_eq_of_lt hproduct
  have hrest : (G.encodeAll (replaced cs)).length ≤
      (replicate (s.length * sizeCoefficient src dest) 0).length := by
    rw [List.length_replicate]
    omega
  have hdest : written [] (replicate (s.length * sizeCoefficient src dest) 0) =
      ⟨replicate (s.length * sizeCoefficient src dest) 0, 0⟩ := rfl
  have hrun : (srcLen src s.length = some (castInt32 s.length).toNat) → convertDecoded src dest s =
        if s.length * sizeCoefficient src dest ≤ kMaxCapacity dest.width then
          (decodeLoop src.next dest.append s.length true
            (written [] (replicate (s.length * sizeCoefficient src dest) 0))
              (counted s)).map fun r => (r.1, r.2.units.take r.2.length)
        else none := by
    intro hcount
    rw [convertDecoded, hreserved, hcount]
    split
    case isTrue =>
      simp only [bind, Option.bind_some]
      rw [Option.map_eq_bind]
      rfl
    case isFalse => rfl
  constructor
  case left =>
    intro hcounts
    have hloop := hwrites.counted true [] _ (by rw [length_nil, Nat.zero_add]; exact hcounts.size)
      hrest
    rw [hrun (if_neg hcounts.bound), if_pos hcounts.room, hloop, Option.map_some, List.nil_append,
      Bool.true_and, written, List.take_left]
  case right =>
    intro hcounts
    by_cases hbound : src.width = 2 ∧ castInt32 s.length = -2 ^ 31
    case pos =>
      have hcount : srcLen src s.length = none := if_pos hbound
      rw [convertDecoded, hcount]
      split <;> rfl
    case neg =>
      rw [hrun (if_neg hbound)]
      split
      case isFalse => rfl
      case isTrue hroom =>
        have hsize : 2 ^ 31 ≤ ([] : List ℕ).length + (G.encodeAll (replaced cs)).length := by
          rw [length_nil, Nat.zero_add]
          exact not_lt.mp fun hlt => hcounts ⟨hroom, hbound, hlt⟩
        rw [hwrites.overflow true [] _ (Nat.two_pow_pos 31) hsize hrest, Option.map_none]

theorem convertAscii_eq (hG : Encodes G dest) (hs : ∀ u ∈ s, u < 0x80) :
    convertAscii dest s = if s.length ≤ kMaxCapacity dest.width then some (true, s) else none := by
  have hpow : 2 ^ 8 ≤ 2 ^ (8 * dest.width) := by
    refine Nat.pow_le_pow_right (by decide) ?_
    obtain h | h | h := hG.isWidth <;> omega
  have hmap : s.map (· % 2 ^ (8 * dest.width)) = s.map id := by
    refine List.map_congr_left fun u hu => Nat.mod_eq_of_lt ?_
    have := hs u hu
    omega
  rw [convertAscii, hmap, List.map_id]

theorem doIsStringAscii_iff {width : ℕ} {signed : Bool} (hw : IsWidth width) (offset : ℕ)
    (hs : ∀ u ∈ s, u < 2 ^ (8 * width)) :
    doIsStringAscii width signed offset s = true ↔ ∀ u ∈ s, u < 0x80 :=
  ⟨lt_of_doIsStringAscii hw hs, doIsStringAscii_of_lt hw offset⟩

theorem exists_convert_eq (hF : Decodes F src) (hG : Encodes G dest) (hfits : Fits F G src dest)
    (hs : ∀ u ∈ s, u < 2 ^ (8 * src.width)) :
    ∃ cs, F.Parts s cs ∧ (s.length < 2 ^ 31 → (G.encodeAll (replaced cs)).length < 2 ^ 31 →
      ∀ offset, convert src dest offset s =
        some (cs.all (·.isSome), G.encodeAll (replaced cs))) := by
  obtain ⟨cs, hparts, -⟩ := exists_parts hF hG s.length hs le_rfl
  by_cases hlength : s.length < 2 ^ 31
  case neg => exact ⟨cs, hparts, fun hlt => absurd hlt hlength⟩
  case pos =>
    have hproduct : s.length * sizeCoefficient src dest ≤ 2 ^ 31 * 4 :=
      Nat.mul_le_mul hlength.le (sizeCoefficient_le src dest)
    obtain ⟨cs, hparts, -, hdecoded, -⟩ := exists_convertDecoded hF hG hfits hs (by omega)
    rw [counted_eq hlength] at hparts
    refine ⟨cs, hparts, fun _ hout offset => ?_⟩
    rw [convert]
    split
    case isTrue hnil =>
      have hnil : s = F.encodeAll [] := List.length_eq_zero_iff.mp hnil
      obtain ⟨hall, hcs⟩ := hparts.eq_encodeAll_of_all hnil
      rw [hall, hcs]
      rfl
    case isFalse =>
      split
      case isTrue hascii =>
        have hlt := lt_of_doIsStringAscii hF.isWidth hs hascii
        obtain ⟨ds, hsF, hsG⟩ := exists_ascii hF hG hlt
        obtain ⟨hall, hcs⟩ := hparts.eq_encodeAll_of_all hsF
        rw [convertAscii_eq hG hlt, if_pos (le_kMaxCapacity hG.isWidth (by omega)), hall, hcs, ← hsG]
      case isFalse =>
        refine hdecoded ⟨le_kMaxCapacity hG.isWidth hproduct, fun hbound => ?_, hout⟩
        have hcast : castInt32 s.length = s.length := Int.bmod_eq_of_le (by omega) (by omega)
        omega

/-! The forms of the source and destination types. -/

theorem utf8Units_ascii (c : Char) (h : c.toNat < 0x80) : utf8Units c = [c.toNat] := by
  obtain ⟨-, h⟩ | ⟨h1, -⟩ | ⟨h1, -⟩ | ⟨h1, -⟩ := utf8Units_cases c
  · exact h
  all_goals omega

theorem utf16Units_ascii (c : Char) (h : c.toNat < 0x80) : utf16Units c = [c.toNat] := by
  obtain ⟨-, h⟩ | ⟨h1, -⟩ := utf16Units_cases c
  · exact h
  · omega

theorem decodes_utf8 : Decodes utf8 srcUtf8 :=
  ⟨.inl rfl, fun _ hne hs => takes_nextUtf8 hs hne, utf8Units_ascii⟩

theorem decodes_utf16 : Decodes utf16 srcUtf16 :=
  ⟨.inr (.inl rfl), fun _ hne hs => takes_nextUtf16 hs hne, utf16Units_ascii⟩

theorem decodes_utf32 : Decodes utf32 srcWide :=
  ⟨.inr (.inr rfl), fun _ hne _ => takes_nextUtf32 hne, fun _ _ => rfl⟩

theorem encodes_char8 : Encodes utf8 char8 := ⟨.inl rfl, cbu8Append_eq, utf8Units_ascii⟩

theorem encodes_char16 : Encodes utf16 char16 :=
  ⟨.inr (.inl rfl), cbu16Append_eq, utf16Units_ascii⟩

theorem encodes_char32 : Encodes utf32 char32 :=
  ⟨.inr (.inr rfl), fun _ => rfl, fun _ _ => rfl⟩

theorem length_units (c : Char) : (utf16Units c).length ≤ (utf8Units c).length ∧
      (utf8Units c).length ≤ 3 * (utf16Units c).length ∧ (utf8Units c).length ≤ 4 ∧
      1 ≤ (utf16Units c).length ∧ (utf16Units c).length ≤ 2 := by
  obtain ⟨h1, h8⟩ | ⟨h1, h2, h8⟩ | ⟨h1, h2, h8⟩ | ⟨h1, h8⟩ := utf8Units_cases c <;>
    obtain ⟨h3, h16⟩ | ⟨h3, h16⟩ := utf16Units_cases c <;>
    simp only [h8, h16, length_cons, length_nil] <;>
    omega

theorem fits_utf8_utf16 : Fits utf8 utf16 srcUtf8 char16 :=
  ⟨fun c => (length_units c).1.trans_eq (Nat.one_mul _).symm, by decide⟩

theorem fits_utf8_utf32 : Fits utf8 utf32 srcUtf8 char32 :=
  ⟨fun c => ((length_units c).2.2.2.1.trans (length_units c).1).trans_eq (Nat.one_mul _).symm,
    by decide⟩

theorem fits_utf16_utf8 : Fits utf16 utf8 srcUtf16 char8 :=
  ⟨fun c => (length_units c).2.1, by decide⟩

theorem fits_utf16_utf32 : Fits utf16 utf32 srcUtf16 char32 :=
  ⟨fun c => (length_units c).2.2.2.1.trans_eq (Nat.one_mul _).symm, by decide⟩

theorem fits_utf32_utf8 : Fits utf32 utf8 srcWide char8 :=
  ⟨fun c => (length_units c).2.2.1, by decide⟩

theorem fits_utf32_utf16 : Fits utf32 utf16 srcWide char16 :=
  ⟨fun c => (length_units c).2.2.2.2, by decide⟩

theorem lt_of_mem_utf16 {ds : List Char} : ∀ u ∈ utf16.encodeAll ds, u < 2 ^ 16 := by
  intro u hu
  obtain ⟨c, -, hc⟩ := List.mem_flatMap.mp hu
  have hvalid := toNat_valid c
  have hc : u ∈ utf16Units c := hc
  obtain ⟨h1, h⟩ | ⟨h1, h⟩ := utf16Units_cases c
  all_goals
    simp only [h, List.mem_cons, List.not_mem_nil, or_false] at hc
    omega

theorem lt_of_mem_utf8 {ds : List Char} : ∀ u ∈ utf8.encodeAll ds, u < 2 ^ 8 := by
  intro u hu
  obtain ⟨c, -, hc⟩ := List.mem_flatMap.mp hu
  have hvalid := toNat_valid c
  have hc : u ∈ utf8Units c := hc
  obtain ⟨h1, h⟩ | ⟨h1, h2, h⟩ | ⟨h1, h2, h⟩ | ⟨h1, h⟩ := utf8Units_cases c
  all_goals
    simp only [h, List.mem_cons, List.not_mem_nil, or_false] at hc
    omega

theorem lt_of_mem_utf32 {ds : List Char} : ∀ u ∈ utf32.encodeAll ds, u < 2 ^ 32 := by
  intro u hu
  obtain ⟨c, -, hc⟩ := List.mem_flatMap.mp hu
  have hvalid := toNat_valid c
  have hc : u = c.toNat := List.mem_singleton.mp hc
  omega

/-- What a conversion does to a source, wherever its units lie in memory. -/
structure Converts (F G : CodeForm ℕ) (forth back : ℕ → List ℕ → Option (Bool × List ℕ))
    (s : List ℕ) (ok : Bool) (out : List ℕ) : Prop where
  forth_eq : ∀ offset, forth offset s = some (ok, out)
  ok_iff : ok = true ↔ F.WellFormed s
  back_eq : ok = true → ∀ offset, back offset out = some (true, s)
  wellFormed : G.WellFormed out
  replaced : ∃ cs, F.Parts s cs ∧ out = G.encodeAll (replaced cs)

theorem convert_encodeAll (hF : Decodes F src) (hG : Encodes G dest) (hfits : Fits F G src dest)
    {ds : List Char} (hs : ∀ u ∈ F.encodeAll ds, u < 2 ^ (8 * src.width))
    (hlength : (F.encodeAll ds).length < 2 ^ 31) (hout : (G.encodeAll ds).length < 2 ^ 31)
    (offset : ℕ) : convert src dest offset (F.encodeAll ds) = some (true, G.encodeAll ds) := by
  obtain ⟨cs, hparts, hconvert⟩ := exists_convert_eq hF hG hfits hs
  obtain ⟨hall, hcs⟩ := hparts.eq_encodeAll_of_all rfl
  rw [hall, hcs] at hconvert
  exact hconvert hlength hout offset

theorem exists_converts {srcBack : SrcChar} {destBack : DestChar} (hF : Decodes F src)
    (hG : Encodes G dest) (hfits : Fits F G src dest) (hGBack : Decodes G srcBack)
    (hFBack : Encodes F destBack) (hfitsBack : Fits G F srcBack destBack)
    (hout : ∀ ds, ∀ u ∈ G.encodeAll ds, u < 2 ^ (8 * srcBack.width))
    (hs : ∀ u ∈ s, u < 2 ^ (8 * src.width)) :
    ∃ cs, F.Parts s cs ∧ (s.length < 2 ^ 31 → (G.encodeAll (CodeForm.replaced cs)).length < 2 ^ 31 →
      Converts F G (convert src dest) (convert srcBack destBack) s (cs.all (·.isSome))
        (G.encodeAll (CodeForm.replaced cs))) := by
  obtain ⟨cs, hparts, hconvert⟩ := exists_convert_eq hF hG hfits hs
  refine ⟨cs, hparts, fun hlength hsize => ⟨hconvert hlength hsize, hparts.wellFormed_iff.symm,
    fun hok offset => ?_, ⟨_, rfl⟩, cs, hparts, rfl⟩⟩
  have hback := hparts.eq_encodeAll hok
  have hlength' : (F.encodeAll (CodeForm.replaced cs)).length < 2 ^ 31 := hback ▸ hlength
  have hconvert := convert_encodeAll hGBack hFBack hfitsBack (hout _) hsize hlength' offset
  rw [← hback] at hconvert
  exact hconvert

def bytes (s : List UInt8) : List ℕ := s.map UInt8.toNat

def units (s : List UInt16) : List ℕ := s.map UInt16.toNat

theorem lt_of_mem_bytes {s : List UInt8} : ∀ u ∈ bytes s, u < 2 ^ (8 * srcUtf8.width) := by
  intro u hu
  obtain ⟨b, -, rfl⟩ := mem_map.mp hu
  exact b.toNat_lt

theorem lt_of_mem_units {s : List UInt16} : ∀ u ∈ units s, u < 2 ^ (8 * srcUtf16.width) := by
  intro u hu
  obtain ⟨b, -, rfl⟩ := mem_map.mp hu
  exact b.toNat_lt

/-- A byte string of less than 2^31 bytes, to UTF-16 or to 32 bits and back. A string of
16-bit units, to UTF-8 and back, where the UTF-8 text has less than 2^31 bytes. -/
theorem conversions_spec : (∀ s : List UInt8, s.length < 2 ^ 31 →
      (∃ ok out, Converts utf8 utf16 utf8ToUtf16 utf16ToUtf8 (bytes s) ok out) ∧
      (∃ ok out, Converts utf8 utf32 utf8ToWide wideToUtf8 (bytes s) ok out)) ∧
    (∀ s : List UInt16, ∃ cs, utf16.Parts (units s) cs ∧
      ((utf8.encodeAll (CodeForm.replaced cs)).length < 2 ^ 31 →
        ∃ ok, Converts utf16 utf8 utf16ToUtf8 utf8ToUtf16 (units s) ok
          (utf8.encodeAll (CodeForm.replaced cs)))) := by
  refine ⟨fun s hlength => ⟨?_, ?_⟩, fun s => ?_⟩
  · have hbytes : (bytes s).length < 2 ^ 31 := by rwa [bytes, List.length_map]
    obtain ⟨cs, hparts, hconverts⟩ := exists_converts decodes_utf8 encodes_char16 fits_utf8_utf16
      decodes_utf16 encodes_char8 fits_utf16_utf8 (fun _ => lt_of_mem_utf16)
      (lt_of_mem_bytes)
    have hsize := hparts.length_encodeAll_le fits_utf8_utf16.size fits_utf8_utf16.replace
    have hone : sizeCoefficient srcUtf8 char16 = 1 := rfl
    rw [hone, Nat.one_mul] at hsize
    exact ⟨_, _, hconverts hbytes (by omega)⟩
  · have hbytes : (bytes s).length < 2 ^ 31 := by rwa [bytes, List.length_map]
    obtain ⟨cs, hparts, hconverts⟩ := exists_converts decodes_utf8 encodes_char32 fits_utf8_utf32
      decodes_utf32 encodes_char8 fits_utf32_utf8 (fun _ => lt_of_mem_utf32)
      (lt_of_mem_bytes)
    have hsize := hparts.length_encodeAll_le fits_utf8_utf32.size fits_utf8_utf32.replace
    have hone : sizeCoefficient srcUtf8 char32 = 1 := rfl
    rw [hone, Nat.one_mul] at hsize
    exact ⟨_, _, hconverts hbytes (by omega)⟩
  · obtain ⟨cs, hparts, hconverts⟩ := exists_converts decodes_utf16 encodes_char8 fits_utf16_utf8
      decodes_utf8 encodes_char16 fits_utf8_utf16 (fun _ => lt_of_mem_utf8)
      (lt_of_mem_units)
    have hlength : (units s).length ≤ (utf8.encodeAll (CodeForm.replaced cs)).length := by
      refine hparts.length_le (fun c => (length_units c).1) fun c => ?_
      exact (length_units c).2.2.2.2.trans (by decide)
    exact ⟨cs, hparts, fun hsize => ⟨_, hconverts (by omega) hsize⟩⟩

/-- A euro sign and the start of another, and a letter. -/
theorem conversions_spec_euro :
    (∃ ok out, Converts utf8 utf16 utf8ToUtf16 utf16ToUtf8 (bytes [0xE2, 0x82, 0xAC, 0xE2]) ok out) ∧
    ∃ cs ok, utf16.Parts (units [0x41]) cs ∧ Converts utf16 utf8 utf16ToUtf8 utf8ToUtf16
      (units [0x41]) ok (utf8.encodeAll (CodeForm.replaced cs)) := by
  obtain ⟨cs, hparts, hconverts⟩ := conversions_spec.2 [0x41]
  have hsize := hparts.length_encodeAll_le fits_utf16_utf8.size fits_utf16_utf8.replace
  have hthree : sizeCoefficient srcUtf16 char8 * (units [0x41]).length = 3 := rfl
  obtain ⟨ok, h⟩ := hconverts (by omega)
  exact ⟨(conversions_spec.1 [0xE2, 0x82, 0xAC, 0xE2] (by decide)).1, cs, ok, hparts, h⟩

def wideUnits (s : List UInt32) : List ℕ := s.map UInt32.toNat

theorem lt_of_mem_wideUnits {s : List UInt32} : ∀ u ∈ wideUnits s, u < 2 ^ (8 * srcWide.width) := by
  intro u hu
  obtain ⟨b, -, rfl⟩ := mem_map.mp hu
  exact b.toNat_lt

end Equilibrium.CodeConvert
