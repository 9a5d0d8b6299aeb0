import Equilibrium.Strings.FormatUtf16

/-! Fields of UTF-16 and UTF-32 arguments under every specification: the bytes of a field are
well-formed UTF-8 where the precision does not cut a character. -/

namespace Equilibrium.Format

open CodeConvert Library.CodeForm Format List

variable {spec : Spec} {text : List Char} {arg : Arg}

theorem transcodeUtf32_parts {s : List ℕ} {parts : List (Option Char)} (h : utf32.Parts s parts)
    {src : List UInt32} (hsrc : wideUnits src = s) :
    transcodeUtf32 src = (utf8.encodeAll parts.reduceOption).map toChar := by
  induction h generalizing src with
  | nil =>
    rw [map_eq_nil_iff.mp hsrc]
    rfl
  | char c h ih =>
    obtain ⟨u, rest, rfl, hunit, hrest⟩ := map_eq_cons_iff.mp hsrc
    have hfirst : transcodeUtf32 (u :: rest) = encodeUtf8 u.toNat ++ transcodeUtf32 rest := rfl
    have hencode : (utf8.encode c).map toChar = encodeUtf8 c.toNat := (encodeUtf8_eq c).symm
    rw [hfirst, hunit, ih hrest, List.reduceOption_cons_of_some, encodeAll_cons, List.map_append,
      hencode]
  | @illFormed us rest' cs hill h ih =>
    obtain ⟨v, rfl⟩ := List.length_eq_one_iff.mp (illFormed_utf32_single _ _ hill)
    have hnot : ¬(v < 0xD800 ∨ 0xDFFF < v ∧ v < 0x110000) := fun hchar => by
      obtain ⟨c, rfl⟩ := exists_char hchar
      exact hill.no_char c ⟨rest', rfl⟩
    obtain ⟨u, rest, rfl, hunit, hrest⟩ := map_eq_cons_iff.mp hsrc
    have hfirst : transcodeUtf32 (u :: rest) = encodeUtf8 u.toNat ++ transcodeUtf32 rest := rfl
    rw [hfirst, hunit, encodeUtf8_of_not_char hnot, ih hrest, reduceOption_cons_of_none]
    rfl

/-- The characters that a wide argument holds before its terminator. -/
inductive Reads : Arg → List Char → Prop
  | null16 : Reads (.u16Str none) nullText
  | null32 : Reads (.u32Str none) nullText
  | u16 {src : List UInt16} {parts : List (Option Char)}
      (h : utf16.Parts (units (src.takeWhile (· ≠ 0))) parts) :
    Reads (.u16Str (some src)) parts.reduceOption
  | u32 {src : List UInt32} {parts : List (Option Char)}
      (h : utf32.Parts (wideUnits (src.takeWhile (· ≠ 0))) parts) :
    Reads (.u32Str (some src)) parts.reduceOption

theorem exists_reads_u16 (src : Option (List UInt16)) : ∃ text, Reads (.u16Str src) text := by
  cases src with
  | none => exact ⟨nullText, .null16⟩
  | some src =>
    obtain ⟨cs, hparts, -⟩ := exists_parts decodes_utf16 encodes_char8 _
      (lt_of_mem_units) le_rfl
    exact ⟨_, .u16 hparts⟩

theorem exists_reads_u32 (src : Option (List UInt32)) : ∃ text, Reads (.u32Str src) text := by
  cases src with
  | none => exact ⟨nullText, .null32⟩
  | some src =>
    obtain ⟨cs, hparts, -⟩ := exists_parts decodes_utf32 encodes_char8 _
      (lt_of_mem_wideUnits) le_rfl
    exact ⟨_, .u32 hparts⟩

theorem formatArgValue_wide (h : Reads arg text) (spec : Spec) : formatArgValue textSink arg spec =
      if utf8Length text ≤ kMaxCapacity then
        formatString textSink ((utf8.encodeAll text).map toChar) spec
      else undefined := by
  have hwide : ∀ text, formatWideString textSink spec ((utf8.encodeAll text).map toChar) =
      if utf8Length text ≤ kMaxCapacity then
        formatString textSink ((utf8.encodeAll text).map toChar) spec
      else undefined := by
    intro text
    have hlength : ((utf8.encodeAll text).map toChar).length = utf8Length text := by
      rw [length_map, length_utf8]
    by_cases hroom : utf8Length text ≤ kMaxCapacity
    case pos => rw [if_pos hroom, formatWideString_eq (hlength.trans_le hroom)]
    case neg =>
      have hlong : ¬utf8Length text ≤ 256 := fun hle =>
        hroom (hle.trans (by rw [kMaxCapacity]; decide))
      rw [if_neg hroom, formatWideString, hlength, if_neg hlong, if_neg hroom]
  cases h with
  | null16 =>
    have hroom : utf8Length nullText ≤ kMaxCapacity := by decide
    rw [if_pos hroom]
    rfl
  | null32 =>
    have hroom : utf8Length nullText ≤ kMaxCapacity := by decide
    rw [if_pos hroom]
    rfl
  | u16 hparts => rw [← hwide, formatArgValue, transcodeUtf16_parts hparts rfl]
  | u32 hparts => rw [← hwide, formatArgValue, transcodeUtf32_parts hparts rfl]

/-- How many of `n` bytes a precision leaves. -/
def cutLength (spec : Spec) (n : ℕ) : ℕ :=
  if spec.precision ≥ 0 ∧ (n : ℤ) > spec.precision then spec.precision.toNat else n

/-- The field of a text is all of its characters, or the first of them. -/
structure WholeField (spec : Spec) (text : List Char) : Prop where
  room : utf8Length text ≤ Format.kMaxCapacity
  pad : spec.width - castInt (cutLength spec (utf8Length text)) < 2 ^ 31
  whole : spec.precision < 0 ∨ (utf8Length text : ℤ) ≤ spec.precision ∨
    ∃ k, (utf8Length (text.take k) : ℤ) = spec.precision

theorem alone_ascii {c : Char} (h : c.toNat < 0x80) : utf8.Alone c c.toNat := by
  refine ⟨utf8Units_ascii c h, fun d hd => ?_⟩
  have hd : c.toNat ∈ utf8Units d := hd
  obtain ⟨-, heq⟩ | ⟨-, -, heq⟩ | ⟨-, -, heq⟩ | ⟨-, heq⟩ := utf8Units_cases d
  case inl =>
    rw [heq, mem_singleton] at hd
    exact eq_of_toNat hd.symm
  all_goals
    simp only [heq, mem_cons, not_mem_nil, or_false] at hd
    omega

theorem wellFormed_padded_iff (align : Char) {fill : Char} (hfill : fill.toNat < 0x80) (pad : ℕ)
    (body : List Char) : utf8.WellFormed ((padded align fill pad body).map Char.toNat) ↔
      utf8.WellFormed (body.map Char.toNat) := by
  have hfills := fun m n => (alone_ascii hfill).wellFormed_fill_iff (s := body.map Char.toNat) m n
  rw [padded]
  split_ifs
  · rw [List.map_append, List.map_replicate]
    exact hfills 0 pad
  · rw [List.map_append, List.map_append, List.map_replicate, List.map_replicate]
    exact hfills _ _
  · have hright := hfills pad 0
    rw [List.replicate_zero, List.append_nil] at hright
    rw [List.map_append, List.map_replicate]
    exact hright

theorem toNat_toChar {s : List ℕ} (h : ∀ u ∈ s, u < 2 ^ 8) : (s.map toChar).map Char.toNat = s := by
  rw [map_map]
  refine (map_congr_left fun u hu => ?_).trans (map_id s)
  have hu := h u hu
  obtain ⟨c, rfl⟩ := exists_char (v := u) (by omega)
  have hmod : c.toNat % 256 = c.toNat := Nat.mod_eq_of_lt hu
  rw [Function.comp_apply, toChar, hmod, Char.ofNat_toNat]
  rfl

theorem wellFormed_cut_iff (spec : Spec) (text : List Char) :
    utf8.WellFormed ((utf8.encodeAll text).take (cutLength spec (utf8Length text))) ↔
      spec.precision < 0 ∨ (utf8Length text : ℤ) ≤ spec.precision ∨
        ∃ k, (utf8Length (text.take k) : ℤ) = spec.precision := by
  rw [wellFormed_take_iff, length_utf8]
  simp only [length_utf8]
  unfold cutLength
  by_cases hcut : spec.precision ≥ 0 ∧ (utf8Length text : ℤ) > spec.precision
  case pos =>
    rw [if_pos hcut]
    constructor
    · rintro (hle | ⟨k, hk⟩)
      · omega
      · exact .inr (.inr ⟨k, by omega⟩)
    · rintro (hneg | hle | ⟨k, hk⟩)
      · omega
      · omega
      · exact .inr ⟨k, by omega⟩
  case neg =>
    rw [if_neg hcut]
    refine iff_of_true (.inl le_rfl) ?_
    omega

/-- The field of a wide argument, with a fill that is ASCII. -/
def EmitsUtf8 (arg : Arg) (spec : Spec) : Prop :=
  ∃ out, textOf (formatArgValue textSink arg spec) = some out ∧
    utf8.WellFormed (out.map Char.toNat)

/-- Whatever a UTF-16 or UTF-32 argument holds, its field is well-formed UTF-8 exactly where it is
made up of whole characters, which the precision decides. -/
theorem wide_emitsUtf8_iff (h : Reads arg text) (hfill : spec.fill.toNat < 0x80) :
    EmitsUtf8 arg spec ↔ WholeField spec text := by
  have hrun := formatArgValue_wide h spec
  have hlength : ((utf8.encodeAll text).map toChar).length = utf8Length text := by
    rw [length_map, length_utf8]
  by_cases hroom : utf8Length text ≤ kMaxCapacity
  case neg =>
    rw [if_neg hroom] at hrun
    refine iff_of_false ?_ fun hwhole => hroom hwhole.room
    rintro ⟨out, hout, -⟩
    rw [hrun] at hout
    cases hout
  case pos =>
    have hstring : formatString textSink ((utf8.encodeAll text).map toChar) spec =
        emitAligned textSink (if spec.align ≠ '\x00' then spec.align else '<') spec.fill
          (castInt (cutLength spec (utf8Length text))) spec.width
          (textSink.write (((utf8.encodeAll text).map toChar).take
            (cutLength spec (utf8Length text)))) := by
      rw [← hlength]
      rfl
    rw [if_pos hroom, hstring] at hrun
    by_cases hpad : spec.width - castInt (cutLength spec (utf8Length text)) < 2 ^ 31
    case neg =>
      rw [emitAligned_overflow _ _ _ (not_lt.mp hpad)] at hrun
      refine iff_of_false ?_ fun hwhole => hpad hwhole.pad
      rintro ⟨out, hout, -⟩
      rw [hrun] at hout
      cases hout
    case pos =>
      have htext := (adds_emitAligned textSink_collects
        (if spec.align ≠ '\x00' then spec.align else '<') spec.fill
        (adds_write textSink_collects (((utf8.encodeAll text).map toChar).take
          (cutLength spec (utf8Length text)))) hpad).textOf
      rw [← hrun] at htext
      have hbytes : (((utf8.encodeAll text).map toChar).take
          (cutLength spec (utf8Length text))).map Char.toNat =
            (utf8.encodeAll text).take (cutLength spec (utf8Length text)) := by
        rw [map_take, toNat_toChar lt_of_mem_utf8]
      have hwell := wellFormed_padded_iff (if spec.align ≠ '\x00' then spec.align else '<') hfill
        (spec.width - castInt (cutLength spec (utf8Length text))).toNat
        (((utf8.encodeAll text).map toChar).take (cutLength spec (utf8Length text)))
      rw [hbytes, wellFormed_cut_iff] at hwell
      constructor
      · rintro ⟨out, hout, hout'⟩
        cases htext.symm.trans hout
        exact ⟨hroom, hpad, hwell.mp hout'⟩
      · exact fun hwhole => ⟨_, htext, hwell.mpr hwhole.whole⟩

/-- Every UTF-16 and UTF-32 argument is read as some characters, and its field is decided by
them. -/
theorem wide_emitsUtf8 (hwide : (∃ src, arg = .u16Str src) ∨ ∃ src, arg = .u32Str src)
    (hfill : spec.fill.toNat < 0x80) : (∃ text, Reads arg text) ∧
      ∀ text, Reads arg text → (EmitsUtf8 arg spec ↔ WholeField spec text) := by
  refine ⟨?_, fun text h => wide_emitsUtf8_iff h hfill⟩
  obtain ⟨src, rfl⟩ | ⟨src, rfl⟩ := hwide
  · exact exists_reads_u16 src
  · exact exists_reads_u32 src

theorem reads_euro : Reads (.u16Str (some [0x20AC])) ['€'] := by
  have hunits : units ([0x20AC].takeWhile (· ≠ 0)) = utf16.encodeAll ['€'] := by decide +kernel
  have hparts : utf16.Parts (units ([0x20AC].takeWhile (· ≠ 0))) [some '€'] :=
    hunits ▸ parts_encodeAll ['€']
  exact .u16 hparts

/-- A euro sign has the three bytes that the precision leaves. -/
theorem wide_emitsUtf8_euro :
    EmitsUtf8 (.u16Str (some [0x20AC])) ⟨'*', '^', '-', '\x00', false, false, 8, 3⟩ := by
  refine ((wide_emitsUtf8 (.inl ⟨_, rfl⟩) (by decide)).2 _ reads_euro).mpr ⟨by decide, by decide, ?_⟩
  exact .inr (.inl (by decide))

/-- A precision of one leaves the first byte of a euro sign. -/
theorem euro_cut : parseSpec ['.', '1'] = some ⟨' ', '\x00', '-', '\x00', false, false, 0, 1⟩ ∧
      format (some ['{', ':', '.', '1', '}']) [.u16Str (some [0x20AC])] = some ['\xE2'] ∧
      ¬EmitsUtf8 (.u16Str (some [0x20AC])) ⟨' ', '\x00', '-', '\x00', false, false, 0, 1⟩ := by
  refine ⟨by decide +kernel, by decide +kernel, fun hemits => ?_⟩
  obtain hneg | hle | ⟨k, hk⟩ := ((wide_emitsUtf8_iff reads_euro (by decide)).mp hemits).whole
  · cases hneg
  · cases hle
  · cases k with
    | zero => cases hk
    | succ k =>
      rw [take_succ_cons, take_nil] at hk
      cases hk

end Equilibrium.Format
