import Equilibrium.Strings.FormatFields
import Equilibrium.Text.CodeConvertRoundTrip
import Mathlib.Data.List.ReduceOption

/-! UTF-16 arguments of the formatter. The two decoders and encoders of UTF-16 text, that of the
formatter with its buffers and that of `UTF16ToUTF8`, write the same bytes for a well-formed
text. -/

namespace Equilibrium.Format

open CodeConvert Library.CodeForm List Option

/-! The buffers of `FormatWideString`. -/

/-- The bytes of a code point, of which those inside the buffer are stored. -/
def putBytes (out : ℕ → Char) (outCap written : ℕ) : List Char → ℕ → Char
  | [] => out
  | c :: rest =>
    putBytes (fun j => if j = written ∧ written < outCap then c else out j) outCap (written + 1) rest

/-- `TranscodeUtf16` into a buffer: what is stored, and the count of all bytes. -/
def transcodeUtf16Into (outCap : ℕ) : (ℕ → Char) → ℕ → List UInt16 → (ℕ → Char) × ℕ
  | out, written, [] => (out, written)
  | out, written, [high] =>
    let tmp := encodeUtf8 high.toNat
    (putBytes out outCap written tmp, written + tmp.length)
  | out, written, high :: low :: rest =>
    if high ≥ 0xD800 ∧ high ≤ 0xDBFF ∧ low ≥ 0xDC00 ∧ low ≤ 0xDFFF then
      let tmp := encodeUtf8 (0x10000 + ((high.toNat - 0xD800) <<< 10) + (low.toNat - 0xDC00))
      transcodeUtf16Into outCap (putBytes out outCap written tmp) (written + tmp.length) rest
    else
      let tmp := encodeUtf8 high.toNat
      transcodeUtf16Into outCap (putBytes out outCap written tmp) (written + tmp.length)
        (low :: rest)

/-- The buffer after a text of which what fits was stored from `written` on. -/
def stored (out : ℕ → Char) (outCap written : ℕ) (text : List Char) (j : ℕ) : Char :=
  if written ≤ j ∧ j < written + text.length ∧ j < outCap then text.getD (j - written) '\x00'
  else out j

theorem putBytes_eq (out : ℕ → Char) (outCap written : ℕ) (text : List Char) :
    putBytes out outCap written text = stored out outCap written text := by
  induction text generalizing out written with
  | nil =>
    funext j
    rw [putBytes, stored, length_nil, if_neg (by omega)]
  | cons c rest ih =>
    funext j
    rw [putBytes, ih, stored, stored, length_cons]
    by_cases hj : j = written
    case pos =>
      subst hj
      rw [if_neg (by omega), Nat.sub_self, getD_cons_zero]
      by_cases hcap : j < outCap
      · rw [if_pos ⟨rfl, hcap⟩, if_pos (by omega)]
      · rw [if_neg (by omega), if_neg (by omega)]
    case neg =>
      have hkeep : (if j = written ∧ written < outCap then c else out j) = out j :=
        if_neg fun h => hj h.1
      rw [hkeep]
      by_cases hin : written + 1 ≤ j ∧ j < written + 1 + rest.length ∧ j < outCap
      · rw [if_pos hin, if_pos (by omega), show j - written = j - (written + 1) + 1 by omega,
          getD_cons_succ]
      · rw [if_neg hin, if_neg (by omega)]

theorem stored_append (out : ℕ → Char) (outCap written : ℕ) (text rest : List Char) :
    stored (stored out outCap written text) outCap (written + text.length) rest =
      stored out outCap written (text ++ rest) := by
  funext j
  rw [stored, stored, stored, length_append]
  by_cases hcap : j < outCap
  case neg => rw [if_neg (by omega), if_neg (by omega), if_neg (by omega)]
  case pos =>
    by_cases hfirst : j < written + text.length
    · rw [if_neg (by omega)]
      by_cases hfrom : written ≤ j
      · rw [if_pos (by omega), if_pos (by omega), getD_append _ _ _ _ (by omega)]
      · rw [if_neg (by omega), if_neg (by omega)]
    · by_cases hlast : j < written + (text.length + rest.length)
      · rw [if_pos (by omega), if_pos (by omega), getD_append_right _ _ _ _ (by omega),
          Nat.sub_add_eq]
      · rw [if_neg (by omega), if_neg (by omega), if_neg (by omega)]

theorem transcodeUtf16Into_eq (outCap : ℕ) (out : ℕ → Char) (written : ℕ) (src : List UInt16) :
    transcodeUtf16Into outCap out written src =
      (stored out outCap written (transcodeUtf16 src), written + (transcodeUtf16 src).length) := by
  induction src using transcodeUtf16.induct generalizing out written with
  | case1 =>
    rw [transcodeUtf16Into, transcodeUtf16, ← putBytes_eq]
    rfl
  | case2 high => rw [transcodeUtf16Into, transcodeUtf16, putBytes_eq]
  | case3 high low rest hpair ih =>
    rw [transcodeUtf16Into, transcodeUtf16, if_pos hpair, if_pos hpair]
    rw [ih, putBytes_eq, stored_append, length_append]
    exact congrArg (Prod.mk _) (Nat.add_assoc _ _ _)
  | case4 high low rest hpair ih =>
    rw [transcodeUtf16Into, transcodeUtf16, if_neg hpair, if_neg hpair]
    rw [ih, putBytes_eq, stored_append, length_append]
    exact congrArg (Prod.mk _) (Nat.add_assoc _ _ _)

def buffer (out : ℕ → Char) (length : ℕ) : List Char := (List.range length).map out

theorem buffer_stored (out : ℕ → Char) {outCap : ℕ} {text : List Char}
    (hfits : text.length ≤ outCap) : buffer (stored out outCap 0 text) text.length = text := by
  refine ext_getElem (by simp [buffer]) fun j hj hj' => ?_
  have hin : 0 ≤ j ∧ j < 0 + text.length ∧ j < outCap := by omega
  simp only [buffer, getElem_map, getElem_range, stored]
  rw [if_pos hin, Nat.sub_zero, getD_eq_getElem _ _ hj']

/-- `FormatWideString` with the transcoder of UTF-16: a pass into the buffer on the stack, and one
into a string where that is too small. -/
def formatUtf16 {σ : Type} (sink : Sink σ) (spec : Spec) (src : List UInt16)
    (inlineBuf big : ℕ → Char) : Steps σ Unit :=
  let (out, needed) := transcodeUtf16Into 256 inlineBuf 0 src
  if needed ≤ 256 then formatString sink (buffer out needed) spec
  else if needed ≤ Format.kMaxCapacity then
    formatString sink (buffer (transcodeUtf16Into needed big 0 src).1 needed) spec
  else undefined

theorem formatUtf16_eq {σ : Type} (sink : Sink σ) (spec : Spec) (src : List UInt16)
    (inlineBuf big : ℕ → Char) :
    formatUtf16 sink spec src inlineBuf big = formatWideString sink spec (transcodeUtf16 src) := by
  rw [formatUtf16, transcodeUtf16Into_eq, formatWideString]
  dsimp only
  rw [transcodeUtf16Into_eq, Nat.zero_add]
  split
  case isTrue hinline => rw [buffer_stored _ hinline, take_of_length_le hinline]
  case isFalse =>
    split
    case isTrue => rw [buffer_stored _ le_rfl]
    case isFalse => rfl

/-! The bytes of a well-formed text. -/

theorem toChar_mod (n : ℕ) : toChar (n % 2 ^ 8) = toChar n := by
  have hmod : n % 2 ^ 8 % 256 = n % 256 := by omega
  rw [toChar, hmod, toChar]

theorem encodeUtf8_eq (c : Char) : encodeUtf8 c.toNat = (utf8Units c).map toChar := by
  have hvalid := toNat_valid c
  rw [← cbu8Append_eq, encodeUtf8, cbu8Append]
  by_cases h1 : c.toNat ≤ 0x7f
  case pos => rw [if_pos h1, if_pos h1, map_singleton, toChar_mod]
  case neg =>
    by_cases h2 : c.toNat ≤ 0x7ff
    case pos =>
      rw [if_neg h1, if_pos h2, if_neg h1, if_pos h2]
      simp only [singleton_append, map_cons, map_nil, toChar_mod, Nat.or_comm]
    case neg =>
      by_cases h3 : c.toNat ≤ 0xffff
      case pos =>
        rw [if_neg h1, if_neg h2, if_pos h3, if_neg (by omega), if_neg h1, if_neg h2, if_pos h3]
        simp only [cons_append, nil_append, map_cons, map_nil, toChar_mod,
          Nat.or_comm]
      case neg =>
        rw [if_neg h1, if_neg h2, if_neg h3, if_pos (by omega), if_neg h1, if_neg h2, if_neg h3]
        simp only [cons_append, nil_append, map_cons, map_nil, toChar_mod,
          Nat.or_comm]

variable {text : List Char} {src : List UInt16}

theorem encodeUtf8_of_not_char {v : ℕ} (h : ¬(v < 0xD800 ∨ 0xDFFF < v ∧ v < 0x110000)) :
    encodeUtf8 v = [] := by
  rw [encodeUtf8, if_neg (by omega), if_neg (by omega)]
  by_cases hbasic : v ≤ 0xFFFF
  · rw [if_pos hbasic, if_pos (by omega)]
  · rw [if_neg hbasic, if_neg (by omega)]

theorem illFormed_utf16 {us rest : List ℕ} (h : utf16.IllFormed us rest)
    (hunits : ∀ u ∈ us ++ rest, u < 2 ^ 16) : ∃ u, us = [u] ∧ 0xD800 ≤ u ∧ u ≤ 0xDFFF ∧
      (u ≤ 0xDBFF → ∀ v vs, rest = v :: vs → ¬(0xDC00 ≤ v ∧ v ≤ 0xDFFF)) := by
  obtain ⟨u, rfl⟩ := length_eq_one_iff.mp (illFormed_utf16_single us rest h)
  have hu := hunits u mem_cons_self
  have hsurrogate : ¬(u < 0xd800 ∨ 0xdfff < u) := fun hsingle => by
    obtain ⟨c, -, hc⟩ := utf16Units_one hu hsingle
    exact h.no_char c (hc ▸ prefix_append _ rest)
  refine ⟨u, rfl, by omega, by omega, fun hhigh v vs hrest hlow => ?_⟩
  obtain ⟨c, -, hc⟩ := utf16Units_two (c := u) (by omega) (by omega) hlow.1 (by omega)
  refine h.no_char c ?_
  have hencode : utf16.encode c = [u, v] := hc
  rw [hencode, hrest]
  exact ⟨vs, rfl⟩

theorem lt_of_mem_unit {s : List UInt16} : ∀ u ∈ units s, u < 2 ^ 16 := by
  intro u hu
  obtain ⟨b, -, rfl⟩ := mem_map.mp hu
  exact b.toNat_lt

theorem transcodeUtf16_parts {s : List ℕ} {parts : List (Option Char)} (h : utf16.Parts s parts)
    {src : List UInt16} (hsrc : units src = s) :
    transcodeUtf16 src = (utf8.encodeAll parts.reduceOption).map toChar := by
  induction h generalizing src with
  | nil =>
    rw [map_eq_nil_iff.mp hsrc]
    rfl
  | char c h ih =>
    have hvalid := toNat_valid c
    rw [List.reduceOption_cons_of_some, encodeAll_cons, List.map_append]
    have hencode : (utf8.encode c).map toChar = encodeUtf8 c.toNat := (encodeUtf8_eq c).symm
    have h16 : utf16.encode c = utf16Units c := rfl
    rw [hencode]
    rw [h16] at hsrc
    obtain ⟨hsmall, hunits⟩ | ⟨hlarge, hunits⟩ := utf16Units_cases c
    case inl =>
      rw [hunits] at hsrc
      obtain ⟨high, rest, rfl, hhigh, hrest⟩ := map_eq_cons_iff.mp hsrc
      have hrest' := ih hrest
      rw [← hhigh]
      cases rest with
      | nil => rw [transcodeUtf16, ← hrest', transcodeUtf16, append_nil]
      | cons low rest =>
        have hsingle : ¬(high ≥ 0xD800 ∧ high ≤ 0xDBFF ∧ low ≥ 0xDC00 ∧ low ≤ 0xDFFF) := by
          rintro ⟨hge, hle, -⟩
          have hge' : 0xD800 ≤ high.toNat := hge
          have hle' : high.toNat ≤ 0xDBFF := hle
          omega
        rw [transcodeUtf16, if_neg hsingle, hrest']
    case inr =>
      rw [hunits] at hsrc
      obtain ⟨high, rest, rfl, hhigh, hrest⟩ := map_eq_cons_iff.mp hsrc
      obtain ⟨low, rest, rfl, hlow, hrest⟩ := map_eq_cons_iff.mp hrest
      have hpair : high ≥ 0xD800 ∧ high ≤ 0xDBFF ∧ low ≥ 0xDC00 ∧ low ≤ 0xDFFF := by
        refine ⟨?_, ?_, ?_, ?_⟩
        · change 0xD800 ≤ high.toNat
          omega
        · change high.toNat ≤ 0xDBFF
          omega
        · change 0xDC00 ≤ low.toNat
          omega
        · change low.toNat ≤ 0xDFFF
          omega
      have hvalue : 0x10000 + ((high.toNat - 0xD800) <<< 10) + (low.toNat - 0xDC00) = c.toNat := by
        have hshift : (high.toNat - 0xD800) <<< 10 = (high.toNat - 0xD800) * 1024 :=
          Nat.shiftLeft_eq _ 10
        omega
      rw [transcodeUtf16, if_pos hpair, ih hrest, hvalue]
  | illFormed hill h ih =>
    rw [reduceOption_cons_of_none]
    obtain ⟨u, rfl, hlow, hhigh, hpair⟩ := illFormed_utf16 hill fun u hu => by
      rw [← hsrc] at hu
      exact lt_of_mem_unit u hu
    obtain ⟨high, rest, rfl, hunit, hrest⟩ := map_eq_cons_iff.mp hsrc
    have hnone : encodeUtf8 high.toNat = [] := encodeUtf8_of_not_char (by omega)
    have hrest' := ih hrest
    cases rest with
    | nil => rw [transcodeUtf16, hnone, ← hrest', transcodeUtf16]
    | cons low rest =>
      have hsingle : ¬(high ≥ 0xD800 ∧ high ≤ 0xDBFF ∧ low ≥ 0xDC00 ∧ low ≤ 0xDFFF) := by
        rintro ⟨-, hle, hge', hle'⟩
        have hle : high.toNat ≤ 0xDBFF := hle
        have hge' : 0xDC00 ≤ low.toNat := hge'
        have hle' : low.toNat ≤ 0xDFFF := hle'
        exact hpair (by omega) low.toNat (units rest) hrest.symm ⟨hge', hle'⟩
      rw [transcodeUtf16, if_neg hsingle, hnone, hrest', nil_append]

theorem transcodeUtf16_eq (h : units src = utf16.encodeAll text) :
    transcodeUtf16 src = (utf8.encodeAll text).map toChar := by
  rw [transcodeUtf16_parts (parts_encodeAll text) h, reduceOption, filterMap_map]
  exact congrArg (fun cs => (utf8.encodeAll cs).map toChar) filterMap_some

/-- The bytes of a text in UTF-8. -/
def utf8Length (text : List Char) : ℕ := (text.map Char.utf8Size).sum

theorem length_utf8 (text : List Char) : (utf8.encodeAll text).length = utf8Length text := by
  induction text with
  | nil => rfl
  | cons c text ih =>
    have hsize : (utf8Units c).length = c.utf8Size := by
      rw [← utf8Units_eq, length_map, String.length_utf8EncodeChar]
    rw [encodeAll_cons, length_append, ih, utf8Length, utf8Length, map_cons,
      sum_cons]
    exact congrArg (· + _) hsize

theorem length_utf16_le (text : List Char) :
    (utf16.encodeAll text).length ≤ (utf8.encodeAll text).length := by
  induction text with
  | nil => exact Nat.le_refl 0
  | cons c text ih =>
    rw [encodeAll_cons, encodeAll_cons, length_append, length_append]
    exact Nat.add_le_add (length_units c).1 ih

/-! `UTF16ToUTF8` -/

theorem ascii_iff : (∀ u ∈ utf16.encodeAll text, u < 0x80) ↔ ∀ c ∈ text, c.toNat < 0x80 := by
  constructor
  · intro h c hc
    have hunits : ∀ u ∈ utf16Units c, u < 0x80 := fun u hu => h u (mem_flatMap.mpr ⟨c, hc, hu⟩)
    obtain ⟨-, heq⟩ | ⟨-, heq⟩ := utf16Units_cases c
    · rw [heq] at hunits
      exact hunits c.toNat (by simp)
    · rw [heq] at hunits
      have := hunits (0xd800 + (c.toNat - 0x10000) / 0x400) (by simp)
      omega
  · intro h u hu
    obtain ⟨c, hc, hu⟩ := mem_flatMap.mp hu
    have hunit : utf16.encode c = [c.toNat] := utf16Units_ascii c (h c hc)
    rw [hunit, mem_singleton] at hu
    exact hu ▸ h c hc

theorem utf8_eq_utf16 (h : ∀ c ∈ text, c.toNat < 0x80) :
    utf8.encodeAll text = utf16.encodeAll text := by
  induction text with
  | nil => rfl
  | cons c text ih =>
    have hc := h c mem_cons_self
    have h8 : utf8.encode c = [c.toNat] := utf8Units_ascii c hc
    have h16 : utf16.encode c = [c.toNat] := utf16Units_ascii c hc
    rw [encodeAll_cons, encodeAll_cons, h8, h16, ih fun d hd => h d (mem_cons_of_mem c hd)]

theorem utf16ToUtf8_ascii {s : List ℕ} (hs : ∀ u ∈ s, u < 0x80) (offset : ℕ) :
    utf16ToUtf8 offset s =
      if s.length ≤ CodeConvert.kMaxCapacity 1 then some (true, s) else none := by
  unfold utf16ToUtf8 convert
  split
  case isTrue hnil =>
    rw [if_pos (by rw [hnil]; exact Nat.zero_le _), length_eq_zero_iff.mp hnil]
  case isFalse =>
    have hwidth : IsWidth srcUtf16.width := .inr (.inl rfl)
    rw [if_pos (doIsStringAscii_of_lt hwidth offset hs), convertAscii_eq encodes_char8 hs]
    rfl

theorem length_puts {d d' : Dest} {us : List ℕ} (hd : d.length < 2 ^ 31)
    (h : d.puts us = some d') : d'.length < 2 ^ 31 := by
  induction us generalizing d with
  | nil => exact Option.some.inj h ▸ hd
  | cons u us ih =>
    obtain ⟨d₁, hput, hrest⟩ := bind_eq_some_iff.mp h
    refine ih ?_ hrest
    unfold Dest.put at hput
    split at hput
    case isTrue hlt =>
      obtain ⟨units, -, rfl⟩ := map_eq_some_iff.mp hput
      exact hlt
    case isFalse => cases hput

theorem length_decodeLoop {next : List ℕ → (Bool × ℕ) × List ℕ} {append : ℕ → List ℕ}
    {rounds : ℕ} {success ok : Bool} {d d' : Dest} {s : List ℕ} (hd : d.length < 2 ^ 31)
    (h : decodeLoop next append rounds success d s = some (ok, d')) : d'.length < 2 ^ 31 := by
  induction rounds generalizing success d s with
  | zero =>
    cases s with
    | nil => exact (Prod.mk.inj (Option.some.inj h)).2 ▸ hd
    | cons u s => cases h
  | succ rounds ih =>
    cases s with
    | nil => exact (Prod.mk.inj (Option.some.inj h)).2 ▸ hd
    | cons u s =>
      obtain ⟨d₁, hputs, hrest⟩ := bind_eq_some_iff.mp h
      exact ih (length_puts hd hputs) hrest

theorem length_utf16ToUtf8 {s out : List ℕ} {offset : ℕ} {ok : Bool}
    (hs : ∀ u ∈ s, u < 2 ^ (8 * srcUtf16.width)) (hascii : ¬∀ u ∈ s, u < 0x80)
    (h : utf16ToUtf8 offset s = some (ok, out)) : out.length < 2 ^ 31 := by
  have hwidth : IsWidth srcUtf16.width := .inr (.inl rfl)
  unfold utf16ToUtf8 convert at h
  split at h
  case isTrue hnil =>
    rw [length_eq_zero_iff.mp hnil] at hascii
    exact absurd nofun hascii
  case isFalse =>
    rw [if_neg fun htrue => hascii (lt_of_doIsStringAscii hwidth hs htrue), convertDecoded] at h
    obtain ⟨-, h⟩ := ite_none_right_eq_some.mp h
    obtain ⟨count, -, hrun⟩ := bind_eq_some_iff.mp h
    obtain ⟨⟨ok', d⟩, hloop, heq⟩ := bind_eq_some_iff.mp hrun
    cases heq
    have hlength := length_decodeLoop (Nat.two_pow_pos 31) hloop
    rw [length_take]
    omega

/-! The field of a UTF-16 argument. -/

theorem castInt_nonneg_iff (n : ℕ) : 0 ≤ castInt n ↔ n % 2 ^ 32 < 2 ^ 31 := by
  have hmod : ((n : ℤ) % ((2 ^ 32 : ℕ) : ℤ)) = ((n % 2 ^ 32 : ℕ) : ℤ) := rfl
  have hlt : n % 2 ^ 32 < 2 ^ 32 := Nat.mod_lt _ (Nat.two_pow_pos 32)
  unfold castInt Int.bmod
  rw [hmod]
  generalize n % 2 ^ 32 = r at hlt ⊢
  dsimp only
  split <;> omega

theorem length_le_formatString {data out : List Char} {spec : Spec} (hprecision : spec.precision < 0)
    (h : textOf (formatString textSink data spec) = some out) : data.length ≤ out.length := by
  have hlength : (if spec.precision ≥ 0 ∧ (data.length : ℤ) > spec.precision then
      spec.precision.toNat else data.length) = data.length := if_neg (by omega)
  unfold formatString at h
  simp only [hlength, take_length] at h
  by_cases hpad : 2 ^ 31 ≤ spec.width - castInt data.length
  case pos =>
    rw [emitAligned_overflow _ _ _ hpad] at h
    cases h
  case neg =>
    have htext := (adds_emitAligned textSink_collects
      (if spec.align ≠ '\x00' then spec.align else '<') spec.fill
      (adds_write textSink_collects data) (not_le.mp hpad)).textOf
    rw [htext] at h
    cases h
    rw [length_padded]
    omega

theorem textOf_formatString_bare {spec : Spec} (hwidth : spec.width = 0)
    (hprecision : spec.precision < 0) (data : List Char) :
    textOf (formatString textSink data spec) = some data ↔ data.length % 2 ^ 32 < 2 ^ 31 := by
  have hbody : (stringBody data spec).text = data := by
    rw [stringBody, if_neg (by omega)]
    rfl
  have hlayout : (stringBody data spec).layout spec = data := by
    have hpad : spec.width.toNat - (stringBody data spec).text.length = 0 := by omega
    rw [Body.layout, if_neg (by simp [stringBody]), hpad, padded_zero, hbody]
  have hfield := textOf_formatString_iff data (by omega : 0 ≤ spec.width) (by omega)
  rw [hlayout, hbody, hwidth, castInt_nonneg_iff] at hfield
  rw [hfield]
  constructor
  · rintro (hlt | hmod)
    · omega
    · exact hmod
  · exact .inr

theorem formatArgValue_u16Str (hsrc : units src = utf16.encodeAll text) (hnul : '\x00' ∉ text)
    (spec : Spec) : formatArgValue textSink (.u16Str (some src)) spec =
      formatWideString textSink spec ((utf8.encodeAll text).map toChar) := by
  have hnonzero : src.takeWhile (· ≠ 0) = src := by
    refine takeWhile_eq_self_iff.mpr fun u hu => decide_eq_true ?_
    rintro rfl
    have hmem : 0 ∈ utf16.encodeAll text := hsrc ▸ mem_map.mpr ⟨0, hu, rfl⟩
    obtain ⟨c, hc, hunit⟩ := mem_flatMap.mp hmem
    have hunit : 0 ∈ utf16Units c := hunit
    obtain ⟨-, heq⟩ | ⟨-, heq⟩ := utf16Units_cases c
    · rw [heq, mem_singleton] at hunit
      exact hnul (eq_of_toNat (c := '\x00') hunit ▸ hc)
    · rw [heq] at hunit
      simp only [mem_cons, not_mem_nil, or_false] at hunit
      omega
  rw [formatArgValue, hnonzero, transcodeUtf16_eq hsrc]

/-- The field of a UTF-16 argument has the bytes that `UTF16ToUTF8` gives for it, wherever its
units lie. -/
def Agrees (src : List UInt16) (spec : Spec) : Prop :=
  ∀ offset, ∃ bytes, utf16ToUtf8 offset (units src) = some (true, bytes) ∧
    textOf (formatArgValue textSink (.u16Str (some src)) spec) = some (bytes.map toChar)

/-- A well-formed string without a terminator in it, in a field without a width and a precision,
is written as `UTF16ToUTF8` converts it exactly when its text is shorter than 2^31 bytes, or is
ASCII and counted as positive by an `int`. -/
theorem u16Str_agrees_iff (hsrc : units src = utf16.encodeAll text) (hnul : '\x00' ∉ text)
    {spec : Spec} (hwidth : spec.width = 0) (hprecision : spec.precision < 0) :
    Agrees src spec ↔ utf8Length text < 2 ^ 31 ∨
      (∀ c ∈ text, c.toNat < 0x80) ∧ utf8Length text % 2 ^ 32 < 2 ^ 31 ∧
        utf8Length text ≤ CodeConvert.kMaxCapacity 1 := by
  have hunits : ∀ u ∈ units src, u < 2 ^ (8 * srcUtf16.width) := lt_of_mem_units
  have hrun := formatArgValue_u16Str hsrc hnul spec
  have hlength : ((utf8.encodeAll text).map toChar).length = utf8Length text := by
    rw [length_map, length_utf8]
  have hfield : Format.kMaxCapacity < utf8Length text →
      textOf (formatArgValue textSink (.u16Str (some src)) spec) = none := by
    intro hlarge
    rw [hrun, formatWideString]
    rw [hlength, if_neg (by rw [Format.kMaxCapacity] at hlarge; omega), if_neg (by omega)]
    rfl
  have hbare := textOf_formatString_bare hwidth hprecision ((utf8.encodeAll text).map toChar)
  rw [hlength] at hbare
  constructor
  case mp =>
    intro hagrees
    by_cases hsmall : utf8Length text < 2 ^ 31
    case pos => exact .inl hsmall
    case neg =>
      obtain ⟨bytes, hbytes, hout⟩ := hagrees 0
      have hroom : utf8Length text ≤ Format.kMaxCapacity := by
        by_contra hlarge
        rw [hfield (not_le.mp hlarge)] at hout
        cases hout
      rw [hrun, formatWideString_eq (hlength.trans_le hroom)] at hout
      by_cases hascii : ∀ u ∈ units src, u < 0x80
      case pos =>
        have htext : ∀ c ∈ text, c.toNat < 0x80 := ascii_iff.mp (hsrc ▸ hascii)
        rw [utf16ToUtf8_ascii hascii] at hbytes
        split at hbytes
        case isFalse => cases hbytes
        case isTrue =>
          cases hbytes
          rw [hsrc, ← utf8_eq_utf16 htext] at hout
          exact .inr ⟨htext, hbare.mp hout, hroom⟩
      case neg =>
        have hshort := length_utf16ToUtf8 hunits hascii hbytes
        have hlong := length_le_formatString hprecision hout
        rw [hlength, length_map] at hlong
        omega
  case mpr =>
    rintro (hsmall | ⟨htext, hmod, hroom⟩) offset
    case inl =>
      have hunits' : ∀ u ∈ utf16.encodeAll text, u < 2 ^ (8 * srcUtf16.width) := hsrc ▸ hunits
      have hsize : (utf8.encodeAll text).length < 2 ^ 31 := (length_utf8 text).trans_lt hsmall
      have hroom : utf8Length text ≤ Format.kMaxCapacity := by
        rw [Format.kMaxCapacity]
        omega
      refine ⟨utf8.encodeAll text, ?_, ?_⟩
      · rw [hsrc]
        exact convert_encodeAll decodes_utf16 encodes_char8 fits_utf16_utf8 hunits'
          (Nat.lt_of_le_of_lt (length_utf16_le text) hsize) hsize offset
      · rw [hrun, formatWideString_eq (hlength.trans_le hroom)]
        exact hbare.mpr (by omega)
    case inr =>
      have hascii : ∀ u ∈ units src, u < 0x80 := hsrc ▸ ascii_iff.mpr htext
      refine ⟨units src, ?_, ?_⟩
      · rw [utf16ToUtf8_ascii hascii, hsrc, ← utf8_eq_utf16 htext, length_utf8, if_pos hroom]
      · rw [hrun, formatWideString_eq (hlength.trans_le hroom), hsrc, ← utf8_eq_utf16 htext]
        exact hbare.mpr hmod

theorem u16Str_agrees_iff_euro : Agrees [0x20AC, 0xD83D, 0xDE00] Spec.new := by
  have hsrc : units [0x20AC, 0xD83D, 0xDE00] = utf16.encodeAll ['€', '😀'] := by decide +kernel
  exact (u16Str_agrees_iff hsrc (by decide) rfl (by decide)).mpr (.inl (by decide))

theorem units_letters (n : ℕ) : units (replicate n 0x61) = utf16.encodeAll (replicate n 'a') := by
  induction n with
  | zero => rfl
  | succ n ih =>
    rw [replicate_succ, replicate_succ, encodeAll_cons, ← ih]
    rfl

theorem not_agrees_letters {n : ℕ} (hroom : n ≤ CodeConvert.kMaxCapacity 1)
    (hmod : ¬n % 2 ^ 32 < 2 ^ 31) : ¬Agrees (replicate n 0x61) Spec.new := by
  have hnul : '\x00' ∉ replicate n 'a' := fun h => by
    cases eq_of_mem_replicate h
  have htext : ∀ c ∈ replicate n 'a', c.toNat < 0x80 := fun c hc => by
    rw [eq_of_mem_replicate hc]
    decide
  have hascii : ∀ u ∈ units (replicate n 0x61), u < 0x80 := by
    rw [units_letters]
    exact ascii_iff.mpr htext
  have hlength : (units (replicate n 0x61)).length = n := by
    rw [units, length_map, length_replicate]
  intro hagrees
  obtain ⟨bytes, hbytes, hout⟩ := hagrees 0
  rw [utf16ToUtf8_ascii hascii, hlength, if_pos hroom] at hbytes
  cases hbytes
  have hlength' : ((units (replicate n 0x61)).map toChar).length = n := by
    rw [length_map, hlength]
  rw [formatArgValue_u16Str (units_letters n) hnul, utf8_eq_utf16 htext, ← units_letters,
    formatWideString_eq (hlength'.trans_le hroom)] at hout
  have := (textOf_formatString_bare rfl (by decide) _).mp hout
  rw [hlength'] at this
  exact hmod this

/-- 2^31 + 1 letters are well-formed UTF-16, and are written with spaces behind them. -/
theorem long_u16Str_padded : utf16.WellFormed (units (List.replicate (2 ^ 31 + 1) 0x61)) ∧
      0 ∉ List.replicate (2 ^ 31 + 1) (0x61 : UInt16) ∧ Spec.new.width = 0 ∧
      Spec.new.precision = -1 ∧ ¬Agrees (List.replicate (2 ^ 31 + 1) 0x61) Spec.new := by
  refine ⟨⟨_, units_letters _⟩, fun h => ?_, rfl, rfl, not_agrees_letters ?_ (by omega)⟩
  · cases eq_of_mem_replicate h
  · rw [CodeConvert.kMaxCapacity]
    omega

end Equilibrium.Format
