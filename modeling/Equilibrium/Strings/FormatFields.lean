import Equilibrium.Strings.FormatSinks
import Equilibrium.Strings.FormatGrammar

/-! The width of a field: what is written for a value, against its text and the fill that the
specification asks for. -/

namespace Equilibrium.Format

open List

/-- The text of a value, of a number with its sign and its prefix in front. -/
structure Body where
  number : Bool
  lead : List Char
  rest : List Char

namespace Body

def text (b : Body) : List Char := b.lead ++ b.rest

/-- The text in a field of the specified width. Zeros go between the prefix and the digits of a
number. -/
def layout (b : Body) (spec : Spec) : List Char :=
  let pad := spec.width.toNat - b.text.length
  if b.number ∧ spec.zeroPad ∧ spec.align = '\x00' then b.lead ++ List.replicate pad '0' ++ b.rest
  else
    padded (if spec.align ≠ '\x00' then spec.align else if b.number then '>' else '<')
      spec.fill pad b.text

theorem length_layout (b : Body) (spec : Spec) :
    (b.layout spec).length = max spec.width.toNat b.text.length := by
  rw [layout]
  split_ifs
  · simp only [text, length_append, length_replicate]
    omega
  all_goals
    rw [length_padded]
    omega

end Body

def stringBody (data : List Char) (spec : Spec) : Body where
  number := false
  lead := []
  rest := if spec.precision ≥ 0 ∧ (data.length : ℤ) > spec.precision then
    data.take spec.precision.toNat else data

def integerBody (abs : UInt64) (negative : Bool) (spec : Spec) : Body :=
  if spec.type = 'c' then ⟨false, [], [toChar abs.toNat]⟩
  else
    let (base, upper, pre) := integerBase spec
    let digits := if abs = 0 then ['0'] else digitLoop base upper 64 abs.toNat
    let signChar := if negative then ['-'] else if spec.sign = '+' then ['+']
      else if spec.sign = ' ' then [' '] else []
    ⟨true, signChar ++ pre, digits.reverse⟩

def floatBody (text : List Char) : Body :=
  let sign := text.take 1 |>.filter fun c => c = '-' ∨ c = '+' ∨ c = ' '
  ⟨true, sign, text.drop sign.length⟩

def wideBody (spec : Spec) (transcoded : List Char) : Option Body :=
  if transcoded.length ≤ kMaxCapacity then some (stringBody transcoded spec) else none

def unpadded (arg : Arg) (spec : Spec) : Option Body :=
  match arg with
  | .bool b =>
    if isIntegerType spec.type then some (integerBody (if b then 1 else 0) false spec)
    else some (stringBody (if b then ['t', 'r', 'u', 'e'] else ['f', 'a', 'l', 's', 'e']) spec)
  | .char c =>
    if isIntegerType spec.type then
      some (integerBody (UInt64.ofNat (c.toNat % 256)) false spec)
    else some (stringBody [c] spec)
  | .i64 i =>
    let neg := decide (i < 0)
    some (integerBody (if neg then 0 - i.toUInt64 else i.toUInt64) neg spec)
  | .u64 u => some (integerBody u false spec)
  | .f64 d => (floatText d spec).map floatBody
  | .cStr text => some (stringBody (cString (text.getD nullText)) spec)
  | .strSpan text => some (stringBody text spec)
  | .u16Str text =>
    match text with
    | none => some (stringBody nullText spec)
    | some src => wideBody spec (transcodeUtf16 (src.takeWhile (· ≠ 0)))
  | .u32Str text =>
    match text with
    | none => some (stringBody nullText spec)
    | some src => wideBody spec (transcodeUtf32 (src.takeWhile (· ≠ 0)))
  | .ptr address =>
    some (integerBody address false { spec with alt := true, type := 'x', sign := '-' })
  | .none => some ⟨false, [], ['(', '?', ')']⟩

/-- Where a field keeps its width: it does not for the character that an integer stands for, nor
without a value, and a text that an `int` cannot count must seem as long as the field. -/
structure KeepsWidth (arg : Arg) (spec : Spec) (length : ℕ) : Prop where
  character : spec.type = 'c' → ((∃ i, arg = .i64 i) ∨ ∃ u, arg = .u64 u) → spec.width ≤ 1
  missing : arg = .none → spec.width ≤ 3
  counted : length < 2 ^ 31 ∨ spec.width ≤ castInt length

section Numbers

theorem castInt_of_lt {n : ℕ} (h : n < 2 ^ 31) : castInt n = n := by
  exact Int.bmod_eq_of_le (by omega) (by omega)

theorem castInt_bounds (n : ℕ) : -2 ^ 31 ≤ castInt n ∧ castInt n < 2 ^ 31 := by
  have hle := Int.le_bmod (x := (n : ℤ)) (Nat.two_pow_pos 32)
  have hlt := Int.bmod_lt (x := (n : ℤ)) (Nat.two_pow_pos 32)
  unfold castInt
  generalize Int.bmod (n : ℤ) (2 ^ 32) = z at hle hlt ⊢
  omega

theorem width_bounds {text : List Char} {spec : Spec} (h : parseSpec text = some spec) :
    0 ≤ spec.width ∧ spec.width < 2 ^ 31 := by
  by_cases hsmall : (readSpec text).Small
  · rw [parseSpec_of_small hsmall] at h
    cases h
    refine ⟨?_, hsmall.1⟩
    have hwidth : (readSpec text).width =
        (numberFrom 0 ((parseFlags text).2.takeWhile isDecDigit) : ℤ) := width_parseType _ _
    omega
  · rw [parseSpec_of_large hsmall] at h
    cases h

end Numbers

section Fields

theorem textSink_collects : textSink.Collects fun _ => True where
  takes _ _ _ := rfl
  closed _ _ _ _ := trivial

theorem Adds.textOf {x : Steps (List Char) Unit} {text : List Char}
    (h : Adds (fun _ => True) x text) : textOf x = some text := by
  rw [Format.textOf, h [] trivial]
  rfl

/-- The text is written with the fill that the width asks for where its counted length allows
that. -/
theorem textOf_emitAligned_iff {x : Steps (List Char) Unit} {body : List Char} {width : ℤ}
    (align fill : Char) (hbody : Adds (fun _ => True) x body) (hwidth : 0 ≤ width)
    (hwidth' : width < 2 ^ 31) :
    textOf (emitAligned textSink align fill (castInt body.length) width x) =
        some (padded align fill (width.toNat - body.length) body) ↔
      body.length < 2 ^ 31 ∨ width ≤ castInt body.length := by
  have hbounds := castInt_bounds body.length
  have hcast := fun h : body.length < 2 ^ 31 => castInt_of_lt h
  generalize castInt body.length = n at hbounds hcast ⊢
  by_cases hpad : 2 ^ 31 ≤ width - n
  case pos =>
    rw [emitAligned_overflow align fill x hpad]
    constructor
    · exact fun h => nomatch h
    · omega
  case neg =>
    have htext := (adds_emitAligned textSink_collects align fill hbody (not_le.mp hpad)).textOf
    rw [htext, Option.some_inj]
    constructor
    · intro heq
      have hlength := congrArg List.length heq
      rw [length_padded, length_padded] at hlength
      omega
    · intro hfits
      rw [show (width - n).toNat = width.toNat - body.length by omega]

theorem textOf_formatString_iff (data : List Char) {spec : Spec} (hwidth : 0 ≤ spec.width)
    (hwidth' : spec.width < 2 ^ 31) :
    textOf (formatString textSink data spec) = some ((stringBody data spec).layout spec) ↔
      (stringBody data spec).text.length < 2 ^ 31 ∨
        spec.width ≤ castInt (stringBody data spec).text.length := by
  have hbody : (stringBody data spec).text = data.take
      (if spec.precision ≥ 0 ∧ (data.length : ℤ) > spec.precision then spec.precision.toNat
        else data.length) := by
    rw [Body.text, stringBody, nil_append]
    split_ifs
    · rfl
    · exact take_length.symm
  have hlength : (stringBody data spec).text.length =
      if spec.precision ≥ 0 ∧ (data.length : ℤ) > spec.precision then spec.precision.toNat
        else data.length := by
    rw [hbody, length_take]
    split_ifs <;> omega
  have hlayout : (stringBody data spec).layout spec =
      padded (if spec.align ≠ '\x00' then spec.align else '<') spec.fill
        (spec.width.toNat - (stringBody data spec).text.length) (stringBody data spec).text := by
    rw [Body.layout, if_neg (by simp [stringBody])]
    rfl
  have hrun : formatString textSink data spec =
      emitAligned textSink (if spec.align ≠ '\x00' then spec.align else '<') spec.fill
        (castInt (stringBody data spec).text.length) spec.width
        (textSink.write (stringBody data spec).text) := by
    rw [hlength, hbody]
    rfl
  rw [hlayout, hrun]
  exact textOf_emitAligned_iff _ _ (adds_write textSink_collects _) hwidth hwidth'

theorem integerBody_eq {spec : Spec} (hc : spec.type ≠ 'c') (abs : UInt64) (negative : Bool) :
    ∃ signChar pre digits, (signChar ++ pre ++ digits).length < 2 ^ 31 ∧
      integerBody abs negative spec = ⟨true, signChar ++ pre, digits⟩ ∧
      formatInteger textSink abs negative spec = (if spec.zeroPad ∧ spec.align = '\x00' ∧
            spec.width > (signChar.length + pre.length + digits.length : ℤ) then do
          textSink.writeChars signChar
          textSink.write pre
          emitFill textSink '0'
            (spec.width - (signChar.length + pre.length + digits.length : ℤ)).toNat
          textSink.writeChars digits
        else
          emitAligned textSink (if spec.align ≠ '\x00' then spec.align else '>') spec.fill
              (signChar.length + pre.length + digits.length : ℤ) spec.width do
            textSink.writeChars signChar
            textSink.write pre
            textSink.writeChars digits) := by
  have hpre : (integerBase spec).2.2.length ≤ 2 := by
    unfold integerBase
    split_ifs <;> decide
  refine ⟨if negative then ['-'] else if spec.sign = '+' then ['+']
      else if spec.sign = ' ' then [' '] else [], (integerBase spec).2.2,
    (if abs = 0 then ['0'] else digitLoop (integerBase spec).1 (integerBase spec).2.1 64
      abs.toNat).reverse, ?_, by rw [integerBody, if_neg hc], ?_⟩
  case refine_1 =>
    have hdigits : (if abs = 0 then ['0'] else digitLoop (integerBase spec).1
        (integerBase spec).2.1 64 abs.toNat).length ≤ 64 := by
      split
      · decide
      · exact length_digitLoop _ _ 64 _
    have hsign : (if negative then ['-'] else if spec.sign = '+' then ['+']
        else if spec.sign = ' ' then [' '] else []).length ≤ 1 := by
      split_ifs <;> decide
    rw [length_append, length_append, length_reverse]
    omega
  case refine_2 =>
    rw [formatInteger, if_neg hc]
    simp only [length_reverse]

theorem textOf_formatInteger {spec : Spec} (hc : spec.type ≠ 'c') (hwidth : 0 ≤ spec.width)
    (hwidth' : spec.width < 2 ^ 31) (abs : UInt64) (negative : Bool) :
    textOf (formatInteger textSink abs negative spec) =
        some ((integerBody abs negative spec).layout spec) ∧
      (integerBody abs negative spec).text.length < 2 ^ 31 := by
  obtain ⟨signChar, pre, digits, hlength, hbody, hrun⟩ := integerBody_eq hc abs negative
  rw [hbody, hrun]
  refine ⟨?_, hlength⟩
  have hcount : (signChar.length + pre.length + digits.length : ℤ) =
      ((signChar ++ pre ++ digits).length : ℤ) := by
    simp only [length_append]
    push_cast
    rfl
  rw [hcount]
  have hwrite : Adds (fun _ => True) (do
      textSink.writeChars signChar
      textSink.write pre
      textSink.writeChars digits) (signChar ++ pre ++ digits) := by
    rw [append_assoc]
    exact (adds_writeChars textSink_collects _).bind textSink_collects
      ((adds_write textSink_collects _).bind textSink_collects
        (adds_writeChars textSink_collects _))
  by_cases hzero : spec.zeroPad = true ∧ spec.align = '\x00'
  case pos =>
    have hlayout : Body.layout ⟨true, signChar ++ pre, digits⟩ spec =
        signChar ++ pre ++ replicate (spec.width.toNat - (signChar ++ pre ++ digits).length) '0' ++
          digits := if_pos ⟨rfl, hzero⟩
    rw [hlayout]
    by_cases hwide : spec.width > ((signChar ++ pre ++ digits).length : ℤ)
    case pos =>
      rw [if_pos ⟨hzero.1, hzero.2, hwide⟩,
        show (spec.width - ((signChar ++ pre ++ digits).length : ℤ)).toNat =
          spec.width.toNat - (signChar ++ pre ++ digits).length by omega]
      simp only [append_assoc]
      exact ((adds_writeChars textSink_collects _).bind textSink_collects
        ((adds_write textSink_collects _).bind textSink_collects
          ((adds_emitFill textSink_collects _ _).bind textSink_collects
            (adds_writeChars textSink_collects _)))).textOf
    case neg =>
      rw [if_neg fun h => hwide h.2.2, ← castInt_of_lt hlength,
        show spec.width.toNat - (signChar ++ pre ++ digits).length = 0 by omega,
        replicate_zero, append_nil]
      have htext := (textOf_emitAligned_iff (if spec.align ≠ '\x00' then spec.align else '>')
        spec.fill hwrite hwidth hwidth').mpr (.inl hlength)
      rwa [show spec.width.toNat - (signChar ++ pre ++ digits).length = 0 by omega,
        padded_zero] at htext
  case neg =>
    have hlayout : Body.layout ⟨true, signChar ++ pre, digits⟩ spec =
        padded (if spec.align ≠ '\x00' then spec.align else '>') spec.fill
          (spec.width.toNat - (signChar ++ pre ++ digits).length) (signChar ++ pre ++ digits) :=
      if_neg fun h => hzero h.2
    rw [hlayout, if_neg fun h => hzero ⟨h.1, h.2.1⟩, ← castInt_of_lt hlength]
    exact (textOf_emitAligned_iff _ _ hwrite hwidth hwidth').mpr (.inl hlength)

theorem text_floatBody (text : List Char) : (floatBody text).text = text := by
  rw [Body.text, floatBody]
  cases text with
  | nil => rfl
  | cons c rest =>
    rw [take_succ_cons, take_zero, filter_singleton]
    cases decide (c = '-' ∨ c = '+' ∨ c = ' ') <;> rfl

theorem textOf_formatFloat_iff {d : Library.Binary64} {spec : Spec} {text : List Char}
    (htext : floatText d spec = some text) (hwidth : 0 ≤ spec.width)
    (hwidth' : spec.width < 2 ^ 31) :
    textOf (formatFloat textSink d spec) = some ((floatBody text).layout spec) ↔
      text.length < 2 ^ 31 ∨ spec.width ≤ castInt text.length := by
  have hwrite := adds_write textSink_collects text
  simp only [formatFloat, htext]
  by_cases hzero : spec.zeroPad = true ∧ spec.align = '\x00'
  case pos =>
    have hlayout : (floatBody text).layout spec = (floatBody text).lead ++
        replicate (spec.width.toNat - text.length) '0' ++ (floatBody text).rest := by
      rw [Body.layout, if_pos ⟨rfl, hzero⟩, text_floatBody]
    have hbounds := castInt_bounds text.length
    by_cases hwide : spec.width > castInt text.length
    case pos =>
      rw [if_pos ⟨hzero.1, hzero.2, hwide⟩]
      have hzeros (pad : ℤ) (sign : List Char) : textOf (do
          textSink.writeChars sign
          emitFill textSink '0' pad.toNat
          textSink.write (text.drop sign.length)) =
            some (sign ++ (replicate pad.toNat '0' ++ text.drop sign.length)) :=
        ((adds_writeChars textSink_collects sign).bind textSink_collects
          ((adds_emitFill textSink_collects _ _).bind textSink_collects
            (adds_write textSink_collects _))).textOf
      by_cases hlength : text.length < 2 ^ 31
      case pos =>
        have hcast := castInt_of_lt hlength
        have hpad : checkedInt (spec.width - castInt text.length) =
            some (spec.width - castInt text.length) := if_pos (by omega)
        have hsign : (if castInt text.length > 0 then
            (text.take 1).filter fun c => decide (c = '-' ∨ c = '+' ∨ c = ' ') else []) =
              (floatBody text).lead := by
          cases text with
          | nil => rfl
          | cons c rest => exact if_pos (by rw [hcast, length_cons]; omega)
        simp only [hpad, hsign, hzeros]
        rw [hlayout, hcast, append_assoc,
          show (spec.width - (text.length : ℤ)).toNat = spec.width.toNat - text.length by omega]
        exact ⟨fun _ => .inl hlength, fun _ => rfl⟩
      case neg =>
        refine ⟨fun h => ?_, fun h => by omega⟩
        cases hpad : checkedInt (spec.width - castInt text.length) with
        | none =>
          simp only [hpad] at h
          cases h
        | some pad =>
          have hwritten : pad = spec.width - castInt text.length := by
            rw [checkedInt] at hpad
            split at hpad
            · exact (Option.some.inj hpad).symm
            · cases hpad
          simp only [hpad, hzeros] at h
          have hlengths := congrArg List.length (Option.some.inj h)
          rw [Body.length_layout, text_floatBody] at hlengths
          simp only [length_append, length_replicate, length_drop] at hlengths
          omega
    case neg =>
      have hnone : spec.width.toNat - text.length = 0 := by
        by_cases hlength : text.length < 2 ^ 31
        · have := castInt_of_lt hlength
          omega
        · omega
      have haligned := textOf_emitAligned_iff (if spec.align ≠ '\x00' then spec.align else '>')
        spec.fill hwrite hwidth hwidth'
      rw [hnone, padded_zero] at haligned
      rw [if_neg fun h => hwide h.2.2, hlayout, hnone, replicate_zero, append_nil]
      have hself : (floatBody text).lead ++ (floatBody text).rest = text := text_floatBody text
      rw [hself]
      exact haligned
  case neg =>
    have hlayout : (floatBody text).layout spec =
        padded (if spec.align ≠ '\x00' then spec.align else '>') spec.fill
          (spec.width.toNat - text.length) text := by
      rw [Body.layout, if_neg fun h => hzero h.2, text_floatBody]
      rfl
    rw [hlayout, if_neg fun h => hzero ⟨h.1, h.2.1⟩]
    exact textOf_emitAligned_iff _ _ hwrite hwidth hwidth'

theorem formatWideString_eq {transcoded : List Char} (hroom : transcoded.length ≤ kMaxCapacity)
    (spec : Spec) :
    formatWideString textSink spec transcoded = formatString textSink transcoded spec := by
  rw [formatWideString]
  split
  case isTrue hinline => rw [take_of_length_le hinline]
  case isFalse => rfl

/-- The field has the width that is asked for, or that of a longer text, with the fill where the
alignment puts it. -/
def HasWidth (arg : Arg) (spec : Spec) (body : Body) : Prop :=
  ∃ out, textOf (formatArgValue textSink arg spec) = some out ∧
    out.length = max spec.width.toNat body.text.length ∧ out = body.layout spec

variable {arg : Arg}

theorem hasWidth_iff {spec : Spec} {body : Body} : HasWidth arg spec body ↔
      textOf (formatArgValue textSink arg spec) = some (body.layout spec) := by
  constructor
  · rintro ⟨out, hout, -, rfl⟩
    exact hout
  · intro h
    exact ⟨_, h, body.length_layout spec, rfl⟩

theorem keepsWidth_iff {spec : Spec} {length : ℕ}
    (hinteger : spec.type = 'c' → (¬∃ i, arg = .i64 i) ∧ ¬∃ u, arg = .u64 u) (hnone : arg ≠ .none) :
    KeepsWidth arg spec length ↔ length < 2 ^ 31 ∨ spec.width ≤ castInt length := by
  refine ⟨KeepsWidth.counted, fun h => ⟨fun hc hany => ?_, fun hno => absurd hno hnone, h⟩⟩
  obtain hi | hu := hany
  · exact absurd hi (hinteger hc).1
  · exact absurd hu (hinteger hc).2

variable {spec : Spec} {body : Body}

theorem ne_c_of_isIntegerType (h : isIntegerType spec.type = true) : spec.type ≠ 'c' := by
  intro hc
  rw [hc] at h
  cases h

section

variable (hwidth : 0 ≤ spec.width) (hwidth' : spec.width < 2 ^ 31)

include hwidth hwidth'

theorem hasWidth_string {data : List Char}
    (hrun : formatArgValue textSink arg spec = formatString textSink data spec)
    (hbody : stringBody data spec = body) (hinteger : (¬∃ i, arg = .i64 i) ∧ ¬∃ u, arg = .u64 u)
    (hnone : arg ≠ .none) : HasWidth arg spec body ↔ KeepsWidth arg spec body.text.length := by
  subst hbody
  rw [hasWidth_iff, keepsWidth_iff (fun _ => hinteger) hnone, hrun]
  exact textOf_formatString_iff data hwidth hwidth'

theorem hasWidth_integer {abs : UInt64} {negative : Bool}
    (hrun : formatArgValue textSink arg spec = formatInteger textSink abs negative spec)
    (hbody : integerBody abs negative spec = body) (hc : spec.type ≠ 'c') (hnone : arg ≠ .none) :
    HasWidth arg spec body ↔ KeepsWidth arg spec body.text.length := by
  subst hbody
  obtain ⟨htext, hlength⟩ := textOf_formatInteger hc hwidth hwidth' abs negative
  rw [hasWidth_iff, keepsWidth_iff (fun h => absurd h hc) hnone, hrun]
  exact ⟨fun _ => .inl hlength, fun _ => htext⟩

omit hwidth' in
/-- What is written without its field has the width of a narrow one only. -/
theorem hasWidth_bare (hrun : textOf (formatArgValue textSink arg spec) = some body.text) :
    HasWidth arg spec body ↔ spec.width ≤ body.text.length := by
  constructor
  · rintro ⟨out, hout, hlength, -⟩
    cases hrun.symm.trans hout
    omega
  · intro hle
    have hpad : spec.width.toNat - body.text.length = 0 := by omega
    rw [hasWidth_iff, hrun, Body.layout, hpad]
    split_ifs
    · rw [replicate_zero, append_nil]
      rfl
    all_goals rw [padded_zero]

omit hwidth' in
/-- The character that an integer stands for. -/
theorem hasWidth_character {abs : UInt64} {negative : Bool}
    (hrun : formatArgValue textSink arg spec = formatInteger textSink abs negative spec)
    (hbody : integerBody abs negative spec = body) (hc : spec.type = 'c')
    (harg : (∃ i, arg = .i64 i) ∨ ∃ u, arg = .u64 u) :
    HasWidth arg spec body ↔ KeepsWidth arg spec body.text.length := by
  have hchar : body = ⟨false, [], [toChar abs.toNat]⟩ := by rw [← hbody, integerBody, if_pos hc]
  have hone : body.text.length = 1 := by rw [hchar]; rfl
  have hnone : arg ≠ .none := by
    rintro rfl
    obtain ⟨i, hi⟩ | ⟨u, hu⟩ := harg
    · cases hi
    · cases hu
  have htext : textOf (formatArgValue textSink arg spec) = some body.text := by
    rw [hrun, formatInteger, if_pos hc, hchar]
    rfl
  rw [hasWidth_bare hwidth htext, hone]
  constructor
  · intro hle
    exact ⟨fun _ _ => hle, fun hno => absurd hno hnone, .inl (by decide)⟩
  · intro hkeeps
    exact hkeeps.character hc harg

end

theorem hasWidth_integerArg (hwidth : 0 ≤ spec.width) (hwidth' : spec.width < 2 ^ 31) {abs : UInt64}
    {negative : Bool}
    (hrun : formatArgValue textSink arg spec = formatInteger textSink abs negative spec)
    (hbody : integerBody abs negative spec = body) (harg : (∃ i, arg = .i64 i) ∨ ∃ u, arg = .u64 u)
    (hnone : arg ≠ .none) : HasWidth arg spec body ↔ KeepsWidth arg spec body.text.length := by
  by_cases hc : spec.type = 'c'
  · exact hasWidth_character hwidth hrun hbody hc harg
  · exact hasWidth_integer hwidth hwidth' hrun hbody hc hnone

/-- A field of any specification and value has its width, and its fill where the alignment puts
it, exactly where that is kept: an integer that is written as a character loses it, a missing
value too, and so does a text whose length, as an `int` counts it, is less than the width. -/
theorem field_width_iff {text : List Char} (hspec : parseSpec text = some spec) (arg : Arg)
    (hbody : unpadded arg spec = some body) :
    HasWidth arg spec body ↔ KeepsWidth arg spec body.text.length := by
  obtain ⟨hwidth, hwidth'⟩ := width_bounds hspec
  have hwide : ∀ (arg : Arg) (transcoded : List Char), wideBody spec transcoded = some body →
      formatArgValue textSink arg spec = formatWideString textSink spec transcoded →
      formatArgValue textSink arg spec = formatString textSink transcoded spec ∧
        stringBody transcoded spec = body := by
    intro arg transcoded hwideBody hrun
    rw [wideBody] at hwideBody
    split at hwideBody
    case isTrue hroom =>
      exact ⟨hrun.trans (formatWideString_eq hroom spec), Option.some.inj hwideBody⟩
    case isFalse => cases hwideBody
  cases arg with
  | none =>
    cases hbody
    have htext : textOf (formatArgValue textSink .none spec) = some ['(', '?', ')'] := rfl
    rw [hasWidth_bare hwidth htext]
    constructor
    · intro hle
      refine ⟨fun _ hany => ?_, fun _ => hle, .inl (by decide)⟩
      obtain ⟨i, hi⟩ | ⟨u, hu⟩ := hany
      · cases hi
      · cases hu
    · exact fun hkeeps => hkeeps.missing rfl
  | bool b =>
    rw [unpadded] at hbody
    by_cases htype : isIntegerType spec.type = true
    · rw [if_pos htype] at hbody
      exact hasWidth_integer hwidth hwidth' (by rw [formatArgValue, formatBool, if_pos htype])
        (Option.some.inj hbody) (ne_c_of_isIntegerType htype) (by simp)
    · rw [if_neg htype] at hbody
      exact hasWidth_string hwidth hwidth' (by rw [formatArgValue, formatBool, if_neg htype])
        (Option.some.inj hbody) (by simp) (by simp)
  | char c =>
    rw [unpadded] at hbody
    by_cases htype : isIntegerType spec.type = true
    · rw [if_pos htype] at hbody
      exact hasWidth_integer hwidth hwidth' (by rw [formatArgValue, if_pos htype])
        (Option.some.inj hbody) (ne_c_of_isIntegerType htype) (by simp)
    · rw [if_neg htype] at hbody
      exact hasWidth_string hwidth hwidth' (by rw [formatArgValue, if_neg htype])
        (Option.some.inj hbody) (by simp) (by simp)
  | i64 i =>
    exact hasWidth_integerArg hwidth hwidth' rfl (Option.some.inj hbody) (.inl ⟨i, rfl⟩) (by simp)
  | u64 u =>
    exact hasWidth_integerArg hwidth hwidth' rfl (Option.some.inj hbody) (.inr ⟨u, rfl⟩) (by simp)
  | f64 d =>
    obtain ⟨text, htext, rfl⟩ := Option.map_eq_some_iff.mp hbody
    rw [hasWidth_iff, keepsWidth_iff (by simp) (by simp),
      text_floatBody]
    exact textOf_formatFloat_iff htext hwidth hwidth'
  | cStr text =>
    exact hasWidth_string hwidth hwidth' rfl (Option.some.inj hbody) (by simp) (by simp)
  | strSpan text =>
    exact hasWidth_string hwidth hwidth' rfl (Option.some.inj hbody) (by simp) (by simp)
  | u16Str text =>
    cases text with
    | none =>
      exact hasWidth_string hwidth hwidth' rfl (Option.some.inj hbody) (by simp) (by simp)
    | some src =>
      obtain ⟨hrun, hstring⟩ := hwide (.u16Str (some src)) _ hbody rfl
      exact hasWidth_string hwidth hwidth' hrun hstring (by simp) (by simp)
  | u32Str text =>
    cases text with
    | none =>
      exact hasWidth_string hwidth hwidth' rfl (Option.some.inj hbody) (by simp) (by simp)
    | some src =>
      obtain ⟨hrun, hstring⟩ := hwide (.u32Str (some src)) _ hbody rfl
      exact hasWidth_string hwidth hwidth' hrun hstring (by simp) (by simp)
  | ptr address =>
    cases hbody
    have hc : ({ spec with alt := true, type := 'x', sign := '-' } : Spec).type ≠ 'c' :=
      show 'x' ≠ 'c' by decide
    obtain ⟨htext, hlength⟩ := textOf_formatInteger hc hwidth hwidth' address false
    rw [hasWidth_iff, keepsWidth_iff (by simp) (by simp)]
    exact ⟨fun _ => .inl hlength, fun _ => htext⟩

theorem field_width_iff_zeros :
    HasWidth (.i64 (-7)) ⟨' ', '\x00', '-', 'd', false, true, 5, -1⟩ ⟨true, ['-'], ['7']⟩ := by
  have hspec : parseSpec ['0', '5', 'd'] = some ⟨' ', '\x00', '-', 'd', false, true, 5, -1⟩ := by
    decide +kernel
  have hbody : unpadded (.i64 (-7)) ⟨' ', '\x00', '-', 'd', false, true, 5, -1⟩ =
      some ⟨true, ['-'], ['7']⟩ := rfl
  refine (field_width_iff hspec (.i64 (-7)) hbody).mpr ?_
  exact ⟨fun hc => absurd hc (by decide), nofun, .inl (by decide)⟩

/-- The number 65 is written as `A` without its width of five, as which the character is
written. -/
theorem character_without_width :
    parseSpec ['5', 'c'] = some ⟨' ', '\x00', '-', 'c', false, false, 5, -1⟩ ∧
      unpadded (.i64 65) ⟨' ', '\x00', '-', 'c', false, false, 5, -1⟩ = some ⟨false, [], ['A']⟩ ∧
      ¬HasWidth (.i64 65) ⟨' ', '\x00', '-', 'c', false, false, 5, -1⟩ ⟨false, [], ['A']⟩ ∧
      format (some ['{', ':', '5', 'c', '}']) [.i64 65] = some ['A'] ∧
      format (some ['{', ':', '5', 'c', '}']) [.char 'A'] = some ['A', ' ', ' ', ' ', ' '] := by
  refine ⟨by decide +kernel, rfl, ?_, by decide +kernel, by decide +kernel⟩
  rintro ⟨out, hout, hlength, -⟩
  cases hout
  cases hlength

end Fields

end Equilibrium.Format
