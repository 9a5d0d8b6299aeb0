import Equilibrium.Strings.FormatGrammar

/-! The format syntax as a grammar, and what its texts are read as. -/

namespace Equilibrium.Format

open List

/-- `[[fill]align][sign][#][0][width][.precision][type]` -/
structure SpecSyntax where
  align : Option (Option Char × Char)
  sign : Option Char
  alt : Bool
  zeroPad : Bool
  width : List Char
  precision : Option (List Char)
  type : Option Char

namespace SpecSyntax

def numberText (y : SpecSyntax) : List Char := y.width ++ (y.precision.elim [] ('.' :: ·))

def flagText (y : SpecSyntax) : List Char :=
  y.sign.toList ++ ((if y.alt then ['#'] else []) ++ ((if y.zeroPad then ['0'] else []) ++
    (y.numberText ++ y.type.toList)))

def alignText (y : SpecSyntax) : List Char := y.align.elim [] fun a => a.1.toList ++ [a.2]

def text (y : SpecSyntax) : List Char := y.alignText ++ y.flagText

def spec (y : SpecSyntax) : Spec where
  fill := (y.align.bind (·.1)).getD ' '
  align := (y.align.map (·.2)).getD '\x00'
  sign := y.sign.getD '-'
  type := y.type.getD '\x00'
  alt := y.alt
  zeroPad := y.zeroPad
  width := numberFrom 0 y.width
  precision := y.precision.elim (-1) fun digits => numberFrom 0 digits

def types : List Char :=
  ['d', 'x', 'X', 'o', 'b', 'B', 'c', 'f', 'F', 'e', 'E', 'g', 'G', 's', 'p']

/-- Without the flag `0` a width does not start with one. -/
structure Valid (y : SpecSyntax) : Prop where
  fill : ∀ a ∈ y.align, ∀ f ∈ a.1, f ≠ '\x00' ∧ f ≠ '{' ∧ f ≠ '}'
  align : ∀ a ∈ y.align, isAlign a.2 = true
  sign : ∀ c ∈ y.sign, c = '+' ∨ c = '-' ∨ c = ' '
  width : ∀ c ∈ y.width, isDecDigit c = true
  width_head : y.zeroPad = false → y.width.head? ≠ some '0'
  precision : ∀ digits ∈ y.precision, ∀ c ∈ digits, isDecDigit c = true
  type : ∀ c ∈ y.type, c ∈ types

end SpecSyntax

section Chars

theorem not_isDecDigit_of_mem_types {c : Char} (h : c ∈ SpecSyntax.types) :
    isDecDigit c = false ∧ c ≠ '.' ∧ isAlign c = false ∧ c ≠ '+' ∧ c ≠ '-' ∧ c ≠ ' ' ∧ c ≠ '#' := by
  have hall : SpecSyntax.types.all fun c => decide (isDecDigit c = false ∧ c ≠ '.' ∧
      isAlign c = false ∧ c ≠ '+' ∧ c ≠ '-' ∧ c ≠ ' ' ∧ c ≠ '#') := by
    decide
  exact of_decide_eq_true (all_eq_true.mp hall c h)

theorem not_special_of_digit {c : Char} (h : isDecDigit c = true) :
    c ≠ '.' ∧ isAlign c = false ∧ c ≠ '+' ∧ c ≠ '-' ∧ c ≠ ' ' ∧ c ≠ '#' := by
  have hrange : '0' ≤ c ∧ c ≤ '9' := of_decide_eq_true h
  refine ⟨?_, ?_, ?_, ?_, ?_, ?_⟩
  · rintro rfl
    exact absurd hrange (by decide)
  · rw [isAlign, decide_eq_false_iff_not]
    rintro (rfl | rfl | rfl)
    · exact absurd hrange (by decide)
    · exact absurd hrange (by decide)
    · exact absurd hrange (by decide)
  · rintro rfl
    exact absurd hrange (by decide)
  · rintro rfl
    exact absurd hrange (by decide)
  · rintro rfl
    exact absurd hrange (by decide)
  · rintro rfl
    exact absurd hrange (by decide)

theorem span_digits {digits rest : List Char} (hdigits : ∀ c ∈ digits, isDecDigit c = true)
    (hrest : ∀ c ∈ rest.head?, isDecDigit c = false) :
    (digits ++ rest).takeWhile isDecDigit = digits ∧
      (digits ++ rest).dropWhile isDecDigit = rest := by
  have hstop : rest.takeWhile isDecDigit = [] ∧ rest.dropWhile isDecDigit = rest := by
    cases rest with
    | nil => exact ⟨rfl, rfl⟩
    | cons c rest =>
      have hc : ¬ isDecDigit c = true := by
        rw [hrest c rfl]
        exact nofun
      exact ⟨takeWhile_cons_of_neg hc, dropWhile_cons_of_neg hc⟩
  constructor
  · rw [takeWhile_append_of_pos hdigits, hstop.1, append_nil]
  · rw [dropWhile_append_of_pos hdigits, hstop.2]

variable {p : List Char}

theorem parseAlign_of_none (h : ∀ c ∈ p, isAlign c = false) (s : Spec) :
    parseAlign p s = (s, p) := by
  match p with
  | [] => rfl
  | [c] =>
    rw [parseAlign, if_neg]
    rw [h c (by simp)]
    exact Bool.false_ne_true
  | f :: c :: rest =>
    rw [parseAlign, if_neg, if_neg]
    · rw [h f (by simp)]
      exact Bool.false_ne_true
    · rw [h c (by simp)]
      exact fun hc => absurd hc.1 Bool.false_ne_true

theorem parseAlign_of_align {a : Char} (ha : isAlign a = true) (h : ∀ c ∈ p, isAlign c = false)
    (s : Spec) : parseAlign (a :: p) s = ({ s with align := a }, p) := by
  cases p with
  | nil => rw [parseAlign, if_pos ha]
  | cons c rest =>
    rw [parseAlign, if_neg, if_pos ha]
    rw [h c (by simp)]
    exact fun hc => absurd hc.1 Bool.false_ne_true

theorem parseAlign_of_fill {f a : Char} (ha : isAlign a = true)
    (hf : f ≠ '\x00' ∧ f ≠ '{' ∧ f ≠ '}') (s : Spec) :
    parseAlign (f :: a :: p) s = ({ s with fill := f, align := a }, p) := by
  rw [parseAlign, if_pos ⟨ha, hf⟩]

theorem parseSign_of_none (h : ∀ c ∈ p, c ≠ '+' ∧ c ≠ '-' ∧ c ≠ ' ') (s : Spec) :
    parseSign p s = (s, p) := by
  cases p with
  | nil => rfl
  | cons c rest =>
    obtain ⟨h₁, h₂, h₃⟩ := h c mem_cons_self
    rw [parseSign, if_neg]
    rintro (hc | hc | hc)
    · exact h₁ hc
    · exact h₂ hc
    · exact h₃ hc

theorem parseAlt_of_none (h : ∀ c ∈ p, c ≠ '#') (s : Spec) : parseAlt p s = (s, p) := by
  cases p with
  | nil => rfl
  | cons c rest => rw [parseAlt, if_neg (h c mem_cons_self)]

theorem parseZeroPad_of_none (h : p.head? ≠ some '0') (s : Spec) : parseZeroPad p s = (s, p) := by
  cases p with
  | nil => rfl
  | cons c rest => rw [parseZeroPad, if_neg fun hc => h (by rw [hc]; rfl)]

end Chars

namespace SpecSyntax

variable {y : SpecSyntax} (h : y.Valid)

include h

theorem Valid.mem_numbers {c : Char} (hc : c ∈ y.numberText ++ y.type.toList) :
    isAlign c = false ∧ c ≠ '+' ∧ c ≠ '-' ∧ c ≠ ' ' ∧ c ≠ '#' := by
  rcases mem_append.mp hc with hc | hc
  · rcases mem_append.mp hc with hc | hc
    · exact (not_special_of_digit (h.width c hc)).2
    · cases hprec : y.precision with
      | none =>
        rw [hprec] at hc
        cases hc
      | some digits =>
        rw [hprec] at hc
        rcases mem_cons.mp hc with rfl | hc
        · decide
        · exact (not_special_of_digit (h.precision digits hprec c hc)).2
  · exact (not_isDecDigit_of_mem_types (h.type c (Option.mem_toList.mp hc))).2.2

theorem Valid.numbers_head (hzero : y.zeroPad = false) :
    (y.numberText ++ y.type.toList).head? ≠ some '0' := by
  rw [numberText]
  cases hwidth : y.width with
  | cons c rest =>
    have := h.width_head hzero
    rw [hwidth] at this
    exact this
  | nil =>
    cases hprec : y.precision with
    | some digits => exact fun hc => absurd (Option.some.inj hc) (by decide)
    | none =>
      cases htype : y.type with
      | none => exact nofun
      | some c =>
        intro hc
        have := (not_isDecDigit_of_mem_types (h.type c htype)).1
        rw [Option.some.inj hc] at this
        cases this

theorem Valid.mem_alt {c : Char} (hc : c ∈ (if y.alt then ['#'] else []) ++
    ((if y.zeroPad then ['0'] else []) ++ (y.numberText ++ y.type.toList))) :
    isAlign c = false ∧ c ≠ '+' ∧ c ≠ '-' ∧ c ≠ ' ' := by
  rcases mem_append.mp hc with hc | hc
  · split at hc
    · obtain rfl := mem_singleton.mp hc
      decide
    · cases hc
  · rcases mem_append.mp hc with hc | hc
    · split at hc
      · obtain rfl := mem_singleton.mp hc
        decide
      · cases hc
    · have hnumber := h.mem_numbers hc
      exact ⟨hnumber.1, hnumber.2.1, hnumber.2.2.1, hnumber.2.2.2.1⟩

theorem Valid.mem_flagText {c : Char} (hc : c ∈ y.flagText) : isAlign c = false := by
  rcases mem_append.mp hc with hc | hc
  · rcases h.sign c (Option.mem_toList.mp hc) with rfl | rfl | rfl
    · decide
    · decide
    · decide
  · exact (h.mem_alt hc).1

theorem Valid.parseAlign_text : parseAlign y.text .new =
    ({ Spec.new with fill := y.spec.fill, align := y.spec.align }, y.flagText) := by
  rw [text, alignText, spec]
  cases halign : y.align with
  | none => exact parseAlign_of_none (fun c hc => h.mem_flagText hc) _
  | some a =>
    obtain ⟨fill, a⟩ := a
    have ha := h.align _ halign
    cases fill with
    | none => exact parseAlign_of_align ha (fun c hc => h.mem_flagText hc) _
    | some f => exact parseAlign_of_fill ha (h.fill _ halign f rfl) _

theorem Valid.parseSign_text {s : Spec} (hs : s.sign = '-') : parseSign y.flagText s =
    ({ s with sign := y.spec.sign }, (if y.alt then ['#'] else []) ++
      ((if y.zeroPad then ['0'] else []) ++ (y.numberText ++ y.type.toList))) := by
  rw [flagText, spec]
  cases hsign : y.sign with
  | none =>
    refine (parseSign_of_none (fun c hc => (h.mem_alt hc).2) s).trans ?_
    rw [← hs]
    rfl
  | some c => exact if_pos (h.sign c hsign)

theorem Valid.parseAlt_text {s : Spec} (hs : s.alt = false) :
    parseAlt ((if y.alt then ['#'] else []) ++
        ((if y.zeroPad then ['0'] else []) ++ (y.numberText ++ y.type.toList))) s =
      ({ s with alt := y.alt },
        (if y.zeroPad then ['0'] else []) ++ (y.numberText ++ y.type.toList)) := by
  cases y.alt with
  | true => rw [if_pos rfl, singleton_append, parseAlt, if_pos rfl]
  | false =>
    have hother : ∀ c ∈ (if y.zeroPad then ['0'] else []) ++ (y.numberText ++ y.type.toList),
        c ≠ '#' := by
      intro c hc
      rcases mem_append.mp hc with hc | hc
      · split at hc
        · obtain rfl := mem_singleton.mp hc
          decide
        · cases hc
      · exact (h.mem_numbers hc).2.2.2.2
    rw [if_neg Bool.false_ne_true, nil_append, parseAlt_of_none hother, ← hs]

theorem Valid.parseZeroPad_text {s : Spec} (hs : s.zeroPad = false) :
    parseZeroPad ((if y.zeroPad then ['0'] else []) ++ (y.numberText ++ y.type.toList)) s =
      ({ s with zeroPad := y.zeroPad }, y.numberText ++ y.type.toList) := by
  cases hzero : y.zeroPad with
  | true => rw [if_pos rfl, singleton_append, parseZeroPad, if_pos rfl]
  | false =>
    rw [if_neg Bool.false_ne_true, nil_append, parseZeroPad_of_none (h.numbers_head hzero),
      ← hs]

theorem Valid.parseFlags_text : parseFlags y.text = ({ Spec.new with
        fill := y.spec.fill, align := y.spec.align, sign := y.spec.sign, alt := y.alt,
        zeroPad := y.zeroPad }, y.numberText ++ y.type.toList) := by
  rw [parseFlags, h.parseAlign_text]
  dsimp only
  rw [h.parseSign_text rfl]
  rw [h.parseAlt_text rfl]
  rw [h.parseZeroPad_text rfl]

theorem Valid.readSpec_text : readSpec y.text = y.spec := by
  have htype : ∀ c ∈ y.type.toList.head?, isDecDigit c = false := by
    cases hy : y.type with
    | none => exact nofun
    | some t =>
      intro c hc
      rw [← Option.some.inj hc]
      exact (not_isDecDigit_of_mem_types (h.type t hy)).1
  have hbehind : ∀ c ∈ ((y.precision.elim [] ('.' :: ·)) ++ y.type.toList).head?,
      isDecDigit c = false := by
    cases y.precision with
    | none => exact htype
    | some digits =>
      intro c hc
      rw [← Option.some.inj hc]
      decide
  rw [readSpec, h.parseFlags_text, numberText, append_assoc]
  dsimp only
  rw [(span_digits h.width hbehind).1, (span_digits h.width hbehind).2]
  have hprec : readPrecision ((y.precision.elim [] ('.' :: ·)) ++ y.type.toList) =
      (y.spec.precision, y.type.toList) := by
    rw [spec]
    cases hy : y.precision with
    | none =>
      cases ht : y.type with
      | none => rfl
      | some t =>
        have hdot := (not_isDecDigit_of_mem_types (h.type t ht)).2.1
        exact if_neg hdot
    | some digits =>
      have hspan := span_digits (h.precision digits hy) htype
      rw [Option.elim_some, cons_append, readPrecision, if_pos rfl, hspan.1, hspan.2]
      rfl
  rw [hprec]
  cases ht : y.type with
  | none => rw [spec, ht]; rfl
  | some t => rw [spec, ht]; rfl

end SpecSyntax

end Equilibrium.Format
