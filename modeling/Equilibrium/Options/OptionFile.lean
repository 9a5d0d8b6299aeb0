import Equilibrium.Strings.NumberParse
import Equilibrium.Strings.IntegerConversion

/-! The options of `base/option.h` and the reader of options files of `base/option_file.cc`.
An option of any type is its virtual `ParseFromString`, its default and its value. The registry
is the list of the options in the order in which `VisitAll` meets them. -/

namespace Equilibrium.OptionFile

structure OptionBase (V : Type*) where
  name : Option (List Char)
  env : Option (List Char)
  parseFromString : List Char → Option V
  default : V
  value : V
  overridden : Bool

inductive OptionApply
  | override
  | fillUnset
  deriving DecidableEq

structure OptionFileResult where
  applied : ℕ
  skipped : ℕ
  unknown : ℕ
  invalid : ℕ
  read : Bool
  deriving DecidableEq

/-- What the visit of the registry counts for one entry. -/
structure Tally where
  matched : ℕ
  failed : ℕ
  held : ℕ
  deriving DecidableEq

variable {V : Type*}

namespace OptionBase

/-- The constructor of `Option<T>`. -/
def construct (name : List Char) (default : V) (env : Option (List Char))
    (parse : List Char → Option V) : OptionBase V where
  name := some name
  env := env
  parseFromString := parse
  default := default
  value := default
  overridden := false

def setFromString (option : OptionBase V) (text : List Char) : OptionBase V × Bool :=
  match option.parseFromString text with
  | none => (option, false)
  | some v => ({ option with value := v, overridden := true }, true)

def reset (option : OptionBase V) : OptionBase V :=
  { option with value := option.default, overridden := false }

end OptionBase

def parseOptionInt (text : List Char) : Option Int32 :=
  (NumberParse.parseInteger (some text) 0).map fun (v, _) => v.toInt32

/-- What a reader of `InternValue(value)` sees: the characters before the first terminator. -/
def internValue (value : List Char) : List Char := value.takeWhile (· ≠ '\x00')

def isSpace (c : Char) : Bool := c = ' ' || c = '\t' || c = '\r' || c = '\n'

def trim (text : List Char) : List Char := (text.dropWhile isSpace).rdropWhile isSpace

def unquote (value : List Char) : List Char :=
  if value.length < 2 then value
  else
    let first := value.head?
    if (first = some '"' ∨ first = some '\'') ∧ value.getLast? = first then
      (value.drop 1).take (value.length - 2)
    else value

def isComment (text : List Char) : Bool :=
  if text.head? = some '#' then true
  else text.length ≥ 2 && text[0]? = some '/' && text[1]? = some '/'

def isMatch (option : OptionBase V) (name : List Char) : Bool :=
  if option.name = some name then true else option.env = some name

def visitAll {σ : Type*} (f : OptionBase V → σ → OptionBase V × σ) :
    List (OptionBase V) → σ → List (OptionBase V) × σ
  | [], s => ([], s)
  | option :: rest, s =>
    let (option, s) := f option s
    let (rest, s) := visitAll f rest s
    (option :: rest, s)

/-- What the visit of `ApplyEntry` does at one option. -/
def visitOption (apply : OptionApply) (name : List Char) (stable : Option (List Char))
    (option : OptionBase V) (tally : Tally) : OptionBase V × Tally :=
  if !isMatch option name then (option, tally)
  else
    let tally := { tally with matched := tally.matched + 1 }
    if apply = .fillUnset ∧ option.overridden then (option, { tally with held := tally.held + 1 })
    else match stable with
      | none => (option.reset, tally)
      | some text => match option.setFromString text with
        | (option, true) => (option, tally)
        | (option, false) => (option, { tally with failed := tally.failed + 1 })

/-- The name of an entry and the text it is set to, none for a reset. A malformed entry has
neither. -/
def parseEntry (entry : List Char) : Option (List Char × Option (List Char)) :=
  let plus := entry.head? = some '+'
  let reset := !plus && entry.head? = some '-'
  let body := if plus || reset then entry.drop 1 else entry
  let assign := body.idxOf? '='
  let name := trim (match assign with | none => body | some i => body.take i)
  if name = [] then none
  else if assign = none ∧ body.length = entry.length then none
  else
    let value := match assign with
      | none => ['1']
      | some i => unquote (trim (body.drop (i + 1)))
    some (name, if reset then none else some (internValue value))

/-- The counter that an entry goes to once the registry is visited. -/
def report (tally : Tally) (result : OptionFileResult) : OptionFileResult :=
  if tally.matched = 0 then { result with unknown := result.unknown + 1 }
  else if tally.failed ≠ 0 then { result with invalid := result.invalid + 1 }
  else if tally.held = tally.matched then { result with skipped := result.skipped + 1 }
  else { result with applied := result.applied + 1 }

def applyEntry (apply : OptionApply) (entry : List Char)
    (s : List (OptionBase V) × OptionFileResult) : List (OptionBase V) × OptionFileResult :=
  match parseEntry entry with
  | none => (s.1, { s.2 with invalid := s.2.invalid + 1 })
  | some (name, stable) =>
    let (registry, tally) := visitAll (visitOption apply name stable) s.1 ⟨0, 0, 0⟩
    (registry, report tally s.2)

def applyLine (apply : OptionApply) (s : List (OptionBase V) × OptionFileResult)
    (line : List Char) : List (OptionBase V) × OptionFileResult :=
  let line := trim line
  if line ≠ [] ∧ !isComment line then applyEntry apply line s else s

def applyOptionText (text : List Char) (apply : OptionApply) (registry : List (OptionBase V)) :
    List (OptionBase V) × OptionFileResult :=
  (text.splitOn '\n').foldl (applyLine apply) (registry, ⟨0, 0, 0, 0, true⟩)

/-! The options of the integral types: what `ParseOption` of `base/option.h` stores for a text,
beside the integer that the whole text denotes. -/

open NumberParse Option
open Int64 (maxValue ofIntClamp)

inductive Width
  | w8
  | w16
  | w32
  | w64
  deriving DecidableEq

def Width.bits : Width → ℕ
  | w8 => 8
  | w16 => 16
  | w32 => 32
  | w64 => 64

/-- The integral types other than `bool`. A `char`, a `wchar_t` and a `long` are the types of their
widths and signs. -/
structure IntegralType where
  signed : Bool
  width : Width
  deriving DecidableEq

namespace IntegralType

variable (T : IntegralType)

def lowest : ℤ := if T.signed then -2 ^ (T.width.bits - 1) else 0

def highest : ℤ := if T.signed then 2 ^ (T.width.bits - 1) - 1 else 2 ^ T.width.bits - 1

def Represents (i : ℤ) : Prop := T.lowest ≤ i ∧ i ≤ T.highest

instance (i : ℤ) : Decidable (T.Represents i) := inferInstanceAs (Decidable (_ ∧ _))

def Value : Type := {i : ℤ // T.Represents i}

theorem represents_bmod {width : Width} (i : ℤ) :
    Represents ⟨true, width⟩ (i.bmod (2 ^ width.bits)) := by
  have hlow := Int.le_bmod (x := i) (m := 2 ^ width.bits) (by positivity)
  have hhigh := Int.bmod_lt (x := i) (m := 2 ^ width.bits) (by positivity)
  cases width <;> simp only [Represents, lowest, highest, Width.bits, if_true] at * <;> omega

theorem represents_emod {width : Width} (i : ℤ) :
    Represents ⟨false, width⟩ (i % 2 ^ width.bits) := by
  have hlow := Int.emod_nonneg i (b := 2 ^ width.bits) (by positivity)
  have hhigh := Int.emod_lt_of_pos i (b := 2 ^ width.bits) (by positivity)
  exact ⟨hlow, Int.le_sub_one_of_lt hhigh⟩

/-- `static_cast<T>` -/
def cast : (T : IntegralType) → Int64 → T.Value
  | ⟨true, width⟩, v => ⟨v.toInt.bmod (2 ^ width.bits), represents_bmod v.toInt⟩
  | ⟨false, width⟩, v => ⟨v.toInt % 2 ^ width.bits, represents_emod v.toInt⟩

end IntegralType

/-- `ParseOption<T>`, which lets go of where `ParseInteger` stopped. -/
def parseOption (T : IntegralType) (text : List Char) : Option T.Value :=
  (parseInteger (some text) 0).map fun (v, _) => T.cast v

/-- `Option<T>` -/
structure IntegralOption (T : IntegralType) extends OptionBase T.Value where
  parses : parseFromString = parseOption T

/-- Blanks, a sign and one integer constant of the C language are the whole text. -/
def Denotes (text : List Char) (i : ℤ) : Prop :=
  ∃ negative n, Converts 0 text negative n [] ∧ i = if negative then -(n : ℤ) else n

def StartsWithNumber (text : List Char) : Prop := ∃ negative n rest, Converts 0 text negative n rest

/-- The option has the integer that the text denotes, or the text denotes none of the type and the
option is as it was. -/
def SetsExactly {T : IntegralType} (option : OptionBase T.Value) (text : List Char) : Prop :=
  (∃ i : T.Value, Denotes text i.1 ∧
    option.setFromString text = ({ option with value := i, overridden := true }, true)) ∨
  ((∀ i : T.Value, ¬Denotes text i.1) ∧ option.setFromString text = (option, false))

section Types

variable {T : IntegralType} {i : ℤ}

theorem IntegralType.Represents.cast_eq {v : Int64} (h : T.Represents v.toInt) :
    (T.cast v).1 = v.toInt := by
  obtain ⟨signed, width⟩ := T
  cases signed with
  | false =>
    obtain ⟨hlow, hhigh⟩ := h
    exact Int.emod_eq_of_lt hlow (Int.lt_of_le_sub_one hhigh)
  | true =>
    obtain ⟨hlow, hhigh⟩ := h
    change v.toInt.bmod (2 ^ width.bits) = v.toInt
    cases width <;> simp only [lowest, highest, Width.bits, if_true] at * <;>
      exact Int.bmod_eq_of_le (by omega) (by omega)

theorem IntegralType.Represents.neg_two_pow_le (h : T.Represents i) : -2 ^ 63 ≤ i := by
  obtain ⟨signed, width⟩ := T
  have hlow : _ ≤ i := h.1
  cases signed <;> cases width <;>
    simp only [lowest, Width.bits, if_true, Bool.false_eq_true, if_false] at hlow <;> omega

theorem IntegralType.Represents.cast_maxValue_ne (h : T.Represents i) (hi : 2 ^ 63 ≤ i) :
    (T.cast maxValue).1 ≠ i := by
  obtain ⟨signed, width⟩ := T
  have hhigh : i ≤ _ := h.2
  intro hcast
  cases signed <;> cases width <;>
    first
    | omega
    | (rw [← hcast] at hi
       exact absurd hi (by decide))

end Types

section Texts

variable {text : List Char} {i : ℤ}

theorem Denotes.startsWithNumber (h : Denotes text i) : StartsWithNumber text := by
  obtain ⟨negative, n, hconverts, -⟩ := h
  exact ⟨negative, n, [], hconverts⟩

theorem Denotes.parseInteger (h : Denotes text i) :
    parseInteger (some text) 0 = some (ofIntClamp i, []) := by
  obtain ⟨negative, n, hconverts, rfl⟩ := h
  refine (parseInteger_converts fun hzero => ?_).mpr ⟨negative, n, hconverts, rfl⟩
  obtain ⟨-, negative', rest, hconverts', hrest, -⟩ := parseMagnitude_behindZero signedLimit_lt hzero
  exact hrest (hconverts'.unique hconverts).2.2

theorem parseInteger_isSome_iff : (parseInteger (some text) 0).isSome ↔ StartsWithNumber text := by
  by_cases hzero : DecimalBehindZero 0 (skipSpaceAndSign text).2
  · obtain ⟨hsome, negative, rest, hconverts, -⟩ := parseMagnitude_behindZero signedLimit_lt hzero
    obtain ⟨⟨negative', magnitude, rest'⟩, hmagnitude⟩ := isSome_iff_exists.mp hsome
    have hparse := parseInteger_iff.mpr ⟨negative', magnitude, hmagnitude, rfl⟩
    exact ⟨fun _ => ⟨negative, 0, rest, hconverts⟩, fun _ => isSome_of_eq_some hparse⟩
  · constructor
    · intro hsome
      obtain ⟨⟨v, rest⟩, hparse⟩ := isSome_iff_exists.mp hsome
      obtain ⟨negative, n, hconverts, -⟩ := (parseInteger_converts hzero).mp hparse
      exact ⟨negative, n, rest, hconverts⟩
    · rintro ⟨negative, n, rest, hconverts⟩
      exact isSome_of_eq_some
        ((parseInteger_converts hzero).mpr ⟨negative, n, hconverts, rfl⟩)

end Texts

section Setting

variable {T : IntegralType} {text : List Char} {i : ℤ}

namespace IntegralOption

theorem setFromString_none (option : IntegralOption T) (h : ¬StartsWithNumber text) :
    option.setFromString text = (option.toOptionBase, false) := by
  have hparse : parseInteger (some text) 0 = none := by
    rw [← parseInteger_isSome_iff, not_isSome_iff_eq_none] at h
    exact h
  rw [OptionBase.setFromString, option.parses, parseOption, hparse]
  rfl

theorem setFromString_some (option : IntegralOption T) {v : Int64} {rest : List Char}
    (h : parseInteger (some text) 0 = some (v, rest)) : option.setFromString text =
      ({ option.toOptionBase with value := T.cast v, overridden := true }, true) := by
  have hvalue : option.parseFromString text = some (T.cast v) := by
    rw [option.parses, parseOption, h]
    rfl
  rw [OptionBase.setFromString, hvalue]

end IntegralOption

/-- An option takes a text exactly where that holds no number at its start, or is one of the type
that an `i64` holds too: characters behind the number are let go, and a number of neither range is
brought into it. -/
theorem setsExactly_iff (option : IntegralOption T) (text : List Char) :
    SetsExactly option.toOptionBase text ↔ ¬StartsWithNumber text ∨
      ∃ i, Denotes text i ∧ T.Represents i ∧ i < 2 ^ 63 := by
  constructor
  · rintro (⟨i, hi, hset⟩ | ⟨-, hset⟩)
    · refine .inr ⟨i.1, hi, i.2, ?_⟩
      rw [option.setFromString_some hi.parseInteger] at hset
      have hvalue : T.cast (ofIntClamp i.1) = i := congrArg (fun s => s.1.value) hset
      by_contra hge
      have hclamp : ofIntClamp i.1 = maxValue := by
        have hmin : Int64.minValue.toInt = -2 ^ 63 := rfl
        have hmax : maxValue.toInt = 2 ^ 63 - 1 := rfl
        rw [ofIntClamp, dif_pos (by omega), dif_neg (by omega)]
      rw [hclamp] at hvalue
      exact i.2.cast_maxValue_ne (by omega) (congrArg Subtype.val hvalue)
    · refine .inl fun hstart => ?_
      obtain ⟨⟨v, rest⟩, hparse⟩ := isSome_iff_exists.mp (parseInteger_isSome_iff.mpr hstart)
      rw [option.setFromString_some hparse] at hset
      cases congrArg Prod.snd hset
  · rintro (hstart | ⟨i, hi, hrepresents, hlt⟩)
    · exact .inr ⟨fun i hi => hstart hi.startsWithNumber, option.setFromString_none hstart⟩
    · have hlow := hrepresents.neg_two_pow_le
      have hclamp : (ofIntClamp i).toInt = i := by
        have hmin : Int64.minValue.toInt = -2 ^ 63 := rfl
        have hmax : maxValue.toInt = 2 ^ 63 - 1 := rfl
        rw [ofIntClamp, dif_pos (by omega), dif_pos (by omega), Int64.ofIntLE_eq_ofInt,
          Int64.toInt_ofInt_of_le hlow hlt]
      refine .inl ⟨⟨i, hrepresents⟩, hi, ?_⟩
      have hcast : T.cast (ofIntClamp i) = ⟨i, hrepresents⟩ := by
        refine Subtype.ext ?_
        have hcast := IntegralType.Represents.cast_eq (T := T) (v := ofIntClamp i)
          (by rw [hclamp]; exact hrepresents)
        rw [hcast, hclamp]
      rw [option.setFromString_some hi.parseInteger, hcast]

end Setting

/-- The option `count` of the type `u8`. -/
def count : IntegralOption ⟨false, .w8⟩ where
  toOptionBase := .construct ['c', 'o', 'u', 'n', 't'] ⟨1, by decide⟩ none (parseOption _)
  parses := rfl

/-- 300 is stored as 44. -/
theorem not_setsExactly : ¬∀ (T : IntegralType) (option : IntegralOption T) (text : List Char),
    SetsExactly option.toOptionBase text := by
  intro h
  have hparse : parseInteger (some ['3', '0', '0']) 0 = some (300, []) := by decide
  have hset := count.setFromString_some hparse
  rcases h _ count ['3', '0', '0'] with ⟨i, hi, hstored⟩ | ⟨-, hreject⟩
  · have hvalue : IntegralType.cast ⟨false, .w8⟩ 300 = i :=
      congrArg (fun s => s.1.value) (hset.symm.trans hstored)
    have hread : (300, []) = (ofIntClamp i.1, ([] : List Char)) :=
      Option.some.inj (hparse.symm.trans hi.parseInteger)
    rw [← hvalue] at hread
    cases congrArg Prod.fst hread
  · cases congrArg Prod.snd (hset.symm.trans hreject)

end Equilibrium.OptionFile
