import Equilibrium.Strings.FormatSinks

/-! The reading of a format text: its items, with the numbers as they are written. The
formatter follows it where no index and no number of a specification leaves its range. -/

namespace Equilibrium.Format

open Library.Simulation Nat Option

/-- The number that digits continue `n` with. -/
def numberFrom (n : ℕ) (digits : List Char) : ℕ := digits.foldl (fun n c => n * 10 + decDigit c) n

def readPrecision (p : List Char) : ℤ × List Char :=
  match p with
  | c :: rest =>
    if c = '.' then (numberFrom 0 (rest.takeWhile isDecDigit), rest.dropWhile isDecDigit)
    else (-1, p)
  | [] => (-1, [])

def readSpec (text : List Char) : Spec :=
  let (s, p) := parseFlags text
  let width := numberFrom 0 (p.takeWhile isDecDigit)
  let (precision, p) := readPrecision (p.dropWhile isDecDigit)
  parseType p { s with width := width, precision := precision }

inductive Item where
  | literal (text : List Char)
  | field (index : Option ℕ) (spec : Spec)
  deriving DecidableEq

def readIndex (p : List Char) : Option ℕ :=
  let digits := p.takeWhile isDecDigit
  if digits = [] then none else some (numberFrom 0 digits)

def readItems : ℕ → List Char → List Item
  | 0, _ => []
  | _, [] => []
  | rounds + 1, c :: p =>
    if c = '{' then
      if p.head? = some '{' then .literal ['{'] :: readItems rounds p.tail
      else
        let (text, rest) := splitSpec (p.dropWhile isDecDigit)
        .field (readIndex p) (readSpec text) :: readItems rounds (skipBrace rest)
    else if c = '}' then
      .literal ['}'] :: readItems rounds (if p.head? = some '}' then p.tail else p)
    else .literal ((c :: p).takeWhile notBrace) :: readItems rounds ((c :: p).dropWhile notBrace)

def read (fmt : List Char) : List Item := readItems (cString fmt).length (cString fmt)

def textSink : Sink (List Char) := ⟨fun s data => some (s ++ data)⟩

def textOf (x : Steps (List Char) Unit) : Option (List Char) := (x []).map (·.2)

/-- The text of the `i`-th argument, or the marker where there is none. -/
def fieldText (args : List Arg) (i : ℕ) (spec : Spec) : Option (List Char) :=
  match args[i]? with
  | some arg => textOf (formatArgValue textSink arg spec)
  | none => some ['{', '?', '}']

/-- What the items say. The `n`-th field without an index takes the `n`-th argument. -/
def render (args : List Arg) : ℕ → List Item → Option (List Char)
  | _, [] => some []
  | n, .literal text :: rest => (render args n rest).map (text ++ ·)
  | n, .field index spec :: rest => do
    let text ← fieldText args (index.getD n) spec
    let rest ← render args (if index.isSome then n else n + 1) rest
    return text ++ rest

section Numbers

variable {n : ℕ} {c : Char} {p : List Char}

theorem numberFrom_cons {digits : List Char} :
    numberFrom n (c :: digits) = numberFrom (n * 10 + decDigit c) digits := by
  rw [numberFrom, List.foldl_cons, numberFrom]

theorem le_numberFrom (digits : List Char) : n ≤ numberFrom n digits := by
  induction digits generalizing n with
  | nil => exact Nat.le_refl n
  | cons c digits ih =>
    have hle : n ≤ n * 10 + decDigit c := by omega
    exact hle.trans ih

theorem checkedInt_of_lt {z : ℤ} (hle : -2 ^ 31 ≤ z) (hlt : z < 2 ^ 31) :
    checkedInt z = some z := if_pos ⟨hle, hlt⟩

theorem checkedInt_of_le {z : ℤ} (h : 2 ^ 31 ≤ z) : checkedInt z = none :=
  if_neg fun hz => absurd hz.2 (Int.not_lt.mpr h)

theorem checkedInt_natCast (n : ℕ) :
    checkedInt (n : ℤ) = if n < 2 ^ 31 then some (n : ℤ) else none := by
  by_cases hn : n < 2 ^ 31
  · have hlt : (n : ℤ) < 2 ^ 31 := by exact_mod_cast hn
    rw [if_pos hn]
    exact checkedInt_of_lt (by omega) hlt
  · have hle : 2 ^ 31 ≤ (n : ℤ) := by exact_mod_cast Nat.not_lt.mp hn
    rw [if_neg hn]
    exact checkedInt_of_le hle

theorem parseInt_eq (hn : n < 2 ^ 31) (p : List Char) :
    parseInt n p = if numberFrom n (p.takeWhile isDecDigit) < 2 ^ 31 then
      some ((numberFrom n (p.takeWhile isDecDigit) : ℤ), p.dropWhile isDecDigit) else none := by
  induction p generalizing n with
  | nil =>
    rw [List.takeWhile_nil, List.dropWhile_nil]
    exact (if_pos hn).symm
  | cons c p ih =>
    rw [parseInt]
    by_cases hc : isDecDigit c = true
    · have hcast : (n : ℤ) * 10 + decDigit c = ((n * 10 + decDigit c : ℕ) : ℤ) := by
        push_cast
        rfl
      rw [if_pos hc, List.takeWhile_cons_of_pos hc, List.dropWhile_cons_of_pos hc,
        numberFrom_cons, hcast, checkedInt_natCast]
      by_cases hsmall : n * 10 + decDigit c < 2 ^ 31
      · rw [if_pos hsmall]
        exact ih hsmall
      · have hle := le_numberFrom (n := n * 10 + decDigit c) (p.takeWhile isDecDigit)
        rw [if_neg hsmall, if_neg (by omega)]
    · rw [if_neg hc, List.takeWhile_cons_of_neg hc, List.dropWhile_cons_of_neg hc]
      exact (if_pos hn).symm

theorem numberFrom_mod (digits : List Char) :
    numberFrom (n % 2 ^ 64) digits % 2 ^ 64 = numberFrom n digits % 2 ^ 64 := by
  induction digits generalizing n with
  | nil => exact mod_mod n _
  | cons c digits ih =>
    rw [numberFrom_cons, numberFrom_cons, ← ih, ← ih (n := n * 10 + decDigit c)]
    have hmod : (n % 2 ^ 64 * 10 + decDigit c) % 2 ^ 64 = (n * 10 + decDigit c) % 2 ^ 64 := by omega
    rw [hmod]

theorem parseIndex_eq (hn : n < 2 ^ 64) (p : List Char) : parseIndex n p =
      (numberFrom n (p.takeWhile isDecDigit) % 2 ^ 64, p.dropWhile isDecDigit) := by
  induction p generalizing n with
  | nil => rw [parseIndex, List.takeWhile_nil, List.dropWhile_nil, numberFrom, List.foldl_nil,
      mod_eq_of_lt hn]
  | cons c p ih =>
    rw [parseIndex]
    by_cases hc : isDecDigit c = true
    · rw [if_pos hc, List.takeWhile_cons_of_pos hc, List.dropWhile_cons_of_pos hc,
        numberFrom_cons, ih (mod_lt _ (Nat.two_pow_pos 64)), numberFrom_mod]
    · rw [if_neg hc, List.takeWhile_cons_of_neg hc, List.dropWhile_cons_of_neg hc, numberFrom,
        List.foldl_nil, mod_eq_of_lt hn]

theorem parseFieldIndex_eq (p : List Char) :
    parseFieldIndex p = ((readIndex p).map (· % 2 ^ 64), p.dropWhile isDecDigit) := by
  cases p with
  | nil => rfl
  | cons c rest =>
    rw [parseFieldIndex, readIndex]
    by_cases hc : isDecDigit c = true
    · rw [if_pos hc, parseIndex_eq (Nat.two_pow_pos 64), List.takeWhile_cons_of_pos hc]
      rfl
    · rw [if_neg hc, List.takeWhile_cons_of_neg hc, List.dropWhile_cons_of_neg hc]
      rfl

end Numbers

section Specs

variable (p : List Char) (s : Spec)

theorem width_parseAlign : (parseAlign p s).1.width = s.width := by
  match p with
  | [] => rfl
  | [c] =>
    rw [parseAlign]
    split
    · rfl
    · rfl
  | f :: c :: rest =>
    rw [parseAlign]
    split
    · rfl
    · split
      · rfl
      · rfl

theorem width_parseSign : (parseSign p s).1.width = s.width := by
  cases p with
  | nil => rfl
  | cons c rest =>
    rw [parseSign]
    split
    · rfl
    · rfl

theorem width_parseAlt : (parseAlt p s).1.width = s.width := by
  cases p with
  | nil => rfl
  | cons c rest =>
    rw [parseAlt]
    split
    · rfl
    · rfl

theorem width_parseZeroPad : (parseZeroPad p s).1.width = s.width := by
  cases p with
  | nil => rfl
  | cons c rest =>
    rw [parseZeroPad]
    split
    · rfl
    · rfl

theorem width_parseFlags (text : List Char) : (parseFlags text).1.width = 0 := by
  rw [parseFlags]
  rw [width_parseZeroPad, width_parseAlt, width_parseSign, width_parseAlign]
  rfl

theorem width_parseType : (parseType p s).width = s.width := by
  cases p with
  | nil => rfl
  | cons c rest => rfl

theorem precision_parseType : (parseType p s).precision = s.precision := by
  cases p with
  | nil => rfl
  | cons c rest => rfl

omit s in
theorem parsePrecision_eq : parsePrecision p =
    if (readPrecision p).1 < 2 ^ 31 then some (readPrecision p) else none := by
  cases p with
  | nil => rfl
  | cons c rest =>
    rw [parsePrecision, readPrecision]
    by_cases hc : c = '.'
    · rw [if_pos hc, if_pos hc]
      refine (parseInt_eq (Nat.two_pow_pos 31) rest).trans ?_
      by_cases hlt : numberFrom 0 (rest.takeWhile isDecDigit) < 2 ^ 31
      · have hlt' : (numberFrom 0 (rest.takeWhile isDecDigit) : ℤ) < 2 ^ 31 := by exact_mod_cast hlt
        rw [if_pos hlt]
        exact (if_pos hlt').symm
      · have hge : ¬ (numberFrom 0 (rest.takeWhile isDecDigit) : ℤ) < 2 ^ 31 := by
          exact_mod_cast hlt
        rw [if_neg hlt]
        exact (if_neg hge).symm
    · rw [if_neg hc, if_neg hc]
      rfl

omit p s

theorem parseInt_width (text : List Char) : parseInt (parseFlags text).1.width (parseFlags text).2 =
      if (readSpec text).width < 2 ^ 31 then
        some ((readSpec text).width, (parseFlags text).2.dropWhile isDecDigit) else none := by
  have hwidth : (readSpec text).width =
      (numberFrom 0 ((parseFlags text).2.takeWhile isDecDigit) : ℤ) := width_parseType _ _
  rw [width_parseFlags, hwidth]
  refine (parseInt_eq (Nat.two_pow_pos 31) (parseFlags text).2).trans ?_
  by_cases hlt : numberFrom 0 ((parseFlags text).2.takeWhile isDecDigit) < 2 ^ 31
  · have hlt' : (numberFrom 0 ((parseFlags text).2.takeWhile isDecDigit) : ℤ) < 2 ^ 31 := by
      exact_mod_cast hlt
    rw [if_pos hlt, if_pos hlt']
  · have hge : ¬ (numberFrom 0 ((parseFlags text).2.takeWhile isDecDigit) : ℤ) < 2 ^ 31 := by
      exact_mod_cast hlt
    rw [if_neg hlt, if_neg hge]

/-- A number of the specification that an `int` holds. -/
def Spec.Small (spec : Spec) : Prop := spec.width < 2 ^ 31 ∧ spec.precision < 2 ^ 31

theorem parseSpec_of_small {text : List Char} (h : (readSpec text).Small) :
    parseSpec text = some (readSpec text) := by
  obtain ⟨hwidth, hprecision⟩ := h
  have hread : (readSpec text).precision =
      (readPrecision ((parseFlags text).2.dropWhile isDecDigit)).1 := precision_parseType _ _
  rw [hread] at hprecision
  have hint := parseInt_width text
  rw [if_pos hwidth] at hint
  rw [parseSpec]
  simp only [hint, bind_eq_bind, bind_some, parsePrecision_eq, if_pos hprecision]
  have hw : (readSpec text).width =
      (numberFrom 0 ((parseFlags text).2.takeWhile isDecDigit) : ℤ) := width_parseType _ _
  rw [hw]
  rfl

theorem parseSpec_of_large {text : List Char} (h : ¬ (readSpec text).Small) :
    parseSpec text = none := by
  have hread : (readSpec text).precision =
      (readPrecision ((parseFlags text).2.dropWhile isDecDigit)).1 := precision_parseType _ _
  have hint := parseInt_width text
  rw [parseSpec]
  by_cases hwidth : (readSpec text).width < 2 ^ 31
  · have hprecision : ¬ (readPrecision ((parseFlags text).2.dropWhile isDecDigit)).1 < 2 ^ 31 :=
      fun hlt => h ⟨hwidth, hread ▸ hlt⟩
    rw [if_pos hwidth] at hint
    simp only [hint, bind_eq_bind, bind_some, parsePrecision_eq, if_neg hprecision,
      bind_none]
  · rw [if_neg hwidth] at hint
    simp only [hint, bind_eq_bind, bind_none]

end Specs

section Loop

def Item.Small : Item → Prop
  | .literal _ => True
  | .field _ spec => spec.Small

/-- A field with the index that the formatter computes. -/
def Item.wrapped : Item → Item
  | .literal text => .literal text
  | .field index spec => .field (index.map (· % 2 ^ 64)) spec

theorem textSink_follows_drop (front : List Char) :
    textSink.Follows (fun s t => s = front ++ t) textSink := by
  rintro s t data t' rfl ht
  cases ht
  exact ⟨front ++ t ++ data, rfl, List.append_assoc _ _ _⟩

theorem textSink_follows_prepend (front : List Char) :
    textSink.Follows (fun s t => t = front ++ s) textSink := by
  rintro s t data t' rfl ht
  cases ht
  exact ⟨s ++ data, rfl, List.append_assoc _ _ _⟩

theorem formatArgValue_append (arg : Arg) (spec : Spec) (s : List Char) :
    formatArgValue textSink arg spec s =
      (textOf (formatArgValue textSink arg spec)).map fun t => ((), s ++ t) := by
  rw [textOf]
  cases hempty : formatArgValue textSink arg spec [] with
  | some r =>
    obtain ⟨s', hs', rfl⟩ := simulates_formatArgValue (textSink_follows_drop s) arg spec s [] r.1 r.2
      (List.append_nil s).symm hempty
    exact hs'
  | none =>
    cases hfull : formatArgValue textSink arg spec s with
    | none => rfl
    | some r =>
      obtain ⟨s', hs', -⟩ := simulates_formatArgValue (textSink_follows_prepend s) arg spec [] s
        r.1 r.2 (List.append_nil s).symm hfull
      rw [hempty] at hs'
      cases hs'

theorem length_skipBrace (p : List Char) : (skipBrace p).length ≤ p.length := by
  cases p with
  | nil => exact le_rfl
  | cons c rest =>
    rw [skipBrace]
    split
    · exact le_succ _
    · exact le_rfl

theorem length_splitSpec (p : List Char) : (splitSpec p).2.length ≤ p.length := by
  cases p with
  | nil => exact le_rfl
  | cons c rest =>
    rw [splitSpec]
    split
    · exact (List.length_dropWhile_le _ _).trans (le_succ _)
    · exact le_rfl

/-- What is behind a field. -/
def behindField (p : List Char) : List Char := skipBrace (splitSpec (p.dropWhile isDecDigit)).2

theorem length_behindField (p : List Char) : (behindField p).length ≤ p.length :=
  (length_skipBrace _).trans ((length_splitSpec _).trans (List.length_dropWhile_le _ _))

theorem parseField_eq (p : List Char) : parseField p =
    ((parseSpec (splitSpec (p.dropWhile isDecDigit)).1).map fun spec =>
      ⟨(readIndex p).map (· % 2 ^ 64), spec⟩, behindField p) := by
  rw [parseField, parseFieldIndex_eq]
  rfl

theorem length_dropWhile_cons {c : Char} {p : List Char} (h : notBrace c = true) :
    ((c :: p).dropWhile notBrace).length ≤ p.length := by
  rw [List.dropWhile_cons_of_pos h]
  exact List.length_dropWhile_le _ _

theorem readItems_field {rounds : ℕ} {p : List Char} (h : p.head? ≠ some '{') :
    readItems (rounds + 1) ('{' :: p) =
      .field (readIndex p) (readSpec (splitSpec (p.dropWhile isDecDigit)).1) ::
        readItems rounds (behindField p) := by
  rw [readItems, if_neg h]
  rfl

variable {args : List Arg}

theorem write_textSink (text : List Char) (s : List Char) :
    textSink.write text s = some ((), s ++ text) := by
  cases text with
  | nil => rw [List.append_nil]; rfl
  | cons c text => rfl

theorem map_append (o : Option (List Char)) (s text : List Char) :
    (o.map fun t => ((), s ++ text ++ t)) = (o.map (text ++ ·)).map fun t => ((), s ++ t) := by
  cases o with
  | none => rfl
  | some t => rw [map_some, map_some, map_some, List.append_assoc]

theorem formatLoop_literal (args : List Arg) {c : Char} {p : List Char} (h : ¬ (c = '{' ∧ p.head? ≠ some '{')) :
    ∃ text p', p'.length ≤ p.length ∧
      (∀ rounds, readItems (rounds + 1) (c :: p) = .literal text :: readItems rounds p') ∧
      ∀ rounds autoIndex s, formatLoop textSink args (rounds + 1) autoIndex (c :: p) s =
        formatLoop textSink args rounds autoIndex p' (s ++ text) := by
  have htail : p.tail.length ≤ p.length := by
    rw [List.length_tail]
    omega
  by_cases hopen : c = '{'
  · have hescape : p.head? = some '{' := by
      by_contra hne
      exact h ⟨hopen, hne⟩
    refine ⟨['{'], p.tail, htail, fun rounds => ?_, fun rounds autoIndex s => ?_⟩
    · rw [readItems, if_pos hopen, if_pos hescape]
    · rw [formatLoop, if_pos hopen, if_pos hescape]
      rfl
  · by_cases hclose : c = '}'
    · refine ⟨['}'], if p.head? = some '}' then p.tail else p, ?_, fun rounds => ?_,
        fun rounds autoIndex s => ?_⟩
      · split
        · exact htail
        · exact le_rfl
      · rw [readItems, if_neg hopen, if_pos hclose]
      · rw [formatLoop, if_neg hopen, if_pos hclose]
        rfl
    · have hbrace : notBrace c = true := decide_eq_true ⟨hopen, hclose⟩
      refine ⟨(c :: p).takeWhile notBrace, (c :: p).dropWhile notBrace,
        length_dropWhile_cons hbrace, fun rounds => ?_, fun rounds autoIndex s => ?_⟩
      · rw [readItems, if_neg hopen, if_neg hclose]
      · rw [formatLoop, if_neg hopen, if_neg hclose]
        change (textSink.write _ s).bind _ = _
        rw [write_textSink, bind_some]

theorem formatLoop_field {p : List Char} (h : p.head? ≠ some '{') {spec : Spec}
    (hspec : parseSpec (splitSpec (p.dropWhile isDecDigit)).1 = some spec)
    (rounds autoIndex : ℕ) (s : List Char) :
    formatLoop textSink args (rounds + 1) autoIndex ('{' :: p) s =
      (fieldText args (((readIndex p).map (· % 2 ^ 64)).getD autoIndex) spec).bind fun text =>
        formatLoop textSink args rounds
          (if (readIndex p).isSome ∨ args.length ≤ autoIndex then autoIndex else autoIndex + 1)
          (behindField p) (s ++ text) := by
  rw [formatLoop, if_neg h, parseField_eq, hspec, fieldText]
  dsimp only [map_some]
  rw [Option.isSome_map]
  generalize hi : ((readIndex p).map (· % 2 ^ 64)).getD autoIndex = i
  have hauto : (readIndex p).isSome = false → i = autoIndex := by
    intro hnone
    rw [← hi, isSome_eq_false_iff.mp hnone |> isNone_iff_eq_none.mp]
    rfl
  cases harg : args[i]? with
  | none =>
    have hstay : (readIndex p).isSome = true ∨ args.length ≤ autoIndex := by
      cases hsome : (readIndex p).isSome with
      | true => exact .inl rfl
      | false => exact .inr (hauto hsome ▸ List.getElem?_eq_none_iff.mp harg)
    rw [if_pos hstay]
    rfl
  | some arg =>
    have hnext : (if (readIndex p).isSome = true ∨ args.length ≤ autoIndex then autoIndex
        else autoIndex + 1) = if (readIndex p).isSome = true then autoIndex else autoIndex + 1 := by
      cases hsome : (readIndex p).isSome with
      | true => rw [if_pos (.inl rfl), if_pos rfl]
      | false =>
        have hlt := (List.getElem?_eq_some_iff.mp harg).1
        rw [hauto hsome] at hlt
        rw [if_neg (by simp only [Bool.false_eq_true, false_or]; omega),
          if_neg Bool.false_ne_true]
    dsimp only
    rw [hnext]
    change (formatArgValue textSink arg spec s).bind _ = _
    rw [formatArgValue_append]
    cases textOf (formatArgValue textSink arg spec) with
    | none => rfl
    | some text => rfl

theorem formatLoop_overflow {p : List Char} (h : p.head? ≠ some '{')
    (hspec : parseSpec (splitSpec (p.dropWhile isDecDigit)).1 = none)
    (rounds autoIndex : ℕ) (s : List Char) :
    formatLoop textSink args (rounds + 1) autoIndex ('{' :: p) s = none := by
  rw [formatLoop, if_neg h, parseField_eq, hspec]
  rfl

theorem fieldText_min (n : ℕ) (index : Option ℕ) (spec : Spec) :
    fieldText args (index.getD (min n args.length)) spec = fieldText args (index.getD n) spec := by
  have hget : args[index.getD (min n args.length)]? = args[index.getD n]? := by
    cases index with
    | some N => rfl
    | none =>
      change args[min n args.length]? = args[n]?
      by_cases hn : n < args.length
      · rw [Nat.min_eq_left hn.le]
      · rw [Nat.min_eq_right (not_lt.mp hn), List.getElem?_eq_none le_rfl,
          List.getElem?_eq_none (not_lt.mp hn)]
  rw [fieldText, fieldText, hget]

/-- Where every specification is small, the formatter writes the items with the indices
that it computes. -/
theorem formatLoop_of_small {rounds : ℕ} {p : List Char}
    (hsmall : ∀ item ∈ readItems rounds p, item.Small) (hrounds : p.length ≤ rounds) (n : ℕ)
    (s : List Char) : formatLoop textSink args rounds (min n args.length) p s =
      (render args n ((readItems rounds p).map Item.wrapped)).map fun t => ((), s ++ t) := by
  induction rounds generalizing p n s with
  | zero =>
    obtain rfl := List.length_eq_zero_iff.mp (le_zero.mp hrounds)
    rw [readItems, List.map_nil, render, map_some, List.append_nil]
    rfl
  | succ rounds ih =>
    cases p with
    | nil =>
      rw [readItems, List.map_nil, render, map_some, List.append_nil]
      · rfl
      · exact succ_ne_zero _
    | cons c p =>
      have hp : p.length ≤ rounds := le_of_succ_le_succ hrounds
      by_cases hfield : c = '{' ∧ p.head? ≠ some '{'
      · obtain ⟨rfl, hhead⟩ := hfield
        rw [readItems_field hhead] at hsmall ⊢
        have hspec := parseSpec_of_small (hsmall _ List.mem_cons_self)
        have hrest := fun item hitem => hsmall item (List.mem_cons_of_mem _ hitem)
        have hlength := (length_behindField p).trans hp
        rw [formatLoop_field hhead hspec, fieldText_min, List.map_cons, Item.wrapped, render,
          Option.isSome_map]
        cases fieldText args (((readIndex p).map (· % 2 ^ 64)).getD n)
            (readSpec (splitSpec (p.dropWhile isDecDigit)).1) with
        | none => rfl
        | some text =>
          have hnext : (if (readIndex p).isSome ∨ args.length ≤ min n args.length then
              min n args.length else min n args.length + 1) =
              min (if (readIndex p).isSome then n else n + 1) args.length := by
            split
            · next hstay =>
              split
              · rfl
              · next hsome => have := hstay.resolve_left hsome; omega
            · next hgo =>
              rw [if_neg fun hsome => hgo (.inl hsome)]
              have := not_le.mp fun hle => hgo (.inr hle)
              omega
          rw [bind_some, hnext, ih hrest hlength]
          generalize render args _ ((readItems rounds (behindField p)).map Item.wrapped) = o
          cases o with
          | none => rfl
          | some t => exact congrArg some (Prod.ext rfl (List.append_assoc _ _ _))
      · obtain ⟨text, p', hp', hread, hloop⟩ := formatLoop_literal args hfield
        rw [hread] at hsmall ⊢
        rw [hloop, ih (fun item hitem => hsmall item (List.mem_cons_of_mem _ hitem))
          (hp'.trans hp), List.map_cons, Item.wrapped, render, map_append]

/-- Where a number of a specification is too large, the formatter has no text. -/
theorem formatLoop_of_large {rounds : ℕ} {p : List Char}
    (hlarge : ∃ item ∈ readItems rounds p, ¬ item.Small) (hrounds : p.length ≤ rounds)
    (autoIndex : ℕ) (s : List Char) : formatLoop textSink args rounds autoIndex p s = none := by
  induction rounds generalizing p autoIndex s with
  | zero =>
    obtain ⟨item, hitem, -⟩ := hlarge
    cases hitem
  | succ rounds ih =>
    obtain ⟨item, hitem, hbig⟩ := hlarge
    cases p with
    | nil => cases hitem
    | cons c p =>
      have hp : p.length ≤ rounds := le_of_succ_le_succ hrounds
      by_cases hfield : c = '{' ∧ p.head? ≠ some '{'
      · obtain ⟨rfl, hhead⟩ := hfield
        rw [readItems_field hhead] at hitem
        by_cases hspec : (readSpec (splitSpec (p.dropWhile isDecDigit)).1).Small
        · have hrest : item ∈ readItems rounds (behindField p) := by
            rcases List.mem_cons.mp hitem with rfl | hrest
            · exact absurd hspec hbig
            · exact hrest
          rw [formatLoop_field hhead (parseSpec_of_small hspec)]
          cases fieldText args (((readIndex p).map (· % 2 ^ 64)).getD autoIndex)
              (readSpec (splitSpec (p.dropWhile isDecDigit)).1) with
          | none => rfl
          | some text =>
            exact ih ⟨item, hrest, hbig⟩ ((length_behindField p).trans hp) _ _
        · exact formatLoop_overflow hhead (parseSpec_of_large hspec) _ _ _
      · obtain ⟨text, p', hp', hread, hloop⟩ := formatLoop_literal args hfield
        rw [hread] at hitem
        have hrest : item ∈ readItems rounds p' := by
          rcases List.mem_cons.mp hitem with rfl | hrest
          · exact absurd trivial hbig
          · exact hrest
        rw [hloop]
        exact ih ⟨item, hrest, hbig⟩ (hp'.trans hp) _ _

end Loop

section Reading

def formatText (fmt : List Char) (args : List Arg) : Option (List Char) :=
  textOf (formatCore textSink (some fmt) args)

/-- The index of a field is the one written, or as far out of range, and its width and
precision are below 2^31. -/
def Item.InRange (argc : ℕ) : Item → Prop
  | .literal _ => True
  | .field index spec =>
    (∀ N ∈ index, N < 2 ^ 64 ∨ argc ≤ N % 2 ^ 64) ∧ spec.width < 2 ^ 31 ∧ spec.precision < 2 ^ 31

theorem formatText_of_small {fmt : List Char} (h : ∀ item ∈ read fmt, item.Small)
    (args : List Arg) : formatText fmt args = render args 0 ((read fmt).map Item.wrapped) := by
  have hloop : formatLoop textSink args (cString fmt).length (min 0 args.length) (cString fmt) [] =
      (render args 0 ((read fmt).map Item.wrapped)).map fun t => ((), [] ++ t) :=
    formatLoop_of_small h le_rfl 0 []
  rw [Nat.zero_min] at hloop
  rw [formatText, textOf, formatCore, hloop, Option.map_map]
  exact congrFun map_id _

theorem formatText_of_large {fmt : List Char} (h : ∃ item ∈ read fmt, ¬ item.Small)
    (args : List Arg) : formatText fmt args = none := by
  rw [formatText, textOf, formatCore, formatLoop_of_large h le_rfl]
  rfl

theorem fieldText_wrapped {args : List Arg} {index : Option ℕ}
    (h : ∀ N ∈ index, N < 2 ^ 64 ∨ args.length ≤ N % 2 ^ 64) (n : ℕ) (spec : Spec) :
    fieldText args ((index.map (· % 2 ^ 64)).getD n) spec = fieldText args (index.getD n) spec := by
  cases index with
  | none => rfl
  | some N =>
    obtain hlt | hge := h N rfl
    · rw [map_some, mod_eq_of_lt hlt]
    · have hle := mod_le N (2 ^ 64)
      rw [map_some, getD_some, getD_some, fieldText, fieldText,
        List.getElem?_eq_none hge, List.getElem?_eq_none (hge.trans hle)]

theorem render_wrapped {args : List Arg} (n : ℕ) {items : List Item}
    (h : ∀ item ∈ items, item.InRange args.length) :
    render args n (items.map Item.wrapped) = render args n items := by
  induction items generalizing n with
  | nil => rfl
  | cons item rest ih =>
    have hrest := fun i hi => h i (List.mem_cons_of_mem _ hi)
    cases item with
    | literal text => rw [List.map_cons, Item.wrapped, render, render, ih n hrest]
    | field index spec =>
      rw [List.map_cons, Item.wrapped, render, render, Option.isSome_map,
        fieldText_wrapped (h _ List.mem_cons_self).1, ih _ hrest]

theorem fieldText_replicate (argc i : ℕ) (spec : Spec) :
    fieldText (List.replicate argc .none) i spec =
      some (if i < argc then ['(', '?', ')'] else ['{', '?', '}']) := by
  by_cases hi : i < argc
  · rw [fieldText, List.getElem?_replicate_of_lt hi, if_pos hi]
    rfl
  · rw [fieldText, List.getElem?_eq_none (by simpa using hi), if_neg hi]

theorem exists_render_replicate (argc n : ℕ) (items : List Item) :
    ∃ text, render (List.replicate argc .none) n items = some text := by
  induction items generalizing n with
  | nil => exact ⟨[], rfl⟩
  | cons item rest ih =>
    cases item with
    | literal text =>
      obtain ⟨t, ht⟩ := ih n
      exact ⟨text ++ t, by rw [render, ht]; rfl⟩
    | field index spec =>
      obtain ⟨t, ht⟩ := ih (if index.isSome then n else n + 1)
      exact ⟨_ ++ t, by rw [render, fieldText_replicate, ht]; rfl⟩

theorem index_of_render_eq {argc : ℕ} (hargc : argc < 2 ^ 64) (n : ℕ) {items : List Item}
    (h : render (List.replicate argc .none) n (items.map Item.wrapped) =
      render (List.replicate argc .none) n items) :
    ∀ index spec, .field index spec ∈ items → ∀ N ∈ index, N < 2 ^ 64 ∨ argc ≤ N % 2 ^ 64 := by
  induction items generalizing n with
  | nil => exact fun _ _ hmem => absurd hmem nofun
  | cons item rest ih =>
    intro index spec hmem N hN
    cases item with
    | literal text =>
      have hrest := Option.map_injective (List.append_right_injective text) h
      exact ih n hrest index spec ((List.mem_cons.mp hmem).resolve_left nofun) N hN
    | field index' spec' =>
      rw [List.map_cons, Item.wrapped, render, render, Option.isSome_map, fieldText_replicate,
        fieldText_replicate] at h
      obtain ⟨t, ht⟩ := exists_render_replicate argc (if index'.isSome then n else n + 1)
        (rest.map Item.wrapped)
      obtain ⟨t', ht'⟩ := exists_render_replicate argc (if index'.isSome then n else n + 1) rest
      rw [ht, ht'] at h
      have hlength : (if (index'.map (· % 2 ^ 64)).getD n < argc then ['(', '?', ')']
          else ['{', '?', '}']).length =
          (if index'.getD n < argc then ['(', '?', ')'] else ['{', '?', '}']).length := by
        split
        · split
          · rfl
          · rfl
        · split
          · rfl
          · rfl
      obtain ⟨hmarker, hrest⟩ := List.append_inj (Option.some.inj h) hlength
      rcases List.mem_cons.mp hmem with heq | hmem
      · obtain ⟨rfl, rfl⟩ := Item.field.inj heq
        obtain rfl : index = some N := hN
        rw [map_some, getD_some] at hmarker
        by_cases hlt : N % 2 ^ 64 < argc
        · rw [if_pos hlt] at hmarker
          split at hmarker
          · next hN => exact .inl (hN.trans hargc)
          · cases hmarker
        · exact .inr (not_lt.mp hlt)
      · exact ih _ (by rw [ht, ht', hrest]) index spec hmem N hN

/-- The formatter writes what its text says, whatever the arguments are, just where every
field is in range. -/
theorem formatText_eq_render_iff (fmt : List Char) {argc : ℕ} (hargc : argc < 2 ^ 64) :
    (∀ args : List Arg, args.length = argc → formatText fmt args = render args 0 (read fmt)) ↔
      ∀ item ∈ read fmt, item.InRange argc := by
  constructor
  · intro h
    have heq := h (List.replicate argc .none) List.length_replicate
    obtain ⟨text, htext⟩ := exists_render_replicate argc 0 (read fmt)
    have hsmall : ∀ item ∈ read fmt, item.Small := by
      intro item hitem
      by_contra hlarge
      rw [formatText_of_large ⟨item, hitem, hlarge⟩, htext] at heq
      cases heq
    rw [formatText_of_small hsmall] at heq
    intro item hitem
    cases item with
    | literal text => exact trivial
    | field index spec =>
      exact ⟨index_of_render_eq hargc 0 heq index spec hitem, hsmall _ hitem⟩
  · rintro h args rfl
    have hsmall : ∀ item ∈ read fmt, item.Small := by
      intro item hitem
      cases item with
      | literal text => exact trivial
      | field index spec => exact (h _ hitem).2
    rw [formatText_of_small hsmall]
    exact render_wrapped 0 h

theorem formatText_eq_render_second : formatText ['a', '{', '1', '}'] [.bool true, .i64 7] =
      render [.bool true, .i64 7] 0 [.literal ['a'], .field (some 1) .new] := by
  have hread : read ['a', '{', '1', '}'] = [.literal ['a'], .field (some 1) .new] := by decide
  have hrange : ∀ item ∈ read ['a', '{', '1', '}'], item.InRange 2 := by
    intro item hitem
    rcases List.mem_cons.mp hitem with rfl | hitem
    · exact trivial
    · rw [List.mem_singleton.mp hitem]
      refine ⟨fun N hN => ?_, by decide, by decide⟩
      rw [← Option.some.inj hN]
      exact .inl (by decide)
  rw [← hread]
  exact (formatText_eq_render_iff _ (by decide : 2 < 2 ^ 64)).mpr hrange _ rfl

/-- The index `2 ^ 64` is the index 0. -/
def wrappingIndex : List Char :=
  ['{', '1', '8', '4', '4', '6', '7', '4', '4', '0', '7', '3', '7', '0', '9', '5', '5', '1', '6',
    '1', '6', '}']

theorem formatText_wraps : formatText wrappingIndex [.bool true] = some ['t', 'r', 'u', 'e'] ∧
    render [.bool true] 0 (read wrappingIndex) = some ['{', '?', '}'] := by
  decide +kernel

end Reading

end Equilibrium.Format
