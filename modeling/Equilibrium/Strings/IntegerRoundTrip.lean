import Mathlib.Data.UInt
import Equilibrium.Strings.FormatSinks
import Equilibrium.Strings.FormatSyntax
import Equilibrium.Strings.NumberParse

/-! `ParseInteger` and `ParseUnsigned` read back the text that `Format` writes for a 64-bit
integer, in each of its radices. -/

namespace Equilibrium.IntegerRoundTrip

open Format NumberParse List Nat

section Digits

variable {base limit : ℕ}

/-- The number that digits, the most significant first, continue `n` with. -/
def numeralFrom (base n : ℕ) (ds : List ℕ) : ℕ := ds.foldl (fun n d => n * base + d) n

def charsOf (upper : Bool) (ds : List ℕ) : List Char := ds.map (digitOf upper)

theorem numeralFrom_zeros (z : ℕ) (ds : List ℕ) :
    numeralFrom base 0 (List.replicate z 0 ++ ds) = numeralFrom base 0 ds := by
  induction z with
  | zero => rfl
  | succ z ih =>
    rw [replicate_succ, cons_append, numeralFrom, foldl_cons, Nat.zero_mul]
    exact ih

theorem numeralFrom_digits (base n : ℕ) : numeralFrom base 0 (Nat.digits base n).reverse = n := by
  have hfold : ∀ ds : List ℕ, ds.foldr (fun d n => n * base + d) 0 =
      ds.foldr (fun d n => d + base * n) 0 := by
    intro ds
    congr 1
    funext d n
    rw [Nat.mul_comm, Nat.add_comm]
  rw [numeralFrom, foldl_reverse, hfold]
  have hread := ofDigits_digits base n
  rw [ofDigits_eq_foldr] at hread
  exact hread

theorem le_numeralFrom (hbase : 0 < base) (n : ℕ) (ds : List ℕ) : n ≤ numeralFrom base n ds := by
  induction ds generalizing n with
  | nil => exact Nat.le_refl n
  | cons d ds ih =>
    have hstep : n ≤ n * base + d :=
      Nat.le_trans (Nat.le_mul_of_pos_right n hbase) (Nat.le_add_right _ d)
    exact Nat.le_trans hstep (ih (n * base + d))

theorem digitValue_digitOf (upper : Bool) {d : ℕ} (hd : d < base) (hbase : base ≤ 16) :
    digitValue (digitOf upper d) base = some d := by
  have hall : ∀ (upper : Bool) (d : Fin 16), digitValue (digitOf upper d) 36 = some d.val := by
    decide
  have hvalue := hall upper ⟨d, by omega⟩
  rw [digitValue, Option.filter_eq_some_iff] at hvalue
  rw [digitValue, Option.filter_eq_some_iff]
  exact ⟨hvalue.1, decide_eq_true (by exact_mod_cast hd)⟩

variable {ds : List ℕ}

theorem accumulateLoop_charsOf (upper : Bool) (hbase : 0 < base) (hbase' : base ≤ 16)
    (hlimit : limit < 2 ^ 64) (hds : ∀ d ∈ ds, d < base) {n : ℕ}
    (hfits : numeralFrom base n ds ≤ limit) :
    accumulateLoop base limit (charsOf upper ds) n false = (numeralFrom base n ds, []) := by
  induction ds generalizing n with
  | nil => rfl
  | cons d ds ih =>
    have hd := hds d mem_cons_self
    have hstep : n * base + d ≤ limit := Nat.le_trans (le_numeralFrom hbase _ ds) hfits
    have hdiv := div_add_mod limit base
    have hmod := mod_lt limit hbase
    have hkept : ¬(n > limit / base ∨ n = limit / base ∧ d > limit % base) := by
      rintro (hgt | ⟨heq, hgt⟩)
      · have hmul : (limit / base + 1) * base ≤ n * base := Nat.mul_le_mul_right base hgt
        rw [succ_mul, Nat.mul_comm] at hmul
        omega
      · rw [heq, Nat.mul_comm] at hstep
        omega
    rw [charsOf, map_cons, accumulateLoop, digitValue_digitOf upper hd hbase']
    dsimp only
    rw [if_neg Bool.false_ne_true, if_neg hkept, mod_eq_of_lt (by omega)]
    exact ih (fun d hd => hds d (mem_cons_of_mem _ hd)) hfits

theorem accumulateDigits_charsOf (upper : Bool) (hbase : 0 < base) (hbase' : base ≤ 16)
    (hlimit : limit < 2 ^ 64) (hne : ds ≠ []) (hds : ∀ d ∈ ds, d < base)
    (hfits : numeralFrom base 0 ds ≤ limit) :
    accumulateDigits (charsOf upper ds) base limit = some (numeralFrom base 0 ds, []) := by
  obtain ⟨d, rest, rfl⟩ := exists_cons_of_ne_nil hne
  have hfirst : digitValue (charAt (charsOf upper (d :: rest)) 0) base = some d :=
    digitValue_digitOf upper (hds d mem_cons_self) hbase'
  rw [accumulateDigits, hfirst, Option.isSome_some, if_pos rfl,
    accumulateLoop_charsOf upper hbase hbase' hlimit hds hfits]

end Digits

section Reading

variable {base : ℕ} {radix : ℤ} {p : List Char}

theorem digitOf_plain (upper : Bool) {d : ℕ} (hd : d < 16) :
    isSpace (digitOf upper d) = false ∧ digitOf upper d ≠ '+' ∧ digitOf upper d ≠ '-' ∧
      lower (digitOf upper d) ≠ 'x' := by
  have hall : ∀ (upper : Bool) (d : Fin 16), isSpace (digitOf upper d) = false ∧
      digitOf upper d ≠ '+' ∧ digitOf upper d ≠ '-' ∧ lower (digitOf upper d) ≠ 'x' := by
    decide
  exact hall upper ⟨d, hd⟩

variable {c : Char}

theorem skipSign_plain (hplus : c ≠ '+') (hminus : c ≠ '-') :
    skipSign (c :: p) = (false, c :: p) := by
  unfold skipSign
  split
  case h_1 heq => exact absurd (List.cons.inj heq).1 hplus
  case h_2 heq => exact absurd (List.cons.inj heq).1 hminus
  case h_3 => rfl

theorem skipSpaceAndSign_blanks (k : ℕ) (text : List Char) :
    skipSpaceAndSign (List.replicate k ' ' ++ text) = skipSpaceAndSign text := by
  have hblank : ∀ c ∈ List.replicate k ' ', isSpace c = true := by
    intro c hc
    rw [eq_of_mem_replicate hc]
    rfl
  rw [skipSpaceAndSign, dropWhile_append_of_pos hblank]
  rfl

/-- The sign of a text: `-`, or what a flag asks for. -/
def signOf (negative : Bool) (sign : Char) : List Char :=
  if negative then ['-'] else if sign = '+' then ['+'] else if sign = ' ' then [' '] else []

theorem skipSpaceAndSign_signOf (negative : Bool) (sign : Char) (hspace : isSpace c = false)
    (hplus : c ≠ '+') (hminus : c ≠ '-') :
    skipSpaceAndSign (signOf negative sign ++ c :: p) = (negative, c :: p) := by
  have hdrop : (c :: p).dropWhile isSpace = c :: p := by
    rw [dropWhile_cons_of_neg (by rw [hspace]; exact Bool.false_ne_true)]
  have hplain : skipSpaceAndSign (c :: p) = (false, c :: p) := by
    rw [skipSpaceAndSign, hdrop, skipSign_plain hplus hminus]
  cases negative with
  | true => rfl
  | false =>
    by_cases h : sign = '+'
    · subst h
      rfl
    · by_cases h' : sign = ' '
      · subst h'
        exact (skipSpaceAndSign_blanks 1 (c :: p)).trans hplain
      · rw [signOf, if_neg Bool.false_ne_true, if_neg h, if_neg h']
        exact hplain

theorem applyRadixPrefix_plain (hradix : radix ≠ 0) (hx : lower (charAt p 1) ≠ 'x') :
    applyRadixPrefix p radix = (p, radix) := by
  rw [applyRadixPrefix, if_neg fun h => hx h.2.2.1, if_neg hradix]

theorem applyRadixPrefix_hex (hradix : radix = 0 ∨ radix = 16) (hc : lower c = 'x')
    (hdigit : (digitValue (charAt p 0) 16).isSome) :
    applyRadixPrefix ('0' :: c :: p) radix = (p, 16) := by
  rw [applyRadixPrefix, if_pos ⟨hradix, rfl, hc, hdigit⟩]
  rfl

theorem applyRadixPrefix_octal (hx : lower (charAt p 0) ≠ 'x')
    (hdigit : (digitValue (charAt p 0) 8).isSome) :
    applyRadixPrefix ('0' :: p) 0 = ('0' :: p, 8) := by
  rw [applyRadixPrefix, if_neg fun h => hx h.2.2.1, if_pos rfl]
  exact congrArg (Prod.mk _) (if_pos ⟨rfl, hdigit⟩)

def radixOf (type : Char) : ℕ := if type = 'd' then 10 else if type = 'o' then 8 else 16

/-- The radices that the text of a specification is read in: that of its type, and 0 with a
prefix. -/
def Reads (spec : Spec) (radix : ℤ) : Prop :=
  radix = radixOf spec.type ∨ radix = 0 ∧ spec.alt = true ∧ spec.type ≠ 'd'

def prefixOf (spec : Spec) : List Char :=
  if spec.alt = false ∨ spec.type = 'd' then []
  else if spec.type = 'o' then ['0'] else ['0', spec.type]

theorem integerBase_eq {spec : Spec} (htype : spec.type ∈ ['d', 'x', 'X', 'o']) :
    integerBase spec = (radixOf spec.type, decide (spec.type = 'X'), prefixOf spec) := by
  have hcases : spec.type = 'd' ∨ spec.type = 'x' ∨ spec.type = 'X' ∨ spec.type = 'o' := by
    simpa using htype
  rw [integerBase, radixOf, prefixOf]
  obtain h | h | h | h := hcases
  · simp [h]
  · cases spec.alt <;> simp [h]
  · cases spec.alt <;> simp [h]
  · cases spec.alt <;> simp [h]

theorem radixOf_bounds (type : Char) : 1 < radixOf type ∧ radixOf type ≤ 16 := by
  unfold radixOf
  split_ifs <;> omega

/-- What is read behind the sign are the digits, with a zero before them when that is the
prefix. -/
theorem applyRadixPrefix_text {spec : Spec} (htype : spec.type ∈ ['d', 'x', 'X', 'o'])
    (hradix : Reads spec radix) (upper : Bool) (hne : ds ≠ [])
    (hds : ∀ d ∈ ds, d < radixOf spec.type) :
    ∃ es, applyRadixPrefix (prefixOf spec ++ charsOf upper ds) radix =
        (charsOf upper es, (radixOf spec.type : ℤ)) ∧ es ≠ [] ∧ (∀ d ∈ es, d < radixOf spec.type) ∧
        numeralFrom (radixOf spec.type) 0 es = numeralFrom (radixOf spec.type) 0 ds := by
  obtain ⟨hpos, hbase⟩ := radixOf_bounds spec.type
  have hne0 : (radixOf spec.type : ℤ) ≠ 0 := by omega
  obtain ⟨d, rest, rfl⟩ := exists_cons_of_ne_nil hne
  have hd := hds d mem_cons_self
  have hfirst : charAt (charsOf upper (d :: rest)) 0 = digitOf upper d := rfl
  rw [prefixOf]
  split_ifs with hno hoctal
  · have hself : radix = radixOf spec.type := by
      obtain h | ⟨-, halt, hnot⟩ := hradix
      · exact h
      · obtain hno | hno := hno
        · exact absurd (halt.symm.trans hno) (by decide)
        · exact absurd hno hnot
    have hsecond : lower (charAt (charsOf upper (d :: rest)) 1) ≠ 'x' := by
      cases rest with
      | nil =>
        change lower '\x00' ≠ 'x'
        decide
      | cons d' rest =>
        have hd' := hds d' (mem_cons_of_mem _ mem_cons_self)
        exact (digitOf_plain upper (by omega : d' < 16)).2.2.2
    rw [hself, nil_append, applyRadixPrefix_plain hne0 hsecond]
    exact ⟨d :: rest, rfl, hne, hds, rfl⟩
  · have h8 : radixOf spec.type = 8 := by rw [hoctal]; rfl
    rw [h8] at hd hds ⊢
    have hx : lower (charAt (charsOf upper (d :: rest)) 0) ≠ 'x' :=
      (digitOf_plain upper (by omega : d < 16)).2.2.2
    have hread : applyRadixPrefix ('0' :: charsOf upper (d :: rest)) radix =
        ('0' :: charsOf upper (d :: rest), 8) := by
      obtain h | h := hradix
      · rw [h, h8]
        exact applyRadixPrefix_plain (by decide) hx
      · rw [h.1]
        refine applyRadixPrefix_octal hx ?_
        have hvalue : digitValue (digitOf upper d) 8 = some d :=
          digitValue_digitOf upper hd (by decide)
        rw [hfirst, hvalue]
        rfl
    refine ⟨0 :: d :: rest, hread, cons_ne_nil _ _, ?_, ?_⟩
    · intro e he
      obtain rfl | he := mem_cons.mp he
      · decide
      · exact hds e he
    · exact numeralFrom_zeros 1 (d :: rest)
  · have hhex : spec.type = 'x' ∨ spec.type = 'X' := by
      have hcases : spec.type = 'd' ∨ spec.type = 'x' ∨ spec.type = 'X' ∨ spec.type = 'o' := by
        simpa using htype
      tauto
    have h16 : radixOf spec.type = 16 := by
      obtain h | h := hhex <;> rw [h] <;> rfl
    have hletter : lower spec.type = 'x' := by
      obtain h | h := hhex <;> rw [h] <;> rfl
    rw [h16] at hd hds ⊢
    have heither : radix = 0 ∨ radix = 16 := by
      obtain h | h := hradix
      · exact .inr (h.trans (by rw [h16]; rfl))
      · exact .inl h.1
    have hvalue : digitValue (digitOf upper d) 16 = some d :=
      digitValue_digitOf upper hd (by decide)
    rw [cons_append, singleton_append,
      applyRadixPrefix_hex heither hletter (by rw [hfirst, hvalue]; rfl)]
    exact ⟨d :: rest, rfl, hne, hds, rfl⟩

theorem parseMagnitude_text {spec : Spec} (htype : spec.type ∈ ['d', 'x', 'X', 'o'])
    (hradix : Reads spec radix) (upper negative : Bool) (sign : Char) (k : ℕ) (hne : ds ≠ [])
    (hds : ∀ d ∈ ds, d < radixOf spec.type) {limit : Bool → ℕ} (hlimit : limit negative < 2 ^ 64)
    (hfits : numeralFrom (radixOf spec.type) 0 ds ≤ limit negative) :
    parseMagnitude (List.replicate k ' ' ++ (signOf negative sign ++
        (prefixOf spec ++ charsOf upper ds))) radix limit =
      some (negative, UInt64.ofNat (numeralFrom (radixOf spec.type) 0 ds), []) := by
  obtain ⟨hpos, hbase⟩ := radixOf_bounds spec.type
  have hhead : ∃ c p, prefixOf spec ++ charsOf upper ds = c :: p ∧ isSpace c = false ∧ c ≠ '+' ∧
      c ≠ '-' := by
    rw [prefixOf]
    split_ifs
    · obtain ⟨d, rest, rfl⟩ := exists_cons_of_ne_nil hne
      have hd := hds d mem_cons_self
      obtain ⟨hspace, hplus, hminus, -⟩ := digitOf_plain upper (by omega : d < 16)
      exact ⟨digitOf upper d, charsOf upper rest, rfl, hspace, hplus, hminus⟩
    · exact ⟨'0', _, rfl, rfl, by decide, by decide⟩
    · exact ⟨'0', _, rfl, rfl, by decide, by decide⟩
  obtain ⟨c, p, htext, hspace, hplus, hminus⟩ := hhead
  obtain ⟨es, hlead, hnonempty, hdigits, hvalue⟩ :=
    applyRadixPrefix_text htype hradix upper hne hds
  rw [parseMagnitude, skipSpaceAndSign_blanks, htext,
    skipSpaceAndSign_signOf negative sign hspace hplus hminus, ← htext]
  dsimp only
  rw [hlead]
  have hrange : ¬((radixOf spec.type : ℤ) < 2 ∨ 36 < (radixOf spec.type : ℤ)) := by
    omega
  rw [if_neg hrange, Int.toNat_natCast, accumulateDigits_charsOf upper (by omega) hbase hlimit
    hnonempty hdigits (hvalue ▸ hfits), hvalue]
  rfl

end Reading

section Writing

def Appends (x : Steps (List Char) Unit) (text : List Char) : Prop :=
  ∀ s, s.length + text.length ≤ kMaxCapacity → x s = some ((), s ++ text)

variable {x y : Steps (List Char) Unit} {text rest : List Char}

theorem stringSink_collects : stringSink.Collects (· ≤ kMaxCapacity) where
  takes _ _ h := if_pos h
  closed _ _ := Nat.le_trans

theorem Appends.bind (hx : Appends x text) (hy : Appends y rest) :
    Appends (x >>= fun _ => y) (text ++ rest) :=
  Adds.bind stringSink_collects hx hy

theorem appends_write (data : List Char) : Appends (stringSink.write data) data :=
  adds_write stringSink_collects data

theorem appends_writeChars (text : List Char) : Appends (stringSink.writeChars text) text :=
  adds_writeChars stringSink_collects text

theorem appends_emitFill (c : Char) (n : ℕ) :
    Appends (emitFill stringSink c n) (List.replicate n c) :=
  adds_emitFill stringSink_collects c n

theorem appends_emitAligned {fill : Char} {bodyLen width : ℤ} (hbody : Appends x text)
    (hlen : 0 ≤ bodyLen) (hwidth : width < 2 ^ 31) :
    Appends (emitAligned stringSink '>' fill bodyLen width x)
      (List.replicate (width - bodyLen).toNat fill ++ text) :=
  adds_emitAligned stringSink_collects '>' fill hbody (by omega)

def digitsOf (base n : ℕ) : List ℕ := if n = 0 then [0] else (Nat.digits base n).reverse

theorem digitsOf_ne_nil (base n : ℕ) : digitsOf base n ≠ [] := by
  rw [digitsOf]
  split
  case isTrue => exact cons_ne_nil _ _
  case isFalse h =>
    intro hnil
    exact digits_ne_nil_iff_ne_zero.mpr h (reverse_eq_nil_iff.mp hnil)

theorem digitsOf_lt {base n d : ℕ} (hbase : 1 < base) (hd : d ∈ digitsOf base n) : d < base := by
  rw [digitsOf] at hd
  split at hd
  case isTrue =>
    rw [mem_singleton.mp hd]
    omega
  case isFalse => exact digits_lt_base hbase (mem_reverse.mp hd)

theorem numeralFrom_digitsOf (base n : ℕ) : numeralFrom base 0 (digitsOf base n) = n := by
  rw [digitsOf]
  split
  case isTrue h => rw [h]; exact Nat.zero_mul base
  case isFalse => exact numeralFrom_digits base n

theorem digitLoop_eq {base : ℕ} (hbase : 1 < base) (upper : Bool) (room : ℕ) {n : ℕ}
    (hn : n < base ^ room) : digitLoop base upper room n = charsOf upper (Nat.digits base n) := by
  induction room generalizing n with
  | zero =>
    rw [lt_one_iff.mp hn, digits_zero]
    rfl
  | succ room ih =>
    rw [digitLoop]
    by_cases hzero : n = 0
    · rw [if_pos hzero, hzero, digits_zero]
      rfl
    · rw [if_neg hzero, digits_def' hbase (Nat.pos_of_ne_zero hzero),
        ih (Nat.div_lt_of_lt_mul (by rw [Nat.mul_comm, ← pow_succ]; exact hn))]
      rfl

end Writing

section Specifications

/-- A specification of an integer without an alignment of its own; its numbers are `int`s. -/
structure Numeric (spec : Spec) : Prop where
  type : spec.type ∈ ['d', 'x', 'X', 'o']
  align : spec.align = '\x00'
  fill : spec.fill = ' '
  width : spec.width < 2 ^ 31
  precision : spec.precision < 2 ^ 31

variable {spec : Spec}

/-- A text with blanks, a sign, a prefix, zeros and the digits of a number. -/
def integerText (spec : Spec) (negative : Bool) (n k z : ℕ) : List Char :=
  List.replicate k ' ' ++ (signOf negative spec.sign ++ (prefixOf spec ++
    charsOf (decide (spec.type = 'X')) (List.replicate z 0 ++ digitsOf (radixOf spec.type) n)))

theorem length_signOf (negative : Bool) (sign : Char) : (signOf negative sign).length ≤ 1 := by
  unfold signOf
  split_ifs <;> decide

theorem length_prefixOf (spec : Spec) : (prefixOf spec).length ≤ 2 := by
  unfold prefixOf
  split_ifs
  · exact Nat.zero_le _
  · exact le_succ 1
  · exact Nat.le_refl 2

theorem charsOf_zeros (upper : Bool) (z : ℕ) (ds : List ℕ) :
    charsOf upper (List.replicate z 0 ++ ds) = List.replicate z '0' ++ charsOf upper ds := by
  rw [charsOf, List.map_append, List.map_replicate]
  rfl

theorem reverse_digits_eq (spec : Spec) (abs : UInt64) : (if abs = 0 then ['0'] else
        digitLoop (radixOf spec.type) (decide (spec.type = 'X')) 64 abs.toNat).reverse =
      charsOf (decide (spec.type = 'X')) (digitsOf (radixOf spec.type) abs.toNat) := by
  have hzero : abs = 0 ↔ abs.toNat = 0 := UInt64.toNat_inj.symm
  rw [digitsOf]
  by_cases h0 : abs = 0
  · rw [if_pos h0, if_pos (hzero.mp h0)]
    rfl
  · have hlt : abs.toNat < radixOf spec.type ^ 64 :=
      Nat.lt_of_lt_of_le abs.toNat_lt (Nat.pow_le_pow_left (radixOf_bounds spec.type).1 64)
    rw [if_neg h0, if_neg fun hn => h0 (hzero.mpr hn),
      digitLoop_eq (radixOf_bounds spec.type).1 _ 64 hlt, charsOf, charsOf, map_reverse]

theorem Numeric.formatInteger_text (h : Numeric spec) (abs : UInt64) (negative : Bool) :
    ∃ k z, (integerText spec negative abs.toNat k z).length ≤ kMaxCapacity ∧
      Appends (formatInteger stringSink abs negative spec)
        (integerText spec negative abs.toNat k z) := by
  have hc : spec.type ≠ 'c' := by
    intro hc
    have htype := h.type
    rw [hc] at htype
    exact absurd htype (by decide)
  have hdigits := reverse_digits_eq spec abs
  have hroom : (if abs = 0 then ['0'] else
      digitLoop (radixOf spec.type) (decide (spec.type = 'X')) 64 abs.toNat).length ≤ 64 := by
    split
    case isTrue => decide
    case isFalse => exact length_digitLoop _ _ 64 _
  have hlength : (charsOf (decide (spec.type = 'X'))
      (digitsOf (radixOf spec.type) abs.toNat)).length ≤ 64 := by
    rw [← hdigits, length_reverse]
    exact hroom
  have hsign := length_signOf negative spec.sign
  have hlead := length_prefixOf spec
  have hwidth := h.width
  have hbound : ∀ k z, k + z < 2 ^ 32 →
      (integerText spec negative abs.toNat k z).length ≤ kMaxCapacity := by
    intro k z hkz
    rw [integerText, charsOf_zeros]
    simp only [length_append, length_replicate]
    rw [kMaxCapacity]
    omega
  rw [formatInteger, if_neg hc, integerBase_eq h.type]
  dsimp only
  generalize (if abs = 0 then ['0'] else
    digitLoop (radixOf spec.type) (decide (spec.type = 'X')) 64 abs.toNat) = digits
    at hdigits hroom ⊢
  change ∃ k z, _ ∧ Appends (if spec.zeroPad ∧ spec.align = '\x00' ∧
      spec.width > (signOf negative spec.sign).length + (prefixOf spec).length + digits.length then _
    else _) _
  split
  case isTrue hpad =>
    have hfill : (spec.width - ((signOf negative spec.sign).length + (prefixOf spec).length +
        digits.length : ℤ)).toNat < 2 ^ 31 := by omega
    refine ⟨0, _, hbound 0 _ (by omega : 0 + (spec.width - ((signOf negative spec.sign).length +
      (prefixOf spec).length + digits.length : ℤ)).toNat < 2 ^ 32), ?_⟩
    rw [integerText, charsOf_zeros, ← hdigits, replicate_zero, nil_append]
    exact (appends_writeChars _).bind ((appends_write _).bind
      ((appends_emitFill '0' _).bind (appends_writeChars _)))
  case isFalse =>
    have hfill : (spec.width - ((signOf negative spec.sign).length + (prefixOf spec).length +
        digits.length : ℤ)).toNat < 2 ^ 31 := by omega
    refine ⟨_, 0, hbound _ 0 (by omega : (spec.width - ((signOf negative spec.sign).length +
      (prefixOf spec).length + digits.length : ℤ)).toNat + 0 < 2 ^ 32), ?_⟩
    rw [integerText, charsOf_zeros, ← hdigits, replicate_zero, nil_append, h.align,
      if_neg (fun hne => hne rfl), h.fill]
    exact appends_emitAligned ((appends_writeChars _).bind ((appends_write _).bind
      (appends_writeChars _))) (by omega) hwidth

/-- A format text with one field. -/
def fieldOf (y : SpecSyntax) : List Char := '{' :: ':' :: (y.text ++ ['}'])

/-- What the value is written as, by itself and in a field of a format text. -/
def Writes (arg : Arg) (spec : Spec) (text : List Char) : Prop :=
  formatArgValue stringSink arg spec [] = some ((), text) ∧
    ∀ y : SpecSyntax, y.Valid → y.spec = spec → format (some (fieldOf y)) [arg] = some text

theorem digit_ne (h : isDecDigit c = true) : c ≠ '\x00' ∧ c ≠ '}' := by
  constructor
  · rintro rfl
    exact absurd h (by decide)
  · rintro rfl
    exact absurd h (by decide)

theorem type_ne (h : c ∈ SpecSyntax.types) : c ≠ '\x00' ∧ c ≠ '}' := by
  constructor
  · rintro rfl
    exact absurd h (by decide)
  · rintro rfl
    exact absurd h (by decide)

theorem specText_ne {y : SpecSyntax} (hy : y.Valid) (halign : y.align = none) (hc : c ∈ y.text) :
    c ≠ '\x00' ∧ c ≠ '}' := by
  rw [SpecSyntax.text, SpecSyntax.alignText, halign, Option.elim_none, nil_append,
    SpecSyntax.flagText, SpecSyntax.numberText] at hc
  obtain hc | hc := mem_append.mp hc
  · obtain rfl | rfl | rfl := hy.sign c (Option.mem_toList.mp hc) <;> decide
  obtain hc | hc := mem_append.mp hc
  · split at hc
    case isTrue =>
      rw [mem_singleton.mp hc]
      decide
    case isFalse => exact absurd hc not_mem_nil
  obtain hc | hc := mem_append.mp hc
  · split at hc
    case isTrue =>
      rw [mem_singleton.mp hc]
      decide
    case isFalse => exact absurd hc not_mem_nil
  obtain hc | hc := mem_append.mp hc
  · obtain hc | hc := mem_append.mp hc
    · exact digit_ne (hy.width c hc)
    · cases hprec : y.precision with
      | none =>
        rw [hprec] at hc
        exact absurd hc not_mem_nil
      | some digits =>
        rw [hprec] at hc
        obtain rfl | hc := mem_cons.mp hc
        · decide
        · exact digit_ne (hy.precision digits hprec c hc)
  · exact type_ne (hy.type c (Option.mem_toList.mp hc))

theorem Numeric.align_none (h : Numeric spec) {y : SpecSyntax} (hy : y.Valid)
    (hspec : y.spec = spec) : y.align = none := by
  have halign : (y.align.map (·.2)).getD '\x00' = '\x00' := by
    have := h.align
    rw [← hspec] at this
    exact this
  cases hnone : y.align with
  | none => rfl
  | some a =>
    rw [hnone, Option.map_some, Option.getD_some] at halign
    have hisAlign := hy.align a hnone
    rw [halign] at hisAlign
    exact absurd hisAlign (by decide)

theorem Numeric.writes (h : Numeric spec) {arg : Arg} {text : List Char}
    (hroom : text.length ≤ kMaxCapacity)
    (hrun : Appends (formatArgValue stringSink arg spec) text) : Writes arg spec text := by
  have hself : formatArgValue stringSink arg spec [] = some ((), text) :=
    hrun [] (by rw [length_nil, Nat.zero_add]; exact hroom)
  refine ⟨hself, fun y hy hspec => ?_⟩
  have hne := fun c hc => specText_ne hy (h.align_none hy hspec) (c := c) hc
  have hsmall : (readSpec y.text).Small := by
    rw [hy.readSpec_text, hspec]
    exact ⟨h.width, h.precision⟩
  have hparse : parseSpec y.text = some spec := by
    rw [parseSpec_of_small hsmall, hy.readSpec_text, hspec]
  have hcString : cString (fieldOf y) = fieldOf y := by
    refine takeWhile_eq_self_iff.mpr fun c hc => ?_
    obtain rfl | hc := mem_cons.mp hc
    · rfl
    obtain rfl | hc := mem_cons.mp hc
    · rfl
    obtain hc | hc := mem_append.mp hc
    · exact decide_eq_true (hne c hc).1
    · rw [mem_singleton.mp hc]
      rfl
  have hsplit : splitSpec (':' :: (y.text ++ ['}'])) = (y.text, ['}']) := by
    have hbefore : ∀ c ∈ y.text, decide (c ≠ '}') = true := fun c hc =>
      decide_eq_true (hne c hc).2
    rw [splitSpec, if_pos rfl, takeWhile_append_of_pos hbefore,
      dropWhile_append_of_pos hbefore]
    exact congrArg (·, ['}']) (append_nil y.text)
  have hfield : parseField (':' :: (y.text ++ ['}'])) = (some ⟨none, spec⟩, []) := by
    have hindex : parseFieldIndex (':' :: (y.text ++ ['}'])) = (none, ':' :: (y.text ++ ['}'])) :=
      rfl
    rw [parseField, hindex]
    dsimp only
    rw [hsplit]
    rw [hparse]
    rfl
  have hcore : formatCore stringSink (some (fieldOf y)) [arg] [] = some ((), text) := by
    have hbrace : (':' :: (y.text ++ ['}'])).head? ≠ some '{' := fun hbrace =>
      absurd (Option.some.inj hbrace) (by decide)
    rw [formatCore, hcString, fieldOf, length_cons, formatLoop, if_pos rfl, if_neg hbrace,
      hfield]
    change (formatArgValue stringSink arg spec [] >>= fun r => some ((), r.2)) = _
    rw [hself]
    rfl
  change (formatCore stringSink (some (fieldOf y)) [arg] [] >>= fun r => some r.2) = _
  rw [hcore]
  rfl

end Specifications

section RoundTrip

variable {spec : Spec} {radix : ℤ}

theorem applySign_negate (u : UInt64) : applySign true (0 - u) = u := by
  have hneg : ~~~(0 - u) + 1 = -(0 - u) := (UInt64.neg_eq_not_add _).symm
  rw [applySign, if_pos rfl, hneg, UInt64.zero_sub, UInt64.neg_neg]

/-- `static_cast<u64>` of an `i64`, of the absolute value. -/
def magnitudeOf (v : Int64) : UInt64 := if decide (v < 0) then 0 - v.toUInt64 else v.toUInt64

theorem applySign_magnitudeOf (v : Int64) :
    applySign (decide (v < 0)) (magnitudeOf v) = v.toUInt64 := by
  rw [magnitudeOf]
  cases decide (v < 0) with
  | true => exact applySign_negate v.toUInt64
  | false => rfl

theorem magnitudeOf_le (v : Int64) : (magnitudeOf v).toNat ≤ signedLimit (decide (v < 0)) := by
  have hsign : v < 0 ↔ v.toBitVec.toInt < 0 := by
    rw [← BitVec.toInt_zero]
    exact BitVec.slt_iff_toInt_lt
  rw [BitVec.toInt_eq_toNat_cond] at hsign
  by_cases hneg : v < 0
  · have hmagnitude : (magnitudeOf v).toNat = (0#64 - v.toBitVec).toNat := by
      rw [magnitudeOf, decide_eq_true hneg]
      rfl
    rw [hmagnitude, decide_eq_true hneg, signedLimit, if_pos rfl]
    have hlow := hsign.mp hneg
    bv_omega
  · have hmagnitude : (magnitudeOf v).toNat = v.toBitVec.toNat := by
      rw [magnitudeOf, decide_eq_false hneg]
      rfl
    rw [hmagnitude, decide_eq_false hneg, signedLimit, if_neg Bool.false_ne_true]
    have hhigh := mt hsign.mpr hneg
    bv_omega

theorem signedLimit_lt (negative : Bool) : signedLimit negative < 2 ^ 64 := by
  cases negative <;> decide

theorem parseMagnitude_integerText (htype : spec.type ∈ ['d', 'x', 'X', 'o'])
    (hradix : Reads spec radix) (negative : Bool) (n k z : ℕ) (limit : Bool → ℕ)
    (hlimit : limit negative < 2 ^ 64) (hfits : n ≤ limit negative) :
    parseMagnitude (integerText spec negative n k z) radix limit =
      some (negative, UInt64.ofNat n, []) := by
  have hvalue : numeralFrom (radixOf spec.type) 0
      (List.replicate z 0 ++ digitsOf (radixOf spec.type) n) = n := by
    rw [numeralFrom_zeros, numeralFrom_digitsOf]
  have hgt := (radixOf_bounds spec.type).1
  have hdigits : ∀ d ∈ List.replicate z 0 ++ digitsOf (radixOf spec.type) n,
      d < radixOf spec.type := by
    intro d hd
    obtain hd | hd := mem_append.mp hd
    · rw [eq_of_mem_replicate hd]
      omega
    · exact digitsOf_lt hgt hd
  have hread := parseMagnitude_text htype hradix (decide (spec.type = 'X')) negative spec.sign k
    (append_ne_nil_of_right_ne_nil _ (digitsOf_ne_nil _ n)) hdigits hlimit
    (hvalue.trans_le hfits)
  rw [hvalue] at hread
  exact hread

theorem parseInteger_text (htype : spec.type ∈ ['d', 'x', 'X', 'o']) (hradix : Reads spec radix)
    (v : Int64) (k z : ℕ) :
    parseInteger (some (integerText spec (decide (v < 0)) (magnitudeOf v).toNat k z)) radix =
      some (v, []) := by
  have hread := parseMagnitude_integerText htype hradix (decide (v < 0)) (magnitudeOf v).toNat k z
    signedLimit (signedLimit_lt _) (magnitudeOf_le v)
  change (parseMagnitude _ radix signedLimit >>= fun _ => _) = _
  rw [hread]
  change some ((applySign (decide (v < 0)) (UInt64.ofNat (magnitudeOf v).toNat)).toInt64, []) = _
  rw [UInt64.ofNat_toNat, applySign_magnitudeOf, Int64.toInt64_toUInt64]

theorem parseUnsigned_text (htype : spec.type ∈ ['d', 'x', 'X', 'o']) (hradix : Reads spec radix)
    (u : UInt64) (k z : ℕ) :
    parseUnsigned (some (integerText spec false u.toNat k z)) radix = some (u, []) := by
  have hlt := u.toNat_lt
  have hread := parseMagnitude_integerText htype hradix false u.toNat k z
    (fun _ => 2 ^ 64 - 1) (by decide) (le_sub_one_of_lt hlt)
  change (parseMagnitude _ radix _ >>= fun _ => _) = _
  rw [hread]
  rw [UInt64.ofNat_toNat]
  rfl

/-- The text written for a value of either sign is read whole, and as that value. -/
theorem format_parse (h : Numeric spec) (hradix : Reads spec radix) :
    (∀ v : Int64, ∃ text, Writes (.i64 v) spec text ∧
      parseInteger (some text) radix = some (v, [])) ∧
    ∀ u : UInt64, ∃ text, Writes (.u64 u) spec text ∧
      parseUnsigned (some text) radix = some (u, []) := by
  constructor
  · intro v
    obtain ⟨k, z, hroom, hrun⟩ := h.formatInteger_text (magnitudeOf v) (decide (v < 0))
    exact ⟨_, h.writes hroom hrun, parseInteger_text h.type hradix v k z⟩
  · intro u
    obtain ⟨k, z, hroom, hrun⟩ := h.formatInteger_text u false
    exact ⟨_, h.writes hroom hrun, parseUnsigned_text h.type hradix u k z⟩

/-- `{:+#020x}` -/
def signedHex : Spec := ⟨' ', '\x00', '+', 'x', true, true, 20, -1⟩

theorem signedHex_numeric : Numeric signedHex := ⟨by decide, rfl, rfl, by decide, by decide⟩

theorem format_parse_signedHex : (∃ text, Writes (.i64 Int64.minValue) signedHex text ∧
      parseInteger (some text) 0 = some (Int64.minValue, [])) ∧
    ∃ text, Writes (.u64 (2 ^ 64 - 1)) signedHex text ∧
      parseUnsigned (some text) 0 = some (2 ^ 64 - 1, []) :=
  have hradix : Reads signedHex 0 := .inr ⟨rfl, rfl, by decide⟩
  ⟨(format_parse signedHex_numeric hradix).1 Int64.minValue,
    (format_parse signedHex_numeric hradix).2 (2 ^ 64 - 1)⟩

end RoundTrip

end Equilibrium.IntegerRoundTrip
