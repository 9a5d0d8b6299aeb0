import Equilibrium.Library.Runs
import Equilibrium.Strings.IntegerRoundTrip

/-! `ParseInteger` and `ParseUnsigned` beside `strtoll` and `strtoull` as the C standard describes
them: the longest beginning of the text, behind blanks and a sign, that is an integer constant of
the radix, and the number it stands for brought into the range of the type. -/

namespace Equilibrium.NumberParse

open Library.LongestPrefix IntegerRoundTrip List Option

def isDigitOf (radix : ℤ) (c : Char) : Bool := (digitValue c radix).isSome

def charNumeral (radix : ℤ) (ds : List Char) : ℕ :=
  numeralFrom radix.toNat 0 (ds.filterMap fun c => digitValue c radix)

/-- The integer constants of a radix without their signs, and their values. Radix 0 reads the
constants of the C language. -/
inductive Constant (base : ℤ) : List Char → ℕ → Prop
  | plain {ds : List Char} (hlow : 2 ≤ base) (hhigh : base ≤ 36) (hne : ds ≠ [])
    (hds : ∀ c ∈ ds, isDigitOf base c) : Constant base ds (charNumeral base ds)
  | hex {x : Char} {ds : List Char} (hbase : base = 0 ∨ base = 16) (hx : lower x = 'x')
    (hne : ds ≠ []) (hds : ∀ c ∈ ds, isDigitOf 16 c) :
    Constant base ('0' :: x :: ds) (charNumeral 16 ds)
  | octal {ds : List Char} (hbase : base = 0) (hds : ∀ c ∈ ds, isDigitOf 8 c) :
    Constant base ('0' :: ds) (charNumeral 8 ds)
  | decimal {d : Char} {ds : List Char} (hbase : base = 0) (hd : d ≠ '0')
    (hds : ∀ c ∈ d :: ds, isDigitOf 10 c) : Constant base (d :: ds) (charNumeral 10 (d :: ds))

/-- The conversion of the C standard: the sign, the number and what follows it. -/
inductive Converts (base : ℤ) : List Char → Bool → ℕ → List Char → Prop
  | intro (blanks sign body rest : List Char) (n : ℕ) (hblanks : ∀ c ∈ blanks, isSpace c)
    (hsign : sign = [] ∨ sign = ['+'] ∨ sign = ['-'])
    (hbody : Longest (fun body => ∃ n, Constant base body n) (body ++ rest) body rest)
    (hvalue : Constant base body n) :
    Converts base (blanks ++ (sign ++ (body ++ rest))) (decide (sign = ['-'])) n rest

/-- The value of `strtoll`: the number in the range of the type that is nearest. -/
def signedValue (negative : Bool) (n : ℕ) : Int64 :=
  Int64.ofIntClamp (if negative then -(n : ℤ) else n)

/-- The value of `strtoull`, which negates in the type. -/
def unsignedValue (negative : Bool) (n : ℕ) : UInt64 :=
  if 2 ^ 64 ≤ n then UInt64.ofNat (2 ^ 64 - 1)
  else if negative then -UInt64.ofNat n else UInt64.ofNat n

/-- A parser reads a text as the C function of the given values does, and reports no number where
that finds none. -/
def AgreesWithC {α : Type} (parse : Option (List Char) → ℤ → Option (α × List Char))
    (value : Bool → ℕ → α) (text : List Char) (radix : ℤ) : Prop :=
  ∀ v rest, parse (some text) radix = some (v, rest) ↔
    ∃ negative n, Converts radix text negative n rest ∧ v = value negative n

/-- An eight or a nine behind the zero of a constant that is to be read by its prefix. -/
def DecimalBehindZero (radix : ℤ) (q : List Char) : Prop :=
  radix = 0 ∧ charAt q 0 = '0' ∧ (charAt q 1 = '8' ∨ charAt q 1 = '9')

section Digits

variable {radix limit : ℕ}

theorem digitValue_lt {c : Char} {base : ℤ} {d : ℕ} (h : digitValue c base = some d) :
    (d : ℤ) < base := by
  rw [digitValue, filter_eq_some_iff] at h
  exact of_decide_eq_true h.2

theorem accumulateLoop_saturated (p : List Char) : accumulateLoop radix limit p limit true =
    (limit, p.dropWhile (isDigitOf radix)) := by
  induction p with
  | nil => rfl
  | cons c p ih =>
    rw [accumulateLoop, dropWhile_cons, isDigitOf]
    cases digitValue c radix with
    | none => rfl
    | some d => exact ih

theorem exceeds_iff (hradix : 0 < radix) {n d : ℕ} (hd : d < radix) :
    n > limit / radix ∨ n = limit / radix ∧ d > limit % radix ↔ limit < n * radix + d := by
  have hdiv := Nat.div_add_mod' limit radix
  have hmod := Nat.mod_lt limit hradix
  constructor
  · rintro (hgt | ⟨rfl, hgt⟩)
    · have hmul : (limit / radix + 1) * radix ≤ n * radix := Nat.mul_le_mul_right radix hgt
      rw [Nat.succ_mul] at hmul
      omega
    · omega
  · intro h
    by_cases hgt : n > limit / radix
    · exact .inl hgt
    · by_cases heq : n = limit / radix
      · subst heq
        exact .inr ⟨rfl, by omega⟩
      · have hmul : (n + 1) * radix ≤ limit / radix * radix := Nat.mul_le_mul_right radix (by omega)
        rw [Nat.succ_mul] at hmul
        omega

theorem accumulateLoop_eq (hradix : 0 < radix) (hlimit : limit < 2 ^ 64) (p : List Char) {n : ℕ}
    (hn : n ≤ limit) : accumulateLoop radix limit p n false =
      (min (numeralFrom radix n ((p.takeWhile (isDigitOf radix)).filterMap fun c =>
        digitValue c radix)) limit, p.dropWhile (isDigitOf radix)) := by
  induction p generalizing n with
  | nil => exact congrArg (·, []) (Nat.min_eq_left hn).symm
  | cons c p ih =>
    rw [accumulateLoop, dropWhile_cons, takeWhile_cons, isDigitOf]
    cases hdigit : digitValue c radix with
    | none => exact congrArg (·, c :: p) (Nat.min_eq_left hn).symm
    | some d =>
      have hd : d < radix := by exact_mod_cast digitValue_lt hdigit
      dsimp only
      rw [if_neg Bool.false_ne_true, isSome_some, if_pos rfl, filterMap_cons, hdigit]
      by_cases hexceeds : limit < n * radix + d
      · rw [if_pos ((exceeds_iff hradix hd).mpr hexceeds), accumulateLoop_saturated]
        have hmore := le_numeralFrom hradix (n * radix + d)
          ((p.takeWhile (isDigitOf radix)).filterMap fun c => digitValue c radix)
        exact congrArg (·, _) (Nat.min_eq_right (Nat.le_of_lt (Nat.lt_of_lt_of_le hexceeds hmore))).symm
      · rw [if_neg fun h => hexceeds ((exceeds_iff hradix hd).mp h), Nat.mod_eq_of_lt (by omega),
          ih (by omega)]
        rfl

theorem accumulateDigits_eq {base : ℤ} (hlow : 2 ≤ base) (hlimit : limit < 2 ^ 64) (p : List Char) :
    accumulateDigits p base.toNat limit = if p.takeWhile (isDigitOf base) = [] then none
      else some (min (charNumeral base (p.takeWhile (isDigitOf base))) limit,
        p.dropWhile (isDigitOf base)) := by
  have hbase : (base.toNat : ℤ) = base := Int.toNat_of_nonneg (by omega)
  have hhead : (digitValue (charAt p 0) base).isSome ↔ p.takeWhile (isDigitOf base) ≠ [] := by
    cases p with
    | nil =>
      have hnul : digitValue '\x00' base = none := rfl
      simp [charAt, hnul]
    | cons c p =>
      rw [takeWhile_cons, isDigitOf]
      cases hdigit : digitValue c base <;> simp [charAt, hdigit]
  have hpositive : 0 < base.toNat := by omega
  have hloop := accumulateLoop_eq hpositive hlimit p (Nat.zero_le limit)
  rw [hbase] at hloop
  rw [accumulateDigits, hbase, hloop]
  by_cases hempty : p.takeWhile (isDigitOf base) = []
  · rw [if_pos hempty, if_neg fun h => hhead.mp h hempty]
  · rw [if_neg hempty, if_pos (hhead.mpr hempty)]
    rfl

end Digits

section Constants

variable {base : ℤ} {q body ds : List Char} {n m : ℕ}

theorem isDigitOf_plain {c : Char} {radix : ℤ} (h : isDigitOf radix c) :
    isSpace c = false ∧ c ≠ '+' ∧ c ≠ '-' ∧ c ≠ '\x00' := by
  refine ⟨?_, ?_, ?_, ?_⟩
  · rw [Bool.eq_false_iff]
    intro hspace
    simp only [isSpace, decide_eq_true_eq] at hspace
    obtain rfl | rfl | rfl | rfl | rfl | rfl := hspace <;> cases h
  all_goals
    rintro rfl
    cases h

theorem Constant.head (h : Constant base body n) :
    ∃ c rest, body = c :: rest ∧ ∃ radix, isDigitOf radix c := by
  cases h with
  | plain hlow hhigh hne hds =>
    obtain ⟨c, rest, rfl⟩ := exists_cons_of_ne_nil hne
    exact ⟨c, rest, rfl, base, hds c mem_cons_self⟩
  | hex hbase hx hne hds => exact ⟨_, _, rfl, 8, rfl⟩
  | octal hbase hds => exact ⟨_, _, rfl, 8, rfl⟩
  | decimal hbase hd hds => exact ⟨_, _, rfl, 10, hds _ mem_cons_self⟩

theorem lower_eq_x {x : Char} (hx : lower x = 'x') : x = 'x' ∨ x = 'X' := by
  by_cases hupper : 'A' ≤ x ∧ x ≤ 'Z'
  · have hall : ∀ k < 91, 65 ≤ k → lower (Char.ofNat k) = 'x' → Char.ofNat k = 'X' := by decide
    have hlow : 65 ≤ x.toNat := hupper.1
    have hhigh : x.toNat ≤ 90 := hupper.2
    have hself : Char.ofNat x.toNat = x := Char.ofNat_toNat x
    have hcase := hall x.toNat (by omega) hlow
    rw [hself] at hcase
    exact .inr (hcase hx)
  · rw [lower, if_neg hupper] at hx
    exact .inl hx

theorem isDigitOf_x {x : Char} (hx : lower x = 'x') {radix : ℤ} (hradix : radix ≤ 16) :
    isDigitOf radix x = false := by
  have hvalue : ∀ x ∈ ['x', 'X'], digitValue x radix = (some 33).filter fun v : ℕ => (v : ℤ) < radix := by
    intro x hx
    obtain rfl | rfl := mem_pair.mp hx <;> rfl
  have hmem : x ∈ ['x', 'X'] := mem_pair.mpr (lower_eq_x hx)
  rw [isDigitOf, hvalue x hmem, filter_some_neg (by simpa using (by omega : radix ≤ 33))]
  rfl

theorem charNumeral_zero (radix : ℤ) : charNumeral radix ['0'] = 0 := by
  have hvalue : digitValue '0' radix = (some 0).filter fun v : ℕ => (v : ℤ) < radix := rfl
  by_cases hpos : 0 < radix
  · rw [charNumeral, filterMap_cons, hvalue, filter_some_pos (by simpa using hpos)]
    exact Nat.zero_mul _
  · rw [charNumeral, filterMap_cons, hvalue, filter_some_neg (by simpa using hpos)]
    rfl

theorem Constant.value_unique (h : Constant base body n) (h' : Constant base body m) : n = m := by
  have hx : ∀ {x : Char} {ds : List Char}, lower x = 'x' → base ≤ 16 →
      ¬∀ c ∈ '0' :: x :: ds, isDigitOf base c := by
    intro x ds hx hbase hall
    have hdigit := hall x (by simp)
    rw [isDigitOf_x hx hbase] at hdigit
    cases hdigit
  have hx8 : ∀ {x : Char} {ds : List Char}, lower x = 'x' → ¬∀ c ∈ x :: ds, isDigitOf 8 c := by
    intro x ds hx hall
    have hdigit := hall x mem_cons_self
    rw [isDigitOf_x hx (by decide)] at hdigit
    cases hdigit
  cases h with
  | plain hlow hhigh hne hds =>
    cases h' with
    | plain => rfl
    | hex hbase hx' => exact absurd hds (hx hx' (by omega))
    | octal hbase => omega
    | decimal hbase => omega
  | hex hbase hx' hne hds =>
    cases h' with
    | plain hlow hhigh hne' hds' => exact absurd hds' (hx hx' (by omega))
    | hex => rfl
    | octal hbase' hds' => exact absurd hds' (hx8 hx')
    | decimal hbase' hd => exact absurd rfl hd
  | octal hbase hds =>
    cases h' with
    | plain hlow => omega
    | hex hbase' hx' => exact absurd hds (hx8 hx')
    | octal => rfl
    | decimal hbase' hd => exact absurd rfl hd
  | decimal hbase hd hds =>
    cases h' with
    | plain hlow => omega
    | hex => exact absurd rfl hd
    | octal => exact absurd rfl hd
    | decimal => rfl

theorem isDigitOf_ten {c : Char} (h : isDigitOf 10 c) : isDigitOf 8 c ∨ c = '8' ∨ c = '9' := by
  by_cases hc : '0' ≤ c ∧ c ≤ '9'
  · have hall : ∀ k < 58, 48 ≤ k → isDigitOf 8 (Char.ofNat k) ∨ Char.ofNat k = '8' ∨
        Char.ofNat k = '9' := by decide
    have hlow : 48 ≤ c.toNat := hc.1
    have hhigh : c.toNat ≤ 57 := hc.2
    have hcase := hall c.toNat (by omega) hlow
    rwa [Char.ofNat_toNat] at hcase
  · obtain ⟨d, hd⟩ := isSome_iff_exists.mp h
    have hlt := digitValue_lt hd
    rw [digitValue, filter_eq_some_iff] at hd
    have hvalue := hd.1
    split_ifs at hvalue <;> · cases hvalue; omega

theorem numeral_cons_zero {radix : ℤ} (hpos : 0 < radix) (ds : List Char) :
    charNumeral radix ('0' :: ds) = charNumeral radix ds := by
  have hvalue : digitValue '0' radix = (some 0).filter fun v : ℕ => (v : ℤ) < radix := rfl
  rw [charNumeral, filterMap_cons, hvalue, filter_some_pos (by simpa using hpos)]
  exact numeralFrom_zeros 1 _

def NoHexPrefix (radix : ℤ) (q : List Char) : Prop :=
  ¬((radix = 0 ∨ radix = 16) ∧ charAt q 0 = '0' ∧ lower (charAt q 1) = 'x' ∧
    (digitValue (charAt q 2) 16).isSome)

/-- What `ApplyRadixPrefix` does. -/
inductive Prefixed (radix : ℤ) : List Char → List Char → ℤ → Prop
  | hex {x d : Char} {q : List Char} (hradix : radix = 0 ∨ radix = 16) (hx : lower x = 'x')
    (hd : isDigitOf 16 d) : Prefixed radix ('0' :: x :: d :: q) (d :: q) 16
  | octal {d : Char} {q : List Char} (hradix : radix = 0)
    (hhex : NoHexPrefix radix ('0' :: d :: q)) (hd : isDigitOf 8 d) :
    Prefixed radix ('0' :: d :: q) ('0' :: d :: q) 8
  | decimal {q : List Char} (hradix : radix = 0) (hhex : NoHexPrefix radix q)
    (hd : ¬(charAt q 0 = '0' ∧ isDigitOf 8 (charAt q 1))) : Prefixed radix q q 10
  | plain {q : List Char} (hradix : radix ≠ 0) (hhex : NoHexPrefix radix q) :
    Prefixed radix q q radix

theorem exists_cons_of_charAt (h : charAt q 0 ≠ '\x00') : ∃ c p, q = c :: p := by
  cases q with
  | nil => exact absurd rfl h
  | cons c p => exact ⟨c, p, rfl⟩

theorem applyRadixPrefix_cases (radix : ℤ) (q : List Char) :
    Prefixed radix q (applyRadixPrefix q radix).1 (applyRadixPrefix q radix).2 := by
  rw [applyRadixPrefix]
  split
  case isTrue h =>
    obtain ⟨hradix, hzero, hx, hd⟩ := h
    obtain ⟨c, p, rfl⟩ := exists_cons_of_charAt (by rw [hzero]; decide)
    obtain rfl : c = '0' := hzero
    have hne : charAt p 0 ≠ '\x00' := by
      intro hnul
      have hlower : lower (charAt p 0) = 'x' := hx
      rw [hnul] at hlower
      exact absurd hlower (by decide)
    obtain ⟨x, p', rfl⟩ := exists_cons_of_charAt hne
    have hdigit : isDigitOf 16 (charAt p' 0) := hd
    obtain ⟨d, p'', rfl⟩ := exists_cons_of_charAt (isDigitOf_plain hdigit).2.2.2
    exact .hex hradix hx hd
  case isFalse hhex =>
    split
    case isTrue hradix =>
      split
      case isTrue h =>
        obtain ⟨hzero, hd⟩ := h
        obtain ⟨c, p, rfl⟩ := exists_cons_of_charAt (by rw [hzero]; decide)
        obtain rfl : c = '0' := hzero
        have hdigit : isDigitOf 8 (charAt p 0) := hd
        obtain ⟨d, p', rfl⟩ := exists_cons_of_charAt (isDigitOf_plain hdigit).2.2.2
        exact .octal hradix hhex hd
      case isFalse h => exact .decimal hradix hhex h
    case isFalse hradix => exact .plain hradix hhex

theorem NoHexPrefix.elim {radix : ℤ} {x : Char} {rest : List Char} (h : NoHexPrefix radix q)
    (hbase : radix = 0 ∨ radix = 16) (hx : lower x = 'x') (hne : ds ≠ [])
    (hds : ∀ c ∈ ds, isDigitOf 16 c) (hsplit : q = '0' :: x :: ds ++ rest) : False := by
  obtain ⟨d, ds, rfl⟩ := exists_cons_of_ne_nil hne
  exact h (hsplit ▸ ⟨hbase, rfl, hx, hds d mem_cons_self⟩)

theorem Constant.digits {p rest : List Char} {radix r : ℤ} (h : Constant radix body n)
    (hsplit : q = body ++ rest) (hprefixed : Prefixed radix q p r) (hhex : NoHexPrefix radix q) :
    ∀ c ∈ body, isDigitOf r c := by
  cases hprefixed with
  | hex hradix hx hd => exact absurd ⟨hradix, rfl, hx, hd⟩ hhex
  | octal hradix hhex' hd =>
    cases h with
    | plain hlow => omega
    | hex hbase hx hne hds => exact (hhex.elim hbase hx hne hds hsplit).elim
    | octal hbase hds => exact forall_mem_cons.mpr ⟨rfl, hds⟩
    | decimal hbase hne hds => exact absurd (List.cons.inj hsplit).1.symm hne
  | decimal hradix hhex' hd =>
    cases h with
    | plain hlow => omega
    | hex hbase hx hne hds => exact (hhex.elim hbase hx hne hds hsplit).elim
    | @octal ds hbase hds =>
      -- a zero alone, as what follows it is no digit of radix 8
      cases ds with
      | nil => exact forall_mem_singleton.mpr rfl
      | cons d ds =>
        rw [hsplit] at hd
        exact absurd ⟨rfl, hds d mem_cons_self⟩ hd
    | decimal hbase hne hds => exact hds
  | plain hradix hhex' =>
    cases h with
    | plain hlow hhigh hne hds => exact hds
    | hex hbase hx hne hds => exact (hhex.elim hbase hx hne hds hsplit).elim
    | octal hbase => exact absurd hbase hradix
    | decimal hbase => exact absurd hbase hradix

theorem Prefixed.constant {p : List Char} {radix r : ℤ} (h : Prefixed radix q p r)
    (hlow : 2 ≤ r) (hhigh : r ≤ 36) (hzero : ¬DecimalBehindZero radix q)
    (hne : p.takeWhile (isDigitOf r) ≠ []) : ∃ pre, q = pre ++ p ∧
      Constant radix (pre ++ p.takeWhile (isDigitOf r))
        (charNumeral r (p.takeWhile (isDigitOf r))) := by
  have hds : ∀ c ∈ p.takeWhile (isDigitOf r), isDigitOf r c := fun c hc => mem_takeWhile_imp hc
  cases h with
  | hex hradix hx hd => exact ⟨['0', _], rfl, .hex hradix hx hne hds⟩
  | @octal d q hradix hhex hd =>
    refine ⟨[], rfl, ?_⟩
    have htake : ('0' :: d :: q).takeWhile (isDigitOf 8) = '0' :: (d :: q).takeWhile (isDigitOf 8) := rfl
    rw [htake, numeral_cons_zero (by decide)]
    exact .octal hradix (forall_mem_cons.mp hds).2
  | @decimal q hradix hhex hd =>
    refine ⟨[], rfl, ?_⟩
    cases q with
    | nil => exact absurd rfl hne
    | cons c q =>
      have htake : (c :: q).takeWhile (isDigitOf 10) = c :: q.takeWhile (isDigitOf 10) := by
        rw [takeWhile_cons] at hne ⊢
        split
        case isTrue => rfl
        case isFalse hc => exact absurd (if_neg hc) hne
      by_cases hc : c = '0'
      · subst hc
        have hnext : q.takeWhile (isDigitOf 10) = [] := by
          cases q with
          | nil => rfl
          | cons d q =>
            rw [takeWhile_cons, if_neg]
            intro hten
            obtain h8 | h8 | h9 := isDigitOf_ten hten
            · exact hd ⟨rfl, h8⟩
            · exact hzero ⟨hradix, rfl, .inl h8⟩
            · exact hzero ⟨hradix, rfl, .inr h9⟩
        rw [htake, hnext, charNumeral_zero, ← charNumeral_zero 8]
        exact .octal hradix (by simp)
      · rw [htake] at hds ⊢
        exact .decimal hradix hc hds
  | plain hradix hhex => exact ⟨[], rfl, .plain hlow hhigh hne hds⟩

theorem Prefixed.same_or_digit {p : List Char} {radix r : ℤ} (h : Prefixed radix q p r) :
    p = q ∨ p.takeWhile (isDigitOf r) ≠ [] := by
  cases h with
  | hex hradix hx hd =>
    right
    rw [takeWhile_cons_of_pos hd]
    exact cons_ne_nil _ _
  | octal => exact .inl rfl
  | decimal => exact .inl rfl
  | plain => exact .inl rfl

theorem Constant.length_le {p pre rest : List Char} {radix r : ℤ} (h : Constant radix body n)
    (hprefixed : Prefixed radix q p r) (hpre : q = pre ++ p) (hsplit : q = body ++ rest) :
    body.length ≤ (pre ++ p.takeWhile (isDigitOf r)).length := by
  by_cases hhex : NoHexPrefix radix q
  · have hself : p = q := by
      cases hprefixed with
      | hex hradix hx hd => exact absurd ⟨hradix, rfl, hx, hd⟩ hhex
      | octal => rfl
      | decimal => rfl
      | plain => rfl
    have hle := length_le_takeWhile hsplit (h.digits hsplit hprefixed hhex)
    rw [length_append, hself]
    omega
  · cases hprefixed with
    | @hex x d q hradix hx hd =>
      have hlen := congrArg length hpre
      have hbody : ∀ {r : ℤ} {ds : List Char}, r ≤ 16 → (∀ c ∈ ds, isDigitOf r c) →
          x :: d :: q = ds ++ rest → ds = [] := by
        intro r ds hr hds heq
        cases ds with
        | nil => rfl
        | cons y ds =>
          obtain rfl : x = y := (List.cons.inj heq).1
          have hdigit := hds x mem_cons_self
          rw [isDigitOf_x hx hr] at hdigit
          cases hdigit
      have htwo : pre.length = 2 := by
        simp only [length_cons, length_append] at hlen
        omega
      rw [length_append]
      cases h with
      | plain hlow hhigh hne hds =>
        cases body with
        | nil => exact Nat.zero_le _
        | cons c ds =>
          rw [hbody (by omega) (forall_mem_cons.mp hds).2 (List.cons.inj hsplit).2,
            length_singleton]
          omega
      | @hex y ds hbase hy hne hds =>
        have hle := length_le_takeWhile (List.cons.inj (List.cons.inj hsplit).2).2 hds
        simp only [length_cons]
        omega
      | octal hbase hds =>
        rw [hbody (by decide) hds (List.cons.inj hsplit).2, length_singleton]
        omega
      | decimal hbase hne hds => exact absurd (List.cons.inj hsplit).1.symm hne
    | octal hradix hhex' => exact absurd hhex' hhex
    | decimal hradix hhex' => exact absurd hhex' hhex
    | plain hradix hhex' => exact absurd hhex' hhex

end Constants

section Conversion

variable {base radix : ℤ} {text q rest : List Char} {negative : Bool} {n : ℕ}

theorem skipSpaceAndSign_append {blanks sign : List Char} {c : Char}
    (hblanks : ∀ c ∈ blanks, isSpace c) (hsign : sign = [] ∨ sign = ['+'] ∨ sign = ['-'])
    (hc : isDigitOf radix c) :
    skipSpaceAndSign (blanks ++ (sign ++ c :: q)) = (decide (sign = ['-']), c :: q) := by
  obtain ⟨hspace, hplus, hminus, -⟩ := isDigitOf_plain hc
  rw [skipSpaceAndSign, dropWhile_append_of_pos hblanks]
  obtain rfl | rfl | rfl := hsign
  · rw [nil_append, dropWhile_cons_of_neg (by rw [hspace]; exact Bool.false_ne_true),
      skipSign_plain hplus hminus]
    rfl
  · rfl
  · rfl

theorem exists_sign (p : List Char) : ∃ sign, (sign = [] ∨ sign = ['+'] ∨ sign = ['-']) ∧
    p = sign ++ (skipSign p).2 ∧ decide (sign = ['-']) = (skipSign p).1 := by
  unfold skipSign
  split
  · exact ⟨['+'], .inr (.inl rfl), rfl, rfl⟩
  · exact ⟨['-'], .inr (.inr rfl), rfl, rfl⟩
  · exact ⟨[], .inl rfl, rfl, rfl⟩

theorem converts_iff : Converts base text negative n rest ↔
    negative = (skipSpaceAndSign text).1 ∧ ∃ body, Constant base body n ∧
      Longest (fun body => ∃ n, Constant base body n) (skipSpaceAndSign text).2 body rest := by
  constructor
  · rintro ⟨blanks, sign, body, rest, n, hblanks, hsign, hbody, hvalue⟩
    obtain ⟨c, tail, rfl, radix, hc⟩ := hvalue.head
    rw [cons_append, skipSpaceAndSign_append hblanks hsign hc]
    exact ⟨rfl, _, hvalue, hbody⟩
  · rintro ⟨rfl, body, hvalue, hlongest⟩
    obtain ⟨sign, hsign, hsplit, hnegative⟩ := exists_sign (text.dropWhile isSpace)
    have hrest : (skipSpaceAndSign text).2 = body ++ rest := hlongest.split
    have htext : text = text.takeWhile isSpace ++ (sign ++ (body ++ rest)) := by
      rw [← hrest, skipSpaceAndSign, ← hsplit, takeWhile_append_dropWhile]
    rw [hrest] at hlongest
    have hconverts := Converts.intro (text.takeWhile isSpace) sign body rest n
      (fun c hc => mem_takeWhile_imp hc) hsign hlongest hvalue
    rw [← htext, hnegative] at hconverts
    exact hconverts

theorem Converts.unique {negative' : Bool} {m : ℕ} {rest' : List Char}
    (h : Converts base text negative n rest) (h' : Converts base text negative' m rest') :
    negative = negative' ∧ n = m ∧ rest = rest' := by
  obtain ⟨rfl, body, hbody, hlongest⟩ := converts_iff.mp h
  obtain ⟨rfl, body', hbody', hlongest'⟩ := converts_iff.mp h'
  obtain ⟨rfl, rfl⟩ := hlongest.unique hlongest'
  exact ⟨rfl, hbody.value_unique hbody', rfl⟩

/-- What is read behind the blanks and the sign is the longest constant there. -/
theorem longest_iff {p : List Char} {r : ℤ} (h : Prefixed radix q p r) (hlow : 2 ≤ r)
    (hhigh : r ≤ 36) (hzero : ¬DecimalBehindZero radix q) : (∃ body, Constant radix body n ∧
      Longest (fun body => ∃ n, Constant radix body n) q body rest) ↔
    p.takeWhile (isDigitOf r) ≠ [] ∧ n = charNumeral r (p.takeWhile (isDigitOf r)) ∧
      rest = p.dropWhile (isDigitOf r) := by
  have hread : p.takeWhile (isDigitOf r) ≠ [] → ∃ body,
      Constant radix body (charNumeral r (p.takeWhile (isDigitOf r))) ∧
        Longest (fun body => ∃ n, Constant radix body n) q body (p.dropWhile (isDigitOf r)) := by
    intro hne
    obtain ⟨pre, hpre, hconstant⟩ := h.constant hlow hhigh hzero hne
    refine ⟨_, hconstant, ?_, ⟨_, hconstant⟩, fun body' rest' hsplit hbody => ?_⟩
    · rw [append_assoc, takeWhile_append_dropWhile, hpre]
    · obtain ⟨m, hm⟩ := hbody
      exact hm.length_le h hpre hsplit
  constructor
  · rintro ⟨body, hvalue, hlongest⟩
    have hne : p.takeWhile (isDigitOf r) ≠ [] := by
      obtain rfl | hne := h.same_or_digit
      · intro hempty
        obtain ⟨c, tail, rfl, -⟩ := hvalue.head
        have hle := hvalue.length_le h (nil_append p).symm hlongest.split
        rw [hempty] at hle
        exact absurd hle (by simp)
      · exact hne
    obtain ⟨body', hvalue', hlongest'⟩ := hread hne
    obtain ⟨rfl, rfl⟩ := hlongest.unique hlongest'
    exact ⟨hne, hvalue.value_unique hvalue', rfl⟩
  · rintro ⟨hne, rfl, rfl⟩
    exact hread hne

theorem Constant.inRange {body : List Char} (h : Constant radix body n) :
    radix = 0 ∨ 2 ≤ radix ∧ radix ≤ 36 := by
  cases h with
  | plain hlow hhigh => exact .inr ⟨hlow, hhigh⟩
  | hex hbase => omega
  | octal hbase => exact .inl hbase
  | decimal hbase => exact .inl hbase

theorem Prefixed.inRange {p : List Char} {r : ℤ} (h : Prefixed radix q p r) :
    (2 ≤ r ∧ r ≤ 36) ∨ (radix = r ∧ radix ≠ 0) := by
  cases h with
  | hex => exact .inl (by decide)
  | octal => exact .inl (by decide)
  | decimal => exact .inl (by decide)
  | plain hradix => exact .inr ⟨rfl, hradix⟩

/-- The parser takes the longest constant, and its number or the limit. -/
theorem parseMagnitude_iff {limit : Bool → ℕ} (hlimit : ∀ negative, limit negative < 2 ^ 64)
    (hzero : ¬DecimalBehindZero radix (skipSpaceAndSign text).2) {magnitude : UInt64} :
    parseMagnitude text radix limit = some (negative, magnitude, rest) ↔
      ∃ n, Converts radix text negative n rest ∧
        magnitude = UInt64.ofNat (min n (limit negative)) := by
  have hprefixed := applyRadixPrefix_cases radix (skipSpaceAndSign text).2
  have hcode : parseMagnitude text radix limit =
      if (applyRadixPrefix (skipSpaceAndSign text).2 radix).2 < 2 ∨
          36 < (applyRadixPrefix (skipSpaceAndSign text).2 radix).2 then none
      else (accumulateDigits (applyRadixPrefix (skipSpaceAndSign text).2 radix).1
        (applyRadixPrefix (skipSpaceAndSign text).2 radix).2.toNat
        (limit (skipSpaceAndSign text).1)).map fun read =>
          ((skipSpaceAndSign text).1, UInt64.ofNat read.1, read.2) := rfl
  rw [hcode]
  generalize (applyRadixPrefix (skipSpaceAndSign text).2 radix).1 = p at hprefixed ⊢
  generalize (applyRadixPrefix (skipSpaceAndSign text).2 radix).2 = r at hprefixed ⊢
  by_cases hradix : r < 2 ∨ 36 < r
  · rw [if_pos hradix]
    constructor
    · intro h
      cases h
    · rintro ⟨n, hconverts, -⟩
      obtain ⟨-, body, hvalue, -⟩ := converts_iff.mp hconverts
      have hbase := hvalue.inRange
      have hread := hprefixed.inRange
      omega
  · have hlongest : ∀ n, (∃ body, Constant radix body n ∧ Longest
        (fun body => ∃ n, Constant radix body n) (skipSpaceAndSign text).2 body rest) ↔
        p.takeWhile (isDigitOf r) ≠ [] ∧ n = charNumeral r (p.takeWhile (isDigitOf r)) ∧
          rest = p.dropWhile (isDigitOf r) :=
      fun n => longest_iff hprefixed (by omega) (by omega) hzero
    rw [if_neg hradix, accumulateDigits_eq (by omega) (hlimit _)]
    by_cases hempty : p.takeWhile (isDigitOf r) = []
    · rw [if_pos hempty]
      constructor
      · intro h
        cases h
      · rintro ⟨n, hconverts, -⟩
        exact absurd hempty ((hlongest n).mp (converts_iff.mp hconverts).2).1
    · rw [if_neg hempty, map_some, Option.some.injEq, Prod.mk.injEq, Prod.mk.injEq]
      constructor
      · rintro ⟨rfl, rfl, rfl⟩
        exact ⟨_, converts_iff.mpr ⟨rfl, (hlongest _).mpr ⟨hempty, rfl, rfl⟩⟩, rfl⟩
      · rintro ⟨n, hconverts, rfl⟩
        obtain ⟨rfl, hbody⟩ := converts_iff.mp hconverts
        obtain ⟨-, rfl, rfl⟩ := (hlongest n).mp hbody
        exact ⟨rfl, rfl, rfl⟩

theorem parseMagnitude_behindZero {limit : Bool → ℕ} (hlimit : ∀ negative, limit negative < 2 ^ 64)
    (hzero : DecimalBehindZero radix (skipSpaceAndSign text).2) :
    (parseMagnitude text radix limit).isSome ∧
      ∃ negative rest, Converts radix text negative 0 rest ∧ rest ≠ [] ∧ ∀ negative' magnitude,
          parseMagnitude text radix limit ≠ some (negative', magnitude, rest) := by
  obtain ⟨rfl, hhead, hnext⟩ := hzero
  obtain ⟨c, p, hq⟩ := exists_cons_of_charAt
    (by rw [hhead]; decide)
  rw [hq] at hhead hnext
  obtain rfl : c = '0' := hhead
  have hne : charAt p 0 ≠ '\x00' := by
    intro hnul
    have hcase : charAt p 0 = '8' ∨ charAt p 0 = '9' := hnext
    rw [hnul] at hcase
    exact absurd hcase (by decide)
  obtain ⟨d, rest, rfl⟩ := exists_cons_of_charAt hne
  have hd : d = '8' ∨ d = '9' := hnext
  have hoctal : isDigitOf 8 d = false := by
    obtain rfl | rfl := hd <;> rfl
  have hten : isDigitOf 10 d := by
    obtain rfl | rfl := hd <;> rfl
  have hx : lower d ≠ 'x' := by
    obtain rfl | rfl := hd <;> decide
  have happly : applyRadixPrefix ('0' :: d :: rest) 0 = ('0' :: d :: rest, 10) := by
    rw [applyRadixPrefix, if_neg fun h => hx h.2.2.1, if_pos rfl, if_neg]
    rintro ⟨-, h⟩
    exact absurd (hoctal.symm.trans h) (by decide)
  have hzero : Constant 0 ['0'] 0 := by
    have hconstant : Constant 0 ['0'] (charNumeral 8 []) := .octal rfl (by simp)
    exact hconstant
  have hcode : parseMagnitude text 0 limit = (accumulateDigits ('0' :: d :: rest) (10 : ℤ).toNat
      (limit (skipSpaceAndSign text).1)).map fun read =>
        ((skipSpaceAndSign text).1, UInt64.ofNat read.1, read.2) := by
    rw [← hq] at happly ⊢
    rw [parseMagnitude]
    dsimp only
    rw [happly]
    rfl
  have htake : ('0' :: d :: rest).takeWhile (isDigitOf 10) ≠ [] := by
    exact cons_ne_nil _ _
  rw [hcode, accumulateDigits_eq (by decide) (hlimit _), if_neg htake]
  refine ⟨rfl, (skipSpaceAndSign text).1, d :: rest, converts_iff.mpr ⟨rfl, ['0'], hzero, ?_⟩,
    cons_ne_nil _ _, ?_⟩
  · rw [hq]
    refine ⟨rfl, ⟨0, hzero⟩, fun body rest' hsplit hbody => ?_⟩
    obtain ⟨n, hn⟩ := hbody
    cases hn with
    | plain hlow => omega
    | hex hbase hx' => exact absurd ((List.cons.inj (List.cons.inj hsplit).2).1 ▸ hx') hx
    | @octal ds hbase hds =>
      cases ds with
      | nil => exact Nat.le_refl _
      | cons e ds =>
        obtain rfl : d = e := (List.cons.inj (List.cons.inj hsplit).2).1
        exact absurd (hoctal.symm.trans (hds d mem_cons_self)) (by decide)
    | decimal hbase hne => exact absurd (List.cons.inj hsplit).1.symm hne
  · intro negative' magnitude hparse
    have hdrop : ('0' :: d :: rest).dropWhile (isDigitOf 10) = rest.dropWhile (isDigitOf 10) := by
      rw [dropWhile_cons_of_pos rfl, dropWhile_cons_of_pos hten]
    have hrest : rest.dropWhile (isDigitOf 10) = d :: rest := by
      rw [← hdrop]
      simpa using (congrArg (Option.map fun x => x.2.2) hparse)
    have hlen := (dropWhile_sublist (isDigitOf 10) (l := rest)).length_le
    rw [hrest, length_cons] at hlen
    omega

end Conversion

section Agreement

variable {text : List Char} {radix : ℤ} {rest : List Char} {negative : Bool} {n : ℕ}

theorem parseInteger_iff {v : Int64} : parseInteger (some text) radix = some (v, rest) ↔
    ∃ negative magnitude, parseMagnitude text radix signedLimit = some (negative, magnitude, rest) ∧
      v = (applySign negative magnitude).toInt64 := by
  have hcode : parseInteger (some text) radix = (parseMagnitude text radix signedLimit).map
      fun read => ((applySign read.1 read.2.1).toInt64, read.2.2) := by
    change (parseMagnitude text radix signedLimit >>= fun _ => _) = _
    cases parseMagnitude text radix signedLimit <;> rfl
  rw [hcode]
  constructor
  · intro h
    obtain ⟨⟨negative, magnitude, p⟩, hmagnitude, heq⟩ := map_eq_some_iff.mp h
    cases heq
    exact ⟨negative, magnitude, hmagnitude, rfl⟩
  · rintro ⟨negative, magnitude, hmagnitude, rfl⟩
    rw [hmagnitude]
    rfl

theorem parseUnsigned_iff {v : UInt64} : parseUnsigned (some text) radix = some (v, rest) ↔
    ∃ negative magnitude, parseMagnitude text radix (fun _ => 2 ^ 64 - 1) =
      some (negative, magnitude, rest) ∧ v = applySign negative magnitude := by
  have hcode : parseUnsigned (some text) radix = (parseMagnitude text radix fun _ => 2 ^ 64 - 1).map
      fun read => (applySign read.1 read.2.1, read.2.2) := by
    change (parseMagnitude text radix _ >>= fun _ => _) = _
    cases parseMagnitude text radix (fun _ => 2 ^ 64 - 1) <;> rfl
  rw [hcode]
  constructor
  · intro h
    obtain ⟨⟨negative, magnitude, p⟩, hmagnitude, heq⟩ := map_eq_some_iff.mp h
    cases heq
    exact ⟨negative, magnitude, hmagnitude, rfl⟩
  · rintro ⟨negative, magnitude, hmagnitude, rfl⟩
    rw [hmagnitude]
    rfl

theorem signedLimit_lt (negative : Bool) : signedLimit negative < 2 ^ 64 := by
  cases negative <;> decide

/-- The limit of the sign leaves the number in the range that is nearest. -/
theorem applySign_signed (negative : Bool) (n : ℕ) :
    (applySign negative (UInt64.ofNat (min n (signedLimit negative)))).toInt64 =
      signedValue negative n := by
  have hmin : Int64.minValue.toInt = -2 ^ 63 := rfl
  have hmax : Int64.maxValue.toInt = 2 ^ 63 - 1 := rfl
  cases negative with
  | true =>
    have hlimit : signedLimit true = 2 ^ 63 := rfl
    rw [hlimit, signedValue, if_pos rfl, Int64.ofIntClamp, applySign, ← UInt64.neg_eq_not_add]
    by_cases hn : n ≤ 2 ^ 63
    · rw [dif_pos (by rw [hmin]; omega), dif_pos (by rw [hmax]; omega), Nat.min_eq_left hn]
      refine Int64.toBitVec.inj ?_
      change -BitVec.ofNat 64 n = BitVec.ofInt 64 (-n)
      rw [BitVec.ofInt_neg, BitVec.ofInt_natCast]
    · rw [dif_neg (by rw [hmin]; omega), Nat.min_eq_right (by omega)]
      rfl
  | false =>
    have hlimit : signedLimit false = 2 ^ 63 - 1 := rfl
    rw [hlimit, signedValue, if_neg Bool.false_ne_true, Int64.ofIntClamp, applySign,
      dif_pos (by rw [hmin]; omega)]
    by_cases hn : n ≤ 2 ^ 63 - 1
    · rw [dif_pos (by rw [hmax]; omega), Nat.min_eq_left hn]
      refine Int64.toBitVec.inj ?_
      change BitVec.ofNat 64 n = BitVec.ofInt 64 n
      rw [BitVec.ofInt_natCast]
    · rw [dif_neg (by rw [hmax]; omega), Nat.min_eq_right (by omega)]
      rfl

theorem applySign_unsigned (negative : Bool) {n : ℕ} (h : negative = true → n < 2 ^ 64) :
    applySign negative (UInt64.ofNat (min n (2 ^ 64 - 1))) = unsignedValue negative n := by
  rw [unsignedValue]
  cases negative with
  | true =>
    have hn := h rfl
    rw [if_neg (by omega), if_pos rfl, Nat.min_eq_left (by omega), applySign, if_pos rfl,
      ← UInt64.neg_eq_not_add]
  | false =>
    rw [if_neg Bool.false_ne_true, applySign, if_neg Bool.false_ne_true]
    by_cases hn : 2 ^ 64 ≤ n
    · rw [if_pos hn, Nat.min_eq_right (by omega)]
    · rw [if_neg hn, Nat.min_eq_left (by omega)]

theorem not_agrees_behindZero {α : Type} {parse : Option (List Char) → ℤ → Option (α × List Char)}
    {value : Bool → ℕ → α} {limit : Bool → ℕ} (hlimit : ∀ negative, limit negative < 2 ^ 64)
    (hparse : ∀ v rest, parse (some text) radix = some (v, rest) →
      ∃ negative magnitude, parseMagnitude text radix limit = some (negative, magnitude, rest))
    (h : AgreesWithC parse value text radix) : ¬DecimalBehindZero radix (skipSpaceAndSign text).2 := by
  intro hzero
  obtain ⟨-, negative, rest, hconverts, -, hnone⟩ := parseMagnitude_behindZero hlimit hzero
  obtain ⟨negative', magnitude, hsome⟩ := hparse _ rest ((h _ _).mpr ⟨negative, 0, hconverts, rfl⟩)
  exact hnone _ _ hsome

theorem parseInteger_converts (hzero : ¬DecimalBehindZero radix (skipSpaceAndSign text).2)
    {v : Int64} : parseInteger (some text) radix = some (v, rest) ↔
      ∃ negative n, Converts radix text negative n rest ∧ v = signedValue negative n := by
  rw [parseInteger_iff]
  constructor
  · rintro ⟨negative, magnitude, hsome, rfl⟩
    obtain ⟨n, hconverts, rfl⟩ := (parseMagnitude_iff signedLimit_lt hzero).mp hsome
    exact ⟨negative, n, hconverts, applySign_signed negative n⟩
  · rintro ⟨negative, n, hconverts, rfl⟩
    exact ⟨negative, _, (parseMagnitude_iff signedLimit_lt hzero).mpr ⟨n, hconverts, rfl⟩,
      (applySign_signed negative n).symm⟩

/-- `ParseInteger` reads a text as `strtoll` does unless it takes a zero before an eight or a nine
for the start of a decimal number. `ParseUnsigned` does so too, unless besides the number has a
minus sign and is out of range, which turns its limit around. -/
theorem parse_agrees (text : List Char) (radix : ℤ) :
    (AgreesWithC parseInteger signedValue text radix ↔
      ¬DecimalBehindZero radix (skipSpaceAndSign text).2) ∧
    (AgreesWithC parseUnsigned unsignedValue text radix ↔
      ¬DecimalBehindZero radix (skipSpaceAndSign text).2 ∧
        ∀ n rest, Converts radix text true n rest → n < 2 ^ 64) := by
  have hunsigned : ∀ _ : Bool, 2 ^ 64 - 1 < 2 ^ 64 := fun _ => by decide
  refine ⟨⟨fun h => ?_, fun hzero v rest => parseInteger_converts hzero⟩,
    ⟨fun h => ?_, fun h v rest => ?_⟩⟩
  · refine not_agrees_behindZero signedLimit_lt (fun v rest hparse => ?_) h
    obtain ⟨negative, magnitude, hsome, -⟩ := parseInteger_iff.mp hparse
    exact ⟨negative, magnitude, hsome⟩
  · have hzero : ¬DecimalBehindZero radix (skipSpaceAndSign text).2 := by
      refine not_agrees_behindZero hunsigned (fun v rest hparse => ?_) h
      obtain ⟨negative, magnitude, hsome, -⟩ := parseUnsigned_iff.mp hparse
      exact ⟨negative, magnitude, hsome⟩
    refine ⟨hzero, fun n rest hconverts => ?_⟩
    by_contra hn
    obtain ⟨negative, magnitude, hsome, hvalue⟩ :=
      parseUnsigned_iff.mp ((h _ _).mpr ⟨true, n, hconverts, rfl⟩)
    obtain ⟨m, hconverts', rfl⟩ := (parseMagnitude_iff hunsigned hzero).mp hsome
    obtain ⟨rfl, rfl, -⟩ := hconverts'.unique hconverts
    rw [unsignedValue, if_pos (by omega), Nat.min_eq_right (by omega)] at hvalue
    exact absurd hvalue (by decide)
  · rw [parseUnsigned_iff]
    obtain ⟨hzero, hrange⟩ := h
    constructor
    · rintro ⟨negative, magnitude, hsome, rfl⟩
      obtain ⟨n, hconverts, rfl⟩ := (parseMagnitude_iff hunsigned hzero).mp hsome
      refine ⟨negative, n, hconverts, applySign_unsigned negative ?_⟩
      rintro rfl
      exact hrange n rest hconverts
    · rintro ⟨negative, n, hconverts, rfl⟩
      refine ⟨negative, _, (parseMagnitude_iff hunsigned hzero).mpr ⟨n, hconverts, rfl⟩,
        (applySign_unsigned negative ?_).symm⟩
      rintro rfl
      exact hrange n rest hconverts

/-- A zero before a nine is read as decimal, and a number past the range with a minus sign as
one. -/
theorem parse_disagrees : ¬AgreesWithC parseInteger signedValue "09".toList 0 ∧
    ¬AgreesWithC parseUnsigned unsignedValue "-18446744073709551616".toList 10 := by
  constructor
  · intro h
    refine not_agrees_behindZero signedLimit_lt (fun v rest hparse => ?_) h ⟨rfl, rfl, .inr rfl⟩
    obtain ⟨negative, magnitude, hsome, -⟩ := parseInteger_iff.mp hparse
    exact ⟨negative, magnitude, hsome⟩
  · intro h
    have hdigits : "18446744073709551616".toList.all (isDigitOf 10) = true := by decide
    have hconstant : Constant 10 "18446744073709551616".toList 18446744073709551616 :=
      .plain (by decide) (by decide) (by decide) (all_eq_true.mp hdigits)
    have hconverts : Converts 10 "-18446744073709551616".toList true 18446744073709551616 [] :=
      .intro [] ['-'] "18446744073709551616".toList [] _ (by simp) (.inr (.inr rfl))
        ⟨rfl, ⟨_, hconstant⟩, fun body rest hsplit _ => by
          rw [← append_nil "18446744073709551616".toList, hsplit, length_append]
          exact Nat.le_add_right _ _⟩ hconstant
    have hparse := (h _ _).mpr ⟨true, _, hconverts, rfl⟩
    have hcode : parseUnsigned (some "-18446744073709551616".toList) 10 = some (1, []) := by decide
    exact absurd (hcode.symm.trans hparse) (by decide)

end Agreement

end Equilibrium.NumberParse
