import Equilibrium.Text.CodeConvertRoundTrip

/-! The checks of byte strings in `base/text/code_point_validation.h`: the verdict of
`DoIsStringUTF8` and the offset that `IsStringUTF8AndReportIdx` returns. -/

namespace Equilibrium.CodeConvert

open Library Library.CodeForm List

variable {s rest : List ℕ} {c : Char} {i n : ℕ}

/-- A code point is the number of its 32 bits, of which a negative one is above all limits. -/
def isValidUtf8Character (codePoint : ℕ) : Bool :=
  codePoint < 0xD800 ∨ (codePoint ≥ 0xE000 ∧ codePoint < 0xFDD0) ∨
    (codePoint > 0xFDEF ∧ codePoint ≤ 0x10FFFF ∧ codePoint &&& 0xFFFE ≠ 0xFFFE)

/-- `CBU8_NEXT` at an index: the code point and the index behind it. It reads the byte at the
index whatever the length is, and looks at the length before every other one. -/
def cbu8NextAt (str : List ℕ) (i : ℕ) : Option (ℕ × ℕ) :=
  if i < str.length then
    some ((cbu8Next (str.drop i)).1, str.length - (cbu8Next (str.drop i)).2.length)
  else none

/-- A round passes a byte at least. -/
def doIsStringUtf8Loop (src : List ℕ) : ℕ → ℕ → Option Bool
  | 0, charIndex => if charIndex < src.length then none else some true
  | rounds + 1, charIndex =>
    if charIndex < src.length then
      (cbu8NextAt src charIndex).bind fun (codePoint, next) =>
        if isValidUtf8Character codePoint then doIsStringUtf8Loop src rounds next else some false
    else some true

def doIsStringUtf8 (str : List ℕ) : Option Bool := doIsStringUtf8Loop str str.length 0

def isStringUtf8AndReportIdxLoop (src : List ℕ) : ℕ → ℕ → Option ℕ
  | 0, charIndex => if charIndex < src.length then none else some 0
  | rounds + 1, charIndex =>
    if charIndex < src.length then
      (cbu8NextAt src charIndex).bind fun (codePoint, next) =>
        if isValidUtf8Character codePoint then isStringUtf8AndReportIdxLoop src rounds next
        else some charIndex
    else some 0

def isStringUtf8AndReportIdx (str : List ℕ) : Option ℕ :=
  isStringUtf8AndReportIdxLoop str str.length 0

/-! What the checks allow. -/

def Allowed (c : Char) : Prop :=
  ¬(0xFDD0 ≤ c.toNat ∧ c.toNat ≤ 0xFDEF) ∧ c.toNat % 0x10000 < 0xFFFE

instance (c : Char) : Decidable (Allowed c) :=
  inferInstanceAs (Decidable (¬(0xFDD0 ≤ c.toNat ∧ c.toNat ≤ 0xFDEF) ∧ c.toNat % 0x10000 < 0xFFFE))

theorem and_fffe (n : ℕ) : n &&& 0xFFFE = n % 0x10000 / 2 * 2 := by
  have hlow : n &&& 0xFFFE = n % 2 ^ 16 &&& 0xFFFE := by
    have hmask : (0xFFFE : ℕ) = 0xFFFF &&& 0xFFFE := by decide
    have hmod : n &&& 0xFFFF = n % 2 ^ 16 := and_lowBits n 16
    rw [hmask, ← Nat.and_assoc, hmod]
    rfl
  have hbits := and_highBits (c := n % 2 ^ 16) (k := 1) (Nat.mod_lt _ (by decide))
  rw [hlow]
  exact hbits

theorem isValidUtf8Character_iff (c : Char) : isValidUtf8Character c.toNat = true ↔ Allowed c := by
  have hvalid := toNat_valid c
  have hand := and_fffe c.toNat
  unfold isValidUtf8Character Allowed
  rw [decide_eq_true_eq]
  omega

theorem isValidUtf8Character_sentinel : isValidUtf8Character kSentinel = false := by decide

theorem cbu8NextAt_append (before : List ℕ) {units : List ℕ} {codePoint : ℕ} (hne : s ≠ [])
    (hnext : cbu8Next s = (codePoint, rest)) (hs : s = units ++ rest) :
    cbu8NextAt (before ++ s) before.length = some (codePoint, (before ++ units).length) := by
  have hpos := length_pos_iff.mpr hne
  have hlt : before.length < (before ++ s).length := by
    rw [length_append]
    omega
  have hlength := congrArg length hs
  rw [length_append] at hlength
  rw [cbu8NextAt, if_pos hlt, drop_left, hnext, length_append, length_append]
  refine congrArg (fun k => some (codePoint, k)) ?_
  dsimp only
  omega

/-- The characters that are allowed at the front of a string, and what is behind them. -/
structure Split (s : List ℕ) (cs : List Char) (rest : List ℕ) : Prop where
  eq : s = utf8.encodeAll cs ++ rest
  allowed : ∀ c ∈ cs, Allowed c
  stops : ∀ c, Allowed c → ¬utf8.encode c <+: rest

theorem Split.cons {cs : List Char} (h : Split s cs rest) (hc : Allowed c) :
    Split (utf8.encode c ++ s) (c :: cs) rest where
  eq := by rw [h.eq, encodeAll_cons, append_assoc]
  allowed := forall_mem_cons.mpr ⟨hc, h.allowed⟩
  stops := h.stops

theorem Split.nil (h : ∀ c, Allowed c → ¬utf8.encode c <+: s) : Split s [] s :=
  ⟨rfl, fun _ hc => absurd hc not_mem_nil, h⟩

theorem split_nil : Split [] [] [] :=
  .nil fun c _ hc => utf8.encode_ne_nil c (prefix_nil.mp hc)

theorem loops_end (rounds : ℕ) (before : List ℕ) :
    doIsStringUtf8Loop before rounds before.length = some true ∧
      isStringUtf8AndReportIdxLoop before rounds before.length = some 0 := by
  have hend := Nat.lt_irrefl before.length
  cases rounds with
  | zero => exact ⟨if_neg hend, if_neg hend⟩
  | succ rounds => exact ⟨if_neg hend, if_neg hend⟩

theorem loops_split (rounds : ℕ) (before s : List ℕ) (hs : ∀ b ∈ s, b < 256)
    (hrounds : s.length ≤ rounds) : ∃ cs rest, Split s cs rest ∧
      doIsStringUtf8Loop (before ++ s) rounds before.length = some (decide (rest = [])) ∧
      isStringUtf8AndReportIdxLoop (before ++ s) rounds before.length =
        some (if rest = [] then 0 else (before ++ utf8.encodeAll cs).length) := by
  induction rounds generalizing before s with
  | zero =>
    obtain rfl := length_eq_zero_iff.mp (Nat.le_zero.mp hrounds)
    rw [append_nil]
    exact ⟨[], [], split_nil, (loops_end 0 before).1, (loops_end 0 before).2⟩
  | succ rounds ih =>
    by_cases hne : s = []
    case pos =>
      rw [hne, append_nil]
      exact ⟨[], [], split_nil, (loops_end _ before).1, (loops_end _ before).2⟩
    case neg =>
      have hpos := length_pos_iff.mpr hne
      have hlt : before.length < (before ++ s).length := by
        rw [length_append]
        omega
      -- what both loops do with a code point that is not allowed
      have hstop : ∀ codePoint next, cbu8NextAt (before ++ s) before.length =
          some (codePoint, next) → isValidUtf8Character codePoint = false →
          (∀ c, Allowed c → ¬utf8.encode c <+: s) → ∃ cs rest, Split s cs rest ∧
            doIsStringUtf8Loop (before ++ s) (rounds + 1) before.length =
              some (decide (rest = [])) ∧
            isStringUtf8AndReportIdxLoop (before ++ s) (rounds + 1) before.length =
              some (if rest = [] then 0 else (before ++ utf8.encodeAll cs).length) := by
        intro codePoint next hnext hinvalid hstops
        refine ⟨[], s, .nil hstops, ?_, ?_⟩
        · rw [doIsStringUtf8Loop, if_pos hlt, hnext, decide_eq_false hne]
          simp only [Option.bind_some, hinvalid, Bool.false_eq_true, if_false]
        · have hnil : utf8.encodeAll [] = [] := rfl
          rw [isStringUtf8AndReportIdxLoop, if_pos hlt, hnext, if_neg hne, hnil, append_nil]
          simp only [Option.bind_some, hinvalid, Bool.false_eq_true, if_false]
      obtain ⟨c, rest, hnext, heq⟩ | ⟨units, rest, hnext, heq, hill⟩ := nextTakes_of_ne_nil hs hne
      case inr =>
        refine hstop _ _ (cbu8NextAt_append before hne hnext heq) isValidUtf8Character_sentinel ?_
        intro c _ hc
        exact hill.no_char c (heq ▸ hc)
      case inl =>
        have hat := cbu8NextAt_append before hne hnext heq
        by_cases hc : Allowed c
        case neg =>
          have hinvalid : isValidUtf8Character c.toNat = false :=
            Bool.eq_false_iff.mpr (mt (isValidUtf8Character_iff c).mp hc)
          refine hstop _ _ hat hinvalid fun d hd hpre => hc ?_
          obtain ⟨tail, htail⟩ := hpre
          rw [heq] at htail
          obtain rfl := utf8.starts d c _ _ htail
          exact hd
        case pos =>
          have hvalid := (isValidUtf8Character_iff c).mpr hc
          have hlength := congrArg length heq
          have hunits := length_pos_iff.mpr (utf8Units_ne_nil c)
          rw [length_append] at hlength
          obtain ⟨cs, rest', hsplit, hcheck, hreport⟩ := ih (before ++ utf8Units c) rest
            (fun b hb => hs b (heq ▸ mem_append_right _ hb)) (by omega)
          rw [append_assoc, ← heq] at hcheck hreport
          refine ⟨c :: cs, rest', heq ▸ hsplit.cons hc, ?_, ?_⟩
          · rw [doIsStringUtf8Loop, if_pos hlt, hat]
            simp only [Option.bind_some, hvalid, if_true]
            exact hcheck
          · rw [isStringUtf8AndReportIdxLoop, if_pos hlt, hat, encodeAll_cons]
            simp only [Option.bind_some, hvalid, if_true]
            exact hreport.trans (by rw [append_assoc]; rfl)

theorem checks_split (hs : ∀ b ∈ s, b < 256) : ∃ cs rest, Split s cs rest ∧
    doIsStringUtf8 s = some (decide (rest = [])) ∧
    isStringUtf8AndReportIdx s = some (if rest = [] then 0 else (utf8.encodeAll cs).length) :=
  loops_split s.length [] s hs le_rfl

theorem doIsStringUtf8_iff (hs : ∀ b ∈ s, b < 256) :
    doIsStringUtf8 s = some true ↔ ∃ cs, s = utf8.encodeAll cs ∧ ∀ c ∈ cs, Allowed c := by
  obtain ⟨cs, rest, hsplit, hcheck, -⟩ := checks_split hs
  rw [hcheck]
  constructor
  · intro h
    have hrest := of_decide_eq_true (Option.some.inj h)
    refine ⟨cs, ?_, hsplit.allowed⟩
    rw [hsplit.eq, hrest, append_nil]
  · rintro ⟨ds, hds, hallowed⟩
    rw [hsplit.eq] at hds
    obtain ⟨es, rfl, hrest⟩ := encodeAll_eq_append hds.symm
    cases es with
    | nil =>
      have hnil : rest = [] := hrest
      rw [decide_eq_true hnil]
    | cons e es =>
      have he := hallowed e (mem_append_right _ mem_cons_self)
      exact absurd ⟨utf8.encodeAll es, hrest.symm⟩ (hsplit.stops e he)

/-- The offset of the first sequence that is ill-formed or not allowed. -/
def FirstBad (s : List ℕ) (i : ℕ) : Prop :=
  ∃ cs rest, Split s cs rest ∧ rest ≠ [] ∧ i = (utf8.encodeAll cs).length

/-- The offset tells the verdict, and where a rejected string goes wrong. -/
def Reports (s : List ℕ) : Prop :=
  ∃ ok i, doIsStringUtf8 s = some ok ∧ isStringUtf8AndReportIdx s = some i ∧
    (i = 0 ↔ ok = true) ∧ (ok = false → FirstBad s i)

/-- The offset tells the verdict exactly where a string is empty or starts with an allowed
character. -/
theorem reports_iff (s : List UInt8) :
    Reports (bytes s) ↔ s = [] ∨ ∃ c, Allowed c ∧ utf8.encode c <+: bytes s := by
  have hs : ∀ b ∈ bytes s, b < 256 := lt_of_mem_bytes
  obtain ⟨cs, rest, hsplit, hcheck, hreport⟩ := checks_split hs
  have hfirst : s = [] ∨ (∃ c, Allowed c ∧ utf8.encode c <+: bytes s) ↔ rest = [] ∨ cs ≠ [] := by
    cases cs with
    | nil =>
      have heq : bytes s = rest := hsplit.eq
      have hnil : s = [] ↔ rest = [] := by rw [← heq, bytes, map_eq_nil_iff]
      rw [hnil, heq]
      refine or_congr_right (iff_of_false ?_ fun h => h rfl)
      rintro ⟨c, hc, hpre⟩
      exact hsplit.stops c hc hpre
    | cons c cs =>
      refine iff_of_true (.inr ⟨c, hsplit.allowed c mem_cons_self, ?_⟩)
        (.inr (cons_ne_nil c cs))
      rw [hsplit.eq, encodeAll_cons, append_assoc]
      exact prefix_append _ _
  rw [hfirst]
  by_cases hrest : rest = []
  case pos =>
    rw [decide_eq_true hrest] at hcheck
    rw [if_pos hrest] at hreport
    exact iff_of_true ⟨true, 0, hcheck, hreport, by simp, by simp⟩ (.inl hrest)
  case neg =>
    rw [decide_eq_false hrest] at hcheck
    rw [if_neg hrest] at hreport
    constructor
    · rintro ⟨ok, i, hok, hi, hverdict, -⟩
      cases hcheck.symm.trans hok
      cases hreport.symm.trans hi
      refine .inr fun hnil => ?_
      have hzero : (utf8.encodeAll cs).length = 0 := by rw [hnil]; rfl
      cases hverdict.mp hzero
    · rintro (hnil | hne)
      · exact absurd hnil hrest
      · refine ⟨false, _, hcheck, hreport, iff_of_false ?_ Bool.false_ne_true, fun _ => ?_⟩
        · have hle := length_le_encodeAll (F := utf8) cs
          have hpos := length_pos_iff.mpr hne
          omega
        · exact ⟨cs, rest, hsplit, hrest, rfl⟩

/-- A byte that starts no character is rejected at the offset that stands for acceptance. -/
theorem first_byte_accepted :
    doIsStringUtf8 (bytes [0xFF]) = some false ∧ isStringUtf8AndReportIdx (bytes [0xFF]) = some 0 ∧
      isStringUtf8AndReportIdx (bytes [0x61]) = some 0 ∧
      isStringUtf8AndReportIdx (bytes [0x61, 0xFF]) = some 1 ∧ ¬Reports (bytes [0xFF]) := by
  refine ⟨by decide +kernel, by decide +kernel, by decide +kernel, by decide +kernel, ?_⟩
  rintro ⟨ok, i, hok, hi, hverdict, -⟩
  have hcheck : doIsStringUtf8 (bytes [0xFF]) = some false := by decide +kernel
  have hreport : isStringUtf8AndReportIdx (bytes [0xFF]) = some 0 := by decide +kernel
  cases hcheck.symm.trans hok
  cases hreport.symm.trans hi
  cases hverdict.mp rfl

/-! The iterator of `base/text/utf8_codepoint_iterator.h` over the code points of a byte string. A
call that reads a byte at or behind the length gives `none`. -/

structure Utf8CodePointIterator where
  arrayPos : ℕ
  nextPos : ℕ
  charPos : ℕ
  char : ℕ

namespace Utf8CodePointIterator

variable {str : List ℕ} {it : Utf8CodePointIterator} {ps : List (ℕ × Option Char)} {k : ℕ}

/-- The constructor -/
def new (str : List ℕ) : Option Utf8CodePointIterator :=
  (cbu8NextAt str 0).map fun (c, next) => ⟨0, next, 0, c⟩

def atEnd (str : List ℕ) (it : Utf8CodePointIterator) : Bool := it.arrayPos = str.length

def advance (str : List ℕ) (it : Utf8CodePointIterator) : Option (Bool × Utf8CodePointIterator) :=
  if it.arrayPos ≥ str.length then some (false, it)
  else
    let it := { it with arrayPos := it.nextPos, charPos := it.charPos + 1 }
    if it.nextPos < str.length then
      (cbu8NextAt str it.nextPos).map fun (c, next) => (true, { it with nextPos := next, char := c })
    else some (true, it)

/-- The loop of `PeekCharacter` -/
def peekLoop (str : List ℕ) : ℕ → ℕ → ℕ → Option ℕ
  | 0, _, theChar => some theChar
  | rounds + 1, thePos, _ =>
    if thePos ≥ str.length then some 0
    else (cbu8NextAt str thePos).bind fun (c, next) => peekLoop str rounds next c

def peekCharacter (str : List ℕ) (it : Utf8CodePointIterator) (numberOfCodePoints : ℕ) :
    Option ℕ :=
  if it.arrayPos ≥ str.length then some 0
  else (cbu8NextAt str it.arrayPos).bind fun (c, next) => peekLoop str numberOfCodePoints next c

/-- The iterator after `k` calls of `Advance` -/
def advanced (str : List ℕ) : ℕ → Option Utf8CodePointIterator
  | 0 => new str
  | k + 1 => (advanced str k).bind fun it => (advance str it).map (·.2)

/-! What an iteration visits. -/

def current (c : Option Char) : ℕ := c.elim kSentinel Char.toNat

/-- The place of a part, and the length of the string behind the last one. -/
def place (str : List ℕ) (ps : List (ℕ × Option Char)) (k : ℕ) : ℕ :=
  (ps[k]?).elim str.length (·.1)

/-- The parts of a string are visited one after another. -/
structure Visits (str : List ℕ) (ps : List (ℕ × Option Char)) : Prop where
  pieces : utf8.Pieces 0 str ps
  increasing : (ps.map (·.1)).Pairwise (· < ·)
  below : ∀ p ∈ ps, p.1 < str.length
  visits : ∀ k ≤ ps.length, ∃ it, advanced str k = some it ∧ it.charPos = k ∧
    it.arrayPos = place str ps k ∧ (∀ p, ps[k]? = some p → it.char = current p.2) ∧
    (atEnd str it = true ↔ k = ps.length) ∧
    ∀ n, peekCharacter str it n = some ((ps[k + n]?).elim 0 fun p => current p.2)

def Iterates (str : List ℕ) : Prop := ∃ ps, Visits str ps

/-- The macro at the place of each part. -/
def Reads (str : List ℕ) (ps : List (ℕ × Option Char)) : Prop :=
  ∀ k p, ps[k]? = some p → cbu8NextAt str p.1 = some (current p.2, place str ps (k + 1))

theorem reads_cons {i : ℕ} {c : Option Char} {next : ℕ}
    (hfirst : cbu8NextAt str i = some (current c, next)) (hplace : place str ps 0 = next)
    (h : Reads str ps) : Reads str ((i, c) :: ps) := by
  intro k p hp
  cases k with
  | zero =>
    cases hp
    exact hfirst.trans (congrArg (fun n => some (current c, n)) hplace.symm)
  | succ k => exact h k p hp

theorem exists_pieces (rounds : ℕ) (before s : List ℕ) (hs : ∀ b ∈ s, b < 256)
    (hrounds : s.length ≤ rounds) :
    ∃ ps, utf8.Pieces before.length s ps ∧ Reads (before ++ s) ps := by
  induction rounds generalizing before s with
  | zero =>
    obtain rfl := length_eq_zero_iff.mp (Nat.le_zero.mp hrounds)
    exact ⟨[], .nil _, fun k p hp => by cases hp⟩
  | succ rounds ih =>
    by_cases hne : s = []
    case pos =>
      rw [hne]
      exact ⟨[], .nil _, fun k p hp => by cases hp⟩
    case neg =>
      -- the parts behind the first one
      have hbehind : ∀ units rest, units ≠ [] → s = units ++ rest →
          ∃ ps, utf8.Pieces (before.length + units.length) rest ps ∧ Reads (before ++ s) ps ∧
            place (before ++ s) ps 0 = (before ++ units).length := by
        intro units rest hunits heq
        have hlength := congrArg length heq
        have hpos := length_pos_iff.mpr hunits
        rw [length_append] at hlength
        obtain ⟨ps, hpieces, hreads⟩ := ih (before ++ units) rest
          (fun b hb => hs b (heq ▸ mem_append_right _ hb)) (by omega)
        have hfirst := hpieces.first
        rw [append_assoc, ← heq] at hreads
        have htotal : (before ++ s).length = (before ++ units).length + rest.length := by
          simp only [length_append]
          omega
        rw [← htotal] at hfirst
        rw [length_append] at hpieces
        exact ⟨ps, hpieces, hreads, hfirst⟩
      obtain ⟨c, rest, hnext, heq⟩ | ⟨units, rest, hnext, heq, hill⟩ := nextTakes_of_ne_nil hs hne
      · obtain ⟨ps, hpieces, hreads, hplace⟩ := hbehind _ rest (utf8Units_ne_nil c) heq
        have hfirst := cbu8NextAt_append before hne hnext heq
        refine ⟨(before.length, some c) :: ps, ?_, reads_cons hfirst hplace hreads⟩
        have hpiece : utf8.Pieces before.length (utf8.encode c ++ rest)
          ((before.length, some c) :: ps) := .char _ c hpieces
        rw [heq]
        exact hpiece
      · obtain ⟨ps, hpieces, hreads, hplace⟩ := hbehind units rest hill.ne_nil heq
        have hfirst := cbu8NextAt_append before hne hnext heq
        refine ⟨(before.length, none) :: ps, ?_, reads_cons hfirst hplace hreads⟩
        rw [heq]
        exact .illFormed _ hill hpieces

section Run

variable (hpieces : utf8.Pieces 0 str ps) (hreads : Reads str ps)

include hpieces

theorem place_zero : place str ps 0 = 0 := by
  have hfirst := hpieces.first
  rw [Nat.zero_add] at hfirst
  exact hfirst

theorem place_lt_iff : place str ps k < str.length ↔ k < ps.length := by
  constructor
  · intro hlt
    by_contra hge
    rw [place, getElem?_eq_none (not_lt.mp hge)] at hlt
    exact Nat.lt_irrefl _ hlt
  · intro hk
    have hbound := (hpieces.bounds ps[k] (getElem_mem hk)).2
    rw [place, getElem?_eq_getElem hk]
    rw [Nat.zero_add] at hbound
    exact hbound

include hreads

omit hpieces in
/-- What the macro gives at a place. -/
theorem cbu8NextAt_place (hk : k < ps.length) :
    cbu8NextAt str (place str ps k) = some (current ps[k].2, place str ps (k + 1)) := by
  have hget := getElem?_eq_getElem hk
  have hplace : place str ps k = ps[k].1 := by
    rw [place, hget]
    rfl
  rw [hplace]
  exact hreads k ps[k] hget

omit hpieces hreads in
/-- The iterator at a part, or behind the last one. -/
structure At (str : List ℕ) (ps : List (ℕ × Option Char)) (k : ℕ) (it : Utf8CodePointIterator) :
    Prop where
  arrayPos : it.arrayPos = place str ps k
  charPos : it.charPos = k
  nextPos : k < ps.length → it.nextPos = place str ps (k + 1)
  char : ∀ p, ps[k]? = some p → it.char = current p.2

theorem new_at (hne : 0 < ps.length) : ∃ it, new str = some it ∧ At str ps 0 it := by
  have hnext := cbu8NextAt_place hreads hne
  have hzero := place_zero hpieces
  rw [hzero] at hnext
  refine ⟨⟨0, place str ps 1, 0, current ps[0].2⟩, ?_, hzero.symm, rfl, fun _ => rfl, ?_⟩
  · rw [new, hnext]
    rfl
  · intro p hp
    rw [getElem?_eq_getElem hne] at hp
    rw [← Option.some.inj hp]

theorem At.advance (h : At str ps k it) (hk : k < ps.length) :
    ∃ it', advance str it = some (true, it') ∧ At str ps (k + 1) it' := by
  have hplace := (place_lt_iff hpieces).mpr hk
  rw [← h.arrayPos] at hplace
  have hnext := h.nextPos hk
  by_cases hlast : k + 1 < ps.length
  case pos =>
    have hlt := (place_lt_iff hpieces).mpr hlast
    have hread := cbu8NextAt_place hreads hlast
    refine ⟨⟨it.nextPos, place str ps (k + 2), it.charPos + 1, current ps[k + 1].2⟩, ?_, hnext,
      congrArg (· + 1) h.charPos, fun _ => rfl, ?_⟩
    · rw [Utf8CodePointIterator.advance, if_neg (by omega)]
      rw [hnext, if_pos hlt, hread]
      rfl
    · intro p hp
      rw [getElem?_eq_getElem hlast] at hp
      rw [← Option.some.inj hp]
  case neg =>
    have hend := mt (place_lt_iff hpieces).mp hlast
    refine ⟨⟨it.nextPos, it.nextPos, it.charPos + 1, it.char⟩, ?_, hnext,
      congrArg (· + 1) h.charPos, fun hlt => absurd hlt hlast, ?_⟩
    · rw [Utf8CodePointIterator.advance, if_neg (by omega)]
      rw [hnext, if_neg hend]
    · intro p hp
      rw [getElem?_eq_none (not_lt.mp hlast)] at hp
      cases hp

theorem advanced_at (hne : 0 < ps.length) : ∀ k ≤ ps.length, ∃ it, advanced str k = some it ∧
    At str ps k it := by
  intro k
  induction k with
  | zero => exact fun _ => new_at hpieces hreads hne
  | succ k ih =>
    intro hk
    obtain ⟨it, hit, hat⟩ := ih (by omega)
    obtain ⟨it', hadvance, hat'⟩ := hat.advance hpieces hreads hk
    refine ⟨it', ?_, hat'⟩
    rw [advanced, hit, Option.bind_some, hadvance]
    rfl

theorem peekLoop_place (n : ℕ) (theChar : ℕ) : peekLoop str (n + 1) (place str ps k) theChar =
      some ((ps[k + n]?).elim 0 fun p => current p.2) := by
  induction n generalizing k theChar with
  | zero =>
    rw [peekLoop]
    by_cases hk : k < ps.length
    case pos =>
      have hlt := (place_lt_iff hpieces).mpr hk
      have hget : ps[k + 0]? = some ps[k] := getElem?_eq_getElem hk
      rw [if_neg (by omega), cbu8NextAt_place hreads hk, hget]
      rfl
    case neg =>
      have hge := mt (place_lt_iff hpieces).mp hk
      rw [if_pos (not_lt.mp hge), getElem?_eq_none (by omega)]
      rfl
  | succ n ih =>
    rw [peekLoop]
    by_cases hk : k < ps.length
    case pos =>
      have hlt := (place_lt_iff hpieces).mpr hk
      have hshift : k + (n + 1) = k + 1 + n := by omega
      rw [if_neg (by omega), cbu8NextAt_place hreads hk, hshift]
      exact ih (current ps[k].2)
    case neg =>
      have hge := mt (place_lt_iff hpieces).mp hk
      rw [if_pos (not_lt.mp hge), getElem?_eq_none (by omega)]
      rfl

theorem At.peek (h : At str ps k it) (n : ℕ) :
    peekCharacter str it n = some ((ps[k + n]?).elim 0 fun p => current p.2) := by
  have hloop := peekLoop_place hpieces hreads (k := k) n 0
  rw [peekCharacter, h.arrayPos]
  exact hloop

end Run

theorem iterates_of_ne_nil (hs : ∀ b ∈ str, b < 256) (hne : str ≠ []) : Iterates str := by
  obtain ⟨ps, hpieces, hreads⟩ := exists_pieces str.length [] str hs le_rfl
  have hpieces : utf8.Pieces 0 str ps := hpieces
  have hreads : Reads str ps := hreads
  have hpos : 0 < ps.length := by
    refine (place_lt_iff hpieces).mp ?_
    rw [place_zero hpieces]
    exact length_pos_iff.mpr hne
  refine ⟨ps, hpieces, hpieces.increasing, fun p hp => ?_, fun k hk => ?_⟩
  · have hbound := (hpieces.bounds p hp).2
    rwa [Nat.zero_add] at hbound
  · obtain ⟨it, hit, hat⟩ := advanced_at hpieces hreads hpos k hk
    refine ⟨it, hit, hat.charPos, hat.arrayPos, hat.char, ?_, hat.peek hpieces hreads⟩
    have hlt := place_lt_iff hpieces (k := k)
    have hle : place str ps k ≤ str.length := by
      rw [place]
      cases hget : ps[k]? with
      | none => exact le_rfl
      | some p =>
        have hbound := (hpieces.bounds p (mem_of_getElem? hget)).2
        rw [Nat.zero_add] at hbound
        exact hbound.le
    rw [atEnd, decide_eq_true_eq, hat.arrayPos]
    omega

theorem not_iterates_nil : ¬Iterates [] := by
  rintro ⟨ps, hvisits⟩
  obtain ⟨it, hit, -⟩ := hvisits.visits 0 (Nat.zero_le _)
  have hnew : advanced [] 0 = none := rfl
  cases hnew.symm.trans hit

/-- An iteration visits every part of a string once and in order, with the characters that
`PeekCharacter` has told before, exactly where there is a first byte. -/
theorem iterates_iff (s : List UInt8) : Iterates (bytes s) ↔ s ≠ [] := by
  constructor
  · rintro hiterates rfl
    exact not_iterates_nil hiterates
  · intro hne
    refine iterates_of_ne_nil lt_of_mem_bytes fun hnil => hne ?_
    exact map_eq_nil_iff.mp hnil

/-- The iterator of an empty string. -/
theorem empty_read : new (bytes []) = none ∧ ¬Iterates (bytes []) := ⟨rfl, not_iterates_nil⟩

end Utf8CodePointIterator

end Equilibrium.CodeConvert
