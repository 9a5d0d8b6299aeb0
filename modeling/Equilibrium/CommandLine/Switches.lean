import Mathlib.Algebra.Group.Nat.Defs
import Mathlib.Algebra.Group.Int.Defs
import Mathlib.Data.Int.Basic
import Mathlib.Data.List.Infix
import Mathlib.Order.Lattice

/-! The switches of `base/command_line.h` and `base/command_line.cc`. A string is the list of its
characters. An access outside a string, which its `BASE_BUGCHECK` refuses, gives `none`. -/

namespace Equilibrium

open Option
open List (forall_mem_cons length_cons)

/-- Neither an `int` of arguments nor a text with a 32-bit length has more pieces. -/
structure CommandLine where
  pieces : List (List Char)
  few : pieces.length < 2 ^ 32

namespace CommandLine

def kNotFoundIndex : Int32 := -1

/-- `piece.compare(offset, count, str)` -/
def compareAt (piece : List Char) (offset count : ℕ) (str : List Char) : Option Ordering :=
  if offset ≤ piece.length then
    let leftSize := piece.length - offset
    let minSize := min leftSize count
    match compare ((piece.drop offset).take minSize) (str.take minSize) with
    | .eq => if leftSize < count then some .lt else some .eq
    | result => some result
  else none

/-- The lambda of the same name in `FindSwitchIndex`. -/
def matchesAt (piece switchName : List Char) (offset : ℕ) : Option Bool :=
  (compareAt piece offset switchName.length switchName).map (· == .eq)

/-- The body of the loop in `FindSwitchIndex`: whether it returns at the piece. -/
def takesPiece (switchName piece : List Char) : Option Bool :=
  if piece.length < switchName.length then some false
  else do
    let c ← piece[0]?
    -- the source's test of two characters comes behind this one and never holds
    if c ≠ '-' then return false
    if ← matchesAt piece switchName 1 then return true
    matchesAt piece switchName 2

def findSwitchFrom (switchName : List Char) : ℕ → List (List Char) → Option Int32
  | _, [] => some kNotFoundIndex
  | i, piece :: rest => do
    if ← takesPiece switchName piece then return Int32.ofNat i
    findSwitchFrom switchName (i + 1) rest

def findSwitchIndex (line : CommandLine) (switchName : List Char) : Option Int32 :=
  findSwitchFrom switchName 0 line.pieces

/-- What follows the first `=`. -/
def extractSwitchValue (itemContents : List Char) : List Char :=
  match itemContents.idxOf? '=' with
  | some eqPos => itemContents.drop (eqPos + 1)
  | none => []

/-- `at`; the length of a `StringRefU8` has 32 bits. -/
def pieceAt (line : CommandLine) (index : ℕ) : List Char :=
  match line.pieces[index]? with
  | some piece => piece.take (piece.length % 2 ^ 32)
  | none => []

def findSwitchValue (line : CommandLine) (switchName : List Char) : Option (List Char) := do
  let res ← line.findSwitchIndex switchName
  if res = kNotFoundIndex then return []
  return extractSwitchValue (line.pieceAt (res.toInt % 2 ^ 64).toNat)

/-- The loop over the aliases, which looks up the command. -/
def aliasLoop (line : CommandLine) (command : List Char) : List (List Char) → Option (List Char)
  | [] => some []
  | _ :: aliases => do
    let it ← line.findSwitchValue command
    if it ≠ [] then return it
    line.aliasLoop command aliases

def findSwitchValuesWithAlias (line : CommandLine) (command : List Char)
    (aliases : List (List Char)) : Option (List Char) := do
  let val ← line.findSwitchValue command
  if val ≠ [] then return val
  line.aliasLoop command aliases

section Switches

variable (name : List Char)

def IsSwitch (piece : List Char) : Prop :=
  ∃ dashes ∈ [['-'], ['-', '-']], ∃ value : List Char, (value = [] ∨ value.head? = some '=') ∧
    piece = dashes ++ (name ++ value)

/-- Behind a dash, and perhaps one character more, the piece goes on with the name. -/
def Resembles (piece : List Char) : Prop :=
  piece.head? = some '-' ∧ (name <+: piece.drop 1 ∨ name <+: piece.drop 2)

def TooShort (piece : List Char) : Prop :=
  name = [] ∧ piece = [] ∨ name.length = 1 ∧ piece = ['-']

/-- The result is the least index of a switch, counted from `first`, or says that there is none. -/
def FindsSwitch (first : ℕ) (pieces : List (List Char)) (result : Option Int32) : Prop :=
  (∃ before piece after v, pieces = before ++ piece :: after ∧ (∀ p ∈ before, ¬IsSwitch name p) ∧
    IsSwitch name piece ∧ result = some v ∧ v.toInt = first + before.length) ∨
  (∀ p ∈ pieces, ¬IsSwitch name p) ∧ result = some kNotFoundIndex

/-- A piece that is the switch has an index that an `i32` holds, and no other is taken for it. -/
structure Distinct (index : ℕ) (piece : List Char) : Prop where
  index_lt : IsSwitch name piece → index < 2 ^ 31
  isSwitch : Resembles name piece → IsSwitch name piece
  long : ¬TooShort name piece

instance (piece : List Char) : Decidable (IsSwitch name piece) :=
  decidable_of_iff (∃ dashes ∈ [['-'], ['-', '-']], dashes ++ name <+: piece ∧
      (piece.drop (dashes ++ name).length = [] ∨
        (piece.drop (dashes ++ name).length).head? = some '=')) <| by
    refine exists_congr fun dashes => and_congr_right fun _ => ?_
    constructor
    · rintro ⟨⟨value, rfl⟩, hvalue⟩
      rw [List.drop_left] at hvalue
      exact ⟨value, hvalue, List.append_assoc _ _ _⟩
    · rintro ⟨value, hvalue, rfl⟩
      rw [← List.append_assoc, List.drop_left]
      exact ⟨⟨value, rfl⟩, hvalue⟩

instance (piece : List Char) : Decidable (Resembles name piece) :=
  inferInstanceAs (Decidable (_ ∧ _))

def DistinctFrom (first : ℕ) (pieces : List (List Char)) : Prop :=
  ∀ before piece after, pieces = before ++ piece :: after → (∀ p ∈ before, ¬IsSwitch name p) →
    Distinct name (first + before.length) piece

end Switches

section Pieces

variable {name piece : List Char}

theorem IsSwitch.resembles (h : IsSwitch name piece) : Resembles name piece := by
  obtain ⟨dashes, hdashes, value, -, rfl⟩ := h
  obtain rfl | rfl := List.mem_pair.mp hdashes
  · exact ⟨rfl, .inl ⟨value, rfl⟩⟩
  · exact ⟨rfl, .inr ⟨value, rfl⟩⟩

theorem matchesAt_eq {offset : ℕ} (h : offset ≤ piece.length) :
    matchesAt piece name offset = some (decide (name <+: piece.drop offset)) := by
  have hlength : (piece.drop offset).length = piece.length - offset := List.length_drop
  rw [matchesAt, compareAt, if_pos h]
  dsimp only
  by_cases hleft : piece.length - offset < name.length
  · have hnot : ¬name <+: piece.drop offset := fun hstart => by
      have hle := hstart.length_le
      omega
    rw [if_pos hleft, decide_eq_false hnot]
    split <;> simp_all
  · rw [if_neg hleft, Nat.min_eq_right (by omega), List.take_length]
    have hstart : name <+: piece.drop offset ↔
        compare ((piece.drop offset).take name.length) name = .eq := by
      rw [Std.compare_eq_iff_eq, List.prefix_iff_eq_take, eq_comm]
    simp only [hstart]
    split <;> simp_all

theorem takesPiece_eq (hlong : ¬TooShort name piece) :
    takesPiece name piece = some (decide (Resembles name piece)) := by
  rw [takesPiece]
  by_cases hshort : piece.length < name.length
  · have hnot : ¬Resembles name piece := by
      rintro ⟨-, hstart | hstart⟩
      all_goals
        have hle := hstart.length_le
        rw [List.length_drop] at hle
        omega
    rw [if_pos hshort, decide_eq_false hnot]
  · rw [if_neg hshort]
    cases piece with
    | nil => exact absurd (.inl ⟨List.eq_nil_of_length_eq_zero (by simpa using hshort), rfl⟩) hlong
    | cons c rest =>
      by_cases hc : c = '-'
      · subst hc
        rw [List.getElem?_cons_zero, bind_eq_bind, bind_some, if_neg (by simp),
          matchesAt_eq (by simp), bind_eq_bind, bind_some]
        by_cases hone : name <+: rest
        · have hyes : Resembles name ('-' :: rest) := ⟨rfl, .inl hone⟩
          rw [decide_eq_true hyes]
          simp [hone]
        · have htwo : 2 ≤ ('-' :: rest).length := by
            rw [length_cons] at hshort ⊢
            by_contra hlt
            obtain rfl : rest = [] := List.eq_nil_of_length_eq_zero (by omega)
            refine hlong (.inr ⟨?_, rfl⟩)
            have hne : name ≠ [] := fun h => hone (by rw [h])
            have hpos := List.length_pos_iff.mpr hne
            omega
          have hiff : Resembles name ('-' :: rest) ↔ name <+: ('-' :: rest).drop 2 :=
            ⟨fun h => h.2.resolve_left hone, fun h => ⟨rfl, .inr h⟩⟩
          rw [matchesAt_eq htwo]
          simp [hone, hiff]
      · have hnot : ¬Resembles name (c :: rest) := fun h => hc (Option.some.inj h.1)
        rw [decide_eq_false hnot, List.getElem?_cons_zero, bind_eq_bind, bind_some,
          if_pos hc]
        rfl

theorem takesPiece_tooShort (h : TooShort name piece) : takesPiece name piece = none := by
  obtain ⟨rfl, rfl⟩ | ⟨hlength, rfl⟩ := h
  · rfl
  · obtain ⟨c, rfl⟩ := List.length_eq_one_iff.mp hlength
    rfl

end Pieces

section Search

variable {name : List Char} {pieces : List (List Char)} {first : ℕ}

theorem findsSwitch_cons {piece : List Char} (hpiece : ¬IsSwitch name piece)
    {result : Option Int32} : FindsSwitch name first (piece :: pieces) result ↔
      FindsSwitch name (first + 1) pieces result := by
  constructor
  · rintro (⟨before, found, after, v, hsplit, hbefore, hfound, hresult, hv⟩ | ⟨hall, hresult⟩)
    · cases before with
      | nil => exact absurd ((List.cons.inj hsplit).1 ▸ hfound) hpiece
      | cons p before =>
        obtain ⟨rfl, rfl⟩ := List.cons.inj hsplit
        refine .inl ⟨before, found, after, v, rfl, ?_, hfound, hresult, ?_⟩
        · exact fun q hq => hbefore q (List.mem_cons_of_mem _ hq)
        · rw [hv, length_cons]
          omega
    · exact .inr ⟨fun p hp => hall p (List.mem_cons_of_mem _ hp), hresult⟩
  · rintro (⟨before, found, after, v, rfl, hbefore, hfound, hresult, hv⟩ | ⟨hall, hresult⟩)
    · refine .inl ⟨piece :: before, found, after, v, rfl, ?_, hfound, hresult, ?_⟩
      · exact forall_mem_cons.mpr ⟨hpiece, hbefore⟩
      · rw [hv, length_cons]
        omega
    · exact .inr ⟨forall_mem_cons.mpr ⟨hpiece, hall⟩, hresult⟩

theorem distinctFrom_cons {piece : List Char} : DistinctFrom name first (piece :: pieces) ↔
    Distinct name first piece ∧ (¬IsSwitch name piece → DistinctFrom name (first + 1) pieces) := by
  constructor
  · intro h
    refine ⟨h [] piece pieces rfl (by simp), fun hpiece before p after hsplit hbefore => ?_⟩
    have hnext := h (piece :: before) p after (by rw [hsplit]; rfl)
      (forall_mem_cons.mpr ⟨hpiece, hbefore⟩)
    rw [length_cons, Nat.add_comm before.length 1, ← Nat.add_assoc] at hnext
    exact hnext
  · rintro ⟨hpiece, h⟩ before p after hsplit hbefore
    cases before with
    | nil =>
      obtain ⟨rfl, -⟩ := List.cons.inj hsplit
      exact hpiece
    | cons q before =>
      obtain ⟨rfl, rfl⟩ := List.cons.inj hsplit
      obtain ⟨hq, hbefore⟩ := forall_mem_cons.mp hbefore
      have hnext := h hq before p after rfl hbefore
      rw [length_cons, Nat.add_comm before.length 1, ← Nat.add_assoc]
      exact hnext

theorem toInt_ofNat_eq {n : ℕ} (h : n < 2 ^ 32) :
    (Int32.ofNat n).toInt = if n < 2 ^ 31 then (n : ℤ) else n - 2 ^ 32 := by
  have hbmod : (Int32.ofNat n).toInt = (n : ℤ).bmod 4294967296 := Int32.toInt_ofNat'
  rw [hbmod, Int.bmod_def]
  omega

theorem not_findsSwitch_of_isSwitch {piece : List Char} (hpiece : ¬IsSwitch name piece)
    (hfew : first + (piece :: pieces).length < 2 ^ 32) :
    ¬FindsSwitch name first (piece :: pieces) (some (Int32.ofNat first)) := by
  rw [length_cons] at hfew
  have hvalue := toInt_ofNat_eq (n := first) (by omega)
  rintro (⟨before, found, after, v, hsplit, hbefore, hfound, hresult, hv⟩ | ⟨-, hresult⟩)
  · cases before with
    | nil => exact hpiece ((List.cons.inj hsplit).1 ▸ hfound)
    | cons p before =>
      rw [← Option.some.inj hresult, hvalue, length_cons] at hv
      omega
  · have hnone := congrArg Int32.toInt (Option.some.inj hresult)
    have hminus : kNotFoundIndex.toInt = -1 := rfl
    omega

theorem findsSwitch_isSwitch_iff {piece : List Char} (hpiece : IsSwitch name piece)
    (hfew : first + (piece :: pieces).length < 2 ^ 32) :
    FindsSwitch name first (piece :: pieces) (some (Int32.ofNat first)) ↔ first < 2 ^ 31 := by
  have hvalue := toInt_ofNat_eq (n := first) (by omega)
  constructor
  · rintro (⟨before, found, after, v, hsplit, hbefore, -, hresult, hv⟩ | ⟨hall, -⟩)
    · cases before with
      | nil =>
        rw [← Option.some.inj hresult, hvalue, List.length_nil] at hv
        omega
      | cons p before =>
        obtain ⟨rfl, -⟩ := List.cons.inj hsplit
        exact absurd hpiece (hbefore piece List.mem_cons_self)
    · exact absurd hpiece (hall piece List.mem_cons_self)
  · intro hlt
    refine .inl ⟨[], piece, pieces, _, rfl, by simp, hpiece, rfl, ?_⟩
    rw [hvalue, List.length_nil]
    omega

theorem findSwitchFrom_iff (hfew : first + pieces.length < 2 ^ 32) :
    FindsSwitch name first pieces (findSwitchFrom name first pieces) ↔
      DistinctFrom name first pieces := by
  induction pieces generalizing first with
  | nil =>
    refine iff_of_true (.inr ⟨by simp, rfl⟩) fun before piece after hsplit => ?_
    exact absurd hsplit.symm (by simp)
  | cons piece pieces ih =>
    rw [distinctFrom_cons, findSwitchFrom]
    by_cases hshort : TooShort name piece
    · rw [takesPiece_tooShort hshort]
      refine iff_of_false ?_ fun h => h.1.long hshort
      rintro (⟨before, found, after, v, -, -, -, hresult, -⟩ | ⟨-, hresult⟩)
      · cases hresult
      · cases hresult
    · rw [takesPiece_eq hshort, bind_eq_bind, bind_some]
      by_cases hresembles : Resembles name piece
      · rw [decide_eq_true hresembles, if_pos rfl]
        by_cases hpiece : IsSwitch name piece
        · rw [Option.pure_def, findsSwitch_isSwitch_iff hpiece hfew]
          exact ⟨fun hlt => ⟨⟨fun _ => hlt, fun _ => hpiece, hshort⟩, fun h => absurd hpiece h⟩,
            fun h => h.1.index_lt hpiece⟩
        · exact iff_of_false (not_findsSwitch_of_isSwitch hpiece hfew)
            fun h => hpiece (h.1.isSwitch hresembles)
      · have hpiece : ¬IsSwitch name piece := fun h => hresembles h.resembles
        rw [decide_eq_false hresembles, if_neg Bool.false_ne_true, findsSwitch_cons hpiece,
          ih (by rw [length_cons] at hfew; omega)]
        exact ⟨fun h => ⟨⟨fun h => absurd h hpiece, fun h => absurd h hresembles, hshort⟩,
          fun _ => h⟩, fun h => h.2 hpiece⟩

end Search

section Lookup

variable (line : CommandLine)

/-- The search finds the switch exactly where each piece up to the first switch is either that
switch or does not look like it, and has what is read of it. -/
theorem findsSwitch_iff (switchName : List Char) :
    FindsSwitch switchName 0 line.pieces (line.findSwitchIndex switchName) ↔
      DistinctFrom switchName 0 line.pieces :=
  findSwitchFrom_iff (by have hfew := line.few; omega)

/-- `--foobar` is taken for the switch `foo`. -/
theorem not_findsSwitch : ¬∀ (line : CommandLine) (switchName : List Char),
    FindsSwitch switchName 0 line.pieces (line.findSwitchIndex switchName) := by
  intro h
  have hfound := h ⟨["app".toList, "--foobar".toList], by decide⟩ "foo".toList
  have hdistinct := (findSwitchFrom_iff (by decide)).mp hfound ["app".toList] "--foobar".toList []
    rfl (by decide)
  exact absurd (hdistinct.isSwitch (by decide)) (by decide)

def HasValue (name value : List Char) : Prop := line.findSwitchValue name = some value ∧ value ≠ []

/-- The value of the first of the names that has one, or the empty one if none has. -/
def FirstValue (names : List (List Char)) (result : Option (List Char)) : Prop :=
  (∃ before name after value, names = before ++ name :: after ∧
    (∀ n ∈ before, ∀ v, ¬line.HasValue n v) ∧ line.HasValue name value ∧ result = some value) ∨
  (∀ n ∈ names, ∀ v, ¬line.HasValue n v) ∧ result = some []

variable {line} {command : List Char}

theorem aliasLoop_nil (h : line.findSwitchValue command = some []) (aliases : List (List Char)) :
    line.aliasLoop command aliases = some [] := by
  induction aliases with
  | nil => rfl
  | cons name aliases ih =>
    rw [aliasLoop, h, bind_eq_bind, bind_some, if_neg (by simp), ih]

theorem findSwitchValuesWithAlias_eq (command : List Char) (aliases : List (List Char)) :
    line.findSwitchValuesWithAlias command aliases = line.findSwitchValue command := by
  rw [findSwitchValuesWithAlias]
  cases hvalue : line.findSwitchValue command with
  | none => rfl
  | some value =>
    rw [bind_eq_bind, bind_some]
    by_cases hne : value = []
    · subst hne
      rw [if_neg (by simp), aliasLoop_nil hvalue]
    · rw [if_pos hne]
      rfl

/-- The lookup with aliases is right where the command has a value, or is looked up without one and
no alias has one either. -/
theorem firstValue_iff (line : CommandLine) (command : List Char) (aliases : List (List Char)) :
    line.FirstValue (command :: aliases) (line.findSwitchValuesWithAlias command aliases) ↔
      (∃ v, line.HasValue command v) ∨
        line.findSwitchValue command = some [] ∧ ∀ n ∈ aliases, ∀ v, ¬line.HasValue n v := by
  rw [findSwitchValuesWithAlias_eq]
  constructor
  · rintro (⟨before, name, after, value, hsplit, hbefore, ⟨hvalue, hne⟩, hresult⟩ |
      ⟨hall, hresult⟩)
    · exact .inl ⟨value, hresult, hne⟩
    · exact .inr ⟨hresult, fun n hn => hall n (List.mem_cons_of_mem _ hn)⟩
  · rintro (⟨v, hv⟩ | ⟨hempty, hall⟩)
    · exact .inl ⟨[], command, aliases, v, rfl, by simp, hv, hv.1⟩
    · refine .inr ⟨forall_mem_cons.mpr ⟨fun v hv => ?_, hall⟩, hempty⟩
      exact hv.2 (Option.some.inj (hv.1.symm.trans hempty))

/-- A line with a value for `b` and none for `a`. -/
def valueOfB : CommandLine := ⟨["app".toList, "-b=1".toList], by decide⟩

/-- The value of `b` is not found for `a` with the alias `b`. -/
theorem not_firstValue : ¬∀ (line : CommandLine) (command : List Char)
    (aliases : List (List Char)), line.FirstValue (command :: aliases)
      (line.findSwitchValuesWithAlias command aliases) := by
  intro h
  have hnone : valueOfB.findSwitchValue "a".toList = some [] := by decide
  have hone : valueOfB.HasValue "b".toList ['1'] := ⟨by decide, by decide⟩
  have hresult := h valueOfB "a".toList ["b".toList]
  rcases hresult with ⟨before, name, after, value, -, -, hvalue, hresult⟩ | ⟨hall, -⟩
  · exact hvalue.2 (Option.some.inj hresult).symm
  · exact hall "b".toList (by simp) ['1'] hone

end Lookup

end CommandLine

end Equilibrium
