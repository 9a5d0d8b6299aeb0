import Equilibrium.Strings.StringStorage

/-! `BasicStringRef` of `base/strings/string_ref.h`: a pointer into a buffer, a length of 32
bits and the flag that says whether a NUL follows. A `remove_prefix` or `remove_suffix` of
more characters than there are fails its `BASE_BUGCHECK` and gives `none`. -/

namespace Equilibrium.StringRef

open StringStorage List

variable {w : ℕ}

/-- `FindNullTerminator` of the characters it may read -/
def findNullTerminatorLoop : List (TChar w) → ℕ → ℕ
  | [], _ => 0
  | c :: cs, k => if c = 0 then k else findNullTerminatorLoop cs (k + 1)

def findNullTerminator (p : List (TChar w)) (n : ℕ) : ℕ := findNullTerminatorLoop (p.take n) 0

def countStringLength : List (TChar w) → ℕ → ℕ
  | c :: cs, limit + 1 => if c = 0 then 0 else countStringLength cs limit + 1
  | _, _ => 0

def maxSizeBytes : ℕ := 2 ^ 32 - 1

/-- `static_cast<u32>` -/
def toU32 (n : ℕ) : ℕ := n % 2 ^ 32

/-- A pointer into a buffer with a number of characters that can be read there. -/
structure Range (w : ℕ) where
  buffer : List (TChar w)
  start : ℕ
  count : ℕ
  inBounds : start + count ≤ buffer.length

def Range.chars (p : Range w) : List (TChar w) := (p.buffer.drop p.start).take p.count

/-- The character of the buffer that is `n` positions behind the start. -/
def Range.at? (p : Range w) (n : ℕ) : Option (TChar w) := p.buffer[p.start + n]?

/-- The members of a view. -/
structure BasicStringRef (w : ℕ) where
  buffer : List (TChar w)
  data : ℕ
  length : ℕ
  isNullTerm : Bool
  inBounds : data + length ≤ buffer.length
  length_lt : length < 2 ^ 32

/-- What a view is constructed from. -/
inductive Origin (w : ℕ) where
  | default
  /-- an owning string, which keeps a terminator behind its characters -/
  | string (chars : List (TChar w))
  /-- a view of another library -/
  | view (p : Range w)
  | pointer (p : Range w)
  /-- with a flag that is truthful -/
  | flagged (p : Range w) (isNullTerminated : Bool)
      (truthful : isNullTerminated = true → p.at? p.count = some 0)
  /-- a string that ends with its first zero -/
  | raw (buffer : List (TChar w)) (start : ℕ) (terminated : 0 ∈ buffer.drop start)

inductive Slice where
  | subslice (pos count : ℕ)
  | removePrefix (n : ℕ)
  | removeSuffix (n : ℕ)

theorem toU32_lt (n : ℕ) : toU32 n < 2 ^ 32 := Nat.mod_lt n (by decide)

theorem toU32_le (n : ℕ) : toU32 n ≤ n := Nat.mod_le n _

theorem countStringLength_le (l : List (TChar w)) (limit : ℕ) :
    countStringLength l limit ≤ limit := by
  induction l generalizing limit with
  | nil => exact Nat.zero_le limit
  | cons c cs ih =>
    cases limit with
    | zero => exact Nat.le_refl 0
    | succ limit =>
      have hcs := ih limit
      rw [countStringLength]
      split <;> omega

theorem countStringLength_le_length (l : List (TChar w)) (limit : ℕ) :
    countStringLength l limit ≤ l.length := by
  induction l generalizing limit with
  | nil => exact Nat.le_refl 0
  | cons c cs ih =>
    cases limit with
    | zero => exact Nat.zero_le _
    | succ limit =>
      have hcs := ih limit
      rw [countStringLength, length_cons]
      split <;> omega

namespace BasicStringRef

def chars (r : BasicStringRef w) : List (TChar w) := (r.buffer.drop r.data).take r.length

def ofRange (p : Range w) (isNullTerm : Bool) : BasicStringRef w where
  buffer := p.buffer
  data := p.start
  length := toU32 p.count
  isNullTerm := isNullTerm
  inBounds := Nat.le_trans (Nat.add_le_add_left (toU32_le p.count) p.start) p.inBounds
  length_lt := toU32_lt p.count

/-- `BasicStringRef(const TChar* data, mem_size length)` -/
def ofPointer (p : Range w) : BasicStringRef w :=
  ofRange p (findNullTerminator (p.buffer.drop p.start) p.count ≠ 0)

/-- `BasicStringRef(const TChar* data)` -/
def ofRaw (buffer : List (TChar w)) (start : ℕ) (h : 0 ∈ buffer.drop start) : BasicStringRef w :=
  let data := buffer.drop start
  let length := toU32 (countStringLength data maxSizeBytes)
  { buffer := buffer
    data := start
    length := length
    isNullTerm := findNullTerminator data (if 0 < length then toU32 (length + 1) else 0) ≠ 0
    inBounds := by
      have hpos : 0 < (buffer.drop start).length := List.length_pos_of_mem h
      have hcount := countStringLength_le_length (buffer.drop start) maxSizeBytes
      have hcut : length ≤ countStringLength data maxSizeBytes := toU32_le _
      rw [List.length_drop] at hpos hcount
      change length ≤ countStringLength (buffer.drop start) maxSizeBytes at hcut
      omega
    length_lt := toU32_lt _ }

def ofString (chars : List (TChar w)) : BasicStringRef w :=
  ofRange ⟨chars ++ [0], 0, chars.length, by rw [List.length_append]; omega⟩ true

def empty : BasicStringRef w := ⟨[0], 0, 0, true, Nat.zero_le _, by decide⟩

/-- The range of `subslice(pos, count)`. -/
def subrange (r : BasicStringRef w) (pos count : ℕ) : Range w :=
  let pos := if pos > r.length then r.length else pos
  let count := if count > r.length - pos then r.length - pos else count
  { buffer := r.buffer
    start := r.data + pos
    count := count
    inBounds := by
      have h := r.inBounds
      have hpos : pos ≤ r.length := by
        change (if _ then _ else _) ≤ _
        split <;> omega
      have hcount : count ≤ r.length - pos := by
        change (if _ then _ else _) ≤ _
        split <;> omega
      omega }

def subslice (r : BasicStringRef w) (pos count : ℕ) : BasicStringRef w :=
  ofPointer (r.subrange pos count)

def removePrefix (r : BasicStringRef w) (n : ℕ) : Option (BasicStringRef w) :=
  if h : n ≤ r.length then
    some { r with
      data := r.data + n
      length := r.length - n
      inBounds := by have hr := r.inBounds; omega
      length_lt := Nat.lt_of_le_of_lt (Nat.sub_le r.length n) r.length_lt }
  else none

def removeSuffix (r : BasicStringRef w) (n : ℕ) : Option (BasicStringRef w) :=
  if n ≤ r.length then
    some { r with
      length := r.length - n
      isNullTerm := false
      inBounds := Nat.le_trans (Nat.add_le_add_left (Nat.sub_le r.length n) r.data) r.inBounds
      length_lt := Nat.lt_of_le_of_lt (Nat.sub_le r.length n) r.length_lt }
  else none

end BasicStringRef

open BasicStringRef

def Origin.build : Origin w → BasicStringRef w
  | .default => .empty
  | .string chars => .ofString chars
  | .view p => .ofRange p false
  | .pointer p => .ofPointer p
  | .flagged p isNullTerminated _ => .ofRange p isNullTerminated
  | .raw buffer start h => .ofRaw buffer start h

def Slice.apply (r : BasicStringRef w) : Slice → Option (BasicStringRef w)
  | .subslice pos count => some (r.subslice pos count)
  | .removePrefix n => r.removePrefix n
  | .removeSuffix n => r.removeSuffix n

def BasicStringRef.views (r : BasicStringRef w) : List Slice → List (BasicStringRef w)
  | [] => [r]
  | s :: ss => r :: ((s.apply r).elim [] fun q => q.views ss)

/-- Where the flag is set, the character behind the last one is NUL. -/
def Truthful (r : BasicStringRef w) : Prop :=
  r.isNullTerm = true → r.buffer[r.data + r.length]? = some 0

def Range.Clear (p : Range w) : Prop :=
  p.chars.head? = some 0 ∨ 0 ∉ p.chars ∨ p.at? (toU32 p.count) = some 0

/-- The flagged ones need a NUL where 32 bits of the length lead to. -/
def Origin.Clear : Origin w → Prop
  | .string chars => chars.length < 2 ^ 32 ∨ chars[toU32 chars.length]? = some 0
  | .pointer p => p.Clear
  | .flagged p isNullTerminated _ =>
      isNullTerminated = false ∨ p.count < 2 ^ 32 ∨ p.at? (toU32 p.count) = some 0
  | .default | .view _ | .raw .. => True

def Slice.Clear (r : BasicStringRef w) : Slice → Prop
  | .subslice pos count => (r.subrange pos count).Clear
  | .removePrefix _ | .removeSuffix _ => True

/-- Every `subslice` of the chain is of such a range. -/
def BasicStringRef.ClearChain (r : BasicStringRef w) : List Slice → Prop
  | [] => True
  | s :: ss => s.Clear r ∧ ∀ q, s.apply r = some q → q.ClearChain ss

section Flags

variable {l : List (TChar w)} {p : Range w} {r q : BasicStringRef w}

theorem toU32_of_lt {n : ℕ} (h : n < 2 ^ 32) : toU32 n = n := Nat.mod_eq_of_lt h

theorem findNullTerminatorLoop_ne_zero (l : List (TChar w)) (k : ℕ) :
    findNullTerminatorLoop l k ≠ 0 ↔ 0 ∈ l ∧ (k ≠ 0 ∨ l.head? ≠ some 0) := by
  induction l generalizing k with
  | nil => simp [findNullTerminatorLoop]
  | cons c cs ih =>
    rw [findNullTerminatorLoop]
    split
    case isTrue hzero => simp [hzero]
    case isFalse hne =>
      rw [ih]
      simp [hne, Ne.symm hne]

theorem findNullTerminator_ne_zero (l : List (TChar w)) (n : ℕ) :
    findNullTerminator l n ≠ 0 ↔ 0 ∈ l.take n ∧ (l.take n).head? ≠ some 0 := by
  rw [findNullTerminator, findNullTerminatorLoop_ne_zero]
  simp

theorem zero_notMem_take_countStringLength (l : List (TChar w)) (limit : ℕ) :
    0 ∉ l.take (countStringLength l limit) := by
  induction l generalizing limit with
  | nil => simp
  | cons c cs ih =>
    cases limit with
    | zero => simp [countStringLength]
    | succ limit =>
      rw [countStringLength]
      split
      case isTrue hzero => simp
      case isFalse hne =>
        rw [take_succ_cons, mem_cons]
        exact not_or.mpr ⟨Ne.symm hne, ih limit⟩

theorem truthful_ofRange (p : Range w) (b : Bool) :
    Truthful (.ofRange p b) ↔ (b = true → p.at? (toU32 p.count) = some 0) := Iff.rfl

theorem truthful_ofPointer (p : Range w) : Truthful (.ofPointer p) ↔ p.Clear := by
  rw [ofPointer, truthful_ofRange, decide_eq_true_iff, findNullTerminator_ne_zero, Range.Clear]
  change (0 ∈ p.chars ∧ p.chars.head? ≠ some 0 → _) ↔ _
  by_cases hhead : p.chars.head? = some 0
  · exact iff_of_true (fun h => absurd hhead h.2) (.inl hhead)
  · by_cases hmem : 0 ∈ p.chars
    · simp [hhead, hmem]
    · simp [hhead, hmem]

theorem truthful_ofString (chars : List (TChar w)) : Truthful (.ofString chars) ↔
      chars.length < 2 ^ 32 ∨ chars[toU32 chars.length]? = some 0 := by
  have hat : Truthful (.ofString chars) ↔ (chars ++ [0])[0 + toU32 chars.length]? = some 0 :=
    ⟨fun h => h rfl, fun h _ => h⟩
  rw [hat, Nat.zero_add]
  by_cases hlt : chars.length < 2 ^ 32
  · rw [toU32_of_lt hlt]
    exact iff_of_true (by simp) (.inl hlt)
  · have hcut := toU32_lt chars.length
    rw [getElem?_append_left (by omega), or_iff_right hlt]

/-- The one past the last character is read only where the length has not reached its limit. -/
theorem truthful_ofRaw (buffer : List (TChar w)) (start : ℕ) (h : 0 ∈ buffer.drop start) :
    Truthful (.ofRaw buffer start h) := by
  intro hflag
  have hle := countStringLength_le (buffer.drop start) maxSizeBytes
  have hnot := zero_notMem_take_countStringLength (buffer.drop start) maxSizeBytes
  have hlength : toU32 (countStringLength (buffer.drop start) maxSizeBytes) =
      countStringLength (buffer.drop start) maxSizeBytes :=
    toU32_of_lt (Nat.lt_of_le_of_lt hle (by decide))
  simp only [ofRaw, hlength, decide_eq_true_iff, findNullTerminator_ne_zero] at hflag ⊢
  set n := countStringLength (buffer.drop start) maxSizeBytes with hn
  obtain ⟨hmem, -⟩ := hflag
  have hscan : (if 0 < n then toU32 (n + 1) else 0) = n + 1 := by
    by_cases hwrap : 0 < n ∧ n + 1 < 2 ^ 32
    · rw [if_pos hwrap.1, toU32_of_lt hwrap.2]
    · have hzero : (if 0 < n then toU32 (n + 1) else 0) = 0 := by
        by_cases hpos : 0 < n
        · have hmax : n + 1 = 2 ^ 32 := by
            have hbound : maxSizeBytes = 2 ^ 32 - 1 := rfl
            have hlt : ¬ n + 1 < 2 ^ 32 := fun hlt => hwrap ⟨hpos, hlt⟩
            omega
          rw [if_pos hpos, hmax]
          rfl
        · exact if_neg hpos
      rw [hzero, take_zero] at hmem
      cases hmem
  rw [hscan, take_add_one, mem_append] at hmem
  have hat := hmem.resolve_left hnot
  rw [Option.mem_toList, getElem?_drop] at hat
  exact hat

theorem truthful_build (o : Origin w) : Truthful o.build ↔ o.Clear := by
  cases o with
  | default => exact iff_of_true (fun _ => rfl) trivial
  | string chars => exact truthful_ofString chars
  | view p => exact iff_of_true (fun h => absurd h Bool.false_ne_true) trivial
  | pointer p => exact truthful_ofPointer p
  | flagged p b truthful =>
    rw [Origin.build, truthful_ofRange, Origin.Clear]
    cases b with
    | false => simp
    | true =>
      by_cases hlt : p.count < 2 ^ 32
      · rw [toU32_of_lt hlt]
        exact iff_of_true (fun _ => truthful rfl) (.inr (.inl hlt))
      · rw [or_iff_right (Ne.symm Bool.false_ne_true), or_iff_right hlt]
        exact ⟨fun hat => hat rfl, fun hat _ => hat⟩
  | raw buffer start h => exact iff_of_true (truthful_ofRaw buffer start h) trivial

theorem Truthful.apply (h : Truthful r) {s : Slice} (hs : s.apply r = some q) :
    Truthful q ↔ s.Clear r := by
  cases s with
  | subslice pos count =>
    obtain rfl : r.subslice pos count = q := Option.some.inj hs
    exact truthful_ofPointer _
  | removePrefix n =>
    rw [Slice.apply, removePrefix] at hs
    split at hs
    case isTrue hn =>
      cases hs
      refine iff_of_true (fun hflag => ?_) trivial
      have hend : r.data + n + (r.length - n) = r.data + r.length := by omega
      rw [hend]
      exact h hflag
    case isFalse => simp at hs
  | removeSuffix n =>
    rw [Slice.apply, BasicStringRef.removeSuffix] at hs
    split at hs
    case isTrue hn =>
      cases hs
      exact iff_of_true (fun hflag => absurd hflag Bool.false_ne_true) trivial
    case isFalse => simp at hs

theorem forall_views (r : BasicStringRef w) (ss : List Slice) :
    (∀ q ∈ r.views ss, Truthful q) ↔ Truthful r ∧ r.ClearChain ss := by
  induction ss generalizing r with
  | nil => simp [views, ClearChain]
  | cons s ss ih =>
    rw [views, forall_mem_cons, ClearChain]
    refine and_congr_right fun hr => ?_
    cases happly : s.apply r with
    | none =>
      have hclear : s.Clear r := by
        cases s with
        | subslice pos count => exact absurd happly (by simp [Slice.apply])
        | removePrefix n => trivial
        | removeSuffix n => trivial
      simp [hclear]
    | some q =>
      rw [Option.elim_some, ih, hr.apply happly]
      simp

end Flags

/-- Over a construction and the chain of slices behind it. -/
theorem views_truthful_iff (o : Origin w) (ss : List Slice) :
    (∀ r ∈ o.build.views ss, Truthful r) ↔ o.Clear ∧ o.build.ClearChain ss := by
  rw [forall_views, truthful_build]

/-- The five characters `ab\0cd` of a buffer that goes on. -/
def embedded : Range 1 where
  buffer := [97, 98, 0, 99, 100, 101]
  start := 0
  count := 5
  inBounds := by decide

theorem embedded_not_truthful : ¬ ∀ (w : ℕ) (o : Origin w) (ss : List Slice),
    ∀ r ∈ o.build.views ss, Truthful r := by
  intro h
  have hview := h 1 (.pointer embedded) [] _ mem_cons_self
  cases hview (by decide)

end Equilibrium.StringRef
