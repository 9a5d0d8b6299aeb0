import Equilibrium.Strings.BaseStringSearch
import Equilibrium.Strings.StringRef

/-! The comparisons of `base/strings/base_string.h` and `base/strings/string_ref.h`, which go
over the bytes in memory, and `Strcmp` of `base/strings/string_compare.h`, which goes over the
characters. The sign of an `int` is an `Ordering`; a read outside a string gives `none`. -/

namespace Equilibrium.StringCompare

open Library StringStorage List
open Library.ByteMemory
open BaseString (Text)
open StringRef (BasicStringRef)

variable {w : ℕ}

def image (order : ByteOrder) (xs : List (TChar w)) : List ℕ :=
  xs.flatMap fun c => bytes w order c.val

/-- `MemCompare` of `n` characters at the start of what two pointers point to. -/
def memCompare (order : ByteOrder) (lhs rhs : List (TChar w)) (n : ℕ) : Option Ordering := do
  let xs ← ArrayWrite.read lhs 0 n
  let ys ← ArrayWrite.read rhs 0 n
  return compareBytes (image order xs) (image order ys)

/-- What all the comparisons of two values give. -/
structure Comparison where
  compare : Ordering
  equal : Bool
  notEqual : Bool
  less : Bool
  lessOrEqual : Bool
  greater : Bool
  greaterOrEqual : Bool
  deriving DecidableEq

def Comparison.ofOrdering (o : Ordering) : Comparison where
  compare := o
  equal := o == .eq
  notEqual := o != .eq
  less := o == .lt
  lessOrEqual := o != .gt
  greater := o == .gt
  greaterOrEqual := o != .lt

section BasicBaseString

variable (order : ByteOrder) (s t : Text w)

/-- `compare(str, count)` with the characters from `str` on. -/
def compareCount (str : List (TChar w)) (count : ℕ) : Option Ordering := do
  let leftSize := s.size
  let result ← memCompare order s.cells str (min leftSize count)
  if result ≠ .eq then return result
  if leftSize < count then return .lt
  if leftSize > count then return .gt
  return .eq

def compare : Option Ordering := compareCount order s t.cells t.size

/-- `compare(t.c_str())` -/
def compareCStr : Option Ordering := do compareCount order s t.cells (← t.countStringLength)

def equal : Option Bool :=
  if s.size ≠ t.size then some false
  else (memCompare order s.cells t.cells s.size).map (· == .eq)

def comparison : Option Comparison := do
  let result ← compare order s t
  let equal ← equal order s t
  return ⟨result, equal, !equal, result == .lt, result != .gt, result == .gt, result != .lt⟩

end BasicBaseString

section BasicStringRef

variable (order : ByteOrder) (r q : BasicStringRef w)

def cells : List (TChar w) := r.buffer.drop r.data

def refEqual : Option Bool :=
  if r.length ≠ q.length then some false
  else (memCompare order (cells r) (cells q) r.length).map (· == .eq)

def refLess : Option Bool := do
  let minLen := if r.length < q.length then r.length else q.length
  let result ← memCompare order (cells r) (cells q) minLen
  if result ≠ .eq then return result == .lt
  return r.length < q.length

def compareTo : Option Ordering := do
  let shortest := if r.length < q.length then r.length else q.length
  let diff ← if shortest > 0 then memCompare order (cells r) (cells q) shortest else some .eq
  if diff ≠ .eq then return diff
  if r.length = q.length then return .eq
  return if r.length < q.length then .lt else .gt

def refComparison : Option Comparison := do
  let result ← compareTo order r q
  let equal ← refEqual order r q
  let less ← refLess order r q
  let greater ← refLess order q r
  return ⟨result, equal, !equal, less, !greater, greater, !less⟩

end BasicStringRef

def strcmp : List (TChar w) → List (TChar w) → Option Ordering
  | a :: as, b :: bs =>
      if a ≠ b then some (if a.val < b.val then .lt else .gt)
      else if a = 0 then some .eq
      else strcmp as bs
  | _, _ => none

/-- The order of the characters, and of a proper prefix before the whole. -/
def lexicographic (xs ys : List (TChar w)) : Ordering :=
  List.compareLex (fun a b => byValue a.val b.val) xs ys

/-- What the calls have to give for two strings. -/
structure StringsOrdered (order : ByteOrder) (s t : Text w) : Prop where
  comparison : comparison order s t = some (.ofOrdering (lexicographic s.chars t.chars))
  compareCount : compareCount order s t.cells t.size = some (lexicographic s.chars t.chars)
  compareCStr : 0 ∉ t.chars → compareCStr order s t = some (lexicographic s.chars t.chars)
  strcmp : 0 ∉ s.chars → 0 ∉ t.chars → strcmp s.cells t.cells = compare order s t
  refs : ∀ r q : BasicStringRef w, r.chars = s.chars → q.chars = t.chars →
    refComparison order r q = StringCompare.comparison order s t

def RefsOrdered (order : ByteOrder) (r q : BasicStringRef w) : Prop :=
  refComparison order r q = some (.ofOrdering (lexicographic r.chars q.chars))

/-- The lowest byte in which the first characters that differ do has them in order. -/
def DifferInOrder (xs ys : List (TChar w)) : Prop :=
  ∀ p a b xs' ys', xs = p ++ a :: xs' → ys = p ++ b :: ys' → a ≠ b →
    OrderedByLowestByte a.val b.val

section Characters

variable {order : ByteOrder} {a b : TChar w} {xs ys : List (TChar w)}

/-- What `MemCompare` of the common length gives, with the shorter one first. -/
def byImage (order : ByteOrder) (xs ys : List (TChar w)) : Ordering :=
  List.compareLex (fun a b => byBytes w order a.val b.val) xs ys

theorem compareBytes_image (h : xs.length = ys.length) :
    compareBytes (image order xs) (image order ys) = byImage order xs ys := by
  induction xs generalizing ys with
  | nil =>
    obtain rfl := length_eq_zero_iff.mp h.symm
    rfl
  | cons a xs ih =>
    cases ys with
    | nil => simp at h
    | cons b ys =>
      rw [byImage, List.compareLex_cons_cons, image, image, flatMap_cons,
        flatMap_cons, compareBytes_append (by rw [length_bytes, length_bytes])]
      exact congrArg _ (ih (Nat.succ.inj h))

theorem byImage_eq_then (order : ByteOrder) (xs ys : List (TChar w)) : byImage order xs ys =
      (byImage order (xs.take (min xs.length ys.length))
        (ys.take (min xs.length ys.length))).then (byValue xs.length ys.length) := by
  induction xs generalizing ys with
  | nil =>
    cases ys with
    | nil => rfl
    | cons b ys =>
      simp [byImage, List.compareLex_nil_cons, List.compareLex_nil_nil, byValue, Ordering.then]
  | cons a xs ih =>
    cases ys with
    | nil =>
      simp [byImage, List.compareLex_cons_nil, List.compareLex_nil_nil, byValue, Ordering.then]
    | cons b ys =>
      have hvalue : byValue (xs.length + 1) (ys.length + 1) = byValue xs.length ys.length := by
        simp only [byValue, Nat.add_lt_add_iff_right]
      have hrest := ih ys
      rw [byImage] at hrest
      rw [length_cons, length_cons, Nat.add_min_add_right, take_succ_cons,
        take_succ_cons, byImage, byImage, List.compareLex_cons_cons,
        List.compareLex_cons_cons, Ordering.then_assoc, hvalue, hrest, byImage]

theorem byImage_eq_eq : byImage order xs ys = .eq ↔ xs = ys := by
  induction xs generalizing ys with
  | nil => cases ys <;> simp [byImage, List.compareLex_nil_nil, List.compareLex_nil_cons]
  | cons a xs ih =>
    cases ys with
    | nil => simp [byImage, List.compareLex_cons_nil]
    | cons b ys =>
      rw [byImage, List.compareLex_cons_cons, Ordering.then_eq_eq,
        byBytes_eq_eq a.isLt b.isLt, Fin.val_inj, List.cons.injEq]
      exact and_congr_right fun _ => ih

theorem byImage_big (xs ys : List (TChar w)) : byImage .big xs ys = lexicographic xs ys := by
  have hbytes : (fun a b : TChar w => byBytes w .big a.val b.val) =
      fun a b => byValue a.val b.val :=
    funext fun a => funext fun b => byBytes_big a.isLt b.isLt
  rw [byImage, lexicographic, hbytes]

theorem differInOrder_cons (a : TChar w) : DifferInOrder (a :: xs) (a :: ys) ↔
    DifferInOrder xs ys := by
  constructor
  · intro h p c d xs' ys' hx hy hne
    exact h (a :: p) c d xs' ys' (by rw [hx]; rfl) (by rw [hy]; rfl) hne
  · intro h p c d xs' ys' hx hy hne
    cases p with
    | nil =>
      obtain ⟨rfl, rfl⟩ := List.cons.inj hx
      exact absurd (List.cons.inj hy).1 hne
    | cons e p =>
      exact h p c d xs' ys' (List.cons.inj hx).2 (List.cons.inj hy).2 hne

theorem differInOrder_of_ne (hne : a ≠ b) : DifferInOrder (a :: xs) (b :: ys) ↔
    OrderedByLowestByte a.val b.val := by
  constructor
  · intro h
    exact h [] a b xs ys rfl rfl hne
  · intro h p c d xs' ys' hx hy _
    cases p with
    | nil =>
      obtain ⟨rfl, -⟩ := List.cons.inj hx
      obtain ⟨rfl, -⟩ := List.cons.inj hy
      exact h
    | cons e p =>
      obtain ⟨rfl, -⟩ := List.cons.inj hx
      exact absurd (List.cons.inj hy).1.symm hne

theorem byImage_little_iff : byImage .little xs ys = lexicographic xs ys ↔ DifferInOrder xs ys := by
  induction xs generalizing ys with
  | nil =>
    refine iff_of_true (by cases ys <;> rfl) ?_
    intro p a b xs' ys' hx
    simp at hx
  | cons a xs ih =>
    cases ys with
    | nil =>
      refine iff_of_true rfl ?_
      intro p c d xs' ys' _ hy
      simp at hy
    | cons b ys =>
      rw [byImage, lexicographic, List.compareLex_cons_cons, List.compareLex_cons_cons]
      by_cases hab : a = b
      · subst hab
        rw [(byBytes_eq_eq a.isLt a.isLt).mpr rfl, byValue_eq_eq.mpr rfl, differInOrder_cons]
        exact ih
      · have hne : a.val ≠ b.val := fun h => hab (Fin.ext h)
        have hbytes : byBytes w .little a.val b.val ≠ .eq := fun h =>
          hne ((byBytes_eq_eq a.isLt b.isLt).mp h)
        have hvalue : byValue a.val b.val ≠ .eq := fun h => hne (byValue_eq_eq.mp h)
        have hthen {o o' : Ordering} (h : o ≠ .eq) : o.then o' = o := by
          cases o <;> first | rfl | exact absurd rfl h
        rw [hthen hbytes, hthen hvalue, differInOrder_of_ne hab,
          byBytes_little_iff a.isLt b.isLt hne]

end Characters

section Calls

variable {order : ByteOrder} {s t : Text w} {r q : BasicStringRef w} {xs ys : List (TChar w)}

theorem memCompare_eq {lhs rhs : List (TChar w)} {n : ℕ} (hl : n ≤ lhs.length)
    (hr : n ≤ rhs.length) :
    memCompare order lhs rhs n = some (byImage order (lhs.take n) (rhs.take n)) := by
  have hread {l : List (TChar w)} (h : n ≤ l.length) : ArrayWrite.read l 0 n = some (l.take n) :=
    if_pos (by rw [Nat.zero_add]; exact h)
  have hlength : (lhs.take n).length = (rhs.take n).length := by
    rw [length_take_of_le hl, length_take_of_le hr]
  rw [memCompare, hread hl, hread hr]
  exact congrArg some (compareBytes_image hlength)

theorem then_byValue (o : Ordering) (m n : ℕ) : o.then (byValue m n) =
    if o ≠ .eq then o else if m < n then .lt else if m > n then .gt else .eq := by
  cases o <;> rfl

theorem compareCount_eq (s : Text w) {str : List (TChar w)} {count : ℕ}
    (h : count ≤ str.length) :
    compareCount order s str count = some (byImage order s.chars (str.take count)) := by
  have hl : min s.size count ≤ s.cells.length := by
    rw [Text.cells, length_append, Text.size]
    omega
  have hchars : s.cells.take (min s.size count) = s.chars.take (min s.chars.length count) :=
    take_append_of_le_length (Nat.min_le_left _ _)
  have hthen := byImage_eq_then order s.chars (str.take count)
  rw [length_take_of_le h, take_take, Nat.min_eq_left (Nat.min_le_right _ _)] at hthen
  change _ = Ordering.then _ (byValue s.size count) at hthen
  rw [compareCount, memCompare_eq hl (by omega), hchars, hthen, then_byValue]
  simp only [Option.bind_eq_bind, Option.bind_some]
  change (if byImage order (s.chars.take (min s.chars.length count))
    (str.take (min s.chars.length count)) ≠ .eq then _ else _) = _
  split
  case isTrue => rfl
  case isFalse =>
    by_cases hlt : s.size < count
    · rw [if_pos hlt, if_pos hlt]
      rfl
    · by_cases hgt : s.size > count
      · rw [if_neg hlt, if_pos hgt, if_neg hlt, if_pos hgt]
        rfl
      · rw [if_neg hlt, if_neg hgt, if_neg hlt, if_neg hgt]
        rfl

theorem take_cells (t : Text w) : t.cells.take t.size = t.chars := take_left

theorem compare_eq (order : ByteOrder) (s t : Text w) :
    compare order s t = some (byImage order s.chars t.chars) := by
  rw [compare, compareCount_eq s (by rw [Text.cells, length_append, Text.size]; omega),
    take_cells]

theorem equal_eq (order : ByteOrder) (s t : Text w) :
    equal order s t = some (byImage order s.chars t.chars == .eq) := by
  rw [equal]
  split
  case isTrue hne =>
    have hchars : byImage order s.chars t.chars ≠ .eq := fun h =>
      hne (congrArg length (byImage_eq_eq.mp h))
    exact congrArg some (beq_eq_false_iff_ne.mpr hchars).symm
  case isFalse heq =>
    have hsize := not_not.mp heq
    have hle (u : Text w) : u.size ≤ u.cells.length := by
      rw [Text.cells, length_append, Text.size]
      omega
    rw [memCompare_eq (hle s) (by rw [hsize]; exact hle t), take_cells, hsize, take_cells]
    rfl

theorem comparison_eq (order : ByteOrder) (s t : Text w) :
    comparison order s t = some (.ofOrdering (byImage order s.chars t.chars)) := by
  rw [comparison, compare_eq, equal_eq]
  rfl

theorem compareCStr_eq (order : ByteOrder) (s : Text w) (h : 0 ∉ t.chars) :
    compareCStr order s t = some (byImage order s.chars t.chars) := by
  have hcount : t.countStringLength = some t.size := by
    have hmem : t.cells.contains 0 = true := by simp [Text.cells]
    rw [Text.countStringLength, if_pos hmem, Text.cells, takeWhile_append_of_pos]
    · simp [Text.size]
    · intro c hc
      exact decide_eq_true fun hzero => h (hzero ▸ hc)
  rw [compareCStr, hcount]
  exact compare_eq order s t

theorem take_cells_ref (r : BasicStringRef w) : (cells r).take r.length = r.chars := rfl

theorem length_chars (r : BasicStringRef w) : r.chars.length = r.length := by
  have h := r.inBounds
  rw [BasicStringRef.chars, length_take, length_drop]
  omega

theorem memCompare_ref {n : ℕ} (hr : n ≤ r.length) (hq : n ≤ q.length) :
    memCompare order (cells r) (cells q) n =
      some (byImage order (r.chars.take n) (q.chars.take n)) := by
  have hle {u : BasicStringRef w} (hu : n ≤ u.length) :
      n ≤ (cells u).length ∧ (cells u).take n = u.chars.take n := by
    have h := u.inBounds
    refine ⟨by rw [cells, length_drop]; omega, ?_⟩
    rw [← take_cells_ref, take_take, Nat.min_eq_left hu]
  rw [memCompare_eq (hle hr).1 (hle hq).1, (hle hr).2, (hle hq).2]

theorem refEqual_eq (order : ByteOrder) (r q : BasicStringRef w) :
    refEqual order r q = some (byImage order r.chars q.chars == .eq) := by
  rw [refEqual]
  split
  case isTrue hne =>
    have hchars : byImage order r.chars q.chars ≠ .eq := fun h =>
      hne (by rw [← length_chars, ← length_chars, byImage_eq_eq.mp h])
    exact congrArg some (beq_eq_false_iff_ne.mpr hchars).symm
  case isFalse heq =>
    have hlength := not_not.mp heq
    have htake {u : BasicStringRef w} (hu : u.length = r.length) :
        u.chars.take r.length = u.chars := by
      rw [← hu, ← length_chars, take_length]
    rw [memCompare_ref le_rfl (Nat.le_of_eq hlength), htake rfl, htake hlength.symm]
    rfl

theorem min_eq_ite (m n : ℕ) : (if m < n then m else n) = min m n := by
  split <;> omega

theorem refLess_eq (order : ByteOrder) (r q : BasicStringRef w) :
    refLess order r q = some (byImage order r.chars q.chars == .lt) := by
  rw [refLess, byImage_eq_then, length_chars, length_chars, then_byValue]
  simp only [min_eq_ite, Option.bind_eq_bind,
    memCompare_ref (Nat.min_le_left r.length q.length) (Nat.min_le_right r.length q.length),
    Option.bind_some]
  split
  case isTrue => rfl
  case isFalse =>
    by_cases hlt : r.length < q.length
    · rw [if_pos hlt, decide_eq_true hlt]
      rfl
    · rw [if_neg hlt, decide_eq_false hlt]
      split <;> rfl

theorem compareTo_eq (order : ByteOrder) (r q : BasicStringRef w) :
    compareTo order r q = some (byImage order r.chars q.chars) := by
  have htail (o : Ordering) : (if o ≠ .eq then some o else if r.length = q.length then some .eq
        else some (if r.length < q.length then .lt else .gt)) =
        some (o.then (byValue r.length q.length)) := by
    cases o with
    | lt => rfl
    | gt => rfl
    | eq =>
      change (if r.length = q.length then _ else _) = some (byValue r.length q.length)
      rcases Nat.lt_trichotomy r.length q.length with hlt | heq | hgt
      · rw [if_neg hlt.ne, if_pos hlt, byValue_eq_lt.mpr hlt]
      · rw [if_pos heq, byValue_eq_eq.mpr heq]
      · rw [if_neg hgt.ne', if_neg (Nat.lt_asymm hgt), byValue_eq_gt.mpr hgt]
  rw [compareTo, byImage_eq_then, length_chars, length_chars, ← htail]
  simp only [min_eq_ite]
  split
  case isTrue =>
    rw [memCompare_ref (Nat.min_le_left _ _) (Nat.min_le_right _ _)]
    rfl
  case isFalse hzero =>
    rw [Nat.eq_zero_of_not_pos hzero]
    rfl

theorem byImage_swap (order : ByteOrder) (xs ys : List (TChar w)) :
    (byImage order xs ys).swap = byImage order ys xs := by
  induction xs generalizing ys with
  | nil => cases ys <;> simp [byImage, List.compareLex_nil_nil, List.compareLex_nil_cons,
      List.compareLex_cons_nil]
  | cons a xs ih =>
    cases ys with
    | nil => simp [byImage, List.compareLex_nil_cons, List.compareLex_cons_nil]
    | cons b ys =>
      have hrest := ih ys
      rw [byImage, byImage] at hrest
      rw [byImage, byImage, List.compareLex_cons_cons, List.compareLex_cons_cons,
        Ordering.swap_then, byBytes_swap, hrest]

theorem refComparison_eq (order : ByteOrder) (r q : BasicStringRef w) :
    refComparison order r q = some (.ofOrdering (byImage order r.chars q.chars)) := by
  rw [refComparison, compareTo_eq, refEqual_eq, refLess_eq, refLess_eq,
    ← byImage_swap order r.chars q.chars]
  generalize byImage order r.chars q.chars = o
  cases o <;> rfl

theorem strcmp_eq (hx : 0 ∉ xs) (hy : 0 ∉ ys) :
    strcmp (xs ++ [0]) (ys ++ [0]) = some (lexicographic xs ys) := by
  induction xs generalizing ys with
  | nil =>
    cases ys with
    | nil =>
      rw [nil_append, strcmp, if_neg (not_not.mpr rfl), if_pos rfl]
      rfl
    | cons b ys =>
      have hb : (0 : TChar w) ≠ b := fun h => hy (h ▸ mem_cons_self)
      have hpos : (0 : TChar w).val < b.val := by
        have hzero : (0 : TChar w).val = 0 := Nat.zero_mod _
        have hval : b.val ≠ 0 := fun h => hb (Fin.ext (hzero.trans h.symm))
        omega
      rw [nil_append, cons_append, strcmp, if_pos hb, if_pos hpos]
      rfl
  | cons a xs ih =>
    obtain ⟨ha, hxs⟩ := not_or.mp fun h => hx (mem_cons.mpr h)
    cases ys with
    | nil =>
      have hzero : (0 : TChar w).val = 0 := Nat.zero_mod _
      rw [nil_append, cons_append, strcmp, if_pos (Ne.symm ha), if_neg (by omega)]
      rfl
    | cons b ys =>
      obtain ⟨-, hys⟩ := not_or.mp fun h => hy (mem_cons.mpr h)
      rw [cons_append, cons_append, strcmp, lexicographic, List.compareLex_cons_cons]
      by_cases hab : a = b
      · subst hab
        rw [if_neg (not_not.mpr rfl), if_neg (Ne.symm ha), byValue_eq_eq.mpr rfl]
        exact ih hxs hys
      · have hne : a.val ≠ b.val := fun h => hab (Fin.ext h)
        rw [if_pos hab]
        split
        case isTrue hlt =>
          rw [byValue_eq_lt.mpr hlt]
          rfl
        case isFalse hnot =>
          rw [byValue_eq_gt.mpr (by omega)]
          rfl

theorem stringsOrdered_iff (order : ByteOrder) (s t : Text w) :
    StringsOrdered order s t ↔ byImage order s.chars t.chars = lexicographic s.chars t.chars := by
  constructor
  · intro h
    have hcompare := h.comparison
    rw [comparison_eq] at hcompare
    exact congrArg Comparison.compare (Option.some.inj hcompare)
  · intro h
    exact
      { comparison := by rw [comparison_eq, h]
        compareCount := by rw [← h]; exact compare_eq order s t
        compareCStr := fun hzero => by rw [compareCStr_eq order s hzero, h]
        strcmp := fun hs ht => by rw [compare_eq, h]; exact strcmp_eq hs ht
        refs := fun r q hr hq => by rw [refComparison_eq, comparison_eq, hr, hq] }

theorem refsOrdered_iff (order : ByteOrder) (r q : BasicStringRef w) :
    RefsOrdered order r q ↔ byImage order r.chars q.chars = lexicographic r.chars q.chars := by
  rw [RefsOrdered, refComparison_eq, Option.some.injEq]
  exact ⟨fun h => congrArg Comparison.compare h, fun h => congrArg Comparison.ofOrdering h⟩

theorem forall_byImage_iff :
    (∀ order, byImage order xs ys = lexicographic xs ys) ↔ DifferInOrder xs ys := by
  constructor
  · intro h
    exact byImage_little_iff.mp (h .little)
  · intro h order
    cases order with
    | little => exact byImage_little_iff.mpr h
    | big => exact byImage_big xs ys

end Calls

/-- On the machines of both byte orders. -/
theorem ordered_iff_differInOrder (w : ℕ) :
    (∀ s t : Text w, (∀ order, StringsOrdered order s t) ↔ DifferInOrder s.chars t.chars) ∧
      ∀ r q : BasicStringRef w, (∀ order, RefsOrdered order r q) ↔
        DifferInOrder r.chars q.chars := by
  constructor
  · intro s t
    rw [← forall_byImage_iff]
    exact forall_congr' fun order => stringsOrdered_iff order s t
  · intro r q
    rw [← forall_byImage_iff]
    exact forall_congr' fun order => refsOrdered_iff order r q

/-- The character `c` of two bytes. -/
def single (c : TChar 2) : Text 2 := ⟨[c], show 1 ≤ BaseString.kMaxCapacity 2 by decide⟩

theorem not_ordered_wide :
    ¬ ∀ (w : ℕ) (s t : Text w) (order : ByteOrder), StringsOrdered order s t := by
  intro h
  have hcompare := (h 2 (single 256) (single 255) .little).comparison
  cases hcompare

end Equilibrium.StringCompare
