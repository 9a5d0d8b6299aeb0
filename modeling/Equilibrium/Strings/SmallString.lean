import Equilibrium.Strings.StringStorage
import Equilibrium.Library.Interleaving
import Equilibrium.Strings.BaseStringSearch
import Mathlib.Data.List.TakeWhile

/-! The string of `base/strings/small_string.h` with an inline buffer of `N` characters. A
union holds the pointer, the size and the capacity of a heap buffer, or the inline buffer
and its size; a `bool` behind the union tells which. Sizes are of 32 bits. -/

namespace Equilibrium.SmallString

open Library.ByteMemory StringStorage

section Representation

variable (w N : ℕ) (m : Bytes)

def kSizeMax : ℕ := 2 ^ 32 - 1

def kMaxCapacity : ℕ := kSizeMax - 1

/-- Where `small_.size_` lies: behind the inline buffer, at a multiple of four. -/
def smallSizeOffset : ℕ := ((N + 1) * w + 3) / 4 * 4

/-- Where `is_large_` lies: behind the union, whose size is a multiple of eight. -/
def isLargeOffset : ℕ := (max 16 (smallSizeOffset w N + 4) + 7) / 8 * 8

def isLarge : Bool := m (isLargeOffset w N) ≠ 0

def setIsLarge (b : Bool) : Bytes :=
  Function.update m (isLargeOffset w N) (if b then 1 else 0)

def getSize : ℕ := if isLarge w N m then load m 4 8 else load m 4 (smallSizeOffset w N)

def getCapacity : ℕ := if isLarge w N m then load m 4 12 else N

def setSize (newSize : ℕ) : Bytes :=
  if isLarge w N m then store m 4 8 newSize else store m 4 (smallSizeOffset w N) newSize

def setLarge (data size capacity : ℕ) : Bytes :=
  setIsLarge w N (store (store (store m 8 0 data) 4 8 size) 4 12 capacity) true

/-- A field of another object. -/
def copyField (other : Bytes) (a n : ℕ) : Bytes := store m n a (load other n a)

def initEmpty : Bytes :=
  store (store (setIsLarge w N m false) 4 (smallSizeOffset w N) 0) w 0 0

def layout : Layout w where
  sizeMax := kSizeMax
  inlineCapacity := N
  maxCapacity := kMaxCapacity
  isLarge := isLarge w N
  largeData := (load · 8 0)
  getSize := getSize w N
  getCapacity := getCapacity w N
  setSize := setSize w N
  setLarge := setLarge w N
  initEmpty := initEmpty w N

end Representation

section Operations

variable {ι : Type} [DecidableEq ι] {w N : ℕ} (fresh : Fresh w) (W : World ι (layout w N))
  (i j : ι)

def growTo (required : ℕ) : Except Halt (World ι (layout w N)) :=
  if required ≤ getCapacity w N (W.obj i) then .ok W
  else if required ≤ kMaxCapacity then
    let headroom := kMaxCapacity - required
    let extra := required / 2
    reallocate fresh W i (required + (if extra < headroom then extra else headroom))
  else .error .fatal

def construct : World ι (layout w N) := (W.setObj i (initEmpty w N (W.obj i))).setAlive i true

def destroy : Except Halt (World ι (layout w N)) := do
  let W ← deallocateLarge W i
  return W.setAlive i false

def clear : Except Halt (World ι (layout w N)) :=
  let W := StringStorage.setSize W i 0
  check (write W (getData W i) [0])

def assign (str : Ptr ι w) (len : ℕ) : Except Halt (World ι (layout w N)) :=
  if str.isNull ∨ len = 0 then clear W i
  else do
    let W ← (if len > getCapacity w N (W.obj i) then growTo fresh W i len else .ok W)
    let W ← memCopy W (getData W i) str len
    finish W i len

/-- A range, or a string of another type: `static_cast<size_type>` of its length. -/
def assignRange (str : Ptr ι w) (n : ℕ) : Except Halt (World ι (layout w N)) :=
  assign fresh W i str (n % 2 ^ 32)

def assignCStr (str : Ptr ι w) : Except Halt (World ι (layout w N)) := do
  let length ← countStringLength W str
  assign fresh W i str (length % 2 ^ 32)

/-- The constructor from another string. -/
def constructCopy : Except Halt (World ι (layout w N)) :=
  let W := construct W i
  assign fresh W i (getData W j) (getSize w N (W.obj j))

/-- The storage of another string, which is left empty: the buffer, or the characters. -/
def takeOver : Except Halt (World ι (layout w N)) := do
  let other := W.obj j
  let W ← (if isLarge w N other then
      .ok (W.setObj i (setIsLarge w N (copyField (copyField (copyField (W.obj i) other 0 8)
        other 8 4) other 12 4) true))
    else do
      let size := load other 4 (smallSizeOffset w N)
      let W := W.setObj i (store (setIsLarge w N (W.obj i) false) 4 (smallSizeOffset w N) size)
      memCopy W (.inline i 0) (.inline j 0) (size + 1))
  return W.setObj j (initEmpty w N (W.obj j))

def constructMove : Except Halt (World ι (layout w N)) := takeOver (W.setAlive i true) i j

def assignCopy : Except Halt (World ι (layout w N)) :=
  if i ≠ j then assign fresh W i (getData W j) (getSize w N (W.obj j)) else .ok W

def assignMove : Except Halt (World ι (layout w N)) :=
  if i ≠ j then do
    let W ← deallocateLarge W i
    takeOver W i j
  else .ok W

def reserve (newCapacity : ℕ) : Except Halt (World ι (layout w N)) :=
  if newCapacity > getCapacity w N (W.obj i) then growTo fresh W i newCapacity else .ok W

def shrinkToFit : Except Halt (World ι (layout w N)) :=
  if ¬ isLarge w N (W.obj i) then .ok W
  else
    let cur := load (W.obj i) 4 8
    let oldData := load (W.obj i) 8 0
    let oldCapacity := load (W.obj i) 4 12
    if cur ≤ N then do
      let W := W.setObj i (store (setIsLarge w N (W.obj i) false) 4 (smallSizeOffset w N) cur)
      let W ← memCopy W (.inline i 0) (.block oldData 0) cur
      let W ← check (write W (.inline i cur) [0])
      freeBuffer W oldData (bufferByteSize w oldCapacity)
    else if cur < oldCapacity then do
      let W ← allocateBuffer fresh W cur
      let W ← memCopy W (.block fresh.address 0) (.block oldData 0) cur
      let W ← check (write W (.block fresh.address cur) [0])
      let W ← freeBuffer W oldData (bufferByteSize w oldCapacity)
      return W.setObj i (store (store (W.obj i) 8 0 fresh.address) 4 12 cur)
    else .ok W

def append (str : Ptr ι w) (count : ℕ) : Except Halt (World ι (layout w N)) :=
  if count = 0 then .ok W
  else do
    let oldSize := getSize w N (W.obj i)
    let newSize ← checkedLengthSum (layout w N) oldSize count
    let W ← (if newSize > getCapacity w N (W.obj i) then growTo fresh W i newSize else .ok W)
    let W ← memCopy W ((getData W i).add oldSize) str count
    finish W i newSize

def appendCStr (str : Ptr ι w) : Except Halt (World ι (layout w N)) := do
  let length ← countStringLength W str
  if length ≤ kMaxCapacity then append fresh W i str length else .error .fatal

def grow (newSize : ℕ) : Except Halt (World ι (layout w N)) :=
  if newSize > getCapacity w N (W.obj i) then growTo fresh W i newSize else .ok W

def fill (count : ℕ) (c : TChar w) : Except Halt (World ι (layout w N)) :=
  StringStorage.fill (growTo fresh · i ·) W i count c

def resize (newSize : ℕ) : Except Halt (World ι (layout w N)) :=
  StringStorage.resize (reserve fresh · i ·) W i newSize

def pushBack (c : TChar w) : Except Halt (World ι (layout w N)) :=
  StringStorage.pushBack (grow fresh · i ·) W i c

def insert (pos count : ℕ) (c : TChar w) : Except Halt (World ι (layout w N)) :=
  StringStorage.insert (grow fresh · i ·) W i pos count c

end Operations

inductive Op (ι : Type) (w : ℕ) where
  | construct (i : ι)
  | constructFill (i : ι) (count : ℕ) (c : TChar w)
  | constructCopy (i j : ι)
  | constructMove (i j : ι)
  | destroy (i : ι)
  | assign (i : ι) (src : Source ι w) (len : ℕ)
  | assignRange (i : ι) (src : Source ι w) (n : ℕ)
  | assignCStr (i : ι) (src : Source ι w)
  | assignCopy (i j : ι)
  | assignMove (i j : ι)
  | append (i : ι) (src : Source ι w) (count : ℕ)
  | appendCStr (i : ι) (src : Source ι w)
  | pushBack (i : ι) (c : TChar w)
  | insert (i : ι) (pos count : ℕ) (c : TChar w)
  | erase (i : ι) (pos count : ℕ)
  | removeSuffix (i : ι) (n : ℕ)
  | reserve (i : ι) (newCapacity : ℕ)
  | resize (i : ι) (newSize : ℕ)
  | clear (i : ι)
  | shrinkToFit (i : ι)

/-- An operation, and what the allocator returns if the operation asks it. -/
structure Act (ι : Type) (w : ℕ) where
  op : Op ι w
  fresh : Fresh w

section Machine

variable {ι : Type} [DecidableEq ι] {w N : ℕ}

/-- The other constructors are `construct` and the operation that they call. -/
def step (W : World ι (layout w N)) (a : Act ι w) : Except Halt (World ι (layout w N)) :=
  match a.op with
  | .construct i => .ok (construct W i)
  | .constructFill i count c => fill a.fresh (construct W i) i count c
  | .constructCopy i j => constructCopy a.fresh W i j
  | .constructMove i j => constructMove W i j
  | .destroy i => destroy W i
  | .assign i src len => assign a.fresh W i (src.ptr W) len
  | .assignRange i src n => assignRange a.fresh W i (src.ptr W) n
  | .assignCStr i src => assignCStr a.fresh W i (src.ptr W)
  | .assignCopy i j => assignCopy a.fresh W i j
  | .assignMove i j => assignMove W i j
  | .append i src count => append a.fresh W i (src.ptr W) count
  | .appendCStr i src => appendCStr a.fresh W i (src.ptr W)
  | .pushBack i c => pushBack a.fresh W i c
  | .insert i pos count c => insert a.fresh W i pos count c
  | .erase i pos count => erase W i pos count
  | .removeSuffix i n => removeSuffix W i n
  | .reserve i newCapacity => reserve a.fresh W i newCapacity
  | .resize i newSize => resize a.fresh W i newSize
  | .clear i => clear W i
  | .shrinkToFit i => shrinkToFit a.fresh W i

def machine (ι : Type) (w N : ℕ) [DecidableEq ι] (bytes : ι → Bytes) :
    Library.Interleaving.Machine (World ι (layout w N)) (Act ι w) where
  init := ⟨bytes, fun _ => false, fun _ => none⟩
  step W a := (step W a).toOption

end Machine

/-! The `find` of `BasicSmallString` in `base/strings/small_string.h`. Positions and lengths
are of 32 bits; a read outside the characters of the string gives `none`. -/

open Library BaseString List
open BaseString (First OccursAt cstr)

variable {w : ℕ}

def npos : ℕ := kSizeMax

structure Text (w : ℕ) where
  chars : List (TChar w)
  length_le : chars.length ≤ kMaxCapacity

namespace Text

def size (t : Text w) : ℕ := t.chars.length

/-- `find(c, pos)` -/
def findChar (t : Text w) (c : TChar w) (pos : ℕ) : Option ℕ :=
  let cur := t.size
  if pos ≥ cur then some npos
  else BaseString.Text.scanUp (fun i => t.chars[i]?.map (· = c)) npos pos (cur - pos)

/-- Whether `MemCompare` of `n` characters at `i` and those from `s` on gives zero. -/
def memEqual (t : Text w) (s : List (TChar w)) (n i : ℕ) : Option Bool := do
  let xs ← ArrayWrite.read t.chars i n
  let ys ← ArrayWrite.read s 0 n
  return xs = ys

/-- `find(s, pos)` of a pointer to the characters of `s` and a terminator, or of null. -/
def findCStr (t : Text w) (s : Option (List (TChar w))) (pos : ℕ) : Option ℕ :=
  match s with
  | none => some npos
  | some s =>
    let sLen := ((s ++ [0]).takeWhile (· ≠ 0)).length % 2 ^ 32
    let cur := t.size
    if sLen = 0 then some (if pos ≤ cur then pos else npos)
    else if (pos + sLen) % 2 ^ 32 > cur then some npos
    else
      let last := (cur + 2 ^ 32 - sLen) % 2 ^ 32
      BaseString.Text.scanUp (t.memEqual (s ++ [0]) sLen) npos pos (last + 1 - pos)

def find (t s : Text w) (pos : ℕ) : Option ℕ := t.findCStr (some s.chars) pos

end Text

/-- What a call looks for. -/
inductive Needle (w : ℕ) where
  | char (c : TChar w)
  /-- a C string -/
  | cstr (s : List (TChar w)) (nonzero : 0 ∉ s)
  | string (s : Text w)

def Needle.chars : Needle w → List (TChar w)
  | .char c => [c]
  | .cstr s _ => s
  | .string s => s.chars

def Needle.find (t : Text w) (pos : ℕ) : Needle w → Option ℕ
  | .char c => t.findChar c pos
  | .cstr s _ => t.findCStr (some s) pos
  | .string s => t.find s pos

/-- The call reads within the string and gives the least match from `pos` on. -/
def Needle.Finds (n : Needle w) (t : Text w) (pos : ℕ) : Prop :=
  ∃ o, n.find t pos = some (o.getD npos) ∧ First {i | pos ≤ i ∧ OccursAt n.chars t.chars i} o

/-- The characters that are compared: those before the first NUL, their number cut to 32 bits. -/
def compared (s : List (TChar w)) : List (TChar w) := (cstr s).take ((cstr s).length % 2 ^ 32)

/-- The sum of the position and of a length that is too large comes round to a small one. -/
def Wraps (t : Text w) (pos sLen : ℕ) : Prop :=
  t.size < sLen ∧ 2 ^ 32 ≤ pos + sLen ∧ pos + sLen ≤ 2 ^ 32 + t.size

/-- A match of the characters that are compared comes no earlier than one of the whole. -/
def Needle.Fits (n : Needle w) (t : Text w) (pos : ℕ) : Prop :=
  match n with
  | .char _ => True
  | .cstr s _ | .string ⟨s, _⟩ =>
      ¬ Wraps t pos (compared s).length ∧
        ∀ i, pos ≤ i → OccursAt (compared s) t.chars i → ∃ k, pos ≤ k ∧ k ≤ i ∧
          OccursAt s t.chars k

section Runs

variable {t : Text w} {s : List (TChar w)} {n : Needle w} {pos i k : ℕ} {o : Option ℕ}

theorem Text.size_lt (t : Text w) : t.size < npos := by
  have hle := t.length_le
  unfold kMaxCapacity kSizeMax at hle
  unfold npos kSizeMax Text.size
  omega

theorem compared_begins (s : List (TChar w)) : compared s <+: s :=
  (List.take_prefix _ _).trans (prefix_cstr s)

theorem length_compared (s : List (TChar w)) :
    (compared s).length = ((s ++ [0]).takeWhile (· ≠ 0)).length % 2 ^ 32 := by
  have htake : ∀ l : List (TChar w), (l ++ [0]).takeWhile (· ≠ 0) = cstr l := by
    intro l
    induction l with
    | nil => simp [cstr]
    | cons x l ih => rw [cstr, cons_append, takeWhile_cons, takeWhile_cons, ih]; rfl
  rw [compared, htake, length_take_of_le (Nat.mod_le _ _)]

theorem memEqual_iff (hi : i + (compared s).length ≤ t.size) :
    ∃ b, t.memEqual (s ++ [0]) (compared s).length i = some b ∧
      (b = true ↔ OccursAt (compared s) t.chars i) := by
  have hle := (compared_begins s).length_le
  have htake : (s ++ [0]).take (compared s).length = compared s := by
    rw [take_append_of_le_length hle]
    exact (prefix_iff_eq_take.mp (compared_begins s)).symm
  have hrun : t.memEqual (s ++ [0]) (compared s).length i =
      some (decide ((t.chars.drop i).take (compared s).length = compared s)) := by
    change i + _ ≤ t.chars.length at hi
    rw [Text.memEqual, ArrayWrite.read, if_pos hi, ArrayWrite.read,
      if_pos (by rw [length_append]; omega), drop_zero, htake]
    rfl
  refine ⟨_, hrun, ?_⟩
  rw [decide_eq_true_iff, OccursAt, prefix_iff_eq_take, eq_comm]
  exact (and_iff_right (by unfold Text.size at hi; omega)).symm

theorem findChar_first (t : Text w) (c : TChar w) (pos : ℕ) : (Needle.char c).Finds t pos := by
  have hoccurs : ∀ i, OccursAt [c] t.chars i ↔ t.chars[i]? = some c := by
    intro i
    rw [OccursAt, singleton_prefix_iff_head?_eq_some, head?_drop]
    exact ⟨fun h => h.2, fun h => ⟨Nat.le_of_lt (List.getElem?_eq_some_iff.mp h).1, h⟩⟩
  have hlt : ∀ i, OccursAt [c] t.chars i → i < t.size := fun i hi =>
    (List.getElem?_eq_some_iff.mp ((hoccurs i).mp hi)).1
  by_cases hpos : pos ≥ t.size
  · refine ⟨none, if_pos hpos, Set.eq_empty_iff_forall_notMem.mpr ?_⟩
    rintro i ⟨hi, hc⟩
    have hbound := hlt i hc
    omega
  · have hhit : ∀ k, pos ≤ k → k < pos + (t.size - pos) →
        ∃ b, t.chars[k]?.map (fun d => decide (d = c)) = some b ∧
          (b = true ↔ OccursAt [c] t.chars k) := by
      intro k _ hk
      have hget : t.chars[k]? = some _ :=
        getElem?_eq_getElem (by unfold Text.size at hk; omega)
      refine ⟨_, by rw [hget]; rfl, ?_⟩
      rw [hoccurs, hget, Option.some_inj, decide_eq_true_iff]
    have hend : ∀ k, pos ≤ k → OccursAt [c] t.chars k → k < pos + (t.size - pos) := by
      intro k _ hk
      have hbound := hlt k hk
      omega
    obtain ⟨o, ho, hfirst⟩ := @scanUp_first _ _ npos pos (t.size - pos) hhit hend
    exact ⟨o, (if_neg hpos).trans ho, hfirst⟩

theorem findCStr_first (hpos : pos < 2 ^ 32) (hwraps : ¬ Wraps t pos (compared s).length) :
    ∃ o, t.findCStr (some s) pos = some (o.getD npos) ∧
      First {i | pos ≤ i ∧ OccursAt (compared s) t.chars i} o := by
  have hlt := t.size_lt
  have hmod : (compared s).length < 2 ^ 32 := by
    rw [length_compared]
    exact Nat.mod_lt _ (by decide)
  unfold npos kSizeMax at hlt
  unfold Wraps at hwraps
  rw [Text.findCStr, ← length_compared]
  by_cases hzero : (compared s).length = 0
  · simp only [if_pos hzero]
    rw [length_eq_zero_iff.mp hzero]
    by_cases hle : pos ≤ t.size
    · refine ⟨some pos, congrArg some (if_pos hle), ⟨le_refl pos, hle, nil_prefix⟩, ?_⟩
      rintro i ⟨hi, -⟩
      exact hi
    · refine ⟨none, congrArg some (if_neg hle), Set.eq_empty_iff_forall_notMem.mpr ?_⟩
      rintro i ⟨hi, hi', -⟩
      exact hle (hi.trans hi')
  · simp only [if_neg hzero]
    by_cases hsum : (pos + (compared s).length) % 2 ^ 32 > t.size
    · refine ⟨none, if_pos hsum, Set.eq_empty_iff_forall_notMem.mpr ?_⟩
      rintro i ⟨hi, hoccurs⟩
      have hbound : i + _ ≤ t.size := hoccurs.add_length_le
      omega
    · have hshort : (compared s).length ≤ t.size := by omega
      have hlast : (t.size + 2 ^ 32 - (compared s).length) % 2 ^ 32 =
          t.size - (compared s).length := by omega
      rw [if_neg hsum, hlast]
      refine scanUp_first (fun k _ hk => memEqual_iff (by omega)) fun k _ hoccurs => ?_
      have hbound : k + _ ≤ t.size := hoccurs.add_length_le
      omega

theorem findCStr_of_wraps (hpos : pos < 2 ^ 32) (hwraps : Wraps t pos (compared s).length) :
    t.findCStr (some s) pos = none := by
  have hlt := t.size_lt
  have hmod : (compared s).length < 2 ^ 32 := by
    rw [length_compared]
    exact Nat.mod_lt _ (by decide)
  unfold npos kSizeMax at hlt
  obtain ⟨hlong, hwrap, hsmall⟩ := hwraps
  have hrounds : (t.size + 2 ^ 32 - (compared s).length) % 2 ^ 32 + 1 - pos =
      (t.size + 2 ^ 32 - (compared s).length - pos) + 1 := by omega
  have hread : t.memEqual (s ++ [0]) (compared s).length pos = none := by
    rw [Text.memEqual, ArrayWrite.read,
      if_neg (by unfold Text.size at hlt; omega)]
    rfl
  rw [Text.findCStr, ← length_compared]
  simp only [if_neg (show ¬ (compared s).length = 0 by omega),
    if_neg (show ¬ (pos + (compared s).length) % 2 ^ 32 > t.size by omega), hrounds]
  rw [BaseString.Text.scanUp, hread]
  rfl

theorem Needle.finds_iff (hrun : n.find t pos = some (o.getD npos))
    (ho : ∀ r, o = some r → r ≤ t.size) :
    n.Finds t pos ↔ First {i | pos ≤ i ∧ OccursAt n.chars t.chars i} o := by
  have hlt := t.size_lt
  refine ⟨?_, fun h => ⟨o, hrun, h⟩⟩
  rintro ⟨o', hrun', h⟩
  have hget : o.getD npos = o'.getD npos := Option.some_inj.mp (hrun.symm.trans hrun')
  have heq : o = o' := eq_of_getD_eq hget (fun r hr => (ho r hr).trans_lt hlt)
    fun r hr => ((h.mem hr).2.1).trans_lt hlt
  rw [heq]
  exact h

theorem finds_iff_fits_of_find (hpos : pos < 2 ^ 32)
    (hfind : n.find t pos = t.findCStr (some s) pos) (hchars : n.chars = s) :
    n.Finds t pos ↔ ¬ Wraps t pos (compared s).length ∧
      ∀ i, pos ≤ i → OccursAt (compared s) t.chars i → ∃ k, pos ≤ k ∧ k ≤ i ∧
        OccursAt s t.chars k := by
  by_cases hwraps : Wraps t pos (compared s).length
  · refine iff_of_false ?_ fun h => h.1 hwraps
    rintro ⟨o, ho, -⟩
    rw [hfind, findCStr_of_wraps hpos hwraps] at ho
    simp at ho
  · obtain ⟨o, ho, hfirst⟩ := findCStr_first hpos hwraps
    have hbound : ∀ r, o = some r → r ≤ t.size := fun r hr => (hfirst.mem hr).2.1
    rw [Needle.finds_iff (hfind.trans ho) hbound, hchars, and_iff_right hwraps]
    exact hfirst.narrow_iff fun i hoccurs => hoccurs.of_prefix (compared_begins s)

end Runs

/-- For every value of the 32-bit index type. -/
theorem needle_finds_iff_fits (t : Text w) (n : Needle w) (pos : Fin (2 ^ 32)) :
    n.Finds t pos.val ↔ n.Fits t pos.val := by
  cases n with
  | char c => exact iff_of_true (findChar_first t c pos.val) trivial
  | cstr s nonzero => exact finds_iff_fits_of_find pos.isLt rfl rfl
  | string s => exact finds_iff_fits_of_find pos.isLt rfl rfl

theorem not_finds_at_npos :
    ¬ ∀ (w : ℕ) (t : Text w) (n : Needle w) (pos : Fin (2 ^ 32)), n.Finds t pos.val := by
  intro h
  obtain ⟨o, ho, -⟩ := h 1 ⟨[], by decide⟩ (.cstr [97] (by decide)) ⟨npos, by decide⟩
  have hrun : Needle.find (⟨[], by decide⟩ : Text 1) npos (.cstr [97] (by decide)) = none := by
    decide
  exact absurd (hrun.symm.trans ho) (by simp)

end Equilibrium.SmallString
