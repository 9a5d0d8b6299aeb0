import Equilibrium.Library.BlockHeap
import Equilibrium.Library.ByteMemory

/-! What `BasicBaseString` of `base/strings/base_string.h` and `BasicSmallString` of
`base/strings/small_string.h` have in common. An object is its bytes: the inline characters
lie at its start, where the pointer to the heap buffer lies in the other mode. A failed
`BASE_FATAL_CHECK` ends the program; an access outside the memory that is there, a
`MemCopy` between ranges that overlap and a `Free` of what is not allocated are faults. -/

namespace Equilibrium.StringStorage

open Library Library.ByteMemory

/-- A character of `w` bytes. -/
abbrev TChar (w : ℕ) := Fin (256 ^ w)

theorem mod_units_lt (w n : ℕ) : n % 256 ^ w < 256 ^ w :=
  Nat.mod_lt n (Nat.pow_pos (Nat.succ_pos 255))

instance (w n : ℕ) : OfNat (TChar w) n := ⟨⟨n % 256 ^ w, mod_units_lt w n⟩⟩

inductive Halt where
  | fatal
  | fault
  deriving DecidableEq

/-- The constants of a string class, and how it reads and writes the fields of an object. -/
structure Layout (w : ℕ) where
  /-- `MinMax<size_type>::max()` -/
  sizeMax : ℕ
  inlineCapacity : ℕ
  maxCapacity : ℕ
  isLarge : Bytes → Bool
  largeData : Bytes → ℕ
  getSize : Bytes → ℕ
  getCapacity : Bytes → ℕ
  setSize : Bytes → ℕ → Bytes
  /-- the three fields of the heap mode, and the flag -/
  setLarge : Bytes → (data size capacity : ℕ) → Bytes
  initEmpty : Bytes → Bytes

structure World (ι : Type) {w : ℕ} (L : Layout w) where
  obj : ι → Bytes
  alive : ι → Bool
  heap : BlockHeap (TChar w)

/-- A pointer: null, to characters elsewhere, into an object, or into a heap buffer. -/
inductive Ptr (ι : Type) (w : ℕ) where
  | null
  | chars (units : List (TChar w))
  | inline (j : ι) (start : ℕ)
  | block (a start : ℕ)

/-- What `TAllocator::Allocate` returns (zero for null), and what the memory holds. -/
structure Fresh (w : ℕ) where
  address : ℕ
  garbage : ℕ → TChar w

def check {β : Type} : Option β → Except Halt β
  | some b => .ok b
  | none => .error .fault

section Memory

variable {ι : Type} [DecidableEq ι] {w : ℕ} (L : Layout w)

def loadUnit (w : ℕ) (m : Bytes) (k : ℕ) : TChar w := ⟨load m w (w * k), load_lt m w (w * k)⟩

def storeUnits (w : ℕ) (m : Bytes) (k : ℕ) : List (TChar w) → Bytes
  | [] => m
  | x :: xs => storeUnits w (store m w (w * k) x) (k + 1) xs

def inlineCells (m : Bytes) : List (TChar w) :=
  (List.range (L.inlineCapacity + 1)).map (loadUnit w m)

variable {L} (W : World ι L)

def World.setObj (i : ι) (m : Bytes) : World ι L :=
  { W with obj := Function.update W.obj i m }

def World.setHeap (heap : BlockHeap (TChar w)) : World ι L := { W with heap := heap }

def World.setAlive (i : ι) (b : Bool) : World ι L :=
  { W with alive := Function.update W.alive i b }

def Ptr.isNull {w : ℕ} : Ptr ι w → Bool
  | .null => true
  | _ => false

def Ptr.add {w : ℕ} : Ptr ι w → ℕ → Ptr ι w
  | .null, _ => .null
  | .chars units, n => .chars (units.drop n)
  | .inline j start, n => .inline j (start + n)
  | .block a start, n => .block a (start + n)

def read : Ptr ι w → ℕ → Option (List (TChar w))
  | .null, n => if n = 0 then some [] else none
  | .chars units, n => ArrayWrite.read units 0 n
  | .inline j start, n => ArrayWrite.read (inlineCells L (W.obj j)) start n
  | .block a start, n => W.heap.read a start n

def write : Ptr ι w → List (TChar w) → Option (World ι L)
  | .null, _ => none
  | .chars _, _ => none
  | .inline j start, xs =>
    if start + xs.length ≤ L.inlineCapacity + 1 then
      some (W.setObj j (storeUnits w (W.obj j) start xs))
    else none
  | .block a start, xs => (W.heap.write a start xs).map W.setHeap

/-- Whether ranges of `n` characters overlap. -/
def Ptr.overlaps {w : ℕ} (n : ℕ) : Ptr ι w → Ptr ι w → Bool
  | .inline i s, .inline j t => i = j ∧ s < t + n ∧ t < s + n
  | .block a s, .block b t => a = b ∧ s < t + n ∧ t < s + n
  | _, _ => false

def readable : Ptr ι w → List (TChar w)
  | .null => []
  | .chars units => units
  | .inline j start => (inlineCells L (W.obj j)).drop start
  | .block a start => ((W.heap a).getD []).drop start

def countStringLength (p : Ptr ι w) : Except Halt ℕ :=
  if 0 ∈ readable W p then .ok ((readable W p).takeWhile (· ≠ 0)).length else .error .fault

def memMove (dest src : Ptr ι w) (n : ℕ) : Except Halt (World ι L) :=
  check ((read W src n).bind fun xs => write W dest xs)

def memCopy (dest src : Ptr ι w) (n : ℕ) : Except Halt (World ι L) :=
  if dest.overlaps n src then .error .fault else memMove W dest src n

end Memory

section Helpers

variable {ι : Type} [DecidableEq ι] {w : ℕ} {L : Layout w} (fresh : Fresh w) (W : World ι L)
  (i : ι)

def getData : Ptr ι w :=
  if L.isLarge (W.obj i) then .block (L.largeData (W.obj i)) 0 else .inline i 0

def setSize (n : ℕ) : World ι L := W.setObj i (L.setSize (W.obj i) n)

def terminate : Except Halt (World ι L) :=
  check (write W ((getData W i).add (L.getSize (W.obj i))) [0])

def finish (n : ℕ) : Except Halt (World ι L) := terminate (setSize W i n) i

def bufferByteSize (w capacity : ℕ) : ℕ := (capacity + 1) * w % 2 ^ 64

def allocateBuffer (capacity : ℕ) : Except Halt (World ι L) :=
  if capacity ≤ L.maxCapacity then
    if fresh.address ≠ 0 then
      .ok (W.setHeap (W.heap.allocate fresh.address
        ((List.range (bufferByteSize w capacity / w)).map fresh.garbage)))
    else .error .fatal
  else .error .fatal

def checkedLengthSum (L : Layout w) (a b : ℕ) : Except Halt ℕ :=
  if a ≤ L.sizeMax - b then .ok (a + b) else .error .fatal

/-- `TAllocator::Free` with the size in bytes. -/
def freeBuffer (data bytes : ℕ) : Except Halt (World ι L) :=
  if bytes % w = 0 then check ((W.heap.free data (bytes / w)).map W.setHeap)
  else .error .fault

def deallocateLarge : Except Halt (World ι L) :=
  if L.isLarge (W.obj i) then
    freeBuffer W (L.largeData (W.obj i)) (bufferByteSize w (L.getCapacity (W.obj i)))
  else .ok W

def setLarge (data size capacity : ℕ) : World ι L :=
  W.setObj i (L.setLarge (W.obj i) data size capacity)

/-- A buffer of the given capacity in place of the storage, with the same characters. -/
def reallocate (capacity : ℕ) : Except Halt (World ι L) := do
  let W ← allocateBuffer fresh W capacity
  let size := L.getSize (W.obj i)
  let W ← (if size > 0 then memCopy W (.block fresh.address 0) (getData W i) size else .ok W)
  let W ← check (write W (.block fresh.address size) [0])
  let W ← deallocateLarge W i
  return setLarge W i fresh.address size capacity

end Helpers

/-! The modifiers that the classes have in common, for the way `grow` in which a class makes
room. A failed `BASE_BUGCHECK` or `BASE_DCHECK` is a fault. -/

section Modifiers

variable {ι : Type} [DecidableEq ι] {w : ℕ} {L : Layout w}
  (grow : World ι L → ℕ → Except Halt (World ι L)) (W : World ι L) (i : ι)

/-- The constructor of `count` copies of `c`, on an empty string. -/
def fill (count : ℕ) (c : TChar w) : Except Halt (World ι L) :=
  if count > 0 then do
    let W ← grow W count
    let W ← check (write W (getData W i) (List.replicate count c))
    finish W i count
  else .ok W

def resize (newSize : ℕ) : Except Halt (World ι L) := do
  let oldSize := L.getSize (W.obj i)
  let W ← (if newSize > oldSize then do
      let W ← grow W newSize
      check (write W ((getData W i).add oldSize) (List.replicate (newSize - oldSize) 0))
    else .ok W)
  finish W i newSize

def pushBack (c : TChar w) : Except Halt (World ι L) := do
  let oldSize := L.getSize (W.obj i)
  let newSize ← checkedLengthSum L oldSize 1
  let W ← grow W newSize
  let W ← check (write W ((getData W i).add oldSize) [c])
  finish W i newSize

def insert (pos count : ℕ) (c : TChar w) : Except Halt (World ι L) :=
  if pos ≤ L.getSize (W.obj i) then
    if count = 0 then .ok W
    else do
      let oldSize := L.getSize (W.obj i)
      let newSize ← checkedLengthSum L oldSize count
      let W ← grow W newSize
      let W ← memMove W ((getData W i).add (pos + count)) ((getData W i).add pos) (oldSize - pos)
      let W ← check (write W ((getData W i).add pos) (List.replicate count c))
      finish W i newSize
  else .error .fault

def erase (pos count : ℕ) : Except Halt (World ι L) :=
  let size := L.getSize (W.obj i)
  if pos ≤ size then
    let count := min count (size - pos)
    if count = 0 then .ok W
    else do
      let W ← memMove W ((getData W i).add pos) ((getData W i).add (pos + count))
        (size - pos - count)
      finish W i (size - count)
  else .error .fault

def removeSuffix (n : ℕ) : Except Halt (World ι L) :=
  if n ≤ L.getSize (W.obj i) then finish W i (L.getSize (W.obj i) - n) else .error .fault

end Modifiers

/-! Worlds of strings. -/

section Strings

variable {ι : Type} [DecidableEq ι] {w : ℕ} {L : Layout w} (W : World ι L) (i : ι)

def Layout.address (L : Layout w) (m : Bytes) : Option ℕ :=
  if L.isLarge m then some (L.largeData m) else none

def cells : List (TChar w) :=
  (L.address (W.obj i)).elim (inlineCells L (W.obj i)) fun a => (W.heap a).getD []

def contents : Option (List (TChar w)) :=
  if W.alive i then some ((cells W i).take (L.getSize (W.obj i))) else none

def owner : Option ℕ := if W.alive i then L.address (W.obj i) else none

/-- The argument of a call: null, characters elsewhere, or a place in a string. -/
inductive Source (ι : Type) (w : ℕ) where
  | null
  | chars (units : List (TChar w))
  | part (j : ι) (start : ℕ)

def Source.ptr : Source ι w → Ptr ι w
  | .null => .null
  | .chars units => .chars units
  | .part j start => (getData W j).add start

/-- The characters of a source, for the characters of the strings. -/
def Source.units {w : ℕ} (strings : ι → Option (List (TChar w))) : Source ι w → List (TChar w)
  | .null => []
  | .chars units => units
  | .part j start => ((strings j).getD []).drop start

def Source.isNull {w : ℕ} : Source ι w → Bool
  | .null => true
  | _ => false

def Source.Valid {w : ℕ} (strings : ι → Option (List (TChar w))) : Source ι w → Prop
  | .part j start => (strings j).any (start ≤ ·.length)
  | _ => True

def Source.Terminated {w : ℕ} (strings : ι → Option (List (TChar w))) : Source ι w → Prop
  | .null => False
  | .chars units => 0 ∈ units
  | .part j start => (strings j).any (start ≤ ·.length)

def Source.cstr {w : ℕ} (strings : ι → Option (List (TChar w))) (src : Source ι w) :
    List (TChar w) :=
  (src.units strings).takeWhile (· ≠ 0)

/-- What the allocator promises: a buffer that is not allocated already. -/
def Fresh.Valid (fresh : Fresh w) (W : World ι L) : Prop :=
  fresh.address ≠ 0 → W.heap fresh.address = none ∧ fresh.address < 2 ^ 64

instance {w : ℕ} (strings : ι → Option (List (TChar w))) (src : Source ι w) :
    Decidable (src.Valid strings) :=
  match src with
  | .null => inferInstanceAs (Decidable True)
  | .chars _ => inferInstanceAs (Decidable True)
  | .part j start => inferInstanceAs (Decidable (_ = _))

instance {w : ℕ} (strings : ι → Option (List (TChar w))) (src : Source ι w) :
    Decidable (src.Terminated strings) :=
  match src with
  | .null => inferInstanceAs (Decidable False)
  | .chars units => inferInstanceAs (Decidable (_ ∈ _))
  | .part j start => inferInstanceAs (Decidable (_ = _))

instance (fresh : Fresh w) (W : World ι L) : Decidable (fresh.Valid W) :=
  inferInstanceAs (Decidable (_ → _))

end Strings

/-! The storage of a string as its operations see it: where the characters lie, the cells
that hold them, and the size. What an operation does to one string is a change of its view;
the other strings and their buffers stay as they are. -/

open List Option
open Library.ArrayWrite (Holds)

/-- What the accessors of a layout have to do with one another. -/
structure Layout.Lawful {w : ℕ} (L : Layout w) : Prop where
  width_pos : 0 < w
  bytes_lt : (L.maxCapacity + 1) * w < 2 ^ 64
  max_le : L.maxCapacity ≤ L.sizeMax
  inline_le : L.inlineCapacity ≤ L.maxCapacity
  capacity_inline : ∀ m, L.isLarge m = false → L.getCapacity m = L.inlineCapacity
  store_inline : ∀ m k c, L.isLarge m = false → k ≤ L.inlineCapacity →
    L.isLarge (store m w (w * k) c) = false ∧
      L.getSize (store m w (w * k) c) = L.getSize m
  setSize_inline : ∀ m n, L.isLarge m = false → n ≤ L.inlineCapacity →
    L.isLarge (L.setSize m n) = false ∧ L.getSize (L.setSize m n) = n ∧
      ∀ b < w * (L.inlineCapacity + 1), L.setSize m n b = m b
  setSize_large : ∀ m n, L.isLarge m = true → n ≤ L.maxCapacity →
    L.isLarge (L.setSize m n) = true ∧ L.getSize (L.setSize m n) = n ∧
      L.largeData (L.setSize m n) = L.largeData m ∧
      L.getCapacity (L.setSize m n) = L.getCapacity m
  setLarge : ∀ m data size capacity, data < 2 ^ 64 → size ≤ capacity →
    capacity ≤ L.maxCapacity → L.isLarge (L.setLarge m data size capacity) = true ∧
      L.largeData (L.setLarge m data size capacity) = data ∧
      L.getSize (L.setLarge m data size capacity) = size ∧
      L.getCapacity (L.setLarge m data size capacity) = capacity
  initEmpty : ∀ m, L.isLarge (L.initEmpty m) = false ∧ L.getSize (L.initEmpty m) = 0 ∧
    load (L.initEmpty m) w 0 = 0

/-- The address of the heap buffer, if there is one; the cells, and the size. -/
structure View (w : ℕ) where
  address : Option ℕ
  cells : List (TChar w)
  size : ℕ

section Cells

variable {w : ℕ} {L : Layout w} {m : Bytes} {k : ℕ}

theorem length_inlineCells (L : Layout w) (m : Bytes) :
    (inlineCells L m).length = L.inlineCapacity + 1 := by
  rw [inlineCells, length_map, length_range]

theorem inlineCells_congr {m' : Bytes}
    (h : ∀ b < w * (L.inlineCapacity + 1), m' b = m b) : inlineCells L m' = inlineCells L m := by
  refine map_congr_left fun j hj => Fin.ext (load_congr fun b _ hb => h b ?_)
  have hj := mem_range.mp hj
  have hmul : w * (j + 1) ≤ w * (L.inlineCapacity + 1) :=
    Nat.mul_le_mul_left w (by omega)
  rw [Nat.mul_add_one] at hmul
  omega

theorem inlineCells_store (c : TChar w) :
    inlineCells L (store m w (w * k) c) = (inlineCells L m).set k c := by
  refine ext_getElem ?_ fun j hj hj' => ?_
  · rw [length_set, length_inlineCells, length_inlineCells]
  · rw [getElem_set]
    simp only [inlineCells, getElem_map, getElem_range]
    split
    case isTrue heq =>
      rw [← heq]
      exact Fin.ext (load_store c.isLt)
    case isFalse hne =>
      refine Fin.ext (load_store_of_disjoint ?_)
      obtain hlt | hlt := Nat.lt_or_gt_of_ne hne
      · have hmul := Nat.mul_le_mul_left w hlt
        exact .inr hmul
      · have hmul := Nat.mul_le_mul_left w hlt
        exact .inl hmul

theorem inlineCells_storeUnits {xs : List (TChar w)}
    (hfits : k + xs.length ≤ L.inlineCapacity + 1) : inlineCells L (storeUnits w m k xs) =
      (inlineCells L m).take k ++ xs ++ (inlineCells L m).drop (k + xs.length) := by
  induction xs generalizing m k with
  | nil => rw [append_nil, length_nil, Nat.add_zero, take_append_drop]; rfl
  | cons x xs ih =>
    rw [length_cons] at hfits
    have hk : k < (inlineCells L m).length := by
      rw [length_inlineCells]
      omega
    have htake : ((inlineCells L m).set k x).take (k + 1) = (inlineCells L m).take k ++ [x] := by
      rw [take_succ_eq_append_getElem (by rw [length_set]; exact hk),
        take_set_of_le (Nat.le_refl k), getElem_set_self]
    rw [storeUnits, ih (by omega), inlineCells_store, htake,
      drop_set_of_lt (by omega), length_cons, append_assoc, append_assoc]
    rw [Nat.add_assoc, Nat.add_comm 1, append_assoc, singleton_append,
      cons_append]

theorem inline_storeUnits (hL : L.Lawful) (hm : L.isLarge m = false) {xs : List (TChar w)}
    (hfits : k + xs.length ≤ L.inlineCapacity + 1) : L.isLarge (storeUnits w m k xs) = false ∧
      L.getSize (storeUnits w m k xs) = L.getSize m := by
  induction xs generalizing m k with
  | nil => exact ⟨hm, rfl⟩
  | cons x xs ih =>
    rw [length_cons] at hfits
    obtain ⟨hlarge, hsize⟩ := hL.store_inline m k x hm (by omega)
    obtain ⟨hlarge', hsize'⟩ := ih hlarge (show k + 1 + xs.length ≤ _ by omega)
    exact ⟨hlarge', hsize'.trans hsize⟩

end Cells

section Views

variable {ι : Type} [DecidableEq ι] {w : ℕ} {L : Layout w} {W W' W'' : World ι L} {i j : ι}
  {v v' v'' : View w} {cs xs cells : List (TChar w)} {a k n : ℕ} {p : Ptr ι w}
  {fresh : Fresh w}

structure Shows (W : World ι L) (i : ι) (v : View w) : Prop where
  address : L.address (W.obj i) = v.address
  size : L.getSize (W.obj i) = v.size
  capacity : v.cells.length = L.getCapacity (W.obj i) + 1
  inline : v.address = none → v.cells = inlineCells L (W.obj i)
  block : ∀ a, v.address = some a → W.heap a = some v.cells

/-- What an operation on one string does: its buffer is freed unless the string keeps it,
and a new buffer was not there before. -/
structure Changes (W W' : World ι L) (i : ι) (v v' : View w) : Prop where
  shows : Shows W' i v'
  obj : ∀ j, j ≠ i → W'.obj j = W.obj j
  alive : W'.alive = W.alive
  same : ∀ a, v.address ≠ some a → v'.address ≠ some a → W'.heap a = W.heap a
  freed : ∀ a, v.address = some a → v'.address ≠ some a → W'.heap a = none
  fresh : ∀ a, v'.address = some a → v.address ≠ some a → W.heap a = none

/-- The view of a string: the characters with a terminator behind them, within the
capacity. -/
structure View.Keeps (L : Layout w) (v : View w) (cs : List (TChar w)) : Prop where
  size : v.size = cs.length
  holds : Holds 0 v.cells cs
  length_le : v.cells.length ≤ L.maxCapacity + 1

section

omit [DecidableEq ι]

theorem Shows.transfer (h : Shows W j v) (hobj : W'.obj i = W.obj j)
    (hblock : ∀ a, v.address = some a → W'.heap a = W.heap a) : Shows W' i v := by
  refine ⟨?_, ?_, ?_, ?_, fun a ha => (hblock a ha).trans (h.block a ha)⟩
  · rw [hobj]
    exact h.address
  · rw [hobj]
    exact h.size
  · rw [hobj]
    exact h.capacity
  · rw [hobj]
    exact h.inline

theorem Changes.inPlace (hshows : Shows W' i v') (haddress : v'.address = v.address)
    (hobj : ∀ j, j ≠ i → W'.obj j = W.obj j) (halive : W'.alive = W.alive)
    (hheap : ∀ a, v.address ≠ some a → W'.heap a = W.heap a) : Changes W W' i v v' := by
  refine ⟨hshows, hobj, halive, fun a ha _ => hheap a ha, fun a ha ha' => ?_, fun a ha ha' => ?_⟩
  · exact absurd (haddress.trans ha) ha'
  · exact absurd (haddress.symm.trans ha) ha'

theorem Changes.refl (h : Shows W i v) : Changes W W i v v :=
  .inPlace h rfl (fun _ _ => rfl) rfl fun _ _ => rfl

theorem Changes.trans (h : Changes W W' i v v') (h' : Changes W' W'' i v' v'') :
    Changes W W'' i v v'' := by
  refine ⟨h'.shows, fun j hj => (h'.obj j hj).trans (h.obj j hj), h'.alive.trans h.alive,
    fun a hv hv'' => ?_, fun a hv hv'' => ?_, fun a hv'' hv => ?_⟩
  · by_cases hv' : v'.address = some a
    · rw [h'.freed a hv' hv'', h.fresh a hv' hv]
    · rw [h'.same a hv' hv'', h.same a hv hv']
  · by_cases hv' : v'.address = some a
    · exact h'.freed a hv' hv''
    · rw [h'.same a hv' hv'', h.freed a hv hv']
  · by_cases hv' : v'.address = some a
    · exact h.fresh a hv' hv
    · rw [← h.same a hv hv']
      exact h'.fresh a hv'' hv'

section

variable (h : Shows W i v)
include h

theorem Shows.isLarge_none (hv : v.address = none) : L.isLarge (W.obj i) = false := by
  have haddress := h.address
  rw [hv, Layout.address] at haddress
  cases hlarge : L.isLarge (W.obj i) with
  | false => rfl
  | true =>
    rw [hlarge, if_pos rfl] at haddress
    cases haddress

theorem Shows.isLarge_some (hv : v.address = some a) :
    L.isLarge (W.obj i) = true ∧ L.largeData (W.obj i) = a := by
  have haddress := h.address
  rw [hv, Layout.address] at haddress
  cases hlarge : L.isLarge (W.obj i) with
  | false =>
    rw [hlarge, if_neg Bool.false_ne_true] at haddress
    cases haddress
  | true =>
    rw [hlarge, if_pos rfl] at haddress
    exact ⟨rfl, Option.some.inj haddress⟩

theorem Shows.exists_address (hlarge : L.isLarge (W.obj i) = true) : ∃ a, v.address = some a := by
  obtain hv | ha := eq_none_or_eq_some v.address
  · cases (h.isLarge_none hv).symm.trans hlarge
  · exact ha

theorem Shows.getData : getData W i = v.address.elim (.inline i 0) (.block · 0) := by
  cases hv : v.address with
  | none => rw [StringStorage.getData, h.isLarge_none hv, if_neg Bool.false_ne_true]; rfl
  | some a =>
    obtain ⟨hlarge, hdata⟩ := h.isLarge_some hv
    rw [StringStorage.getData, hlarge, if_pos rfl, hdata]
    rfl

theorem Shows.read :
    read W ((StringStorage.getData W i).add k) n = ArrayWrite.read v.cells k n := by
  rw [h.getData]
  cases hv : v.address with
  | none =>
    rw [h.inline hv, elim_none, Ptr.add, Nat.zero_add]
    rfl
  | some a =>
    rw [elim_some, Ptr.add, Nat.zero_add]
    exact BlockHeap.read_eq (h.block a hv)

end

end

theorem Shows.write (hL : L.Lawful) (h : Shows W i v)
    (hwrite : ArrayWrite.write v.cells k xs = some cells) :
    ∃ W', StringStorage.write W ((StringStorage.getData W i).add k) xs = some W' ∧
      Changes W W' i v { v with cells := cells } := by
  have hlength := ArrayWrite.length_write hwrite
  rw [h.getData]
  obtain hv | ⟨a, hv⟩ := eq_none_or_eq_some v.address
  · have hlarge := h.isLarge_none hv
    obtain ⟨hfits, hcells⟩ := ArrayWrite.write_eq_some.mp hwrite
    rw [h.inline hv, length_inlineCells] at hfits
    obtain ⟨hlarge', hsize⟩ := inline_storeUnits hL hlarge hfits
    have hobj : (W.setObj i (storeUnits w (W.obj i) k xs)).obj i =
        storeUnits w (W.obj i) k xs := Function.update_self i _ W.obj
    refine ⟨W.setObj i (storeUnits w (W.obj i) k xs), ?_,
      .inPlace ⟨?_, ?_, ?_, fun _ => ?_, ?_⟩ rfl (fun j hj => Function.update_of_ne hj _ _) rfl
        fun _ _ => rfl⟩
    · rw [hv, elim_none, Ptr.add, Nat.zero_add, StringStorage.write, if_pos hfits]
    · rw [hobj, Layout.address, hlarge', if_neg Bool.false_ne_true, hv]
    · rw [hobj, hsize, h.size]
    · rw [hobj, hL.capacity_inline _ hlarge', hlength, h.capacity, hL.capacity_inline _ hlarge]
    · rw [hobj, inlineCells_storeUnits hfits, ← h.inline hv, hcells]
    · intro a ha
      rw [hv] at ha
      cases ha
  · refine ⟨W.setHeap (W.heap.allocate a cells), ?_,
      .inPlace ⟨h.address, h.size, hlength.trans h.capacity, ?_, ?_⟩ rfl (fun _ _ => rfl) rfl ?_⟩
    · rw [hv, elim_some, Ptr.add, Nat.zero_add, StringStorage.write,
        BlockHeap.write_eq (h.block a hv) hwrite, map_some]
    · intro hnone
      rw [hv] at hnone
      cases hnone
    · intro b hb
      obtain rfl : a = b := Option.some.inj (hv.symm.trans hb)
      exact BlockHeap.allocate_self
    · intro b hb
      exact BlockHeap.allocate_of_ne fun hba => hb (hba ▸ hv)

theorem Shows.setSize (hL : L.Lawful) (h : Shows W i v) (hn : n < v.cells.length)
    (hmax : v.cells.length ≤ L.maxCapacity + 1) :
    Changes W (setSize W i n) i v { v with size := n } := by
  have hobj : (StringStorage.setSize W i n).obj i = L.setSize (W.obj i) n :=
    Function.update_self i _ W.obj
  refine .inPlace ?_ rfl (fun j hj => Function.update_of_ne hj _ _) rfl fun _ _ => rfl
  obtain hv | ⟨a, hv⟩ := eq_none_or_eq_some v.address
  · have hlarge := h.isLarge_none hv
    have hcapacity := h.capacity
    rw [hL.capacity_inline _ hlarge] at hcapacity
    obtain ⟨hlarge', hsize, hbytes⟩ := hL.setSize_inline (W.obj i) n hlarge (by omega)
    refine ⟨?_, ?_, ?_, fun _ => ?_, h.block⟩
    · rw [hobj, Layout.address, hlarge', if_neg Bool.false_ne_true, hv]
    · rw [hobj, hsize]
    · rw [hobj, hL.capacity_inline _ hlarge']
      exact hcapacity
    · rw [hobj, inlineCells_congr hbytes]
      exact h.inline hv
  · obtain ⟨hlarge, hdata⟩ := h.isLarge_some hv
    obtain ⟨hlarge', hsize, hdata', hcapacity⟩ := hL.setSize_large (W.obj i) n hlarge (by omega)
    refine ⟨?_, ?_, ?_, ?_, h.block⟩
    · rw [hobj, Layout.address, hlarge', if_pos rfl, hdata', hdata, hv]
    · rw [hobj, hsize]
    · rw [hobj, hcapacity]
      exact h.capacity
    · intro hnone
      rw [hv] at hnone
      cases hnone

theorem Shows.finish (hL : L.Lawful) (h : Shows W i v) (htake : v.cells.take cs.length = cs)
    (hlt : cs.length < v.cells.length) (hmax : v.cells.length ≤ L.maxCapacity + 1) :
    ∃ W' v', finish W i cs.length = .ok W' ∧ Changes W W' i v v' ∧ v'.Keeps L cs ∧
      v'.cells.length = v.cells.length ∧ v'.address = v.address := by
  have hsized := h.setSize hL hlt hmax
  obtain ⟨cells, hwrite, hlength, hholds⟩ :=
    ArrayWrite.terminate htake hlt
  obtain ⟨W', hW', hchanges⟩ := hsized.shows.write hL hwrite
  refine ⟨W', { v with cells := cells, size := cs.length }, ?_, hsized.trans hchanges,
    ⟨rfl, hholds, Nat.le_trans (Nat.le_of_eq hlength) hmax⟩, hlength, rfl⟩
  have hsize := hsized.shows.size
  rw [StringStorage.finish, terminate, hsize, hW']
  rfl

end Views

end Equilibrium.StringStorage
