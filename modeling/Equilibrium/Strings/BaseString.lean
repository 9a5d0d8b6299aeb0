import Equilibrium.Strings.StringStorage
import Equilibrium.Library.Interleaving
import Equilibrium.Strings.StringWorlds

/-! The string of `base/strings/base_string.h`, with a `size_type` of 64 bits. Its 24 bytes
hold the pointer, the size and the capacity of a heap buffer, or the characters of a short
string; the last byte is the flag with the size of a short string, and the top byte of the
capacity. -/

namespace Equilibrium.BaseString

open Library.ByteMemory StringStorage

section Representation

def kLargeFlag : ℕ := 0x80

def kSizeMax : ℕ := 2 ^ 64 - 1

def kSmallCapacity (w : ℕ) : ℕ := (24 - 1) / w - 1

def kCapacityFlagBit : ℕ := kLargeFlag <<< 56

def kCapacityFieldMax : ℕ := kSizeMax - kCapacityFlagBit

def kBufferBytesMax : ℕ := if kSizeMax < 2 ^ 63 - 1 then kSizeMax else 2 ^ 63 - 1

def kCharCountMax (w : ℕ) : ℕ := kBufferBytesMax / w - 1

def kMaxCapacity (w : ℕ) : ℕ :=
  if kCapacityFieldMax < kCharCountMax w then kCapacityFieldMax else kCharCountMax w

def flagByte (m : Bytes) : ℕ := (m 23).toNat

def setFlagByte (m : Bytes) (n : ℕ) : Bytes := Function.update m 23 (UInt8.ofNat n)

def isLarge (m : Bytes) : Bool := flagByte m &&& kLargeFlag ≠ 0

def getSize (m : Bytes) : ℕ :=
  if isLarge m then load m 8 8 else flagByte m &&& (kSizeMax - kLargeFlag)

def getCapacity (w : ℕ) (m : Bytes) : ℕ :=
  if isLarge m then load m 8 16 &&& (kSizeMax - kCapacityFlagBit) else kSmallCapacity w

def setSize (m : Bytes) (n : ℕ) : Bytes :=
  if isLarge m then store m 8 8 n else setFlagByte m (n &&& (kSizeMax - kLargeFlag))

def setLarge (m : Bytes) (data size capacity : ℕ) : Bytes :=
  let m := store (store (store m 8 0 data) 8 8 size) 8 16 capacity
  setFlagByte m (flagByte m ||| kLargeFlag)

def initEmpty (w : ℕ) (m : Bytes) : Bytes := store (setFlagByte (store m 8 8 0) 0) w 0 0

def layout (w : ℕ) : Layout w where
  sizeMax := kSizeMax
  inlineCapacity := kSmallCapacity w
  maxCapacity := kMaxCapacity w
  isLarge := isLarge
  largeData := (load · 8 0)
  getSize := getSize
  getCapacity := getCapacity w
  setSize := setSize
  setLarge := setLarge
  initEmpty := initEmpty w

end Representation

section Operations

variable {ι : Type} [DecidableEq ι] {w : ℕ} (fresh : Fresh w) (W : World ι (layout w))
  (i j : ι)

def growCapacity (w required : ℕ) : ℕ :=
  if required ≥ kMaxCapacity w then required
  else
    let headroom := kMaxCapacity w - required
    let extra := required / 2
    required + (if extra < headroom then extra else headroom)

def reallocTo (targetCapacity : ℕ) : Except Halt (World ι (layout w)) :=
  if targetCapacity ≥ getSize (W.obj i) then reallocate fresh W i targetCapacity
  else .error .fault

def growToAtLeast (minCapacity : ℕ) : Except Halt (World ι (layout w)) :=
  if minCapacity > getCapacity w (W.obj i) then
    reallocTo fresh W i (growCapacity w minCapacity)
  else .ok W

def construct : World ι (layout w) :=
  (W.setObj i (initEmpty w (W.obj i))).setAlive i true

def clear : Except Halt (World ι (layout w)) := do
  let W ← deallocateLarge W i
  return W.setObj i (initEmpty w (W.obj i))

def destroy : Except Halt (World ι (layout w)) := do
  let W ← deallocateLarge W i
  return W.setAlive i false

def assign (str : Ptr ι w) (len : ℕ) : Except Halt (World ι (layout w)) :=
  if str.isNull ∨ len = 0 then clear W i
  else if len > getCapacity w (W.obj i) then do
    let W ← allocateBuffer fresh W len
    let W ← memCopy W (.block fresh.address 0) str len
    let W ← check (write W (.block fresh.address len) [0])
    let W ← deallocateLarge W i
    return StringStorage.setLarge W i fresh.address len len
  else do
    let W ← memMove W (getData W i) str len
    finish W i len

def assignCStr (str : Ptr ι w) : Except Halt (World ι (layout w)) := do
  let length ← countStringLength W str
  assign fresh W i str length

/-- The constructor from another string. -/
def constructCopy : Except Halt (World ι (layout w)) :=
  let W := construct W i
  if isLarge (W.obj j) then
    assign fresh W i (.block (load (W.obj j) 8 0) 0) (load (W.obj j) 8 8)
  else .ok (W.setObj i (W.obj j))

def constructMove : World ι (layout w) :=
  let W := (W.setObj i (W.obj j)).setAlive i true
  W.setObj j (initEmpty w (W.obj j))

def assignCopy : Except Halt (World ι (layout w)) :=
  if i ≠ j then assign fresh W i (getData W j) (getSize (W.obj j)) else .ok W

def assignMove : Except Halt (World ι (layout w)) :=
  if i ≠ j then do
    let W ← deallocateLarge W i
    let W := W.setObj i (W.obj j)
    return W.setObj j (initEmpty w (W.obj j))
  else .ok W

def reserve (newCapacity : ℕ) : Except Halt (World ι (layout w)) :=
  if newCapacity > getCapacity w (W.obj i) then reallocTo fresh W i newCapacity else .ok W

def shrinkToFit : Except Halt (World ι (layout w)) :=
  let size := getSize (W.obj i)
  if ¬ isLarge (W.obj i) ∨ size = getCapacity w (W.obj i) then .ok W
  else if size ≤ kSmallCapacity w then do
    let oldData := load (W.obj i) 8 0
    let oldCapacity := getCapacity w (W.obj i)
    let buf ← check (if size > 0 then read W (.block oldData 0) size else some [])
    let W := W.setObj i (initEmpty w (W.obj i))
    let W ← check (write W (.inline i 0) buf)
    let W := W.setObj i (setFlagByte (W.obj i) (size &&& (kSizeMax - kLargeFlag)))
    let W ← terminate W i
    freeBuffer W oldData (bufferByteSize w oldCapacity)
  else do
    let W ← allocateBuffer fresh W size
    let W ← memCopy W (.block fresh.address 0) (.block (load (W.obj i) 8 0) 0) size
    let W ← check (write W (.block fresh.address size) [0])
    let W ← deallocateLarge W i
    return StringStorage.setLarge W i fresh.address size size

def append (str : Ptr ι w) (count : ℕ) : Except Halt (World ι (layout w)) :=
  if count = 0 then .ok W
  else do
    let oldSize := getSize (W.obj i)
    let newSize ← checkedLengthSum (layout w) oldSize count
    if newSize > getCapacity w (W.obj i) then do
      let newCapacity := growCapacity w newSize
      let W ← allocateBuffer fresh W newCapacity
      let W ← (if oldSize > 0 then
        memCopy W (.block fresh.address 0) (getData W i) oldSize else .ok W)
      let W ← memCopy W (.block fresh.address oldSize) str count
      let W ← check (write W (.block fresh.address newSize) [0])
      let W ← deallocateLarge W i
      return StringStorage.setLarge W i fresh.address newSize newCapacity
    else do
      let W ← memCopy W ((getData W i).add oldSize) str count
      finish W i newSize

def appendCStr (str : Ptr ι w) : Except Halt (World ι (layout w)) := do
  let length ← countStringLength W str
  append fresh W i str length

/-- `count` copies of `c`. -/
def appendFill (count : ℕ) (c : TChar w) : Except Halt (World ι (layout w)) :=
  if count = 0 then .ok W
  else do
    let oldSize := getSize (W.obj i)
    let newSize ← checkedLengthSum (layout w) oldSize count
    let W ← growToAtLeast fresh W i newSize
    let W ← check (write W ((getData W i).add oldSize) (List.replicate count c))
    finish W i newSize

def popBack : Except Halt (World ι (layout w)) :=
  if getSize (W.obj i) ≠ 0 then finish W i (getSize (W.obj i) - 1) else .error .fault

def fill (count : ℕ) (c : TChar w) : Except Halt (World ι (layout w)) :=
  StringStorage.fill (growToAtLeast fresh · i ·) W i count c

def resize (newSize : ℕ) : Except Halt (World ι (layout w)) :=
  StringStorage.resize (growToAtLeast fresh · i ·) W i newSize

def pushBack (c : TChar w) : Except Halt (World ι (layout w)) :=
  StringStorage.pushBack (fun W newSize =>
    if getSize (W.obj i) = getCapacity w (W.obj i) then growToAtLeast fresh W i newSize
    else .ok W) W i c

def insert (pos count : ℕ) (c : TChar w) : Except Halt (World ι (layout w)) :=
  StringStorage.insert (growToAtLeast fresh · i ·) W i pos count c

end Operations

inductive Op (ι : Type) (w : ℕ) where
  | construct (i : ι)
  | constructFill (i : ι) (count : ℕ) (c : TChar w)
  | constructCopy (i j : ι)
  | constructMove (i j : ι)
  | destroy (i : ι)
  | assign (i : ι) (src : Source ι w) (len : ℕ)
  | assignCStr (i : ι) (src : Source ι w)
  | assignCopy (i j : ι)
  | assignMove (i j : ι)
  | append (i : ι) (src : Source ι w) (count : ℕ)
  | appendCStr (i : ι) (src : Source ι w)
  | appendFill (i : ι) (count : ℕ) (c : TChar w)
  | pushBack (i : ι) (c : TChar w)
  | popBack (i : ι)
  | insert (i : ι) (pos count : ℕ) (c : TChar w)
  | erase (i : ι) (pos count : ℕ)
  | removeSuffix (i : ι) (n : ℕ)
  | reserve (i : ι) (newCapacity : ℕ)
  | resize (i : ι) (newSize : ℕ)
  | clear (i : ι)
  | shrinkToFit (i : ι)

/-- An operation, and what the allocator returns if the operation asks it. -/
structure Act (ι : Type) (w : ℕ) where
  op : Op ι w
  fresh : Fresh w

section Machine

variable {ι : Type} [DecidableEq ι] {w : ℕ}

/-- The other constructors are `construct` and the operation that they call. -/
def step (W : World ι (layout w)) (a : Act ι w) :
    Except Halt (World ι (layout w)) :=
  match a.op with
  | .construct i => .ok (construct W i)
  | .constructFill i count c => fill a.fresh (construct W i) i count c
  | .constructCopy i j => constructCopy a.fresh W i j
  | .constructMove i j => .ok (constructMove W i j)
  | .destroy i => destroy W i
  | .assign i src len => assign a.fresh W i (src.ptr W) len
  | .assignCStr i src => assignCStr a.fresh W i (src.ptr W)
  | .assignCopy i j => assignCopy a.fresh W i j
  | .assignMove i j => assignMove W i j
  | .append i src count => append a.fresh W i (src.ptr W) count
  | .appendCStr i src => appendCStr a.fresh W i (src.ptr W)
  | .appendFill i count c => appendFill a.fresh W i count c
  | .pushBack i c => pushBack a.fresh W i c
  | .popBack i => popBack W i
  | .insert i pos count c => insert a.fresh W i pos count c
  | .erase i pos count => erase W i pos count
  | .removeSuffix i n => removeSuffix W i n
  | .reserve i newCapacity => reserve a.fresh W i newCapacity
  | .resize i newSize => resize a.fresh W i newSize
  | .clear i => clear W i
  | .shrinkToFit i => shrinkToFit a.fresh W i

def machine (ι : Type) (w : ℕ) [DecidableEq ι] (bytes : ι → Bytes) :
    Library.Interleaving.Machine (World ι (layout w)) (Act ι w) where
  init := ⟨bytes, fun _ => false, fun _ => none⟩
  step W a := (step W a).toOption

end Machine

/-! The flag byte of a string does not meet its inline characters, and the top bit of the
capacity is free for the flag. -/

variable {m : Bytes} {w n k c data size capacity : ℕ}

theorem flag_iff : ∀ b < 256, (b &&& kLargeFlag ≠ 0 ↔ 128 ≤ b) := by decide +kernel

theorem and_not_flag : ∀ b < 128, b &&& (kSizeMax - kLargeFlag) = b := by decide +kernel

theorem or_flag : ∀ b < 128, b ||| kLargeFlag = b + 128 := by decide +kernel

theorem isLarge_iff : isLarge m = true ↔ 128 ≤ flagByte m := by
  rw [isLarge, decide_eq_true_eq]
  exact flag_iff _ (m 23).toNat_lt

theorem isLarge_eq_false : isLarge m = false ↔ flagByte m < 128 := by
  rw [← Bool.not_eq_true, isLarge_iff, Nat.not_le]

theorem flagByte_setFlagByte (hn : n < 256) : flagByte (setFlagByte m n) = n := by
  rw [flagByte, setFlagByte, Function.update_self, UInt8.toNat_ofNat', Nat.mod_eq_of_lt hn]

theorem setFlagByte_of_ne {b : ℕ} (hb : b ≠ 23) : setFlagByte m n b = m b :=
  Function.update_of_ne hb _ m

theorem load_setFlagByte {a : ℕ} (h : a + k ≤ 23) : load (setFlagByte m n) k a = load m k a :=
  load_congr fun b _ hb => setFlagByte_of_ne (by omega)

theorem flagByte_congr {m' : Bytes} (h : m' 23 = m 23) : flagByte m' = flagByte m := by
  rw [flagByte, flagByte, h]

theorem flagByte_store {a : ℕ} (h : a + k ≤ 23) : flagByte (store m k a n) = flagByte m :=
  flagByte_congr (store_of_outside (by omega))

theorem load_capacity (m : Bytes) : load m 8 16 = load m 7 16 + 2 ^ 56 * flagByte m := by
  simp only [load, flagByte, Nat.reduceAdd]
  omega

theorem kMaxCapacity_lt (w : ℕ) : kMaxCapacity w < 2 ^ 63 := by
  unfold kMaxCapacity kCapacityFieldMax kSizeMax kCapacityFlagBit kLargeFlag
  split <;> omega

theorem kMaxCapacity_eq (w : ℕ) : kMaxCapacity w = (2 ^ 63 - 1) / w - 1 := by
  have hle : (2 ^ 63 - 1) / w ≤ 2 ^ 63 - 1 := Nat.div_le_self _ _
  have hbytes : kBufferBytesMax = 2 ^ 63 - 1 := by
    unfold kBufferBytesMax kSizeMax
    rw [if_neg (by omega)]
  have hchars : kCharCountMax w = (2 ^ 63 - 1) / w - 1 := by rw [kCharCountMax, hbytes]
  have hfield : kCapacityFieldMax = 2 ^ 63 - 1 := rfl
  rw [kMaxCapacity, hchars, hfield, if_neg (by omega)]

theorem kSmallCapacity_eq (w : ℕ) : kSmallCapacity w = 23 / w - 1 := rfl

theorem inline_bound (hw : w ≤ 23) (hk : k ≤ kSmallCapacity w) : w * k + w ≤ 23 := by
  rw [kSmallCapacity_eq] at hk
  obtain rfl | hpos := Nat.eq_zero_or_pos w
  · omega
  · have hone : 1 ≤ 23 / w := (Nat.one_le_div_iff hpos).mpr hw
    have hmul : w * (k + 1) ≤ w * (23 / w) := Nat.mul_le_mul_left w (by omega)
    have hdiv := Nat.mul_div_le 23 w
    rw [Nat.mul_add_one] at hmul
    omega

theorem kSmallCapacity_lt (w : ℕ) : kSmallCapacity w < 23 := by
  have hle : 23 / w ≤ 23 := Nat.div_le_self _ _
  rw [kSmallCapacity_eq]
  omega

theorem setLarge_spec (hdata : data < 2 ^ 64) (hsize : size ≤ capacity)
    (hcapacity : capacity < 2 ^ 63) : isLarge (setLarge m data size capacity) = true ∧
      load (setLarge m data size capacity) 8 0 = data ∧
      load (setLarge m data size capacity) 8 8 = size ∧
      load (setLarge m data size capacity) 8 16 = capacity + 2 ^ 63 := by
  have hstored : load (store (store (store m 8 0 data) 8 8 size) 8 16 capacity) 8 16 = capacity :=
    load_store (by omega)
  rw [load_capacity] at hstored
  have hflag : flagByte (setLarge m data size capacity) =
      flagByte (store (store (store m 8 0 data) 8 8 size) 8 16 capacity) + 128 := by
    rw [setLarge, flagByte_setFlagByte, or_flag _ (by omega)]
    rw [or_flag _ (by omega)]
    omega
  refine ⟨?_, ?_, ?_, ?_⟩
  · rw [isLarge_iff, hflag]
    omega
  · rw [setLarge, load_setFlagByte (by omega), load_store_of_disjoint (by omega),
      load_store_of_disjoint (by omega), load_store (by omega)]
  · rw [setLarge, load_setFlagByte (by omega), load_store_of_disjoint (by omega),
      load_store (by omega)]
  · rw [load_capacity, hflag, setLarge, load_setFlagByte (by omega)]
    omega

theorem mask_capacity (hcapacity : capacity < 2 ^ 63) :
    (capacity + 2 ^ 63) &&& (kSizeMax - kCapacityFlagBit) = capacity := by
  have hmask : kSizeMax - kCapacityFlagBit = 2 ^ 63 - 1 := rfl
  rw [hmask, Nat.and_two_pow_sub_one_eq_mod]
  omega

theorem lawful (hpos : 0 < w) (hw : w ≤ 23) : (layout w).Lawful := by
  have hmax := kMaxCapacity_lt w
  have hsmall := kSmallCapacity_lt w
  constructor
  case width_pos => exact hpos
  case bytes_lt =>
    have hone : 1 ≤ (2 ^ 63 - 1) / w := (Nat.one_le_div_iff hpos).mpr (by omega)
    have hmul := Nat.div_mul_le_self (2 ^ 63 - 1) w
    have hcapacity : (kMaxCapacity w + 1) * w = (2 ^ 63 - 1) / w * w := by
      rw [kMaxCapacity_eq, Nat.sub_add_cancel hone]
    exact (by omega : (kMaxCapacity w + 1) * w < 2 ^ 64)
  case max_le => exact (by omega : kMaxCapacity w ≤ 2 ^ 64 - 1)
  case inline_le =>
    have hdiv : 23 / w ≤ (2 ^ 63 - 1) / w := Nat.div_le_div_right (by decide)
    have hle : kSmallCapacity w ≤ kMaxCapacity w := by
      rw [kMaxCapacity_eq, kSmallCapacity_eq]
      omega
    exact hle
  case capacity_inline =>
    intro m hm
    exact if_neg (Bool.eq_false_iff.mp hm)
  case store_inline =>
    intro m k c hm hk
    have hbound := inline_bound hw hk
    have hflag : flagByte (store m w (w * k) c) = flagByte m := flagByte_store hbound
    have hlarge : isLarge (store m w (w * k) c) = isLarge m := by
      rw [isLarge, isLarge, hflag]
    refine ⟨hlarge.trans hm, ?_⟩
    have hm : isLarge m = false := hm
    have hsize : getSize (store m w (w * k) c) = getSize m := by
      rw [getSize, getSize, hlarge, hm, hflag, if_neg Bool.false_ne_true,
        if_neg Bool.false_ne_true]
    exact hsize
  case setSize_inline =>
    intro m n hm hn
    have hm : isLarge m = false := hm
    have hn : n ≤ kSmallCapacity w := hn
    have hset : setSize m n = setFlagByte m n := by
      rw [setSize, hm, if_neg Bool.false_ne_true, and_not_flag n (by omega)]
    have hflag : flagByte (setSize m n) = n := by
      rw [hset, flagByte_setFlagByte (by omega)]
    have hlarge : isLarge (setSize m n) = false := by
      rw [isLarge_eq_false, hflag]
      omega
    refine ⟨hlarge, ?_, fun b hb => ?_⟩
    · have hsize : getSize (setSize m n) = n := by
        rw [getSize, hlarge, if_neg Bool.false_ne_true, hflag, and_not_flag n (by omega)]
      exact hsize
    · have hb : b < w * (kSmallCapacity w + 1) := hb
      have hbound := inline_bound hw (Nat.le_refl (kSmallCapacity w))
      rw [Nat.mul_add_one] at hb
      have hbyte : setSize m n b = m b := by
        rw [hset, setFlagByte_of_ne (by omega)]
      exact hbyte
  case setSize_large =>
    intro m n hm hn
    have hm : isLarge m = true := hm
    have hn : n ≤ kMaxCapacity w := hn
    have hset : setSize m n = store m 8 8 n := by
      rw [setSize, hm, if_pos rfl]
    have hflag : flagByte (setSize m n) = flagByte m := by
      rw [hset, flagByte_store (by omega)]
    have hlarge : isLarge (setSize m n) = true := by
      rw [isLarge_iff, hflag, ← isLarge_iff, hm]
    have hsize : getSize (setSize m n) = n := by
      rw [getSize, hlarge, if_pos rfl, hset, load_store (by omega)]
    have hdata : load (setSize m n) 8 0 = load m 8 0 := by
      rw [hset, load_store_of_disjoint (by omega)]
    have hcapacity : getCapacity w (setSize m n) = getCapacity w m := by
      rw [getCapacity, getCapacity, hlarge, hm, if_pos rfl, if_pos rfl, hset,
        load_store_of_disjoint (by omega)]
    exact ⟨hlarge, hsize, hdata, hcapacity⟩
  case setLarge =>
    intro m data size capacity hdata hsize hcapacity
    have hcapacity : capacity ≤ kMaxCapacity w := hcapacity
    obtain ⟨hlarge, hload, hloadsize, hloadcapacity⟩ :=
      setLarge_spec hdata hsize (by omega)
    have hgetsize : getSize (setLarge m data size capacity) = size := by
      rw [getSize, hlarge, if_pos rfl, hloadsize]
    have hgetcapacity : getCapacity w (setLarge m data size capacity) = capacity := by
      rw [getCapacity, hlarge, if_pos rfl, hloadcapacity, mask_capacity (by omega)]
    exact ⟨hlarge, hload, hgetsize, hgetcapacity⟩
  case initEmpty =>
    intro m
    have hflag : flagByte (initEmpty w m) = 0 := by
      rw [initEmpty, flagByte_store (by omega), flagByte_setFlagByte (by omega)]
    have hlarge : isLarge (initEmpty w m) = false := by
      rw [isLarge_eq_false, hflag]
      omega
    have hsize : getSize (initEmpty w m) = 0 := by
      rw [getSize, hlarge, if_neg Bool.false_ne_true, hflag, Nat.zero_and]
    have hnul : load (initEmpty w m) w 0 = 0 := load_store (Nat.pow_pos (by decide))
    exact ⟨hlarge, hsize, hnul⟩

/-! What the operations of `BasicBaseString` do to the view of a string. -/

open Library ArrayWrite List
open Library.ArrayWrite (Holds)

variable {ι : Type} [DecidableEq ι] {w : ℕ} {W W' : World ι (layout w)} {i j : ι}
  {v v' : View w} {cs xs : List (TChar w)} {n : ℕ}
  {p : Ptr ι w} {fresh : Fresh w} {c : TChar w}
  {strings : ι → Option (List (TChar w))}

theorem growCapacity_cases (w n : ℕ) : n ≤ growCapacity w n ∧
    (kMaxCapacity w < growCapacity w n → kMaxCapacity w < n) := by
  unfold growCapacity
  split
  case isTrue => exact ⟨Nat.le_refl n, id⟩
  case isFalse h =>
    simp only
    split <;> omega

section Modifiers

variable (hL : (layout w).Lawful) (h : Shows W i v) (hkeeps : v.Keeps (layout w) cs)

include hL h hkeeps

theorem clear_yields (reason : Prop) : Yields (clear W i) W i v [] reason := by
  obtain ⟨W₁, v', hW₁, hobj, hchanges, hkeeps'⟩ := h.clear hL hkeeps
  refine .inr ⟨_, v', ?_, hchanges, hkeeps'⟩
  unfold clear
  simp only [bind, Except.bind, hW₁, pure, Except.pure, hobj]
  rfl

theorem popBack_yields (hne : cs ≠ []) (reason : Prop) :
    Yields (popBack W i) W i v cs.dropLast reason := by
  have hsize : getSize (W.obj i) = cs.length := h.size.trans hkeeps.size
  have hpos := length_pos_iff.mpr hne
  have hyields := removeSuffix_yields hL h hkeeps hpos reason
  rw [← dropLast_eq_take] at hyields
  have hremove : popBack W i = removeSuffix W i 1 := by
    have hsize' : (layout w).getSize (W.obj i) = cs.length := hsize
    rw [popBack, removeSuffix, hsize, hsize', if_pos (Nat.ne_of_gt hpos),
      if_pos (show 1 ≤ cs.length from hpos)]
  rw [hremove]
  exact hyields

variable (hvalid : fresh.Valid W)

include hvalid

theorem reallocTo_grows (hle : cs.length ≤ n) : Grows (reallocTo fresh W i n) W i v cs fresh n := by
  have hsize : getSize (W.obj i) = cs.length := h.size.trans hkeeps.size
  unfold reallocTo
  rw [hsize, if_pos hle]
  obtain hfatal | ⟨W', v', hW', hchanges, hkeeps', hlength⟩ :=
    reallocate_spec hL h hkeeps hvalid hle
  · exact .inl hfatal
  · exact .inr ⟨W', v', hW', hchanges, hkeeps', hlength ▸ Nat.lt_succ_self n⟩

theorem growToAtLeast_grows : Grows (growToAtLeast fresh W i n) W i v cs fresh n := by
  have hcapacity : v.cells.length = getCapacity w (W.obj i) + 1 := h.capacity
  have hlt := hkeeps.holds.length_lt
  obtain ⟨hle, hmax⟩ := growCapacity_cases w n
  unfold growToAtLeast
  by_cases hn : n > getCapacity w (W.obj i)
  · rw [if_pos hn]
    obtain ⟨hfatal, hshort⟩ | ⟨W', v', hW', hchanges, hkeeps', hroom⟩ :=
      reallocTo_grows hL h hkeeps hvalid (show cs.length ≤ growCapacity w n by omega)
    · exact .inl ⟨hfatal, hshort.imp hmax id⟩
    · exact .inr ⟨W', v', hW', hchanges, hkeeps', by omega⟩
  · rw [if_neg hn]
    exact .inr ⟨W, v, rfl, .refl h, hkeeps, by omega⟩

/-- The source may lie in the storage that is written to, or freed. -/
theorem assign_yields (hread : (p.isNull = true ∧ xs = []) ∨ read W p n = some xs) :
    Yields (assign fresh W i p n) W i v xs (Short (layout w) fresh n) := by
  have hcapacity : v.cells.length = getCapacity w (W.obj i) + 1 := h.capacity
  unfold assign
  by_cases hnil : p.isNull = true ∨ n = 0
  · rw [if_pos hnil, nil_of_read hnil hread]
    exact clear_yields hL h hkeeps _
  · rw [if_neg hnil]
    have hread : read W p n = some xs := hread.resolve_left fun hnull => hnil (.inl hnull.1)
    obtain rfl := length_of_read hread
    by_cases hn : xs.length > getCapacity w (W.obj i)
    · rw [if_pos hn]
      exact h.replace_yields (fun _ => p) hL hkeeps hvalid hread rfl fun _ => rfl
    · rw [if_neg hn]
      have hyields := h.write_yields xs hL hkeeps (Nat.zero_le _) (by omega)
        (Short (layout w) fresh xs.length)
      rw [Ptr.add_zero, Nat.zero_add] at hyields
      simp only [memMove, hread, Option.bind_some]
      exact hyields

theorem append_yields (hread : read W p n = some xs) (hn : n ≤ kSizeMax)
    (hover : Ptr.overlaps n ((getData W i).add cs.length) p = false) :
    Yields (append fresh W i p n) W i v (cs ++ xs) (Short (layout w) fresh (cs.length + n)) := by
  have hcapacity : v.cells.length = getCapacity w (W.obj i) + 1 := h.capacity
  have hsize : getSize (W.obj i) = cs.length := h.size.trans hkeeps.size
  have hlt := hkeeps.holds.length_lt
  obtain rfl := length_of_read hread
  unfold append
  by_cases hzero : xs.length = 0
  · rw [if_pos hzero, length_eq_zero_iff.mp hzero, append_nil]
    exact .inr ⟨W, v, rfl, .refl h, hkeeps⟩
  rw [if_neg hzero]
  simp only [hsize]
  refine .checkedLengthSum hL hn ?_
  by_cases hgrow : cs.length + xs.length > getCapacity w (W.obj i)
  · rw [if_pos hgrow]
    obtain ⟨hle, hmax⟩ := growCapacity_cases w (cs.length + xs.length)
    obtain ⟨hfatal, hshort⟩ | ⟨hlimit, hne, cells, hlength, hallocate⟩ :=
      allocateBuffer_cases hL fresh W (growCapacity w (cs.length + xs.length))
    · rw [hfatal]
      exact .inl ⟨rfl, hshort.imp hmax id⟩
    obtain ⟨ha, haddress⟩ := hvalid hne
    obtain ⟨cells₁, hwrite₁⟩ := exists_write (show 0 + cs.length ≤ cells.length by omega)
    have hlength₁ := length_write hwrite₁
    have htake₁ := take_write hwrite₁
    rw [Nat.zero_add, take_zero, nil_append] at htake₁
    obtain ⟨cells₂, hwrite₂⟩ := exists_write
      (show cs.length + xs.length ≤ cells₁.length by omega)
    have hlength₂ := length_write hwrite₂
    have htake₂ := take_write hwrite₂
    rw [htake₁, ← length_append] at htake₂
    obtain ⟨cells₃, hwrite₃, hlength₃, hholds⟩ := terminate
      htake₂ (by rw [length_append]; omega)
    rw [length_append] at hwrite₃
    have hdata : getData (withBlock W fresh.address cells) i = getData W i := rfl
    obtain ⟨W₁, hW₁, hchanges, hkeeps'⟩ := h.replace_keeps hL hkeeps.length_le ha haddress
      (by omega : cells₃.length = growCapacity w (cs.length + xs.length) + 1) hlimit hholds
    rw [length_append] at hchanges hkeeps'
    refine .inr ⟨_, _, ?_, hchanges, hkeeps'⟩
    rw [hallocate]
    simp only [bind, Except.bind, hdata, copy_withBlock ha (h.read_all hkeeps) hwrite₁,
      memCopy_withBlock ha hread hwrite₂, write_withBlock hwrite₃, check, hW₁, pure, Except.pure]
  · rw [if_neg hgrow, memCopy, hover, if_neg Bool.false_ne_true]
    have hyields := h.write_yields xs hL hkeeps (Nat.le_refl _) (by omega)
      (Short (layout w) fresh (cs.length + xs.length))
    rw [take_length] at hyields
    simp only [memMove, hread, Option.bind_some]
    exact hyields

theorem appendFill_yields (hn : n ≤ kSizeMax) :
    Yields (appendFill fresh W i n c) W i v (cs ++ replicate n c)
      (Short (layout w) fresh (cs.length + n)) := by
  have hsize : getSize (W.obj i) = cs.length := h.size.trans hkeeps.size
  unfold appendFill
  by_cases hzero : n = 0
  · rw [if_pos hzero, hzero, replicate_zero, append_nil]
    exact .inr ⟨W, v, rfl, .refl h, hkeeps⟩
  rw [if_neg hzero]
  simp only [hsize]
  refine .checkedLengthSum hL hn ((growToAtLeast_grows hL h hkeeps hvalid).bind
    fun W₁ v₁ hchanges hkeeps₁ hroom => ?_)
  have hyields := hchanges.shows.write_yields (replicate n c) hL hkeeps₁ (Nat.le_refl _)
    (by rwa [length_replicate]) (Short (layout w) fresh (cs.length + n))
  rwa [length_replicate, take_length] at hyields

theorem pushBack_yields : Yields (pushBack fresh W i c) W i v (cs ++ [c])
    (Short (layout w) fresh (cs.length + 1)) := by
  have hsize : getSize (W.obj i) = cs.length := h.size.trans hkeeps.size
  have hcapacity : v.cells.length = getCapacity w (W.obj i) + 1 := h.capacity
  have hlt := hkeeps.holds.length_lt
  refine StringStorage.pushBack_yields _ hL ?_ h hkeeps (by exact (by decide : 1 ≤ kSizeMax))
  by_cases hfull : getSize (W.obj i) = getCapacity w (W.obj i)
  · rw [if_pos hfull]
    exact growToAtLeast_grows hL h hkeeps hvalid
  · rw [if_neg hfull]
    exact .inr ⟨W, v, rfl, .refl h, hkeeps, by omega⟩

theorem reserve_yields : Yields (reserve fresh W i n) W i v cs (Short (layout w) fresh n) := by
  have hcapacity : v.cells.length = getCapacity w (W.obj i) + 1 := h.capacity
  have hlt := hkeeps.holds.length_lt
  unfold reserve
  by_cases hn : n > getCapacity w (W.obj i)
  · rw [if_pos hn]
    exact (reallocTo_grows hL h hkeeps hvalid (by omega)).yields
  · rw [if_neg hn]
    exact .inr ⟨W, v, rfl, .refl h, hkeeps⟩

theorem shrinkToFit_yields :
    Yields (shrinkToFit fresh W i) W i v cs (Short (layout w) fresh cs.length) := by
  have hcapacity : v.cells.length = getCapacity w (W.obj i) + 1 := h.capacity
  have hsize : getSize (W.obj i) = cs.length := h.size.trans hkeeps.size
  have hlt := hkeeps.holds.length_lt
  have hmax := hkeeps.length_le
  unfold shrinkToFit
  simp only [hsize]
  by_cases hkeep : ¬ isLarge (W.obj i) = true ∨ cs.length = getCapacity w (W.obj i)
  · rw [if_pos hkeep]
    exact .inr ⟨W, v, rfl, .refl h, hkeeps⟩
  rw [if_neg hkeep]
  obtain ⟨hlarge, hne⟩ := not_or.mp hkeep
  obtain ⟨a, ha⟩ := h.exists_address (not_not.mp hlarge)
  have hdata : load (W.obj i) 8 0 = a := (h.isLarge_some ha).2
  have hown := h.read_block hkeeps ha
  by_cases hsmall : cs.length ≤ kSmallCapacity w
  · -- the characters go back into the object, and the buffer is freed last
    rw [if_pos hsmall, hdata]
    have hbuf : (if cs.length > 0 then StringStorage.read W (.block a 0) cs.length
        else some []) = some cs := by
      by_cases hpos : cs.length > 0
      · rw [if_pos hpos, hown]
      · rw [if_neg hpos, length_eq_zero_iff.mp (Nat.eq_zero_of_not_pos hpos)]
    have hobj : (W.setObj i (initEmpty w (W.obj i))).obj i = (layout w).initEmpty (W.obj i) :=
      Function.update_self i _ W.obj
    obtain ⟨hshows₁, hkeeps₁⟩ := shows_initEmpty hL hobj
    have hlength := length_inlineCells (layout w) ((layout w).initEmpty (W.obj i))
    have hinline : (layout w).inlineCapacity = kSmallCapacity w := rfl
    obtain ⟨cells, hwrite⟩ := exists_write
      (show 0 + cs.length ≤ (inlineCells (layout w) ((layout w).initEmpty (W.obj i))).length by
        omega)
    obtain ⟨W₂, hW₂, hchanges₂⟩ := hshows₁.write hL hwrite
    have htake := take_write hwrite
    rw [Nat.zero_add, take_zero, nil_append] at htake
    have hcells := length_write hwrite
    obtain ⟨W₃, v₃, hW₃, hchanges₃, hkeeps₃, -, hnone⟩ := hchanges₂.shows.finish hL htake
      (by exact (by omega : cs.length < cells.length))
      (by exact (hcells ▸ hkeeps₁.length_le))
    have hptr : (getData (W.setObj i (initEmpty w (W.obj i))) i).add 0 = .inline i 0 := by
      rw [hshows₁.getData]
      rfl
    rw [hptr] at hW₂
    have hflag : W₂.setObj i (setFlagByte (W₂.obj i) (cs.length &&& (kSizeMax - kLargeFlag))) =
        StringStorage.setSize W₂ i cs.length := by
      have hsmall₂ : isLarge (W₂.obj i) = false := hchanges₂.shows.isLarge_none rfl
      have hset : setSize (W₂.obj i) cs.length =
          setFlagByte (W₂.obj i) (cs.length &&& (kSizeMax - kLargeFlag)) := by
        rw [setSize, hsmall₂, if_neg Bool.false_ne_true]
      rw [← hset]
      rfl
    obtain ⟨W₄, hfree, hchanges⟩ :=
      h.freeOld hL hmax ha (hchanges₂.trans hchanges₃) rfl hnone
    refine .inr ⟨W₄, v₃, ?_, hchanges, hkeeps₃⟩
    simp only [hbuf, check, bind, Except.bind, hW₂, hflag]
    rw [finish] at hW₃
    rw [hW₃]
    exact hfree
  · rw [if_neg hsmall]
    exact h.replace_yields (fun W => .block (load (W.obj i) 8 0) 0) hL hkeeps hvalid hown rfl
      fun _ => congrArg (Ptr.block · 0) hdata

end Modifiers

end Equilibrium.BaseString
