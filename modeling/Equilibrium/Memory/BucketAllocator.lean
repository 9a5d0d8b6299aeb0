import Equilibrium.Library.ByteMemory
import Equilibrium.Memory.PageTable

/-! The slab allocator of `base/allocator/eq_alloc/bucket_allocator.h` and `.cc`. A call
runs under the lock of its size class and is one step. Slots and headers are bytes of one
memory. A call that reaches past an array, or through a pointer to memory that no page
backs, gives `none`. -/

namespace Equilibrium.BucketAllocator

open Library.ByteMemory

def kNumClasses : ℕ := 8

def kClassSizes : List ℕ := [8, 16, 32, 64, 128, 256, 512, 1024]

/-- `sizeof(SlabHeader)`. -/
def kHeaderSize : ℕ := 64

/-- `CountLeftZero` of a `u64`. -/
def countLeftZero (value : ℕ) : ℕ := if value = 0 then 64 else 63 - Nat.log2 value

def classIndex (size : ℕ) : ℕ :=
  if size ≤ 8 then 0 else 64 - countLeftZero (size - 1) - 3

def classSize (index : ℕ) : ℕ := kClassSizes.getD index 0

structure SlabHeader where
  freeList : Option ℕ
  classIndex : ℕ
  slotSize : ℕ
  totalSlots : ℕ
  bump : ℕ

@[irreducible] def loadHeader (m : Bytes) (slab : ℕ) : SlabHeader where
  freeList := loadPointer m slab
  classIndex := load m 4 (slab + 16)
  slotSize := load m 4 (slab + 20)
  totalSlots := load m 4 (slab + 24)
  bump := load m 4 (slab + 28)

/-- The allocator, the bytes of its pages and their source; `active` is the thread-local
slab of each class. -/
structure State (Thread P : Type) where
  memory : Bytes
  pages : P
  active : Thread → ℕ → Option ℕ

def pageMask : ℕ := kWordRange - kPageSize

def slabFromPtr (address : ℕ) : ℕ := address &&& pageMask

/-- The address of the slot `i`. -/
def SlabHeader.slot (h : SlabHeader) (slab i : ℕ) : ℕ := slab + kHeaderSize + i * h.slotSize

/-- The bytes that `NewSlab` writes to touch each system page. -/
def prefault (m : Bytes) (page : ℕ) : Bytes := fun a =>
  if page ≤ a ∧ a < page + kPageSize ∧ (a - page) % 4096 = 0 then 0 else m a

section Fields

variable (m : Bytes) (slab : ℕ)

def storeFreeList (p : Option ℕ) : Bytes := storePointer m slab p

def storeNextPage (p : Option ℕ) : Bytes := storePointer m (slab + 8) p

def storeClassIndex (index : ℕ) : Bytes := store m 4 (slab + 16) index

def storeSlotSize (size : ℕ) : Bytes := store m 4 (slab + 20) size

def storeTotalSlots (total : ℕ) : Bytes := store m 4 (slab + 24) total

def storeBump (bump : ℕ) : Bytes := store m 4 (slab + 28) bump

/-- The header that `NewSlab` writes. -/
def storeNewHeader (index : ℕ) : Bytes :=
  let m := storeFreeList m slab none
  let m := storeNextPage m slab none
  let m := storeClassIndex m slab index
  let m := storeSlotSize m slab (classSize index)
  let m := storeTotalSlots m slab ((kPageSize - kHeaderSize) / classSize index)
  storeBump m slab 0

end Fields

variable {Thread P : Type} [DecidableEq Thread]

def State.header (s : State Thread P) (slab : ℕ) : SlabHeader := loadHeader s.memory slab

def State.setMemory (s : State Thread P) (m : Bytes) : State Thread P := { s with memory := m }

def newSlab (src : PageSource P) (index : ℕ) (s : State Thread P) :
    Option (ℕ × State Thread P) :=
  (src.requestPage s.pages).map fun (r, pages) =>
    (r.address, { s with
      memory := storeNewHeader (prefault s.memory r.address) r.address index
      pages := pages })

def allocateSlow (src : PageSource P) (t : Thread) (index : ℕ) (s : State Thread P) :
    Option ℕ × State Thread P :=
  match newSlab src index s with
  | none => (none, s)
  | some (slab, s) =>
    (some (slab + kHeaderSize), { s with
      memory := storeBump s.memory slab 1
      active := Function.update s.active t (Function.update (s.active t) index (some slab)) })

/-- `Allocate` with the lock of the class held. -/
def allocateLocked (src : PageSource P) (t : Thread) (index : ℕ) (s : State Thread P) :
    Option (Option ℕ × State Thread P) :=
  match s.active t index with
  | none => some (allocateSlow src t index s)
  | some slab =>
    match (s.header slab).freeList with
    | some slot =>
      if src.Mapped s.pages slot 8 then
        some (some slot, s.setMemory (storeFreeList s.memory slab (loadPointer s.memory slot)))
      else none
    | none =>
      if (s.header slab).bump < (s.header slab).totalSlots then
        some (some ((s.header slab).slot slab (s.header slab).bump % kWordRange),
          s.setMemory (storeBump s.memory slab ((s.header slab).bump + 1)))
      else some (allocateSlow src t index s)

/-- The lock of the class is `bins_[idx]`, and the code does not check the index. -/
def allocate (src : PageSource P) (t : Thread) (size : ℕ) (s : State Thread P) :
    Option (Option ℕ × State Thread P) :=
  if classIndex size < kNumClasses then allocateLocked src t (classIndex size) s else none

/-- `Free`, which returns the size of the slot. -/
def free (src : PageSource P) (block : Option ℕ) (s : State Thread P) :
    Option (ℕ × State Thread P) :=
  match block with
  | none => some (0, s)
  | some block =>
    let slab := slabFromPtr block
    if src.Mapped s.pages slab kHeaderSize ∧ src.Mapped s.pages block 8 then
      let m := storePointer s.memory block (s.header slab).freeList
      let s := s.setMemory (storeFreeList m slab (some block))
      some ((s.header slab).slotSize, s)
    else none

def queryAllocationSize (src : PageSource P) (block : Option ℕ) (s : State Thread P) :
    Option ℕ :=
  match block with
  | none => some 0
  | some block =>
    if slabFromPtr block = 0 then some 0
    else if src.Mapped s.pages (slabFromPtr block) kHeaderSize then
      some (s.header (slabFromPtr block)).slotSize
    else none

/-- `MemCopy` of the slot `former` to the slot `block`. -/
def copySlot (src : PageSource P) (block former : ℕ) (s : State Thread P) :
    Option (State Thread P) :=
  let n := (s.header (slabFromPtr former)).slotSize
  if src.Mapped s.pages former n ∧ src.Mapped s.pages block n then
    some (s.setMemory (copy s.memory block former n))
  else none

def reAllocate (src : PageSource P) (t : Thread) (former : Option ℕ) (newSize : ℕ)
    (s : State Thread P) : Option (Option ℕ × State Thread P) :=
  match former with
  | none => allocate src t newSize s
  | some former =>
    if newSize = 0 then (free src (some former) s).map fun (_, s) => (none, s)
    else if src.Mapped s.pages (slabFromPtr former) kHeaderSize then
      if newSize ≤ (s.header (slabFromPtr former)).slotSize then some (some former, s)
      else
        match allocate src t newSize s with
        | none => none
        | some (none, s) => some (none, s)
        | some (some block, s) =>
          (copySlot src block former s).bind fun s =>
            (free src (some former) s).map fun (_, s) => (some block, s)
    else none

/-! The size classes and the slabs of the slab allocator: the header as the bytes of a page,
and the slots behind it. -/

open Nat

theorem classSize_eq {index : ℕ} (h : index < kNumClasses) : classSize index = 2 ^ (index + 3) := by
  have hall : ∀ index < 8, classSize index = 2 ^ (index + 3) := by decide
  exact hall index h

theorem classIndex_eq {size : ℕ} (h : 8 < size) (hlt : size ≤ kWordRange) :
    classIndex size = log2 (size - 1) - 2 := by
  have hlog : log2 (size - 1) < 64 :=
    (log2_lt (by omega)).mpr (by unfold kWordRange at hlt; omega)
  rw [classIndex, countLeftZero, if_neg (by omega), if_neg (by omega)]
  omega

theorem classIndex_small {size : ℕ} (h : size ≤ 1024) :
    classIndex size < kNumClasses ∧ size ≤ classSize (classIndex size) := by
  by_cases hsmall : size ≤ 8
  · rw [classIndex, if_pos hsmall]
    exact ⟨by decide, hsmall⟩
  · have hlog : log2 (size - 1) < 10 := (log2_lt (by omega)).mpr (by omega)
    have hge : 3 ≤ log2 (size - 1) := (le_log2 (by omega)).mpr (by omega)
    have hself : size - 1 < 2 ^ (log2 (size - 1) + 1) := lt_log2_self
    have hindex := classIndex_eq (by omega) (show size ≤ kWordRange by unfold kWordRange; omega)
    have hclass : classIndex size < kNumClasses := by
      unfold kNumClasses
      omega
    refine ⟨hclass, ?_⟩
    have hexp : log2 (size - 1) - 2 + 3 = log2 (size - 1) + 1 := by omega
    rw [classSize_eq hclass, hindex, hexp]
    omega

theorem classIndex_large {size : ℕ} (h : 1024 < size) : kNumClasses ≤ classIndex size := by
  have hge : 10 ≤ log2 (size - 1) := (le_log2 (by omega)).mpr (by omega)
  rw [classIndex, countLeftZero, if_neg (by omega), if_neg (by omega)]
  unfold kNumClasses
  omega

theorem slabFromPtr_eq {address : ℕ} (h : address < kWordRange) :
    slabFromPtr address = address / kPageSize * kPageSize := by
  have hmask : pageMask = (2 ^ 48 - 1) <<< 16 := by decide
  have hround : address / kPageSize * kPageSize = (address >>> 16) <<< 16 := by
    rw [shiftLeft_eq, shiftRight_eq_div_pow]
    rfl
  rw [slabFromPtr, hmask, hround]
  refine eq_of_testBit_eq fun i => ?_
  rw [testBit_and, testBit_shiftLeft, testBit_shiftLeft, testBit_shiftRight,
    testBit_two_pow_sub_one]
  by_cases hi : 16 ≤ i
  · by_cases hlarge : i < 64
    · have hlt : i - 16 < 48 := by omega
      simp [hi, hlt, Nat.add_sub_cancel' hi]
    · have hbit : address.testBit i = false := by
        refine testBit_lt_two_pow (Nat.lt_of_lt_of_le h ?_)
        exact Nat.pow_le_pow_right (by decide) (by omega)
      simp [hi, hbit, Nat.add_sub_cancel' hi]
  · simp [hi]

section Fields

variable {m m' : Bytes} {slab a : ℕ} {p : Option ℕ}

theorem loadHeader_congr (h : ∀ a, slab ≤ a → a < slab + 32 → m a = m' a) :
    loadHeader m slab = loadHeader m' slab := by
  unfold loadHeader
  rw [loadPointer_congr fun b hle hlt => h b hle (by omega)]
  rw [load_congr fun b hle hlt => h b (by omega) (by omega)]
  rw [load_congr fun b hle hlt => h b (by omega) (by omega)]
  rw [load_congr fun b hle hlt => h b (by omega) (by omega)]
  rw [load_congr fun b hle hlt => h b (by omega) (by omega)]

theorem fits_freeList {Thread P : Type} (s : State Thread P) (slab : ℕ) :
    Fits (s.header slab).freeList := by
  have hlink : (s.header slab).freeList = loadPointer s.memory slab := by
    rw [State.header, loadHeader]
  rw [hlink]
  exact fits_loadPointer _ _

section

variable (h : a < slab ∨ slab + kHeaderSize ≤ a)
include h

theorem storeFreeList_of_outside : storeFreeList m slab p a = m a := by
  unfold kHeaderSize at h
  exact storePointer_of_outside (by omega)

theorem storeBump_of_outside {bump : ℕ} : storeBump m slab bump a = m a := by
  unfold kHeaderSize at h
  exact store_of_outside (by omega)

theorem storeNewHeader_of_outside {index : ℕ} : storeNewHeader m slab index a = m a := by
  unfold kHeaderSize at h
  unfold storeNewHeader storeBump storeTotalSlots storeSlotSize storeClassIndex storeNextPage
    storeFreeList
  rw [store_of_outside (by omega), store_of_outside (by omega), store_of_outside (by omega),
    store_of_outside (by omega), storePointer_of_outside (by omega),
    storePointer_of_outside (by omega)]

end

theorem prefault_of_outside (h : a < slab ∨ slab + kPageSize ≤ a) : prefault m slab a = m a := by
  rw [prefault, if_neg (by omega)]

theorem loadPointer_store_of_disjoint {n b v : ℕ} (h : b + 8 ≤ a ∨ a + n ≤ b) :
    loadPointer (store m n a v) b = loadPointer m b := by
  rw [loadPointer, loadPointer, load_store_of_disjoint (by omega)]

theorem loadHeader_storeFreeList (h : Fits p) :
    loadHeader (storeFreeList m slab p) slab = { loadHeader m slab with freeList := p } := by
  unfold loadHeader storeFreeList
  rw [loadPointer_storePointer h]
  unfold storePointer
  rw [load_store_of_disjoint (by omega), load_store_of_disjoint (by omega),
    load_store_of_disjoint (by omega), load_store_of_disjoint (by omega)]

theorem loadHeader_storeNextPage :
    loadHeader (storeNextPage m slab p) slab = loadHeader m slab := by
  unfold loadHeader storeNextPage storePointer
  rw [loadPointer_store_of_disjoint (by omega), load_store_of_disjoint (by omega),
    load_store_of_disjoint (by omega), load_store_of_disjoint (by omega),
    load_store_of_disjoint (by omega)]

section

variable {v : ℕ} (h : v < 256 ^ 4)
include h

theorem loadHeader_storeClassIndex :
    loadHeader (storeClassIndex m slab v) slab = { loadHeader m slab with classIndex := v } := by
  unfold loadHeader storeClassIndex
  rw [loadPointer_store_of_disjoint (by omega), load_store h, load_store_of_disjoint (by omega),
    load_store_of_disjoint (by omega), load_store_of_disjoint (by omega)]

theorem loadHeader_storeSlotSize :
    loadHeader (storeSlotSize m slab v) slab = { loadHeader m slab with slotSize := v } := by
  unfold loadHeader storeSlotSize
  rw [loadPointer_store_of_disjoint (by omega), load_store_of_disjoint (by omega), load_store h,
    load_store_of_disjoint (by omega), load_store_of_disjoint (by omega)]

theorem loadHeader_storeTotalSlots :
    loadHeader (storeTotalSlots m slab v) slab = { loadHeader m slab with totalSlots := v } := by
  unfold loadHeader storeTotalSlots
  rw [loadPointer_store_of_disjoint (by omega), load_store_of_disjoint (by omega),
    load_store_of_disjoint (by omega), load_store h, load_store_of_disjoint (by omega)]

theorem loadHeader_storeBump :
    loadHeader (storeBump m slab v) slab = { loadHeader m slab with bump := v } := by
  unfold loadHeader storeBump
  rw [loadPointer_store_of_disjoint (by omega), load_store_of_disjoint (by omega),
    load_store_of_disjoint (by omega), load_store_of_disjoint (by omega), load_store h]

end

end Fields

def newHeader (index : ℕ) : SlabHeader where
  freeList := none
  classIndex := index
  slotSize := classSize index
  totalSlots := (kPageSize - kHeaderSize) / classSize index
  bump := 0

theorem loadHeader_storeNewHeader {m : Bytes} {slab index : ℕ} (h : index < kNumClasses) :
    loadHeader (storeNewHeader m slab index) slab = newHeader index := by
  have hall : ∀ index < 8, index < 256 ^ 4 ∧ classSize index < 256 ^ 4 ∧
      (kPageSize - kHeaderSize) / classSize index < 256 ^ 4 := by decide
  obtain ⟨hindex, hsize, htotal⟩ := hall index h
  rw [storeNewHeader, loadHeader_storeBump (by decide), loadHeader_storeTotalSlots htotal,
    loadHeader_storeSlotSize hsize, loadHeader_storeClassIndex hindex, loadHeader_storeNextPage,
    loadHeader_storeFreeList fits_none, newHeader]

/-- The constant fields of a header and the bound of its bump cursor. -/
structure SlabHeader.WellFormed (h : SlabHeader) : Prop where
  index : h.classIndex < kNumClasses
  slotSize : h.slotSize = classSize h.classIndex
  total : h.totalSlots = (kPageSize - kHeaderSize) / classSize h.classIndex
  bump : h.bump ≤ h.totalSlots

/-- A page that a slab can lie in. -/
structure IsPage (page : ℕ) : Prop where
  pos : 0 < page
  aligned : kPageSize ∣ page
  fits : page + kPageSize ≤ kWordRange

namespace SlabHeader.WellFormed

variable {h : SlabHeader} (hw : h.WellFormed)

include hw

theorem slotSize_ge : 8 ≤ h.slotSize := by
  rw [hw.slotSize, classSize_eq hw.index, Nat.pow_add]
  have hpos : 0 < 2 ^ h.classIndex := Nat.two_pow_pos _
  omega

theorem total_le : h.totalSlots * h.slotSize ≤ kPageSize - kHeaderSize := by
  rw [hw.total, hw.slotSize]
  exact div_mul_le_self _ _

theorem total_pos : 0 < h.totalSlots := by
  rw [hw.total]
  have hall : ∀ index < 8, 0 < (kPageSize - kHeaderSize) / classSize index := by decide
  exact hall _ hw.index

theorem slot_range {i : ℕ} (slab : ℕ) (hi : i < h.totalSlots) :
    slab + kHeaderSize ≤ h.slot slab i ∧ h.slot slab i + h.slotSize ≤ slab + kPageSize := by
  have hmul : (i + 1) * h.slotSize ≤ h.totalSlots * h.slotSize := Nat.mul_le_mul_right _ hi
  have htotal := hw.total_le
  have hpage : kHeaderSize ≤ kPageSize := by decide
  rw [succ_mul] at hmul
  unfold SlabHeader.slot
  omega

theorem slot_inj {slab i j : ℕ} (heq : h.slot slab i = h.slot slab j) : i = j := by
  have hpos := hw.slotSize_ge
  unfold SlabHeader.slot at heq
  exact eq_of_mul_eq_mul_right (show 0 < h.slotSize by omega) (by omega)

omit hw in
/-- Two slots of a slab do not overlap. -/
theorem slot_apart {slab i j : ℕ} (hij : i ≠ j) : h.slot slab i + h.slotSize ≤ h.slot slab j ∨
    h.slot slab j + h.slotSize ≤ h.slot slab i := by
  unfold SlabHeader.slot
  rcases Nat.lt_or_gt_of_ne hij with hlt | hgt
  · have hmul : (i + 1) * h.slotSize ≤ j * h.slotSize := Nat.mul_le_mul_right _ hlt
    rw [succ_mul] at hmul
    omega
  · have hmul : (j + 1) * h.slotSize ≤ i * h.slotSize := Nat.mul_le_mul_right _ hgt
    rw [succ_mul] at hmul
    omega

theorem slabFromPtr_slot {slab i : ℕ} (hpage : IsPage slab) (hi : i < h.totalSlots) {a : ℕ}
    (hle : h.slot slab i ≤ a) (hlt : a < h.slot slab i + h.slotSize) : slabFromPtr a = slab := by
  obtain ⟨hlow, hhigh⟩ := hw.slot_range slab hi
  obtain ⟨k, hk⟩ := hpage.aligned
  have hfits := hpage.fits
  have hdiv : a / kPageSize = k := by
    rw [Nat.div_eq_iff (by decide)]
    unfold kPageSize at *
    omega
  rw [slabFromPtr_eq (by omega), hdiv, hk, Nat.mul_comm]

end SlabHeader.WellFormed

theorem IsPage.apart {page page' : ℕ} (h : IsPage page) (h' : IsPage page') (hne : page ≠ page') :
    page + kPageSize ≤ page' ∨ page' + kPageSize ≤ page := by
  obtain ⟨k, rfl⟩ := h.aligned
  obtain ⟨k', rfl⟩ := h'.aligned
  have hk : k ≠ k' := fun hk => hne (by rw [hk])
  unfold kPageSize
  omega

theorem newHeader_wellFormed {index : ℕ} (h : index < kNumClasses) : (newHeader index).WellFormed :=
  ⟨h, rfl, rfl, Nat.zero_le _⟩

end Equilibrium.BucketAllocator
