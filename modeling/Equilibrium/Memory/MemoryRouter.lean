import Equilibrium.Memory.BucketAllocator
import Equilibrium.Memory.HeapAllocator

/-! The allocator of single pages of `base/allocator/eq_alloc/page_allocator.h` and `.cc`. A
freed page holds the pointer to the next one. An access to memory that no page backs gives
`none`. -/

namespace Equilibrium.PageAllocator

open Library.ByteMemory

def kPageThreshold : ℕ := 64 * 1024

structure State (P : Type) where
  memory : Bytes
  pages : P
  freeStack : Option ℕ

variable {P : Type}

def pushFreePage (src : PageSource P) (page : ℕ) (s : State P) : Option (State P) :=
  if src.Mapped s.pages page 8 then
    some { s with memory := storePointer s.memory page s.freeStack, freeStack := some page }
  else none

def popFreePage (src : PageSource P) (s : State P) : Option (Option ℕ × State P) :=
  match s.freeStack with
  | none => some (none, s)
  | some page =>
    if src.Mapped s.pages page 8 then
      some (some page, { s with freeStack := loadPointer s.memory page })
    else none

def allocate (src : PageSource P) (s : State P) : Option (Option ℕ × State P) :=
  (popFreePage src s).map fun
    | (some cached, s) => (some cached, s)
    | (none, s) =>
      match src.requestPage s.pages with
      | none => (none, s)
      | some (r, pages) => (some r.address, { s with pages := pages })

def reAllocate (former newSize : ℕ) : Option ℕ :=
  if newSize ≤ kPageThreshold then some former else none

def free (src : PageSource P) (block : ℕ) (s : State P) : Option (ℕ × State P) :=
  (pushFreePage src block s).map fun s => (kPageSize, s)

def queryAllocationSize : ℕ := kPageSize

end Equilibrium.PageAllocator

/-! The router of `base/allocator/eq_alloc/eq_memory_router.h` in a build without `DCHECK`s,
after its page table was constructed. A call that reaches past an array or through a null
pointer, or to memory that no page backs, gives `none`. -/

namespace Equilibrium.MemoryRouter

open Library.ByteMemory

def kMibShift : ℕ := 20

def kVirtualAddressRange : ℕ := 2 ^ 40

/-- The length of `allocator_mapping_table_`. -/
def kTableLength : ℕ := kVirtualAddressRange >>> kMibShift

def kMaxAllocators : ℕ := 0xFF

def kBucketThreshold : ℕ := 1024

def kBucketAllocator : ℕ := 0

def kPageAllocator : ℕ := 1

def kHeapAllocator : ℕ := 2

def noOverride : ℤ := -1

/-- `MemoryScope::allocator_handle()`, a value-initialized `i16`. -/
def allocatorHandle : ℤ := 0

/-- A page table with its address space from `base` on. -/
structure AddressSpace (P : Type) extends PageSource P where
  base : ℕ
  base_aligned : kPageSize ∣ base
  base_lt : base + kVirtualAddressRange < kWordRange
  inSpace : ∀ p a, handed p a → base ≤ a ∧ a + kPageSize ≤ base + kVirtualAddressRange

/-- The allocators share the memory and the page table. -/
structure State (Thread P : Type) where
  memory : Bytes
  pages : P
  active : Thread → ℕ → Option ℕ
  freeStack : Option ℕ
  heap : HeapAllocator.Object
  mapping : ℕ → ℕ

variable {Thread P : Type}

def State.bucket (s : State Thread P) : BucketAllocator.State Thread P :=
  ⟨s.memory, s.pages, s.active⟩

def State.setBucket (s : State Thread P) (b : BucketAllocator.State Thread P) :
    State Thread P :=
  { s with memory := b.memory, pages := b.pages, active := b.active }

def State.page (s : State Thread P) : PageAllocator.State P := ⟨s.memory, s.pages, s.freeStack⟩

def State.setPage (s : State Thread P) (b : PageAllocator.State P) : State Thread P :=
  { s with memory := b.memory, pages := b.pages, freeStack := b.freeStack }

def State.heapState (s : State Thread P) : HeapAllocator.State P := ⟨s.heap, s.memory, s.pages⟩

def State.setHeap (s : State Thread P) (b : HeapAllocator.State P) : State Thread P :=
  { s with memory := b.memory, pages := b.pages, heap := b.toObject }

def pageOffset (base address : ℕ) : ℕ := (address + (kWordRange - base)) % kWordRange

section Dispatch

variable [DecidableEq Thread] (src : AddressSpace P) (turns : ℕ) (t : Thread)

/-- `allocators_[id]->Allocate`; `turns` bounds the walks of the heap's free list. -/
def allocateIn (id size : ℕ) (s : State Thread P) : Option (Option ℕ × State Thread P) :=
  match id with
  | 0 => (BucketAllocator.allocate src.toPageSource t size s.bucket).map
      fun (r, b) => (r, s.setBucket b)
  | 1 => (PageAllocator.allocate src.toPageSource s.page).map fun (r, b) => (r, s.setPage b)
  | 2 => (HeapAllocator.allocate src.toPageSource turns size s.heapState).map
      fun (r, b) => (r, s.setHeap b)
  | _ => none

def freeIn (id block : ℕ) (s : State Thread P) : Option (ℕ × State Thread P) :=
  match id with
  | 0 => (BucketAllocator.free src.toPageSource (some block) s.bucket).map
      fun (n, b) => (n, s.setBucket b)
  | 1 => (PageAllocator.free src.toPageSource block s.page).map fun (n, b) => (n, s.setPage b)
  | 2 => (HeapAllocator.free turns (some block) s.heapState).map fun (n, b) => (n, s.setHeap b)
  | _ => none

def queryIn (id block : ℕ) (s : State Thread P) : Option ℕ :=
  match id with
  | 0 => BucketAllocator.queryAllocationSize src.toPageSource (some block) s.bucket
  | 1 => some PageAllocator.queryAllocationSize
  | 2 => some (HeapAllocator.queryAllocationSize (some block) s.heapState)
  | _ => none

def reAllocateIn (id former newSize : ℕ) (s : State Thread P) :
    Option (Option ℕ × State Thread P) :=
  match id with
  | 0 => (BucketAllocator.reAllocate src.toPageSource t (some former) newSize s.bucket).map
      fun (r, b) => (r, s.setBucket b)
  | 1 => some (PageAllocator.reAllocate former newSize, s)
  | 2 => (HeapAllocator.reAllocate src.toPageSource turns (some former) newSize s.heapState).map
      fun (r, b) => (r, s.setHeap b)
  | _ => none

end Dispatch

/-- The choice of `Allocate`. -/
def chooseAllocator (handle : ℤ) (size : ℕ) : ℕ :=
  if handle ≠ noOverride then handle.toNat
  else if size ≤ kBucketThreshold then kBucketAllocator
  else if size ≤ PageAllocator.kPageThreshold then kPageAllocator
  else kHeapAllocator

/-- The loop of `Allocate` that marks `count` entries from `idx` on. -/
def mark (id : ℕ) : (count idx : ℕ) → (ℕ → ℕ) → Option (ℕ → ℕ)
  | 0, _, table => some table
  | count + 1, idx, table =>
    if idx < kTableLength then mark id count (idx + 1) (Function.update table idx id) else none

def firstIdx (base address : ℕ) : ℕ := pageOffset base address >>> kMibShift

def lastIdx (base address size : ℕ) : ℕ :=
  ((pageOffset base address + size + (kWordRange - 1)) % kWordRange) >>> kMibShift

/-- `FindOwningAllocator`: `none` past the table, `some none` for a null allocator. -/
def findOwningAllocator (base address : ℕ) (table : ℕ → ℕ) : Option (Option ℕ) :=
  let index := pageOffset base address >>> kMibShift
  if index < kTableLength then
    if table index ≠ kMaxAllocators then some (some (table index)) else some none
  else none

section Calls

variable [DecidableEq Thread] (src : AddressSpace P) (turns : ℕ) (t : Thread)

def allocate (size : ℕ) (s : State Thread P) : Option (Option ℕ × State Thread P) :=
  let id := chooseAllocator allocatorHandle size
  (allocateIn src turns t id size s).bind fun (block, s) =>
    let first := firstIdx src.base (block.getD 0)
    let last := lastIdx src.base (block.getD 0) size
    (mark id (last + 1 - first) first s.mapping).map fun table =>
      (block, { s with mapping := table })

/-- `aligned_block[-1]`. -/
def recordAddress (aligned : ℕ) : ℕ := (aligned + (kWordRange - 8)) % kWordRange

def adjustment (raw alignment : ℕ) : ℕ :=
  (alignment + (kWordRange - (raw &&& ((alignment + (kWordRange - 1)) % kWordRange)))) % kWordRange

def allocateAligned (size alignment : ℕ) (s : State Thread P) :
    Option (Option ℕ × State Thread P) :=
  let expandedSize := (size + alignment + 8) % kWordRange
  (allocate src turns t expandedSize s).bind fun
    | (none, s) => some (none, s)
    | (some raw, s) =>
      let aligned := (raw + adjustment raw alignment) % kWordRange
      if src.Mapped s.pages (recordAddress aligned) 8 then
        let m := store s.memory 8 (recordAddress aligned) (adjustment raw alignment)
        some (some aligned, { s with memory := m })
      else none

/-- The block and `diff_out`, a `u64` difference read as a signed one. -/
def reAllocate (former newSize : ℕ) (s : State Thread P) :
    Option (Option ℕ × ℕ × State Thread P) :=
  match findOwningAllocator src.base former s.mapping with
  | some (some id) =>
    (queryIn src id former s).bind fun formerSize =>
      (reAllocateIn src turns t id former newSize s).map fun (r, s) =>
        (r, (newSize + (kWordRange - formerSize)) % kWordRange, s)
  | _ => none

def free (block : ℕ) (s : State Thread P) : Option (ℕ × State Thread P) :=
  match findOwningAllocator src.base block s.mapping with
  | some (some id) => freeIn src turns id block s
  | some none => some (0, s)
  | none => none

def reAllocateAligned (former formerSize newSize alignment : ℕ) (s : State Thread P) :
    Option (Option ℕ × State Thread P) :=
  (allocateAligned src turns t newSize alignment s).bind fun
    | (none, s) => some (none, s)
    | (some block, s) =>
      let copySize := min formerSize newSize
      if src.Mapped s.pages former copySize ∧ src.Mapped s.pages block copySize ∧
          src.Mapped s.pages (recordAddress former) 8 then
        let m := copy s.memory block former copySize
        let adjustment := load m 8 (recordAddress former)
        (free src turns ((former + (kWordRange - adjustment)) % kWordRange)
          { s with memory := m }).map fun (_, s) => (some block, s)
      else none

def deallocate (block : ℕ) (s : State Thread P) : Option (Bool × State Thread P) :=
  (free src turns block s).map fun (_, s) => (true, s)

end Calls

end Equilibrium.MemoryRouter
