import Equilibrium.Memory.BucketAllocatorRuns
import Equilibrium.Memory.MemoryRouter

/-! Runs of the memory router: the blocks that its callers hold, and the allocators that the
mapping table names for them. -/

namespace Equilibrium.MemoryRouter

open Library.ByteMemory Library.Interleaving BucketAllocator Nat Option

/-- A block as its user holds it, the block of the allocator in which it lies, and the
allocator that produced it. -/
structure Held where
  block : Block
  slot : Block
  owner : ℕ
  deriving DecidableEq

structure Run (Thread P : Type) where
  router : State Thread P
  live : List Held

inductive Act (Thread : Type) where
  | allocate (t : Thread) (size : ℕ)
  | allocateAligned (t : Thread) (size alignment : ℕ)
  | reAllocate (t : Thread) (h : Held) (newSize : ℕ)
  | reAllocateAligned (t : Thread) (h : Held) (newSize alignment : ℕ)
  | free (h : Held)
  | deallocate (h : Held)
  | write (a : ℕ) (v : UInt8)

variable {Thread P : Type}

def Held.plain (size a : ℕ) : Held :=
  ⟨⟨a, size⟩, ⟨a, size⟩, chooseAllocator allocatorHandle size⟩

def expandedSize (size alignment : ℕ) : ℕ := (size + alignment + 8) % kWordRange

/-- The start of the block before its alignment, from the recorded adjustment. -/
def rawBlock (m : Bytes) (aligned : ℕ) : ℕ :=
  (aligned + (kWordRange - load m 8 (recordAddress aligned))) % kWordRange

def Held.aligned (m : Bytes) (size alignment a : ℕ) : Held :=
  ⟨⟨a, size⟩, ⟨rawBlock m a, expandedSize size alignment⟩,
    chooseAllocator allocatorHandle (expandedSize size alignment)⟩

/-- The block after it was reallocated to `a`, by the allocator that the table names. -/
def Held.moved (base : ℕ) (table : ℕ → ℕ) (h : Held) (newSize a : ℕ) : Held :=
  if a = h.block.address then { h with block := ⟨a, newSize⟩ }
  else ⟨⟨a, newSize⟩, ⟨a, newSize⟩,
    ((findOwningAllocator base h.block.address table).bind id).getD kMaxAllocators⟩

def Run.take (s : Run Thread P) (router : State Thread P) (h : Option Held) : Run Thread P :=
  ⟨router, s.live ++ h.toList⟩

/-- A reallocation to no bytes frees the block, and a failed one leaves it. -/
def Run.resize (s : Run Thread P) (base : ℕ) (h : Held) (newSize : ℕ) (r : Option ℕ)
    (router : State Thread P) : Run Thread P :=
  if newSize = 0 then ⟨router, s.live.erase h⟩
  else match r with
    | none => ⟨router, s.live⟩
    | some a => ⟨router, s.live.erase h ++ [h.moved base s.router.mapping newSize a]⟩

def Run.resizeAligned (s : Run Thread P) (h : Held) (newSize alignment : ℕ) (r : Option ℕ)
    (router : State Thread P) : Run Thread P :=
  match r with
  | none => ⟨router, s.live⟩
  | some a => ⟨router, s.live.erase h ++ [Held.aligned router.memory newSize alignment a]⟩

def start (m : Bytes) (p : P) (heap : HeapAllocator.Object) : Run Thread P where
  router :=
    { memory := m
      pages := p
      active := fun _ _ => none
      freeStack := none
      heap := heap
      mapping := fun i => if i = 0 then kMaxAllocators else 0 }
  live := []

section Machine

variable [DecidableEq Thread] (src : AddressSpace P) (turns : ℕ)

def step (s : Run Thread P) : Act Thread → Option (Run Thread P)
  | .allocate t size =>
    (allocate src turns t size s.router).map fun (r, router) =>
      s.take router (r.map (Held.plain size))
  | .allocateAligned t size alignment =>
    (allocateAligned src turns t size alignment s.router).map fun (r, router) =>
      s.take router (r.map (Held.aligned router.memory size alignment))
  | .reAllocate t h newSize =>
    if h ∈ s.live then
      (reAllocate src turns t h.block.address newSize s.router).map fun (r, _, router) =>
        s.resize src.base h newSize r router
    else none
  | .reAllocateAligned t h newSize alignment =>
    if h ∈ s.live then
      (reAllocateAligned src turns t h.block.address h.block.size newSize alignment s.router).map
        fun (r, router) => s.resizeAligned h newSize alignment r router
    else none
  | .free h =>
    if h ∈ s.live then
      (free src turns h.block.address s.router).map fun (_, router) =>
        ⟨router, s.live.erase h⟩
    else none
  | .deallocate h =>
    if h ∈ s.live then
      (deallocate src turns h.block.address s.router).map fun (_, router) =>
        ⟨router, s.live.erase h⟩
    else none
  | .write a v =>
    if (∃ h ∈ s.live, h.block.address ≤ a ∧ a < h.block.address + h.block.size) ∧
        src.Mapped s.router.pages a 1 then
      some ⟨{ s.router with memory := Function.update s.router.memory a v }, s.live⟩
    else none

def machine (m : Bytes) (p : P) (heap : HeapAllocator.Object) :
    Machine (Run Thread P) (Act Thread) where
  init := start m p heap
  step := step src turns

end Machine

/-! The entries of the table. -/

theorem chooseAllocator_handle (size : ℕ) :
    chooseAllocator allocatorHandle size = kBucketAllocator := by
  rw [chooseAllocator]
  rfl

def Owned (base a : ℕ) (table : ℕ → ℕ) : Prop :=
  findOwningAllocator base a table = some (some kBucketAllocator)

theorem owned_iff {base a : ℕ} {table : ℕ → ℕ} :
    Owned base a table ↔ firstIdx base a < kTableLength ∧ table (firstIdx base a) = 0 := by
  unfold Owned findOwningAllocator
  rw [show pageOffset base a >>> kMibShift = firstIdx base a from rfl]
  by_cases hlt : firstIdx base a < kTableLength
  · by_cases hmax : table (firstIdx base a) = kMaxAllocators
    · simp [hmax, kMaxAllocators]
    · simp [hmax, kBucketAllocator]
  · simp [hlt]

theorem pageOffset_of_le {base a : ℕ} (hle : base ≤ a) (hlt : a < base + kWordRange)
    (hbase : base ≤ kWordRange) : pageOffset base a = a - base := by
  have hsum : a + (kWordRange - base) = a - base + kWordRange := by omega
  rw [pageOffset, hsum, add_mod_right, mod_eq_of_lt (by omega)]

theorem mark_eq {id count idx : ℕ} {table table' : ℕ → ℕ}
    (h : mark id count idx table = some table') :
    (∀ i, idx ≤ i → i < idx + count → i < kTableLength) ∧
      ∀ i, table' i = if idx ≤ i ∧ i < idx + count then id else table i := by
  induction count generalizing idx table with
  | zero =>
    cases h
    refine ⟨fun i hle hlt => by omega, fun i => ?_⟩
    rw [if_neg (by omega)]
  | succ count ih =>
    obtain ⟨hidx, h⟩ := ite_none_right_eq_some.mp h
    obtain ⟨hbound, htable⟩ := ih h
    refine ⟨fun i hle hlt => ?_, fun i => ?_⟩
    · by_cases hi : i = idx
      · omega
      · exact hbound i (by omega) (by omega)
    · rw [htable]
      by_cases hi : i = idx
      · rw [if_neg (by omega), if_pos (by omega), hi, Function.update_self]
      · rw [Function.update_of_ne hi]
        by_cases hin : idx + 1 ≤ i ∧ i < idx + 1 + count
        · rw [if_pos hin, if_pos (by omega)]
        · rw [if_neg hin, if_neg (by omega)]

section Marked

variable {src : AddressSpace P} {pages pages' : P} {table table' : ℕ → ℕ}

/-- Only the first entry can name no allocator, and not once a page of its range is used. -/
structure Marked (src : AddressSpace P) (pages : P) (table : ℕ → ℕ) : Prop where
  later : ∀ i, i ≠ 0 → table i = 0
  zero : table 0 = 0 ∨ table 0 = kMaxAllocators
  first : ∀ a, src.handed pages a → firstIdx src.base a = 0 → table 0 = 0

variable {a : ℕ}

theorem AddressSpace.offset (src : AddressSpace P) (h : src.Mapped pages a 1) :
    src.base ≤ a ∧ a < src.base + kVirtualAddressRange ∧ pageOffset src.base a = a - src.base := by
  have hpage := src.inSpace pages _ (h.handed Nat.one_pos)
  have hbase := src.base_lt
  have hmod := div_add_mod' a kPageSize
  have hlt := mod_lt a (show 0 < kPageSize by decide)
  refine ⟨by omega, by omega, pageOffset_of_le (by omega) (by omega) (by omega)⟩

theorem firstIdx_eq {base : ℕ} : firstIdx base a = pageOffset base a / 2 ^ 20 :=
  shiftRight_eq_div_pow _ _

theorem firstIdx_page (src : AddressSpace P) (h : src.Mapped pages a 1) :
    firstIdx src.base (a / kPageSize * kPageSize) = firstIdx src.base a ∧
      firstIdx src.base a < kTableLength := by
  obtain ⟨hle, hlt, hoffset⟩ := src.offset h
  have hpage := src.inSpace pages _ (h.handed Nat.one_pos)
  have hbase := src.base_lt
  have hlength : kTableLength = 2 ^ 20 := by decide
  have hrange : kVirtualAddressRange = 2 ^ 20 * 2 ^ 20 := by decide
  have hmod := div_add_mod' a kPageSize
  have hrest := mod_lt a (show 0 < kPageSize by decide)
  obtain ⟨k, hk⟩ := src.base_aligned
  have hoffset' : pageOffset src.base (a / kPageSize * kPageSize) =
      a / kPageSize * kPageSize - src.base :=
    pageOffset_of_le (by omega) (by omega) (by omega)
  rw [firstIdx_eq, firstIdx_eq, hoffset', hlength]
  unfold kPageSize at *
  omega

theorem Marked.owned (h : Marked src pages table) (ha : src.Mapped pages a 1) :
    Owned src.base a table := by
  obtain ⟨hpage, hlt⟩ := firstIdx_page src ha
  refine owned_iff.mpr ⟨hlt, ?_⟩
  by_cases hzero : firstIdx src.base a = 0
  · rw [hzero]
    exact h.first _ (ha.handed Nat.one_pos) (hpage.trans hzero)
  · exact h.later _ hzero

theorem Owned.mark {base count idx : ℕ} (h : Owned base a table)
    (hmark : mark kBucketAllocator count idx table = some table') : Owned base a table' := by
  obtain ⟨hlt, hzero⟩ := owned_iff.mp h
  refine owned_iff.mpr ⟨hlt, ?_⟩
  rw [(mark_eq hmark).2, hzero]
  split <;> rfl

theorem Marked.mark (h : Marked src pages table) {count idx : ℕ}
    (hmark : mark kBucketAllocator count idx table = some table')
    (hpages : ∀ a, src.handed pages' a → firstIdx src.base a = 0 →
      src.handed pages a ∨ (idx = 0 ∧ 0 < count)) : Marked src pages' table' := by
  have hzero : ∀ i, table i = 0 → table' i = 0 := by
    intro i hi
    rw [(mark_eq hmark).2, hi]
    split <;> rfl
  refine ⟨fun i hi => hzero i (h.later i hi), ?_, fun a ha hfirst => ?_⟩
  · rw [(mark_eq hmark).2]
    split
    · exact .inl rfl
    · exact h.zero
  · rcases hpages a ha hfirst with hold | ⟨hidx, hcount⟩
    · exact hzero 0 (h.first a hold hfirst)
    · rw [(mark_eq hmark).2, if_pos ⟨Nat.le_of_eq hidx, by omega⟩]
      rfl

end Marked

/-! The calls and the table. -/

section Calls

variable [DecidableEq Thread] {src : AddressSpace P} {turns : ℕ} {t : Thread}
  {s s' : State Thread P} {size : ℕ} {r : Option ℕ}

/-- The bump slot that the slab of the thread offers lies in a page handed out. -/
def SlotHanded (src : AddressSpace P) (s : State Thread P) (t : Thread) (size : ℕ) : Prop :=
  ∀ slab ∈ s.active t (BucketAllocator.classIndex size),
    (s.bucket.header slab).freeList = none →
    (s.bucket.header slab).bump < (s.bucket.header slab).totalSlots →
    src.Mapped s.pages ((s.bucket.header slab).slot slab (s.bucket.header slab).bump % kWordRange) 1

/-- A page that the call would take lies past the first range, or the range is marked. -/
def PageMarked (src : AddressSpace P) (s : State Thread P) (t : Thread) (size : ℕ) : Prop :=
  BucketAllocator.Exhausted s.bucket t (BucketAllocator.classIndex size) →
    ∀ page ∈ src.requestPage s.pages, firstIdx src.base page.1.address = 0 → s.mapping 0 = 0

theorem allocate_eq (h : allocate src turns t size s = some (r, s')) :
    ∃ b table, BucketAllocator.allocate src.toPageSource t size s.bucket = some (r, b) ∧
      mark kBucketAllocator (lastIdx src.base (r.getD 0) size + 1 - firstIdx src.base (r.getD 0))
        (firstIdx src.base (r.getD 0)) s.mapping = some table ∧
      s' = { s.setBucket b with mapping := table } := by
  obtain ⟨⟨r', s₁⟩, hcall, hrest⟩ := bind_eq_some_iff.mp h
  obtain ⟨⟨r'', b⟩, hbucket, heq⟩ := map_eq_some_iff.mp hcall
  obtain ⟨table, hmark, heq'⟩ := map_eq_some_iff.mp hrest
  cases heq
  cases heq'
  exact ⟨b, table, hbucket, hmark, rfl⟩

variable {b : BucketAllocator.State Thread P}

theorem mapped_of_allocates (hslot : SlotHanded src s t size) {a : ℕ}
    (h : BucketAllocator.Allocates src.toPageSource t (classIndex size) s.bucket
      (some a) b) : src.Mapped b.pages a 1 := by
  cases h with
  | recycle slab slot hactive hfree hmapped =>
    intro i hi
    exact hmapped i (by omega)
  | bump slab hactive hfree hlt => exact hslot slab hactive hfree hlt
  | fresh page pages hfull hpage =>
    have hgrant := src.page_grant _ _ _ hpage
    have hhanded : src.handed pages page.address :=
      (hgrant.handed _).mpr (.inr ⟨0, Nat.one_pos, by simp⟩)
    exact PageSource.mapped_of_page hhanded hgrant.aligned (Nat.le_add_right _ _) (by
      unfold kHeaderSize kPageSize
      omega)

theorem handed_of_allocates {index : ℕ} (h : BucketAllocator.Allocates src.toPageSource t index
    s.bucket r b) {a : ℕ} (ha : src.handed b.pages a) : src.handed s.pages a ∨
      (BucketAllocator.Exhausted s.bucket t index ∧ (∃ q ∈ src.requestPage s.pages,
        q.1.address = a) ∧ kPageSize ∣ a ∧ r = some (a + kHeaderSize)) := by
  cases h with
  | recycle slab slot hactive hfree hmapped => exact .inl ha
  | bump slab hactive hfree hlt => exact .inl ha
  | fresh page pages hfull hpage =>
    have hgrant := src.page_grant _ _ _ hpage
    rcases (hgrant.handed a).mp ha with hold | ⟨j, hj, rfl⟩
    · exact .inl hold
    · obtain rfl : j = 0 := by omega
      exact .inr ⟨hfull, ⟨_, hpage, by simp⟩, by simpa using hgrant.aligned, by simp⟩
  | fails hfull hpage => exact .inl ha

theorem Marked.allocate (hmarked : Marked src s.pages s.mapping) (hslot : SlotHanded src s t size)
    (h : allocate src turns t size s = some (r, s')) :
    Marked src s'.pages s'.mapping ∧ (∀ a, Owned src.base a s.mapping → Owned src.base a s'.mapping) ∧
      ∀ a ∈ r, src.Mapped s'.pages a 1 := by
  obtain ⟨b, table, hbucket, hmark, rfl⟩ := allocate_eq h
  obtain ⟨-, hallocates⟩ := allocates_of_allocate hbucket
  have hmapped : ∀ a ∈ r, src.Mapped b.pages a 1 := by
    rintro a rfl
    exact mapped_of_allocates hslot hallocates
  refine ⟨hmarked.mark hmark fun a ha hfirst => ?_, fun a ha => ha.mark hmark, hmapped⟩
  rcases handed_of_allocates hallocates ha with hold | ⟨-, -, haligned, rfl⟩
  · exact .inl hold
  · have hpage := (firstIdx_page src (hmapped _ rfl)).1
    have hself : (a + kHeaderSize) / kPageSize * kPageSize = a := by
      unfold kHeaderSize kPageSize at *
      omega
    rw [hself, hfirst] at hpage
    rw [getD_some, ← hpage]
    exact .inr ⟨rfl, by omega⟩

variable {alignment : ℕ}

theorem adjustment_bounds (raw : ℕ) (hpos : 0 < alignment) (hlt : alignment < kWordRange) :
    0 < adjustment raw alignment ∧ adjustment raw alignment ≤ alignment := by
  have hmask : (alignment + (kWordRange - 1)) % kWordRange = alignment - 1 := by
    rw [show alignment + (kWordRange - 1) = alignment - 1 + kWordRange by omega, add_mod_right,
      mod_eq_of_lt (by omega)]
  have hand : raw &&& (alignment - 1) ≤ alignment - 1 := and_le_right
  have hadjust : adjustment raw alignment = alignment - (raw &&& (alignment - 1)) := by
    rw [adjustment, hmask, show alignment + (kWordRange - (raw &&& (alignment - 1))) =
      alignment - (raw &&& (alignment - 1)) + kWordRange by omega, add_mod_right,
      mod_eq_of_lt (by omega)]
  omega

theorem aligned_zero {raw : ℕ} (h : raw < kWordRange) :
    (raw + adjustment raw 0) % kWordRange = 0 := by
  have hmask : (0 + (kWordRange - 1)) % kWordRange = 2 ^ 64 - 1 := by decide
  have hself : raw % 2 ^ 64 = raw := mod_eq_of_lt h
  rw [adjustment, hmask, and_two_pow_sub_one_eq_mod, hself, Nat.zero_add, add_mod_mod,
    Nat.add_sub_cancel' (Nat.le_of_lt h), mod_self]

theorem not_mapped_end (src : AddressSpace P) {pages : P} :
    ¬ src.Mapped pages (recordAddress 0) 8 := by
  intro h
  have hpage := src.inSpace pages _ (h.handed (by decide))
  have hlast : recordAddress 0 / kPageSize * kPageSize + kPageSize = kWordRange := by decide
  have hbase := src.base_lt
  omega

def State.setMemory (s : State Thread P) (m : Bytes) : State Thread P := { s with memory := m }

/-- The state after the adjustment of an aligned block was recorded. -/
def State.record (s : State Thread P) (aligned adjustment : ℕ) : State Thread P :=
  s.setMemory (store s.memory 8 (recordAddress aligned) adjustment)

theorem allocateAligned_eq (h : allocateAligned src turns t size alignment s = some (r, s')) :
    (r = none ∧ allocate src turns t (expandedSize size alignment) s = some (none, s')) ∨
      ∃ raw s₁, allocate src turns t (expandedSize size alignment) s = some (some raw, s₁) ∧
        r = some ((raw + adjustment raw alignment) % kWordRange) ∧
        src.Mapped s₁.pages (recordAddress ((raw + adjustment raw alignment) % kWordRange)) 8 ∧
        s' = s₁.record ((raw + adjustment raw alignment) % kWordRange)
          (adjustment raw alignment) := by
  obtain ⟨⟨r', s₁⟩, hcall, hrest⟩ := bind_eq_some_iff.mp h
  cases r' with
  | none =>
    cases hrest
    exact .inl ⟨rfl, hcall⟩
  | some raw =>
    simp only at hrest
    obtain ⟨hmapped, hrest⟩ := ite_none_right_eq_some.mp hrest
    cases hrest
    exact .inr ⟨raw, s₁, hcall, rfl, hmapped, rfl⟩

theorem owned_of_marked {base raw n i : ℕ} {table table' : ℕ → ℕ} (hle : base ≤ raw)
    (hlt : raw < base + kVirtualAddressRange) (hbase : base + kVirtualAddressRange < kWordRange)
    (hn : n ≤ 1024) (hi : i < n)
    (hmark : mark kBucketAllocator (lastIdx base raw n + 1 - firstIdx base raw)
      (firstIdx base raw) table = some table') :
    raw + i < base + kVirtualAddressRange ∧ Owned base (raw + i) table' := by
  have hrange : kVirtualAddressRange = 2 ^ 20 * 2 ^ 20 := by decide
  have hlength : kTableLength = 2 ^ 20 := by decide
  have hword : kWordRange = 2 ^ 64 := rfl
  have hoffset : pageOffset base raw = raw - base := pageOffset_of_le hle (by omega) (by omega)
  have hfirst : firstIdx base raw = (raw - base) / 2 ^ 20 := by rw [firstIdx_eq, hoffset]
  have hmod : (raw - base + n + (kWordRange - 1)) % kWordRange = raw - base + n - 1 := by
    rw [show raw - base + n + (kWordRange - 1) = raw - base + n - 1 + kWordRange by omega,
      add_mod_right, mod_eq_of_lt (by omega)]
  have hlast : lastIdx base raw n = (raw - base + n - 1) / 2 ^ 20 := by
    rw [lastIdx, hoffset, hmod, shiftRight_eq_div_pow, kMibShift]
  obtain ⟨hbound, htable⟩ := mark_eq hmark
  have hend := hbound ((raw - base + n - 1) / 2 ^ 20) (by omega) (by omega)
  have hspace : raw + i < base + kVirtualAddressRange := by omega
  refine ⟨hspace, owned_iff.mpr ?_⟩
  have hoffset' : pageOffset base (raw + i) = raw + i - base :=
    pageOffset_of_le (by omega) (by omega) (by omega)
  rw [firstIdx_eq]
  refine ⟨by omega, ?_⟩
  rw [htable, if_pos ⟨by omega, by omega⟩]
  rfl

theorem Marked.allocateAligned (hmarked : Marked src s.pages s.mapping)
    (hsize : size + alignment + 8 < kWordRange) (hslot : SlotHanded src s t (size + alignment + 8))
    (h : allocateAligned src turns t size alignment s = some (r, s')) :
    Marked src s'.pages s'.mapping ∧ (∀ a, Owned src.base a s.mapping → Owned src.base a s'.mapping) ∧
      ∀ a ∈ r, Owned src.base a s'.mapping := by
  have hexpanded : expandedSize size alignment = size + alignment + 8 := mod_eq_of_lt hsize
  rcases allocateAligned_eq h with ⟨rfl, hcall⟩ | ⟨raw, s₁, hcall, rfl, hrecord, rfl⟩
  · rw [hexpanded] at hcall
    obtain ⟨hmarked', hkeep, -⟩ := hmarked.allocate hslot hcall
    exact ⟨hmarked', hkeep, fun a ha => by cases ha⟩
  · rw [hexpanded] at hcall
    obtain ⟨hmarked', hkeep, hmapped⟩ := hmarked.allocate hslot hcall
    refine ⟨hmarked', hkeep, fun a ha => ?_⟩
    cases ha
    obtain ⟨hle, hlt, -⟩ := src.offset (hmapped raw rfl)
    have hbase := src.base_lt
    have hpos : 0 < alignment := by
      by_contra hzero
      obtain rfl : alignment = 0 := by omega
      rw [aligned_zero (by omega)] at hrecord
      exact not_mapped_end src hrecord
    obtain ⟨hadjust, hadjust'⟩ := adjustment_bounds raw hpos (by omega)
    obtain ⟨b, table, hbucket, hmark, rfl⟩ := allocate_eq hcall
    obtain ⟨hsmall, -⟩ := allocates_of_allocate hbucket
    obtain ⟨hspace, howned⟩ := owned_of_marked hle hlt hbase hsmall
      (show adjustment raw alignment < size + alignment + 8 by omega) hmark
    rw [mod_eq_of_lt (by omega)]
    exact howned

def OnlyBucket (table : ℕ → ℕ) : Prop :=
  ∀ i, table i = kBucketAllocator ∨ table i = kMaxAllocators

theorem Marked.onlyBucket {table : ℕ → ℕ} {pages : P} (h : Marked src pages table) :
    OnlyBucket table := by
  intro i
  by_cases hi : i = 0
  · rw [hi]
    exact h.zero
  · exact .inl (h.later i hi)

theorem OnlyBucket.owner_eq {table : ℕ → ℕ} (h : OnlyBucket table) {base a id : ℕ}
    (hfind : findOwningAllocator base a table = some (some id)) : id = kBucketAllocator := by
  obtain ⟨-, hfind⟩ := ite_none_right_eq_some.mp hfind
  split at hfind
  case isFalse => cases hfind
  case isTrue hmax =>
    cases hfind
    exact (h _).resolve_right hmax

theorem OnlyBucket.mark {table table' : ℕ → ℕ} (h : OnlyBucket table) {count idx : ℕ}
    (hmark : mark kBucketAllocator count idx table = some table') : OnlyBucket table' := by
  intro i
  rw [(mark_eq hmark).2]
  split
  · exact .inl rfl
  · exact h i

section

omit [DecidableEq Thread]

theorem free_cases (hbucket : OnlyBucket s.mapping) {block n : ℕ}
    (h : free src turns block s = some (n, s')) : s' = s ∨
      ∃ b, BucketAllocator.free src.toPageSource (some block) s.bucket = some (n, b) ∧
        s' = s.setBucket b := by
  simp only [free] at h
  split at h
  case h_1 id hfind =>
    obtain rfl := hbucket.owner_eq hfind
    obtain ⟨⟨n', b⟩, hfree, heq⟩ := map_eq_some_iff.mp h
    cases heq
    exact .inr ⟨b, hfree, rfl⟩
  case h_2 =>
    cases h
    exact .inl rfl
  case h_3 => cases h

theorem free_frame (hbucket : OnlyBucket s.mapping) {block n : ℕ}
    (h : free src turns block s = some (n, s')) : s'.pages = s.pages ∧ s'.mapping = s.mapping := by
  rcases free_cases hbucket h with rfl | ⟨b, hfree, rfl⟩
  · exact ⟨rfl, rfl⟩
  · obtain ⟨-, -, -, rfl⟩ := free_eq hfree
    exact ⟨rfl, rfl⟩

end

variable {former newSize : ℕ}

theorem reAllocate_eq (honly : OnlyBucket s.mapping) {d : ℕ}
    (h : reAllocate src turns t former newSize s = some (r, d, s')) :
    Owned src.base former s.mapping ∧ ∃ n b,
      queryAllocationSize src.toPageSource (some former) s.bucket = some n ∧
      d = (newSize + (kWordRange - n)) % kWordRange ∧
      BucketAllocator.reAllocate src.toPageSource t (some former) newSize s.bucket = some (r, b) ∧
      s' = s.setBucket b := by
  simp only [reAllocate] at h
  split at h
  case h_2 => cases h
  case h_1 id hfind =>
    obtain rfl := honly.owner_eq hfind
    obtain ⟨n, hquery, hrest⟩ := bind_eq_some_iff.mp h
    obtain ⟨⟨r', s₁⟩, hcall, heq⟩ := map_eq_some_iff.mp hrest
    obtain ⟨⟨r'', b⟩, hbucket, heq'⟩ := map_eq_some_iff.mp hcall
    cases heq
    cases heq'
    exact ⟨hfind, n, b, hquery, rfl, hbucket, rfl⟩

theorem Marked.reAllocate (hmarked : Marked src s.pages s.mapping) {former newSize d : ℕ}
    (hok : (s.bucket.header (slabFromPtr former)).slotSize < newSize →
      SlotHanded src s t newSize ∧ PageMarked src s t newSize)
    (h : reAllocate src turns t former newSize s = some (r, d, s')) :
    Marked src s'.pages s'.mapping ∧ s'.mapping = s.mapping ∧
      ∀ a ∈ r, Owned src.base a s'.mapping := by
  obtain ⟨howned, n, b, -, -, hcall, rfl⟩ := reAllocate_eq hmarked.onlyBucket h
  cases reAllocate_cases hcall with
  | zero hzero k s' hfree =>
    obtain ⟨-, -, -, rfl⟩ := free_eq hfree
    exact ⟨hmarked, rfl, fun a ha => by cases ha⟩
  | inPlace hpos hle =>
    refine ⟨hmarked, rfl, fun a ha => ?_⟩
    cases ha
    exact howned
  | fails s' hlt hallocate =>
    cases (allocates_of_allocate hallocate).2
    exact ⟨hmarked, rfl, fun a ha => by cases ha⟩
  | moves block k s₁ s₂ s' hlt hallocate hcopy hfree =>
    obtain ⟨-, hallocates⟩ := allocates_of_allocate hallocate
    obtain ⟨hslot, hpage⟩ := hok hlt
    have hmapped := mapped_of_allocates hslot hallocates
    have hpages : b.pages = s₁.pages := by
      obtain ⟨-, -, -, rfl⟩ := free_eq hfree
      obtain ⟨-, hcopy⟩ := ite_none_right_eq_some.mp hcopy
      cases hcopy
      rfl
    have hmarked' : Marked src b.pages s.mapping := by
      refine ⟨hmarked.later, hmarked.zero, fun a ha hfirst => ?_⟩
      rw [hpages] at ha
      rcases handed_of_allocates hallocates ha with hold | ⟨hfull, ⟨q, hq, rfl⟩, -⟩
      · exact hmarked.first a hold hfirst
      · exact hpage hfull q hq hfirst
    refine ⟨hmarked', rfl, fun a ha => ?_⟩
    cases ha
    rw [← hpages] at hmapped
    exact hmarked'.owned hmapped

theorem reAllocateAligned_eq {formerSize : ℕ}
    (h : reAllocateAligned src turns t former formerSize newSize alignment s = some (r, s')) :
    (r = none ∧ allocateAligned src turns t newSize alignment s = some (none, s')) ∨
      ∃ block s₁ n, allocateAligned src turns t newSize alignment s = some (some block, s₁) ∧
        r = some block ∧ src.Mapped s₁.pages former (min formerSize newSize) ∧
        src.Mapped s₁.pages block (min formerSize newSize) ∧
        src.Mapped s₁.pages (recordAddress former) 8 ∧
        free src turns (rawBlock (copy s₁.memory block former (min formerSize newSize)) former)
          (s₁.setMemory (copy s₁.memory block former (min formerSize newSize))) = some (n, s') := by
  obtain ⟨⟨r', s₁⟩, hcall, hrest⟩ := bind_eq_some_iff.mp h
  cases r' with
  | none =>
    cases hrest
    exact .inl ⟨rfl, hcall⟩
  | some block =>
    simp only at hrest
    obtain ⟨hmapped, hrest⟩ := ite_none_right_eq_some.mp hrest
    obtain ⟨⟨n, s₂⟩, hfree, heq⟩ := map_eq_some_iff.mp hrest
    cases heq
    exact .inr ⟨block, s₁, n, hcall, rfl, hmapped.1, hmapped.2.1, hmapped.2.2, hfree⟩

theorem Marked.reAllocateAligned (hmarked : Marked src s.pages s.mapping) {formerSize : ℕ}
    (hsize : newSize + alignment + 8 < kWordRange)
    (hslot : SlotHanded src s t (newSize + alignment + 8))
    (h : reAllocateAligned src turns t former formerSize newSize alignment s = some (r, s')) :
    Marked src s'.pages s'.mapping ∧ (∀ a, Owned src.base a s.mapping → Owned src.base a s'.mapping) ∧
      ∀ a ∈ r, Owned src.base a s'.mapping := by
  rcases reAllocateAligned_eq h with ⟨rfl, hcall⟩ | ⟨block, s₁, n, hcall, rfl, -, -, -, hfree⟩
  · exact hmarked.allocateAligned hsize hslot hcall
  · obtain ⟨hmarked', hkeep, howned⟩ := hmarked.allocateAligned hsize hslot hcall
    generalize hcopy : copy s₁.memory block former (min formerSize newSize) = m at hfree
    have hmarked'' : Marked src (s₁.setMemory m).pages (s₁.setMemory m).mapping := hmarked'
    obtain ⟨hpages, hmapping⟩ := free_frame hmarked''.onlyBucket hfree
    rw [hpages, hmapping]
    exact ⟨hmarked', hkeep, howned⟩

end Calls

section Runs

variable [DecidableEq Thread] {src : AddressSpace P} {turns : ℕ} {m : Bytes} {p : P}
  {heap : HeapAllocator.Object} {s s' : Run Thread P}

/-- The slot that a call gives out lies in a page handed out, the sizes do not wrap, and a
reallocation takes no page of a range that is not marked. -/
def OwnersOk (src : AddressSpace P) (s : Run Thread P) : Act Thread → Prop
  | .allocate t size => SlotHanded src s.router t size
  | .allocateAligned t size alignment => size + alignment + 8 < kWordRange ∧
      SlotHanded src s.router t (size + alignment + 8)
  | .reAllocate t h newSize =>
    (s.router.bucket.header (BucketAllocator.slabFromPtr h.block.address)).slotSize < newSize →
      SlotHanded src s.router t newSize ∧ PageMarked src s.router t newSize
  | .reAllocateAligned t _ newSize alignment => newSize + alignment + 8 < kWordRange ∧
      SlotHanded src s.router t (newSize + alignment + 8)
  | .free _ => True
  | .deallocate _ => True
  | .write _ _ => True

/-- The table names the producer of every live block. -/
structure OwnersInv (src : AddressSpace P) (s : Run Thread P) : Prop where
  marked : Marked src s.router.pages s.router.mapping
  owner : ∀ h ∈ s.live, h.owner = kBucketAllocator
  live : ∀ h ∈ s.live, Owned src.base h.block.address s.router.mapping

section

omit [DecidableEq Thread]

theorem OwnersInv.update (h : OwnersInv src s)
    (hmarked : Marked src s'.router.pages s'.router.mapping)
    (hkeep : ∀ a, Owned src.base a s.router.mapping → Owned src.base a s'.router.mapping)
    (hlive : ∀ x ∈ s'.live, x ∈ s.live ∨
      (x.owner = kBucketAllocator ∧ Owned src.base x.block.address s'.router.mapping)) :
    OwnersInv src s' := by
  refine ⟨hmarked, fun x hx => ?_, fun x hx => ?_⟩
  · rcases hlive x hx with hold | hnew
    · exact h.owner x hold
    · exact hnew.1
  · rcases hlive x hx with hold | hnew
    · exact hkeep _ (h.live x hold)
    · exact hnew.2

end

theorem OwnersInv.step (h : OwnersInv src s) {a : Act Thread} (hok : OwnersOk src s a)
    (hs : MemoryRouter.step src turns s a = some s') : OwnersInv src s' := by
  cases a with
  | allocate t size =>
    obtain ⟨⟨r, router⟩, hcall, rfl⟩ := map_eq_some_iff.mp hs
    obtain ⟨hmarked, hkeep, hmapped⟩ := h.marked.allocate hok hcall
    refine h.update hmarked hkeep fun x hx => ?_
    rcases List.mem_append.mp hx with hold | hnew
    · exact .inl hold
    · obtain ⟨a, ha, rfl⟩ := map_eq_some_iff.mp (mem_toList.mp hnew)
      exact .inr ⟨chooseAllocator_handle size, hmarked.owned (hmapped a ha)⟩
  | allocateAligned t size alignment =>
    obtain ⟨⟨r, router⟩, hcall, rfl⟩ := map_eq_some_iff.mp hs
    obtain ⟨hmarked, hkeep, howned⟩ := h.marked.allocateAligned hok.1 hok.2 hcall
    refine h.update hmarked hkeep fun x hx => ?_
    rcases List.mem_append.mp hx with hold | hnew
    · exact .inl hold
    · obtain ⟨a, ha, rfl⟩ := map_eq_some_iff.mp (mem_toList.mp hnew)
      exact .inr ⟨chooseAllocator_handle (expandedSize size alignment), howned a ha⟩
  | reAllocate t x newSize =>
    obtain ⟨hx, hs⟩ := ite_none_right_eq_some.mp hs
    obtain ⟨⟨r, d, router⟩, hcall, rfl⟩ := map_eq_some_iff.mp hs
    obtain ⟨hmarked, hmapping, howned⟩ := h.marked.reAllocate hok hcall
    have hkeep : ∀ a, Owned src.base a s.router.mapping → Owned src.base a router.mapping :=
      fun a ha => hmapping ▸ ha
    simp only [Run.resize]
    split
    case isTrue => exact h.update hmarked hkeep fun y hy => .inl (List.mem_of_mem_erase hy)
    case isFalse =>
      cases r with
      | none => exact h.update hmarked hkeep fun y hy => .inl hy
      | some a =>
        refine h.update hmarked hkeep fun y hy => ?_
        rcases List.mem_append.mp hy with hold | hnew
        · exact .inl (List.mem_of_mem_erase hold)
        · obtain rfl := List.mem_singleton.mp hnew
          have hformer : findOwningAllocator src.base x.block.address s.router.mapping =
              some (some kBucketAllocator) := h.live x hx
          right
          rw [Held.moved, hformer]
          split
          case isTrue => exact ⟨h.owner x hx, howned a rfl⟩
          case isFalse => exact ⟨rfl, howned a rfl⟩
  | reAllocateAligned t x newSize alignment =>
    obtain ⟨hx, hs⟩ := ite_none_right_eq_some.mp hs
    obtain ⟨⟨r, router⟩, hcall, rfl⟩ := map_eq_some_iff.mp hs
    obtain ⟨hmarked, hkeep, howned⟩ := h.marked.reAllocateAligned hok.1 hok.2 hcall
    cases r with
    | none => exact h.update hmarked hkeep fun y hy => .inl hy
    | some a =>
      refine h.update hmarked hkeep fun y hy => ?_
      rcases List.mem_append.mp hy with hold | hnew
      · exact .inl (List.mem_of_mem_erase hold)
      · obtain rfl := List.mem_singleton.mp hnew
        exact .inr ⟨chooseAllocator_handle (expandedSize newSize alignment), howned a rfl⟩
  | free x =>
    obtain ⟨hx, hs⟩ := ite_none_right_eq_some.mp hs
    obtain ⟨⟨n, router⟩, hcall, rfl⟩ := map_eq_some_iff.mp hs
    obtain ⟨hpages, hmapping⟩ := free_frame h.marked.onlyBucket hcall
    refine h.update ?_ (fun a ha => hmapping ▸ ha) fun y hy => .inl (List.mem_of_mem_erase hy)
    rw [hpages, hmapping]
    exact h.marked
  | deallocate x =>
    simp only [MemoryRouter.step, deallocate, Option.map_map] at hs
    obtain ⟨hx, hs⟩ := ite_none_right_eq_some.mp hs
    obtain ⟨⟨n, router⟩, hcall, rfl⟩ := map_eq_some_iff.mp hs
    obtain ⟨hpages, hmapping⟩ := free_frame h.marked.onlyBucket hcall
    refine h.update ?_ (fun a ha => hmapping ▸ ha) fun y hy => .inl (List.mem_of_mem_erase hy)
    simp only [Function.comp_apply]
    rw [hpages, hmapping]
    exact h.marked
  | write a v =>
    obtain ⟨-, hs⟩ := ite_none_right_eq_some.mp hs
    cases hs
    exact ⟨h.marked, h.owner, h.live⟩

instance (s : Run Thread P) (t : Thread) (size : ℕ) :
    Decidable (SlotHanded src s.router t size) :=
  inferInstanceAs (Decidable (∀ slab ∈ s.router.active t (BucketAllocator.classIndex size), _))

instance (s : State Thread P) (t : Thread) (size : ℕ) : Decidable (PageMarked src s t size) :=
  have : Decidable (BucketAllocator.Exhausted s.bucket t (BucketAllocator.classIndex size)) :=
    inferInstanceAs (Decidable (∀ slab ∈ s.active t (BucketAllocator.classIndex size), _))
  inferInstanceAs (Decidable (_ → _))

instance (s : Run Thread P) (a : Act Thread) : Decidable (OwnersOk src s a) :=
  match a with
  | .allocate _ _ => inferInstanceAs (Decidable (SlotHanded _ _ _ _))
  | .allocateAligned _ _ _ => inferInstanceAs (Decidable (_ ∧ _))
  | .reAllocate _ _ _ => inferInstanceAs (Decidable (_ → _))
  | .reAllocateAligned _ _ _ _ => inferInstanceAs (Decidable (_ ∧ _))
  | .free _ => inferInstanceAs (Decidable True)
  | .deallocate _ => inferInstanceAs (Decidable True)
  | .write _ _ => inferInstanceAs (Decidable True)

end Runs

/-- A page table whose pages lie in the range that the router addresses. -/
def addressSpace (l : PageLayout) (hsize : l.pageSize = kPageSize)
    (hrange : l.pageSize * l.reserveCount ≤ kVirtualAddressRange)
    (hlt : l.addressSpace + kVirtualAddressRange < kWordRange) :
    AddressSpace (PageTable.Sound l) where
  toPageSource := PageTable.source l hsize (by omega)
  base := l.addressSpace
  base_aligned := hsize ▸ l.aligned
  base_lt := hlt
  inSpace t a h := by
    obtain ⟨k, hused, rfl⟩ := h
    obtain ⟨e, he, -⟩ := PageTable.usedAt_eq_true.mp hused
    have hlt := (List.getElem?_eq_some_iff.mp he).1
    rw [t.property.length] at hlt
    have hmul : l.pageSize * (k + 1) ≤ l.pageSize * l.reserveCount := Nat.mul_le_mul_left _ hlt
    rw [Nat.mul_add, Nat.mul_one] at hmul
    omega

theorem smallLayout_pageSize : PageTable.smallLayout.pageSize = kPageSize := rfl

theorem smallLayout_range : PageTable.smallLayout.pageSize * PageTable.smallLayout.reserveCount ≤
    kVirtualAddressRange := by
  decide

theorem smallLayout_lt :
    PageTable.smallLayout.addressSpace + kVirtualAddressRange < kWordRange := by
  decide

def smallSpace : AddressSpace (PageTable.Sound PageTable.smallLayout) :=
  addressSpace PageTable.smallLayout smallLayout_pageSize smallLayout_range smallLayout_lt

def noBlocks : HeapAllocator.Object := ⟨fun _ => ⟨0, 0, 0, 0, .free, none, none⟩, none, 0, 0, 0⟩

def smallMachine : Machine (Run Bool (PageTable.Sound PageTable.smallLayout)) (Act Bool) :=
  machine smallSpace 0 (fun _ => 0) BucketAllocator.smallPages noBlocks

def smallRun : List (Act Bool) :=
  [.allocate true 8, .reAllocate true (Held.plain 8 (2 ^ 20 + 64)) 16, .allocateAligned false 20 32]

theorem base_dvd : kPageSize ∣ 2 ^ 20 := by decide

theorem base_lt : 2 ^ 20 + kVirtualAddressRange < kWordRange := by decide

def listedSpace (addresses : List ℕ) (hnodup : addresses.Nodup)
    (hpage : ∀ a ∈ addresses, 0 < a ∧ kPageSize ∣ a ∧ a + kPageSize < kWordRange)
    (hspace : ∀ a ∈ addresses, 2 ^ 20 ≤ a ∧ a + kPageSize ≤ 2 ^ 20 + kVirtualAddressRange) :
    AddressSpace ℕ where
  toPageSource := PageSource.listed addresses hnodup hpage
  base := 2 ^ 20
  base_aligned := base_dvd
  base_lt := base_lt
  inSpace _ a h := hspace a (List.mem_of_mem_take h)

end Equilibrium.MemoryRouter
