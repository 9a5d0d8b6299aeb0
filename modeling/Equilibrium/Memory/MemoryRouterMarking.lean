import Equilibrium.Memory.MemoryRouterOwners

/-! The marking of the mapping table by one `Allocate` of the router: which calls stay inside
the table, and what the null pointer of a failed request does to it. -/

namespace Equilibrium.MemoryRouter

open Library.Interleaving BucketAllocator Option

variable {Thread P : Type}

/-- The entries of `size` bytes at `a` lie in the table. -/
def InTable (base a size : ℕ) : Prop :=
  lastIdx base a size < firstIdx base a ∨ lastIdx base a size < kTableLength

/-- Marking the null pointer for `size` bytes stays in the table and changes no entry. -/
def NullOk (base size : ℕ) (table : ℕ → ℕ) : Prop :=
  (0 < base ∧ size = 0 ∧ 2 ^ 20 ∣ base) ∨ (base = 0 ∧ 0 < size ∧ table 0 = kBucketAllocator)

/-- The slot that the active slab of a thread offers: the head of its free list, or else the
one at its bump cursor. -/
def offered (s : BucketAllocator.State Thread P) (t : Thread) (size : ℕ) : Option ℕ :=
  (s.active t (BucketAllocator.classIndex size)).bind fun slab =>
    match (s.header slab).freeList with
    | some slot => some slot
    | none =>
      if (s.header slab).bump < (s.header slab).totalSlots then
        some ((s.header slab).slot slab (s.header slab).bump % kWordRange)
      else none

/-- The request has a size class, the slot on offer can be taken and lies in the table's range,
and without one there is a page, or the null pointer marks nothing. -/
structure AllocateOk (src : AddressSpace P) (t : Thread) (size : ℕ) (s : State Thread P) :
    Prop where
  small : size ≤ kBucketThreshold
  free : ∀ slab ∈ s.active t (BucketAllocator.classIndex size),
    ∀ slot ∈ (s.bucket.header slab).freeList, src.Mapped s.pages slot 8
  inside : ∀ a ∈ offered s.bucket t size, InTable src.base a size
  null : offered s.bucket t size = none → src.requestPage s.pages = none →
    NullOk src.base size s.mapping

/-- A call returns, marks entries of the table only, and for a null pointer of the allocator
returns null with the table unchanged. -/
structure AllocateMarks [DecidableEq Thread] (src : AddressSpace P) (turns : ℕ) (t : Thread)
    (size : ℕ) (s : State Thread P) : Prop where
  returns : (allocate src turns t size s).isSome
  inside : ∀ r b, allocateIn src turns t (chooseAllocator allocatorHandle size) size s =
    some (r, b) → ∀ idx, firstIdx src.base (r.getD 0) ≤ idx → idx ≤ lastIdx src.base (r.getD 0) size →
      idx < kTableLength
  null : ∀ b, allocateIn src turns t (chooseAllocator allocatorHandle size) size s =
    some (none, b) → ∃ s', allocate src turns t size s = some (none, s') ∧ s'.mapping = s.mapping

theorem lastIdx_eq {base a size : ℕ} :
    lastIdx base a size = (pageOffset base a + size + (kWordRange - 1)) % kWordRange / 2 ^ 20 :=
  Nat.shiftRight_eq_div_pow _ _

theorem mark_isSome {id count idx : ℕ} {table : ℕ → ℕ}
    (h : ∀ i, idx ≤ i → i < idx + count → i < kTableLength) : (mark id count idx table).isSome := by
  induction count generalizing idx table with
  | zero => rfl
  | succ count ih =>
    rw [mark, if_pos (h idx (Nat.le_refl _) (by omega))]
    exact ih fun i hle hlt => h i (by omega) (by omega)

theorem inTable_iff {base a size id : ℕ} {table : ℕ → ℕ} : InTable base a size ↔
    (mark id (lastIdx base a size + 1 - firstIdx base a) (firstIdx base a) table).isSome := by
  constructor
  · intro h
    refine mark_isSome fun i hle hlt => ?_
    rcases h with hempty | hlast
    · omega
    · omega
  · intro h
    obtain ⟨table', htable⟩ := isSome_iff_exists.mp h
    by_cases hempty : lastIdx base a size < firstIdx base a
    · exact .inl hempty
    · exact .inr ((mark_eq htable).1 _ (Nat.le_of_not_lt hempty) (by omega))

theorem nullOk_iff (src : AddressSpace P) {size : ℕ} (hsize : size ≤ 1024) {table : ℕ → ℕ} :
    NullOk src.base size table ↔
      mark kBucketAllocator (lastIdx src.base 0 size + 1 - firstIdx src.base 0)
        (firstIdx src.base 0) table = some table := by
  have hlength : kTableLength = 2 ^ 20 := rfl
  have hspace : kVirtualAddressRange = 2 ^ 40 := rfl
  have hbase := src.base_lt
  obtain ⟨k, hk⟩ := src.base_aligned
  rw [show kPageSize = 2 ^ 16 from rfl] at hk
  rw [firstIdx_eq, lastIdx_eq]
  unfold kWordRange at *
  by_cases hzero : src.base = 0
  · have hoffset : pageOffset src.base 0 = 0 := by
      rw [hzero]
      rfl
    rw [hoffset, Nat.zero_div]
    by_cases hsize0 : size = 0
    · constructor
      · rintro (⟨hpos, -, -⟩ | ⟨-, hpos, -⟩) <;> omega
      · intro h
        have hbound := (mark_eq h).1 (2 ^ 20) (by omega) (by omega)
        omega
    · have hlast : (0 + size + (2 ^ 64 - 1)) % 2 ^ 64 / 2 ^ 20 = 0 := by omega
      rw [hlast, mark, if_pos (by decide), mark, Option.some.injEq, Function.update_eq_self_iff]
      constructor
      · rintro (⟨hpos, -, -⟩ | ⟨-, -, htable⟩)
        · omega
        · exact htable.symm
      · exact fun htable => .inr ⟨hzero, by omega, htable.symm⟩
  · have hoffset : pageOffset src.base 0 = 2 ^ 64 - src.base := by
      rw [pageOffset, kWordRange, Nat.zero_add, Nat.mod_eq_of_lt (by omega)]
    rw [hoffset]
    by_cases hempty : size = 0 ∧ 2 ^ 20 ∣ src.base
    · obtain ⟨rfl, hdvd⟩ := hempty
      have hcount : (2 ^ 64 - src.base + 0 + (2 ^ 64 - 1)) % 2 ^ 64 / 2 ^ 20 + 1 -
          (2 ^ 64 - src.base) / 2 ^ 20 = 0 := by omega
      rw [hcount, mark]
      exact ⟨fun _ => rfl, fun _ => .inl ⟨by omega, rfl, hdvd⟩⟩
    · constructor
      · rintro (⟨-, hsize0, hdvd⟩ | ⟨hbase0, -, -⟩)
        · exact absurd ⟨hsize0, hdvd⟩ hempty
        · exact absurd hbase0 hzero
      · intro h
        have hbound := (mark_eq h).1 ((2 ^ 64 - src.base) / 2 ^ 20) (Nat.le_refl _) (by omega)
        omega

section Calls

variable [DecidableEq Thread] {src : AddressSpace P} {turns : ℕ} {t : Thread} {size : ℕ}
  {s : State Thread P} {r : Option ℕ} {b : BucketAllocator.State Thread P}

theorem allocateIn_eq : allocateIn src turns t (chooseAllocator allocatorHandle size) size s =
    (BucketAllocator.allocate src.toPageSource t size s.bucket).map
      fun (r, b) => (r, s.setBucket b) := by
  rw [chooseAllocator_handle]
  rfl

omit [DecidableEq Thread] in
theorem offered_of_exhausted {b : BucketAllocator.State Thread P}
    (h : BucketAllocator.Exhausted b t (classIndex size)) : offered b t size = none := by
  unfold offered
  cases hactive : b.active t (classIndex size) with
  | none => rfl
  | some slab =>
    obtain ⟨hfree, hfull⟩ := h slab hactive
    rw [bind_some, hfree]
    exact if_neg (Nat.not_lt.mpr hfull)

theorem offered_of_allocates (h : BucketAllocator.Allocates src.toPageSource t
    (classIndex size) s.bucket r b) : (∃ a, r = some a ∧ offered s.bucket t size = some a) ∨
      (offered s.bucket t size = none ∧ src.requestPage s.pages = none ∧ r = none) ∨
      (offered s.bucket t size = none ∧ src.requestPage s.pages ≠ none ∧
        ∃ page, src.handed b.pages page ∧ kPageSize ∣ page ∧ r = some (page + kHeaderSize)) := by
  cases h with
  | recycle slab slot hactive hfree hmapped =>
    refine .inl ⟨_, rfl, ?_⟩
    rw [offered, hactive, bind_some, hfree]
  | bump slab hactive hfree hlt =>
    refine .inl ⟨_, rfl, ?_⟩
    rw [offered, hactive, bind_some, hfree]
    exact if_pos hlt
  | fresh page pages hfull hpage =>
    have hgrant := src.page_grant _ _ _ hpage
    refine .inr (.inr ⟨offered_of_exhausted hfull, fun hnone => ?_, page.address,
      (hgrant.handed _).mpr (.inr ⟨0, Nat.one_pos, by simp⟩), hgrant.aligned, rfl⟩)
    rw [show s.bucket.pages = s.pages from rfl, hnone] at hpage
    cases hpage
  | fails hfull hpage => exact .inr (.inl ⟨offered_of_exhausted hfull, hpage, rfl⟩)

theorem inTable_page {page : ℕ} {p : P} (hpage : src.handed p page) (hsize : size ≤ 1024) :
    InTable src.base (page + kHeaderSize) size := by
  obtain ⟨hle, hend⟩ := src.inSpace p page hpage
  have hbase := src.base_lt
  have hspace : kVirtualAddressRange = 2 ^ 40 := rfl
  have hlength : kTableLength = 2 ^ 20 := rfl
  have hoffset : pageOffset src.base (page + kHeaderSize) = page + kHeaderSize - src.base := by
    unfold kHeaderSize kPageSize at *
    exact pageOffset_of_le (by omega) (by omega) (by omega)
  refine .inr ?_
  rw [lastIdx_eq, hoffset]
  unfold kHeaderSize kPageSize kWordRange at *
  omega

theorem allocateLocked_isSome {index : ℕ} (hfree : ∀ slab ∈ s.active t index,
    ∀ slot ∈ (s.bucket.header slab).freeList, src.Mapped s.pages slot 8) :
    (allocateLocked src.toPageSource t index s.bucket).isSome := by
  unfold allocateLocked
  cases hactive : s.bucket.active t index with
  | none => rfl
  | some slab =>
    dsimp only
    cases hslot : (s.bucket.header slab).freeList with
    | none =>
      dsimp only
      split <;> rfl
    | some slot =>
      dsimp only
      rw [if_pos (show src.Mapped s.bucket.pages slot 8 from hfree slab hactive slot hslot)]
      rfl

theorem classIndex_lt (h : size ≤ 1024) : classIndex size < kNumClasses :=
  (classIndex_small h).1

theorem free_of_allocates {index : ℕ} (h : BucketAllocator.Allocates src.toPageSource t index
    s.bucket r b) : ∀ slab ∈ s.active t index, ∀ slot ∈ (s.bucket.header slab).freeList,
      src.Mapped s.pages slot 8 := by
  intro slab hactive slot hslot
  cases h with
  | recycle slab' slot' hactive' hfree hmapped =>
    obtain rfl : slab' = slab := Option.some.inj (hactive'.symm.trans hactive)
    obtain rfl : slot' = slot := Option.some.inj (hfree.symm.trans hslot)
    exact hmapped
  | bump slab' hactive' hfree hlt =>
    obtain rfl : slab' = slab := Option.some.inj (hactive'.symm.trans hactive)
    cases hfree.symm.trans hslot
  | fresh page pages hfull hpage => cases (hfull slab hactive).1.symm.trans hslot
  | fails hfull hpage => cases (hfull slab hactive).1.symm.trans hslot

theorem allocate_of_bucket (h : BucketAllocator.allocate src.toPageSource t size s.bucket =
    some (r, b)) : allocate src turns t size s =
      (mark kBucketAllocator (lastIdx src.base (r.getD 0) size + 1 - firstIdx src.base (r.getD 0))
        (firstIdx src.base (r.getD 0)) s.mapping).map fun table =>
          (r, { s.setBucket b with mapping := table }) := by
  have hsame : (s.setBucket b).mapping = s.mapping := rfl
  rw [allocate, allocateIn_eq, h, chooseAllocator_handle, map_some, bind_some]
  dsimp only
  rw [hsame]

theorem AllocateMarks.ok (h : AllocateMarks src turns t size s) : AllocateOk src t size s := by
  obtain ⟨⟨r, s'⟩, hcall⟩ := isSome_iff_exists.mp h.returns
  obtain ⟨b, table, hbucket, hmark, rfl⟩ := allocate_eq hcall
  obtain ⟨hsize, hallocates⟩ := allocates_of_allocate hbucket
  have hinside : InTable src.base (r.getD 0) size :=
    inTable_iff.mpr (isSome_of_eq_some hmark)
  rcases offered_of_allocates hallocates with ⟨a, rfl, hoffer⟩ | ⟨hnone, -, rfl⟩ |
    ⟨hnone, hpage, -⟩
  · refine ⟨hsize, free_of_allocates hallocates, fun a' ha' => ?_, fun hnone => ?_⟩
    · obtain rfl : a = a' := Option.some.inj (hoffer.symm.trans ha')
      exact hinside
    · cases hnone.symm.trans hoffer
  · refine ⟨hsize, free_of_allocates hallocates, fun a ha => ?_, fun _ _ => ?_⟩
    · cases hnone.symm.trans ha
    · obtain ⟨s', hnull, hsame⟩ := h.null _ (by rw [allocateIn_eq, hbucket]; rfl)
      rw [hcall] at hnull
      cases hnull
      obtain rfl : table = s.mapping := hsame
      exact (nullOk_iff src hsize).mpr hmark
  · refine ⟨hsize, free_of_allocates hallocates, fun a ha => ?_, fun _ hno => absurd hno hpage⟩
    cases hnone.symm.trans ha

theorem AllocateOk.marks (h : AllocateOk src t size s) : AllocateMarks src turns t size s := by
  have hlocked := allocateLocked_isSome h.free
  have hindex := classIndex_lt h.small
  have hbucket : (BucketAllocator.allocate src.toPageSource t size s.bucket).isSome := by
    rw [BucketAllocator.allocate, if_pos hindex]
    exact hlocked
  obtain ⟨⟨r, b⟩, hcall⟩ := isSome_iff_exists.mp hbucket
  have hin : ∀ r' b', allocateIn src turns t (chooseAllocator allocatorHandle size) size s =
      some (r', b') → r' = r := by
    intro r' b' hr
    rw [allocateIn_eq, hcall] at hr
    cases hr
    rfl
  have hallocate : allocate src turns t size s = _ := allocate_of_bucket hcall
  obtain ⟨-, hallocates⟩ := allocates_of_allocate hcall
  have hnull : r = none → mark kBucketAllocator
      (lastIdx src.base 0 size + 1 - firstIdx src.base 0) (firstIdx src.base 0) s.mapping =
        some s.mapping := by
    rintro rfl
    rcases offered_of_allocates hallocates with ⟨a, ha, -⟩ | ⟨hnone, hpage, -⟩ |
      ⟨-, -, page, -, -, ha⟩
    · cases ha
    · exact (nullOk_iff src h.small).mp (h.null hnone hpage)
    · cases ha
  have hinside : InTable src.base (r.getD 0) size := by
    rcases offered_of_allocates hallocates with ⟨a, rfl, hoffer⟩ | ⟨-, -, rfl⟩ |
      ⟨-, -, page, hhanded, -, rfl⟩
    · exact h.inside a hoffer
    · exact inTable_iff.mpr (isSome_of_eq_some (hnull rfl))
    · exact inTable_page hhanded h.small
  refine ⟨?_, fun r' b' hr idx hle hlast => ?_, fun b' hr => ?_⟩
  · rw [hallocate, isSome_map]
    exact inTable_iff.mp hinside
  · rw [hin r' b' hr] at hle hlast
    rcases hinside with hempty | hlt
    · omega
    · omega
  · obtain rfl := hin none b' hr
    rw [hallocate, getD_none, hnull rfl]
    exact ⟨_, rfl, rfl⟩

/-- A call of `Allocate` marks what it should exactly if its request has a size class, the slot
on offer can be taken and lies in the table's range, and a request that fails has a null pointer
that marks nothing. -/
theorem allocate_marks : AllocateMarks src turns t size s ↔ AllocateOk src t size s :=
  ⟨AllocateMarks.ok, AllocateOk.marks⟩

end Calls

def onePageSpace : AddressSpace ℕ :=
  listedSpace [2 ^ 20] (by decide) (by decide) (by decide)

def onePageMachine : Machine (Run Bool ℕ) (Act Bool) :=
  machine onePageSpace 0 (fun _ => 0) 0 noBlocks

/-- With the only page in use, a request of another size class fails, and the entries of the
null pointer lie past the table. -/
theorem failed_request_past_table : ∃ s : Run Bool ℕ, onePageMachine.Reachable s ∧
    (allocateIn onePageSpace 0 true (chooseAllocator allocatorHandle 16) 16 s.router).any
      (fun p => p.1 = none) = true ∧ ¬AllocateMarks onePageSpace 0 true 16 s.router := by
  have hrun : (onePageMachine.run onePageMachine.init [.allocate true 8]).any (fun s =>
      (allocateIn onePageSpace 0 true (chooseAllocator allocatorHandle 16) 16 s.router).any
        (fun p => p.1 = none) ∧ allocate onePageSpace 0 true 16 s.router = none) = true := by
    decide +kernel
  obtain ⟨s, hs, hfacts⟩ := (any_eq_true _ _).mp hrun
  obtain ⟨hnull, hnone⟩ := of_decide_eq_true hfacts
  refine ⟨s, Machine.Reachable.init.run hs, hnull, fun h => ?_⟩
  have hreturns := h.returns
  rw [hnone] at hreturns
  cases hreturns

end Equilibrium.MemoryRouter
