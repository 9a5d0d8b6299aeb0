import Equilibrium.Memory.MemoryRouterMarking

/-! Aligned blocks of the memory router: where the recorded adjustment and the payload lie, and
which block of the slab allocator goes back. -/

namespace Equilibrium.MemoryRouter

open Library.ByteMemory Library.Interleaving BucketAllocator List Nat Option
open BucketAllocator (slotSizeFor)

section Specification

variable {Thread P : Type} [DecidableEq Thread] (src : AddressSpace P) (turns : ℕ)

/-- An aligned block: its adjustment and its payload lie in the block that `Allocate` gave. -/
structure Inside (t : Thread) (size alignment : ℕ) (s : State Thread P) (a : ℕ)
    (s' : State Thread P) : Prop where
  aligned : alignment ∣ a
  raw : ∃ raw s₁, allocate src turns t (expandedSize size alignment) s = some (some raw, s₁) ∧
    raw + 8 ≤ a ∧ a + size ≤ raw + expandedSize size alignment ∧
    load s'.memory 8 (a - 8) = a - raw

/-- `AllocateAligned` returns null or an aligned block. -/
def Places (t : Thread) (size alignment : ℕ) (s : State Thread P) : Prop :=
  ∃ r s', allocateAligned src turns t size alignment s = some (r, s') ∧
    ∀ a ∈ r, Inside src turns t size alignment s a s'

/-- The slab allocator frees exactly the block at `a`. -/
def Releases (s : State Thread P) (a : ℕ) (s' : State Thread P) : Prop :=
  ∃ n b, BucketAllocator.free src.toPageSource (some a) s.bucket = some (n, b) ∧ s' = s.setBucket b

def Held.Shifted (h : Held) : Prop := h.block.address ≠ h.slot.address

def ReleasesFormer (t : Thread) (h : Held) (newSize alignment : ℕ) (s : State Thread P) : Prop :=
  ∃ r s', reAllocateAligned src turns t h.block.address h.block.size newSize alignment s =
      some (r, s') ∧
    ∀ a ∈ r, ∃ s₁, allocateAligned src turns t newSize alignment s = some (some a, s₁) ∧
      Releases src (s₁.setMemory (copy s₁.memory a h.block.address (min h.block.size newSize)))
        h.slot.address s'

def Act.Sound (s : Run Thread P) : Act Thread → Prop
  | .allocateAligned t size alignment => Places src turns t size alignment s.router
  | .reAllocateAligned t h newSize alignment => Places src turns t newSize alignment s.router ∧
      ReleasesFormer src turns t h newSize alignment s.router
  | .deallocate h => h.Shifted →
      ∃ s', MemoryRouter.deallocate src turns h.block.address s.router = some (true, s') ∧
        Releases src s.router h.slot.address s'
  | _ => True

/-- The slab allocator has no slot for the request and no page to take it from. -/
def Fails (t : Thread) (size : ℕ) (s : State Thread P) : Prop :=
  BucketAllocator.Exhausted s.bucket t (BucketAllocator.classIndex size) ∧
    src.requestPage s.pages = none

/-- The expanded size has a size class, and the alignment leaves room for the adjustment and the
size does not wrap, or else the request fails and marks no entry past the table. -/
def Fitting (t : Thread) (size alignment : ℕ) (s : State Thread P) : Prop :=
  expandedSize size alignment ≤ kBucketThreshold ∧
    ((Fails src t (expandedSize size alignment) s ∧
        InTable src.base 0 (expandedSize size alignment)) ∨
      (¬ Fails src t (expandedSize size alignment) s ∧ 8 ≤ alignment ∧
        size + alignment + 8 < kWordRange))

def Act.Fitting (s : Run Thread P) : Act Thread → Prop
  | .allocateAligned t size alignment => MemoryRouter.Fitting src t size alignment s.router
  | .reAllocateAligned t _ newSize alignment =>
      MemoryRouter.Fitting src t newSize alignment s.router
  | .deallocate h => ¬ h.Shifted
  | _ => True

def IsAlignment (alignment : ℕ) : Prop := ∃ k < 64, alignment = 2 ^ k

/-- What the callers see to: sizes and alignments are words, the aligned calls are for aligned
blocks, and the other ones are not. -/
def Act.Proper (s : Run Thread P) : Act Thread → Prop
  | .allocate _ _ => True
  | .allocateAligned _ size alignment => size < kWordRange ∧ IsAlignment alignment
  | .reAllocate _ h _ => h ∈ s.live ∧ ¬ h.Shifted
  | .reAllocateAligned _ h newSize alignment =>
      h ∈ s.live ∧ h.Shifted ∧ newSize < kWordRange ∧ IsAlignment alignment
  | .free h => h ∈ s.live ∧ ¬ h.Shifted
  | .deallocate h => h ∈ s.live
  | .write _ _ => True

end Specification

section Blocks

variable {Thread P : Type} {m m' : Bytes} {base : ℕ} {table table' : ℕ → ℕ} {h : Held}

/-- An aligned block and the adjustment before it lie in the block of the slab allocator, which
the table knows. -/
structure Adjusted (m : Bytes) (base : ℕ) (table : ℕ → ℕ) (h : Held) : Prop where
  low : h.slot.address + 8 ≤ h.block.address
  high : h.block.address + h.block.size < h.slot.address + h.slot.size
  word : load m 8 (h.block.address - 8) = h.block.address - h.slot.address
  owned : ∀ x, h.slot.address ≤ x → x < h.slot.address + h.slot.size → Owned base x table

def Good (m : Bytes) (base : ℕ) (table : ℕ → ℕ) (h : Held) : Prop :=
  (h.block.address = h.slot.address ∧ h.block.size ≤ slotSizeFor h.slot.size) ∨
    Adjusted m base table h

theorem Good.congr (hgood : Good m base table h) (hsize : h.slot.size ≤ slotSizeFor h.slot.size)
    (hm : ∀ x, h.slot.address ≤ x → x < h.slot.address + slotSizeFor h.slot.size → m' x = m x)
    (howned : ∀ x, Owned base x table → Owned base x table') : Good m' base table' h := by
  obtain hplain | hadjusted := hgood
  · exact .inl hplain
  · have hlow := hadjusted.low
    have hhigh := hadjusted.high
    refine .inr ⟨hlow, hhigh, ?_, fun x hx hx' => howned x (hadjusted.owned x hx hx')⟩
    rw [← hadjusted.word]
    exact load_congr fun x hx hx' => hm x (by omega) (by omega)

/-- What holds of the blocks that the users of the router hold, and of the blocks of the slab
allocator. -/
structure AlignedInv (src : AddressSpace P) (p : P) (s : State Thread P) (live : List Held)
    (blocks : List Block) : Prop where
  slots : ∃ slabs free, BucketAllocator.RunInv src.toPageSource p ⟨s.bucket, blocks⟩ slabs free
  table : OnlyBucket s.mapping
  mem : ∀ h ∈ live, h.slot ∈ blocks
  nodup : (live.map Held.slot).Nodup
  good : ∀ h ∈ live, Good s.memory src.base s.mapping h

end Blocks

section Calls

variable {Thread P : Type} {src : AddressSpace P} {p : P} {s : State Thread P}
  {live : List Held} {blocks : List Block} {h : Held} {c : Block}

section

variable (hinv : AlignedInv src p s live blocks)
include hinv

theorem AlignedInv.inv :
    ∃ slabs free, BucketAllocator.Inv src.toPageSource s.bucket blocks slabs free := by
  obtain ⟨slabs, free, hslots⟩ := hinv.slots
  exact ⟨slabs, free, hslots.inv⟩

theorem AlignedInv.slotAt (hc : c ∈ blocks) :
    BucketAllocator.SlotAt src.toPageSource s.pages c := by
  obtain ⟨slabs, free, hslots⟩ := hinv.inv
  exact hslots.slotAt hc

theorem AlignedInv.address_ne {b : Block} (hb : b ∈ blocks) (hc : c ∈ blocks) (hne : b ≠ c) :
    b.address ≠ c.address := by
  obtain ⟨slabs, free, hslots⟩ := hinv.inv
  exact fun heq => hne (inj_on_of_nodup_map hslots.nodup_live hb hc heq)

theorem AlignedInv.within (hc : c ∈ blocks) (hfree : c ∉ live.map Held.slot) {m : Bytes}
    (hm : ∀ x, x < c.address ∨ c.address + slotSizeFor c.size ≤ x → m x = s.memory x) :
    AlignedInv src p (s.setMemory m) live blocks := by
  obtain ⟨slabs, free, hslots⟩ := hinv.slots
  refine ⟨⟨slabs, free, hslots.inv.within hc fun x hx => hm x ?_, hslots.nodup, hslots.created⟩,
    hinv.table, hinv.mem, hinv.nodup, fun h hh => ?_⟩
  · rw [hslots.inv.slotSize_eq hc] at hx
    exact hx
  · have hne : h.slot ≠ c := fun heq => hfree (heq ▸ mem_map_of_mem hh)
    have hapart := hslots.inv.live_apart (hinv.mem h hh) hc (hinv.address_ne (hinv.mem h hh) hc hne)
    refine (hinv.good h hh).congr (hinv.slotAt (hinv.mem h hh)).size (fun x hx hx' => hm x ?_)
      fun x hx => hx
    omega

theorem AlignedInv.hold (hc : h.slot ∈ blocks) (hfree : h.slot ∉ live.map Held.slot)
    (hgood : Good s.memory src.base s.mapping h) : AlignedInv src p s (live ++ [h]) blocks := by
  refine ⟨hinv.slots, hinv.table, fun x hx => ?_, ?_, fun x hx => ?_⟩
  · rcases mem_append.mp hx with hold | hnew
    · exact hinv.mem x hold
    · rw [mem_singleton.mp hnew]
      exact hc
  · rw [map_append, map_singleton]
    exact nodup_append.mpr ⟨hinv.nodup, nodup_singleton _, fun x hx y hy heq => by
      rw [mem_singleton.mp hy] at heq
      exact hfree (heq ▸ hx)⟩
  · rcases mem_append.mp hx with hold | hnew
    · exact hinv.good x hold
    · rw [mem_singleton.mp hnew]
      exact hgood

theorem AlignedInv.slot_ne (hh : h ∈ live) {x : Held} (hx : x ∈ live.erase h) :
    x.slot ≠ h.slot := by
  have hnodup : live.Nodup := hinv.nodup.of_map _
  obtain ⟨hne, hx⟩ := (hnodup.mem_erase_iff).mp hx
  exact fun heq => hne (inj_on_of_nodup_map hinv.nodup hx hh heq)

theorem AlignedInv.forget (h : Held) : AlignedInv src p s (live.erase h) blocks :=
  ⟨hinv.slots, hinv.table, fun x hx => hinv.mem x (mem_of_mem_erase hx),
    hinv.nodup.sublist (erase_sublist.map _), fun x hx =>
      hinv.good x (mem_of_mem_erase hx)⟩

theorem AlignedInv.freed (hh : h ∈ live) :
    AlignedInv src p (s.setBucket (s.bucket.freed h.slot.address)) (live.erase h)
      (blocks.erase h.slot) := by
  obtain ⟨slabs, free, hslots⟩ := hinv.slots
  have hmem := hinv.mem h hh
  obtain ⟨free', hfreed⟩ : ∃ free', BucketAllocator.Inv src.toPageSource
      (s.bucket.freed h.slot.address) (blocks.erase h.slot) slabs free' :=
    hslots.inv.freed hmem rfl rfl rfl rfl
  refine ⟨⟨slabs, free', hfreed, hslots.nodup, hslots.created⟩, hinv.table, fun x hx => ?_,
    hinv.nodup.sublist (erase_sublist.map _), fun x hx => ?_⟩
  · exact (mem_erase_of_ne (hinv.slot_ne hh hx)).mpr (hinv.mem x (mem_of_mem_erase hx))
  · have hx' := hinv.mem x (mem_of_mem_erase hx)
    have hne := hinv.address_ne hmem hx' (hinv.slot_ne hh hx).symm
    exact (hinv.good x (mem_of_mem_erase hx)).congr (hinv.slotAt hx').size
      (fun a ha ha' => freed_frame hslots.inv hmem hx' hne ha ha') fun a ha => ha

theorem AlignedInv.mark {count idx : ℕ} {table : ℕ → ℕ}
    (hmark : mark kBucketAllocator count idx s.mapping = some table) :
    AlignedInv src p { s with mapping := table } live blocks := by
  refine ⟨hinv.slots, hinv.table.mark hmark, hinv.mem, hinv.nodup, fun h hh => ?_⟩
  exact (hinv.good h hh).congr (hinv.slotAt (hinv.mem h hh)).size (fun _ _ _ => rfl)
    fun x hx => hx.mark hmark

theorem AlignedInv.new {a size : ℕ} {s' : State Thread P}
    (hnew : AlignedInv src p s' live (blocks ++ [⟨a, size⟩])) :
    (⟨a, size⟩ : Block) ∉ live.map Held.slot := by
  intro hmem
  obtain ⟨h, hh, heq⟩ := mem_map.mp hmem
  have hslot := hinv.mem h hh
  rw [heq] at hslot
  obtain ⟨slabs, free, hslots⟩ := hnew.inv
  have hnodup := hslots.nodup_live
  rw [map_append, nodup_append] at hnodup
  exact hnodup.2.2 a (mem_map.mpr ⟨_, hslot, rfl⟩) a (mem_singleton.mpr rfl) rfl

theorem AlignedInv.address_ne_new (hh : h ∈ live) {a size : ℕ} {s' : State Thread P}
    (hnew : AlignedInv src p s' live (blocks ++ [⟨a, size⟩])) : h.slot.address ≠ a := by
  have hold : h.slot ∈ blocks ++ [⟨a, size⟩] := mem_append_left _ (hinv.mem h hh)
  exact hnew.address_ne hold mem_concat_self fun hsame =>
    hinv.new hnew (hsame ▸ mem_map_of_mem hh)

end

variable [DecidableEq Thread] {t : Thread} {size : ℕ} {r : Option ℕ}
  {b : BucketAllocator.State Thread P} {turns : ℕ} {s' : State Thread P}

theorem AlignedInv.allocates (hinv : AlignedInv src p s live blocks)
    (ha : BucketAllocator.allocate src.toPageSource t size s.bucket = some (r, b)) :
    AlignedInv src p (s.setBucket b) live (blocks ++ (r.map fun a => ⟨a, size⟩).toList) := by
  obtain ⟨slabs, free, hslots⟩ := hinv.slots
  obtain ⟨hsize, hallocates⟩ := allocates_of_allocate ha
  refine ⟨hslots.allocates hsize hallocates, hinv.table,
    fun h hh => mem_append_left _ (hinv.mem h hh), hinv.nodup, fun h hh => ?_⟩
  exact (hinv.good h hh).congr (hinv.slotAt (hinv.mem h hh)).size
    (fun x hx hx' => hallocates.frame hslots.inv (hinv.mem h hh) hx hx') fun x hx => hx

theorem AlignedInv.allocate (hinv : AlignedInv src p s live blocks)
    (ha : allocate src turns t size s = some (r, s')) :
    AlignedInv src p s' live (blocks ++ (r.map fun a => ⟨a, size⟩).toList) := by
  obtain ⟨b, table, hbucket, hmark, rfl⟩ := allocate_eq ha
  exact (hinv.allocates hbucket).mark hmark

end Calls

section Adjustment

variable {raw alignment : ℕ}

theorem adjustment_eq (hk : IsAlignment alignment) (raw : ℕ) :
    adjustment raw alignment = alignment - raw % alignment := by
  obtain ⟨k, hk, rfl⟩ := hk
  have hpos : 0 < 2 ^ k := Nat.two_pow_pos k
  have hlt : 2 ^ k < kWordRange := Nat.pow_lt_pow_right (by decide) hk
  have hmod := mod_lt raw hpos
  have hmask : (2 ^ k + (kWordRange - 1)) % kWordRange = 2 ^ k - 1 := by
    rw [show 2 ^ k + (kWordRange - 1) = 2 ^ k - 1 + kWordRange by omega, add_mod_right,
      mod_eq_of_lt (by omega)]
  rw [adjustment, hmask, and_two_pow_sub_one_eq_mod,
    show 2 ^ k + (kWordRange - raw % 2 ^ k) = 2 ^ k - raw % 2 ^ k + kWordRange by omega,
    add_mod_right, mod_eq_of_lt (by omega)]

/-- The aligned address is the next multiple of the alignment. -/
structure NextMultiple (raw alignment a : ℕ) : Prop where
  lt : raw < a
  le : a ≤ raw + alignment
  dvd : alignment ∣ a
  small : alignment < 8 → a < raw + 8
  room : 8 ≤ alignment → 8 ∣ raw → raw + 8 ≤ a

theorem nextMultiple (hk : IsAlignment alignment) (raw : ℕ) :
    NextMultiple raw alignment (raw + adjustment raw alignment) := by
  have hadjust := adjustment_eq hk raw
  obtain ⟨k, hk, rfl⟩ := hk
  have hmod := mod_lt raw (Nat.two_pow_pos k)
  have hdiv := mod_add_div raw (2 ^ k)
  refine ⟨by omega, by omega, ⟨raw / 2 ^ k + 1, ?_⟩, fun h => by omega, fun h h8 => ?_⟩
  · rw [Nat.mul_add, Nat.mul_one]
    omega
  · have hdvd : 8 ∣ 2 ^ k := by
      have hk3 : 3 ≤ k := by
        by_contra hlt
        have hpow : 2 ^ k ≤ 2 ^ 2 := Nat.pow_le_pow_right (by decide) (by omega)
        omega
      exact Nat.pow_dvd_pow 2 hk3
    have hrest : 8 ∣ raw % 2 ^ k := (dvd_mod_iff hdvd).mpr h8
    omega

end Adjustment

section Aligned

variable {Thread P : Type} [DecidableEq Thread] {src : AddressSpace P} {p : P}
  {s s' : State Thread P} {live : List Held} {blocks : List Block} {t : Thread}
  {turns size alignment a : ℕ}

theorem le_kWordRange (hk : IsAlignment alignment) :
    alignment ≤ 2 ^ 63 ∧ alignment ∣ kWordRange := by
  obtain ⟨k, hk, rfl⟩ := hk
  exact ⟨Nat.pow_le_pow_right (by decide) (by omega), Nat.pow_dvd_pow 2 (Nat.le_of_lt hk)⟩

theorem allocateAligned_next (hinv : AlignedInv src p s live blocks) (hk : IsAlignment alignment)
    (h : allocateAligned src turns t size alignment s = some (some a, s')) :
    ∃ raw s₁, allocate src turns t (expandedSize size alignment) s = some (some raw, s₁) ∧
      NextMultiple raw alignment a ∧ a < kWordRange ∧ s' = s₁.record a (a - raw) := by
  obtain ⟨hnone, -⟩ | ⟨raw, s₁, hcall, ha, hmapped, hs'⟩ := allocateAligned_eq h
  · cases hnone
  · have hnext := nextMultiple hk raw
    have hnew := hinv.allocate hcall
    have hat := hnew.slotAt mem_concat_self
    have hraw : raw < kWordRange := by
      have hfits := hat.page.fits
      have hhigh : raw + _ ≤ _ := hat.high
      have hword := hat.word
      omega
    have hle : raw + adjustment raw alignment ≤ kWordRange := by
      obtain ⟨hle, m, hm⟩ := le_kWordRange hk
      obtain ⟨q, hq⟩ := hnext.dvd
      have hlt : alignment * (q - 1) < alignment * m := by
        have hsub : alignment * (q - 1) = alignment * q - alignment := by
          rw [Nat.mul_sub, Nat.mul_one]
        have hbound := hnext.le
        omega
      have hq' : q ≤ m := by
        have := Nat.lt_of_mul_lt_mul_left hlt
        omega
      rw [hq, hm]
      exact Nat.mul_le_mul_left _ hq'
    have hne : raw + adjustment raw alignment ≠ kWordRange := by
      intro heq
      rw [heq, mod_self] at hmapped
      exact not_mapped_end src hmapped
    have hmod : (raw + adjustment raw alignment) % kWordRange = raw + adjustment raw alignment :=
      mod_eq_of_lt (by omega)
    rw [hmod] at ha hs'
    obtain rfl : a = raw + adjustment raw alignment := Option.some.inj ha
    refine ⟨raw, s₁, hcall, hnext, by omega, ?_⟩
    rw [Nat.add_sub_cancel_left]
    exact hs'

theorem recordAddress_eq (hle : 8 ≤ a) (hlt : a < kWordRange) : recordAddress a = a - 8 := by
  unfold recordAddress kWordRange at *
  omega

omit [DecidableEq Thread] in
/-- A slot lies in the range of the table. -/
theorem offset_slot {c : Block} (hat : BucketAllocator.SlotAt src.toPageSource s.pages c) :
    src.base < c.address ∧ c.address + slotSizeFor c.size ≤ src.base + kVirtualAddressRange := by
  obtain ⟨hle, hend⟩ := src.inSpace _ _ hat.handed
  have hlow := hat.low
  have hhigh := hat.high
  have hheader : 0 < kHeaderSize := by decide
  omega

/-- A block with room before it is aligned inside the block of the slab allocator. -/
theorem allocateAligned_adjusted (hinv : AlignedInv src p s live blocks)
    (hk : IsAlignment alignment) (hle : 8 ≤ alignment) (hsize : size + alignment + 8 < kWordRange)
    (h : allocateAligned src turns t size alignment s = some (some a, s')) :
    ∃ raw s₁, allocate src turns t (expandedSize size alignment) s = some (some raw, s₁) ∧
      AlignedInv src p s' live (blocks ++ [⟨raw, expandedSize size alignment⟩]) ∧
      (⟨raw, expandedSize size alignment⟩ : Block) ∉ live.map Held.slot ∧ alignment ∣ a ∧
      ∀ owner, Adjusted s'.memory src.base s'.mapping
        ⟨⟨a, size⟩, ⟨raw, expandedSize size alignment⟩, owner⟩ := by
  obtain ⟨raw, s₁, hcall, hnext, hlt, rfl⟩ := allocateAligned_next hinv hk h
  have hexpanded : expandedSize size alignment = size + alignment + 8 := mod_eq_of_lt hsize
  have hnew : AlignedInv src p s₁ live (blocks ++ [⟨raw, expandedSize size alignment⟩]) :=
    hinv.allocate hcall
  have hfree := hinv.new hnew
  have hmem : (⟨raw, expandedSize size alignment⟩ : Block) ∈
      blocks ++ [⟨raw, expandedSize size alignment⟩] :=
    mem_concat_self
  have hat := hnew.slotAt hmem
  have hroom := hnext.room hle hat.aligned
  have hbound := hnext.le
  have hfits : expandedSize size alignment ≤ slotSizeFor (expandedSize size alignment) := hat.size
  have hrecord : recordAddress a = a - 8 := recordAddress_eq (by omega) hlt
  refine ⟨raw, s₁, hcall, ?_, hfree, hnext.dvd, fun owner => ⟨hroom, ?_, ?_, fun x hx hx' => ?_⟩⟩
  · refine hnew.within hmem hfree fun x hx => ?_
    rw [hrecord]
    refine store_of_outside ?_
    have hx : x < raw ∨ raw + slotSizeFor (expandedSize size alignment) ≤ x := hx
    omega
  · show a + size < raw + expandedSize size alignment
    omega
  · have hword : a - raw < 256 ^ 8 := by
      unfold kWordRange at hlt
      omega
    rw [← hrecord]
    exact load_store hword
  · obtain ⟨hbase, hend⟩ := offset_slot hat
    have hword : 8 ≤ slotSizeFor (expandedSize size alignment) := hat.word
    have hbase : src.base < raw := hbase
    have hend : raw + slotSizeFor (expandedSize size alignment) ≤ _ := hend
    have hx : raw ≤ x := hx
    have hx' : x < raw + expandedSize size alignment := hx'
    obtain ⟨b, table, hbucket, hmark, rfl⟩ := allocate_eq hcall
    obtain ⟨hsmall, -⟩ := allocates_of_allocate hbucket
    obtain ⟨-, howned⟩ := owned_of_marked (Nat.le_of_lt hbase) (by omega) src.base_lt hsmall
      (show x - raw < expandedSize size alignment by omega) hmark
    rw [Nat.add_sub_cancel' hx] at howned
    exact howned

theorem Adjusted.rawBlock {m : Bytes} {base : ℕ} {table : ℕ → ℕ} {h : Held}
    (hadj : Adjusted m base table h) (hlt : h.block.address < kWordRange) :
    MemoryRouter.rawBlock m h.block.address = h.slot.address := by
  have hlow := hadj.low
  rw [MemoryRouter.rawBlock, recordAddress_eq (by omega) hlt, hadj.word]
  unfold kWordRange at *
  omega

theorem AlignedInv.allocate_isSome (hinv : AlignedInv src p s live blocks)
    (hsmall : size ≤ kBucketThreshold) :
    ∃ r b, BucketAllocator.allocate src.toPageSource t size s.bucket = some (r, b) := by
  obtain ⟨slabs, free, hslots⟩ := hinv.inv
  have hfree : ∀ slab ∈ s.active t (classIndex size),
      ∀ slot ∈ (s.bucket.header slab).freeList, src.Mapped s.pages slot 8 := by
    intro slab hactive slot hslot
    have hs := (hslots.active t _ slab hactive).1
    have hchain := (hslots.ok slab hs).chain
    have hfirst : slot ∈ free slab := by
      cases hlist : free slab with
      | nil =>
        rw [hlist] at hchain
        cases hslot.symm.trans hchain
      | cons x rest =>
        rw [hlist] at hchain
        obtain rfl : slot = x := Option.some.inj (hslot.symm.trans hchain.1)
        exact mem_cons_self
    obtain ⟨hlow, hhigh⟩ := hslots.free_range hs hfirst
    exact hslots.mapped_of_range hs (by omega) hhigh
  obtain ⟨⟨r, b⟩, hlocked⟩ := isSome_iff_exists.mp (allocateLocked_isSome hfree)
  exact ⟨r, b, (if_pos (classIndex_lt hsmall)).trans hlocked⟩

theorem allocate_returns (hinv : AlignedInv src p s live blocks) (hsmall : size ≤ kBucketThreshold)
    (hnull : Fails src t size s → InTable src.base 0 size) :
    ∃ r s', allocate src turns t size s = some (r, s') := by
  obtain ⟨r, b, hbucket⟩ := hinv.allocate_isSome hsmall
  have hnew := hinv.allocates hbucket
  have hin : InTable src.base (r.getD 0) size := by
    cases r with
    | none =>
      obtain ⟨-, hallocates⟩ := allocates_of_allocate hbucket
      cases hallocates with
      | fails hfull hpage => exact hnull ⟨hfull, hpage⟩
    | some raw =>
      have hat := hnew.slotAt mem_concat_self
      obtain ⟨hbase, hend⟩ := offset_slot hat
      have hfits : size ≤ slotSizeFor size := hat.size
      have hlimit := src.base_lt
      have hrange : kVirtualAddressRange = 2 ^ 40 := rfl
      have hlength : kTableLength = 2 ^ 20 := rfl
      have hend : raw + slotSizeFor size ≤ _ := hend
      have hbase : src.base < raw := hbase
      have hoffset : pageOffset src.base raw = raw - src.base :=
        pageOffset_of_le (by omega) (by omega) (by omega)
      refine .inr ?_
      rw [getD_some, lastIdx_eq, hoffset]
      unfold kWordRange at *
      omega
  rw [allocate_of_bucket hbucket]
  obtain ⟨table, htable⟩ := isSome_iff_exists.mp (inTable_iff.mp hin)
  exact ⟨r, _, by rw [htable]; rfl⟩

theorem not_fails {r : ℕ} (h : allocate src turns t size s = some (some r, s')) :
    ¬ Fails src t size s := by
  rintro ⟨hfull, hpage⟩
  obtain ⟨b, table, hbucket, hmark, -⟩ := allocate_eq h
  obtain ⟨-, hallocates⟩ := allocates_of_allocate hbucket
  cases hallocates with
  | recycle slab slot hactive hfree hmapped => cases hfree.symm.trans (hfull slab hactive).1
  | bump slab hactive hfree hlt =>
    have hge := (hfull slab hactive).2
    omega
  | fresh page pages hfull' hpage' => cases hpage'.symm.trans hpage

theorem fails_of_none (h : allocate src turns t size s = some (none, s')) : Fails src t size s := by
  obtain ⟨b, table, hbucket, -, -⟩ := allocate_eq h
  obtain ⟨-, hallocates⟩ := allocates_of_allocate hbucket
  cases hallocates with
  | fails hfull hpage => exact ⟨hfull, hpage⟩

theorem allocateAligned_returns (hinv : AlignedInv src p s live blocks)
    (hk : IsAlignment alignment) (hle : 8 ≤ alignment) (hsize : size + alignment + 8 < kWordRange)
    {raw : ℕ} (h : allocate src turns t (expandedSize size alignment) s = some (some raw, s')) :
    ∃ a s₁, allocateAligned src turns t size alignment s = some (some a, s₁) := by
  have hexpanded : expandedSize size alignment = size + alignment + 8 := mod_eq_of_lt hsize
  have hat := (hinv.allocate h).slotAt mem_concat_self
  have hnext := nextMultiple hk raw
  have hroom := hnext.room hle hat.aligned
  have hbound := hnext.le
  have hfits : expandedSize size alignment ≤ slotSizeFor (expandedSize size alignment) := hat.size
  have hlow : slabFromPtr raw + kHeaderSize ≤ raw := hat.low
  have hhigh : raw + slotSizeFor (expandedSize size alignment) ≤
      slabFromPtr raw + kPageSize := hat.high
  have hpage : slabFromPtr raw + kPageSize ≤ kWordRange := hat.page.fits
  have hmod : (raw + adjustment raw alignment) % kWordRange = raw + adjustment raw alignment :=
    mod_eq_of_lt (by omega)
  have hmapped : src.Mapped s'.pages
      (recordAddress ((raw + adjustment raw alignment) % kWordRange)) 8 := by
    have hhanded : src.handed s'.pages (slabFromPtr raw) := hat.handed
    rw [hmod, recordAddress_eq (by omega) (by omega)]
    exact PageSource.mapped_of_page hhanded hat.page.aligned (by omega) (by omega)
  have hcall : allocate src turns t ((size + alignment + 8) % kWordRange) s =
      some (some raw, s') := h
  rw [allocateAligned, hcall]
  exact ⟨_, _, if_pos hmapped⟩

theorem places_iff (hinv : AlignedInv src p s live blocks) (hk : IsAlignment alignment)
    (hsize : size < kWordRange) :
    Places src turns t size alignment s ↔ Fitting src t size alignment s := by
  have hthreshold : kBucketThreshold = 1024 := rfl
  constructor
  · rintro ⟨r, s', hcall, hinside⟩
    obtain ⟨rfl, hnull⟩ | ⟨raw, s₁, hraw, rfl, -, -⟩ := allocateAligned_eq hcall
    · obtain ⟨b, table, hbucket, hmark, rfl⟩ := allocate_eq hnull
      obtain ⟨hsmall, hallocates⟩ := allocates_of_allocate hbucket
      cases hallocates with
      | fails hfull hpage =>
        exact ⟨hsmall, .inl ⟨⟨hfull, hpage⟩, inTable_iff.mpr (isSome_of_eq_some hmark)⟩⟩
    · obtain ⟨b, table, hbucket, hmark, -⟩ := allocate_eq hraw
      obtain ⟨hsmall, hallocates⟩ := allocates_of_allocate hbucket
      have hslot := not_fails hraw
      obtain ⟨-, raw', s₂, hraw', hlow, hhigh, -⟩ := hinside _ rfl
      have heq : raw' = raw := by
        have hsame := hraw'.symm.trans hraw
        cases hsame
        rfl
      obtain ⟨raw'', s₃, hraw'', hnext, -, -⟩ := allocateAligned_next hinv hk hcall
      have heq' : raw'' = raw := by
        have hsame := hraw''.symm.trans hraw
        cases hsame
        rfl
      generalize (raw + adjustment raw alignment) % kWordRange = a at *
      refine ⟨hsmall, .inr ⟨hslot, ?_, ?_⟩⟩
      · by_contra hlt
        have hsmall' := hnext.small (by omega)
        omega
      · by_contra hwrap
        obtain ⟨hle, -⟩ := le_kWordRange hk
        unfold expandedSize kWordRange at *
        omega
  · rintro ⟨hsmall, hcase⟩
    have hnull : Fails src t (expandedSize size alignment) s →
        InTable src.base 0 (expandedSize size alignment) := by
      intro hfails
      obtain ⟨-, hin⟩ | ⟨hnot, -⟩ := hcase
      · exact hin
      · exact absurd hfails hnot
    obtain ⟨r, s₁, hcall⟩ : ∃ r s₁, allocate src turns t (expandedSize size alignment) s =
        some (r, s₁) := allocate_returns hinv hsmall hnull
    cases r with
    | none =>
      have hnone : allocateAligned src turns t size alignment s = some (none, s₁) := by
        have hcall' : allocate src turns t ((size + alignment + 8) % kWordRange) s = _ := hcall
        rw [allocateAligned, hcall']
        rfl
      exact ⟨none, s₁, hnone, fun a ha => by cases ha⟩
    | some raw =>
      obtain ⟨hfails, -⟩ | ⟨-, hle, hroom⟩ := hcase
      · exact absurd hfails (not_fails hcall)
      obtain ⟨a, s', ha⟩ := allocateAligned_returns hinv hk hle hroom hcall
      refine ⟨some a, s', ha, fun a' ha' => ?_⟩
      obtain rfl : a = a' := Option.some.inj ha'
      obtain ⟨raw', s₂, hraw', -, -, hdvd, hadjusted⟩ :=
        allocateAligned_adjusted hinv hk hle hroom ha
      have hinside := hadjusted 0
      exact ⟨hdvd, raw', s₂, hraw', hinside.low, Nat.le_of_lt hinside.high, hinside.word⟩

end Aligned

section Releases

variable {Thread P : Type} {src : AddressSpace P} {p : P} {s : State Thread P}
  {live : List Held} {blocks : List Block} {h : Held} {c : Block} {turns : ℕ}

section

variable (hinv : AlignedInv src p s live blocks)
include hinv

theorem AlignedInv.adjusted (hh : h ∈ live) (hshifted : h.Shifted) :
    Adjusted s.memory src.base s.mapping h :=
  (hinv.good h hh).resolve_left fun hplain => hshifted hplain.1

theorem AlignedInv.lt_kWordRange (hc : c ∈ blocks) :
    c.address + slotSizeFor c.size < kWordRange := by
  have hend := (offset_slot (hinv.slotAt hc)).2
  have hbase := src.base_lt
  omega

theorem free_known (hc : c ∈ blocks) (howned : Owned src.base c.address s.mapping) :
    ∃ n, free src turns c.address s = some (n, s.setBucket (s.bucket.freed c.address)) ∧
      BucketAllocator.free src.toPageSource (some c.address) s.bucket =
        some (n, s.bucket.freed c.address) := by
  obtain ⟨slabs, free, hslots⟩ := hinv.inv
  obtain ⟨n, hfree⟩ := free_live hslots hc
  refine ⟨n, ?_, hfree⟩
  rw [MemoryRouter.free, show findOwningAllocator src.base c.address s.mapping = _ from howned]
  exact congrArg (Option.map fun r => (r.1, s.setBucket r.2)) hfree

end

theorem AlignedInv.aligned {raw size alignment a : ℕ}
    (hinv : AlignedInv src p s (live ++ [⟨⟨a, size⟩, ⟨raw, expandedSize size alignment⟩,
      chooseAllocator allocatorHandle (expandedSize size alignment)⟩]) blocks)
    (hne : a ≠ raw) (hlt : a < kWordRange) :
    AlignedInv src p s (live ++ [Held.aligned s.memory size alignment a]) blocks := by
  have hadjusted := hinv.adjusted mem_concat_self hne
  have hraw : rawBlock s.memory a = raw := hadjusted.rawBlock hlt
  rw [Held.aligned, hraw]
  exact hinv

variable [DecidableEq Thread] {t : Thread} {newSize alignment a : ℕ} {s₁ : State Thread P}

/-- `ReAllocateAligned` of an aligned block gives the former block back. -/
theorem reAllocateAligned_releases (hinv : AlignedInv src p s live blocks) (hh : h ∈ live)
    (hshifted : h.Shifted) (hk : IsAlignment alignment) (hle : 8 ≤ alignment)
    (hsize : newSize + alignment + 8 < kWordRange)
    (ha : allocateAligned src turns t newSize alignment s = some (some a, s₁)) :
    ∃ s', reAllocateAligned src turns t h.block.address h.block.size newSize alignment s =
        some (some a, s') ∧
      Releases src (s₁.setMemory (copy s₁.memory a h.block.address (min h.block.size newSize)))
        h.slot.address s' ∧ ∃ blocks', AlignedInv src p s'
        (live.erase h ++ [Held.aligned s'.memory newSize alignment a]) blocks' := by
  obtain ⟨raw, s₂, -, hnew, hfree, -, hadjusted⟩ :=
    allocateAligned_adjusted hinv hk hle hsize ha
  have hmem : (⟨raw, expandedSize newSize alignment⟩ : Block) ∈
      blocks ++ [⟨raw, expandedSize newSize alignment⟩] :=
    mem_concat_self
  have hlow : raw + 8 ≤ a := (hadjusted 0).low
  have hhigh : a + newSize < raw + expandedSize newSize alignment := (hadjusted 0).high
  have hat := hnew.slotAt hmem
  have hfits : expandedSize newSize alignment ≤ slotSizeFor (expandedSize newSize alignment) :=
    hat.size
  have hword : raw + slotSizeFor (expandedSize newSize alignment) < kWordRange :=
    hnew.lt_kWordRange hmem
  -- the payload is copied behind the new adjustment
  have hcopied : AlignedInv src p
      (s₁.setMemory (copy s₁.memory a h.block.address (min h.block.size newSize))) live
      (blocks ++ [⟨raw, expandedSize newSize alignment⟩]) := by
    refine hnew.within hmem hfree fun x hx => copy_of_outside ?_
    have hx : x < raw ∨ raw + slotSizeFor (expandedSize newSize alignment) ≤ x := hx
    omega
  obtain ⟨m, hm⟩ : ∃ m, copy s₁.memory a h.block.address (min h.block.size newSize) = m := ⟨_, rfl⟩
  rw [hm] at hcopied ⊢
  have hold : Adjusted m src.base s₁.mapping h := hcopied.adjusted hh hshifted
  have hslot := hcopied.mem h hh
  have hformer := hcopied.lt_kWordRange hslot
  have hat' := hcopied.slotAt hslot
  have hlow' := hold.low
  have hhigh' := hold.high
  have hfits' := hat'.size
  have hword' : load m 8 (a - 8) = a - raw := by
    have hstored : load s₁.memory 8 (a - 8) = a - raw := (hadjusted 0).word
    rw [← hstored, ← hm]
    exact load_congr fun x hx hx' => copy_of_outside (by omega)
  have hadjusted' : Adjusted m src.base s₁.mapping ⟨⟨a, newSize⟩,
      ⟨raw, expandedSize newSize alignment⟩,
      chooseAllocator allocatorHandle (expandedSize newSize alignment)⟩ :=
    ⟨hlow, hhigh, hword', (hadjusted 0).owned⟩
  have hheld := hcopied.hold hmem hfree (.inr hadjusted')
  have hreturned := hheld.freed (mem_append_left _ hh)
  rw [erase_append_left _ hh] at hreturned
  obtain ⟨n, hrouter, hbucket⟩ :=
    free_known hcopied hslot (hold.owned _ (Nat.le_refl _) (by omega))
  have hraw : rawBlock m h.block.address = h.slot.address := hold.rawBlock (by omega)
  have hmapped : src.Mapped s₁.pages h.block.address (min h.block.size newSize) ∧
      src.Mapped s₁.pages a (min h.block.size newSize) ∧
      src.Mapped s₁.pages (recordAddress h.block.address) 8 := by
    refine ⟨hat'.mapped (by omega) (by omega), hat.mapped ?_ ?_, ?_⟩
    · show raw ≤ a
      omega
    · show a + min h.block.size newSize ≤ raw + slotSizeFor (expandedSize newSize alignment)
      omega
    · rw [recordAddress_eq (by omega) (by omega)]
      exact hat'.mapped (by omega) (by omega)
  refine ⟨_, ?_, ⟨n, _, hbucket, rfl⟩, _, hreturned.aligned (by omega) (by omega)⟩
  rw [reAllocateAligned, ha]
  refine (if_pos hmapped).trans ?_
  show (free src turns (rawBlock (copy s₁.memory a h.block.address (min h.block.size newSize))
    h.block.address) (s₁.setMemory (copy s₁.memory a h.block.address
      (min h.block.size newSize)))).map _ = _
  rw [hm, hraw, hrouter]
  rfl

section

omit [DecidableEq Thread]

theorem freed_freeList (s : BucketAllocator.State Thread P) (hpos : 0 < a) (hlt : a < kWordRange) :
    ((s.freed a).header (slabFromPtr a)).freeList = some a := by
  have hfits : Fits (some a) := by
    intro x hx
    obtain rfl : a = x := Option.some.inj hx
    exact ⟨Nat.ne_of_gt hpos, hlt⟩
  exact congrArg BucketAllocator.SlabHeader.freeList
    (loadHeader_storeFreeList hfits)

/-- `Deallocate` of an aligned block frees the aligned address. -/
theorem deallocate_misses (hinv : AlignedInv src p s live blocks) (hh : h ∈ live)
    (hshifted : h.Shifted) {s' : State Thread P} {b : Bool}
    (hcall : deallocate src turns h.block.address s = some (b, s')) :
    ¬ Releases src s h.slot.address s' := by
  have hadjusted := hinv.adjusted hh hshifted
  have hlow := hadjusted.low
  have hhigh := hadjusted.high
  have hslot := hinv.mem h hh
  have hlt := hinv.lt_kWordRange hslot
  have hfits := (hinv.slotAt hslot).size
  have hpos : 0 < h.slot.address := zero_lt_of_lt (offset_slot (hinv.slotAt hslot)).1
  obtain ⟨slabs, free, hslots⟩ := hinv.inv
  have hslab : slabFromPtr h.block.address = slabFromPtr h.slot.address := by
    obtain ⟨hs, i, hin⟩ := hslots.slab_of_live hslot
    refine hslots.slab_of_slot hs hin.lt ?_ ?_
    · rw [← hin.address]
      omega
    · rw [← hin.address, hslots.slotSize_eq hslot]
      omega
  obtain ⟨⟨n, s₁⟩, hfree, heq⟩ := map_eq_some_iff.mp hcall
  cases heq
  have howned : findOwningAllocator src.base h.block.address s.mapping =
      some (some kBucketAllocator) := hadjusted.owned _ (by omega) (by omega)
  rw [MemoryRouter.free, howned] at hfree
  obtain ⟨⟨n', b'⟩, hbucket, heq⟩ := map_eq_some_iff.mp hfree
  cases heq
  obtain ⟨-, -, -, rfl⟩ := free_eq hbucket
  rintro ⟨k, b, hraw, hsame⟩
  obtain ⟨-, -, -, rfl⟩ := free_eq hraw
  have hbuckets : s.bucket.freed h.block.address = s.bucket.freed h.slot.address :=
    congrArg State.bucket hsame
  have hhead := freed_freeList s.bucket (show 0 < h.block.address by omega) (by omega)
  rw [hbuckets, hslab, freed_freeList s.bucket hpos (by omega)] at hhead
  exact hshifted (Option.some.inj hhead).symm

end

end Releases

section Steps

variable {Thread P : Type} {src : AddressSpace P} {p : P} {s : State Thread P}
  {live : List Held} {blocks : List Block} {h : Held} {turns : ℕ}

theorem AlignedInv.payload (hinv : AlignedInv src p s live blocks) (hh : h ∈ live) {m : Bytes}
    (hm : ∀ x, x < h.block.address ∨ h.block.address + h.block.size ≤ x → m x = s.memory x) :
    AlignedInv src p (s.setMemory m) live blocks := by
  have hslot := hinv.mem h hh
  have hfits := (hinv.slotAt hslot).size
  have hin : h.slot.address ≤ h.block.address ∧
      h.block.address + h.block.size ≤ h.slot.address + slotSizeFor h.slot.size := by
    obtain ⟨hplain, hsize⟩ | hadjusted := hinv.good h hh
    · omega
    · have hlow := hadjusted.low
      have hhigh := hadjusted.high
      omega
  obtain ⟨slabs, free, hslots⟩ := hinv.slots
  refine ⟨⟨slabs, free, hslots.inv.within hslot fun x hx => hm x ?_, hslots.nodup,
    hslots.created⟩, hinv.table, hinv.mem, hinv.nodup, fun x hx => ?_⟩
  · rw [hslots.inv.slotSize_eq hslot] at hx
    omega
  · by_cases hsame : x = h
    · rw [hsame]
      obtain hplain | hadjusted := hinv.good h hh
      · exact .inl hplain
      · refine .inr ⟨hadjusted.low, hadjusted.high, ?_, hadjusted.owned⟩
        rw [← hadjusted.word]
        have hlow := hadjusted.low
        exact load_congr fun c hc hc' => hm c (by omega)
    · have hne : x.slot ≠ h.slot := fun heq =>
        hsame (inj_on_of_nodup_map hinv.nodup hx hh heq)
      have hapart := hslots.inv.live_apart (hinv.mem x hx) hslot
        (hinv.address_ne (hinv.mem x hx) hslot hne)
      exact (hinv.good x hx).congr (hinv.slotAt (hinv.mem x hx)).size
        (fun c hc hc' => hm c (by omega)) fun c hc => hc

theorem AlignedInv.free (hinv : AlignedInv src p s live blocks) (hh : h ∈ live)
    (hplain : ¬ h.Shifted) {n : ℕ} {s' : State Thread P}
    (hcall : free src turns h.block.address s = some (n, s')) :
    ∃ blocks', AlignedInv src p s' (live.erase h) blocks' := by
  have heq : h.block.address = h.slot.address := not_not.mp hplain
  obtain rfl | ⟨b, hbucket, rfl⟩ := free_cases hinv.table hcall
  · exact ⟨blocks, hinv.forget h⟩
  · obtain ⟨-, -, -, rfl⟩ := free_eq hbucket
    rw [heq]
    exact ⟨_, hinv.freed hh⟩

variable [DecidableEq Thread] {t : Thread} {s' : State Thread P} {size alignment newSize d : ℕ}
  {r : Option ℕ}

section

variable (hinv : AlignedInv src p s live blocks)
include hinv

theorem AlignedInv.take_plain (hcall : MemoryRouter.allocate src turns t size s = some (r, s')) :
    ∃ blocks', AlignedInv src p s' (live ++ (r.map (Held.plain size)).toList) blocks' := by
  have hnew := hinv.allocate hcall
  cases r with
  | none => exact ⟨_, (append_nil live).symm ▸ hnew⟩
  | some a =>
    have hmem : (⟨a, size⟩ : Block) ∈ blocks ++ [⟨a, size⟩] :=
      mem_concat_self
    refine ⟨_, hnew.hold hmem (hinv.new hnew) (.inl ⟨rfl, ?_⟩)⟩
    exact (hnew.slotAt hmem).size

theorem AlignedInv.take_aligned (hk : IsAlignment alignment) (hfit : Fitting src t size alignment s)
    (hcall : allocateAligned src turns t size alignment s = some (r, s')) :
    ∃ blocks', AlignedInv src p s'
      (live ++ (r.map (Held.aligned s'.memory size alignment)).toList) blocks' := by
  cases r with
  | none =>
    obtain ⟨-, hnone⟩ | ⟨raw, s₁, -, hsome, -⟩ := allocateAligned_eq hcall
    · exact ⟨_, (append_nil live).symm ▸ hinv.allocate hnone⟩
    · cases hsome
  | some a =>
    obtain ⟨raw, s₁, hraw, hnext, hlt, -⟩ := allocateAligned_next hinv hk hcall
    obtain ⟨-, ⟨hfails, -⟩ | ⟨-, hle, hsize⟩⟩ := hfit
    · exact absurd hfails (not_fails hraw)
    obtain ⟨raw, s₂, -, hnew, hfree, -, hadjusted⟩ :=
      allocateAligned_adjusted hinv hk hle hsize hcall
    have hmem : (⟨raw, expandedSize size alignment⟩ : Block) ∈
        blocks ++ [⟨raw, expandedSize size alignment⟩] :=
      mem_concat_self
    have hlow : raw + 8 ≤ a := (hadjusted 0).low
    exact ⟨_, (hnew.hold hmem hfree (.inr (hadjusted _))).aligned (by omega) hlt⟩

theorem AlignedInv.copied (hh : h ∈ live) {a : ℕ} {b : BucketAllocator.State Thread P}
    (ha : BucketAllocator.allocate src.toPageSource t newSize s.bucket = some (some a, b))
    (hlt : slotSizeFor h.slot.size < newSize) :
    AlignedInv src p ((s.setBucket b).setMemory (copy b.memory a h.slot.address
      (b.header (slabFromPtr h.slot.address)).slotSize)) live
      (blocks ++ [⟨a, newSize⟩]) := by
  have hnew : AlignedInv src p (s.setBucket b) live (blocks ++ [⟨a, newSize⟩]) :=
    hinv.allocates ha
  have hmem : (⟨a, newSize⟩ : Block) ∈ blocks ++ [⟨a, newSize⟩] := mem_concat_self
  obtain ⟨slabs, free, hslots⟩ := hnew.inv
  have hsize : (b.header (slabFromPtr h.slot.address)).slotSize =
      slotSizeFor h.slot.size := hslots.slotSize_eq (mem_append_left _ (hinv.mem h hh))
  have hfits : newSize ≤ slotSizeFor newSize := (hnew.slotAt hmem).size
  refine hnew.within hmem (hinv.new hnew) fun x hx => copy_of_outside ?_
  have hx : x < a ∨ a + slotSizeFor newSize ≤ x := hx
  omega

end

theorem AlignedInv.resize {s : Run Thread P} {router : State Thread P}
    (hinv : AlignedInv src p s.router s.live blocks) (hh : h ∈ s.live) (hplain : ¬ h.Shifted)
    (hcall : reAllocate src turns t h.block.address newSize s.router = some (r, d, router)) :
    ∃ blocks', AlignedInv src p (s.resize src.base h newSize r router).router
      (s.resize src.base h newSize r router).live blocks' := by
  have heq : h.block.address = h.slot.address := not_not.mp hplain
  have hslot := hinv.mem h hh
  obtain ⟨slabs, free, hslots⟩ := hinv.inv
  have hsize := hslots.slotSize_eq hslot
  obtain ⟨-, n, b, -, -, hbucket, rfl⟩ := reAllocate_eq hinv.table hcall
  rw [heq] at hbucket
  cases reAllocate_cases hbucket with
  | zero hzero k b hfree =>
    obtain ⟨-, -, -, rfl⟩ := free_eq hfree
    rw [Run.resize, if_pos hzero]
    exact ⟨_, hinv.freed hh⟩
  | inPlace hpos hle =>
    rw [Run.resize, if_neg hpos]
    have hmoved : h.moved src.base s.router.mapping newSize h.slot.address =
        { h with block := ⟨h.slot.address, newSize⟩ } := if_pos heq.symm
    rw [hmoved]
    have hfree : h.slot ∉ (s.live.erase h).map Held.slot := by
      intro hmem
      obtain ⟨x, hx, hsame⟩ := mem_map.mp hmem
      exact hinv.slot_ne hh hx hsame
    exact ⟨_, (hinv.forget h).hold hslot hfree (.inl ⟨rfl, hsize ▸ hle⟩)⟩
  | fails b hlt hallocate =>
    rw [Run.resize, if_neg (by omega)]
    exact ⟨_, hinv.allocates hallocate⟩
  | moves block k b₁ b₂ b hlt hallocate hcopy hfree =>
    have hnew : AlignedInv src p (s.router.setBucket b₁) s.live (blocks ++ [⟨block, newSize⟩]) :=
      hinv.allocates hallocate
    have hmem : (⟨block, newSize⟩ : Block) ∈ blocks ++ [⟨block, newSize⟩] :=
      mem_concat_self
    have hother := hinv.new hnew
    have hne : block ≠ h.block.address := fun hsame =>
      hinv.address_ne_new hh hnew (hsame.trans heq).symm
    have hfits : newSize ≤ slotSizeFor newSize := (hnew.slotAt hmem).size
    have hcopied := hinv.copied hh hallocate (hsize ▸ hlt)
    obtain ⟨-, hcopy⟩ := ite_none_right_eq_some.mp hcopy
    cases hcopy
    obtain ⟨-, -, -, rfl⟩ := free_eq hfree
    rw [Run.resize, if_neg (by omega)]
    have hheld := (hcopied.hold (h := h.moved src.base s.router.mapping newSize block)
      (by rw [Held.moved, if_neg hne]; exact hmem) (by rw [Held.moved, if_neg hne]; exact hother)
      (by rw [Held.moved, if_neg hne]; exact .inl ⟨rfl, hfits⟩)).freed
        (mem_append_left _ hh)
    rw [erase_append_left _ hh] at hheld
    exact ⟨_, hheld⟩

variable {s₁ s₂ : Run Thread P} {a : Act Thread}

section

variable (hinv : AlignedInv src p s₁.router s₁.live blocks)
include hinv

theorem AlignedInv.step (hproper : a.Proper s₁) (hfit : a.Fitting src s₁)
    (hs : MemoryRouter.step src turns s₁ a = some s₂) :
    ∃ blocks', AlignedInv src p s₂.router s₂.live blocks' := by
  cases a with
  | allocate t size =>
    obtain ⟨⟨r, router⟩, hcall, rfl⟩ := map_eq_some_iff.mp hs
    exact hinv.take_plain hcall
  | allocateAligned t size alignment =>
    obtain ⟨⟨r, router⟩, hcall, rfl⟩ := map_eq_some_iff.mp hs
    exact hinv.take_aligned hproper.2 hfit hcall
  | reAllocate t h newSize =>
    obtain ⟨hh, hplain⟩ := hproper
    rw [MemoryRouter.step, if_pos hh] at hs
    obtain ⟨⟨r, d, router⟩, hcall, rfl⟩ := map_eq_some_iff.mp hs
    exact hinv.resize hh hplain hcall
  | reAllocateAligned t h newSize alignment =>
    obtain ⟨hh, hshifted, -, hk⟩ := hproper
    rw [MemoryRouter.step, if_pos hh] at hs
    obtain ⟨⟨r, router⟩, hcall, rfl⟩ := map_eq_some_iff.mp hs
    obtain ⟨rfl, hnone⟩ | ⟨block, s', n, ha, rfl, -⟩ := reAllocateAligned_eq hcall
    · obtain ⟨blocks', hnew⟩ := hinv.take_aligned hk hfit hnone
      exact ⟨blocks', (append_nil s₁.live) ▸ hnew⟩
    · obtain ⟨raw, s'', hraw, -⟩ := allocateAligned_next hinv hk ha
      obtain ⟨-, ⟨hfails, -⟩ | ⟨-, hle, hsize⟩⟩ := hfit
      · exact absurd hfails (not_fails hraw)
      obtain ⟨router', hcall', -, hnew⟩ :=
        reAllocateAligned_releases hinv hh hshifted hk hle hsize ha
      rw [hcall] at hcall'
      cases hcall'
      exact hnew
  | free h =>
    obtain ⟨hh, hplain⟩ := hproper
    rw [MemoryRouter.step, if_pos hh] at hs
    obtain ⟨⟨n, router⟩, hcall, rfl⟩ := map_eq_some_iff.mp hs
    exact hinv.free hh hplain hcall
  | deallocate h =>
    have hh : h ∈ s₁.live := hproper
    rw [MemoryRouter.step, if_pos hh] at hs
    obtain ⟨⟨b, router⟩, hcall, rfl⟩ := map_eq_some_iff.mp hs
    obtain ⟨⟨n, router'⟩, hfree, heq⟩ := map_eq_some_iff.mp hcall
    cases heq
    exact hinv.free hh hfit hfree
  | write c v =>
    obtain ⟨hheld, hs⟩ := ite_none_right_eq_some.mp hs
    obtain ⟨⟨h, hh, hlow, hhigh⟩, -⟩ := hheld
    cases hs
    exact ⟨_, hinv.payload hh fun x hx => Function.update_of_ne (by omega) _ _⟩

theorem Act.sound_iff (hproper : a.Proper s₁) : a.Sound src turns s₁ ↔ a.Fitting src s₁ := by
  cases a with
  | allocate | reAllocate | free | write => exact Iff.rfl
  | allocateAligned t size alignment => exact places_iff hinv hproper.2 hproper.1
  | deallocate h =>
    constructor
    · intro hsound hshifted
      obtain ⟨s', hcall, hreleases⟩ := hsound hshifted
      exact deallocate_misses hinv hproper hshifted hcall hreleases
    · exact fun hplain hshifted => absurd hshifted hplain
  | reAllocateAligned t h newSize alignment =>
    obtain ⟨hh, hshifted, hsize, hk⟩ := hproper
    have hplaces : Places src turns t newSize alignment s₁.router ↔ _ := places_iff hinv hk hsize
    refine ⟨fun hsound => hplaces.mp hsound.1, fun hfit => ⟨hplaces.mpr hfit, ?_⟩⟩
    obtain ⟨r, s', hcall, -⟩ := hplaces.mpr hfit
    cases r with
    | none =>
      refine ⟨none, s', ?_, fun a ha => by cases ha⟩
      rw [MemoryRouter.reAllocateAligned, hcall]
      rfl
    | some b =>
      obtain ⟨raw, s'', hraw, -⟩ := allocateAligned_next hinv hk hcall
      obtain ⟨-, ⟨hfails, -⟩ | ⟨-, hle, hroom⟩⟩ := hfit
      · exact absurd hfails (not_fails hraw)
      obtain ⟨router', hcall', hreleases, -⟩ :=
        reAllocateAligned_releases hinv hh hshifted hk hle hroom hcall
      refine ⟨some b, router', hcall', fun c hc => ?_⟩
      obtain rfl : b = c := Option.some.inj hc
      exact ⟨s', hcall, hreleases⟩

end

end Steps

section Runs

variable {Thread P : Type} [DecidableEq Thread] {src : AddressSpace P} {turns : ℕ} {m : Bytes}
  {p : P} {heap : HeapAllocator.Object}

omit [DecidableEq Thread] in
theorem alignedInv_start (src : AddressSpace P) (m : Bytes) (p : P) (heap : HeapAllocator.Object) :
    AlignedInv src p (start m p heap : Run Thread P).router [] [] := by
  refine ⟨⟨[], fun _ => [], runInv_start src.toPageSource m p⟩, fun i => ?_, ?_,
    nodup_nil, ?_⟩
  · by_cases hi : i = 0
    · exact .inr (if_pos hi)
    · exact .inl (if_neg hi)
  · intro h hh
    cases hh
  · intro h hh
    cases hh

def Act.Allowed (src : AddressSpace P) (s : Run Thread P) (a : Act Thread) : Prop :=
  a.Proper s ∧ a.Fitting src s

def RunInv (src : AddressSpace P) (p : P) (s : Run Thread P) : Prop :=
  ∃ blocks, AlignedInv src p s.router s.live blocks

theorem RunInv.step {s s' : Run Thread P} {a : Act Thread} (h : RunInv src p s)
    (hok : a.Allowed src s) (hs : MemoryRouter.step src turns s a = some s') : RunInv src p s' := by
  obtain ⟨blocks, hinv⟩ := h
  exact hinv.step hok.1 hok.2 hs

theorem runInv_state (e : Execution (machine src turns m p heap : Machine (Run Thread P) _))
    (hproper : ∀ i a, e.act i = some a → a.Proper (e.state i))
    (hfit : ∀ i a, e.act i = some a → a.Fitting src (e.state i)) (i : ℕ) :
    RunInv src p (e.state i) := by
  have hstart : RunInv src p (machine src turns m p heap : Machine (Run Thread P) _).init :=
    ⟨[], alignedInv_start src m p heap⟩
  have hallowed : ∀ i a, e.act i = some a → a.Allowed src (e.state i) := fun i a ha =>
    ⟨hproper i a ha, hfit i a ha⟩
  exact e.invariant hstart (fun s a s' h hok hs => h.step hok hs) hallowed i

/-- In a run whose steps fit, a call that places an aligned block or gives one back does so
exactly if it fits. -/
theorem aligned_sound_iff (e : Execution (machine src turns m p heap : Machine (Run Thread P) _))
    (hproper : ∀ i a, e.act i = some a → a.Proper (e.state i))
    (hfit : ∀ i a, e.act i = some a → a.Fitting src (e.state i)) (i : ℕ) :
    ∀ a : Act Thread, a.Proper (e.state i) →
      (a.Sound src turns (e.state i) ↔ a.Fitting src (e.state i)) := by
  obtain ⟨blocks, hinv⟩ := runInv_state e hproper hfit i
  exact fun a ha => Act.sound_iff hinv ha

instance (t : Thread) (size : ℕ) (s : State Thread P) : Decidable (Fails src t size s) :=
  have : Decidable (BucketAllocator.Exhausted s.bucket t (BucketAllocator.classIndex size)) :=
    inferInstanceAs (Decidable (∀ slab ∈ s.active t (BucketAllocator.classIndex size), _))
  have : Decidable (src.requestPage s.pages = none) := Option.decidableEqNone _
  inferInstanceAs (Decidable (_ ∧ _))

instance (base a size : ℕ) : Decidable (InTable base a size) :=
  inferInstanceAs (Decidable (_ ∨ _))

instance (t : Thread) (size alignment : ℕ) (s : State Thread P) :
    Decidable (Fitting src t size alignment s) :=
  inferInstanceAs (Decidable (_ ∧ _))

instance (alignment : ℕ) : Decidable (IsAlignment alignment) :=
  inferInstanceAs (Decidable (∃ k < 64, alignment = 2 ^ k))

instance (h : Held) : Decidable h.Shifted := inferInstanceAs (Decidable (_ ≠ _))

instance (s : Run Thread P) (a : Act Thread) : Decidable (a.Fitting src s) :=
  match a with
  | .allocate .. | .reAllocate .. | .free _ | .write .. => inferInstanceAs (Decidable True)
  | .allocateAligned .. | .reAllocateAligned .. =>
    inferInstanceAs (Decidable (Fitting src _ _ _ s.router))
  | .deallocate h => inferInstanceAs (Decidable (¬ h.Shifted))

instance (s : Run Thread P) (a : Act Thread) : Decidable (a.Proper s) :=
  match a with
  | .allocate .. | .write .. => inferInstanceAs (Decidable True)
  | .allocateAligned .. | .reAllocate .. | .reAllocateAligned .. | .free _ =>
    inferInstanceAs (Decidable (_ ∧ _))
  | .deallocate _ => inferInstanceAs (Decidable (_ ∈ _))

end Runs

/-- The block of 20 bytes at a multiple of 32. -/
def alignedHeld : Held := ⟨⟨2 ^ 20 + 96, 20⟩, ⟨2 ^ 20 + 64, 60⟩, kBucketAllocator⟩

def alignedRun : List (Act Bool) :=
  [.allocateAligned true 20 32, .write (2 ^ 20 + 96) 7, .allocate true 60]

def aligned : Execution smallMachine := .ofRun alignedRun (by decide +kernel)

theorem aligned_proper : ∀ i a, aligned.act i = some a → a.Proper (aligned.state i) :=
  Execution.ofRun_guarded (by decide +kernel)

theorem aligned_fitting : ∀ i a, aligned.act i = some a → a.Fitting smallSpace (aligned.state i) :=
  Execution.ofRun_guarded
    (by decide +kernel)

theorem aligned_sound_iff_small : ∃ e : Execution smallMachine,
    alignedHeld ∈ (e.state 3).live ∧
      (Act.reAllocateAligned false alignedHeld 40 64).Sound smallSpace 0 (e.state 3) := by
  have hheld : alignedHeld ∈ (stateAt smallMachine smallMachine.init alignedRun 3).live := by
    decide +kernel
  refine ⟨aligned, hheld, ?_⟩
  refine (aligned_sound_iff _ aligned_proper aligned_fitting 3 _ ?_).mpr ?_
  · exact ⟨hheld, by decide, by decide, by decide⟩
  · have hlast : (Act.reAllocateAligned false alignedHeld 40 64).Fitting smallSpace
        (stateAt smallMachine smallMachine.init alignedRun 3) := by decide +kernel
    exact hlast

/-- An alignment of 4 leaves no room for the adjustment, a size near 2^64 wraps, one over 1 KiB
has no size class, and `Deallocate` frees the aligned address. -/
theorem aligned_calls_fail : ¬ (Act.allocateAligned true 8 4).Sound smallSpace 0 smallMachine.init ∧
      ¬ (Act.allocateAligned true (2 ^ 64 - 16) 8).Sound smallSpace 0 smallMachine.init ∧
      ¬ (Act.allocateAligned true 2000 8).Sound smallSpace 0 smallMachine.init ∧
      ∃ s, smallMachine.Reachable s ∧ alignedHeld ∈ s.live ∧
        ¬ (Act.deallocate alignedHeld).Sound smallSpace 0 s := by
  have hstart : AlignedInv smallSpace smallPages smallMachine.init.router
      smallMachine.init.live [] := alignedInv_start _ _ _ _
  have hsmall : ∀ size alignment, size < kWordRange → IsAlignment alignment →
      ¬ Fitting smallSpace true size alignment smallMachine.init.router →
      ¬ (Act.allocateAligned true size alignment).Sound smallSpace 0 smallMachine.init :=
    fun size alignment hsize hk hnot hsound => hnot ((places_iff hstart hk hsize).mp hsound)
  refine ⟨hsmall 8 4 (by decide) (by decide) (by decide +kernel),
    hsmall (2 ^ 64 - 16) 8 (by decide) (by decide) (by decide +kernel),
    hsmall 2000 8 (by decide) (by decide) (by decide +kernel), ?_⟩
  have hrun : (smallMachine.step smallMachine.init (.allocateAligned true 20 32)).any
      (alignedHeld ∈ ·.live) = true := by decide +kernel
  obtain ⟨s, hs, hheld⟩ := (any_eq_true _ _).mp hrun
  have hheld : alignedHeld ∈ s.live := of_decide_eq_true hheld
  obtain ⟨blocks, hinv⟩ : RunInv smallSpace smallPages s := by
    have hinit : RunInv smallSpace smallPages smallMachine.init := ⟨[], hstart⟩
    have hallowed : (Act.allocateAligned true 20 32).Allowed smallSpace smallMachine.init :=
      ⟨by decide +kernel, by decide +kernel⟩
    have hs : MemoryRouter.step smallSpace 0 smallMachine.init (.allocateAligned true 20 32) =
        some s := hs
    exact hinit.step hallowed hs
  refine ⟨s, .step _ .init hs, hheld, fun hsound => ?_⟩
  obtain ⟨s', hcall, hreleases⟩ := hsound (by decide)
  exact deallocate_misses hinv hheld (by decide) hcall hreleases

end Equilibrium.MemoryRouter
