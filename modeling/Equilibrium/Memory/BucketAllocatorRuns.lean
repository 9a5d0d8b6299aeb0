import Equilibrium.Memory.BucketAllocatorInvariant

/-! Runs of the slab allocator: its threads allocate, free each other's blocks and write to
the blocks they hold, in any order. -/

namespace Equilibrium.BucketAllocator

open Library.ByteMemory Library.LinkedChain List

/-- The allocator and the blocks that its users hold. -/
structure Run (Thread P : Type) where
  heap : State Thread P
  live : List Block

inductive Act (Thread : Type) where
  | allocate (t : Thread) (size : ℕ)
  | free (t : Thread) (b : Block)
  | write (t : Thread) (a : ℕ) (v : UInt8)

variable {Thread P : Type} [DecidableEq Thread]

def Run.take (s : Run Thread P) (size : ℕ) (r : Option ℕ) (heap : State Thread P) :
    Run Thread P where
  heap := heap
  live := s.live ++ (r.map fun a => ⟨a, size⟩).toList

def step (src : PageSource P) (s : Run Thread P) : Act Thread → Option (Run Thread P)
  | .allocate t size =>
    if size ≤ 1024 then (allocate src t size s.heap).map fun (r, heap) => s.take size r heap
    else none
  | .free _ b =>
    if b ∈ s.live then
      (free src (some b.address) s.heap).map fun (_, heap) => ⟨heap, s.live.erase b⟩
    else none
  | .write _ a v =>
    if ∃ b ∈ s.live, b.address ≤ a ∧ a < b.address + b.size then
      some ⟨s.heap.setMemory (Function.update s.heap.memory a v), s.live⟩
    else none

/-- The allocator over pages `p` and memory `m`, with no slab yet. -/
def start (m : Bytes) (p : P) : Run Thread P := ⟨⟨m, p, fun _ _ => none⟩, []⟩

def machine (src : PageSource P) (m : Bytes) (p : P) :
    Library.Interleaving.Machine (Run Thread P) (Act Thread) where
  init := start m p
  step := step src

/-- The slabs are the pages that the allocator took. -/
structure RunInv (src : PageSource P) (p : P) (s : Run Thread P) (slabs : List ℕ)
    (free : ℕ → List ℕ) : Prop where
  inv : Inv src s.heap s.live slabs free
  nodup : slabs.Nodup
  created : ∀ a, src.handed s.heap.pages a ↔ src.handed p a ∨ a ∈ slabs

section Steps

variable {src : PageSource P} {m : Bytes} {p : P} {s s' : Run Thread P} {slabs : List ℕ}
  {free : ℕ → List ℕ} {t : Thread}

section

omit [DecidableEq Thread]

theorem runInv_start (src : PageSource P) (m : Bytes) (p : P) :
    RunInv src p (start m p : Run Thread P) [] fun _ => [] := by
  refine ⟨⟨?_, ?_, ?_, ?_, ?_⟩, nodup_nil, fun a => ?_⟩
  · intro slab hs
    cases hs
  · intro slab hs
    cases hs
  · intro b hb
    cases hb
  · intro slab hs
    cases hs
  · intro t index slab ha
    cases ha
  · simp [start]

theorem RunInv.active (h : RunInv src p s slabs free) {size slab : ℕ} (hsize : size ≤ 1024)
    (ha : s.heap.active t (classIndex size) = some slab) :
    slab ∈ slabs ∧ (s.heap.header slab).classIndex = classIndex size ∧
      size ≤ (s.heap.header slab).slotSize := by
  obtain ⟨hs, hindex⟩ := h.inv.active t _ slab ha
  refine ⟨hs, hindex, ?_⟩
  rw [(h.inv.ok slab hs).header.slotSize, hindex]
  exact (classIndex_small hsize).2

end

theorem RunInv.allocates (h : RunInv src p s slabs free) {size : ℕ} (hsize : size ≤ 1024)
    {r : Option ℕ} {heap : State Thread P}
    (ha : Allocates src t (classIndex size) s.heap r heap) :
    ∃ slabs' free', RunInv src p (s.take size r heap) slabs' free' := by
  cases ha with
  | recycle slab slot hactive hfree hmapped =>
    obtain ⟨hs, hindex, hle⟩ := h.active hsize hactive
    obtain ⟨free', hinv⟩ : ∃ free', Inv src
        (s.heap.setMemory (storeFreeList s.heap.memory slab (loadPointer s.heap.memory slot)))
        (s.live ++ [⟨slot, size⟩]) slabs free' := by
      refine h.inv.recycle hs hindex hle hfree ?_ ?_ ?_ ?_
      · rfl
      · rfl
      · exact loadHeader_storeFreeList (fits_loadPointer _ _)
      · exact fun a ha => storeFreeList_of_outside ha
    exact ⟨slabs, free', hinv, h.nodup, h.created⟩
  | bump slab hactive hfree hlt =>
    obtain ⟨hs, hindex, hle⟩ := h.active hsize hactive
    obtain ⟨hpage, hheader, -⟩ := h.inv.ok slab hs
    have hrange := hheader.slot_range slab hlt
    have hge := hheader.slotSize_ge
    have hfits := hpage.fits
    have hbound : (s.heap.header slab).bump + 1 < 256 ^ 4 := by
      have htotal := hheader.total_le
      have hmul := Nat.mul_le_mul_left (s.heap.header slab).totalSlots hge
      unfold kPageSize kHeaderSize at htotal
      omega
    obtain ⟨free', hinv⟩ : ∃ free', Inv src
        (s.heap.setMemory (storeBump s.heap.memory slab ((s.heap.header slab).bump + 1)))
        (s.live ++ [⟨(s.heap.header slab).slot slab (s.heap.header slab).bump % kWordRange, size⟩])
        slabs free' := by
      refine h.inv.bump hs hindex hle hfree hlt (Nat.mod_eq_of_lt (by omega)) ?_ ?_ ?_ ?_
      · rfl
      · rfl
      · exact loadHeader_storeBump hbound
      · exact fun a ha => storeBump_of_outside ha
    exact ⟨slabs, free', hinv, h.nodup, h.created⟩
  | fresh page pages hfull hpage =>
    obtain ⟨hlt, hle⟩ := classIndex_small hsize
    have hgrant := src.page_grant _ _ _ hpage
    have hnew : page.address ∉ slabs := fun hmem =>
      hgrant.fresh 0 Nat.one_pos (by simpa using h.inv.handed _ hmem)
    obtain ⟨free', hinv⟩ : ∃ free', Inv src
        (s.heap.freshSlab t (classIndex size) page.address pages)
        (s.live ++ [⟨page.address + kHeaderSize, size⟩]) (page.address :: slabs) free' :=
      h.inv.fresh hgrant rfl hlt hle (fun _ _ _ ha => freshSlab_active ha) (freshSlab_header hlt)
        fun _ ha => freshSlab_memory ha
    refine ⟨page.address :: slabs, free', hinv, nodup_cons.mpr ⟨hnew, h.nodup⟩, fun a => ?_⟩
    have hhanded : src.handed pages a ↔ src.handed s.heap.pages a ∨ a = page.address := by
      rw [hgrant.handed]
      simp
    exact hhanded.trans (by rw [h.created, List.mem_cons, or_assoc, or_comm (a := a ∈ slabs)])
  | fails hfull hpage =>
    refine ⟨slabs, free, ?_, h.nodup, h.created⟩
    simp only [Run.take, Option.map_none, Option.toList_none, List.append_nil]
    exact h.inv

theorem RunInv.step (h : RunInv src p s slabs free) {a : Act Thread}
    (hstep : step src s a = some s') : ∃ slabs' free', RunInv src p s' slabs' free' := by
  cases a with
  | allocate t size =>
    obtain ⟨hsize, hstep⟩ := Option.ite_none_right_eq_some.mp hstep
    obtain ⟨⟨r, heap⟩, ha, rfl⟩ := Option.map_eq_some_iff.mp hstep
    rw [allocate, if_pos (classIndex_small hsize).1] at ha
    exact h.allocates hsize (allocate_cases ha)
  | free t b =>
    obtain ⟨hb, hstep⟩ := Option.ite_none_right_eq_some.mp hstep
    obtain ⟨⟨n, heap⟩, hf, rfl⟩ := Option.map_eq_some_iff.mp hstep
    simp only [BucketAllocator.free] at hf
    split at hf
    case isFalse => cases hf
    case isTrue =>
      obtain ⟨-, rfl⟩ := Prod.mk.inj (Option.some.inj hf)
      obtain ⟨free', hinv⟩ : ∃ free', Inv src (s.heap.setMemory (storeFreeList
          (storePointer s.heap.memory b.address (s.heap.header (slabFromPtr b.address)).freeList)
          (slabFromPtr b.address) (some b.address))) (s.live.erase b) slabs free' :=
        h.inv.freed hb rfl rfl rfl rfl
      exact ⟨slabs, free', hinv, h.nodup, h.created⟩
  | write t a v =>
    obtain ⟨hex, hstep⟩ := Option.ite_none_right_eq_some.mp hstep
    obtain ⟨b, hb, hlow, hhigh⟩ := hex
    cases hstep
    exact ⟨slabs, free, h.inv.write hb hlow hhigh, h.nodup, h.created⟩

theorem reachable_inv (hs : (machine src m p).Reachable s) :
    ∃ slabs free, RunInv src p s slabs free := by
  have hinit : ∃ slabs free, RunInv src p (start m p : Run Thread P) slabs free :=
    ⟨[], fun _ => [], runInv_start src m p⟩
  have hstep : ∀ (s : Run Thread P) (a : Act Thread) (s' : Run Thread P),
      (∃ slabs free, RunInv src p s slabs free) → BucketAllocator.step src s a = some s' →
      ∃ slabs free, RunInv src p s' slabs free := fun s a s' ⟨slabs, free, h⟩ hs => h.step hs
  exact hs.invariant hinit hstep

end Steps

section Slots

variable {src : PageSource P} {m : Bytes} {p : P} {s : Run Thread P} {slabs : List ℕ}
  {free : ℕ → List ℕ}

def State.slotSizeOf (s : State Thread P) (b : Block) : ℕ :=
  (s.header (slabFromPtr b.address)).slotSize

/-- What holds of the slabs, their free lists and the live blocks. -/
structure SlotsSound (src : PageSource P) (p : P) (s : Run Thread P) (slabs : List ℕ)
    (free : ℕ → List ℕ) : Prop where
  created : ∀ a, src.handed s.heap.pages a ↔ src.handed p a ∨ a ∈ slabs
  freeList : ∀ slab ∈ slabs,
    Segment (loadPointer s.heap.memory) (s.heap.header slab).freeList (free slab) none
  inSlab : ∀ b ∈ s.live, slabFromPtr b.address ∈ slabs ∧
    (s.heap.header (slabFromPtr b.address)).classIndex = classIndex b.size ∧
    b.size ≤ s.heap.slotSizeOf b ∧
    b.address + s.heap.slotSizeOf b ≤ slabFromPtr b.address + kPageSize ∧
    ∃ i < (s.heap.header (slabFromPtr b.address)).totalSlots,
      b.address = slabFromPtr b.address + kHeaderSize + i * s.heap.slotSizeOf b
  apart : s.live.Pairwise fun b c =>
    b.address + s.heap.slotSizeOf b ≤ c.address ∨ c.address + s.heap.slotSizeOf c ≤ b.address
  once : (slabs.flatMap free ++ s.live.map Block.address).Nodup
  below : ∀ slab ∈ slabs, ∀ i < (s.heap.header slab).bump,
    (s.heap.header slab).slot slab i ∈ free slab ∨
      ∃ b ∈ s.live, b.address = (s.heap.header slab).slot slab i

omit [DecidableEq Thread]

theorem Inv.nodup_live {s : State Thread P} {live : List Block} (h : Inv src s live slabs free) :
    (live.map Block.address).Nodup := by
  refine nodup_iff_count_le_one.mpr fun a => ?_
  by_cases ha : a ∈ live.map Block.address
  · obtain ⟨b, hb, rfl⟩ := mem_map.mp ha
    have hnodup := (nodup_append.mp (h.nodup_share (h.slab_of_live hb).1)).2.1
    have hcount := nodup_iff_count_le_one.mp hnodup b.address
    rwa [liveIn, count_filter (by simp)] at hcount
  · rw [count_eq_zero_of_not_mem ha]
    exact Nat.zero_le 1

theorem RunInv.once (h : RunInv src p s slabs free) :
    (slabs.flatMap free ++ s.live.map Block.address).Nodup := by
  refine nodup_append.mpr ⟨?_, h.inv.nodup_live, ?_⟩
  · refine nodup_flatMap.mpr ⟨fun slab hs => ?_, ?_⟩
    · exact (nodup_append.mp (h.inv.nodup_share hs)).1
    · refine h.nodup.imp_of_mem fun {x y} hx hy hne => ?_
      rintro a hax hay
      obtain ⟨i, hi, hslot⟩ := h.inv.free_slot hx hax
      obtain ⟨j, hj, hslot'⟩ := h.inv.free_slot hy hay
      have hself := h.inv.slab_of_slot_self hx hi
      have hself' := h.inv.slab_of_slot_self hy hj
      rw [← hslot] at hself
      rw [← hslot'] at hself'
      exact hne (hself.symm.trans hself')
  · intro a ha c hc hac
    obtain ⟨slab, hs, hfree⟩ := mem_flatMap.mp ha
    obtain ⟨b, hb, rfl⟩ := mem_map.mp hc
    exact h.inv.free_ne_live hs hfree hb hac

theorem RunInv.sound (h : RunInv src p s slabs free) : SlotsSound src p s slabs free := by
  have hinv := h.inv
  refine ⟨h.created, fun slab hs => (hinv.ok slab hs).chain, fun b hb => ?_, ?_, h.once,
    fun slab hs i hi => ?_⟩
  · obtain ⟨hs, i, hin⟩ := hinv.slab_of_live hb
    have hw := (hinv.ok _ hs).header
    exact ⟨hs, hin.index, hin.size, (hinv.live_range hs hin).2, i,
      Nat.lt_of_lt_of_le hin.lt hw.bump, hin.address⟩
  · refine (pairwise_map.mp hinv.nodup_live).imp_of_mem fun {b c} hb hc hne => ?_
    obtain ⟨hs, i, hin⟩ := hinv.slab_of_live hb
    obtain ⟨hs', j, hjn⟩ := hinv.slab_of_live hc
    rw [hin.address, hjn.address] at hne
    have hapart := hinv.slots_apart hs hs' hin.lt hjn.lt hne
    rw [← hin.address, ← hjn.address] at hapart
    exact hapart
  · have hmem : (s.heap.header slab).slot slab i ∈ (s.heap.header slab).carved slab :=
      SlabHeader.mem_carved.mpr ⟨i, hi, rfl⟩
    rcases mem_append.mp ((hinv.share slab hs).mem_iff.mpr hmem) with hfree | hlive
    · exact .inl hfree
    · obtain ⟨b, hb, haddress⟩ := mem_map.mp (mem_filter.mp hlive).1
      exact .inr ⟨b, hb, haddress⟩

end Slots

def smallSource : PageSource (PageTable.Sound PageTable.smallLayout) :=
  PageTable.source PageTable.smallLayout rfl (by decide)

def smallPages : PageTable.Sound PageTable.smallLayout :=
  ⟨PageTable.reserve PageTable.smallLayout, PageTable.wellFormed_reserve PageTable.smallLayout⟩

/-- Live blocks and free lists share out the slots of every slab. -/
theorem slots_sound {src : PageSource P} {m : Bytes} {p : P} {s : Run Thread P}
    (hs : (machine src m p).Reachable s) : ∃ slabs free, SlotsSound src p s slabs free := by
  obtain ⟨slabs, free, h⟩ := reachable_inv hs
  exact ⟨slabs, free, h.sound⟩

/-- A block that another thread frees is given out again. -/
theorem slots_sound_small : ∃ s : Run Bool (PageTable.Sound PageTable.smallLayout),
    (machine smallSource (fun _ => 0) smallPages).Reachable s ∧
      s.live = [⟨2 ^ 20 + 72, 8⟩, ⟨2 ^ 20 + 64, 5⟩] ∧ ∃ slabs free,
        SlotsSound smallSource smallPages s slabs free := by
  have hrun : ((machine smallSource (fun _ => 0) smallPages).run
      (start (fun _ => 0) smallPages) [.allocate true 8, .allocate true 8,
      .free false ⟨2 ^ 20 + 64, 8⟩, .allocate true 5]).map Run.live =
      some [⟨2 ^ 20 + 72, 8⟩, ⟨2 ^ 20 + 64, 5⟩] := by
    decide +kernel
  obtain ⟨s, hs, hlive⟩ := Option.map_eq_some_iff.mp hrun
  have hreach := Library.Interleaving.Machine.Reachable.init.run hs
  exact ⟨s, hreach, hlive, slots_sound hreach⟩

/-! When the allocator takes a new slab. -/

section Growth

variable {src : PageSource P} {m : Bytes} {p : P} {s : Run Thread P} {slabs : List ℕ}
  {free : ℕ → List ℕ}

omit [DecidableEq Thread] in
/-- A slab without a slot to give has all its slots live. -/
theorem RunInv.slots_live (h : RunInv src p s slabs free) {slab : ℕ} (hs : slab ∈ slabs)
    (hfree : (s.heap.header slab).freeList = none)
    (hbump : (s.heap.header slab).totalSlots ≤ (s.heap.header slab).bump) :
    ∀ i < (s.heap.header slab).totalSlots,
      ∃ b ∈ s.live, b.address = (s.heap.header slab).slot slab i := by
  intro i hi
  have hsound := h.sound
  have hchain := hsound.freeList slab hs
  rw [hfree] at hchain
  have hnil : free slab = [] := Segment.unique hchain rfl
  have hbelow := hsound.below slab hs i (Nat.lt_of_lt_of_le hi hbump)
  rw [hnil] at hbelow
  rcases hbelow with hnone | hlive
  · cases hnone
  · exact hlive

theorem Allocates.exhausted {t : Thread} {index : ℕ} {s s' : State Thread P} {r : Option ℕ}
    (h : Allocates src t index s r s')
    (hgrow : r = none ∨ ∃ a, src.handed s'.pages a ∧ ¬ src.handed s.pages a) :
    Exhausted s t index := by
  cases h with
  | recycle slab slot hactive hfree hmapped =>
    rcases hgrow with hnone | ⟨a, hnew, hold⟩
    · cases hnone
    · exact absurd hnew hold
  | bump slab hactive hfree hlt =>
    rcases hgrow with hnone | ⟨a, hnew, hold⟩
    · cases hnone
    · exact absurd hnew hold
  | fresh page pages hfull hpage => exact hfull
  | fails hfull hpage => exact hfull

end Growth

/-- The page table is asked for a slab only by a thread whose own slab of the class is missing
or has all its slots live. -/
theorem new_slab_when_exhausted {src : PageSource P} {m : Bytes} {p : P} {s : Run Thread P}
    (hs : (machine src m p).Reachable s) {t : Thread} {size : ℕ} (hsize : size ≤ 1024)
    {r : Option ℕ} {heap : State Thread P}
    (h : allocate src t size s.heap = some (r, heap))
    (hgrow : r = none ∨ ∃ a, src.handed heap.pages a ∧ ¬ src.handed s.heap.pages a) :
    s.heap.active t (classIndex size) = none ∨
      ∃ slab, s.heap.active t (classIndex size) = some slab ∧
        (s.heap.header slab).classIndex = classIndex size ∧ ∀ i < (s.heap.header slab).totalSlots,
          ∃ b ∈ s.live, b.address = (s.heap.header slab).slot slab i := by
  obtain ⟨slabs, free, hinv⟩ := reachable_inv hs
  rw [allocate, if_pos (classIndex_small hsize).1] at h
  have hfull := (allocate_cases h).exhausted hgrow
  cases hactive : s.heap.active t (classIndex size) with
  | none => exact .inl rfl
  | some slab =>
    obtain ⟨hfree, hbump⟩ := hfull slab hactive
    obtain ⟨hmem, hindex, -⟩ := hinv.active hsize hactive
    exact .inr ⟨slab, rfl, hindex, hinv.slots_live hmem hfree hbump⟩

/-- The 64th block of 1 KiB needs a second slab. -/
theorem new_slab_when_exhausted_small : ∃ s : Run Bool (PageTable.Sound PageTable.smallLayout),
    s.heap.active true 7 = some (2 ^ 20) ∧ s.live.length = 63 ∧
      ∀ i < (s.heap.header (2 ^ 20)).totalSlots,
        ∃ b ∈ s.live, b.address = (s.heap.header (2 ^ 20)).slot (2 ^ 20) i := by
  have hrun : ((machine smallSource (fun _ => 0) smallPages).run
      (start (fun _ => 0) smallPages) (replicate 63 (.allocate true 1024))).any (fun s =>
      s.heap.active true 7 = some (2 ^ 20) ∧ s.live.length = 63 ∧
      (allocate smallSource true 1024 s.heap).any fun p =>
        p.2.pages.val.Handed (2 ^ 20 + kPageSize) ∧ ¬ s.heap.pages.val.Handed (2 ^ 20 + kPageSize)) =
      true := by
    decide +kernel
  obtain ⟨s, hs, hfacts⟩ := (Option.any_eq_true _ _).mp hrun
  simp only [decide_eq_true_eq] at hfacts
  obtain ⟨hactive, hlive, hgrow⟩ := hfacts
  obtain ⟨⟨r, heap⟩, hcall, hnew⟩ := (Option.any_eq_true _ _).mp hgrow
  simp only [decide_eq_true_eq] at hnew
  have hreach := Library.Interleaving.Machine.Reachable.init.run hs
  refine ⟨s, hactive, hlive, ?_⟩
  rcases new_slab_when_exhausted hreach (by decide) hcall (.inr ⟨_, hnew⟩) with hnone | hfull
  · rw [show classIndex 1024 = 7 by decide, hactive] at hnone
    cases hnone
  · obtain ⟨slab, hslab, -, hall⟩ := hfull
    rw [show classIndex 1024 = 7 by decide, hactive] at hslab
    cases hslab
    exact hall

/-- A thread without a slab takes a new one past the free slot of another thread's slab. -/
theorem new_slab_past_free_slot : ∃ s : Run Bool (PageTable.Sound PageTable.smallLayout),
    (machine smallSource (fun _ => 0) smallPages).Reachable s ∧
    (s.heap.header (2 ^ 20)).classIndex = classIndex 8 ∧
    (s.heap.header (2 ^ 20)).freeList = some (2 ^ 20 + 64) ∧
    ∃ r heap, allocate smallSource false 8 s.heap =
      some (r, heap) ∧ heap.pages.val.Handed (2 ^ 20 + kPageSize) ∧
      ¬ s.heap.pages.val.Handed (2 ^ 20 + kPageSize) := by
  have hrun : ((machine smallSource (fun _ => 0) smallPages).run
      (start (fun _ => 0) smallPages) [.allocate true 8, .free true ⟨2 ^ 20 + 64, 8⟩]).any
      (fun s => (s.heap.header (2 ^ 20)).classIndex = classIndex 8 ∧
      (s.heap.header (2 ^ 20)).freeList = some (2 ^ 20 + 64) ∧
      (allocate smallSource false 8 s.heap).any fun p =>
        p.2.pages.val.Handed (2 ^ 20 + kPageSize) ∧ ¬ s.heap.pages.val.Handed (2 ^ 20 + kPageSize)) =
      true := by
    decide +kernel
  obtain ⟨s, hs, hfacts⟩ := (Option.any_eq_true _ _).mp hrun
  simp only [decide_eq_true_eq] at hfacts
  obtain ⟨hindex, hfree, hgrow⟩ := hfacts
  obtain ⟨⟨r, heap⟩, hcall, hnew⟩ := (Option.any_eq_true _ _).mp hgrow
  simp only [decide_eq_true_eq] at hnew
  exact ⟨s, Library.Interleaving.Machine.Reachable.init.run hs, hindex, hfree, r, heap, hcall, hnew⟩

/-! What a call of the slab allocator's `ReAllocate` does, and what the calls leave alone. -/

section Calls

variable {Thread P : Type} [DecidableEq Thread] {src : PageSource P} {s s' : State Thread P}
  {t : Thread} {size : ℕ} {r : Option ℕ}

theorem allocates_of_allocate (h : allocate src t size s = some (r, s')) :
    size ≤ 1024 ∧ Allocates src t (classIndex size) s r s' := by
  obtain ⟨hindex, h⟩ := Option.ite_none_right_eq_some.mp h
  refine ⟨?_, allocate_cases h⟩
  by_contra hlarge
  have hge := classIndex_large (Nat.lt_of_not_le hlarge)
  omega

/-- The memory after the slot at `block` went to the free list of its slab. -/
def State.freed (s : State Thread P) (block : ℕ) : State Thread P :=
  s.setMemory (storeFreeList
    (storePointer s.memory block (s.header (slabFromPtr block)).freeList)
    (slabFromPtr block) (some block))

omit [DecidableEq Thread] in
theorem free_eq {block n : ℕ} (h : free src (some block) s = some (n, s')) :
    src.Mapped s.pages (slabFromPtr block) kHeaderSize ∧ src.Mapped s.pages block 8 ∧
      n = (s'.header (slabFromPtr block)).slotSize ∧ s' = s.freed block := by
  obtain ⟨hmapped, h⟩ := Option.ite_none_right_eq_some.mp h
  cases h
  exact ⟨hmapped.1, hmapped.2, rfl, rfl⟩

/-- What `ReAllocate` of a block does. -/
inductive ReAllocates (src : PageSource P) (t : Thread) (former newSize : ℕ)
    (s : State Thread P) : Option ℕ → State Thread P → Prop where
  | zero (hzero : newSize = 0) (n : ℕ) (s' : State Thread P)
    (hfree : free src (some former) s = some (n, s')) :
    ReAllocates src t former newSize s none s'
  | inPlace (hpos : newSize ≠ 0)
    (hle : newSize ≤ (s.header (slabFromPtr former)).slotSize) :
    ReAllocates src t former newSize s (some former) s
  | fails (s' : State Thread P) (hlt : (s.header (slabFromPtr former)).slotSize < newSize)
    (hallocate : allocate src t newSize s = some (none, s')) :
    ReAllocates src t former newSize s none s'
  | moves (block n : ℕ) (s₁ s₂ s' : State Thread P)
    (hlt : (s.header (slabFromPtr former)).slotSize < newSize)
    (hallocate : allocate src t newSize s = some (some block, s₁))
    (hcopy : copySlot src block former s₁ = some s₂)
    (hfree : free src (some former) s₂ = some (n, s')) :
    ReAllocates src t former newSize s (some block) s'

theorem reAllocate_cases {former newSize : ℕ}
    (h : reAllocate src t (some former) newSize s = some (r, s')) :
    ReAllocates src t former newSize s r s' := by
  simp only [reAllocate] at h
  by_cases hzero : newSize = 0
  · rw [if_pos hzero] at h
    obtain ⟨⟨n, s₁⟩, hfree, heq⟩ := Option.map_eq_some_iff.mp h
    cases heq
    exact .zero hzero n _ hfree
  · rw [if_neg hzero] at h
    obtain ⟨-, h⟩ := Option.ite_none_right_eq_some.mp h
    by_cases hle : newSize ≤ (s.header (slabFromPtr former)).slotSize
    · rw [if_pos hle] at h
      cases h
      exact .inPlace hzero hle
    · rw [if_neg hle] at h
      split at h
      case h_1 => cases h
      case h_2 s₁ hallocate =>
        cases h
        exact .fails _ (Nat.lt_of_not_le hle) hallocate
      case h_3 block s₁ hallocate =>
        obtain ⟨s₂, hcopy, hrest⟩ := Option.bind_eq_some_iff.mp h
        obtain ⟨⟨n, s₃⟩, hfree, heq⟩ := Option.map_eq_some_iff.mp hrest
        cases heq
        exact .moves block n s₁ s₂ _ (Nat.lt_of_not_le hle) hallocate hcopy hfree

end Calls

section Slots

variable {Thread P : Type} {src : PageSource P} {s s' : State Thread P} {live : List Block}
  {slabs : List ℕ} {free : ℕ → List ℕ} {b c : Block} {x : ℕ}

def slotSizeFor (size : ℕ) : ℕ := classSize (classIndex size)

theorem Inv.slotSize_eq (h : Inv src s live slabs free) (hb : b ∈ live) :
    (s.header (slabFromPtr b.address)).slotSize = slotSizeFor b.size := by
  obtain ⟨hs, i, hin⟩ := h.slab_of_live hb
  rw [(h.ok _ hs).header.slotSize, hin.index, slotSizeFor]

/-- Where the slot of a live block lies. -/
structure SlotAt (src : PageSource P) (pages : P) (b : Block) : Prop where
  handed : src.handed pages (slabFromPtr b.address)
  page : IsPage (slabFromPtr b.address)
  low : slabFromPtr b.address + kHeaderSize ≤ b.address
  high : b.address + slotSizeFor b.size ≤ slabFromPtr b.address + kPageSize
  size : b.size ≤ slotSizeFor b.size
  word : 8 ≤ slotSizeFor b.size
  aligned : 8 ∣ b.address

theorem SlotAt.mapped {pages : P} (hat : SlotAt src pages b) {n : ℕ} (hlow : b.address ≤ x)
    (hhigh : x + n ≤ b.address + slotSizeFor b.size) : src.Mapped pages x n := by
  have hlow' := hat.low
  have hhigh' := hat.high
  exact PageSource.mapped_of_page hat.handed hat.page.aligned (by omega) (by omega)

theorem eight_dvd_classSize {index : ℕ} (h : index < kNumClasses) : 8 ∣ classSize index := by
  have hall : ∀ index < 8, 8 ∣ classSize index := by decide
  exact hall index h

section

variable (h : Inv src s live slabs free)
include h

theorem Inv.slotAt (hb : b ∈ live) : SlotAt src s.pages b := by
  obtain ⟨hs, i, hin⟩ := h.slab_of_live hb
  have hw := (h.ok _ hs).header
  have hpage := (h.ok _ hs).page
  have heq := h.slotSize_eq hb
  obtain ⟨hlow, hhigh⟩ := h.live_range hs hin
  have hsize := hin.size
  have hge := hw.slotSize_ge
  rw [heq] at hhigh hsize hge
  refine ⟨h.handed _ hs, hpage, hlow, hhigh, hsize, hge, ?_⟩
  have hslot : 8 ∣ (s.header (slabFromPtr b.address)).slotSize := by
    rw [hw.slotSize]
    exact eight_dvd_classSize hw.index
  have hdvd : 8 ∣ slabFromPtr b.address := Nat.dvd_trans (by decide) hpage.aligned
  rw [hin.address, SlabHeader.slot]
  exact Nat.dvd_add (Nat.dvd_add hdvd (by decide)) (Nat.dvd_mul_left_of_dvd hslot i)

theorem Inv.live_apart (hb : b ∈ live) (hc : c ∈ live) (hne : b.address ≠ c.address) :
    b.address + slotSizeFor b.size ≤ c.address ∨ c.address + slotSizeFor c.size ≤ b.address := by
  obtain ⟨hs, i, hin⟩ := h.slab_of_live hb
  obtain ⟨hs', j, hjn⟩ := h.slab_of_live hc
  have hslots : (s.header (slabFromPtr b.address)).slot (slabFromPtr b.address) i ≠
      (s.header (slabFromPtr c.address)).slot (slabFromPtr c.address) j := by
    rw [← hin.address, ← hjn.address]
    exact hne
  have hapart := h.slots_apart hs hs' hin.lt hjn.lt hslots
  rw [← hin.address, ← hjn.address, h.slotSize_eq hb, h.slotSize_eq hc] at hapart
  exact hapart

theorem Inv.outside_header (hb : b ∈ live) {slab : ℕ} (hs : slab ∈ slabs) (hlow : b.address ≤ x)
    (hhigh : x < b.address + slotSizeFor b.size) : x < slab ∨ slab + kHeaderSize ≤ x := by
  have hat := h.slotAt hb
  have hlow' := hat.low
  have hhigh' := hat.high
  by_cases heq : slab = slabFromPtr b.address
  · rw [heq]
    omega
  · have hapart := (h.ok slab hs).page.apart hat.page heq
    have hsize : kHeaderSize ≤ kPageSize := by decide
    omega

end

end Slots

section Frames

variable {Thread P : Type} [DecidableEq Thread] {src : PageSource P} {s s' : State Thread P}
  {live : List Block} {slabs : List ℕ} {free : ℕ → List ℕ} {t : Thread} {index x : ℕ}
  {r : Option ℕ} {b c : Block}

theorem Allocates.frame (ha : Allocates src t index s r s') (h : Inv src s live slabs free)
    (hb : b ∈ live) (hlow : b.address ≤ x) (hhigh : x < b.address + slotSizeFor b.size) :
    s'.memory x = s.memory x := by
  cases ha with
  | recycle slab slot hactive hfree hmapped =>
    have hs := (h.active t index slab hactive).1
    exact storeFreeList_of_outside (h.outside_header hb hs hlow hhigh)
  | bump slab hactive hfree hlt =>
    have hs := (h.active t index slab hactive).1
    exact storeBump_of_outside (h.outside_header hb hs hlow hhigh)
  | fresh page pages hfull hpage =>
    have hgrant := src.page_grant _ _ _ hpage
    have hat := h.slotAt hb
    have hlow' := hat.low
    have hhigh' := hat.high
    have hne : page.address ≠ slabFromPtr b.address := by
      intro heq
      refine hgrant.fresh 0 Nat.one_pos ?_
      rw [Nat.mul_zero, Nat.add_zero, heq]
      exact hat.handed
    have hapart := (isPage_of_grant hgrant).apart hat.page hne
    exact freshSlab_memory (by omega)
  | fails hfull hpage => rfl

section

omit [DecidableEq Thread]

/-- A slot that goes to the free list, and what `Free` leaves alone. -/
theorem freed_frame (h : Inv src s live slabs free) (hb : b ∈ live) (hc : c ∈ live)
    (hne : b.address ≠ c.address) (hlow : c.address ≤ x)
    (hhigh : x < c.address + slotSizeFor c.size) : (s.freed b.address).memory x = s.memory x := by
  have hs := (h.slab_of_live hb).1
  have hapart := h.live_apart hb hc hne
  have hword := (h.slotAt hb).word
  refine (storeFreeList_of_outside (h.outside_header hc hs hlow hhigh)).trans ?_
  exact storePointer_of_outside (by omega)

theorem free_live (h : Inv src s live slabs free) (hb : b ∈ live) :
    ∃ n, BucketAllocator.free src (some b.address) s = some (n, s.freed b.address) := by
  have hat := h.slotAt hb
  have hword := hat.word
  have hheader : src.Mapped s.pages (slabFromPtr b.address) kHeaderSize :=
    PageSource.mapped_of_page hat.handed hat.page.aligned (Nat.le_refl _)
      (by unfold kHeaderSize kPageSize; omega)
  have hblock : src.Mapped s.pages b.address 8 := hat.mapped (Nat.le_refl _) (by omega)
  exact ⟨_, if_pos ⟨hheader, hblock⟩⟩

end

end Frames

end Equilibrium.BucketAllocator
