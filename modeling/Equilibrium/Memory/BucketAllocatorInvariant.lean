import Equilibrium.Library.LinkedChain
import Equilibrium.Memory.BucketAllocator

/-! The slots of the slab allocator under any sequence of calls: the blocks that are live
and the free lists of the slabs share out the slots below the bump cursors. -/

namespace Equilibrium.BucketAllocator

open Library.ByteMemory Library.LinkedChain List

variable {Thread P : Type}

/-- The slab in a page and its free list. -/
structure SlabOk (s : State Thread P) (slab : ℕ) (free : List ℕ) : Prop where
  page : IsPage slab
  header : (s.header slab).WellFormed
  chain : Segment (loadPointer s.memory) (s.header slab).freeList free none

def SlabHeader.carved (h : SlabHeader) (slab : ℕ) : List ℕ :=
  (List.range h.bump).map (h.slot slab)

theorem SlabHeader.mem_carved {h : SlabHeader} {slab a : ℕ} :
    a ∈ h.carved slab ↔ ∃ i < h.bump, a = h.slot slab i := by
  simp [SlabHeader.carved, eq_comm]

theorem SlabHeader.carved_congr {h h' : SlabHeader} {slab : ℕ} (hsize : h'.slotSize = h.slotSize)
    (hbump : h'.bump = h.bump) : h'.carved slab = h.carved slab := by
  unfold SlabHeader.carved SlabHeader.slot
  rw [hsize, hbump]

theorem SlabHeader.WellFormed.nodup_carved {h : SlabHeader} (hw : h.WellFormed) (slab : ℕ) :
    (h.carved slab).Nodup :=
  nodup_range.map fun _ _ heq => hw.slot_inj heq

def liveIn (live : List Block) (slab : ℕ) : List ℕ :=
  (live.map Block.address).filter fun a => slabFromPtr a = slab

/-- The block lies in a slot of the slab, of the class of its size. -/
structure InSlot (s : State Thread P) (b : Block) (slab i : ℕ) : Prop where
  lt : i < (s.header slab).bump
  address : b.address = (s.header slab).slot slab i
  size : b.size ≤ (s.header slab).slotSize
  index : (s.header slab).classIndex = classIndex b.size

/-- The slots below the cursor of a slab are its free list and the live blocks in it. -/
structure Inv (src : PageSource P) (s : State Thread P) (live : List Block) (slabs : List ℕ)
    (free : ℕ → List ℕ) : Prop where
  handed : ∀ slab ∈ slabs, src.handed s.pages slab
  ok : ∀ slab ∈ slabs, SlabOk s slab (free slab)
  inSlot : ∀ b ∈ live, ∃ slab ∈ slabs, ∃ i, InSlot s b slab i
  share : ∀ slab ∈ slabs, (free slab ++ liveIn live slab).Perm ((s.header slab).carved slab)
  active : ∀ t index slab, s.active t index = some slab →
    slab ∈ slabs ∧ (s.header slab).classIndex = index

namespace Inv

variable {src : PageSource P} {s : State Thread P} {live : List Block} {slabs : List ℕ}
  {free : ℕ → List ℕ} (h : Inv src s live slabs free)

include h

variable {slab : ℕ}

theorem nodup_share (hs : slab ∈ slabs) : (free slab ++ liveIn live slab).Nodup :=
  (h.share slab hs).nodup_iff.mpr ((h.ok slab hs).header.nodup_carved slab)

variable {a : ℕ}

theorem free_slot (hs : slab ∈ slabs) (ha : a ∈ free slab) :
    ∃ i < (s.header slab).bump, a = (s.header slab).slot slab i :=
  SlabHeader.mem_carved.mp ((h.share slab hs).mem_iff.mp (mem_append_left _ ha))

variable {i : ℕ}

theorem slab_of_slot (hs : slab ∈ slabs) (hi : i < (s.header slab).bump)
    (hle : (s.header slab).slot slab i ≤ a)
    (hlt : a < (s.header slab).slot slab i + (s.header slab).slotSize) : slabFromPtr a = slab :=
  (h.ok slab hs).header.slabFromPtr_slot (h.ok slab hs).page
    (Nat.lt_of_lt_of_le hi (h.ok slab hs).header.bump) hle hlt

theorem slab_of_slot_self (hs : slab ∈ slabs) (hi : i < (s.header slab).bump) :
    slabFromPtr ((s.header slab).slot slab i) = slab := by
  have hge := (h.ok slab hs).header.slotSize_ge
  exact h.slab_of_slot hs hi (Nat.le_refl _) (by omega)

theorem slots_apart {slab' j : ℕ} (hs : slab ∈ slabs) (hs' : slab' ∈ slabs)
    (hi : i < (s.header slab).bump) (hj : j < (s.header slab').bump)
    (hne : (s.header slab).slot slab i ≠ (s.header slab').slot slab' j) :
    (s.header slab).slot slab i + (s.header slab).slotSize ≤ (s.header slab').slot slab' j ∨
      (s.header slab').slot slab' j + (s.header slab').slotSize ≤ (s.header slab).slot slab i := by
  have hw := (h.ok slab hs).header
  have hw' := (h.ok slab' hs').header
  by_cases hslab : slab = slab'
  · subst hslab
    exact SlabHeader.WellFormed.slot_apart fun hij => hne (by rw [hij])
  · have hrange := hw.slot_range slab (Nat.lt_of_lt_of_le hi hw.bump)
    have hrange' := hw'.slot_range slab' (Nat.lt_of_lt_of_le hj hw'.bump)
    rcases (h.ok slab hs).page.apart (h.ok slab' hs').page hslab with hlt | hlt
    · exact .inl (by omega)
    · exact .inr (by omega)

variable {b : Block}

theorem slab_of_live (hb : b ∈ live) :
    slabFromPtr b.address ∈ slabs ∧ ∃ i, InSlot s b (slabFromPtr b.address) i := by
  obtain ⟨slab, hs, i, hin⟩ := h.inSlot b hb
  have hslab := h.slab_of_slot_self hs hin.lt
  rw [← hin.address] at hslab
  rw [hslab]
  exact ⟨hs, i, hin⟩

omit h in
theorem live_mem (hb : b ∈ live) : b.address ∈ liveIn live (slabFromPtr b.address) :=
  mem_filter.mpr ⟨mem_map_of_mem hb, decide_eq_true rfl⟩

section

variable (hs : slab ∈ slabs)
include hs

theorem free_ne_live (ha : a ∈ free slab) (hb : b ∈ live) : a ≠ b.address := by
  rintro rfl
  obtain ⟨i, hi, hslot⟩ := h.free_slot hs ha
  have hslab := h.slab_of_slot_self hs hi
  rw [← hslot] at hslab
  have hnodup := h.nodup_share hs
  rw [nodup_append] at hnodup
  exact hnodup.2.2 _ ha _ (hslab ▸ live_mem hb) rfl

theorem free_apart (ha : a ∈ free slab) (hb : b ∈ live) :
    a + 8 ≤ b.address ∨ b.address + (s.header (slabFromPtr b.address)).slotSize ≤ a := by
  obtain ⟨i, hi, rfl⟩ := h.free_slot hs ha
  obtain ⟨hs', j, hin⟩ := h.slab_of_live hb
  have hge := (h.ok slab hs).header.slotSize_ge
  have hne := h.free_ne_live hs ha hb
  rw [hin.address] at hne
  have hapart := h.slots_apart hs hs' hi hin.lt hne
  rw [← hin.address] at hapart
  omega

theorem free_range (ha : a ∈ free slab) : slab + kHeaderSize ≤ a ∧ a + 8 ≤ slab + kPageSize := by
  obtain ⟨i, hi, rfl⟩ := h.free_slot hs ha
  have hw := (h.ok slab hs).header
  have hrange := hw.slot_range slab (Nat.lt_of_lt_of_le hi hw.bump)
  have hge := hw.slotSize_ge
  omega

theorem live_range (hin : InSlot s b slab i) : slab + kHeaderSize ≤ b.address ∧
      b.address + (s.header slab).slotSize ≤ slab + kPageSize := by
  have hw := (h.ok slab hs).header
  rw [hin.address]
  exact hw.slot_range slab (Nat.lt_of_lt_of_le hin.lt hw.bump)

end

omit h in
/-- A header lies apart from what another page holds. -/
theorem header_of_outside {m' : Bytes} {x : ℕ} (hpage : IsPage slab) (hx : IsPage x)
    (hne : slab ≠ x) (hm : ∀ a, a < x ∨ x + kPageSize ≤ a → m' a = s.memory a) :
    loadHeader m' slab = s.header slab := by
  refine loadHeader_congr fun a hle hlt => hm a ?_
  have hapart := hpage.apart hx hne
  unfold kPageSize at *
  omega

theorem link_of_header {m' : Bytes} {x : ℕ} (hs : slab ∈ slabs) (ha : a ∈ free slab) (hx : IsPage x)
    (hm : ∀ a, a < x ∨ x + kHeaderSize ≤ a → m' a = s.memory a) :
    loadPointer m' a = loadPointer s.memory a := by
  obtain ⟨hlow, hhigh⟩ := h.free_range hs ha
  refine loadPointer_congr fun b hle hlt => hm b ?_
  by_cases hne : slab = x
  · subst hne
    omega
  · have hapart := (h.ok slab hs).page.apart hx hne
    have hpage : kHeaderSize ≤ kPageSize := by decide
    omega

theorem mapped_of_range {n : ℕ} (hs : slab ∈ slabs) (hle : slab ≤ a)
    (hend : a + n ≤ slab + kPageSize) : src.Mapped s.pages a n :=
  PageSource.mapped_of_page (h.handed slab hs) (h.ok slab hs).page.aligned hle hend

end Inv

section Allocate

variable [DecidableEq Thread] {src : PageSource P} {s s' : State Thread P} {t : Thread}
  {index : ℕ} {r : Option ℕ}

def State.freshSlab (s : State Thread P) (t : Thread) (index page : ℕ) (pages : P) :
    State Thread P where
  memory := storeBump (storeNewHeader (prefault s.memory page) page index) page 1
  pages := pages
  active := Function.update s.active t (Function.update (s.active t) index (some page))

def Exhausted (s : State Thread P) (t : Thread) (index : ℕ) : Prop :=
  ∀ slab, s.active t index = some slab →
    (s.header slab).freeList = none ∧ (s.header slab).totalSlots ≤ (s.header slab).bump

/-- What `Allocate` does. -/
inductive Allocates (src : PageSource P) (t : Thread) (index : ℕ) (s : State Thread P) :
    Option ℕ → State Thread P → Prop where
  | recycle (slab slot : ℕ) (hactive : s.active t index = some slab)
    (hfree : (s.header slab).freeList = some slot) (hmapped : src.Mapped s.pages slot 8) :
    Allocates src t index s (some slot)
      (s.setMemory (storeFreeList s.memory slab (loadPointer s.memory slot)))
  | bump (slab : ℕ) (hactive : s.active t index = some slab)
    (hfree : (s.header slab).freeList = none)
    (hlt : (s.header slab).bump < (s.header slab).totalSlots) :
    Allocates src t index s (some ((s.header slab).slot slab (s.header slab).bump % kWordRange))
      (s.setMemory (storeBump s.memory slab ((s.header slab).bump + 1)))
  | fresh (page : Pages) (pages : P) (hfull : Exhausted s t index)
    (hpage : src.requestPage s.pages = some (page, pages)) :
    Allocates src t index s (some (page.address + kHeaderSize))
      (s.freshSlab t index page.address pages)
  | fails (hfull : Exhausted s t index) (hpage : src.requestPage s.pages = none) :
    Allocates src t index s none s

theorem freshSlab_header {page : ℕ} {pages : P} (h : index < kNumClasses) :
    (s.freshSlab t index page pages).header page = { newHeader index with bump := 1 } := by
  have hstored : (s.freshSlab t index page pages).header page =
      { loadHeader (storeNewHeader (prefault s.memory page) page index) page with bump := 1 } :=
    loadHeader_storeBump (by decide)
  rw [hstored, loadHeader_storeNewHeader h]

theorem freshSlab_memory {page a : ℕ} {pages : P} (h : a < page ∨ page + kPageSize ≤ a) :
    (s.freshSlab t index page pages).memory a = s.memory a := by
  have hsize : kHeaderSize ≤ kPageSize := by decide
  simp only [State.freshSlab]
  rw [storeBump_of_outside (by omega), storeNewHeader_of_outside (by omega),
    prefault_of_outside h]

theorem freshSlab_active {page slab i : ℕ} {pages : P} {t' : Thread}
    (h : (s.freshSlab t index page pages).active t' i = some slab) :
    s.active t' i = some slab ∨ (i = index ∧ slab = page) := by
  simp only [State.freshSlab] at h
  by_cases ht : t' = t
  · subst ht
    rw [Function.update_self] at h
    by_cases hi : i = index
    · subst hi
      rw [Function.update_self] at h
      exact .inr ⟨rfl, (Option.some.inj h).symm⟩
    · rw [Function.update_of_ne hi] at h
      exact .inl h
  · rw [Function.update_of_ne ht] at h
    exact .inl h

theorem allocateSlow_cases (hfull : Exhausted s t index)
    (h : allocateSlow src t index s = (r, s')) : Allocates src t index s r s' := by
  rw [allocateSlow, newSlab] at h
  cases hpage : src.requestPage s.pages with
  | none =>
    rw [hpage] at h
    cases h
    exact .fails hfull hpage
  | some p =>
    rw [hpage] at h
    cases h
    exact .fresh p.1 p.2 hfull hpage

theorem allocate_cases (h : allocateLocked src t index s = some (r, s')) :
    Allocates src t index s r s' := by
  rw [allocateLocked] at h
  split at h
  case h_1 hactive =>
    exact allocateSlow_cases (fun slab hslab => by simp [hactive] at hslab) (Option.some.inj h)
  case h_2 slab hactive =>
    split at h
    case h_1 slot hfree =>
      split at h
      case isTrue hmapped =>
        cases h
        exact .recycle slab slot hactive hfree hmapped
      case isFalse => cases h
    case h_2 hfree =>
      split at h
      case isTrue hlt =>
        cases h
        exact .bump slab hactive hfree hlt
      case isFalse hge =>
        refine allocateSlow_cases (fun slab' hslab => ?_) (Option.some.inj h)
        cases hactive.symm.trans hslab
        exact ⟨hfree, by omega⟩

end Allocate

section Steps

variable {src : PageSource P} {s s' : State Thread P} {t : Thread} {live live' : List Block}
  {slabs : List ℕ} {free : ℕ → List ℕ} {index size : ℕ}

theorem liveIn_append (live : List Block) (b : Block) (slab : ℕ) : liveIn (live ++ [b]) slab =
    if slabFromPtr b.address = slab then liveIn live slab ++ [b.address] else liveIn live slab := by
  rw [liveIn, List.map_append, filter_append]
  by_cases heq : slabFromPtr b.address = slab <;> simp [liveIn, heq]

variable {b : Block}

theorem liveIn_erase (hb : b ∈ live) (slab : ℕ) : (liveIn live slab).Perm
    (if slabFromPtr b.address = slab then b.address :: liveIn (live.erase b) slab
      else liveIn (live.erase b) slab) := by
  have hperm := ((perm_cons_erase hb).map Block.address).filter
    fun a => slabFromPtr a = slab
  rw [map_cons, filter_cons] at hperm
  by_cases heq : slabFromPtr b.address = slab
  · rw [if_pos (decide_eq_true heq)] at hperm
    rw [if_pos heq]
    exact hperm
  · rw [if_neg (by simpa using heq)] at hperm
    rw [if_neg heq]
    exact hperm

theorem Inv.update (h : Inv src s live slabs free) {x : ℕ} {l : List ℕ} (hx : x ∈ slabs)
    (hpages : s'.pages = s.pages) (hactive : s'.active = s.active)
    (hother : ∀ slab ∈ slabs, slab ≠ x → s'.header slab = s.header slab)
    (hindex : (s'.header x).classIndex = (s.header x).classIndex)
    (hsize : (s'.header x).slotSize = (s.header x).slotSize)
    (htotal : (s'.header x).totalSlots = (s.header x).totalSlots)
    (hbump : (s.header x).bump ≤ (s'.header x).bump)
    (hbound : (s'.header x).bump ≤ (s.header x).totalSlots)
    (hmemory : ∀ slab ∈ slabs, slab ≠ x → ∀ a ∈ free slab,
      loadPointer s'.memory a = loadPointer s.memory a)
    (hchain : Segment (loadPointer s'.memory) (s'.header x).freeList l none)
    (hlive : ∀ b ∈ live', b ∈ live ∨ ∃ i, InSlot s' b x i)
    (hshare : (l ++ liveIn live' x).Perm ((s'.header x).carved x))
    (hothers : ∀ slab ∈ slabs, slab ≠ x → (liveIn live' slab).Perm (liveIn live slab)) :
    Inv src s' live' slabs (Function.update free x l) := by
  have hconst : ∀ slab ∈ slabs, (s'.header slab).classIndex = (s.header slab).classIndex ∧
      (s'.header slab).slotSize = (s.header slab).slotSize ∧
      (s.header slab).bump ≤ (s'.header slab).bump := by
    intro slab hs
    by_cases hne : slab = x
    · rw [hne]
      exact ⟨hindex, hsize, hbump⟩
    · rw [hother slab hs hne]
      exact ⟨rfl, rfl, Nat.le_refl _⟩
  refine ⟨fun slab hs => ?_, fun slab hs => ?_, fun b hb => ?_, fun slab hs => ?_,
    fun t index slab ha => ?_⟩
  · rw [hpages]
    exact h.handed slab hs
  · obtain ⟨hpage, hheader, hfree⟩ := h.ok slab hs
    by_cases hne : slab = x
    · subst hne
      rw [Function.update_self]
      refine ⟨hpage, ⟨?_, ?_, ?_, ?_⟩, hchain⟩
      · rw [hindex]
        exact hheader.index
      · rw [hsize, hindex]
        exact hheader.slotSize
      · rw [htotal, hindex]
        exact hheader.total
      · rw [htotal]
        exact hbound
    · rw [Function.update_of_ne hne]
      refine ⟨hpage, (hother slab hs hne).symm ▸ hheader, ?_⟩
      rw [hother slab hs hne]
      exact hfree.congr fun a ha => hmemory slab hs hne a ha
  · rcases hlive b hb with hold | ⟨i, hin⟩
    · obtain ⟨slab, hs, i, hin⟩ := h.inSlot b hold
      obtain ⟨hi, hs', hb'⟩ := hconst slab hs
      refine ⟨slab, hs, i, Nat.lt_of_lt_of_le hin.lt hb', ?_, ?_, ?_⟩
      · rw [hin.address, SlabHeader.slot, SlabHeader.slot, hs']
      · rw [hs']
        exact hin.size
      · rw [hi]
        exact hin.index
    · exact ⟨x, hx, i, hin⟩
  · by_cases hne : slab = x
    · subst hne
      rw [Function.update_self]
      exact hshare
    · rw [Function.update_of_ne hne, hother slab hs hne]
      exact ((hothers slab hs hne).append_left _).trans (h.share slab hs)
  · rw [hactive] at ha
    obtain ⟨hs, hi⟩ := h.active t index slab ha
    exact ⟨hs, (hconst slab hs).1.trans hi⟩

theorem isPage_of_grant {page : Pages} {handed handed' : ℕ → Prop}
    (h : PageGrant handed handed' 1 page) : IsPage page.address :=
  ⟨h.pos, h.aligned, Nat.le_of_lt (by simpa using h.fits)⟩

theorem carved_succ (h : SlabHeader) (slab : ℕ) :
    ({ h with bump := h.bump + 1 } : SlabHeader).carved slab =
      h.carved slab ++ [h.slot slab h.bump] := by
  rw [SlabHeader.carved, List.range_succ, List.map_append]
  rfl

section

variable (h : Inv src s live slabs free)
include h

theorem Inv.recycle {slab slot : ℕ} (hs : slab ∈ slabs)
    (hindex : (s.header slab).classIndex = classIndex size)
    (hsize : size ≤ (s.header slab).slotSize) (hfree : (s.header slab).freeList = some slot)
    (hpages : s'.pages = s.pages) (hactive : s'.active = s.active)
    (hhead : s'.header slab = { s.header slab with freeList := loadPointer s.memory slot })
    (hmemory : ∀ a, a < slab ∨ slab + kHeaderSize ≤ a → s'.memory a = s.memory a) :
    ∃ free', Inv src s' (live ++ [⟨slot, size⟩]) slabs free' := by
  obtain ⟨hpage, hheader, hchain⟩ := h.ok slab hs
  cases hlist : free slab with
  | nil =>
    rw [hlist, hfree] at hchain
    cases hchain
  | cons y rest =>
    rw [hlist, hfree] at hchain
    obtain ⟨hy, hrest⟩ := hchain
    cases hy
    have hmem : slot ∈ free slab := by simp [hlist]
    obtain ⟨i, hi, hslot⟩ := h.free_slot hs hmem
    have hself : slabFromPtr slot = slab := by
      rw [hslot]
      exact h.slab_of_slot_self hs hi
    have hshare := h.share slab hs
    rw [hlist] at hshare
    refine ⟨_, h.update (l := rest) hs hpages hactive (fun x hx hne => ?_) (by rw [hhead])
      (by rw [hhead]) (by rw [hhead]) (Nat.le_of_eq (by rw [hhead]))
      (by rw [hhead]; exact hheader.bump)
      (fun x hx _ a ha => h.link_of_header hx ha hpage hmemory) ?_ (fun b hb => ?_) ?_
      (fun x _ hne => ?_)⟩
    · exact Inv.header_of_outside (h.ok x hx).page hpage hne
        fun a ha => hmemory a (by unfold kPageSize kHeaderSize at *; omega)
    · have hfirst : (s'.header slab).freeList = loadPointer s.memory slot := by rw [hhead]
      rw [hfirst]
      exact hrest.congr fun a ha => h.link_of_header hs (by simp [hlist, ha]) hpage hmemory
    · rcases mem_append.mp hb with hold | hnew
      · exact .inl hold
      · obtain rfl := mem_singleton.mp hnew
        refine .inr ⟨i, by rw [hhead]; exact hi, ?_, by rw [hhead]; exact hsize,
          by rw [hhead]; exact hindex⟩
        rw [SlabHeader.slot, show (s'.header slab).slotSize = (s.header slab).slotSize by rw [hhead]]
        exact hslot
    · rw [SlabHeader.carved_congr (h := s.header slab) (by rw [hhead]) (by rw [hhead]),
        liveIn_append, if_pos hself, ← append_assoc]
      refine perm_append_comm.trans ?_
      rw [singleton_append]
      exact hshare
    · rw [liveIn_append, if_neg (by rw [hself]; exact Ne.symm hne)]

theorem Inv.bump {slab slot : ℕ} (hs : slab ∈ slabs)
    (hindex : (s.header slab).classIndex = classIndex size)
    (hsize : size ≤ (s.header slab).slotSize) (hfree : (s.header slab).freeList = none)
    (hlt : (s.header slab).bump < (s.header slab).totalSlots)
    (hslot : slot = (s.header slab).slot slab (s.header slab).bump) (hpages : s'.pages = s.pages)
    (hactive : s'.active = s.active)
    (hhead : s'.header slab = { s.header slab with bump := (s.header slab).bump + 1 })
    (hmemory : ∀ a, a < slab ∨ slab + kHeaderSize ≤ a → s'.memory a = s.memory a) :
    ∃ free', Inv src s' (live ++ [⟨slot, size⟩]) slabs free' := by
  obtain ⟨hpage, hheader, hchain⟩ := h.ok slab hs
  have hge := hheader.slotSize_ge
  rw [hfree] at hchain
  have hnil : free slab = [] := Segment.unique hchain rfl
  have hself : slabFromPtr slot = slab :=
    hheader.slabFromPtr_slot hpage hlt (Nat.le_of_eq hslot.symm) (by omega)
  have hshare := h.share slab hs
  rw [hnil, nil_append] at hshare
  refine ⟨_, h.update (l := []) hs hpages hactive (fun x hx hne => ?_) (by rw [hhead])
    (by rw [hhead]) (by rw [hhead]) (by rw [hhead]; exact Nat.le_succ _)
    (by rw [hhead]; exact hlt)
    (fun x hx _ a ha => h.link_of_header hx ha hpage hmemory) (by rw [hhead]; exact hfree)
    (fun b hb => ?_) ?_ (fun x _ hne => ?_)⟩
  · exact Inv.header_of_outside (h.ok x hx).page hpage hne
      fun a ha => hmemory a (by unfold kPageSize kHeaderSize at *; omega)
  · rcases mem_append.mp hb with hold | hnew
    · exact .inl hold
    · obtain rfl := mem_singleton.mp hnew
      exact .inr ⟨(s.header slab).bump, by rw [hhead]; exact Nat.lt_succ_self _,
        by rw [hhead]; exact hslot, by rw [hhead]; exact hsize, by rw [hhead]; exact hindex⟩
  · rw [hhead, liveIn_append, if_pos hself, carved_succ, nil_append, hslot]
    exact hshare.append_right _
  · rw [liveIn_append, if_neg (by rw [hself]; exact Ne.symm hne)]

theorem Inv.liveIn_nil {page : ℕ} (hpage : page ∉ slabs) : liveIn live page = [] := by
  refine filter_eq_nil_iff.mpr fun a ha => ?_
  obtain ⟨b, hb, rfl⟩ := mem_map.mp ha
  have hmem := (h.slab_of_live hb).1
  simp only [decide_eq_true_eq]
  rintro rfl
  exact hpage hmem

theorem Inv.fresh {page : Pages}
    (hgrant : PageGrant (src.handed s.pages) (src.handed s'.pages) 1 page)
    (hindex : index = classIndex size) (hlt : index < kNumClasses) (hsize : size ≤ classSize index)
    (hactive : ∀ t i slab, s'.active t i = some slab →
      s.active t i = some slab ∨ (i = index ∧ slab = page.address))
    (hhead : s'.header page.address = { newHeader index with bump := 1 })
    (hmemory : ∀ a, a < page.address ∨ page.address + kPageSize ≤ a → s'.memory a = s.memory a) :
    ∃ free', Inv src s' (live ++ [⟨page.address + kHeaderSize, size⟩]) (page.address :: slabs)
      free' := by
  have hpage := isPage_of_grant hgrant
  have hnew : page.address ∉ slabs := fun hmem =>
    hgrant.fresh 0 Nat.one_pos (by simpa using h.handed _ hmem)
  have hne : ∀ slab ∈ slabs, slab ≠ page.address := fun slab hs => ne_of_mem_of_not_mem hs hnew
  have hheader : (s'.header page.address).WellFormed := by
    have hw := newHeader_wellFormed hlt
    rw [hhead]
    exact ⟨hw.index, hw.slotSize, hw.total, hw.total_pos⟩
  have hold : ∀ slab ∈ slabs, s'.header slab = s.header slab := fun slab hs =>
    Inv.header_of_outside (h.ok slab hs).page hpage (hne slab hs) hmemory
  have hbump : (s'.header page.address).bump = 1 := by rw [hhead]
  have hslot : (s'.header page.address).slot page.address 0 = page.address + kHeaderSize := by
    rw [SlabHeader.slot, Nat.zero_mul, Nat.add_zero]
  have hself : slabFromPtr (page.address + kHeaderSize) = page.address := by
    have hge := hheader.slotSize_ge
    exact hheader.slabFromPtr_slot hpage hheader.total_pos (Nat.le_of_eq hslot) (by omega)
  refine ⟨Function.update free page.address [], fun slab hs => ?_, fun slab hs => ?_,
    fun b hb => ?_, fun slab hs => ?_, fun t i slab ha => ?_⟩
  · rcases mem_cons.mp hs with rfl | hs
    · exact (hgrant.handed _).mpr (.inr ⟨0, Nat.one_pos, by simp⟩)
    · exact (hgrant.handed _).mpr (.inl (h.handed slab hs))
  · rcases mem_cons.mp hs with rfl | hs
    · rw [Function.update_self]
      refine ⟨hpage, hheader, ?_⟩
      rw [hhead]
      rfl
    · rw [Function.update_of_ne (hne slab hs)]
      obtain ⟨hslab, hw, hchain⟩ := h.ok slab hs
      refine ⟨hslab, (hold slab hs).symm ▸ hw, ?_⟩
      rw [hold slab hs]
      refine hchain.congr fun a ha => loadPointer_congr fun b hle hlt => hmemory b ?_
      have hrange := h.free_range hs ha
      have hapart := hslab.apart hpage (hne slab hs)
      omega
  · rcases mem_append.mp hb with hb | hb
    · obtain ⟨slab, hs, i, hin⟩ := h.inSlot b hb
      refine ⟨slab, mem_cons_of_mem _ hs, i, ?_, ?_, ?_, ?_⟩
      · rw [hold slab hs]
        exact hin.lt
      · rw [hold slab hs]
        exact hin.address
      · rw [hold slab hs]
        exact hin.size
      · rw [hold slab hs]
        exact hin.index
    · obtain rfl := mem_singleton.mp hb
      refine ⟨page.address, mem_cons_self, 0, ?_, hslot.symm, ?_, ?_⟩
      · rw [hbump]
        exact Nat.one_pos
      · rw [hhead]
        exact hsize
      · rw [hhead]
        exact hindex
  · rcases mem_cons.mp hs with rfl | hs
    · rw [Function.update_self, liveIn_append, if_pos hself, h.liveIn_nil hnew, SlabHeader.carved,
        hbump, List.range_one, List.map_singleton, hslot]
      exact List.Perm.refl _
    · rw [Function.update_of_ne (hne slab hs), liveIn_append,
        if_neg (by rw [hself]; exact (hne slab hs).symm), hold slab hs]
      exact h.share slab hs
  · rcases hactive t i slab ha with ha | ⟨rfl, rfl⟩
    · obtain ⟨hs, hi⟩ := h.active t i slab ha
      refine ⟨mem_cons_of_mem _ hs, ?_⟩
      rw [hold slab hs]
      exact hi
    · refine ⟨mem_cons_self, ?_⟩
      rw [hhead]
      rfl

theorem Inv.frame (hb : b ∈ live) (m' : Bytes) (lo hi : ℕ) (hlo : b.address ≤ lo)
    (hhi : hi ≤ b.address + (s.header (slabFromPtr b.address)).slotSize)
    (hmemory : ∀ a, a < lo ∨ hi ≤ a → m' a = s.memory a) :
    (∀ slab ∈ slabs, loadHeader m' slab = s.header slab) ∧
      ∀ slab ∈ slabs, ∀ a ∈ free slab, loadPointer m' a = loadPointer s.memory a := by
  obtain ⟨hs', i, hin⟩ := h.slab_of_live hb
  have hrange := h.live_range hs' hin
  refine ⟨fun slab hs => loadHeader_congr fun a hle hlt => hmemory a ?_, fun slab hs a ha =>
    loadPointer_congr fun c hle hlt => hmemory c ?_⟩
  · by_cases hne : slab = slabFromPtr b.address
    · unfold kHeaderSize at hrange
      omega
    · have hapart := (h.ok slab hs).page.apart (h.ok _ hs').page hne
      have hpage : kPageSize = 65536 := rfl
      omega
  · have hapart := h.free_apart hs ha hb
    omega

theorem Inv.freed (hb : b ∈ live) {m : Bytes} (hpages : s'.pages = s.pages)
    (hactive : s'.active = s.active)
    (hm : m = storePointer s.memory b.address (s.header (slabFromPtr b.address)).freeList)
    (hmemory : s'.memory = storeFreeList m (slabFromPtr b.address) (some b.address)) :
    ∃ free', Inv src s' (live.erase b) slabs free' := by
  obtain ⟨hs, i, hin⟩ := h.slab_of_live hb
  obtain ⟨hpage, hheader, hchain⟩ := h.ok _ hs
  have hge := hheader.slotSize_ge
  have hrange := h.live_range hs hin
  have hfits := hpage.fits
  obtain ⟨hheaders, hlinks⟩ := h.frame hb m b.address (b.address + 8)
    (Nat.le_refl _) (by omega) fun a ha => by
      rw [hm]
      exact storePointer_of_outside ha
  generalize hslab : slabFromPtr b.address = slab at *
  have hfirst : Fits (some b.address) := by
    rintro x ⟨⟩
    unfold kWordRange kHeaderSize at *
    omega
  have hhead : s'.header slab = { s.header slab with freeList := some b.address } := by
    rw [State.header, hmemory, loadHeader_storeFreeList hfirst, hheaders slab hs]
  have hframe : ∀ a, a < slab ∨ slab + kHeaderSize ≤ a → s'.memory a = m a := fun a ha => by
    rw [hmemory]
    exact storeFreeList_of_outside ha
  have hlink : ∀ x ∈ slabs, ∀ a ∈ free x, loadPointer s'.memory a = loadPointer s.memory a := by
    intro x hx a ha
    rw [← hlinks x hx a ha]
    obtain ⟨hlow, hhigh⟩ := h.free_range hx ha
    refine loadPointer_congr fun c hle hlt => hframe c ?_
    by_cases hne : x = slab
    · subst hne
      omega
    · have hapart := (h.ok x hx).page.apart hpage hne
      have hsize : kHeaderSize ≤ kPageSize := by decide
      omega
  have hown : loadPointer s'.memory b.address = (s.header slab).freeList := by
    have hstored : loadPointer m b.address = (s.header slab).freeList := by
      rw [hm]
      exact loadPointer_storePointer (fits_freeList s slab)
    rw [← hstored]
    exact loadPointer_congr fun c hle hlt => hframe c (by omega)
  refine ⟨_, h.update (l := b.address :: free slab) hs hpages hactive (fun x hx hne => ?_)
    (by rw [hhead]) (by rw [hhead]) (by rw [hhead]) (Nat.le_of_eq (by rw [hhead]))
    (by rw [hhead]; exact hheader.bump) (fun x hx _ a ha => hlink x hx a ha) ⟨?_, ?_⟩
    (fun c hc => .inl (mem_of_mem_erase hc)) ?_ (fun x _ hne => ?_)⟩
  · rw [← hheaders x hx]
    refine loadHeader_congr fun a hle hlt => hframe a ?_
    have hapart := (h.ok x hx).page.apart hpage hne
    have hsize : kPageSize = 65536 := rfl
    omega
  · rw [hhead]
  · rw [hown]
    exact hchain.congr (hlink slab hs)
  · rw [SlabHeader.carved_congr (by rw [hhead]) (by rw [hhead])]
    refine List.Perm.trans ?_ (h.share slab hs)
    have hperm := liveIn_erase hb slab
    rw [if_pos hslab] at hperm
    exact (perm_middle.symm).trans (hperm.symm.append_left _)
  · have hperm := liveIn_erase hb x
    rw [if_neg (by rw [hslab]; exact Ne.symm hne)] at hperm
    exact hperm.symm

theorem Inv.within {b : Block} (hb : b ∈ live) {m : Bytes}
    (hm : ∀ a, a < b.address ∨ b.address + (s.header (slabFromPtr b.address)).slotSize ≤ a →
      m a = s.memory a) : Inv src (s.setMemory m) live slabs free := by
  obtain ⟨hheaders, hlinks⟩ := h.frame hb m b.address _ (Nat.le_refl _) (Nat.le_refl _) hm
  have hheader : ∀ slab ∈ slabs, (s.setMemory m).header slab = s.header slab := hheaders
  refine ⟨h.handed, fun slab hs => ?_, fun c hc => ?_, fun slab hs => ?_, fun t i slab ha => ?_⟩
  · obtain ⟨hpage, hw, hchain⟩ := h.ok slab hs
    refine ⟨hpage, ?_, ?_⟩
    · rw [hheader slab hs]
      exact hw
    · rw [hheader slab hs]
      exact hchain.congr (hlinks slab hs)
  · obtain ⟨slab, hs, j, hjn⟩ := h.inSlot c hc
    refine ⟨slab, hs, j, ?_, ?_, ?_, ?_⟩
    · rw [hheader slab hs]
      exact hjn.lt
    · rw [hheader slab hs]
      exact hjn.address
    · rw [hheader slab hs]
      exact hjn.size
    · rw [hheader slab hs]
      exact hjn.index
  · rw [hheader slab hs]
    exact h.share slab hs
  · obtain ⟨hs, hi⟩ := h.active t i slab ha
    refine ⟨hs, ?_⟩
    rw [hheader slab hs]
    exact hi

theorem Inv.write (hb : b ∈ live) {a : ℕ} {v : UInt8} (hlow : b.address ≤ a)
    (hhigh : a < b.address + b.size) :
    Inv src (s.setMemory (Function.update s.memory a v)) live slabs free := by
  obtain ⟨-, i, hin⟩ := h.slab_of_live hb
  have hsize := hin.size
  exact h.within hb fun c hc => Function.update_of_ne (by omega) _ _

end

end Steps

end Equilibrium.BucketAllocator
