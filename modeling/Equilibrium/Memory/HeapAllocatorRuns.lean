import Equilibrium.Memory.HeapAllocatorBlocks

/-! Runs of the allocator of large blocks. -/

namespace Equilibrium.HeapAllocator

open Library.ByteMemory Library.DoublyLinked List Option

/-- The allocator, the blocks that its users hold and the headers of those they freed, which
bound the walks of the free list. -/
structure Run (P : Type) where
  heap : State P
  live : List Block
  freed : List ℕ

inductive Act where
  | allocate (size : ℕ)
  | reAllocate (b : Block) (newSize : ℕ)
  | free (b : Block)
  | write (a : ℕ) (v : UInt8)

variable {P : Type}

def Run.take (s : Run P) (size : ℕ) (r : Option ℕ) (heap : State P) : Run P where
  heap := heap
  live := s.live ++ (r.map fun a => ⟨a, size⟩).toList
  freed := (r.map fun a => s.freed.erase (fromUserData a)).getD s.freed

/-- The block `b` is gone. -/
def Run.drop (s : Run P) (b : Block) (heap : State P) : Run P where
  heap := heap
  live := s.live.erase b
  freed := headerOf b :: s.freed

/-- A block `b` of another size, at the same address or moved. -/
def Run.resize (s : Run P) (b : Block) (newSize : ℕ) (r : Option ℕ) (heap : State P) : Run P :=
  match r with
  | none => if newSize = 0 then s.drop b heap else { s with heap := heap }
  | some a =>
    if a = b.address then { s with heap := heap, live := s.live.erase b ++ [⟨a, newSize⟩] }
    else (s.take newSize (some a) heap).drop b heap

def step (src : PageSource P) (s : Run P) : Act → Option (Run P)
  | .allocate size =>
    (allocate src s.freed.length size s.heap).map fun (r, heap) => s.take size r heap
  | .reAllocate b newSize =>
    if b ∈ s.live then
      (reAllocate src s.freed.length (some b.address) newSize s.heap).map fun (r, heap) =>
        s.resize b newSize r heap
    else none
  | .free b =>
    if b ∈ s.live then
      (free s.freed.length (some b.address) s.heap).map fun (_, heap) => s.drop b heap
    else none
  | .write a v =>
    if ∃ b ∈ s.live, b.address ≤ a ∧ a < b.address + b.size then
      some { s with heap := { s.heap with memory := Function.update s.heap.memory a v } }
    else none

/-- The allocator over pages `p` and memory `m`, with no arena yet. -/
def start (m : Bytes) (p : P) : Run P where
  heap :=
    { headers := fun _ => newBlock 0 0, freeList := none, arenaBase := 0, arenaCursor := 0,
      arenaEnd := 0, memory := m, pages := p }
  live := []
  freed := []

def machine (src : PageSource P) (m : Bytes) (p : P) :
    Library.Interleaving.Machine (Run P) Act where
  init := start m p
  step := step src

/-- The sums of a request stay in range: its page count, and the end of its block in the
arena and in a new arena, as far as they are computed. -/
structure NoWrap (src : PageSource P) (s : Run P) (size : ℕ) : Prop where
  pages : size + kHeaderSize + kPageSize - 1 < kWordRange
  sum : findBestFit s.heap.headers (allocBytes size) s.freed.length s.heap.freeList = some none →
    s.heap.arenaCursor + allocBytes size < kWordRange
  grown : findBestFit s.heap.headers (allocBytes size) s.freed.length s.heap.freeList = some none →
    s.heap.arenaEnd < s.heap.arenaCursor + allocBytes size →
    ∀ heap, growArena src s.heap = some heap → heap.arenaCursor + allocBytes size < kWordRange

def Ok (src : PageSource P) (s : Run P) : Act → Prop
  | .allocate size => size = 0 ∨ NoWrap src s size
  | .reAllocate b newSize => newSize = 0 ∨
      (newSize + kHeaderSize + kPageSize - 1 < kWordRange ∧
        (pagesRequired newSize ≤ (s.heap.headers (headerOf b)).pageCount ∨ NoWrap src s newSize))
  | .free _ => True
  | .write _ _ => True

instance (src : PageSource P) (s : Run P) (size : ℕ) : Decidable (NoWrap src s size) :=
  decidable_of_iff (size + kHeaderSize + kPageSize - 1 < kWordRange ∧
      (findBestFit s.heap.headers (allocBytes size) s.freed.length s.heap.freeList = some none →
        s.heap.arenaCursor + allocBytes size < kWordRange ∧
        (s.heap.arenaEnd < s.heap.arenaCursor + allocBytes size →
          (growArena src s.heap).all
            (fun heap => heap.arenaCursor + allocBytes size < kWordRange) = true))) <| by
    simp only [Option.all_eq_true, decide_eq_true_eq]
    constructor
    · rintro ⟨hpages, hsums⟩
      exact ⟨hpages, fun hnone => (hsums hnone).1, fun hnone => (hsums hnone).2⟩
    · rintro ⟨hpages, hsum, hgrown⟩
      exact ⟨hpages, fun hnone => ⟨hsum hnone, hgrown hnone⟩⟩

instance (src : PageSource P) (s : Run P) (a : Act) : Decidable (Ok src s a) := by
  cases a with
  | allocate size => exact inferInstanceAs (Decidable (_ ∨ _))
  | reAllocate b newSize => exact inferInstanceAs (Decidable (_ ∨ _))
  | free b => exact inferInstanceAs (Decidable True)
  | write a v => exact inferInstanceAs (Decidable True)

structure RunInv (src : PageSource P) (s : Run P) (free : List ℕ) : Prop where
  inv : Inv src s.heap s.live free
  freed : free.Perm s.freed

variable {src : PageSource P} {m : Bytes} {p : P} {s s' : Run P} {free : List ℕ}

theorem runInv_start (src : PageSource P) (m : Bytes) (p : P) : RunInv src (start m p) [] := by
  refine ⟨⟨?_, List.Pairwise.nil, ?_, .inl ⟨rfl, rfl, rfl⟩, ?_, rfl, List.Pairwise.nil, ?_⟩, .nil⟩
  · intro b hb
    cases hb
  · intro b hb
    cases hb
  · intro b hb
    cases hb
  · intro b hb
    cases hb

theorem Inv.setMemory {heap : State P} {live : List Block} (h : Inv src heap live free)
    (m : Bytes) : Inv src { heap with memory := m } live free := by
  refine ⟨h.inPages, h.apart, h.offArena, h.arena, fun b hb => ?_, h.freeList, h.sorted, h.flags⟩
  obtain ⟨haddress, huser, hfits, hinUse⟩ := h.user b hb
  exact ⟨haddress, huser, hfits, hinUse⟩

section

variable (h : RunInv src s free)
include h

theorem RunInv.bestFit (required : ℕ) :
    ∃ r, findBestFit s.heap.headers required s.freed.length s.heap.freeList = some r ∧
      ∀ x, r = some x → required ≤ (s.heap.headers x).totalSize ∧
        (∃ l m, free = l ++ x :: m) ∧ ∀ c ∈ free, required ≤ (s.heap.headers c).totalSize →
          (s.heap.headers x).totalSize ≤ (s.heap.headers c).totalSize := by
  refine ⟨_, findBestFit_eq h.inv.freeList (Nat.le_of_eq h.freed.length_eq), fun x hx => ?_⟩
  obtain ⟨hle, l, m, rfl, hsmaller⟩ := find?_eq_some_iff_append.mp hx
  refine ⟨by simpa using hle, ⟨l, m, rfl⟩, fun c hc hrequired => ?_⟩
  rcases mem_append.mp hc with hl | hm
  · have hnot := hsmaller c hl
    simp only [Bool.not_eq_true', decide_eq_false_iff_not] at hnot
    exact absurd hrequired hnot
  · rcases mem_cons.mp hm with rfl | hm
    · exact le_rfl
    · exact (pairwise_cons.mp (pairwise_append.mp h.inv.sorted).2.1).1 c hm

theorem RunInv.allocateArena {size : ℕ} (hok : NoWrap src s size)
    (hnone : findBestFit s.heap.headers (allocBytes size) s.freed.length s.heap.freeList =
      some none) {r : Option ℕ} {heap : State P} (ha : allocateArena src size s.heap = (r, heap)) :
    Inv src heap (s.live ++ (r.map fun a => ⟨a, size⟩).toList) free := by
  have hsum := hok.sum hnone
  rw [HeapAllocator.allocateArena] at ha
  split at ha
  case isTrue hfits =>
    cases ha
    exact h.inv.bumped hok.pages hsum hfits
  case isFalse hfits =>
    rw [fitsArena, Nat.mod_eq_of_lt hsum, decide_eq_true_eq] at hfits
    split at ha
    case h_1 => exact h.inv.direct hok.pages ha
    case h_2 heap' hgrow =>
      have hinv := h.inv.grown hgrow
      have hsum' := hok.grown hnone (Nat.lt_of_not_le hfits) heap' hgrow
      split at ha
      case isTrue hfits' =>
        cases ha
        exact hinv.bumped hok.pages hsum' hfits'
      case isFalse => exact hinv.direct hok.pages ha

/-- A call of `Allocate` returns. A block it reuses is a smallest one. -/
theorem RunInv.allocate {size : ℕ} (hok : size = 0 ∨ NoWrap src s size) :
    ∃ r heap, allocate src s.freed.length size s.heap = some (r, heap) ∧
      (∃ free', RunInv src (s.take size r heap) free') ∧
      ∀ x ∈ s.freed, r = some (userData x) → allocBytes size ≤ (s.heap.headers x).totalSize ∧
        ∀ c ∈ s.freed, allocBytes size ≤ (s.heap.headers c).totalSize →
          (s.heap.headers x).totalSize ≤ (s.heap.headers c).totalSize := by
  by_cases hzero : size = 0
  · refine ⟨none, s.heap, by rw [HeapAllocator.allocate, if_pos hzero], ⟨free, ?_, h.freed⟩,
      fun x _ hx => ?_⟩
    · simpa [Run.take] using h.inv
    · cases hx
  · have hok := hok.resolve_left hzero
    obtain ⟨best, hfind, hbest⟩ := h.bestFit (allocBytes size)
    cases best with
    | some x =>
      obtain ⟨hrequired, ⟨l, m, hfree⟩, hleast⟩ := hbest x rfl
      obtain ⟨-, hhold, hbytes, -⟩ := pagesRequired_spec hok.pages
      have hinv := h.inv.reused hfree (Nat.le_trans hhold (hbytes ▸ hrequired))
      have hx : x ∈ s.freed := h.freed.mem_iff.mp (by simp [hfree])
      refine ⟨some (userData x), (reuse x size s.heap).2, ?_, ⟨l ++ m, hinv, ?_⟩, fun y hy heq => ?_⟩
      · rw [HeapAllocator.allocate, if_neg hzero, hfind]
        rfl
      · have hperm := (hfree ▸ h.freed).symm.trans perm_middle
        have herase := hperm.erase x
        rw [erase_cons_head] at herase
        have hheader : fromUserData (userData x) = x := Nat.add_sub_cancel _ _
        simp only [Run.take, map_some, getD_some, hheader]
        exact herase.symm
      · have hxy : x = y := Nat.add_right_cancel (Option.some.inj heq)
        subst hxy
        exact ⟨hrequired, fun c hc => hleast c (h.freed.mem_iff.mpr hc)⟩
    | none =>
      cases harena : HeapAllocator.allocateArena src size s.heap with
      | mk r heap =>
        have hinv := h.allocateArena hok hfind harena
        have hnew : ∀ a, r = some a → fromUserData a ∉ s.freed := by
          rintro a rfl hmem
          exact hinv.new_notMem (Inv.free_mem (h.freed.mem_iff.mpr hmem))
        refine ⟨r, heap, ?_, ⟨free, hinv, ?_⟩, fun x hx heq => ?_⟩
        · rw [HeapAllocator.allocate, if_neg hzero, hfind]
          simp [harena]
        · cases r with
          | none => exact h.freed
          | some a =>
            simp only [Run.take, map_some, getD_some]
            rw [erase_of_not_mem (hnew a rfl)]
            exact h.freed
        · have hnot := hnew _ heq
          exact absurd hx hnot

theorem RunInv.release {b : Block} (hb : b ∈ s.live) {turns : ℕ} (hturns : s.freed.length ≤ turns) :
    ∃ heap, HeapAllocator.free turns (some b.address) s.heap =
      some ((s.heap.headers (headerOf b)).userSize, heap) ∧
      ∃ free', RunInv src (s.drop b heap) free' := by
  obtain ⟨heap, hinsert, hinv⟩ := h.inv.freed hb (h.freed.length_eq ▸ hturns)
  refine ⟨heap, ?_, _, hinv, ?_⟩
  · rw [HeapAllocator.free]
    change (freeListInsert turns (headerOf b) s.heap).map _ = _
    rw [hinsert]
    rfl
  · exact (perm_insertSorted _ _ _).trans (h.freed.cons _)

end

theorem setUserSize_size (block size c : ℕ) (heap : State P) :
    ((setUserSize block size heap).headers c).totalSize = (heap.headers c).totalSize ∧
      ((setUserSize block size heap).headers c).pageCount = (heap.headers c).pageCount := by
  by_cases hc : c = block
  · have hself : (setUserSize block size heap).headers block =
        { heap.headers block with userSize := size } := Function.update_self _ _ _
    rw [hc, hself]
    exact ⟨rfl, rfl⟩
  · have hother : (setUserSize block size heap).headers c = heap.headers c :=
      Function.update_of_ne hc _ _
    rw [hother]
    exact ⟨rfl, rfl⟩

theorem Inv.resized {heap : State P} {live : List Block} (h : Inv src heap live free) {b : Block}
    (hb : b ∈ live) {newSize : ℕ} (hsize : newSize + kHeaderSize + kPageSize - 1 < kWordRange)
    (hle : pagesRequired newSize ≤ (heap.headers (headerOf b)).pageCount) :
    Inv src (setUserSize (headerOf b) newSize heap) (live.erase b ++ [⟨b.address, newSize⟩])
      free := by
  obtain ⟨n, hn, htotal, hcount, hregion⟩ := h.inPages _ (Inv.header_mem hb)
  obtain ⟨-, hhold, -, -⟩ := pagesRequired_spec hsize
  have hmul : kPageSize * pagesRequired newSize ≤ kPageSize * n :=
    Nat.mul_le_mul_left _ (Nat.le_trans hle hcount)
  have hheader : headerOf ⟨b.address, newSize⟩ = headerOf b := rfl
  have hother : ∀ c, c ≠ headerOf b →
      (setUserSize (headerOf b) newSize heap).headers c = heap.headers c :=
    fun c hc => Function.update_of_ne hc _ _
  have hself : (setUserSize (headerOf b) newSize heap).headers (headerOf b) =
      { heap.headers (headerOf b) with userSize := newSize } := Function.update_self _ _ _
  have hfree : ∀ c ∈ free, (setUserSize (headerOf b) newSize heap).headers c = heap.headers c :=
    fun c hc => hother c (ne_of_mem_of_not_mem hc (h.header_notMem hb))
  have hperm : (blocks (live.erase b ++ [⟨b.address, newSize⟩]) free).Perm (blocks live free) := by
    unfold blocks
    rw [map_append, map_singleton, hheader]
    refine List.Perm.append_right _ ((perm_append_singleton _ _).trans ?_)
    exact ((perm_cons_erase hb).map headerOf).symm
  obtain ⟨hpages, hapart, hoff⟩ := h.place hperm
    (fun c _ => setUserSize_size _ _ c _) rfl rfl rfl
  refine ⟨hpages, hapart, hoff, h.arena, fun c hc => ?_, ?_, ?_, fun c hc => ?_⟩
  · rcases mem_append.mp hc with hold | hnew
    · obtain ⟨hne, hc⟩ := h.nodup_live.mem_erase_iff.mp hold
      obtain ⟨haddress, huser, hfits, hinUse⟩ := h.user c hc
      have hkeep := hother (headerOf c) fun heq => hne (h.header_inj hc hb heq)
      refine ⟨haddress, ?_, ?_, ?_⟩
      · rw [hkeep]
        exact huser
      · rw [hkeep]
        exact hfits
      · rw [hkeep]
        exact hinUse
    · obtain rfl := mem_singleton.mp hnew
      obtain ⟨haddress, -, -, hinUse⟩ := h.user b hb
      refine ⟨haddress, ?_, ?_, ?_⟩
      · rw [hheader, hself]
      · rw [hheader, hself]
        simp only [htotal]
        omega
      · rw [hheader, hself]
        exact hinUse
  · refine h.freeList.congr (fun c hc => ?_) fun c hc => ?_
    · rw [nextOf, hfree c hc, nextOf]
    · rw [prevOf, hfree c hc, prevOf]
  · refine h.sorted.imp_of_mem fun {c d} hc hd hcd => ?_
    rw [hfree c hc, hfree d hd]
    exact hcd
  · rw [hfree c hc]
    exact h.flags c hc

theorem RunInv.moved {b : Block} (hb : b ∈ s.live) {newSize a : ℕ} {heap : State P}
    (hinv : RunInv src (s.take newSize (some a) heap) free) (size : ℕ) :
    a ≠ b.address ∧ ∃ heap', moveBlock s.freed.length b.address size (some a) heap =
        some (some a, heap') ∧
      ∃ free', RunInv src ((s.take newSize (some a) heap).drop b heap') free' := by
  refine ⟨?_, ?_⟩
  · rintro rfl
    have hnodup := (nodup_append.mp hinv.inv.nodup).1
    simp only [Run.take, map_some, toList_some, map_append] at hnodup
    exact (nodup_append.mp hnodup).2.2 _ (mem_map_of_mem hb) _ (by simp [headerOf]) rfl
  · have hmoved : RunInv src ({ s.take newSize (some a) heap with
        heap := { heap with memory := copy heap.memory a b.address size } }) free :=
      ⟨hinv.inv.setMemory _, hinv.freed⟩
    have hlength : (s.take newSize (some a) heap).freed.length ≤ s.freed.length :=
      length_erase_le
    obtain ⟨heap', hfree, free', hrun⟩ := hmoved.release (b := b) (by simp [Run.take, hb]) hlength
    refine ⟨heap', ?_, free', hrun⟩
    simp only [moveBlock]
    rw [hfree]
    rfl

theorem RunInv.reAllocate (h : RunInv src s free) {b : Block} (hb : b ∈ s.live) {newSize : ℕ}
    (hok : Ok src s (.reAllocate b newSize)) :
    ∃ r heap, reAllocate src s.freed.length (some b.address) newSize s.heap = some (r, heap) ∧
      ∃ free', RunInv src (s.resize b newSize r heap) free' := by
  by_cases hzero : newSize = 0
  · obtain ⟨heap, hfree, hinv⟩ := h.release hb le_rfl
    refine ⟨none, heap, ?_, ?_⟩
    · rw [HeapAllocator.reAllocate, if_pos hzero, hfree]
      rfl
    · rw [Run.resize, if_pos hzero]
      exact hinv
  · obtain ⟨hsize, hcase⟩ := hok.resolve_left hzero
    by_cases hle : pagesRequired newSize ≤ (s.heap.headers (headerOf b)).pageCount
    · refine ⟨some b.address, setUserSize (headerOf b) newSize s.heap, ?_, free, ?_⟩
      · rw [HeapAllocator.reAllocate, if_neg hzero]
        exact if_pos hle
      · rw [Run.resize, if_pos rfl]
        exact ⟨h.inv.resized hb hsize hle, h.freed⟩
    · obtain ⟨r, heap, halloc, ⟨free', hinv⟩, -⟩ := h.allocate (.inr (hcase.resolve_left hle))
      have hcall : HeapAllocator.reAllocate src s.freed.length (some b.address) newSize s.heap =
          moveBlock s.freed.length b.address
            (min (s.heap.headers (headerOf b)).userSize newSize) r heap := by
        rw [HeapAllocator.reAllocate, if_neg hzero]
        simp only
        rw [halloc]
        exact if_neg hle
      cases r with
      | none =>
        refine ⟨none, heap, hcall, free', ?_⟩
        rw [Run.resize, if_neg hzero]
        have hlive := hinv.inv
        simp only [Run.take, map_none, toList_none, append_nil] at hlive
        exact ⟨hlive, hinv.freed⟩
      | some a =>
        obtain ⟨hne, heap', hmove, hrun⟩ := RunInv.moved hb hinv
          (min (s.heap.headers (headerOf b)).userSize newSize)
        refine ⟨some a, heap', hcall.trans hmove, ?_⟩
        simp only [Run.resize]
        rw [if_neg hne]
        exact hrun

theorem RunInv.step (h : RunInv src s free) {a : Act} (hok : Ok src s a)
    (hs : step src s a = some s') : ∃ free', RunInv src s' free' := by
  cases a with
  | allocate size =>
    obtain ⟨r, heap, hcall, hinv, -⟩ := h.allocate hok
    simp only [HeapAllocator.step, hcall, map_some, Option.some.injEq] at hs
    exact hs ▸ hinv
  | reAllocate b newSize =>
    obtain ⟨hb, hs⟩ := ite_none_right_eq_some.mp hs
    obtain ⟨r, heap, hcall, hinv⟩ := h.reAllocate hb hok
    simp only [hcall, map_some, Option.some.injEq] at hs
    exact hs ▸ hinv
  | free b =>
    obtain ⟨hb, hs⟩ := ite_none_right_eq_some.mp hs
    obtain ⟨heap, hcall, hinv⟩ := h.release hb le_rfl
    simp only [hcall, map_some, Option.some.injEq] at hs
    exact hs ▸ hinv
  | write a v =>
    obtain ⟨-, hs⟩ := ite_none_right_eq_some.mp hs
    cases hs
    exact ⟨free, h.inv.setMemory _, h.freed⟩

theorem execution_inv (e : Library.Interleaving.Execution (machine src m p))
    (hok : ∀ i a, e.act i = some a → Ok src (e.state i) a) (i : ℕ) :
    ∃ free, RunInv src (e.state i) free := by
  have hinit : ∃ free, RunInv src (machine src m p).init free := ⟨[], runInv_start src m p⟩
  have hstep : ∀ s a s', (∃ free, RunInv src s free) → Ok src s a →
      (machine src m p).step s a = some s' → ∃ free, RunInv src s' free :=
    fun s a s' ⟨free, h⟩ hok hs => h.step hok hs
  exact e.invariant hinit hstep hok i

/-- What holds of the blocks of the users and of the list `free` of freed blocks. -/
structure BlocksSound (src : PageSource P) (s : Run P) (free : List ℕ) : Prop where
  held : ∀ b ∈ s.live, b.address = userData (headerOf b) ∧
    kHeaderSize + b.size ≤ (s.heap.headers (headerOf b)).totalSize
  acquired : ∀ b ∈ blocks s.live free, ∃ n, (s.heap.headers b).totalSize = kPageSize * n ∧
    ∀ j < n, src.handed s.heap.pages (b + kPageSize * j)
  apart : (blocks s.live free).Pairwise (Apart s.heap)
  arena : s.heap.arenaBase ≤ s.heap.arenaCursor ∧ s.heap.arenaCursor ≤ s.heap.arenaEnd
  linked : Linked (nextOf s.heap.headers) (prevOf s.heap.headers) none s.heap.freeList free none
  ascending : free.Pairwise fun b c =>
    (s.heap.headers b).totalSize ≤ (s.heap.headers c).totalSize
  freed : free.Perm s.freed
  smallest : ∀ size, Ok src s (.allocate size) → ∃ r heap,
    allocate src s.freed.length size s.heap = some (r, heap) ∧
      ∀ x ∈ s.freed, r = some (userData x) → allocBytes size ≤ (s.heap.headers x).totalSize ∧
        ∀ c ∈ s.freed, allocBytes size ≤ (s.heap.headers c).totalSize →
          (s.heap.headers x).totalSize ≤ (s.heap.headers c).totalSize
  returns : ∀ b ∈ s.live, (HeapAllocator.free s.freed.length (some b.address) s.heap).isSome ∧
    ∀ newSize, Ok src s (.reAllocate b newSize) →
      (reAllocate src s.freed.length (some b.address) newSize s.heap).isSome

theorem RunInv.sound (h : RunInv src s free) : BlocksSound src s free := by
  refine ⟨fun b hb => ⟨(h.inv.user b hb).address, (h.inv.user b hb).fits⟩, fun b hb => ?_,
    h.inv.apart, ?_, h.inv.freeList, h.inv.sorted, h.freed, fun size hok => ?_, fun b hb => ?_⟩
  · obtain ⟨n, -, htotal, -, hregion⟩ := h.inv.inPages b hb
    exact ⟨n, htotal, hregion.handed⟩
  · rcases h.inv.arena with ⟨hbase, hcursor, hend⟩ | ⟨k, n, hk, -, hcursor, hend, -⟩
    · omega
    · have hmul : kPageSize * k ≤ kPageSize * n := Nat.mul_le_mul_left _ hk
      omega
  · obtain ⟨r, heap, hcall, -, hbest⟩ := h.allocate hok
    exact ⟨r, heap, hcall, hbest⟩
  · obtain ⟨heap, hcall, -⟩ := h.release hb le_rfl
    refine ⟨isSome_iff_exists.mpr ⟨_, hcall⟩, fun newSize hok => ?_⟩
    obtain ⟨r, heap', hcall', -⟩ := h.reAllocate hb hok
    exact isSome_iff_exists.mpr ⟨_, hcall'⟩

/-- In a run of calls whose sums do not wrap, blocks, free list and arena are as they should
be. -/
theorem blocks_sound (e : Library.Interleaving.Execution (machine src m p))
    (hok : ∀ i a, e.act i = some a → Ok src (e.state i) a) (i : ℕ) :
    ∃ free, BlocksSound src (e.state i) free := by
  obtain ⟨free, h⟩ := execution_inv e hok i
  exact ⟨free, h.sound⟩

theorem smallBase_pos : 0 < 2 ^ 20 := by decide

def smallSource : PageSource ℕ :=
  PageSource.inOrder (2 ^ 20) 512 smallBase_pos (by decide) (by decide)

/-- A freed block is reused. -/
theorem blocks_sound_small :
    ∃ e : Library.Interleaving.Execution (machine smallSource (fun _ => 0) 0),
      (e.state 3).live = [⟨2 ^ 20 + 48, 100000⟩] ∧
      ∃ free, BlocksSound smallSource (e.state 3) free := by
  have hrun : ((machine smallSource (fun _ => 0) 0).run (machine smallSource (fun _ => 0) 0).init
      [.allocate 70000, .free ⟨2 ^ 20 + 48, 70000⟩, .allocate 100000]).isSome := by
    decide +kernel
  have hlive : (Library.Interleaving.stateAt (machine smallSource (fun _ => 0) 0)
      (machine smallSource (fun _ => 0) 0).init
      [.allocate 70000, .free ⟨2 ^ 20 + 48, 70000⟩, .allocate 100000] 3).live =
      [⟨2 ^ 20 + 48, 100000⟩] := by
    decide +kernel
  exact ⟨.ofRun _ hrun, hlive,
    blocks_sound _ (Library.Interleaving.Execution.ofRun_guarded (by decide +kernel)) 3⟩

/-- The page count of a request of nearly 2^64 bytes wraps, and it gets a block of one page. -/
theorem huge_request_wraps : ∃ s : Run ℕ, (machine smallSource (fun _ => 0) 0).Reachable s ∧
    s.live = [⟨2 ^ 20 + 48, 2 ^ 64 - 1⟩] ∧ (s.heap.headers (2 ^ 20)).totalSize = 65536 := by
  have hrun : ((machine smallSource (fun _ => 0) 0).run (machine smallSource (fun _ => 0) 0).init
      [.allocate (2 ^ 64 - 1)]).any (fun s => s.live = [⟨2 ^ 20 + 48, 2 ^ 64 - 1⟩] ∧
        (s.heap.headers (2 ^ 20)).totalSize = 65536) = true := by
    decide +kernel
  obtain ⟨s, hs, hfacts⟩ := (any_eq_true _ _).mp hrun
  exact ⟨s, Library.Interleaving.Machine.Reachable.init.run hs, by simpa using hfacts⟩

end Equilibrium.HeapAllocator
