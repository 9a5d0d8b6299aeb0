import Equilibrium.Memory.MemoryRouterAligned
import Mathlib.Algebra.BigOperators.Group.Finset.Piecewise

/-! Memory tracking: the categories of `base/allocator/memory_stat_tracker.h` and `.cc`, and what
`MCInstance` of `base/allocator/memory_coordinator.h` counts for them over the memory router. -/

namespace Equilibrium.MemoryCoordinator

open Library.ByteMemory Library.Interleaving BucketAllocator MemoryRouter Option
open BucketAllocator.State (header)
open Function (update)
open MemoryRouter (AddressSpace Held Owned OnlyBucket Fails expandedSize)
open BucketAllocator (slabFromPtr)

def kTrackingLimit : ℕ := 255

def kGeneralMemory : ℕ := 254

def kInvalidCategory : ℕ := kTrackingLimit

structure MemoryTracker where
  tokenBucket : ℕ → ℕ
  nameBucket : ℕ → Option String
  memorySizes : ℕ → ℕ

namespace MemoryTracker

/-- `TrackOperation`; a size below zero is given modulo `2 ^ 64`. -/
def trackOperation (m : MemoryTracker) (category size : ℕ) : Option MemoryTracker :=
  if category < kTrackingLimit then
    some { m with
      memorySizes := update m.memorySizes category
        ((m.memorySizes category + size) % kWordRange) }
  else none

def wipeStats (m : MemoryTracker) : MemoryTracker where
  tokenBucket i :=
    if i = kGeneralMemory then kGeneralMemory
    else if i < kTrackingLimit then kInvalidCategory else m.tokenBucket i
  nameBucket i :=
    if i = kGeneralMemory then some "<general>"
    else if i < kTrackingLimit then none else m.nameBucket i
  memorySizes i := if i < kTrackingLimit then 0 else m.memorySizes i

def findFreeTokenIndex (m : MemoryTracker) : ℕ × MemoryTracker :=
  match (List.range kGeneralMemory).find? fun i => m.tokenBucket i = kInvalidCategory with
  | some i => (i, { m with tokenBucket := update m.tokenBucket i i })
  | none => (kInvalidCategory, m)

/-- `AddMemoryCategory`, whose first call wipes the tracker; it goes on behind a failed check. -/
def addMemoryCategory (m : MemoryTracker) (inited : Bool) (name : String) : ℕ × MemoryTracker :=
  let m := if inited then m else m.wipeStats
  let (index, m) := m.findFreeTokenIndex
  if index < kInvalidCategory then
    (index, { m with nameBucket := update m.nameBucket index (some name) })
  else (index, m)

def tracked (m : MemoryTracker) : ℕ := ∑ i ∈ Finset.range kTrackingLimit, m.memorySizes i

end MemoryTracker

/-- The router and the tracker, with its flag and the category of each thread. -/
structure State (Thread P : Type) where
  router : MemoryRouter.State Thread P
  tracker : MemoryTracker
  categoriesInited : Bool
  currentToken : Thread → ℕ

/-- `-pointer_diff(n)`. -/
def negate (n : ℕ) : ℕ := (kWordRange - n % kWordRange) % kWordRange

section MCInstance

variable {Thread P : Type}

def State.track (s : State Thread P) (t : Thread) (size : ℕ)
    (router : MemoryRouter.State Thread P) : Option (State Thread P) :=
  (s.tracker.trackOperation (s.currentToken t) size).map fun m =>
    { s with router := router, tracker := m }

variable [DecidableEq Thread] (src : AddressSpace P) (turns : ℕ) (t : Thread)

def allocate (size : ℕ) (s : State Thread P) : Option (Option ℕ × State Thread P) :=
  (MemoryRouter.allocate src turns t size s.router).bind fun (block, router) =>
    (s.track t (size % kWordRange) router).map fun s => (block, s)

/-- The pointer of the `MemoryBlock`, which also has `size`, even if the pointer is null. -/
def allocateAligned (size alignment : ℕ) (s : State Thread P) :
    Option (Option ℕ × State Thread P) :=
  (MemoryRouter.allocateAligned src turns t size alignment s.router).bind fun (block, router) =>
    (s.track t (size % kWordRange) router).map fun s => (block, s)

def reAllocate (former newSize : ℕ) (s : State Thread P) : Option (Option ℕ × State Thread P) :=
  (MemoryRouter.reAllocate src turns t former newSize s.router).bind
    fun (block, diffOut, router) => (s.track t diffOut router).map fun s => (block, s)

def reAllocateAligned (former : Block) (newSize alignment : ℕ) (s : State Thread P) :
    Option (Option ℕ × State Thread P) :=
  (MemoryRouter.reAllocateAligned src turns t former.address former.size newSize alignment
    s.router).bind fun (block, router) =>
      (s.track t ((newSize + negate former.size) % kWordRange) router).map fun s => (block, s)

def free (address : ℕ) (s : State Thread P) : Option (State Thread P) :=
  (MemoryRouter.free src turns address s.router).bind fun (amountFreed, router) =>
    s.track t (negate amountFreed) router

def deallocate (block : Block) (s : State Thread P) : Option (Bool × State Thread P) :=
  (MemoryRouter.deallocate src turns block.address s.router).bind fun (successful, router) =>
    (s.track t (negate block.size) router).map fun s => (successful, s)

end MCInstance

/-- The blocks held with the sizes asked for, the categories that `AddMemoryCategory` returned,
and the former category that each scope of a thread keeps. -/
structure Run (Thread P : Type) extends State Thread P where
  live : List Held
  returned : List ℕ
  scopes : Thread → List ℕ

inductive Act (Thread : Type) where
  | allocate (t : Thread) (size : ℕ)
  | allocateAligned (t : Thread) (size alignment : ℕ)
  | reAllocate (t : Thread) (h : Held) (newSize : ℕ)
  | reAllocateAligned (t : Thread) (h : Held) (newSize alignment : ℕ)
  | free (t : Thread) (h : Held)
  | deallocate (t : Thread) (h : Held)
  | addMemoryCategory (name : String)
  | enterScope (t : Thread) (token : ℕ)
  | leaveScope (t : Thread) (i : ℕ)
  | write (a : ℕ) (v : UInt8)

section Machine

variable {Thread P : Type}

def Run.routed (s : Run Thread P) : MemoryRouter.Run Thread P := ⟨s.router, s.live⟩

def Run.after (s : Run Thread P) (c : State Thread P) (live : List Held) : Run Thread P :=
  { s with toState := c, live := live }

def start (m : Bytes) (p : P) (heap : HeapAllocator.Object) : Run Thread P where
  router := (MemoryRouter.start m p heap).router
  tracker := ⟨fun _ => 0, fun _ => none, fun _ => 0⟩
  categoriesInited := false
  currentToken := fun _ => kGeneralMemory
  live := []
  returned := []
  scopes := fun _ => []

variable [DecidableEq Thread] (src : AddressSpace P) (turns : ℕ)

def step (s : Run Thread P) : Act Thread → Option (Run Thread P)
  | .allocate t size =>
    (allocate src turns t size s.toState).map fun (r, c) =>
      s.after c (s.routed.take c.router (r.map (Held.plain size))).live
  | .allocateAligned t size alignment =>
    (allocateAligned src turns t size alignment s.toState).map fun (r, c) =>
      s.after c (s.routed.take c.router (r.map (Held.aligned c.router.memory size alignment))).live
  | .reAllocate t h newSize =>
    if h ∈ s.live then
      (reAllocate src turns t h.block.address newSize s.toState).map fun (r, c) =>
        s.after c (s.routed.resize src.base h newSize r c.router).live
    else none
  | .reAllocateAligned t h newSize alignment =>
    if h ∈ s.live then
      (reAllocateAligned src turns t h.block newSize alignment s.toState).map fun (r, c) =>
        s.after c (s.routed.resizeAligned h newSize alignment r c.router).live
    else none
  | .free t h =>
    if h ∈ s.live then
      (free src turns t h.block.address s.toState).map fun c => s.after c (s.live.erase h)
    else none
  | .deallocate t h =>
    if h ∈ s.live then
      (deallocate src turns t h.block s.toState).map fun (_, c) => s.after c (s.live.erase h)
    else none
  | .addMemoryCategory name =>
    let (index, m) := s.tracker.addMemoryCategory s.categoriesInited name
    some { s with tracker := m, categoriesInited := true, returned := s.returned ++ [index] }
  | .enterScope t token =>
    if token ∈ s.returned then
      some { s with
        currentToken := update s.currentToken t token
        scopes := update s.scopes t (s.currentToken t :: s.scopes t) }
    else none
  | .leaveScope t i =>
    (s.scopes t)[i]?.map fun prev =>
      { s with
        currentToken := update s.currentToken t prev
        scopes := update s.scopes t ((s.scopes t).eraseIdx i) }
  | .write a v =>
    (MemoryRouter.step src turns s.routed (.write a v)).map fun r =>
      { s with router := r.router }

def machine (m : Bytes) (p : P) (heap : HeapAllocator.Object) :
    Machine (Run Thread P) (Act Thread) where
  init := start m p heap
  step := step src turns

end Machine

section Specification

variable {Thread P : Type} [DecidableEq Thread] (src : AddressSpace P)

def requested : List Held → ℕ
  | [] => 0
  | h :: live => h.block.size + requested live

/-- The tracked sizes add up to the sizes asked for, and the categories are in the arrays. -/
structure Balances (s : Run Thread P) : Prop where
  sizes : s.tracker.tracked % kWordRange = requested s.live % kWordRange
  category : ∀ t, s.currentToken t < kTrackingLimit

/-- The size asked for is the one that the header of the block's slab has for its slots. -/
structure Fills (s : MemoryRouter.State Thread P) (b : Block) : Prop where
  pos : 0 < slabFromPtr b.address
  behind : slabFromPtr b.address + BucketAllocator.kHeaderSize ≤ b.address
  size : (s.bucket.header (slabFromPtr b.address)).slotSize = b.size

/-- A request is granted, a block that goes back by its slot has the size of the slot, and the
first category is added while nothing is held. -/
def Act.Balanced (s : Run Thread P) : Act Thread → Prop
  | .allocate t size => size = 0 ∨ ¬ Fails src t size s.router
  | .allocateAligned t size alignment =>
    size = 0 ∨ ¬ Fails src t (expandedSize size alignment) s.router
  | .reAllocate t h newSize => Fills s.router h.block ∧
      (newSize ≤ h.block.size ∨ ¬ Fails src t newSize s.router)
  | .reAllocateAligned t h newSize alignment =>
    newSize = h.block.size ∨ ¬ Fails src t (expandedSize newSize alignment) s.router
  | .free _ h => Fills s.router h.block ∧ Owned src.base h.block.address s.router.mapping
  | .deallocate _ _ => True
  | .addMemoryCategory _ => s.categoriesInited ∨ requested s.live % kWordRange = 0
  | .enterScope _ token => token ≠ kInvalidCategory
  | .leaveScope _ _ => True
  | .write _ _ => True

end Specification

section Tracker

variable {m m' : MemoryTracker} {category size : ℕ}

namespace MemoryTracker

theorem trackOperation_eq (h : m.trackOperation category size = some m') :
    m'.tracked % kWordRange = (m.tracked + size) % kWordRange := by
  obtain ⟨hlt, h⟩ := ite_none_right_eq_some.mp h
  cases h
  have hmem : category ∈ Finset.range kTrackingLimit := Finset.mem_range.mpr hlt
  have hbefore := Finset.sum_eq_add_sum_sdiff_singleton_of_mem hmem m.memorySizes
  have hafter := Finset.sum_update_of_mem hmem m.memorySizes
    ((m.memorySizes category + size) % kWordRange)
  rw [tracked, tracked, hbefore, hafter]
  unfold kWordRange
  omega

theorem tracked_wipeStats (m : MemoryTracker) : m.wipeStats.tracked = 0 :=
  Finset.sum_eq_zero fun _ hi => if_pos (Finset.mem_range.mp hi)

theorem findFreeTokenIndex_eq (m : MemoryTracker) : m.findFreeTokenIndex.1 ≤ kInvalidCategory ∧
      m.findFreeTokenIndex.2.memorySizes = m.memorySizes := by
  rw [findFreeTokenIndex]
  split
  case h_1 i hi =>
    have hlt := List.mem_range.mp (List.mem_of_find?_eq_some hi)
    unfold kGeneralMemory at hlt
    exact ⟨by show i ≤ 255; omega, rfl⟩
  case h_2 => exact ⟨le_rfl, rfl⟩

theorem addMemoryCategory_eq (m : MemoryTracker) (inited : Bool) (name : String) :
    (m.addMemoryCategory inited name).1 ≤ kInvalidCategory ∧
      (m.addMemoryCategory inited name).2.tracked = if inited then m.tracked else 0 := by
  have hwiped : (if inited then m else m.wipeStats).tracked = if inited then m.tracked else 0 := by
    cases inited with
    | false => exact m.tracked_wipeStats
    | true => rfl
  rw [← hwiped, addMemoryCategory]
  generalize (if inited then m else m.wipeStats) = wiped
  obtain ⟨hindex, hsizes⟩ := wiped.findFreeTokenIndex_eq
  rw [tracked, tracked, ← hsizes]
  dsimp only
  split <;> exact ⟨hindex, rfl⟩

end MemoryTracker

end Tracker

section Router

variable {Thread P : Type} [DecidableEq Thread] {src : AddressSpace P} {turns : ℕ} {t : Thread}
  {s s' : MemoryRouter.State Thread P} {size alignment newSize d n : ℕ} {r : Option ℕ} {b : Block}

section

variable (h : OnlyBucket s.mapping)
include h

theorem onlyBucket_allocate (hcall : MemoryRouter.allocate src turns t size s = some (r, s')) :
    OnlyBucket s'.mapping := by
  obtain ⟨b, table, -, hmark, rfl⟩ := allocate_eq hcall
  exact h.mark hmark

theorem onlyBucket_allocateAligned
    (hcall : MemoryRouter.allocateAligned src turns t size alignment s = some (r, s')) :
    OnlyBucket s'.mapping := by
  obtain ⟨-, hnone⟩ | ⟨raw, s₁, hraw, -, -, rfl⟩ := allocateAligned_eq hcall
  · exact onlyBucket_allocate h hnone
  · have hnew : OnlyBucket s₁.mapping := onlyBucket_allocate h hraw
    exact hnew

theorem onlyBucket_reAllocateAligned
    (hcall : MemoryRouter.reAllocateAligned src turns t b.address b.size newSize alignment s =
      some (r, s')) : OnlyBucket s'.mapping := by
  obtain ⟨-, hnone⟩ | ⟨block, s₁, n, ha, -, -, -, -, hfree⟩ :=
    reAllocateAligned_eq hcall
  · exact onlyBucket_allocateAligned h hnone
  · generalize copy s₁.memory block b.address (min b.size newSize) = m at hfree
    have hold : OnlyBucket s₁.mapping := onlyBucket_allocateAligned h ha
    have hnew : OnlyBucket (s₁.setMemory m).mapping := hold
    rw [(free_frame hnew hfree).2]
    exact hnew

end

theorem fails_of_allocateAligned
    (hcall : MemoryRouter.allocateAligned src turns t size alignment s = some (none, s')) :
    Fails src t (expandedSize size alignment) s := by
  obtain ⟨-, hnone⟩ | ⟨raw, s₁, -, hsome, -⟩ := allocateAligned_eq hcall
  · exact fails_of_none hnone
  · cases hsome

omit [DecidableEq Thread] in
/-- The slot size that `Free` returns is the one before the slot went back. -/
theorem Fills.freed (h : Fills s b) (howned : Owned src.base b.address s.mapping)
    (hcall : MemoryRouter.free src turns b.address s = some (n, s')) : n = b.size := by
  rw [MemoryRouter.free, show findOwningAllocator src.base b.address s.mapping = _
    from howned] at hcall
  obtain ⟨⟨k, c⟩, hfree, heq⟩ := map_eq_some_iff.mp hcall
  cases heq
  obtain ⟨-, -, rfl, rfl⟩ := free_eq hfree
  have hbehind := h.behind
  have hheader : kHeaderSize = 64 := rfl
  rw [← h.size, header, header,
    loadHeader, loadHeader]
  refine load_congr fun x hx hx' => ?_
  refine (storePointer_of_outside (by omega)).trans ?_
  exact storePointer_of_outside (by omega)

theorem Fills.reAllocate (h : Fills s b) (hbucket : OnlyBucket s.mapping)
    (hgrant : newSize ≤ b.size ∨ ¬ Fails src t newSize s)
    (hcall : MemoryRouter.reAllocate src turns t b.address newSize s = some (r, d, s')) :
    (d + b.size) % kWordRange = newSize % kWordRange ∧ OnlyBucket s'.mapping ∧
      (newSize ≠ 0 → r ≠ none) := by
  obtain ⟨-, n, c, hquery, rfl, hmoved, rfl⟩ := reAllocate_eq hbucket hcall
  have hsize : n = b.size := by
    rw [queryAllocationSize, if_neg (Nat.ne_of_gt h.pos)] at hquery
    split at hquery
    case isFalse => cases hquery
    case isTrue => exact (Option.some.inj hquery).symm.trans h.size
  have hword : b.size < 256 ^ 4 := by
    rw [← h.size, header, loadHeader]
    exact load_lt _ _ _
  refine ⟨?_, hbucket, fun hpos hnone => ?_⟩
  · unfold kWordRange
    omega
  · subst hnone
    cases reAllocate_cases hmoved with
    | zero hzero => exact hpos hzero
    | fails c hlt hallocate =>
      rw [h.size] at hlt
      obtain ⟨-, hallocates⟩ := allocates_of_allocate hallocate
      cases hallocates with
      | fails hfull hpage =>
        exact hgrant.elim (fun hle => by omega) fun hnot => hnot ⟨hfull, hpage⟩

end Router

section Requests

variable {live : List Held} {h : Held} {size newSize : ℕ} {r : Option ℕ}

theorem requested_concat (live : List Held) (h : Held) :
    requested (live ++ [h]) = requested live + h.block.size := by
  induction live with
  | nil => exact Nat.add_comm h.block.size 0
  | cons x live ih =>
    rw [List.cons_append, requested, requested, ih]
    omega

theorem requested_erase (hh : h ∈ live) :
    h.block.size + requested (live.erase h) = requested live := by
  induction live with
  | nil => cases hh
  | cons x live ih =>
    by_cases hx : x = h
    · rw [hx, List.erase_cons_head, requested]
    · have hrest := ih (List.mem_of_ne_of_mem (Ne.symm hx) hh)
      rw [List.erase_cons_tail (by simpa using hx), requested, requested]
      omega

theorem requested_take {held : ℕ → Held} (hsize : ∀ a, (held a).block.size = size)
    (hnone : r = none → size = 0) :
    requested (live ++ (r.map held).toList) = requested live + size := by
  cases r with
  | none =>
    rw [hnone rfl]
    exact congrArg requested (List.append_nil live)
  | some a => exact (requested_concat live (held a)).trans (congrArg _ (hsize a))

theorem size_moved {base a : ℕ} {table : ℕ → ℕ} :
    (h.moved base table newSize a).block.size = newSize := by
  rw [Held.moved]
  split <;> rfl

variable {Thread P : Type} {s : MemoryRouter.Run Thread P} {router : MemoryRouter.State Thread P}

theorem requested_resize {base : ℕ} (hh : h ∈ s.live) (hr : newSize ≠ 0 → r ≠ none) :
    requested (s.resize base h newSize r router).live + h.block.size =
      requested s.live + newSize := by
  have herase := requested_erase hh
  unfold MemoryRouter.Run.resize
  by_cases hzero : newSize = 0
  · rw [if_pos hzero]
    show requested (s.live.erase h) + h.block.size = _
    omega
  · rw [if_neg hzero]
    cases r with
    | none => exact absurd rfl (hr hzero)
    | some a =>
      rw [requested_concat, size_moved]
      omega

theorem requested_resizeAligned {alignment : ℕ} (hh : h ∈ s.live)
    (hr : r = none → newSize = h.block.size) :
    requested (s.resizeAligned h newSize alignment r router).live + h.block.size =
      requested s.live + newSize := by
  cases r with
  | none =>
    rw [hr rfl]
    rfl
  | some a =>
    have herase := requested_erase hh
    show requested (s.live.erase h ++ [Held.aligned _ newSize alignment a]) + h.block.size = _
    rw [requested_concat]
    show requested (s.live.erase h) + newSize + h.block.size = _
    omega

end Requests

section Runs

variable {Thread P : Type} {src : AddressSpace P} {turns : ℕ}

/-- What holds between the calls. -/
structure Inv (s : Run Thread P) : Prop where
  table : OnlyBucket s.router.mapping
  balances : Balances s
  returned : ∀ c ∈ s.returned, c ≤ kInvalidCategory
  scopes : ∀ t, ∀ c ∈ s.scopes t, c < kTrackingLimit

variable [DecidableEq Thread] {s s' : Run Thread P} {t : Thread} {size n : ℕ} {live : List Held}

section

omit [DecidableEq Thread]

/-- A call that tracks as much as it adds to the sizes asked for. -/
theorem Inv.after (h : Inv s) {router : MemoryRouter.State Thread P} {c : State Thread P}
    (htrack : s.track t size router = some c) (htable : OnlyBucket router.mapping)
    (hlive : (requested s.live + size) % kWordRange = requested live % kWordRange) :
    Inv (s.after c live) := by
  obtain ⟨m, hm, rfl⟩ := map_eq_some_iff.mp htrack
  have htracked := MemoryTracker.trackOperation_eq hm
  have hsizes := h.balances.sizes
  refine ⟨htable, ⟨?_, h.balances.category⟩, h.returned, h.scopes⟩
  show m.tracked % kWordRange = requested live % kWordRange
  rw [htracked, ← hlive]
  unfold kWordRange at *
  omega

theorem Inv.after_erase (h : Inv s) {router : MemoryRouter.State Thread P} {c : State Thread P}
    {x : Held} (hx : x ∈ s.live) (htrack : s.track t (negate x.block.size) router = some c)
    (htable : OnlyBucket router.mapping) : Inv (s.after c (s.live.erase x)) := by
  refine h.after htrack htable ?_
  have herase := requested_erase hx
  unfold negate kWordRange
  omega

end

theorem Inv.switch (h : Inv s) {token : ℕ} {scopes : List ℕ} (htoken : token < kTrackingLimit)
    (hscopes : ∀ c ∈ scopes, c < kTrackingLimit) : Inv { s with
      currentToken := update s.currentToken t token
      scopes := update s.scopes t scopes } := by
  have hcategory : ∀ t', update s.currentToken t token t' < kTrackingLimit :=
    (Function.forall_update_iff s.currentToken fun _ c => c < kTrackingLimit).mpr
      ⟨htoken, fun t' _ => h.balances.category t'⟩
  have hkept : ∀ t', ∀ c ∈ update s.scopes t scopes t', c < kTrackingLimit :=
    (Function.forall_update_iff s.scopes fun _ l => ∀ c ∈ l, c < kTrackingLimit).mpr
      ⟨hscopes, fun t' _ => h.scopes t'⟩
  exact ⟨h.table, ⟨h.balances.sizes, hcategory⟩, h.returned, hkept⟩

theorem Inv.step (h : Inv s) {a : Act Thread} (hok : a.Balanced src s)
    (hs : MemoryCoordinator.step src turns s a = some s') : Inv s' := by
  cases a with
  | allocate t size =>
    obtain ⟨⟨r, c⟩, hcall, rfl⟩ := map_eq_some_iff.mp hs
    obtain ⟨⟨r, router⟩, hrouter, hrest⟩ := bind_eq_some_iff.mp hcall
    obtain ⟨c, htrack, heq⟩ := map_eq_some_iff.mp hrest
    cases heq
    refine h.after htrack (onlyBucket_allocate h.table hrouter) ?_
    have hlive : requested (s.live ++ (r.map (Held.plain size)).toList) = requested s.live + size :=
      requested_take (fun _ => rfl) fun hnone => hok.resolve_right fun hgrant =>
        hgrant (fails_of_none (hnone ▸ hrouter))
    show _ = requested (s.live ++ (r.map (Held.plain size)).toList) % kWordRange
    rw [hlive, Nat.add_mod_mod]
  | allocateAligned t size alignment =>
    obtain ⟨⟨r, c⟩, hcall, rfl⟩ := map_eq_some_iff.mp hs
    obtain ⟨⟨r, router⟩, hrouter, hrest⟩ := bind_eq_some_iff.mp hcall
    obtain ⟨c, htrack, heq⟩ := map_eq_some_iff.mp hrest
    cases heq
    refine h.after htrack (onlyBucket_allocateAligned h.table hrouter) ?_
    have hlive : requested (s.live ++
        (r.map (Held.aligned c.router.memory size alignment)).toList) = requested s.live + size :=
      requested_take (fun _ => rfl) fun hnone => hok.resolve_right fun hgrant =>
        hgrant (fails_of_allocateAligned (hnone ▸ hrouter))
    show _ = requested (s.live ++ (r.map (Held.aligned c.router.memory size alignment)).toList) %
      kWordRange
    rw [hlive, Nat.add_mod_mod]
  | reAllocate t x newSize =>
    obtain ⟨hx, hs⟩ := ite_none_right_eq_some.mp hs
    obtain ⟨⟨r, c⟩, hcall, rfl⟩ := map_eq_some_iff.mp hs
    obtain ⟨⟨r, d, router⟩, hrouter, hrest⟩ := bind_eq_some_iff.mp hcall
    obtain ⟨c, htrack, heq⟩ := map_eq_some_iff.mp hrest
    cases heq
    obtain ⟨hfills, hgrant⟩ := hok
    obtain ⟨hdiff, htable, hnone⟩ := hfills.reAllocate h.table hgrant hrouter
    refine h.after htrack htable ?_
    have hlive : requested (s.routed.resize src.base x newSize r c.router).live +
        x.block.size = requested s.live + newSize := requested_resize hx hnone
    unfold kWordRange at *
    omega
  | reAllocateAligned t x newSize alignment =>
    obtain ⟨hx, hs⟩ := ite_none_right_eq_some.mp hs
    obtain ⟨⟨r, c⟩, hcall, rfl⟩ := map_eq_some_iff.mp hs
    obtain ⟨⟨r, router⟩, hrouter, hrest⟩ := bind_eq_some_iff.mp hcall
    obtain ⟨c, htrack, heq⟩ := map_eq_some_iff.mp hrest
    cases heq
    refine h.after htrack (onlyBucket_reAllocateAligned h.table hrouter) ?_
    have hnone : r = none → newSize = x.block.size := by
      rintro rfl
      obtain ⟨-, hfailed⟩ | ⟨block, s₁, n, -, hsome, -⟩ :=
        reAllocateAligned_eq hrouter
      · exact hok.resolve_right fun hgrant => hgrant (fails_of_allocateAligned hfailed)
      · cases hsome
    have hlive : requested (s.routed.resizeAligned x newSize alignment r c.router).live +
        x.block.size = requested s.live + newSize := requested_resizeAligned hx hnone
    unfold negate kWordRange at *
    omega
  | free t x =>
    obtain ⟨hx, hs⟩ := ite_none_right_eq_some.mp hs
    obtain ⟨c, hcall, rfl⟩ := map_eq_some_iff.mp hs
    obtain ⟨⟨n, router⟩, hrouter, htrack⟩ := bind_eq_some_iff.mp hcall
    obtain ⟨hfills, howned⟩ := hok
    rw [hfills.freed howned hrouter] at htrack
    exact h.after_erase hx htrack ((free_frame h.table hrouter).2 ▸ h.table)
  | deallocate t x =>
    obtain ⟨hx, hs⟩ := ite_none_right_eq_some.mp hs
    obtain ⟨⟨b, c⟩, hcall, rfl⟩ := map_eq_some_iff.mp hs
    obtain ⟨⟨b, router⟩, hrouter, hrest⟩ := bind_eq_some_iff.mp hcall
    obtain ⟨c, htrack, heq⟩ := map_eq_some_iff.mp hrest
    cases heq
    obtain ⟨⟨n, router⟩, hfree, heq⟩ := map_eq_some_iff.mp hrouter
    cases heq
    exact h.after_erase hx htrack ((free_frame h.table hfree).2 ▸ h.table)
  | addMemoryCategory name =>
    cases hs
    obtain ⟨hindex, htracked⟩ := s.tracker.addMemoryCategory_eq s.categoriesInited name
    refine ⟨h.table, ⟨?_, h.balances.category⟩, fun c hc => ?_, h.scopes⟩
    · show (s.tracker.addMemoryCategory s.categoriesInited name).2.tracked % kWordRange = _
      rw [htracked]
      cases hinited : s.categoriesInited with
      | false => exact (hok.resolve_left (by rw [hinited]; decide)).symm
      | true => exact h.balances.sizes
    · rcases List.mem_append.mp hc with hold | hnew
      · exact h.returned c hold
      · rw [List.mem_singleton.mp hnew]
        exact hindex
  | enterScope t token =>
    obtain ⟨hreturned, hs⟩ := ite_none_right_eq_some.mp hs
    cases hs
    have hle := h.returned token hreturned
    refine h.switch (Nat.lt_of_le_of_ne hle hok) fun c hc => ?_
    rcases List.mem_cons.mp hc with hnow | hold
    · exact hnow ▸ h.balances.category t
    · exact h.scopes t c hold
  | leaveScope t i =>
    obtain ⟨prev, hprev, rfl⟩ := map_eq_some_iff.mp hs
    exact h.switch (h.scopes t prev (List.mem_of_getElem? hprev)) fun c hc =>
      h.scopes t c (List.mem_of_mem_eraseIdx hc)
  | write a v =>
    obtain ⟨r, hr, rfl⟩ := map_eq_some_iff.mp hs
    obtain ⟨-, hr⟩ := ite_none_right_eq_some.mp hr
    cases hr
    exact ⟨h.table, ⟨h.balances.sizes, h.balances.category⟩, h.returned, h.scopes⟩

variable {m : Bytes} {p : P} {heap : HeapAllocator.Object}

omit [DecidableEq Thread] in
theorem inv_start (m : Bytes) (p : P) (heap : HeapAllocator.Object) :
    Inv (start m p heap : Run Thread P) := by
  have hcategory : kGeneralMemory < kTrackingLimit := by decide
  refine ⟨fun i => ?_, ⟨?_, fun _ => hcategory⟩, fun c hc => ?_, fun _ c hc => ?_⟩
  · by_cases hi : i = 0
    · exact .inr (if_pos hi)
    · exact .inl (if_neg hi)
  · exact congrArg (· % kWordRange) (Finset.sum_eq_zero fun _ _ => rfl)
  · cases hc
  · cases hc

instance (s : MemoryRouter.State Thread P) (b : Block) : Decidable (Fills s b) :=
  decidable_of_iff (0 < slabFromPtr b.address ∧
      slabFromPtr b.address + BucketAllocator.kHeaderSize ≤ b.address ∧
      (s.bucket.header (slabFromPtr b.address)).slotSize = b.size)
    ⟨fun h => ⟨h.1, h.2.1, h.2.2⟩, fun h => ⟨h.pos, h.behind, h.size⟩⟩

instance (base a : ℕ) (table : ℕ → ℕ) : Decidable (Owned base a table) :=
  inferInstanceAs (Decidable (_ = _))

instance (s : Run Thread P) (a : Act Thread) : Decidable (a.Balanced src s) :=
  match a with
  | .allocate .. | .allocateAligned .. | .reAllocateAligned .. | .addMemoryCategory _ =>
    inferInstanceAs (Decidable (_ ∨ _))
  | .reAllocate .. | .free .. => inferInstanceAs (Decidable (_ ∧ _))
  | .enterScope .. => inferInstanceAs (Decidable (_ ≠ _))
  | .deallocate .. | .leaveScope .. | .write .. => inferInstanceAs (Decidable True)

end Runs

def smallMachine : Machine (Run Bool (PageTable.Sound PageTable.smallLayout)) (Act Bool) :=
  machine MemoryRouter.smallSpace 0 (fun _ => 0) BucketAllocator.smallPages MemoryRouter.noBlocks

end Equilibrium.MemoryCoordinator
