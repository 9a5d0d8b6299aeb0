import Equilibrium.Library.ByteMemory
import Equilibrium.Memory.PageTable
import Equilibrium.Library.DoublyLinked
import Mathlib.Data.List.Sort

/-! The allocator of large blocks of `base/allocator/eq_alloc/heap_allocator.h` and `.cc`. A
call runs under the lock and is one step. The headers are kept by the address of their block.
The walks of the free list take a bound on their turns and give `none` past it; a trap goes
on with the code behind it. -/

namespace Equilibrium.HeapAllocator

open Library.ByteMemory

def kMagic : ℕ := 0xEA110C8D

/-- `sizeof(BlockHeader)`. -/
def kHeaderSize : ℕ := 48

def kArenaChunkPages : ℕ := 256

inductive Flags where
  | free
  | inUse
  deriving DecidableEq

structure BlockHeader where
  magic : ℕ
  pageCount : ℕ
  totalSize : ℕ
  userSize : ℕ
  flags : Flags
  nextFree : Option ℕ
  prevFree : Option ℕ

/-- The members of the allocator and the headers it writes; a null pointer of the arena
is 0. -/
structure Object where
  headers : ℕ → BlockHeader
  freeList : Option ℕ
  arenaBase : ℕ
  arenaCursor : ℕ
  arenaEnd : ℕ

structure State (P : Type) extends Object where
  memory : Bytes
  pages : P

def userData (block : ℕ) : ℕ := block + kHeaderSize

def fromUserData (address : ℕ) : ℕ := address - kHeaderSize

def pagesRequired (userSize : ℕ) : ℕ :=
  (userSize + kHeaderSize + kPageSize - 1) % kWordRange / kPageSize

/-- `pages * page_size_` for the pages of a request. -/
def allocBytes (size : ℕ) : ℕ := pagesRequired size * kPageSize % kWordRange

section Headers

variable (h : ℕ → BlockHeader)

def setNext (block : ℕ) (next : Option ℕ) : ℕ → BlockHeader :=
  Function.update h block { h block with nextFree := next }

def setPrev (block : ℕ) (prev : Option ℕ) : ℕ → BlockHeader :=
  Function.update h block { h block with prevFree := prev }

/-- The search for the place of a block of `size` bytes from `curr` on. -/
def insertWalk (size : ℕ) : (turns : ℕ) → (prev curr : Option ℕ) → Option (Option ℕ × Option ℕ)
  | _, prev, none => some (prev, none)
  | 0, _, some _ => none
  | turns + 1, prev, some curr =>
    if (h curr).totalSize < size then insertWalk size turns (some curr) (h curr).nextFree
    else some (prev, some curr)

def findBestFit (required : ℕ) : (turns : ℕ) → (curr : Option ℕ) → Option (Option ℕ)
  | _, none => some none
  | 0, some _ => none
  | turns + 1, some curr =>
    if required ≤ (h curr).totalSize then some (some curr)
    else findBestFit required turns (h curr).nextFree

end Headers

variable {P : Type}

/-- The list continues at `v` behind the block `q`, or starts there. -/
def linkNext (s : State P) (q v : Option ℕ) : State P :=
  match q with
  | some block => { s with headers := setNext s.headers block v }
  | none => { s with freeList := v }

/-- The block `q`, if there is one, comes after `v`. -/
def linkPrev (s : State P) (q v : Option ℕ) : State P :=
  match q with
  | some block => { s with headers := setPrev s.headers block v }
  | none => s

def setLinks (block : ℕ) (next prev : Option ℕ) (s : State P) : State P :=
  { s with headers := setPrev (setNext s.headers block next) block prev }

def setFlags (block : ℕ) (flags : Flags) (s : State P) : State P :=
  { s with headers := Function.update s.headers block { s.headers block with flags := flags } }

def linkBetween (block : ℕ) (prev curr : Option ℕ) (s : State P) : State P :=
  linkPrev (linkNext (setLinks block curr prev s) prev (some block)) curr (some block)

def setUserSize (block size : ℕ) (s : State P) : State P :=
  { s with headers := Function.update s.headers block { s.headers block with userSize := size } }

def freeListInsert (turns block : ℕ) (s : State P) : Option (State P) :=
  let s := setLinks block none none (setFlags block .free s)
  match s.freeList with
  | none => some { s with freeList := some block }
  | some first =>
    (insertWalk s.headers (s.headers block).totalSize turns none (some first)).map
      fun (prev, curr) => linkBetween block prev curr s

def freeListRemove (block : ℕ) (s : State P) : State P :=
  let s := linkNext s (s.headers block).prevFree (s.headers block).nextFree
  let s := linkPrev s (s.headers block).nextFree (s.headers block).prevFree
  setLinks block none none s

def growArena (src : PageSource P) (s : State P) : Option (State P) :=
  (src.requestPages kArenaChunkPages s.pages).map fun (chunk, pages) =>
    { s with
      pages := pages
      arenaBase := chunk.address
      arenaCursor := chunk.address
      arenaEnd := (chunk.address + chunk.size) % kWordRange }

def newBlock (size totalSize : ℕ) : BlockHeader where
  magic := kMagic
  pageCount := pagesRequired size % 2 ^ 32
  totalSize := totalSize
  userSize := size
  flags := .inUse
  nextFree := none
  prevFree := none

def fitsArena (size : ℕ) (s : State P) : Bool :=
  (s.arenaCursor + allocBytes size) % kWordRange ≤ s.arenaEnd

def bump (size : ℕ) (s : State P) : Option ℕ × State P :=
  (some (userData s.arenaCursor), { s with
    headers := Function.update s.headers s.arenaCursor (newBlock size (allocBytes size))
    arenaCursor := (s.arenaCursor + allocBytes size) % kWordRange })

def allocateDirect (src : PageSource P) (size : ℕ) (s : State P) : Option ℕ × State P :=
  match src.requestPages (pagesRequired size) s.pages with
  | none => (none, s)
  | some (memory, pages) => (some (userData memory.address), { s with
      headers := Function.update s.headers memory.address (newBlock size memory.size)
      pages := pages })

def allocateArena (src : PageSource P) (size : ℕ) (s : State P) : Option ℕ × State P :=
  if fitsArena size s then bump size s
  else
    match growArena src s with
    | none => allocateDirect src size s
    | some s => if fitsArena size s then bump size s else allocateDirect src size s

def reuse (block size : ℕ) (s : State P) : Option ℕ × State P :=
  let s := freeListRemove block s
  let header := { s.headers block with flags := .inUse, userSize := size }
  (some (userData block), { s with headers := Function.update s.headers block header })

def allocate (src : PageSource P) (turns size : ℕ) (s : State P) :
    Option (Option ℕ × State P) :=
  if size = 0 then some (none, s)
  else (findBestFit s.headers (allocBytes size) turns s.freeList).map fun
    | some block => reuse block size s
    | none => allocateArena src size s

def free (turns : ℕ) (block : Option ℕ) (s : State P) : Option (ℕ × State P) :=
  match block with
  | none => some (0, s)
  | some block =>
    (freeListInsert turns (fromUserData block) s).map fun s' =>
      ((s.headers (fromUserData block)).userSize, s')

def queryAllocationSize (block : Option ℕ) (s : State P) : ℕ :=
  match block with
  | none => 0
  | some block => (s.headers (fromUserData block)).userSize

/-- The end of `ReAllocate`, when a new block was asked for. -/
def moveBlock (turns former size : ℕ) (r : Option ℕ) (s : State P) :
    Option (Option ℕ × State P) :=
  match r with
  | none => some (none, s)
  | some block =>
    let s := { s with memory := copy s.memory block former size }
    (free turns (some former) s).map fun (_, s) => (some block, s)

def reAllocate (src : PageSource P) (turns : ℕ) (former : Option ℕ) (newSize : ℕ)
    (s : State P) : Option (Option ℕ × State P) :=
  match former with
  | none => allocate src turns newSize s
  | some former =>
    if newSize = 0 then (free turns (some former) s).map fun (_, s) => (none, s)
    else
      let block := fromUserData former
      let oldUserSize := (s.headers block).userSize
      if pagesRequired newSize ≤ (s.headers block).pageCount then
        some (some former, setUserSize block newSize s)
      else
        (allocate src turns newSize s).bind fun (r, s) =>
          moveBlock turns former (min oldUserSize newSize) r s

/-! The free list of the allocator of large blocks: a doubly linked list of headers in the
order of their sizes. -/

open Library.DoublyLinked List
open Function (update update_self update_of_ne)

def nextOf (h : ℕ → BlockHeader) (b : ℕ) : Option ℕ := (h b).nextFree

def prevOf (h : ℕ → BlockHeader) (b : ℕ) : Option ℕ := (h b).prevFree

/-- The links of a block may differ, its other fields do not. -/
structure BlockHeader.SameBlock (x y : BlockHeader) : Prop where
  pageCount : x.pageCount = y.pageCount
  totalSize : x.totalSize = y.totalSize
  userSize : x.userSize = y.userSize
  flags : x.flags = y.flags

theorem BlockHeader.SameBlock.refl (x : BlockHeader) : x.SameBlock x := ⟨rfl, rfl, rfl, rfl⟩

theorem BlockHeader.SameBlock.trans {x y z : BlockHeader} (h : x.SameBlock y)
    (h' : y.SameBlock z) : x.SameBlock z :=
  ⟨h.pageCount.trans h'.pageCount, h.totalSize.trans h'.totalSize, h.userSize.trans h'.userSize,
    h.flags.trans h'.flags⟩

section Links

variable (h : ℕ → BlockHeader) (b : ℕ) (v : Option ℕ)

theorem nextOf_setNext : nextOf (setNext h b v) = update (nextOf h) b v := by
  funext c
  by_cases hc : c = b
  · rw [hc, nextOf, setNext, update_self, update_self]
  · rw [nextOf, setNext, update_of_ne hc, update_of_ne hc, nextOf]

theorem prevOf_setNext : prevOf (setNext h b v) = prevOf h := by
  funext c
  by_cases hc : c = b
  · rw [hc, prevOf, setNext, update_self, prevOf]
  · rw [prevOf, setNext, update_of_ne hc, prevOf]

theorem nextOf_setPrev : nextOf (setPrev h b v) = nextOf h := by
  funext c
  by_cases hc : c = b
  · rw [hc, nextOf, setPrev, update_self, nextOf]
  · rw [nextOf, setPrev, update_of_ne hc, nextOf]

theorem prevOf_setPrev : prevOf (setPrev h b v) = update (prevOf h) b v := by
  funext c
  by_cases hc : c = b
  · rw [hc, prevOf, setPrev, update_self, update_self]
  · rw [prevOf, setPrev, update_of_ne hc, update_of_ne hc, prevOf]

theorem sameBlock_setNext (c : ℕ) : (setNext h b v c).SameBlock (h c) := by
  by_cases hc : c = b
  · rw [hc, setNext, update_self]
    exact ⟨rfl, rfl, rfl, rfl⟩
  · rw [setNext, update_of_ne hc]
    exact .refl _

theorem sameBlock_setPrev (c : ℕ) : (setPrev h b v c).SameBlock (h c) := by
  by_cases hc : c = b
  · rw [hc, setPrev, update_self]
    exact ⟨rfl, rfl, rfl, rfl⟩
  · rw [setPrev, update_of_ne hc]
    exact .refl _

end Links

/-- The list from `p` on holds the headers of `l`. -/
def FreeList (h : ℕ → BlockHeader) (p : Option ℕ) (l : List ℕ) : Prop :=
  Linked (nextOf h) (prevOf h) none p l none

section Walks

variable {h : ℕ → BlockHeader}

section

variable {before p : Option ℕ} {l : List ℕ} (hl : Linked (nextOf h) (prevOf h) before p l none)
include hl

theorem insertWalk_eq {size turns : ℕ} (hturns : l.length ≤ turns) :
    insertWalk h size turns before p =
      some (lastOr before (l.takeWhile fun b => (h b).totalSize < size),
        (l.dropWhile fun b => (h b).totalSize < size).head?) := by
  induction l generalizing turns before p with
  | nil =>
    rw [hl, insertWalk]
    rfl
  | cons b l ih =>
    obtain ⟨rfl, -, hrest⟩ := hl
    cases turns with
    | zero => cases hturns
    | succ turns =>
      rw [insertWalk]
      by_cases hlt : (h b).totalSize < size
      · rw [if_pos hlt, takeWhile_cons_of_pos (by simpa using hlt),
          dropWhile_cons_of_pos (by simpa using hlt), lastOr_cons]
        exact ih hrest (Nat.le_of_succ_le_succ hturns)
      · rw [if_neg hlt, takeWhile_cons_of_neg (by simpa using hlt),
          dropWhile_cons_of_neg (by simpa using hlt)]
        rfl

theorem findBestFit_eq {required turns : ℕ} (hturns : l.length ≤ turns) :
    findBestFit h required turns p = some (l.find? fun b => required ≤ (h b).totalSize) := by
  induction l generalizing turns before p with
  | nil =>
    rw [hl, findBestFit]
    rfl
  | cons b l ih =>
    obtain ⟨rfl, -, hrest⟩ := hl
    cases turns with
    | zero => cases hturns
    | succ turns =>
      rw [findBestFit]
      by_cases hle : required ≤ (h b).totalSize
      · rw [if_pos hle, find?_cons_of_pos (by simpa using hle)]
      · rw [if_neg hle, find?_cons_of_neg (by simpa using hle)]
        exact ih hrest (Nat.le_of_succ_le_succ hturns)

end

end Walks

variable {P : Type} {s s' : State P}

/-- What the two operations on the list leave as it is. -/
structure SameButList (s s' : State P) : Prop where
  memory : s'.memory = s.memory
  pages : s'.pages = s.pages
  arenaBase : s'.arenaBase = s.arenaBase
  arenaCursor : s'.arenaCursor = s.arenaCursor
  arenaEnd : s'.arenaEnd = s.arenaEnd

theorem SameButList.trans {s'' : State P} (h : SameButList s s') (h' : SameButList s' s'') :
    SameButList s s'' :=
  ⟨h'.memory.trans h.memory, h'.pages.trans h.pages, h'.arenaBase.trans h.arenaBase,
    h'.arenaCursor.trans h.arenaCursor, h'.arenaEnd.trans h.arenaEnd⟩

section Link

variable (s) (q v : Option ℕ)

theorem nextOf_linkNext : nextOf (linkNext s q v).headers = setLink (nextOf s.headers) q v := by
  cases q with
  | none => rfl
  | some b => exact nextOf_setNext _ _ _

theorem prevOf_linkNext : prevOf (linkNext s q v).headers = prevOf s.headers := by
  cases q with
  | none => rfl
  | some b => exact prevOf_setNext _ _ _

theorem freeList_linkNext : (linkNext s q v).freeList = if q = none then v else s.freeList := by
  cases q with
  | none => rfl
  | some b => rfl

theorem sameBlock_linkNext (b : ℕ) : ((linkNext s q v).headers b).SameBlock (s.headers b) := by
  cases q with
  | none => exact .refl _
  | some c => exact sameBlock_setNext _ _ _ _

theorem sameButList_linkNext : SameButList s (linkNext s q v) := by
  cases q with
  | none => exact ⟨rfl, rfl, rfl, rfl, rfl⟩
  | some b => exact ⟨rfl, rfl, rfl, rfl, rfl⟩

theorem nextOf_linkPrev : nextOf (linkPrev s q v).headers = nextOf s.headers := by
  cases q with
  | none => rfl
  | some b => exact nextOf_setPrev _ _ _

theorem prevOf_linkPrev : prevOf (linkPrev s q v).headers = setLink (prevOf s.headers) q v := by
  cases q with
  | none => rfl
  | some b => exact prevOf_setPrev _ _ _

theorem freeList_linkPrev : (linkPrev s q v).freeList = s.freeList := by
  cases q with
  | none => rfl
  | some b => rfl

theorem sameBlock_linkPrev (b : ℕ) : ((linkPrev s q v).headers b).SameBlock (s.headers b) := by
  cases q with
  | none => exact .refl _
  | some c => exact sameBlock_setPrev _ _ _ _

theorem sameButList_linkPrev : SameButList s (linkPrev s q v) := by
  cases q with
  | none => exact ⟨rfl, rfl, rfl, rfl, rfl⟩
  | some b => exact ⟨rfl, rfl, rfl, rfl, rfl⟩

end Link

section SetLinks

variable (s) (block : ℕ) (next prev : Option ℕ)

theorem nextOf_setLinks :
    nextOf (setLinks block next prev s).headers = update (nextOf s.headers) block next := by
  rw [setLinks, nextOf_setPrev, nextOf_setNext]

theorem prevOf_setLinks :
    prevOf (setLinks block next prev s).headers = update (prevOf s.headers) block prev := by
  rw [setLinks, prevOf_setPrev, prevOf_setNext]

theorem sameBlock_setLinks (b : ℕ) :
    ((setLinks block next prev s).headers b).SameBlock (s.headers b) :=
  (sameBlock_setPrev _ _ _ _).trans (sameBlock_setNext _ _ _ _)

theorem sameButList_setLinks : SameButList s (setLinks block next prev s) :=
  ⟨rfl, rfl, rfl, rfl, rfl⟩

end SetLinks

theorem freeListRemove_spec {l m : List ℕ} {x : ℕ}
    (hl : FreeList s.headers s.freeList (l ++ x :: m)) :
    FreeList (freeListRemove x s).headers (freeListRemove x s).freeList (l ++ m) ∧
      SameButList s (freeListRemove x s) ∧
      ∀ b, ((freeListRemove x s).headers b).SameBlock (s.headers b) := by
  have hnodup := nodup_append.mp hl.segment.nodup
  have hxl : x ∉ l := fun hmem => hnodup.2.2 x hmem x mem_cons_self rfl
  have hxm : x ∉ m := (nodup_cons.mp hnodup.2.1).1
  have hprev : prevOf s.headers x = l.getLast? := hl.prev_eq
  -- the store into the block before leaves the links of `x`
  have hdef : freeListRemove x s = setLinks x none none (linkPrev
      (linkNext s (prevOf s.headers x) (nextOf s.headers x)) (nextOf s.headers x)
      (prevOf s.headers x)) := by
    have hsecond : nextOf (linkNext s (prevOf s.headers x) (nextOf s.headers x)).headers x =
        nextOf s.headers x := by
      rw [nextOf_linkNext, setLink_of_ne (by rw [hprev]; exact getLast_ne hxl)]
    have hfirst : prevOf (linkNext s (prevOf s.headers x) (nextOf s.headers x)).headers x =
        prevOf s.headers x := by
      rw [prevOf_linkNext]
    change setLinks x none none (linkPrev (linkNext s (prevOf s.headers x) (nextOf s.headers x))
      (nextOf (linkNext s (prevOf s.headers x) (nextOf s.headers x)).headers x)
      (prevOf (linkNext s (prevOf s.headers x) (nextOf s.headers x)).headers x)) = _
    rw [hfirst, hsecond]
  have hkeep : ∀ y ∈ l ++ m, y ≠ x := by
    rintro y hy rfl
    exact (mem_append.mp hy).elim hxl hxm
  rw [hdef]
  refine ⟨?_, ?_, fun b => ?_⟩
  · have hremoved := hl.remove
    rw [← freeList_linkNext, ← freeList_linkPrev (linkNext s (prevOf s.headers x)
      (nextOf s.headers x)) (nextOf s.headers x) (prevOf s.headers x)] at hremoved
    refine hremoved.congr (fun y hy => ?_) fun y hy => ?_
    · rw [nextOf_setLinks, update_of_ne (hkeep y hy), nextOf_linkPrev, nextOf_linkNext]
    · rw [prevOf_setLinks, update_of_ne (hkeep y hy), prevOf_linkPrev, prevOf_linkNext]
  · exact (sameButList_linkNext s _ _).trans
      ((sameButList_linkPrev _ _ _).trans (sameButList_setLinks _ _ _ _))
  · exact (sameBlock_setLinks _ _ _ _ _).trans
      ((sameBlock_linkPrev _ _ _ _).trans (sameBlock_linkNext _ _ _ _))

def insertSorted (h : ℕ → BlockHeader) (block : ℕ) (l : List ℕ) : List ℕ :=
  l.orderedInsert (fun b c => (h b).totalSize ≤ (h c).totalSize) block

theorem insertSorted_eq (h : ℕ → BlockHeader) (block : ℕ) (l : List ℕ) : insertSorted h block l =
      l.takeWhile (fun b => (h b).totalSize < (h block).totalSize) ++
        block :: l.dropWhile fun b => (h b).totalSize < (h block).totalSize := by
  rw [insertSorted, orderedInsert_eq_take_drop]
  simp only [Nat.not_le]

theorem sorted_insertSorted {h : ℕ → BlockHeader} {l : List ℕ}
    (hl : l.Pairwise fun b c => (h b).totalSize ≤ (h c).totalSize) (block : ℕ) :
    (insertSorted h block l).Pairwise fun b c => (h b).totalSize ≤ (h c).totalSize := by
  have htotal : Std.Total fun b c => (h b).totalSize ≤ (h c).totalSize :=
    ⟨fun b c => Nat.le_total _ _⟩
  have htrans : IsTrans ℕ fun b c => (h b).totalSize ≤ (h c).totalSize :=
    ⟨fun _ _ _ => Nat.le_trans⟩
  exact hl.orderedInsert block l

theorem perm_insertSorted (h : ℕ → BlockHeader) (block : ℕ) (l : List ℕ) :
    (insertSorted h block l).Perm (block :: l) := perm_orderedInsert _ _ _

section SetFlags

variable (s) (block : ℕ) (flags : Flags)

theorem setFlags_self : (setFlags block flags s).headers block =
    { s.headers block with flags := flags } := update_self _ _ _

theorem setFlags_of_ne {b : ℕ} (h : b ≠ block) :
    (setFlags block flags s).headers b = s.headers b := update_of_ne h _ _

theorem nextOf_setFlags : nextOf (setFlags block flags s).headers = nextOf s.headers := by
  funext c
  by_cases hc : c = block
  · rw [hc, nextOf, setFlags_self, nextOf]
  · rw [nextOf, setFlags_of_ne _ _ _ hc, nextOf]

theorem prevOf_setFlags : prevOf (setFlags block flags s).headers = prevOf s.headers := by
  funext c
  by_cases hc : c = block
  · rw [hc, prevOf, setFlags_self, prevOf]
  · rw [prevOf, setFlags_of_ne _ _ _ hc, prevOf]

end SetFlags

/-- The block that `FreeListInsert` puts into the list, before it searches its place. -/
def asFree (block : ℕ) (s : State P) : State P := setLinks block none none (setFlags block .free s)

theorem asFree_self (block : ℕ) (s : State P) : ((asFree block s).headers block).flags = .free ∧
      ((asFree block s).headers block).pageCount = (s.headers block).pageCount ∧
      ((asFree block s).headers block).totalSize = (s.headers block).totalSize := by
  have hsame := sameBlock_setLinks (setFlags block .free s) block none none block
  rw [setFlags_self] at hsame
  exact ⟨hsame.flags, hsame.pageCount, hsame.totalSize⟩

theorem asFree_of_ne {b block : ℕ} (h : b ≠ block) :
    ((asFree block s).headers b).SameBlock (s.headers b) := by
  have hsame := sameBlock_setLinks (setFlags block .free s) block none none b
  rwa [setFlags_of_ne _ _ _ h] at hsame

theorem asFree_totalSize (block b : ℕ) (s : State P) :
    ((asFree block s).headers b).totalSize = (s.headers b).totalSize := by
  by_cases h : b = block
  · rw [h]
    exact (asFree_self block s).2.2
  · exact (asFree_of_ne h).totalSize

theorem freeList_asFree {l : List ℕ} {block : ℕ} (hl : FreeList s.headers s.freeList l)
    (hblock : block ∉ l) : FreeList (asFree block s).headers s.freeList l := by
  refine hl.congr (fun y hy => ?_) fun y hy => ?_
  · rw [asFree, nextOf_setLinks, update_of_ne (ne_of_mem_of_not_mem hy hblock),
      nextOf_setFlags]
  · rw [asFree, prevOf_setLinks, update_of_ne (ne_of_mem_of_not_mem hy hblock),
      prevOf_setFlags]

theorem freeList_link {l m : List ℕ} {block : ℕ} (hl : FreeList s.headers s.freeList (l ++ m))
    (hblock : block ∉ l ++ m) : FreeList (linkBetween block l.getLast? m.head? s).headers
      (linkBetween block l.getLast? m.head? s).freeList (l ++ block :: m) := by
  have hinsert := hl.insert hblock
  have hfirst : (if l = [] then some block else s.freeList) =
      (linkBetween block l.getLast? m.head? s).freeList := by
    rw [linkBetween, freeList_linkPrev, freeList_linkNext]
    simp only [getLast?_eq_none_iff]
    rfl
  rw [FreeList, ← hfirst, linkBetween, nextOf_linkPrev, nextOf_linkNext, prevOf_linkPrev,
    prevOf_linkNext, nextOf_setLinks, prevOf_setLinks]
  exact hinsert

theorem sameBlock_linkBetween (block : ℕ) (prev curr : Option ℕ) (b : ℕ) :
    ((linkBetween block prev curr s).headers b).SameBlock (s.headers b) :=
  (sameBlock_linkPrev _ _ _ b).trans
    ((sameBlock_linkNext _ _ _ b).trans (sameBlock_setLinks _ _ _ _ b))

theorem sameButList_linkBetween (block : ℕ) (prev curr : Option ℕ) :
    SameButList s (linkBetween block prev curr s) :=
  (sameButList_setLinks _ _ _ _).trans
    ((sameButList_linkNext _ _ _).trans (sameButList_linkPrev _ _ _))

theorem freeListInsert_nil {turns block : ℕ} (h : s.freeList = none) :
    freeListInsert turns block s = some { asFree block s with freeList := some block } := by
  simp only [freeListInsert]
  split
  case h_1 => rfl
  case h_2 first hfirst => cases hfirst.symm.trans h

theorem freeListInsert_cons {turns block first : ℕ} (h : s.freeList = some first) :
    freeListInsert turns block s =
      (insertWalk (asFree block s).headers ((asFree block s).headers block).totalSize turns none
        (some first)).map fun (prev, curr) => linkBetween block prev curr (asFree block s) := by
  simp only [freeListInsert]
  split
  case h_1 hfirst => cases hfirst.symm.trans h
  case h_2 first' hfirst =>
    cases hfirst.symm.trans h
    rfl

theorem freeListInsert_spec {l : List ℕ} {block turns : ℕ}
    (hl : FreeList s.headers s.freeList l) (hblock : block ∉ l) (hturns : l.length ≤ turns) :
    ∃ s', freeListInsert turns block s = some s' ∧
      FreeList s'.headers s'.freeList (insertSorted s.headers block l) ∧
      SameButList s s' ∧ (s'.headers block).flags = .free ∧
      (s'.headers block).pageCount = (s.headers block).pageCount ∧
      (s'.headers block).totalSize = (s.headers block).totalSize ∧
      ∀ b, b ≠ block → (s'.headers b).SameBlock (s.headers b) := by
  have hfree := freeList_asFree hl hblock
  obtain ⟨hflags, hcount, htotal⟩ := asFree_self block s
  cases hfirst : s.freeList with
  | none =>
    rw [hfirst] at hl
    have hnil : l = [] := hl.segment.unique rfl
    subst hnil
    refine ⟨_, freeListInsert_nil hfirst, ⟨rfl, ?_, ?_⟩, ⟨rfl, rfl, rfl, rfl, rfl⟩, hflags, hcount,
      htotal, fun b hb => asFree_of_ne hb⟩
    · have hprev : prevOf (asFree block s).headers block = none := by
        rw [asFree, prevOf_setLinks, update_self]
      exact hprev
    · have hnext : nextOf (asFree block s).headers block = none := by
        rw [asFree, nextOf_setLinks, update_self]
      exact hnext
  | some first =>
    have hwalk : insertWalk (asFree block s).headers ((asFree block s).headers block).totalSize
        turns none s.freeList = _ := insertWalk_eq hfree hturns
    simp only [asFree_totalSize, lastOr_none] at hwalk
    have hsplit := (takeWhile_append_dropWhile
      (p := fun b => (s.headers b).totalSize < (s.headers block).totalSize) (l := l)).symm
    have hsorted := insertSorted_eq s.headers block l
    generalize (l.takeWhile fun b => (s.headers b).totalSize < (s.headers block).totalSize) = l₁ at *
    generalize (l.dropWhile fun b => (s.headers b).totalSize < (s.headers block).totalSize) = l₂ at *
    rw [hsplit] at hfree hblock
    have hsame := fun b =>
      sameBlock_linkBetween (s := asFree block s) block l₁.getLast? l₂.head? b
    refine ⟨linkBetween block l₁.getLast? l₂.head? (asFree block s), ?_, ?_, ?_, ?_, ?_, ?_,
      fun b hb => ?_⟩
    · rw [freeListInsert_cons hfirst, htotal, ← hfirst, hwalk]
      rfl
    · rw [hsorted]
      exact freeList_link hfree hblock
    · exact (show SameButList s (asFree block s) from ⟨rfl, rfl, rfl, rfl, rfl⟩).trans
        (sameButList_linkBetween _ _ _)
    · exact (hsame block).flags.trans hflags
    · exact (hsame block).pageCount.trans hcount
    · exact (hsame block).totalSize.trans htotal
    · exact (hsame b).trans (asFree_of_ne hb)

end Equilibrium.HeapAllocator
