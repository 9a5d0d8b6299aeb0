import Equilibrium.Memory.MemoryRouterAligned

/-! What the router's `ReAllocate` does to a block of the slab allocator. -/

namespace Equilibrium.MemoryRouter

open BucketAllocator (allocates_of_allocate copySlot kHeaderSize queryAllocationSize)
open Library.ByteMemory Library.Interleaving
open BucketAllocator (slotSizeFor slabFromPtr)

section Specification

variable {Thread P : Type} [DecidableEq Thread] (src : AddressSpace P)

end Specification

section Blocks

variable {Thread P : Type} {src : AddressSpace P} {p : P} {s : State Thread P} {live : List Held}
  {blocks : List Block} {h x : Held}

section

variable (hinv : AlignedInv src p s live blocks)
include hinv

theorem AlignedInv.inside (hh : h ∈ live) : h.slot.address ≤ h.block.address ∧
      h.block.address + h.block.size ≤ h.slot.address + slotSizeFor h.slot.size := by
  have hfits := (hinv.slotAt (hinv.mem h hh)).size
  obtain ⟨hplain, hsize⟩ | hadjusted := hinv.good h hh
  · omega
  · have hlow := hadjusted.low
    have hhigh := hadjusted.high
    omega

end

end Blocks

section Calls

variable {Thread P : Type} [DecidableEq Thread] {src : AddressSpace P} {p : P} {t : Thread}
  {blocks : List Block} {h : Held} {newSize : ℕ} {r : Option ℕ}

variable {s : Run Thread P}

section

variable (hinv : AlignedInv src p s.router s.live blocks)
include hinv

end

end Calls

section Runs

variable {Thread P : Type} [DecidableEq Thread] {src : AddressSpace P} {turns : ℕ} {m : Bytes}
  {p : P} {heap : HeapAllocator.Object}

end Runs

end Equilibrium.MemoryRouter
