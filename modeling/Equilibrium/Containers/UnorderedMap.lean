import Equilibrium.Library.Calls
import Equilibrium.Memory.AllocationSize

/-! The open-addressing hash map of `base/containers/unordered_map.h`: flat
slots, tombstones, linear probing over a power-of-two table. The slot array is a
list, null when empty, so `bucket_count_` is its length. An index probed in a
loop without its own bound stops with `Stop.hang` once it has gone around the
whole table, since from there it only repeats itself. -/

namespace Equilibrium

open AllocationSize

inductive Slot (K V : Type) where
  | empty
  | occupied (key : K) (val : V)
  | deleted
  deriving DecidableEq, Repr

namespace Slot

variable {K V : Type}

def isEmpty : Slot K V → Bool
  | empty => true
  | _ => false

def isOccupied : Slot K V → Bool
  | occupied _ _ => true
  | _ => false

def isDeleted : Slot K V → Bool
  | deleted => true
  | _ => false

def pair : Slot K V → Option (K × V)
  | occupied k v => some (k, v)
  | _ => none

end Slot

structure UnorderedMap (K V : Type) where
  slots : List (Slot K V) := []
  size : Nat := 0
  tombstoneCount : Nat := 0
  deriving DecidableEq, Repr

namespace UnorderedMap

variable {K V : Type}

/-- What the map asks of its surroundings: `sizeof(Slot)`, and whether
`TAllocator::Allocate` returns a block of the given number of bytes. -/
structure Memory where
  slotSize : Nat
  allocates : Nat → Bool

def bucketCount (m : UnorderedMap K V) : Nat := m.slots.length

/-- The state of slot `idx`, as the loops read it. -/
def slotAt (slots : List (Slot K V)) (idx : Nat) : Slot K V := slots.getD idx .empty

/-- `bucket_count_ * kMaxLoadFactor`. The product of 0.75 and a power of two is exact in `f64`. -/
def maxLoad (bucketCount : Nat) : Nat := bucketCount * 3 / 4

/-- `(idx + 1) & (bucket_count - 1)`. -/
def nextIndex (bucketCount idx : Nat) : Nat := (idx + 1) &&& (bucketCount - 1)

def bucketFor [Hashable K] (bucketCount : Nat) (key : K) : Nat :=
  (hash key).toNat &&& (bucketCount - 1)

def destroySlot : Slot K V → Slot K V
  | .occupied _ _ => .empty
  | s => s

def allocSlots (mem : Memory) (count : Nat) : Outcome (List (Slot K V)) := do
  let bytes ← checkedAllocationSize count mem.slotSize
  if mem.allocates bytes then .ok (List.replicate count .empty) else .error .fatal

/-- The loop `while (slots[idx].state == kOccupied)` of rehash and copy. -/
def vacantFrom (slots : List (Slot K V)) : Nat → Nat → Outcome Nat
  | 0, _ => .error .hang
  | turns + 1, idx =>
    match slotAt slots idx with
    | .occupied _ _ => vacantFrom slots turns (nextIndex slots.length idx)
    | _ => .ok idx

/-- Place every pair of the old table in the new one, counting them. -/
def relocate [Hashable K] (table : List (Slot K V)) (placed : Nat) :
    List (Slot K V) → Outcome (List (Slot K V) × Nat)
  | [] => .ok (table, placed)
  | .occupied k v :: rest => do
    let idx ← vacantFrom table table.length (bucketFor table.length k)
    relocate (table.set idx (.occupied k v)) (wrapAdd placed 1) rest
  | _ :: rest => relocate table placed rest

/-- The size of the table `GrowAndRehash` moves to. -/
def growCount (bucketCount targetCount : Nat) : Outcome Nat :=
  if 0 < targetCount then .ok targetCount
  else if bucketCount = 0 then .ok 16
  else checkedCountProduct bucketCount 2

def growAndRehash [Hashable K] (mem : Memory) (m : UnorderedMap K V) (targetCount : Nat) :
    Outcome (UnorderedMap K V) := do
  let newCount ← growCount m.bucketCount targetCount
  let newSlots ← allocSlots mem newCount
  let (table, _) ← relocate newSlots 0 m.slots
  .ok { m with slots := table, tombstoneCount := 0 }

/-- The probe loop of `FindSlot`, with `bucket_count_ - probes` turns left. -/
def findSlotLoop [BEq K] (slots : List (Slot K V)) (key : K) : Nat → Nat → Option Nat
  | 0, _ => none
  | turns + 1, idx =>
    match slotAt slots idx with
    | .empty => none
    | .deleted => findSlotLoop slots key turns (nextIndex slots.length idx)
    | .occupied k _ =>
      if k == key then some idx
      else findSlotLoop slots key turns (nextIndex slots.length idx)

/-- The slot that holds the key; `none` stands for `~mem_size(0)`. -/
def findSlot [BEq K] [Hashable K] (m : UnorderedMap K V) (key : K) : Option Nat :=
  if m.bucketCount = 0 then none
  else findSlotLoop m.slots key m.bucketCount (bucketFor m.bucketCount key)

/-- The growth test at the head of `FindOrPrepareInsert`. -/
def growthTest [Hashable K] (mem : Memory) (m : UnorderedMap K V) : Outcome (UnorderedMap K V) :=
  if m.bucketCount = 0 ∨
      maxLoad m.bucketCount < wrapAdd (wrapAdd m.size m.tombstoneCount) 1 then
    growAndRehash mem m 0
  else .ok m

/-- The probe loop of `FindOrPrepareInsert`. It has no bound of its own. -/
def prepareLoop [BEq K] (slots : List (Slot K V)) (key : K) :
    Nat → Nat → Option Nat → Outcome (Nat × Bool)
  | 0, _, _ => .error .hang
  | turns + 1, idx, tombstone =>
    match slotAt slots idx with
    | .empty => .ok (tombstone.getD idx, true)
    | .deleted =>
      prepareLoop slots key turns (nextIndex slots.length idx) (tombstone <|> some idx)
    | .occupied k _ =>
      if k == key then .ok (idx, false)
      else prepareLoop slots key turns (nextIndex slots.length idx) tombstone

def findOrPrepareInsert [BEq K] [Hashable K] (mem : Memory) (m : UnorderedMap K V) (key : K) :
    Outcome (UnorderedMap K V × Nat × Bool) := do
  let m ← growthTest mem m
  let slot ← prepareLoop m.slots key m.bucketCount (bucketFor m.bucketCount key) none
  .ok (m, slot)

/-- Construct the pair in the slot's storage, then `MarkOccupied`. -/
def markOccupied (m : UnorderedMap K V) (idx : Nat) (key : K) (val : V) : UnorderedMap K V where
  slots := m.slots.set idx (.occupied key val)
  size := wrapAdd m.size 1
  tombstoneCount :=
    if (slotAt m.slots idx).isDeleted then wrapSub m.tombstoneCount 1 else m.tombstoneCount

/-- The body shared by `insert`, `emplace` and `operator[]`: the slot of the
key, and whether the pair was new. -/
def insertSlot [BEq K] [Hashable K] (mem : Memory) (m : UnorderedMap K V) (key : K) (val : V) :
    Outcome (UnorderedMap K V × Nat × Bool) := do
  let (m, idx, fresh) ← findOrPrepareInsert mem m key
  if fresh then .ok (m.markOccupied idx key val, idx, true) else .ok (m, idx, false)

def insert [BEq K] [Hashable K] (mem : Memory) (m : UnorderedMap K V) (key : K) (val : V) :
    Outcome (UnorderedMap K V × Nat × Bool) := insertSlot mem m key val

/-- `val` is the value constructed from the forwarded arguments. -/
def emplace [BEq K] [Hashable K] (mem : Memory) (m : UnorderedMap K V) (key : K) (val : V) :
    Outcome (UnorderedMap K V × Nat × Bool) := insertSlot mem m key val

def tryEmplace [BEq K] [Hashable K] (mem : Memory) (m : UnorderedMap K V) (key : K) (val : V) :
    Outcome (UnorderedMap K V × Nat × Bool) := emplace mem m key val

/-- `operator[]`; `default` is the value-initialised `V()`. -/
def subscript [BEq K] [Hashable K] [Inhabited V] (mem : Memory) (m : UnorderedMap K V) (key : K) :
    Outcome (UnorderedMap K V × Nat) := do
  let (m, idx, _) ← insertSlot mem m key default
  .ok (m, idx)

def valueAt (m : UnorderedMap K V) (idx : Nat) : Option V :=
  (slotAt m.slots idx).pair.map Prod.snd

def storeAt (m : UnorderedMap K V) (idx : Nat) (val : V) : UnorderedMap K V :=
  match slotAt m.slots idx with
  | .occupied k _ => { m with slots := m.slots.set idx (.occupied k val) }
  | _ => m

def find [BEq K] [Hashable K] (m : UnorderedMap K V) (key : K) : Option V :=
  match m.findSlot key with
  | none => none
  | some idx => m.valueAt idx

def contains [BEq K] [Hashable K] (m : UnorderedMap K V) (key : K) : Bool :=
  (m.findSlot key).isSome

def erase [BEq K] [Hashable K] (m : UnorderedMap K V) (key : K) : UnorderedMap K V × Bool :=
  match m.findSlot key with
  | none => (m, false)
  | some idx =>
    ({ slots := m.slots.set idx .deleted
       size := wrapSub m.size 1
       tombstoneCount := wrapAdd m.tombstoneCount 1 }, true)

def clear (m : UnorderedMap K V) : UnorderedMap K V where
  slots := m.slots.map destroySlot
  size := 0
  tombstoneCount := 0

def reserve [Hashable K] (mem : Memory) (m : UnorderedMap K V) (count : Nat) :
    Outcome (UnorderedMap K V) := do
  let product ← checkedCountProduct count 4
  let required ← checkedCountSum (product / 3) 1
  let rounded ← checkedRoundUpToPowerOfTwo required
  let target := max 16 rounded
  if m.bucketCount < target then growAndRehash mem m target else .ok m

def insertAll [BEq K] [Hashable K] (mem : Memory) :
    UnorderedMap K V → List (K × V) → Outcome (UnorderedMap K V)
  | m, [] => .ok m
  | m, (k, v) :: rest => do
    let (m, _) ← insert mem m k v
    insertAll mem m rest

/-- The initializer-list constructor. -/
def ofList [BEq K] [Hashable K] (mem : Memory) (entries : List (K × V)) :
    Outcome (UnorderedMap K V) := do
  let m ← reserve mem {} entries.length
  insertAll mem m entries

/-- The copy constructor. -/
def copy [Hashable K] (mem : Memory) (other : UnorderedMap K V) : Outcome (UnorderedMap K V) :=
  if 0 < other.size then do
    let slots ← allocSlots mem other.bucketCount
    let (table, placed) ← relocate slots 0 other.slots
    .ok { slots := table, size := placed, tombstoneCount := 0 }
  else .ok {}

/-- Copy assignment to another object: `clear`, release the slots, copy. -/
def copyAssign [Hashable K] (mem : Memory) (m other : UnorderedMap K V) :
    Outcome (UnorderedMap K V) :=
  let released := { m.clear with slots := [], size := 0 }
  if 0 < other.size then do
    let slots ← allocSlots mem other.bucketCount
    let (table, placed) ← relocate slots released.size other.slots
    .ok { released with slots := table, size := placed }
  else .ok released

def movedFrom : UnorderedMap K V := { slots := [], size := 0, tombstoneCount := 0 }

/-- `AdvanceToOccupied` from `index`, with `bucket_count_ - index` slots ahead. -/
def advanceToOccupied (slots : List (Slot K V)) (index : Nat) : Nat :=
  if index < slots.length then
    if (slotAt slots index).isOccupied then index else advanceToOccupied slots (index + 1)
  else index
  termination_by slots.length - index

/-- The pairs visited from an iterator at `index` until it compares equal to `end()`. -/
def iterateFrom (slots : List (Slot K V)) : Nat → Nat → List (K × V)
  | 0, _ => []
  | turns + 1, index =>
    let index := advanceToOccupied slots index
    if index = slots.length then []
    else (slotAt slots index).pair.toList ++ iterateFrom slots turns (index + 1)

/-- A traversal from `begin()` to `end()`. -/
def iterate (m : UnorderedMap K V) : List (K × V) :=
  iterateFrom m.slots (m.bucketCount + 1) 0

end UnorderedMap

end Equilibrium

/-! Runs of calls on any number of objects, named by `ι`. Every call is made under its own
`Memory`, so an allocation may succeed once and fail the next time. -/

namespace Equilibrium.UnorderedMap

open Function (update)

variable {ι K V : Type}

inductive Call (ι K V : Type) where
  | construct (x : ι)
  | constructList (x : ι) (entries : List (K × V))
  | copyConstruct (x y : ι)
  | moveConstruct (x y : ι)
  | copyAssign (x y : ι)
  | moveAssign (x y : ι)
  | subscript (x : ι) (key : K)
  | subscriptStore (x : ι) (key : K) (val : V)
  | find (x : ι) (key : K)
  | contains (x : ι) (key : K)
  | insert (x : ι) (key : K) (val : V)
  | emplace (x : ι) (key : K) (val : V)
  | tryEmplace (x : ι) (key : K) (val : V)
  | erase (x : ι) (key : K)
  | clear (x : ι)
  | reserve (x : ι) (count : Nat)

/-- What a call returns; a pointer or reference is given by the value it designates. -/
inductive Reply (V : Type) where
  | done
  | flag (result : Bool)
  | pointer (pointee : Option V)
  | inserted (pointee : Option V) (fresh : Bool)
  deriving DecidableEq, Repr

abbrev World (ι K V : Type) := ι → UnorderedMap K V

def initial : World ι K V := fun _ => {}

section Exec

variable [DecidableEq ι] [BEq K] [Hashable K] [Inhabited V]

/-- An insertion into `x` whose reply is the pair `{SlotVal(s), slot.second}`. -/
def insertInto (w : World ι K V) (x : ι) (result : Outcome (UnorderedMap K V × Nat × Bool)) :
    Outcome (World ι K V × Reply V) := do
  let (m, idx, fresh) ← result
  .ok (update w x m, .inserted (m.valueAt idx) fresh)

def exec (w : World ι K V) : Memory × Call ι K V → Outcome (World ι K V × Reply V)
  | (_, .construct x) => .ok (update w x {}, .done)
  | (mem, .constructList x entries) => do
    let m ← ofList mem entries
    .ok (update w x m, .done)
  | (mem, .copyConstruct x y) => do
    let m ← copy mem (w y)
    .ok (update w x m, .done)
  | (_, .moveConstruct x y) =>
    .ok (update (update w x (w y)) y movedFrom, .done)
  | (mem, .copyAssign x y) =>
    if x = y then .ok (w, .done)
    else do
      let m ← copyAssign mem (w x) (w y)
      .ok (update w x m, .done)
  | (_, .moveAssign x y) =>
    if x = y then .ok (w, .done)
    else .ok (update (update w x (w y)) y movedFrom, .done)
  | (mem, .subscript x key) => do
    let (m, idx) ← subscript mem (w x) key
    .ok (update w x m, .pointer (m.valueAt idx))
  | (mem, .subscriptStore x key val) => do
    let (m, idx) ← subscript mem (w x) key
    .ok (update w x (m.storeAt idx val), .done)
  | (_, .find x key) => .ok (w, .pointer ((w x).find key))
  | (_, .contains x key) => .ok (w, .flag ((w x).contains key))
  | (mem, .insert x key val) => insertInto w x (insert mem (w x) key val)
  | (mem, .emplace x key val) => insertInto w x (emplace mem (w x) key val)
  | (mem, .tryEmplace x key val) => insertInto w x (tryEmplace mem (w x) key val)
  | (_, .erase x key) =>
    .ok (update w x ((w x).erase key).1, .flag ((w x).erase key).2)
  | (_, .clear x) => .ok (update w x (w x).clear, .done)
  | (mem, .reserve x count) => do
    let m ← reserve mem (w x) count
    .ok (update w x m, .done)

abbrev run (w : World ι K V) (calls : List (Memory × Call ι K V)) :
    Outcome (World ι K V × List (Reply V)) :=
  Library.Calls.run exec w calls

end Exec

end Equilibrium.UnorderedMap
