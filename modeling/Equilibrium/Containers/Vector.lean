import Equilibrium.Memory.AllocationSize
import Equilibrium.Library.SlotArray

/-! `Vector` of `base/containers/vector.h`, against lists. -/

namespace Equilibrium

open Library.SlotArray

/-- The block at `data_`, which `capacity_` is the end of, and how far behind `data_` is
`end_`. -/
structure Vector (α : Type) where
  block : Option (Slots α)
  size : ℕ
  deriving DecidableEq, Repr

namespace Vector

open AllocationSize

/-- How a call ends without returning; `misuse` is an access that the state of the slot does not
allow, or outside of the block. -/
inductive Fault where
  | fatal
  | misuse
  | dangling
  deriving DecidableEq, Repr

variable {α : Type}

def slots (v : Vector α) : Slots α := v.block.getD []

def capacity (v : Vector α) : ℕ := v.slots.length

def new : Vector α := ⟨none, 0⟩

def withSlots (v : Vector α) (a : Slots α) (size : ℕ) : Vector α := ⟨v.block.map fun _ => a, size⟩

def step {β : Type} : Option β → Except Fault β
  | some b => .ok b
  | none => .error .misuse

def checked : Outcome ℕ → Except Fault ℕ
  | .ok n => .ok n
  | .error _ => .error .fatal

section Storage

variable (e : Element α)

def allocate (granted : Bool) (cap : ℕ) : Except Fault (Slots α) := do
  let _ ← checked (checkedAllocationSize cap e.size)
  if granted then .ok (List.replicate cap none) else .error .fatal

def kDefaultMult : ℕ := 2

def calculateNewCapacity (cap : ℕ) : Except Fault ℕ :=
  if 0 < cap then checked (checkedCountProduct cap kDefaultMult) else .ok 1

/-- `DestructRange(data_, end_)` before the block is freed or given up. -/
def release (v : Vector α) : Except Fault Unit := do
  let _ ← step (destroyRange v.slots 0 v.size)
  .ok ()

/-- The elements of the old block moved to a new one and destroyed. -/
def moveElements (v : Vector α) (newBlock : Slots α) : Except Fault (Slots α) :=
  match v.block with
  | none => .ok newBlock
  | some old => do
    let (old, newBlock) ← step (relocate e.moved old newBlock 0 v.size)
    let _ ← step (destroyRange old 0 v.size)
    .ok newBlock

def growCapacity (granted : Bool) (v : Vector α) (newCap : ℕ) : Except Fault (Vector α) := do
  let newBlock ← allocate e granted newCap
  let newBlock ← moveElements e v newBlock
  .ok ⟨some newBlock, v.size⟩

def growWhen (grows granted : Bool) (v : Vector α) (newCap : ℕ) : Except Fault (Vector α) :=
  if grows then growCapacity e granted v newCap else .ok v

def reserve (granted : Bool) (v : Vector α) (newReservedCapacity : ℕ) : Except Fault (Vector α) :=
  if newReservedCapacity = 0 then .ok v
  else if v.capacity < newReservedCapacity then growCapacity e granted v newReservedCapacity
  else .ok v

def releaseAll (v : Vector α) : Except Fault (Vector α) :=
  if v.block.isSome then do
    release v
    .ok new
  else .ok v

def shrinkToFit (granted : Bool) (v : Vector α) : Except Fault (Vector α) :=
  if v.size = v.capacity then .ok v
  else if v.size = 0 then releaseAll v
  else do
    let newBlock ← allocate e granted v.size
    let newBlock ← moveElements e v newBlock
    .ok ⟨some newBlock, v.size⟩

def clear (v : Vector α) : Except Fault (Vector α) := do
  let a ← step (destroyRange v.slots 0 v.size)
  .ok (v.withSlots a 0)

def reset (v : Vector α) : Except Fault (Vector α) := do
  release v
  .ok new

/-- The copies of the elements of `src`. -/
def copyInto (src dest : Slots α) (i : ℕ) : ℕ → Option (Slots α)
  | 0 => some dest
  | n + 1 => do
    let v ← read src i
    let dest ← construct dest i v
    copyInto src dest (i + 1) n

/-- The copy constructor. -/
def copyOf (granted : Bool) (other : Vector α) : Except Fault (Vector α) :=
  if 0 < other.size then do
    let block ← allocate e granted other.size
    let block ← step (copyInto other.slots block 0 other.size)
    .ok ⟨some block, other.size⟩
  else .ok new

def ofValues (granted : Bool) (values : List α) : Except Fault (Vector α) :=
  if 0 < values.length then do
    let block ← allocate e granted values.length
    let block ← step (place block 0 0 values)
    .ok ⟨some block, values.length⟩
  else .ok new

/-- The constructor with a `VectorReservePolicy`. -/
def ofReserve (granted : Bool) (reserveCount : ℕ) (kForData : Bool) : Except Fault (Vector α) :=
  if kForData then ofValues e granted (List.replicate reserveCount e.fresh)
  else if 0 < reserveCount then do
    let block ← allocate e granted reserveCount
    .ok ⟨some block, 0⟩
  else .ok new

/-- Room for `newSize` elements and values for the new ones. -/
def fillTo (granted : Bool) (v : Vector α) (newSize : ℕ) (value : α) : Except Fault (Vector α) := do
  let currentSize := v.size
  let v ← growWhen e (v.capacity < newSize) granted v newSize
  let a ← step (place v.slots currentSize 0 (List.replicate (newSize - currentSize) value))
  .ok (v.withSlots a newSize)

def shrinkTo (v : Vector α) (newSize : ℕ) : Except Fault (Vector α) := do
  let a ← step (destroyRange v.slots newSize (v.size - newSize))
  .ok (v.withSlots a newSize)

def resize (granted : Bool) (v : Vector α) (newSize : ℕ) : Except Fault (Vector α) :=
  if v.size < newSize then fillTo e granted v newSize e.fresh
  else if newSize < v.size then shrinkTo v newSize
  else .ok v

def popBack (v : Vector α) : Except Fault (Vector α) := do
  let a ← step (destroy v.slots (v.size - 1))
  .ok (v.withSlots a (v.size - 1))

end Storage

section Shifts

variable (e : Element α)

/-- A loop over sources from the last one before `last` down; each moves by `count`. -/
def shiftUp (put : Slots α → ℕ → α → Option (Slots α)) (count : ℕ) :
    ℕ → ℕ → Slots α → Option (Slots α)
  | 0, _, a => some a
  | turns + 1, last, a => do
    let (a, v) ← moveOut e.moved a (last - 1)
    let a ← put a (last - 1 + count) v
    shiftUp put count turns (last - 1) a

def makeHoleForInsert (a : Slots α) (oldEnd pos count : ℕ) : Option (Slots α) :=
  let elementsToMove := oldEnd - pos
  if elementsToMove = 0 ∨ count = 0 then some a
  else do
    let numToConstruct := min count elementsToMove
    let a ← shiftUp e construct count numToConstruct oldEnd a
    shiftUp e assign count (elementsToMove - numToConstruct) (oldEnd - numToConstruct) a

/-- A loop that moves elements from `src` on to `dest` on. -/
def shiftDown : ℕ → ℕ → ℕ → Slots α → Option (Slots α)
  | 0, _, _, a => some a
  | turns + 1, dest, src, a => do
    let (a, v) ← moveOut e.moved a src
    let a ← assign a dest v
    shiftDown turns (dest + 1) (src + 1) a

/-- The elements from `first` to `last` overwritten by those behind them, and as many destroyed
at the end. -/
def eraseRange (v : Vector α) (first last : ℕ) : Except Fault (Vector α) :=
  if first = last then .ok v
  else do
    let a ← step (shiftDown e (v.size - last) first last v.slots)
    let a ← step (destroyRange a (first + (v.size - last)) (last - first))
    .ok (v.withSlots a (first + (v.size - last)))

def eraseAt (v : Vector α) (pos : ℕ) : Except Fault (Vector α × Bool) :=
  if v.size ≤ pos then .ok (v, false)
  else do
    let a ← step (shiftDown e (v.size - (pos + 1)) pos (pos + 1) v.slots)
    let a ← step (destroy a (v.size - 1))
    .ok (v.withSlots a (v.size - 1), true)

/-- The pointer is `offset` elements behind `data_`. -/
def erasePointer (v : Vector α) (offset : ℤ) : Except Fault (Vector α × Bool) :=
  if offset < 0 ∨ (v.size : ℤ) ≤ offset then .ok (v, false) else eraseAt e v offset.toNat

end Shifts

section Calls

variable {ι : Type} [DecidableEq ι]

abbrev World (ι α : Type) := ι → Vector α

/-- What a call is given by reference: an object outside of the vectors, or an element. -/
inductive Source (ι α : Type) where
  | value (v : α)
  | element (y : ι) (index : ℕ)

/-- The value of an object referred to; the block of the vector `freed` is gone. -/
def look (freed : Option ι) (s : World ι α) : Source ι α → Except Fault α
  | .value v => .ok v
  | .element y index =>
    if freed = some y then .error .dangling else step (read (s y).slots index)

/-- The value that an object is constructed with by copy or by move. -/
def fetch (e : Element α) (s : World ι α) : Source ι α × Bool → Except Fault (World ι α × α)
  | (.value v, _) => .ok (s, v)
  | (.element y index, true) => do
    let (a, v) ← step (moveOut e.moved (s y).slots index)
    .ok (Function.update s y ((s y).withSlots a (s y).size), v)
  | (.element y index, false) => do
    let v ← step (read (s y).slots index)
    .ok (s, v)

/-- The arguments of a constructor, which reads them in order. -/
def fetchAll (e : Element α) (s : World ι α) :
    List (Source ι α × Bool) → Except Fault (World ι α × List α)
  | [] => .ok (s, [])
  | arg :: rest => do
    let (s, v) ← fetch e s arg
    let (s, vs) ← fetchAll e s rest
    .ok (s, v :: vs)

def insertAtEnd (e : Element α) (s : World ι α) (x : ι) (args : List (Source ι α × Bool))
    (build : List α → α) (granted : Bool) : Except Fault (World ι α × α) := do
  let currentSize := (s x).size
  let newCap ← calculateNewCapacity currentSize
  let newBlock ← allocate e granted newCap
  let (s, vs) ← fetchAll e s args
  let newBlock ← step (construct newBlock currentSize (build vs))
  let newBlock ← moveElements e (s x) newBlock
  .ok (Function.update s x ⟨some newBlock, currentSize + 1⟩, build vs)

def emplaceBack (e : Element α) (s : World ι α) (x : ι) (args : List (Source ι α × Bool))
    (build : List α → α) (granted : Bool) : Except Fault (World ι α × α) :=
  if (s x).size < (s x).capacity then do
    let (s, vs) ← fetchAll e s args
    let a ← step (construct (s x).slots (s x).size (build vs))
    .ok (Function.update s x ((s x).withSlots a ((s x).size + 1)), build vs)
  else insertAtEnd e s x args build granted

/-- `push_back` constructs from the one argument that it has. -/
def pushBack (e : Element α) (s : World ι α) (x : ι) (arg : Source ι α × Bool) (granted : Bool) :
    Except Fault (World ι α) := do
  let (s, _) ← emplaceBack e s x [arg] (·.headD e.fresh) granted
  .ok s

/-- The loop over a range, with an answer of the allocator for each `push_back`. -/
def pushRange (e : Element α) (s : World ι α) (x : ι) :
    List (Source ι α × Bool) → Except Fault (World ι α)
  | [] => .ok s
  | (src, granted) :: rest => do
    let s ← pushBack e s x (src, false) granted
    pushRange e s x rest

/-- The growth of an `insert` that needs room for `required` elements. -/
def growFor (e : Element α) (granted : Bool) (v : Vector α) (required : ℕ) :
    Except Fault (Vector α) := do
  let newCap ← calculateNewCapacity required
  growCapacity e granted v newCap

/-- The growth of an `insert` that does not always need it. -/
def growForWhen (e : Element α) (grows granted : Bool) (v : Vector α) (required : ℕ) :
    Except Fault (Vector α) :=
  if grows then growFor e granted v required else .ok v

def insert (e : Element α) (s : World ι α) (x : ι) (pos : ℕ) (arg : Source ι α × Bool)
    (granted : Bool) : Except Fault (World ι α) := do
  let (s, value) ← fetch e s arg
  let v ← growForWhen e ((s x).size = (s x).capacity) granted (s x) (s x).size
  let a ← step (makeHoleForInsert e v.slots v.size pos 1)
  let a ← step (if pos < v.size then assign a pos value else construct a pos value)
  .ok (Function.update s x (v.withSlots a (v.size + 1)))

def insertCount (e : Element α) (s : World ι α) (x : ι) (pos count : ℕ) (src : Source ι α)
    (granted : Bool) : Except Fault (World ι α) :=
  if count = 0 then .ok s
  else do
    let value ← look none s src
    let required ← checked (checkedCountSum (s x).size count)
    let v ← growForWhen e ((s x).capacity < required) granted (s x) required
    let elementsAfter := v.size - pos
    let a ← step (makeHoleForInsert e v.slots v.size pos count)
    let a ← step (place a pos (min count elementsAfter) (List.replicate count value))
    .ok (Function.update s x (v.withSlots a (v.size + count)))

/-- The loop of `insert` over the second pass of its range. -/
def placeRange (freed : Option ι) (s : World ι α) (x : ι) (dest assigned : ℕ) :
    List (Source ι α) → Except Fault (World ι α)
  | [] => .ok s
  | src :: rest => do
    let value ← look freed s src
    let a ← step (if 0 < assigned then assign (s x).slots dest value
      else construct (s x).slots dest value)
    placeRange freed (Function.update s x ((s x).withSlots a (s x).size)) x (dest + 1)
      (assigned - 1) rest

/-- The first pass over the range comes upon `count` elements, the second one upon `args`. -/
def insertRange (e : Element α) (s : World ι α) (x : ι) (pos count : ℕ)
    (args : List (Source ι α)) (granted : Bool) : Except Fault (World ι α) :=
  if count = 0 then .ok s
  else do
    let required ← checked (checkedCountSum (s x).size count)
    let grows : Bool := (s x).capacity < required
    let v ← growForWhen e grows granted (s x) required
    let elementsAfter := v.size - pos
    let a ← step (makeHoleForInsert e v.slots v.size pos count)
    let s ← placeRange (if grows then some x else none)
      (Function.update s x (v.withSlots a v.size)) x pos (min count elementsAfter) args
    .ok (Function.update s x { s x with size := (s x).size + count })

def resizeFill (e : Element α) (s : World ι α) (x : ι) (newSize : ℕ) (src : Source ι α)
    (granted : Bool) : Except Fault (World ι α) :=
  if (s x).size < newSize then do
    let value ← look none s src
    let v ← fillTo e granted (s x) newSize value
    .ok (Function.update s x v)
  else if newSize < (s x).size then do
    let v ← shrinkTo (s x) newSize
    .ok (Function.update s x v)
  else .ok s

def assignFill (e : Element α) (s : World ι α) (x : ι) (count : ℕ) (src : Source ι α)
    (granted : Bool) : Except Fault (World ι α) := do
  let v ← clear (s x)
  resizeFill e (Function.update s x v) x count src granted

def assignRange (e : Element α) (s : World ι α) (x : ι) (args : List (Source ι α × Bool)) :
    Except Fault (World ι α) := do
  let v ← clear (s x)
  pushRange e (Function.update s x v) x args

/-- The fill constructor. -/
def ofFill (e : Element α) (s : World ι α) (count : ℕ) (src : Source ι α) (granted : Bool) :
    Except Fault (Vector α) :=
  if 0 < count then do
    let value ← look none s src
    ofValues e granted (List.replicate count value)
  else .ok new

def constructRange (e : Element α) (s : World ι α) (x : ι) (args : List (Source ι α × Bool)) :
    Except Fault (World ι α) := do
  release (s x)
  pushRange e (Function.update s x new) x args

def copyAssign (e : Element α) (s : World ι α) (x y : ι) (granted : Bool) :
    Except Fault (World ι α) :=
  if x = y then .ok s
  else do
    release (s x)
    let v ← copyOf e granted (s y)
    .ok (Function.update s x v)

def moveAssign (s : World ι α) (x y : ι) : Except Fault (World ι α) :=
  if x = y then .ok s
  else do
    release (s x)
    .ok (Function.update (Function.update s x (s y)) y new)

def swap (s : World ι α) (x y : ι) : World ι α :=
  Function.update (Function.update s x (s y)) y (s x)

/-- A constructor makes a new object where another one is destroyed. -/
inductive Call (ι α : Type) where
  | construct (x : ι)
  | constructCount (x : ι) (count : ℕ) (granted : Bool)
  | constructFill (x : ι) (count : ℕ) (src : Source ι α) (granted : Bool)
  | constructRange (x : ι) (args : List (Source ι α × Bool))
  | constructReserve (x : ι) (reserveCount : ℕ) (kForData granted : Bool)
  | constructList (x : ι) (values : List α) (granted : Bool)
  | copyConstruct (x y : ι) (granted : Bool)
  | moveConstruct (x y : ι)
  | copyAssign (x y : ι) (granted : Bool)
  | moveAssign (x y : ι)
  | resizeFill (x : ι) (newSize : ℕ) (src : Source ι α) (granted : Bool)
  | resize (x : ι) (newSize : ℕ) (granted : Bool)
  | reserve (x : ι) (newReservedCapacity : ℕ) (granted : Bool)
  | shrinkToFit (x : ι) (granted : Bool)
  | pushBack (x : ι) (arg : Source ι α × Bool) (granted : Bool)
  | emplaceBack (x : ι) (args : List (Source ι α × Bool)) (build : List α → α) (granted : Bool)
  | popBack (x : ι)
  | insert (x : ι) (pos : ℕ) (arg : Source ι α × Bool) (granted : Bool)
  | insertCount (x : ι) (pos count : ℕ) (src : Source ι α) (granted : Bool)
  | insertRange (x : ι) (pos count : ℕ) (args : List (Source ι α)) (granted : Bool)
  | eraseAt (x : ι) (pos : ℕ)
  | erasePointer (x : ι) (offset : ℤ)
  | eraseRange (x : ι) (first last : ℕ)
  | clear (x : ι)
  | assignFill (x : ι) (count : ℕ) (src : Source ι α) (granted : Bool)
  | assignRange (x : ι) (args : List (Source ι α × Bool))
  | reset (x : ι)
  | swap (x y : ι)

inductive Reply (α : Type) where
  | done
  | value (v : α)
  | index (i : ℕ)
  | found (b : Bool)
  deriving DecidableEq, Repr

def update (s : World ι α) (x : ι) (result : Except Fault (Vector α)) :
    Except Fault (World ι α × Reply α) := do
  let v ← result
  .ok (Function.update s x v, .done)

def reply (r : Reply α) (result : Except Fault (World ι α)) :
    Except Fault (World ι α × Reply α) := do
  let s ← result
  .ok (s, r)

def replyFound (s : World ι α) (x : ι) (result : Except Fault (Vector α × Bool)) :
    Except Fault (World ι α × Reply α) := do
  let (v, b) ← result
  .ok (Function.update s x v, .found b)

/-- The destructor of the old object, and a constructor in its place. -/
def renew (v : Vector α) (result : Except Fault (Vector α)) : Except Fault (Vector α) := do
  release v
  result

def exec (e : Element α) (s : World ι α) : Call ι α → Except Fault (World ι α × Reply α)
  | .construct x => update s x (renew (s x) (.ok new))
  | .constructCount x count granted =>
    update s x (renew (s x) (ofValues e granted (List.replicate count e.fresh)))
  | .constructFill x count src granted => update s x (renew (s x) (ofFill e s count src granted))
  | .constructRange x args => reply .done (constructRange e s x args)
  | .constructReserve x reserveCount kForData granted =>
    update s x (renew (s x) (ofReserve e granted reserveCount kForData))
  | .constructList x values granted => update s x (renew (s x) (ofValues e granted values))
  | .copyConstruct x y granted => update s x (renew (s x) (copyOf e granted (s y)))
  | .moveConstruct x y => reply .done do
    release (s x)
    .ok (Function.update (Function.update s x (s y)) y new)
  | .copyAssign x y granted => reply .done (copyAssign e s x y granted)
  | .moveAssign x y => reply .done (moveAssign s x y)
  | .resizeFill x newSize src granted => reply .done (resizeFill e s x newSize src granted)
  | .resize x newSize granted => update s x (resize e granted (s x) newSize)
  | .reserve x newReservedCapacity granted =>
    update s x (reserve e granted (s x) newReservedCapacity)
  | .shrinkToFit x granted => do
    let v ← shrinkToFit e granted (s x)
    .ok (Function.update s x v, .index v.size)
  | .pushBack x arg granted => reply .done (pushBack e s x arg granted)
  | .emplaceBack x args build granted => do
    let (s, v) ← emplaceBack e s x args build granted
    .ok (s, .value v)
  | .popBack x => update s x (popBack (s x))
  | .insert x pos arg granted => reply (.index pos) (insert e s x pos arg granted)
  | .insertCount x pos count src granted => reply .done (insertCount e s x pos count src granted)
  | .insertRange x pos count args granted => reply .done (insertRange e s x pos count args granted)
  | .eraseAt x pos => replyFound s x (eraseAt e (s x) pos)
  | .erasePointer x offset => replyFound s x (erasePointer e (s x) offset)
  | .eraseRange x first last => do
    let v ← eraseRange e (s x) first last
    .ok (Function.update s x v, .index first)
  | .clear x => update s x (clear (s x))
  | .assignFill x count src granted => reply .done (assignFill e s x count src granted)
  | .assignRange x args => reply .done (assignRange e s x args)
  | .reset x => update s x (reset (s x))
  | .swap x y => .ok (swap s x y, .done)

end Calls

end Vector

end Equilibrium
