import Equilibrium.Library.LinkedChain

/-! The map of `base/containers/hash_map.h`. A node is an address, and each field of the
nodes is a function of the address; a deleted node keeps what it held. A `Node**` is the
slot of a bucket or the `next` of a node. Loops are given a number of rounds and give
nothing without. An allocation that fails ends the program and is left out. -/

namespace Equilibrium.ChainedHashMap

open Function (update)

structure HashMap (K V : Type) where
  buckets : ℕ → Option ℕ
  bucketCount : ℕ
  bucketShift : ℕ
  size : ℕ
  hasher : K → UInt64
  equal : K → K → Bool
  value : ℕ → K × V
  next : ℕ → Option ℕ
  hash : ℕ → UInt64
  /-- Addresses below this one were handed out. -/
  allocated : ℕ

variable {K V : Type}

def bucketOf (shift : ℕ) (h : UInt64) : ℕ := (h * 0x9E3779B97F4A7C15).toNat >>> (64 - shift)

/-- The loop of `RoundUpToPowerOfTwo`. -/
def roundUpLoop (n : ℕ) : ℕ → ℕ → Option ℕ
  | 0, _ => none
  | rounds + 1, p => if p < n then roundUpLoop n rounds (p * 2 % UInt64.size) else some p

def roundUpToPowerOfTwo (n : ℕ) : Option ℕ := roundUpLoop n 65 16

/-- The loop of `Rehash` for the shift. -/
def shiftLoop (count : ℕ) : ℕ → ℕ → Option ℕ
  | 0, _ => none
  | rounds + 1, shift =>
    if 1 <<< shift < count then shiftLoop count rounds (shift + 1) else some shift

namespace HashMap

/-- `HashMap()`, on what the memory holds. -/
def construct (memory : HashMap K V) : HashMap K V :=
  { memory with buckets := fun _ => none, bucketCount := 0, bucketShift := 0, size := 0 }

def firstNode (m : HashMap K V) : Option ℕ := (List.range m.bucketCount).findSome? m.buckets

def nextNode (m : HashMap K V) (node : ℕ) : Option ℕ :=
  match m.next node with
  | some next => some next
  | none =>
    let b := bucketOf m.bucketShift (m.hash node) + 1
    (List.range' b (m.bucketCount - b)).findSome? m.buckets

/-- `*link`, in bucket `b`. -/
def slot (m : HashMap K V) (b : ℕ) : Option ℕ → Option ℕ
  | none => m.buckets b
  | some node => m.next node

def setSlot (m : HashMap K V) (b : ℕ) (link p : Option ℕ) : HashMap K V :=
  match link with
  | none => { m with buckets := update m.buckets b p }
  | some node => { m with next := update m.next node p }

/-- The loop down a chain for a key, with the link that it came over. -/
def matchLoop (m : HashMap K V) (h : UInt64) (key : K) :
    ℕ → Option ℕ → Option ℕ → Option (Option (Option ℕ × ℕ))
  | 0, _, _ => none
  | _ + 1, _, none => some none
  | rounds + 1, link, some node =>
    if m.hash node = h ∧ m.equal (m.value node).1 key then some (some (link, node))
    else matchLoop m h key rounds (some node) (m.next node)

def findNode (m : HashMap K V) (key : K) (h : UInt64) : Option (Option ℕ) :=
  if m.bucketCount = 0 then some none
  else do
    let found ← m.matchLoop h key (m.allocated + 1) none (m.buckets (bucketOf m.bucketShift h))
    some (found.map Prod.snd)

/-- `node` goes to the front of the chain of bucket `b`. -/
def pushFront (m : HashMap K V) (b node : ℕ) : HashMap K V :=
  let m := { m with next := update m.next node (m.buckets b) }
  { m with buckets := update m.buckets b (some node) }

/-- The loop of `Rehash` down an old chain. -/
def relinkLoop : ℕ → HashMap K V → Option ℕ → Option (HashMap K V)
  | 0, _, _ => none
  | _ + 1, m, none => some m
  | rounds + 1, m, some node =>
    let next := m.next node
    relinkLoop rounds (m.pushFront (bucketOf m.bucketShift (m.hash node)) node) next

/-- The memory with an empty table, which takes the old one's place in `Rehash`. -/
def freshTable (m : HashMap K V) (count shift : ℕ) : HashMap K V :=
  { m with buckets := fun _ => none, bucketCount := count, bucketShift := shift }

/-- `Rehash`; a block smaller than the buckets in it is written past its end. -/
def rehash (m : HashMap K V) (wanted : ℕ) : Option (HashMap K V) := do
  let count ← roundUpToPowerOfTwo wanted
  let shift ← shiftLoop count 65 0
  if count * 8 % UInt64.size < count * 8 then none
  else
    (List.range m.bucketCount).foldlM
      (fun fresh b => relinkLoop (m.allocated + 1) fresh (m.buckets b)) (m.freshTable count shift)

def reserve (m : HashMap K V) (count : ℕ) : Option (HashMap K V) :=
  if count > m.bucketCount then m.rehash count else some m

/-- `new (memory) Node(h, key, value)` -/
def newNode (m : HashMap K V) (h : UInt64) (key : K) (value : V) : HashMap K V :=
  { m with
    value := update m.value m.allocated (key, value)
    next := update m.next m.allocated none
    hash := update m.hash m.allocated h
    allocated := m.allocated + 1 }

/-- The part of `Link` behind the rehash. -/
def linkNode (m : HashMap K V) (h : UInt64) (key : K) (value : V) : HashMap K V × ℕ :=
  let node := m.allocated
  let m := (m.newNode h key value).pushFront (bucketOf m.bucketShift h) node
  ({ m with size := m.size + 1 }, node)

def link (m : HashMap K V) (h : UInt64) (key : K) (value : V) : Option (HashMap K V × ℕ) :=
  if m.size + 1 > m.bucketCount then do
    let m ← m.rehash (m.size + 1)
    some (m.linkNode h key value)
  else some (m.linkNode h key value)

def emplace (m : HashMap K V) (key : K) (value : V) : Option (HashMap K V × ℕ × Bool) := do
  let h := m.hasher key
  match ← m.findNode key h with
  | some node => some (m, node, false)
  | none => do
    let (m, node) ← m.link h key value
    some (m, node, true)

def setSecond (m : HashMap K V) (node : ℕ) (value : V) : HashMap K V :=
  { m with value := update m.value node ((m.value node).1, value) }

def insertOrAssign (m : HashMap K V) (key : K) (value : V) :
    Option (HashMap K V × ℕ × Bool) := do
  match ← m.findNode key (m.hasher key) with
  | some node => some (m.setSecond node value, node, false)
  | none => m.emplace key value

/-- The node behind `link` goes from the chain of bucket `b`, and `Destroy`. -/
def unlink (m : HashMap K V) (b : ℕ) (link : Option ℕ) (node : ℕ) : HashMap K V :=
  let m := m.setSlot b link (m.next node)
  { m with size := m.size - 1 }

def eraseKey (m : HashMap K V) (key : K) : Option (HashMap K V × ℕ) :=
  if m.bucketCount = 0 then some (m, 0)
  else do
    let h := m.hasher key
    let b := bucketOf m.bucketShift h
    match ← m.matchLoop h key (m.allocated + 1) none (m.buckets b) with
    | some (link, node) => some (m.unlink b link node, 1)
    | none => some (m, 0)

/-- The loop of `erase(iterator)` to the link that leads to the victim. -/
def victimLoop (m : HashMap K V) (b victim : ℕ) : ℕ → Option ℕ → Option (Option ℕ)
  | 0, _ => none
  | rounds + 1, link =>
    match m.slot b link with
    | none => none
    | some node => if node = victim then some link else victimLoop m b victim rounds (some node)

/-- `erase(iterator)` -/
def eraseAt (m : HashMap K V) (victim : ℕ) : Option (HashMap K V × Option ℕ) := do
  let next := m.nextNode victim
  let b := bucketOf m.bucketShift (m.hash victim)
  let link ← m.victimLoop b victim (m.allocated + 1) none
  some (m.unlink b link victim, next)

def clear (m : HashMap K V) : HashMap K V :=
  { m with buckets := fun b => if b < m.bucketCount then none else m.buckets b, size := 0 }

def release (m : HashMap K V) : HashMap K V :=
  { m.clear with buckets := fun _ => none, bucketCount := 0, bucketShift := 0 }

/-- The loop of `CopyFrom`. -/
def copyLoop (other : HashMap K V) : ℕ → HashMap K V → Option ℕ → Option (HashMap K V)
  | 0, _, _ => none
  | _ + 1, m, none => some m
  | rounds + 1, m, some node => do
    let (m, _, _) ← m.emplace (other.value node).1 (other.value node).2
    copyLoop other rounds m (other.nextNode node)

def copyFrom (m other : HashMap K V) : Option (HashMap K V) := do
  let m ← m.reserve other.size
  copyLoop other (other.allocated + 1) m other.firstNode

/-- `HashMap(const HashMap& other)` -/
def copyConstruct (memory other : HashMap K V) : Option (HashMap K V) :=
  { construct memory with hasher := other.hasher, equal := other.equal }.copyFrom other

def copyAssign (m other : HashMap K V) : Option (HashMap K V) :=
  { m.release with hasher := other.hasher, equal := other.equal }.copyFrom other

/-- What `StealFrom` leaves in `other`; the target holds what `other` held. -/
def stolen (other : HashMap K V) : HashMap K V :=
  { other with buckets := fun _ => none, bucketCount := 0, bucketShift := 0, size := 0 }

def Contains (m : HashMap K V) (node : ℕ) : Prop :=
  ∃ b < m.bucketCount, Library.LinkedChain.Reach m.next (m.buckets b) node

end HashMap

/-- The maps that a program can have. -/
inductive Reachable : HashMap K V → Prop
  | construct (memory : HashMap K V) : Reachable memory.construct
  | copyConstruct {other m : HashMap K V} (memory : HashMap K V) (ho : Reachable other)
      (hop : memory.copyConstruct other = some m) : Reachable m
  | copyAssign {m other m' : HashMap K V} (h : Reachable m) (ho : Reachable other)
      (hop : m.copyAssign other = some m') : Reachable m'
  | stolen {other : HashMap K V} (ho : Reachable other) : Reachable other.stolen
  | reserve {m m' : HashMap K V} {count : ℕ} (h : Reachable m)
      (hop : m.reserve count = some m') : Reachable m'
  | emplace {m m' : HashMap K V} {key : K} {value : V} {node : ℕ} {inserted : Bool}
      (h : Reachable m) (hop : m.emplace key value = some (m', node, inserted)) : Reachable m'
  | insertOrAssign {m m' : HashMap K V} {key : K} {value : V} {node : ℕ} {inserted : Bool}
      (h : Reachable m) (hop : m.insertOrAssign key value = some (m', node, inserted)) :
      Reachable m'
  | setSecond {m : HashMap K V} {node : ℕ} (value : V) (h : Reachable m) :
      Reachable (m.setSecond node value)
  | eraseKey {m m' : HashMap K V} {key : K} {count : ℕ} (h : Reachable m)
      (hop : m.eraseKey key = some (m', count)) : Reachable m'
  | eraseAt {m m' : HashMap K V} {victim : ℕ} {next : Option ℕ} (h : Reachable m)
      (hit : m.Contains victim) (hop : m.eraseAt victim = some (m', next)) : Reachable m'
  | clear {m : HashMap K V} (h : Reachable m) : Reachable m.clear

end Equilibrium.ChainedHashMap
