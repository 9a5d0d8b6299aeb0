import Mathlib.Tactic.Common
import Mathlib.Algebra.Group.Nat.Defs

/-! The map of `base/containers/concurrent_ordered_map.h`. Each operation runs under the
lock of the map and is one step. A node is its address, a null pointer is `none`, and
`nodes` holds the nodes that were allocated and not deleted: an access to another one
stops. The allocator may hand out any address that is free. A walk that goes on for more
nodes than there are addresses stops as one that does not end. -/

namespace Equilibrium

structure ConcurrentOrderedMap.Node (Key Value : Type) where
  key : Key
  value : Value
  next : Option ℕ
  orderNext : Option ℕ
  orderPrev : Option ℕ

structure ConcurrentOrderedMap (Key Value : Type) where
  buckets : ℕ → Option ℕ
  bucketCount : ℕ
  orderHead : Option ℕ
  orderTail : Option ℕ
  size : ℕ
  nodes : ℕ → Option (ConcurrentOrderedMap.Node Key Value)

namespace ConcurrentOrderedMap

inductive Stop where
  | outOfRounds
  | deadNode
  | badAddress
  deriving DecidableEq, Repr

abbrev Outcome := Except Stop

def addressSpace : ℕ := 2 ^ 64

/-- `mem_size` counts modulo this. -/
def sizeRange : ℕ := 2 ^ 64

variable {Key Value : Type}

/-- `ConcurrentOrderedMap(mem_size bucketCount)`, for more than no buckets -/
def construct (bucketCount : ℕ) : ConcurrentOrderedMap Key Value :=
  ⟨fun _ => none, bucketCount, none, none, 0, fun _ => none⟩

def put (m : ConcurrentOrderedMap Key Value) (x : ℕ) (n : Node Key Value) :
    ConcurrentOrderedMap Key Value :=
  { m with nodes := Function.update m.nodes x (some n) }

def setBucket (m : ConcurrentOrderedMap Key Value) (idx : ℕ) (p : Option ℕ) :
    ConcurrentOrderedMap Key Value :=
  { m with buckets := Function.update m.buckets idx p }

def load (m : ConcurrentOrderedMap Key Value) (x : ℕ) : Outcome (Node Key Value) :=
  match m.nodes x with
  | some n => .ok n
  | none => .error .deadNode

def store (m : ConcurrentOrderedMap Key Value) (x : ℕ) (f : Node Key Value → Node Key Value) :
    Outcome (ConcurrentOrderedMap Key Value) := do
  let n ← m.load x
  return m.put x (f n)

/-- `new Node(key, value)` at the address that the allocator chose -/
def newNode (m : ConcurrentOrderedMap Key Value) (address : ℕ) (key : Key) (value : Value) :
    Outcome (ConcurrentOrderedMap Key Value) :=
  if 0 < address ∧ address < addressSpace ∧ (m.nodes address).isNone then
    .ok (m.put address ⟨key, value, none, none, none⟩)
  else .error .badAddress

def free (m : ConcurrentOrderedMap Key Value) (x : ℕ) : ConcurrentOrderedMap Key Value :=
  { m with nodes := Function.update m.nodes x none }

/-- `delete x` -/
def deleteNode (m : ConcurrentOrderedMap Key Value) (x : ℕ) :
    Outcome (ConcurrentOrderedMap Key Value) := do
  let _ ← m.load x
  return m.free x

/-- `orderNext` of the node before, or the head where there is none -/
def setOrderNext (m : ConcurrentOrderedMap Key Value) (prev v : Option ℕ) :
    Outcome (ConcurrentOrderedMap Key Value) :=
  match prev with
  | some prev => m.store prev fun n => { n with orderNext := v }
  | none => .ok { m with orderHead := v }

/-- `orderPrev` of the node behind, or the tail where there is none -/
def setOrderPrev (m : ConcurrentOrderedMap Key Value) (next v : Option ℕ) :
    Outcome (ConcurrentOrderedMap Key Value) :=
  match next with
  | some next => m.store next fun n => { n with orderPrev := v }
  | none => .ok { m with orderTail := v }

def orderListAppend (m : ConcurrentOrderedMap Key Value) (node : ℕ) :
    Outcome (ConcurrentOrderedMap Key Value) := do
  let m ← m.store node fun n => { n with orderPrev := m.orderTail, orderNext := none }
  let m ← m.setOrderNext m.orderTail (some node)
  return { m with orderTail := some node }

def orderListUnlink (m : ConcurrentOrderedMap Key Value) (node : ℕ) :
    Outcome (ConcurrentOrderedMap Key Value) := do
  let n ← m.load node
  let m ← m.setOrderNext n.orderPrev n.orderNext
  let n ← m.load node
  m.setOrderPrev n.orderNext n.orderPrev

def incrementSize (m : ConcurrentOrderedMap Key Value) : ConcurrentOrderedMap Key Value :=
  { m with size := (m.size + 1) % sizeRange }

def decrementSize (m : ConcurrentOrderedMap Key Value) : ConcurrentOrderedMap Key Value :=
  { m with size := if m.size = 0 then sizeRange - 1 else m.size - 1 }

/-- `next` of the node before, or the bucket where there is none -/
def setNext (m : ConcurrentOrderedMap Key Value) (idx : ℕ) (prev v : Option ℕ) :
    Outcome (ConcurrentOrderedMap Key Value) :=
  match prev with
  | some prev => m.store prev fun n => { n with next := v }
  | none => .ok (m.setBucket idx v)

/-- What `remove` does with a node of the key that it came to from `prev`. -/
def removeNode (m : ConcurrentOrderedMap Key Value) (idx : ℕ) (prev : Option ℕ) (current : ℕ) :
    Outcome (ConcurrentOrderedMap Key Value) := do
  let n ← m.load current
  let m ← m.setNext idx prev n.next
  let m ← m.orderListUnlink current
  let m ← m.deleteNode current
  return m.decrementSize

/-- The walk of `clear`. -/
def deleteLoop : ℕ → ConcurrentOrderedMap Key Value → Option ℕ →
    Outcome (ConcurrentOrderedMap Key Value)
  | _, m, none => .ok m
  | 0, _, some _ => .error .outOfRounds
  | rounds + 1, m, some n => do
    let node ← m.load n
    let m ← m.deleteNode n
    deleteLoop rounds m node.orderNext

def clear (m : ConcurrentOrderedMap Key Value) : Outcome (ConcurrentOrderedMap Key Value) := do
  let m ← deleteLoop addressSpace m m.orderHead
  return { m with
    buckets := fun i => if i < m.bucketCount then none else m.buckets i
    orderHead := none
    orderTail := none
    size := 0 }

def orderLoop (m : ConcurrentOrderedMap Key Value) : ℕ → Option ℕ → Outcome (List (Key × Value))
  | _, none => .ok []
  | 0, some _ => .error .outOfRounds
  | rounds + 1, some n => do
    let node ← m.load n
    let rest ← orderLoop m rounds node.orderNext
    return (node.key, node.value) :: rest

/-- `for_each_in_order`: the arguments that its functor gets, in turn -/
def forEachInOrder (m : ConcurrentOrderedMap Key Value) : Outcome (List (Key × Value)) :=
  m.orderLoop addressSpace m.orderHead

section Keys

variable [Hashable Key]

def bucketIndex (m : ConcurrentOrderedMap Key Value) (key : Key) : ℕ :=
  (hash key).toNat % m.bucketCount

def bucketPushFront (m : ConcurrentOrderedMap Key Value) (node : ℕ) :
    Outcome (ConcurrentOrderedMap Key Value) := do
  let n ← m.load node
  let idx := m.bucketIndex n.key
  let m ← m.store node fun n => { n with next := m.buckets idx }
  return m.setBucket idx (some node)

def insert (m : ConcurrentOrderedMap Key Value) (address : ℕ) (key : Key) (value : Value) :
    Outcome (ConcurrentOrderedMap Key Value) := do
  let m ← m.newNode address key value
  let m ← m.bucketPushFront address
  let m ← m.orderListAppend address
  return m.incrementSize

variable [BEq Key]

/-- The first node of the key: the walk of `insert_or_assign`, of `find` and of
`contains`. -/
def findLoop (m : ConcurrentOrderedMap Key Value) (key : Key) :
    ℕ → Option ℕ → Outcome (Option ℕ)
  | _, none => .ok none
  | 0, some _ => .error .outOfRounds
  | rounds + 1, some n => do
    let node ← m.load n
    if node.key == key then return some n else findLoop m key rounds node.next

def findNode (m : ConcurrentOrderedMap Key Value) (key : Key) : Outcome (Option ℕ) :=
  m.findLoop key addressSpace (m.buckets (m.bucketIndex key))

def insertOrAssign (m : ConcurrentOrderedMap Key Value) (address : ℕ) (key : Key)
    (value : Value) : Outcome (ConcurrentOrderedMap Key Value × Bool) := do
  match ← m.findNode key with
  | some n =>
    let m ← m.store n fun node => { node with value := value }
    return (m, false)
  | none =>
    let idx := m.bucketIndex key
    let m ← m.newNode address key value
    let m ← m.store address fun node => { node with next := m.buckets idx }
    let m := m.setBucket idx (some address)
    let m ← m.orderListAppend address
    return (m.incrementSize, true)

def removeLoop (m : ConcurrentOrderedMap Key Value) (key : Key) (idx : ℕ) :
    ℕ → Option ℕ → Option ℕ → Outcome (ConcurrentOrderedMap Key Value × Bool)
  | _, _, none => .ok (m, false)
  | 0, _, some _ => .error .outOfRounds
  | rounds + 1, prev, some current => do
    let node ← m.load current
    if node.key == key then
      let m ← m.removeNode idx prev current
      return (m, true)
    else removeLoop m key idx rounds (some current) node.next

def remove (m : ConcurrentOrderedMap Key Value) (key : Key) :
    Outcome (ConcurrentOrderedMap Key Value × Bool) :=
  let idx := m.bucketIndex key
  m.removeLoop key idx addressSpace none (m.buckets idx)

def find (m : ConcurrentOrderedMap Key Value) (key : Key) : Outcome (Option Value) := do
  match ← m.findNode key with
  | some n =>
    let node ← m.load n
    return some node.value
  | none => return none

def contains (m : ConcurrentOrderedMap Key Value) (key : Key) : Outcome Bool := do
  return (← m.findNode key).isSome

inductive Act (Key Value : Type) where
  | insert (address : ℕ) (key : Key) (value : Value)
  | insertOrAssign (address : ℕ) (key : Key) (value : Value)
  | remove (key : Key)
  | clear

def perform (m : ConcurrentOrderedMap Key Value) :
    Act Key Value → Outcome (ConcurrentOrderedMap Key Value × Option Bool)
  | .insert address key value => do return (← m.insert address key value, none)
  | .insertOrAssign address key value => do
    let (m, created) ← m.insertOrAssign address key value
    return (m, some created)
  | .remove key => do
    let (m, found) ← m.remove key
    return (m, some found)
  | .clear => do return (← m.clear, none)

def run (m : ConcurrentOrderedMap Key Value) :
    List (Act Key Value) → Outcome (ConcurrentOrderedMap Key Value × List (Option Bool))
  | [] => .ok (m, [])
  | a :: rest => do
    let (m, reply) ← m.perform a
    let (m, replies) ← run m rest
    return (m, reply :: replies)

end Keys

/-! The entries that a run leaves, in the order in which they came in. -/

structure Entry (Key Value : Type) where
  address : ℕ
  key : Key
  value : Value
  deriving DecidableEq

section Entries

variable [BEq Key]

def latest (key : Key) (es : List (Entry Key Value)) : Option (Entry Key Value) :=
  es.reverse.find? fun e => e.key == key

def assignEntry (e : Entry Key Value) (value : Value) (es : List (Entry Key Value)) :
    List (Entry Key Value) :=
  es.map fun f => if f.address = e.address then { f with value := value } else f

def removeEntry (e : Entry Key Value) (es : List (Entry Key Value)) : List (Entry Key Value) :=
  es.filter fun f => f.address ≠ e.address

def Act.result (es : List (Entry Key Value)) :
    Act Key Value → List (Entry Key Value) × Option Bool
  | .insert address key value => (es ++ [⟨address, key, value⟩], none)
  | .insertOrAssign address key value =>
    match latest key es with
    | some e => (assignEntry e value es, some false)
    | none => (es ++ [⟨address, key, value⟩], some true)
  | .remove key =>
    match latest key es with
    | some e => (removeEntry e es, some true)
    | none => (es, some false)
  | .clear => ([], none)

def results (es : List (Entry Key Value)) :
    List (Act Key Value) → List (Entry Key Value) × List (Option Bool)
  | [] => (es, [])
  | a :: rest =>
    ((results (a.result es).1 rest).1, (a.result es).2 :: (results (a.result es).1 rest).2)

end Entries

end ConcurrentOrderedMap

end Equilibrium
