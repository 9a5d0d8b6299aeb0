import Equilibrium.Library.LinkedChain
import Equilibrium.Library.Calls
import Mathlib.Data.Int.Notation

/-! The map of `base/containers/lock_free_ordered_map.h`, used by one thread. A node is
its address and a null pointer is `none`; a freed node keeps its place, and a call that
touches it stops. The staging stack is the list of its nodes from the head on. A weak
exchange fails spuriously as often as the call says, and loops over the nodes are given
as many rounds as nodes were ever allocated. The guard of a call is gone before the
epoch can advance and is left out. -/

namespace Equilibrium.LockFreeOrderedHashMap

inductive Stop where
  | outOfRounds
  | freedNode
  deriving DecidableEq, Repr

abbrev Outcome := Except Stop

structure Node (Key Value : Type) where
  key : Key
  value : Value
  bucketNext : Option ℕ
  orderNext : Option ℕ
  isDeleted : Bool
  bucketSwept : Bool
  orderSwept : Bool
  retiredEpoch : ℤ
  freed : Bool
  deriving DecidableEq

/-- `Node(k, v)` -/
def Node.new {Key Value : Type} (key : Key) (value : Value) : Node Key Value :=
  ⟨key, value, none, none, false, false, false, -1, false⟩

structure Map (Key Value : Type) where
  buckets : ℕ → Option ℕ
  bucketCount : ℕ
  nodes : ℕ → Option (Node Key Value)
  /-- Addresses below this one were handed out. -/
  allocated : ℕ
  orderHead : Option ℕ
  orderTail : Option ℕ
  staging : List ℕ
  allNodes : List ℕ

variable {Key Value : Type}

/-- `LockFreeOrderedHashMap(mem_size count)` -/
def construct (count : ℕ) : Map Key Value :=
  ⟨fun _ => none, if count > 0 then count else 1, fun _ => none, 0, none, none, [], []⟩

/-- A pointer of a bucket chain, which a walk holds as `prev_ptr`. -/
inductive Link where
  | bucket (index : ℕ)
  | node (x : ℕ)
  deriving DecidableEq

namespace Map

@[simps] def newNode (m : Map Key Value) (key : Key) (value : Value) : Map Key Value :=
  { m with
    nodes := Function.update m.nodes m.allocated (some (.new key value))
    allocated := m.allocated + 1 }

@[simps] def modify (m : Map Key Value) (x : ℕ) (f : Node Key Value → Node Key Value) :
    Map Key Value :=
  { m with nodes := Function.update m.nodes x ((m.nodes x).map f) }

@[simps] def storeBucket (m : Map Key Value) (index : ℕ) (p : Option ℕ) : Map Key Value :=
  { m with buckets := Function.update m.buckets index p }

/-- `delete x` -/
def deleteNode (m : Map Key Value) (x : ℕ) : Map Key Value :=
  m.modify x fun n => { n with freed := true }

def bucketNext (m : Map Key Value) (x : ℕ) : Option ℕ := (m.nodes x).bind (·.bucketNext)

def orderNext (m : Map Key Value) (x : ℕ) : Option ℕ := (m.nodes x).bind (·.orderNext)

def link (m : Map Key Value) : Link → Option ℕ
  | .bucket index => m.buckets index
  | .node x => m.bucketNext x

def storeLink (m : Map Key Value) (l : Link) (p : Option ℕ) : Map Key Value :=
  match l with
  | .bucket index => m.storeBucket index p
  | .node x => m.modify x fun n => { n with bucketNext := p }

def load (m : Map Key Value) (x : ℕ) : Outcome (Node Key Value) :=
  match m.nodes x with
  | some n => if n.freed then .error .freedNode else .ok n
  | none => .error .freedNode

/-- `compare_exchange_strong` on a link. -/
def exchangeLink (m : Map Key Value) (l : Link) (expected desired : Option ℕ) :
    Map Key Value × Bool :=
  if m.link l = expected then (m.storeLink l desired, true) else (m, false)

section Keys

variable [Hashable Key]

def hashKey (m : Map Key Value) (key : Key) : ℕ := (hash key).toNat % m.bucketCount

def tryUnlinkLoop (m : Map Key Value) (node : ℕ) :
    ℕ → Link → Option ℕ → Outcome (Map Key Value × Bool)
  | _, _, none => .ok (m, false)
  | 0, _, some _ => .error .outOfRounds
  | rounds + 1, prev, some curr => do
    let n ← m.load curr
    if curr = node then .ok (m.exchangeLink prev (some node) n.bucketNext)
    else tryUnlinkLoop m node rounds (.node curr) n.bucketNext

def tryUnlinkFromBucket (m : Map Key Value) (node : ℕ) : Outcome (Map Key Value × Bool) := do
  let n ← m.load node
  let index := m.hashKey n.key
  m.tryUnlinkLoop node m.allocated (.bucket index) (m.buckets index)

variable [DecidableEq Key]

def findInBucketLoop (m : Map Key Value) (key : Key) : ℕ → Option ℕ → Outcome (Option ℕ)
  | _, none => .ok none
  | 0, some _ => .error .outOfRounds
  | rounds + 1, some curr => do
    let n ← m.load curr
    if n.key = key then .ok (some curr) else findInBucketLoop m key rounds n.bucketNext

def findInBucket (m : Map Key Value) (key : Key) : Outcome (Option ℕ) :=
  m.findInBucketLoop key m.allocated (m.buckets (m.hashKey key))

/-- The first unmarked node with the key: the walk of `find`, of `with_value` and of the
scan for duplicates in `insert_internal`. -/
def liveLoop (m : Map Key Value) (key : Key) : ℕ → Option ℕ → Outcome (Option ℕ)
  | _, none => .ok none
  | 0, some _ => .error .outOfRounds
  | rounds + 1, some curr => do
    let n ← m.load curr
    if n.key = key ∧ n.isDeleted = false then .ok (some curr)
    else liveLoop m key rounds n.bucketNext

def find (m : Map Key Value) (key : Key) : Outcome (Option Value) := do
  match ← m.liveLoop key m.allocated (m.buckets (m.hashKey key)) with
  | some x => do
    let n ← m.load x
    .ok (some n.value)
  | none => .ok none

/-- `with_value`, whose callback may store into the value. -/
def withValue (m : Map Key Value) (key : Key) (callback : Value → Value) :
    Outcome (Map Key Value × Bool) := do
  match ← m.liveLoop key m.allocated (m.buckets (m.hashKey key)) with
  | some x => .ok (m.modify x fun n => { n with value := callback n.value }, true)
  | none => .ok (m, false)

end Keys

/-! `insert_internal`. -/

def stageNode (m : Map Key Value) (x : ℕ) : Map Key Value :=
  { m with staging := x :: m.staging }

section Insert

variable [Hashable Key] [DecidableEq Key]

def backOff (m : Map Key Value) (new : ℕ) : Outcome (Map Key Value) := do
  let m := m.modify new fun n => { n with isDeleted := true, orderSwept := true }
  let (m, _) ← m.tryUnlinkFromBucket new
  .ok (m.stageNode new)

/-- Phase 1: the new node if it has been published and goes on to phase 2. `forward` is
what the constructor of the node leaves in the argument `key`. -/
def bucketPhase (forward : Key → Key) (index : ℕ) (value : Value) :
    ℕ → ℕ → Map Key Value → Key → Option ℕ → Outcome (Map Key Value × Option ℕ)
  | 0, _, _, _, _ => .error .outOfRounds
  | rounds + 1, failures, m, key, newNode => do
    match ← m.findInBucket key with
    | some existing =>
      let n ← m.load existing
      if n.isDeleted = false then
        match newNode with
        | some x => .ok (m.deleteNode x, none)
        | none => .ok (m, none)
      else
        let (m, _) ← m.tryUnlinkFromBucket existing
        bucketPhase forward index value rounds failures m key newNode
    | none =>
      let (m, key, new) := match newNode with
        | some x => (m, key, x)
        | none => (m.newNode key value, forward key, m.allocated)
      let oldHead := m.buckets index
      let m := m.modify new fun n => { n with bucketNext := oldHead }
      match failures with
      | failures + 1 => bucketPhase forward index value rounds failures m key (some new)
      | 0 =>
        if m.buckets index = oldHead then
          let m := m.storeBucket index (some new)
          match ← m.liveLoop key m.allocated (m.bucketNext new) with
          | some _ => do
            let m ← m.backOff new
            .ok (m, none)
          | none => .ok (m.stageNode new, some new)
        else bucketPhase forward index value rounds 0 m key (some new)

end Insert

/-- `orderTail.compare_exchange_strong` -/
def exchangeTail (m : Map Key Value) (expected desired : Option ℕ) : Map Key Value :=
  if m.orderTail = expected then { m with orderTail := desired } else m

/-- The loop of phase 2. With one thread the second load of `orderTail` gives what the first
did. -/
def orderLoop (new : ℕ) : ℕ → ℕ → Map Key Value → Outcome (Map Key Value)
  | 0, _, _ => .error .outOfRounds
  | rounds + 1, failures, m =>
    match m.orderTail, failures with
    | none, failures + 1 => orderLoop new rounds failures m
    | none, 0 =>
      if m.orderHead = none then
        .ok (({ m with orderHead := some new } : Map Key Value).exchangeTail none (some new))
      else orderLoop new rounds 0 m
    | some tail, failures => do
      let n ← m.load tail
      match n.orderNext, failures with
      | some _, failures + 1 => orderLoop new rounds failures m
      | some next, 0 => orderLoop new rounds 0 (m.exchangeTail (some tail) (some next))
      | none, failures + 1 => orderLoop new rounds failures m
      | none, 0 =>
        .ok ((m.modify tail fun n => { n with orderNext := some new }).exchangeTail
          (some tail) (some new))

def orderPhase (m : Map Key Value) (failures new : ℕ) : Outcome (Map Key Value) :=
  orderLoop new (failures + m.allocated + 1) failures
    (m.modify new fun n => { n with orderNext := none })

/-- How often the weak exchanges of an insertion fail spuriously in each phase. -/
structure Failures where
  bucket : ℕ
  order : ℕ

def insertInternal [Hashable Key] [DecidableEq Key] (m : Map Key Value) (forward : Key → Key)
    (failures : Failures) (key : Key) (value : Value) : Outcome (Map Key Value × Bool) := do
  let rounds := failures.bucket + m.allocated + 1
  match ← bucketPhase forward (m.hashKey key) value rounds failures.bucket m key none with
  | (m, none) => .ok (m, false)
  | (m, some new) =>
    let m ← m.orderPhase failures.order new
    .ok (m, true)

/-! `remove_guarded`, the order of the keys and the sweeps of the collector. -/

/-- The node that `find_in_bucket` gives `remove_guarded`, unless it is marked. -/
def removable [Hashable Key] [DecidableEq Key] (m : Map Key Value) (key : Key) :
    Outcome (Option ℕ) := do
  match ← m.findInBucket key with
  | none => .ok none
  | some node => do
    let n ← m.load node
    .ok (if n.isDeleted then none else some node)

/-- The removed node is part of the result. -/
def removeGuarded [Hashable Key] [DecidableEq Key] (m : Map Key Value) (key : Key) :
    ℕ → Outcome (Map Key Value × Option ℕ)
  | 0 => do
    match ← m.removable key with
    | none => .ok (m, none)
    | some node => do
      let m := m.modify node fun n => { n with isDeleted := true }
      let (m, _) ← m.tryUnlinkFromBucket node
      .ok (m, some node)
  | failures + 1 => do
    match ← m.removable key with
    | none => .ok (m, none)
    | some _ => removeGuarded m key failures

/-- `ordered_keys_snapshot` from a node on. -/
def snapshotLoop (m : Map Key Value) : ℕ → Option ℕ → Outcome (List Key)
  | _, none => .ok []
  | 0, some _ => .error .outOfRounds
  | rounds + 1, some curr => do
    let n ← m.load curr
    let rest ← snapshotLoop m rounds n.orderNext
    .ok (if n.isDeleted then rest else n.key :: rest)

def orderedKeysSnapshot (m : Map Key Value) : Outcome (List Key) :=
  m.snapshotLoop m.allocated m.orderHead

/-- `skip_deleted` of an `OrderIterator`. -/
def skipDeleted (m : Map Key Value) : ℕ → Option ℕ → Outcome (Option ℕ)
  | _, none => .ok none
  | 0, some _ => .error .outOfRounds
  | rounds + 1, some curr => do
    let n ← m.load curr
    if n.isDeleted then skipDeleted m rounds n.orderNext else .ok (some curr)

/-- The loop `for (it = order_begin(); it != order_end(); ++it)`. -/
def iterateLoop (m : Map Key Value) : ℕ → Option ℕ → Outcome (List (Key × Value))
  | _, none => .ok []
  | 0, some _ => .error .outOfRounds
  | rounds + 1, some curr => do
    let n ← m.load curr
    let it ← m.skipDeleted m.allocated n.orderNext
    let rest ← iterateLoop m rounds it
    .ok ((n.key, n.value) :: rest)

def iterate (m : Map Key Value) : Outcome (List (Key × Value)) := do
  let it ← m.skipDeleted m.allocated m.orderHead
  m.iterateLoop m.allocated it

def sweepBucket (i : ℕ) : ℕ → Map Key Value → Link → Option ℕ → Outcome (Map Key Value)
  | _, m, _, none => .ok m
  | 0, _, _, some _ => .error .outOfRounds
  | rounds + 1, m, prev, some curr => do
    let n ← m.load curr
    if n.isDeleted then
      match m.exchangeLink prev (some curr) n.bucketNext with
      | (m, true) =>
        sweepBucket i rounds (m.modify curr fun n => { n with bucketSwept := true }) prev
          n.bucketNext
      | (m, false) => sweepBucket i rounds m (.bucket i) (m.buckets i)
    else sweepBucket i rounds m (.node curr) n.bucketNext

/-- The pointer of the order list that the sweep holds as `prev`. -/
def orderLink (m : Map Key Value) : Option ℕ → Option ℕ
  | none => m.orderHead
  | some prev => m.orderNext prev

def storeOrderLink (m : Map Key Value) (prev p : Option ℕ) : Map Key Value :=
  match prev with
  | none => { m with orderHead := p }
  | some x => m.modify x fun n => { n with orderNext := p }

def sweepOrder : ℕ → Map Key Value → Option ℕ → Option ℕ → Outcome (Map Key Value)
  | _, m, _, none => .ok m
  | 0, _, _, some _ => .error .outOfRounds
  | rounds + 1, m, prev, some curr => do
    let n ← m.load curr
    if n.isDeleted ∧ n.orderNext ≠ none then
      if m.orderLink prev = some curr then
        sweepOrder rounds ((m.storeOrderLink prev n.orderNext).modify curr
          fun n => { n with orderSwept := true }) prev n.orderNext
      else sweepOrder rounds m prev (m.orderLink prev)
    else sweepOrder rounds m (some curr) n.orderNext

def stampNode (epoch : ℤ) (m : Map Key Value) (x : ℕ) : Outcome (Map Key Value) := do
  let n ← m.load x
  if n.bucketSwept ∧ n.orderSwept ∧ n.retiredEpoch < 0 then
    .ok (m.modify x fun n => { n with retiredEpoch := epoch })
  else .ok m

/-- Step 6 of the collector: the nodes that stay in `all_nodes_`. -/
def freeLoop (safe : ℤ) : List ℕ → Map Key Value → Outcome (Map Key Value × List ℕ)
  | [], m => .ok (m, [])
  | x :: rest, m => do
    let n ← m.load x
    if 0 ≤ n.retiredEpoch ∧ n.retiredEpoch + 2 ≤ safe then freeLoop safe rest (m.deleteNode x)
    else do
      let (m, kept) ← freeLoop safe rest m
      .ok (m, x :: kept)

end Map

/-! The object with its counters and the epochs of the process. -/

def kAutoGCThreshold : ℕ := 4096

structure Single (Key Value : Type) where
  map : Map Key Value
  deleteSinceGc : ℕ
  opCount : ℕ
  /-- `current` and the announced epochs of `ebr::EpochState`. -/
  current : ℤ
  slots : List ℤ

namespace Single

def tryAdvance (s : Single Key Value) : Single Key Value :=
  if ∃ a ∈ s.slots, a ≠ -1 ∧ a < s.current then s else { s with current := s.current + 1 }

/-- `collect_garbage_locked` -/
def collectGarbage (s : Single Key Value) : Outcome (Single Key Value) := do
  let m := { s.map with allNodes := s.map.allNodes ++ s.map.staging, staging := [] }
  let m ← (List.range m.bucketCount).foldlM
    (fun m i => Map.sweepBucket i m.allocated m (.bucket i) (m.buckets i)) m
  let m ← Map.sweepOrder m.allocated m none m.orderHead
  let m ← m.allNodes.foldlM (Map.stampNode s.current) m
  let s := ({ s with map := m, deleteSinceGc := 0 } : Single Key Value).tryAdvance
  let (m, kept) ← Map.freeLoop s.current s.map.allNodes s.map
  .ok { s with map := { m with allNodes := kept } }

def postMutate (s : Single Key Value) : Outcome (Single Key Value) :=
  let n := s.opCount
  let s := { s with opCount := s.opCount + 1 }
  let s := if n % 256 = 0 then s.tryAdvance else s
  if kAutoGCThreshold ≤ s.deleteSinceGc then s.collectGarbage else .ok s

variable [Hashable Key] [DecidableEq Key]

def remove (s : Single Key Value) (key : Key) (failures : ℕ) :
    Outcome (Single Key Value × Bool) := do
  match ← s.map.removeGuarded key failures with
  | (m, some _) => do
    let s ← ({ s with map := m, deleteSinceGc := s.deleteSinceGc + 1 } : Single Key Value).postMutate
    .ok (s, true)
  | (m, none) => do
    let s ← ({ s with map := m } : Single Key Value).postMutate
    .ok (s, false)

end Single

/-- Calls of the one thread. Between two of them the other threads of the process may
move the epochs on. -/
inductive Call (Key Value : Type) where
  | insert (failures : Map.Failures) (key : Key) (value : Value)
  | remove (failures : ℕ) (key : Key)
  | find (key : Key)
  | withValue (key : Key) (callback : Value → Value)
  | iterate
  | orderedKeysSnapshot
  | collectGarbage
  | epochs (current : ℤ) (slots : List ℤ)

inductive Answer (Key Value : Type) where
  | done
  | flag (result : Bool)
  | found (value : Option Value)
  | entries (entries : List (Key × Value))
  | keys (keys : List Key)
  deriving DecidableEq

variable [Hashable Key] [DecidableEq Key]

def exec (s : Single Key Value) : Call Key Value → Outcome (Single Key Value × Answer Key Value)
  | .insert failures key value => do
    let (m, flag) ← s.map.insertInternal id failures key value
    .ok ({ s with map := m }, .flag flag)
  | .remove failures key => do
    let (s, flag) ← s.remove key failures
    .ok (s, .flag flag)
  | .find key => do
    let v ← s.map.find key
    .ok (s, .found v)
  | .withValue key callback => do
    let (m, flag) ← s.map.withValue key callback
    .ok ({ s with map := m }, .flag flag)
  | .iterate => do
    let entries ← s.map.iterate
    .ok (s, .entries entries)
  | .orderedKeysSnapshot => do
    let keys ← s.map.orderedKeysSnapshot
    .ok (s, .keys keys)
  | .collectGarbage => do
    let s ← s.collectGarbage
    .ok (s, .done)
  | .epochs current slots => .ok ({ s with current := current, slots := slots }, .done)

def single (count : ℕ) (current : ℤ) (slots : List ℤ) : Single Key Value :=
  ⟨construct count, 0, 0, current, slots⟩

/-- Calls of which some pass the key as `Key&&`; `moved` is what its move leaves in it. -/
inductive MoveCall (Key Value : Type) where
  | call (call : Call Key Value)
  | insertMoved (failures : Map.Failures) (moved key : Key) (value : Value)

def execMove (s : Single Key Value) :
    MoveCall Key Value → Outcome (Single Key Value × Answer Key Value)
  | .call c => exec s c
  | .insertMoved failures moved key value => do
    let (m, flag) ← s.map.insertInternal (fun _ => moved) failures key value
    .ok ({ s with map := m }, .flag flag)

/-! What the walks over a bucket and over the order list return, when they lead along a
list of nodes that are not freed. -/

open Library.LinkedChain

variable {Key Value : Type}

namespace Map

def Held (m : Map Key Value) (x : ℕ) : Prop := ∃ n, m.nodes x = some n ∧ n.freed = false

variable {m : Map Key Value} {x : ℕ}

theorem load_held {m : Map Key Value} {x : ℕ} {n : Node Key Value} (hn : m.nodes x = some n)
    (hfreed : n.freed = false) : m.load x = .ok n := by
  rw [load, hn]
  exact if_neg (by rw [hfreed]; exact nofun)

theorem nodes_modify (m : Map Key Value) (x y : ℕ) (f : Node Key Value → Node Key Value) :
    (m.modify x f).nodes y = (m.nodes y).map fun n => if y = x then f n else n := by
  by_cases hy : y = x
  · subst hy
    simp
  · simp [hy]

theorem bucketNext_congr {m' : Map Key Value} (h : m'.nodes x = m.nodes x) :
    m'.bucketNext x = m.bucketNext x := by
  rw [bucketNext, bucketNext, h]

theorem orderNext_congr {m' : Map Key Value} (h : m'.nodes x = m.nodes x) :
    m'.orderNext x = m.orderNext x := by
  rw [orderNext, orderNext, h]

theorem bucketNext_node {m : Map Key Value} {x : ℕ} {n : Node Key Value}
    (hn : m.nodes x = some n) : m.bucketNext x = n.bucketNext := by
  rw [bucketNext, hn]
  rfl

theorem orderNext_node {m : Map Key Value} {x : ℕ} {n : Node Key Value}
    (hn : m.nodes x = some n) : m.orderNext x = n.orderNext := by
  rw [orderNext, hn]
  rfl

theorem bucketNext_modify {f : Node Key Value → Node Key Value}
    (hf : ∀ n, (f n).bucketNext = n.bucketNext) : (m.modify x f).bucketNext = m.bucketNext := by
  funext y
  rw [bucketNext, bucketNext, nodes_modify]
  cases m.nodes y with
  | none => rfl
  | some n => by_cases hy : y = x <;> simp [hy, hf]

theorem orderNext_modify {f : Node Key Value → Node Key Value}
    (hf : ∀ n, (f n).orderNext = n.orderNext) : (m.modify x f).orderNext = m.orderNext := by
  funext y
  rw [orderNext, orderNext, nodes_modify]
  cases m.nodes y with
  | none => rfl
  | some n => by_cases hy : y = x <;> simp [hy, hf]

theorem bucketNext_storeNode {p : Option ℕ} (hx : m.Held x) :
    (m.storeLink (.node x) p).bucketNext = Function.update m.bucketNext x p := by
  obtain ⟨n, hn, -⟩ := hx
  funext y
  rw [storeLink, bucketNext, nodes_modify]
  by_cases hy : y = x
  · subst hy
    simp [hn]
  · rw [Function.update_of_ne hy, bucketNext]
    cases m.nodes y <;> simp [hy]

section Keys

variable [DecidableEq Key]

def hasKey (m : Map Key Value) (key : Key) (x : ℕ) : Bool :=
  (m.nodes x).any fun n => decide (n.key = key)

def liveKey (m : Map Key Value) (key : Key) (x : ℕ) : Bool :=
  (m.nodes x).any fun n => decide (n.key = key ∧ n.isDeleted = false)

theorem findInBucketLoop_eq {m : Map Key Value} {key : Key} {l : List ℕ} {p : Option ℕ}
    {rounds : ℕ} (hp : Segment m.bucketNext p l none) (hl : ∀ x ∈ l, m.Held x)
    (hrounds : l.length ≤ rounds) :
    m.findInBucketLoop key rounds p = .ok (l.find? (m.hasKey key)) := by
  induction l generalizing p rounds with
  | nil =>
    cases hp
    cases rounds <;> rfl
  | cons x l ih =>
    obtain ⟨rfl, hp⟩ := hp
    obtain ⟨n, hn, hfreed⟩ := hl x (by simp)
    rw [bucketNext_node hn] at hp
    cases rounds with
    | zero => simp at hrounds
    | succ rounds =>
      have hrest := ih hp (fun y hy => hl y (by simp [hy])) (Nat.le_of_succ_le_succ hrounds)
      have hkey : m.hasKey key x = decide (n.key = key) := by rw [hasKey, hn]; rfl
      rw [findInBucketLoop, load_held hn hfreed, List.find?_cons, hkey]
      by_cases h : n.key = key
      · simp [bind, Except.bind, h]
      · simp [bind, Except.bind, h, hrest]

theorem liveLoop_eq {m : Map Key Value} {key : Key} {l : List ℕ} {p : Option ℕ} {rounds : ℕ}
    (hp : Segment m.bucketNext p l none) (hl : ∀ x ∈ l, m.Held x) (hrounds : l.length ≤ rounds) :
    m.liveLoop key rounds p = .ok (l.find? (m.liveKey key)) := by
  induction l generalizing p rounds with
  | nil =>
    cases hp
    cases rounds <;> rfl
  | cons x l ih =>
    obtain ⟨rfl, hp⟩ := hp
    obtain ⟨n, hn, hfreed⟩ := hl x (by simp)
    rw [bucketNext_node hn] at hp
    cases rounds with
    | zero => simp at hrounds
    | succ rounds =>
      have hrest := ih hp (fun y hy => hl y (by simp [hy])) (Nat.le_of_succ_le_succ hrounds)
      have hkey : m.liveKey key x = decide (n.key = key ∧ n.isDeleted = false) := by
        rw [liveKey, hn]
        rfl
      rw [liveLoop, load_held hn hfreed, List.find?_cons, hkey]
      by_cases h : n.key = key ∧ n.isDeleted = false
      · simp [bind, Except.bind, h]
      · simp [bind, Except.bind, h, hrest]

end Keys

/-- The link that leads to what follows `l`, when `prev` leads to `l`. -/
def linkAfter (prev : Link) (l : List ℕ) : Link :=
  match l.getLast? with
  | none => prev
  | some y => .node y

theorem linkAfter_cons (prev : Link) (x : ℕ) (l : List ℕ) :
    linkAfter prev (x :: l) = linkAfter (.node x) l := by
  cases l with
  | nil => rfl
  | cons y l => rw [linkAfter, linkAfter, List.getLast?_cons_cons, List.getLast?_cons]

theorem tryUnlinkLoop_eq {node rounds : ℕ} {prev : Link} {l rest : List ℕ}
    (hp : Segment m.bucketNext (m.link prev) (l ++ node :: rest) none)
    (hheld : ∀ x ∈ l ++ node :: rest, m.Held x) (hl : node ∉ l) (hrounds : l.length < rounds) :
    m.tryUnlinkLoop node rounds prev (m.link prev) =
      .ok (m.storeLink (linkAfter prev l) (m.bucketNext node), true) := by
  induction l generalizing prev rounds with
  | nil =>
    obtain ⟨hprev, -⟩ := hp
    obtain ⟨n, hn, hfreed⟩ := hheld node (by simp)
    cases rounds with
    | zero => exact absurd hrounds (Nat.lt_irrefl _)
    | succ rounds =>
      rw [hprev, tryUnlinkLoop, load_held hn hfreed, bucketNext_node hn]
      simp [bind, Except.bind, exchangeLink, hprev, linkAfter]
  | cons x l ih =>
    obtain ⟨hprev, hp⟩ := hp
    obtain ⟨n, hn, hfreed⟩ := hheld x (by simp)
    obtain ⟨hxnode, hl⟩ := not_or.mp (List.mem_cons.not.mp hl)
    cases rounds with
    | zero => cases hrounds
    | succ rounds =>
      have hrest : m.tryUnlinkLoop node rounds (.node x) (m.link (.node x)) = _ :=
        ih hp (fun y hy => hheld y (by simp at hy ⊢; tauto)) hl (Nat.lt_of_succ_lt_succ hrounds)
      rw [hprev, tryUnlinkLoop, load_held hn hfreed, linkAfter_cons, ← hrest]
      exact (if_neg (Ne.symm hxnode)).trans (by rw [link, bucketNext_node hn])

end Map

theorem hashKey_congr [Hashable Key] {m m' : Map Key Value} (h : m'.bucketCount = m.bucketCount) :
    (m'.hashKey : Key → ℕ) = m.hashKey := by
  funext key
  rw [Map.hashKey, Map.hashKey, h]

end Equilibrium.LockFreeOrderedHashMap
