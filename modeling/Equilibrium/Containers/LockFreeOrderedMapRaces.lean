import Equilibrium.Containers.LockFreeOrderedMap
import Equilibrium.Library.Interleaving

/-! `insert`, `remove`, `find` and `collect_garbage` by any number of threads. Every
access of an atomic is one step, and plain accesses go with the step before them. Keys
are passed by `const` reference; keys and values of a node never change. The collector
takes the epochs as they come: whether an announced guard holds them back, and whether
`post_mutate` collects, is up to the environment. A freed node keeps its fields. -/

namespace Equilibrium.LockFreeOrderedHashMap

open Library.Interleaving Library.LinkedChain

/-- What `insert_internal` would publish: its arguments, or the node made from them. -/
inductive Draft (Value : Type) where
  | value (value : Value)
  | node (x : ℕ)
  deriving DecidableEq

/-- The walks over a bucket: `find_in_bucket` of an insertion and of a removal, the scan for
a duplicate behind the node `new`, and `find`. -/
inductive Walk (Value : Type) where
  | search (draft : Draft Value)
  | scan (new : ℕ)
  | find
  | remove
  deriving DecidableEq

/-- What follows `try_unlink_from_bucket`. -/
inductive Resume (Key Value : Type) where
  | retry (key : Key) (draft : Draft Value)
  | backOff (key : Key) (new : ℕ)
  | removed (key : Key) (x : ℕ)
  deriving DecidableEq

inductive Reply (Value : Type) where
  | done
  | inserted
  | refused
  | removed
  | absent
  | found (value : Value)
  deriving DecidableEq

/-- Who collects: `collect_garbage`, or `post_mutate` after a removal and its node. -/
inductive Caller (Key : Type) where
  | collect
  | remove (key : Key) (removed : Option ℕ)
  deriving DecidableEq

/-- The next access of a thread in `collect_garbage_locked`. -/
inductive GcPc where
  | lock
  | drain
  | sweepHead (i : ℕ)
  | sweepNext (i : ℕ) (prev : Link) (x : ℕ)
  | sweepDeleted (i : ℕ) (prev : Link) (x : ℕ) (next : Option ℕ)
  | sweepExchange (i : ℕ) (prev : Link) (x : ℕ) (next : Option ℕ)
  | orderHead
  | orderNext (prev : Option ℕ) (x : ℕ)
  | orderDeleted (prev : Option ℕ) (x : ℕ) (next : Option ℕ)
  | orderExchange (prev : Option ℕ) (x next : ℕ)
  | orderReload (prev : Option ℕ)
  | loadEpoch
  | stamp (epoch : ℤ) (rest : List ℕ)
  | loadSafe
  | free (safe : ℤ) (rest kept : List ℕ)
  | unlock
  deriving DecidableEq

/-- The next access of a thread; an idle one keeps the reply of its last call. -/
inductive Pc (Key Value : Type) where
  | idle (reply : Reply Value)
  | loadHead (op : Walk Value) (key : Key)
  | loadDeleted (op : Walk Value) (key : Key) (x : ℕ)
  | loadNext (op : Walk Value) (key : Key) (x : ℕ)
  | construct (key : Key) (value : Value)
  | loadOldHead (key : Key) (new : ℕ)
  | storeNext (key : Key) (new : ℕ) (oldHead : Option ℕ)
  | publish (key : Key) (new : ℕ) (oldHead : Option ℕ)
  | giveUp (key : Key) (new : ℕ)
  | mark (key : Key) (x : ℕ)
  | unlinkHead (after : Resume Key Value) (node : ℕ)
  | unlinkStep (after : Resume Key Value) (node y : ℕ)
  | unlinkNext (after : Resume Key Value) (node : ℕ) (prev : Link)
  | unlinkExchange (after : Resume Key Value) (node : ℕ) (prev : Link) (next : Option ℕ)
  | loadStaging (key : Key) (new : ℕ) (live : Bool)
  | exchangeStaging (key : Key) (new : ℕ) (live : Bool) (head : Option ℕ)
  | resetOrder (key : Key) (new : ℕ)
  | loadTail (key : Key) (new : ℕ)
  | exchangeHead (key : Key) (new : ℕ)
  | initTail (key : Key) (new : ℕ)
  | loadOrderNext (key : Key) (new tail : ℕ)
  | reloadTail (key : Key) (new tail : ℕ) (next : Option ℕ)
  | helpTail (key : Key) (new tail next : ℕ)
  | append (key : Key) (new tail : ℕ)
  | advanceTail (key : Key) (new tail : ℕ)
  | postMutate (key : Key) (removed : Option ℕ)
  | gc (caller : Caller Key) (pc : GcPc)
  deriving DecidableEq

structure State (Thread Key Value : Type) where
  map : Map Key Value
  thread : Thread → Pc Key Value
  gcMutex : Option Thread
  epoch : ℤ
  /-- The nodes in the order in which they were linked into a bucket. -/
  published : List ℕ
  /-- The nodes in the order in which they were linked into the order list. -/
  appended : List ℕ
  /-- The calls that have returned `true`, with their keys and nodes. -/
  inserted : List (Key × ℕ)
  removed : List (Key × ℕ)

inductive Act (Thread Key Value : Type) where
  | insert (t : Thread) (key : Key) (value : Value)
  | remove (t : Thread) (key : Key)
  | find (t : Thread) (key : Key)
  | collectGarbage (t : Thread)
  /-- `choice` lets a weak exchange fail spuriously and `post_mutate` collect. -/
  | access (t : Thread) (choice : Bool)
  | tryAdvance

variable {Thread Key Value : Type}

def Map.marked (m : Map Key Value) (x : ℕ) : Bool := (m.nodes x).any (·.isDeleted)

def Draft.discard (m : Map Key Value) : Draft Value → Map Key Value
  | .value _ => m
  | .node x => m.deleteNode x

section Visits

variable [DecidableEq Key]

/-- The head of a loop over a bucket, with the comparison of the keys. -/
def visit (m : Map Key Value) (op : Walk Value) (key : Key) : Option ℕ → Pc Key Value
  | some x =>
    if m.hasKey key x then
      match op with
      | .remove => .mark key x
      | op => .loadDeleted op key x
    else .loadNext op key x
  | none =>
    match op with
    | .search (.value value) => .construct key value
    | .search (.node new) => .loadOldHead key new
    | .scan new => .loadStaging key new true
    | .find => .idle .absent
    | .remove => .postMutate key none

def resume : Resume Key Value → Pc Key Value
  | .retry key draft => .loadHead (.search draft) key
  | .backOff key new => .loadStaging key new false
  | .removed key x => .postMutate key (some x)

/-- The head of the loop in `try_unlink_from_bucket`. -/
def unlinkVisit (after : Resume Key Value) (node : ℕ) (prev : Link) : Option ℕ → Pc Key Value
  | none => resume after
  | some y => if y = node then .unlinkNext after node prev else .unlinkStep after node y

def sweepVisit (i : ℕ) (prev : Link) : Option ℕ → GcPc
  | none => .sweepHead (i + 1)
  | some x => .sweepNext i prev x

def orderVisit (prev : Option ℕ) : Option ℕ → GcPc
  | none => .loadEpoch
  | some x => .orderNext prev x

end Visits

variable [DecidableEq Thread]

@[simps] def State.goto (s : State Thread Key Value) (t : Thread) (p : Pc Key Value) :
    State Thread Key Value :=
  { s with thread := Function.update s.thread t p }

def State.finish (s : State Thread Key Value) (t : Thread) : Caller Key → State Thread Key Value
  | .collect => s.goto t (.idle .done)
  | .remove _ none => s.goto t (.idle .absent)
  | .remove key (some x) =>
    { s.goto t (.idle .removed) with removed := s.removed ++ [(key, x)] }

def accessGc (s : State Thread Key Value) (t : Thread) (caller : Caller Key) :
    GcPc → Option (State Thread Key Value)
  | .lock =>
    if s.gcMutex = none then some { s.goto t (.gc caller .drain) with gcMutex := some t } else none
  | .drain =>
    some { s.goto t (.gc caller (.sweepHead 0)) with
      map := { s.map with allNodes := s.map.allNodes ++ s.map.staging, staging := [] } }
  | .sweepHead i =>
    if i < s.map.bucketCount then
      some (s.goto t (.gc caller (sweepVisit i (.bucket i) (s.map.buckets i))))
    else some (s.goto t (.gc caller .orderHead))
  | .sweepNext i prev x =>
    some (s.goto t (.gc caller (.sweepDeleted i prev x (s.map.bucketNext x))))
  | .sweepDeleted i prev x next =>
    if s.map.marked x then some (s.goto t (.gc caller (.sweepExchange i prev x next)))
    else some (s.goto t (.gc caller (sweepVisit i (.node x) next)))
  | .sweepExchange i prev x next =>
    if s.map.link prev = some x then
      some { s.goto t (.gc caller (sweepVisit i prev next)) with
        map := (s.map.storeLink prev next).modify x fun n => { n with bucketSwept := true } }
    else some (s.goto t (.gc caller (.sweepHead i)))
  | .orderHead => some (s.goto t (.gc caller (orderVisit none s.map.orderHead)))
  | .orderNext prev x =>
    some (s.goto t (.gc caller (.orderDeleted prev x (s.map.orderNext x))))
  | .orderDeleted prev x next =>
    match s.map.marked x, next with
    | true, some next => some (s.goto t (.gc caller (.orderExchange prev x next)))
    | _, next => some (s.goto t (.gc caller (orderVisit (some x) next)))
  | .orderExchange prev x next =>
    if s.map.orderLink prev = some x then
      some { s.goto t (.gc caller (orderVisit prev (some next))) with
        map := (s.map.storeOrderLink prev (some next)).modify x
          fun n => { n with orderSwept := true } }
    else some (s.goto t (.gc caller (.orderReload prev)))
  | .orderReload prev => some (s.goto t (.gc caller (orderVisit prev (s.map.orderLink prev))))
  | .loadEpoch => some (s.goto t (.gc caller (.stamp s.epoch s.map.allNodes)))
  | .stamp epoch (x :: rest) =>
    some { s.goto t (.gc caller (.stamp epoch rest)) with
      map := s.map.modify x fun n =>
        if n.bucketSwept ∧ n.orderSwept ∧ n.retiredEpoch < 0 then { n with retiredEpoch := epoch }
        else n }
  | .stamp _ [] => some (s.goto t (.gc caller .loadSafe))
  | .loadSafe => some (s.goto t (.gc caller (.free s.epoch s.map.allNodes [])))
  | .free safe (x :: rest) kept =>
    if (s.map.nodes x).any fun n => decide (0 ≤ n.retiredEpoch ∧ n.retiredEpoch + 2 ≤ safe) then
      some { s.goto t (.gc caller (.free safe rest kept)) with map := s.map.deleteNode x }
    else some (s.goto t (.gc caller (.free safe rest (kept ++ [x]))))
  | .free _ [] kept =>
    some { s.goto t (.gc caller .unlock) with map := { s.map with allNodes := kept } }
  | .unlock => some ({ s with gcMutex := none }.finish t caller)

variable [Hashable Key] [DecidableEq Key]

def access (s : State Thread Key Value) (t : Thread) (choice : Bool) :
    Option (State Thread Key Value) :=
  match s.thread t with
  | .idle _ => none
  | .loadHead op key => some (s.goto t (visit s.map op key (s.map.buckets (s.map.hashKey key))))
  | .loadNext op key x => some (s.goto t (visit s.map op key (s.map.bucketNext x)))
  | .loadDeleted (.search draft) key x =>
    if s.map.marked x then some (s.goto t (.unlinkHead (.retry key draft) x))
    else some { s.goto t (.idle .refused) with map := draft.discard s.map }
  | .loadDeleted (.scan new) key x =>
    if s.map.marked x then some (s.goto t (.loadNext (.scan new) key x))
    else some (s.goto t (.giveUp key new))
  | .loadDeleted .find key x =>
    if s.map.marked x then some (s.goto t (.loadNext .find key x))
    else (s.map.nodes x).map fun n => s.goto t (.idle (.found n.value))
  | .loadDeleted .remove _ _ => none
  | .construct key value =>
    some { s.goto t (.loadOldHead key s.map.allocated) with map := s.map.newNode key value }
  | .loadOldHead key new =>
    some (s.goto t (.storeNext key new (s.map.buckets (s.map.hashKey key))))
  | .storeNext key new oldHead =>
    some { s.goto t (.publish key new oldHead) with
      map := s.map.modify new fun n => { n with bucketNext := oldHead } }
  | .publish key new oldHead =>
    if choice = false ∧ s.map.buckets (s.map.hashKey key) = oldHead then
      some { s.goto t (.loadNext (.scan new) key new) with
        map := s.map.storeBucket (s.map.hashKey key) (some new)
        published := s.published ++ [new] }
    else some (s.goto t (.loadHead (.search (.node new)) key))
  | .giveUp key new =>
    some { s.goto t (.unlinkHead (.backOff key new) new) with
      map := s.map.modify new fun n => { n with isDeleted := true, orderSwept := true } }
  | .mark key x =>
    if s.map.marked x then some (s.goto t (.postMutate key none))
    else if choice then some (s.goto t (.loadHead .remove key))
    else
      some { s.goto t (.unlinkHead (.removed key x) x) with
        map := s.map.modify x fun n => { n with isDeleted := true } }
  | .unlinkHead after node =>
    (s.map.nodes node).map fun n =>
      s.goto t (unlinkVisit after node (.bucket (s.map.hashKey n.key))
        (s.map.buckets (s.map.hashKey n.key)))
  | .unlinkStep after node y =>
    some (s.goto t (unlinkVisit after node (.node y) (s.map.bucketNext y)))
  | .unlinkNext after node prev =>
    some (s.goto t (.unlinkExchange after node prev (s.map.bucketNext node)))
  | .unlinkExchange after node prev next =>
    if s.map.link prev = some node then
      some { s.goto t (resume after) with map := s.map.storeLink prev next }
    else some (s.goto t (resume after))
  | .loadStaging key new live =>
    some (s.goto t (.exchangeStaging key new live s.map.staging.head?))
  | .exchangeStaging key new live head =>
    if choice = false ∧ s.map.staging.head? = head then
      some { s.goto t (if live then .resetOrder key new else .idle .refused) with
        map := s.map.stageNode new }
    else some (s.goto t (.exchangeStaging key new live s.map.staging.head?))
  | .resetOrder key new =>
    some { s.goto t (.loadTail key new) with
      map := s.map.modify new fun n => { n with orderNext := none } }
  | .loadTail key new =>
    match s.map.orderTail with
    | none => some (s.goto t (.exchangeHead key new))
    | some tail => some (s.goto t (.loadOrderNext key new tail))
  | .exchangeHead key new =>
    if choice = false ∧ s.map.orderHead = none then
      some { s.goto t (.initTail key new) with
        map := { s.map with orderHead := some new }
        appended := s.appended ++ [new] }
    else some (s.goto t (.loadTail key new))
  | .initTail key new =>
    some { s.goto t (.idle .inserted) with
      map := s.map.exchangeTail none (some new)
      inserted := s.inserted ++ [(key, new)] }
  | .loadOrderNext key new tail =>
    some (s.goto t (.reloadTail key new tail (s.map.orderNext tail)))
  | .reloadTail key new tail next =>
    if s.map.orderTail = some tail then
      match next with
      | none => some (s.goto t (.append key new tail))
      | some next => some (s.goto t (.helpTail key new tail next))
    else some (s.goto t (.loadTail key new))
  | .helpTail key new tail next =>
    some { s.goto t (.loadTail key new) with
      map := if choice then s.map else s.map.exchangeTail (some tail) (some next) }
  | .append key new tail =>
    if choice = false ∧ s.map.orderNext tail = none then
      some { s.goto t (.advanceTail key new tail) with
        map := s.map.modify tail fun n => { n with orderNext := some new }
        appended := s.appended ++ [new] }
    else some (s.goto t (.loadTail key new))
  | .advanceTail key new tail =>
    some { s.goto t (.idle .inserted) with
      map := s.map.exchangeTail (some tail) (some new)
      inserted := s.inserted ++ [(key, new)] }
  | .postMutate key removed =>
    if choice = true ∧ s.gcMutex = none then
      some { s.goto t (.gc (.remove key removed) .drain) with gcMutex := some t }
    else some (s.finish t (.remove key removed))
  | .gc caller pc => accessGc s t caller pc

def step (s : State Thread Key Value) : Act Thread Key Value → Option (State Thread Key Value)
  | .insert t key value =>
    match s.thread t with
    | .idle _ => some (s.goto t (.loadHead (.search (.value value)) key))
    | _ => none
  | .remove t key =>
    match s.thread t with
    | .idle _ => some (s.goto t (.loadHead .remove key))
    | _ => none
  | .find t key =>
    match s.thread t with
    | .idle _ => some (s.goto t (.loadHead .find key))
    | _ => none
  | .collectGarbage t =>
    match s.thread t with
    | .idle _ => some (s.goto t (.gc .collect .lock))
    | _ => none
  | .access t choice => access s t choice
  | .tryAdvance => some { s with epoch := s.epoch + 1 }

def machine (Thread Key Value : Type) [DecidableEq Thread] [Hashable Key] [DecidableEq Key]
    (count : ℕ) : Machine (State Thread Key Value) (Act Thread Key Value) where
  init := ⟨construct count, fun _ => .idle .done, none, 0, [], [], [], []⟩
  step := step

end Equilibrium.LockFreeOrderedHashMap
