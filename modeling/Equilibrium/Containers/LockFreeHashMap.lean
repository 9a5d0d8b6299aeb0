import Equilibrium.Library.LinkedChain
import Equilibrium.Library.Calls
import Mathlib.Algebra.Group.Nat.Defs
import Mathlib.Data.List.Perm.Subperm
import Mathlib.Data.Set.Insert

/-! The map of `base/containers/lock_free_concurrent_hashmap.h`, used by one thread.
A node is its address, and a null pointer is `none`. A node that is not allocated, or
that was deleted, is absent from the store; a call that touches it stops. Loops over
the nodes are given as many rounds as nodes were ever allocated. -/

namespace Equilibrium.LockFreeHashMap

/-- `key % bucketCount` takes the key as a `size_t`. -/
class IntegralKey (Key : Type) where
  toSize : Key → ℕ

instance : IntegralKey ℕ := ⟨fun key => key % 2 ^ 64⟩

inductive Stop where
  | outOfRounds
  | freedNode
  deriving DecidableEq, Repr

abbrev Outcome := Except Stop

@[ext] structure Node (Key Value : Type) where
  key : Key
  value : Value
  next : Option ℕ
  dead : Bool
  deriving DecidableEq

/-- The pair that an iterator designates, by its node. -/
structure Entry (Key Value : Type) where
  node : ℕ
  key : Key
  value : Value
  deriving DecidableEq

structure Map (Key Value : Type) where
  buckets : ℕ → Option ℕ
  bucketCount : ℕ
  nodes : ℕ → Option (Node Key Value)
  /-- Addresses below this one were handed out. -/
  allocated : ℕ

variable {Key Value : Type}

/-- `LockFreeHashMap(size_t count)` -/
def construct (count : ℕ) : Map Key Value := ⟨fun _ => none, count, fun _ => none, 0⟩

namespace Map

@[simps] def newNode (m : Map Key Value) (key : Key) (value : Value) : Map Key Value :=
  { m with
    nodes := Function.update m.nodes m.allocated (some ⟨key, value, none, false⟩)
    allocated := m.allocated + 1 }

@[simps] def storeNode (m : Map Key Value) (x : ℕ) (n : Node Key Value) : Map Key Value :=
  { m with nodes := Function.update m.nodes x (some n) }

@[simps] def storeBucket (m : Map Key Value) (index : ℕ) (p : Option ℕ) : Map Key Value :=
  { m with buckets := Function.update m.buckets index p }

@[simps] def deleteNode (m : Map Key Value) (x : ℕ) : Map Key Value :=
  { m with nodes := Function.update m.nodes x none }

def next (m : Map Key Value) (x : ℕ) : Option ℕ := (m.nodes x).bind (·.next)

def load (m : Map Key Value) (x : ℕ) : Outcome (Node Key Value) :=
  match m.nodes x with
  | some n => .ok n
  | none => .error .freedNode

def storeNext (m : Map Key Value) (x : ℕ) (p : Option ℕ) : Outcome (Map Key Value) := do
  let n ← m.load x
  .ok (m.storeNode x { n with next := p })

section Keys

variable [IntegralKey Key]

def hash (m : Map Key Value) (key : Key) : ℕ := IntegralKey.toSize key % m.bucketCount

/-- The loop of `insert`, whose weak exchange fails spuriously `failures` times. -/
def insertLoop (m : Map Key Value) (index new : ℕ) (oldHead : Option ℕ) :
    ℕ → Outcome (Map Key Value)
  | 0 => do
    let m ← m.storeNext new oldHead
    if m.buckets index = oldHead then .ok (m.storeBucket index (some new))
    else .error .outOfRounds
  | failures + 1 => do
    let m ← m.storeNext new oldHead
    insertLoop m index new (m.buckets index) failures

def insert (m : Map Key Value) (failures : ℕ) (key : Key) (value : Value) :
    Outcome (Map Key Value) :=
  let index := m.hash key
  let new := m.allocated
  let m := m.newNode key value
  insertLoop m index new (m.buckets index) failures

variable [DecidableEq Key]

def findLoop (m : Map Key Value) (key : Key) : ℕ → Option ℕ → Outcome (Option Value)
  | _, none => .ok none
  | 0, some _ => .error .outOfRounds
  | rounds + 1, some head => do
    let n ← m.load head
    if n.key = key ∧ n.dead = false then .ok (some n.value)
    else findLoop m key rounds n.next

def find (m : Map Key Value) (key : Key) : Outcome (Option Value) :=
  m.findLoop key m.allocated (m.buckets (m.hash key))

def removeLoop (m : Map Key Value) (key : Key) : ℕ → Option ℕ → Outcome (Map Key Value × Bool)
  | _, none => .ok (m, false)
  | 0, some _ => .error .outOfRounds
  | rounds + 1, some head => do
    let n ← m.load head
    if n.key = key ∧ n.dead = false then
      let expected ← m.load head
      if expected.dead = false then .ok (m.storeNode head { expected with dead := true }, true)
      else .ok (m, false)
    else removeLoop m key rounds n.next

def remove (m : Map Key Value) (key : Key) : Outcome (Map Key Value × Bool) :=
  m.removeLoop key m.allocated (m.buckets (m.hash key))

end Keys

/-- The walk of `collect_garbage` over bucket `i`. -/
def sweep (i : ℕ) : ℕ → Map Key Value → Option ℕ → Option ℕ → Outcome (Map Key Value)
  | _, m, _, none => .ok m
  | 0, _, _, some _ => .error .outOfRounds
  | rounds + 1, m, prev, some x => do
    let n ← m.load x
    if n.dead then
      let m ← match prev with
        | some p => m.storeNext p n.next
        | none => .ok (m.storeBucket i n.next)
      sweep i rounds (m.deleteNode x) prev n.next
    else sweep i rounds m (some x) n.next

def collectGarbage (m : Map Key Value) : Outcome (Map Key Value) :=
  (List.range m.bucketCount).foldlM (fun m i => sweep i m.allocated m none (m.buckets i)) m

structure Iterator where
  bucketIndex : ℕ
  currentNode : Option ℕ

/-- The inner loop of `AdvanceToLive`. -/
def skipDead (m : Map Key Value) : ℕ → Option ℕ → Outcome (Option ℕ)
  | _, none => .ok none
  | 0, some _ => .error .outOfRounds
  | rounds + 1, some x => do
    let n ← m.load x
    if n.dead then skipDead m rounds n.next else .ok (some x)

def advanceToLive (m : Map Key Value) : ℕ → Iterator → Outcome Iterator
  | 0, _ => .error .outOfRounds
  | rounds + 1, it => do
    let currentNode ← m.skipDead m.allocated it.currentNode
    if currentNode.isSome ∨ it.bucketIndex ≥ m.bucketCount - 1 then
      .ok ⟨it.bucketIndex, currentNode⟩
    else advanceToLive m rounds ⟨it.bucketIndex + 1, m.buckets (it.bucketIndex + 1)⟩

/-- The constructor of `Iterator`. -/
def iterator (m : Map Key Value) (bucketIndex : ℕ) (node : Option ℕ) : Outcome Iterator :=
  m.advanceToLive (m.bucketCount + 1) ⟨bucketIndex, node⟩

def iteratorEnd (m : Map Key Value) : Outcome Iterator := m.iterator m.bucketCount none

/-- The loop of `begin` over the buckets that remain. -/
def beginLoop (m : Map Key Value) : List ℕ → Outcome Iterator
  | [] => m.iteratorEnd
  | i :: rest =>
    match m.buckets i with
    | some node => m.iterator i (some node)
    | none => beginLoop m rest

def iteratorBegin (m : Map Key Value) : Outcome Iterator := m.beginLoop (List.range m.bucketCount)

/-- `operator++` -/
def increment (m : Map Key Value) (it : Iterator) : Outcome Iterator :=
  match it.currentNode with
  | some x => do
    let n ← m.load x
    m.iterator it.bucketIndex n.next
  | none => m.iterator it.bucketIndex none

/-- `operator*` -/
def designated (m : Map Key Value) (it : Iterator) : Outcome (Entry Key Value) :=
  match it.currentNode with
  | some x => do
    let n ← m.load x
    .ok ⟨x, n.key, n.value⟩
  | none => .error .freedNode

/-- The loop `for (it = begin(); it != end(); ++it)`. -/
def iterateLoop (m : Map Key Value) : ℕ → Iterator → Outcome (List (Entry Key Value))
  | 0, it => do
    let stop ← m.iteratorEnd
    if it.currentNode = stop.currentNode then .ok [] else .error .outOfRounds
  | rounds + 1, it => do
    let stop ← m.iteratorEnd
    if it.currentNode = stop.currentNode then .ok []
    else do
      let e ← m.designated it
      let it ← m.increment it
      let rest ← iterateLoop m rounds it
      .ok (e :: rest)

def iterate (m : Map Key Value) : Outcome (List (Entry Key Value)) := do
  let it ← m.iteratorBegin
  m.iterateLoop m.allocated it

end Map

/-! Links and buckets. -/

theorem Map.next_storeNode (m : Map Key Value) (x : ℕ) (n : Node Key Value) :
    (m.storeNode x n).next = Function.update m.next x n.next := by
  funext y
  by_cases hy : y = x
  · subst hy
    simp [Map.next]
  · simp [Map.next, hy]

theorem next_congr {m m' : Map Key Value} {x : ℕ} (h : m'.nodes x = m.nodes x) :
    m'.next x = m.next x := by
  rw [Map.next, Map.next, h]

theorem next_mark {m : Map Key Value} {x : ℕ} {n : Node Key Value} (hn : m.nodes x = some n) :
    (m.storeNode x { n with dead := true }).next = m.next := by
  rw [Map.next_storeNode]
  exact Function.update_eq_self_iff.mpr (by rw [Map.next, hn]; rfl)

theorem hash_congr [IntegralKey Key] {m m' : Map Key Value} (h : m'.bucketCount = m.bucketCount) :
    (m'.hash : Key → ℕ) = m.hash := by
  funext key
  rw [Map.hash, Map.hash, h]

/-! Calls of one thread. -/

inductive Call (Key Value : Type) where
  /-- With the number of spurious failures of its weak exchange. -/
  | insert (failures : ℕ) (key : Key) (value : Value)
  | find (key : Key)
  | remove (key : Key)
  | iterate
  | collectGarbage

inductive Answer (Key Value : Type) where
  | done
  | found (value : Option Value)
  | removed (flag : Bool)
  | visited (entries : List (Entry Key Value))
  deriving DecidableEq

variable [IntegralKey Key] [DecidableEq Key]

def exec (m : Map Key Value) : Call Key Value → Outcome (Map Key Value × Answer Key Value)
  | .insert failures key value => do
    let m ← m.insert failures key value
    .ok (m, .done)
  | .find key => do
    let v ← m.find key
    .ok (m, .found v)
  | .remove key => do
    let (m, flag) ← m.remove key
    .ok (m, .removed flag)
  | .iterate => do
    let entries ← m.iterate
    .ok (m, .visited entries)
  | .collectGarbage => do
    let m ← m.collectGarbage
    .ok (m, .done)

/-! The map as one stack of values per key, and the nodes that represent it: the bucket
of a key is a chain whose unmarked nodes of the key, from the head on, are its stack. -/

open Library.LinkedChain List Option
open Function (update update_self update_of_ne)

variable {Key Value : Type}

/-- The remaining values of each key, newest first, with their nodes; and the nodes that
were removed and not collected. -/
structure Stacks (Key Value : Type) where
  stack : Key → List (ℕ × Value)
  removed : Set ℕ
  inserted : ℕ

namespace Stacks

def empty : Stacks Key Value := ⟨fun _ => [], ∅, 0⟩

variable [DecidableEq Key]

@[simps] def push (t : Stacks Key Value) (key : Key) (value : Value) : Stacks Key Value :=
  { t with
    stack := update t.stack key ((t.inserted, value) :: t.stack key)
    inserted := t.inserted + 1 }

@[simps] def pop (t : Stacks Key Value) (key : Key) (x : ℕ) : Stacks Key Value :=
  { t with
    stack := update t.stack key (t.stack key).tail
    removed := insert x t.removed }

def Allowed (t : Stacks Key Value) : Call Key Value → Answer Key Value → Stacks Key Value → Prop
  | .insert _ key value, r, t' => r = .done ∧ t' = t.push key value
  | .find key, r, t' => r = .found ((t.stack key).head?.map (·.2)) ∧ t' = t
  | .remove key, r, t' =>
    match (t.stack key).head? with
    | none => r = .removed false ∧ t' = t
    | some (x, _) => r = .removed true ∧ t' = t.pop key x
  | .iterate, r, t' => t' = t ∧ ∃ entries : List (Entry Key Value), r = .visited entries ∧
      (entries.map (·.node)).Nodup ∧
      ∀ e : Entry Key Value, e ∈ entries ↔ (e.node, e.value) ∈ t.stack e.key
  | .collectGarbage, r, t' => r = .done ∧ t' = { t with removed := ∅ }

end Stacks

namespace Map

def entry [DecidableEq Key] (m : Map Key Value) (key : Key) (x : ℕ) : Option (ℕ × Value) :=
  (m.nodes x).bind fun n => if n.key = key ∧ n.dead = false then some (x, n.value) else none

end Map

variable [IntegralKey Key]

/-- The nodes of bucket `b` are `chain b`. -/
structure Chained (m : Map Key Value) (chain : ℕ → List ℕ) : Prop where
  segment : ∀ b, Segment m.next (m.buckets b) (chain b) none
  home : ∀ b, ∀ x ∈ chain b, ∃ n, m.nodes x = some n ∧ m.hash n.key = b
  covered : ∀ x n, m.nodes x = some n → x ∈ chain (m.hash n.key)
  bounded : ∀ x n, m.nodes x = some n → x < m.allocated

structure Represents [DecidableEq Key] (m : Map Key Value) (chain : ℕ → List ℕ)
    (t : Stacks Key Value) : Prop extends Chained m chain where
  inserted : t.inserted = m.allocated
  stack : ∀ key, t.stack key = (chain (m.hash key)).filterMap (m.entry key)
  removed : ∀ x, x ∈ t.removed ↔ ∃ n, m.nodes x = some n ∧ n.dead = true

namespace Chained

variable {m : Map Key Value} {chain : ℕ → List ℕ}

section

variable (h : Chained m chain)
include h

theorem lt {b x : ℕ} (hx : x ∈ chain b) : x < m.allocated := by
  obtain ⟨n, hn, -⟩ := h.home b x hx
  exact h.bounded x n hn

theorem length_le (b : ℕ) : (chain b).length ≤ m.allocated := by
  have hsub : (chain b) ⊆ range m.allocated := fun x hx => mem_range.mpr (h.lt hx)
  have := (subperm_of_subset (h.segment b).nodup hsub).length_le
  rwa [length_range] at this

theorem unallocated : m.nodes m.allocated = none := by
  cases hn : m.nodes m.allocated with
  | none => rfl
  | some n => exact absurd (h.bounded _ n hn) (Nat.lt_irrefl _)

theorem new_notMem (b : ℕ) : m.allocated ∉ chain b := fun hmem =>
  absurd (h.lt hmem) (Nat.lt_irrefl _)

theorem home_eq {b c x : ℕ} (hb : x ∈ chain b) (hc : x ∈ chain c) : b = c := by
  obtain ⟨n, hn, rfl⟩ := h.home b x hb
  obtain ⟨n', hn', rfl⟩ := h.home c x hc
  rw [hn] at hn'
  cases hn'
  rfl

end

end Chained

/-! `insert` -/

omit [IntegralKey Key] in
theorem insertLoop_eq {m : Map Key Value} {index new : ℕ} {n : Node Key Value}
    (hn : m.nodes new = some n) (failures : ℕ) : m.insertLoop index new (m.buckets index) failures =
      .ok ((m.storeNode new { n with next := m.buckets index }).storeBucket index (some new)) := by
  have hstore : ∀ {m : Map Key Value} {n}, m.nodes new = some n → ∀ p,
      m.storeNext new p = .ok (m.storeNode new { n with next := p }) := by
    intro m n hn p
    rw [Map.storeNext, Map.load, hn]
    rfl
  induction failures generalizing m n with
  | zero =>
    rw [Map.insertLoop, hstore hn]
    exact if_pos rfl
  | succ failures ih =>
    rw [Map.insertLoop, hstore hn]
    refine (ih (update_self _ _ _)).trans ?_
    simp [Map.storeBucket, Map.storeNode]

/-- The map after `insert` has pushed its node. -/
def Map.pushed (m : Map Key Value) (key : Key) (value : Value) : Map Key Value :=
  { m with
    buckets := update m.buckets (m.hash key) (some m.allocated)
    nodes := update m.nodes m.allocated
      (some ⟨key, value, m.buckets (m.hash key), false⟩)
    allocated := m.allocated + 1 }

theorem insert_eq (m : Map Key Value) (failures : ℕ) (key : Key) (value : Value) :
    m.insert failures key value = .ok (m.pushed key value) := by
  refine (insertLoop_eq (update_self _ _ _) failures).trans ?_
  simp [Map.pushed, Map.storeBucket, Map.storeNode, Map.newNode]

theorem Chained.pushed {m : Map Key Value} {chain : ℕ → List ℕ} (h : Chained m chain) (key : Key)
    (value : Value) : Chained (m.pushed key value)
      (update chain (m.hash key) (m.allocated :: chain (m.hash key))) := by
  have hnode : ∀ {x}, x ≠ m.allocated → (m.pushed key value).nodes x = m.nodes x := fun hx =>
    update_of_ne hx _ _
  have hnew : (m.pushed key value).nodes m.allocated =
      some ⟨key, value, m.buckets (m.hash key), false⟩ := update_self _ _ _
  have hold : ∀ b, Segment (m.pushed key value).next (m.buckets b) (chain b) none := fun b =>
    (h.segment b).congr fun x hx => next_congr (hnode (ne_of_mem_of_not_mem hx (h.new_notMem b)))
  have hhash : (m.pushed key value).hash = (m.hash : Key → ℕ) := rfl
  have hbuckets : (m.pushed key value).buckets =
    update m.buckets (m.hash key) (some m.allocated) := rfl
  refine ⟨fun b => ?_, fun b x hx => ?_, fun x n hx => ?_, fun x n hx => ?_⟩
  · rw [hbuckets]
    by_cases hb : b = m.hash key
    · subst hb
      rw [update_self, update_self]
      have hnext : (m.pushed key value).next m.allocated = m.buckets (m.hash key) := by
        rw [Map.next, hnew]
        rfl
      exact ⟨rfl, hnext ▸ hold _⟩
    · rw [update_of_ne hb, update_of_ne hb]
      exact hold b
  · rw [hhash]
    by_cases hxnew : x = m.allocated
    · subst hxnew
      by_cases hb : b = m.hash key
      · exact ⟨_, hnew, hb.symm⟩
      · rw [update_of_ne hb] at hx
        exact absurd hx (h.new_notMem b)
    · rw [hnode hxnew]
      refine h.home b x ?_
      by_cases hb : b = m.hash key
      · subst hb
        rw [update_self] at hx
        exact (mem_cons.mp hx).resolve_left hxnew
      · rwa [update_of_ne hb] at hx
  · rw [hhash]
    by_cases hxnew : x = m.allocated
    · subst hxnew
      rw [hnew] at hx
      cases hx
      rw [update_self]
      exact mem_cons_self
    · rw [hnode hxnew] at hx
      have hmem := h.covered x n hx
      by_cases hb : m.hash n.key = m.hash key
      · rw [hb, update_self]
        exact mem_cons_of_mem _ (hb ▸ hmem)
      · rwa [update_of_ne hb]
  · by_cases hxnew : x = m.allocated
    · rw [hxnew]
      exact Nat.lt_succ_self _
    · rw [hnode hxnew] at hx
      exact Nat.lt_succ_of_lt (h.bounded x n hx)

variable [DecidableEq Key]

omit [IntegralKey Key] in
theorem entry_congr {m m' : Map Key Value} {key : Key} {x : ℕ} (h : m'.nodes x = m.nodes x) :
    m'.entry key x = m.entry key x := by
  rw [Map.entry, Map.entry, h]

variable {t : Stacks Key Value}

theorem Represents.pushed {m : Map Key Value} {chain : ℕ → List ℕ} (h : Represents m chain t)
    (key : Key) (value : Value) : Represents (m.pushed key value)
      (update chain (m.hash key) (m.allocated :: chain (m.hash key)))
      (t.push key value) where
  toChained := h.toChained.pushed key value
  inserted := by
    rw [Stacks.push_inserted, h.inserted]
    rfl
  stack := fun k => by
    have hold : ∀ b, (chain b).filterMap ((m.pushed key value).entry k) =
        (chain b).filterMap (m.entry k) := fun b =>
      filterMap_congr fun x hx =>
        entry_congr (update_of_ne (ne_of_mem_of_not_mem hx (h.new_notMem b)) _ _)
    have hnew : (m.pushed key value).entry k m.allocated =
        if key = k then some (m.allocated, value) else none := by
      simp [Map.entry, Map.pushed]
    have hhash : (m.pushed key value).hash = (m.hash : Key → ℕ) := rfl
    rw [hhash, Stacks.push_stack]
    by_cases hk : k = key
    · subst hk
      rw [update_self, update_self, filterMap_cons, hnew, hold, h.inserted,
        h.stack]
      simp
    · rw [update_of_ne hk, h.stack]
      by_cases hb : m.hash k = m.hash key
      · rw [hb, update_self, filterMap_cons, hnew, if_neg (Ne.symm hk), hold]
      · rw [update_of_ne hb, hold]
  removed := fun x => by
    rw [Stacks.push_removed, h.removed]
    by_cases hx : x = m.allocated
    · subst hx
      simp [Map.pushed, h.unallocated]
    · simp [Map.pushed, hx]

/-! `find` -/

omit [IntegralKey Key] in
theorem findLoop_eq {m : Map Key Value} {key : Key} {l : List ℕ} {p : Option ℕ} {rounds : ℕ}
    (hp : Segment m.next p l none) (hl : ∀ x ∈ l, ∃ n, m.nodes x = some n)
    (hrounds : l.length ≤ rounds) :
    m.findLoop key rounds p = .ok ((l.filterMap (m.entry key)).head?.map (·.2)) := by
  induction l generalizing p rounds with
  | nil =>
    cases hp
    cases rounds <;> rfl
  | cons x l ih =>
    obtain ⟨rfl, hl'⟩ := hp
    obtain ⟨n, hn⟩ := hl x (by simp)
    cases rounds with
    | zero => simp at hrounds
    | succ rounds =>
      have hload : m.load x = .ok n := by rw [Map.load, hn]
      have hnext : m.next x = n.next := by rw [Map.next, hn]; rfl
      have hrest := ih (hnext ▸ hl') (fun y hy => hl y (by simp [hy]))
        (Nat.le_of_succ_le_succ hrounds)
      rw [Map.findLoop, hload]
      refine Eq.trans (b := if n.key = key ∧ n.dead = false then .ok (some n.value)
        else m.findLoop key rounds n.next) rfl ?_
      rw [hrest, filterMap_cons, Map.entry, hn, bind_some]
      split <;> rfl

theorem Represents.find {m : Map Key Value} {chain : ℕ → List ℕ} (h : Represents m chain t)
    (key : Key) : m.find key = .ok ((t.stack key).head?.map (·.2)) := by
  rw [h.stack]
  refine findLoop_eq (h.segment _) (fun x hx => ?_) (h.length_le _)
  obtain ⟨n, hn, -⟩ := h.home _ x hx
  exact ⟨n, hn⟩

/-! `remove` -/

omit [IntegralKey Key] [DecidableEq Key] in
/-- `x->dead = true` -/
@[simps] def Map.mark (m : Map Key Value) (x : ℕ) : Map Key Value :=
  { m with nodes := update m.nodes x ((m.nodes x).map fun n => { n with dead := true }) }

section

omit [IntegralKey Key]

theorem removeLoop_eq {m : Map Key Value} (key : Key) {l : List ℕ} {p : Option ℕ} {rounds : ℕ}
    (hp : Segment m.next p l none) (hl : ∀ x ∈ l, ∃ n, m.nodes x = some n)
    (hrounds : l.length ≤ rounds) :
    m.removeLoop key rounds p = match (l.filterMap (m.entry key)).head? with
      | none => .ok (m, false)
      | some (x, _) => .ok (m.mark x, true) := by
  induction l generalizing p rounds with
  | nil =>
    cases hp
    cases rounds <;> rfl
  | cons x l ih =>
    obtain ⟨rfl, hl'⟩ := hp
    obtain ⟨n, hn⟩ := hl x (by simp)
    cases rounds with
    | zero => simp at hrounds
    | succ rounds =>
      have hload : m.load x = .ok n := by rw [Map.load, hn]
      have hnext : m.next x = n.next := by rw [Map.next, hn]; rfl
      have hrest := ih (hnext ▸ hl') (fun y hy => hl y (by simp [hy]))
        (Nat.le_of_succ_le_succ hrounds)
      by_cases hlive : n.key = key ∧ n.dead = false
      · have hentry : m.entry key x = some (x, n.value) := by
          rw [Map.entry, hn, bind_some, if_pos hlive]
        rw [Map.removeLoop, hload, filterMap_cons, hentry]
        simp [bind, Except.bind, hlive, Map.mark, hn, Map.storeNode]
      · have hentry : m.entry key x = none := by
          rw [Map.entry, hn, bind_some, if_neg hlive]
        rw [Map.removeLoop, hload, filterMap_cons, hentry]
        exact (if_neg hlive).trans hrest

theorem entry_eq_some {m : Map Key Value} {key : Key} {x y : ℕ} {v : Value} :
    m.entry key y = some (x, v) ↔
      y = x ∧ ∃ n, m.nodes x = some n ∧ n.key = key ∧ n.dead = false ∧ n.value = v := by
  simp only [Map.entry, bind_eq_some_iff, ite_none_right_eq_some, Option.some.injEq,
    Prod.mk.injEq]
  constructor
  · rintro ⟨n, hn, ⟨hkey, hdead⟩, rfl, hv⟩
    exact ⟨rfl, n, hn, hkey, hdead, hv⟩
  · rintro ⟨rfl, n, hn, hkey, hdead, hv⟩
    exact ⟨n, hn, ⟨hkey, hdead⟩, rfl, hv⟩

end

section

omit [IntegralKey Key] [DecidableEq Key]

theorem nodes_mark (m : Map Key Value) (x y : ℕ) : (m.mark x).nodes y =
    (m.nodes y).map fun n => { n with dead := n.dead || decide (y = x) } := by
  by_cases hy : y = x
  · subst hy
    simp
  · rw [Map.mark_nodes, update_of_ne hy]
    simp [hy]

theorem next_markNode (m : Map Key Value) (x : ℕ) : (m.mark x).next = m.next := by
  funext y
  rw [Map.next, Map.next, nodes_mark]
  cases m.nodes y <;> rfl

end

omit [IntegralKey Key] in
theorem entry_mark (m : Map Key Value) (key : Key) (x y : ℕ) :
    (m.mark x).entry key y = if y = x then none else m.entry key y := by
  rw [Map.entry, Map.entry, nodes_mark]
  cases m.nodes y with
  | none => simp
  | some n => by_cases hy : y = x <;> simp [hy]

theorem filterMap_tail {α β : Type} [DecidableEq α] {f g : α → Option β} {l : List α} {x : α}
    {b : β} (hl : l.Nodup) (hg : ∀ y, g y = if y = x then none else f y)
    (hb : ∀ y, f y = some b → y = x) (hhead : (l.filterMap f).head? = some b) :
    l.filterMap g = (l.filterMap f).tail := by
  induction l with
  | nil => rfl
  | cons y l ih =>
    obtain ⟨hy, hl⟩ := nodup_cons.mp hl
    rw [filterMap_cons] at hhead ⊢
    cases hf : f y with
    | none =>
      rw [hf] at hhead
      have hgy : g y = none := by
        rw [hg, hf]
        exact ite_self _
      rw [hgy, filterMap_cons, hf]
      exact ih hl hhead
    | some c =>
      rw [hf] at hhead
      have hc : c = b := Option.some.inj hhead
      have hyx : y = x := hb y (hc ▸ hf)
      rw [hg, if_pos hyx, filterMap_cons, hf]
      refine filterMap_congr fun z hz => ?_
      rw [hg, if_neg fun hzx => hy (by rwa [hyx, ← hzx])]

omit [DecidableEq Key] in
theorem Chained.mark {m : Map Key Value} {chain : ℕ → List ℕ} (h : Chained m chain) (x : ℕ) :
    Chained (m.mark x) chain where
  segment := fun b => by
    rw [next_markNode]
    exact h.segment b
  home := fun b y hy => by
    obtain ⟨n, hn, hb⟩ := h.home b y hy
    exact ⟨{ n with dead := n.dead || decide (y = x) }, by rw [nodes_mark, hn]; rfl, hb⟩
  covered := fun y n hy => by
    rw [nodes_mark] at hy
    obtain ⟨n', hn', rfl⟩ := map_eq_some_iff.mp hy
    exact h.covered y n' hn'
  bounded := fun y n hy => by
    rw [nodes_mark] at hy
    obtain ⟨n', hn', -⟩ := map_eq_some_iff.mp hy
    exact h.bounded y n' hn'

theorem Represents.mark {m : Map Key Value} {chain : ℕ → List ℕ} (h : Represents m chain t)
    {key : Key} {x : ℕ} {v : Value} (hx : (t.stack key).head? = some (x, v)) :
    Represents (m.mark x) chain (t.pop key x) := by
  have hhash : (m.mark x).hash = (m.hash : Key → ℕ) := rfl
  rw [h.stack] at hx
  obtain ⟨y, -, hy⟩ := mem_filterMap.mp (mem_of_mem_head? hx)
  obtain ⟨rfl, n, hn, hkey, -, hv⟩ := entry_eq_some.mp hy
  refine ⟨h.toChained.mark y, h.inserted, fun k => ?_, fun z => ?_⟩
  · rw [hhash, Stacks.pop_stack]
    by_cases hk : k = key
    · subst hk
      rw [update_self, h.stack]
      exact (filterMap_tail (h.segment _).nodup (entry_mark m k y)
        (fun z hz => (entry_eq_some.mp hz).1) hx).symm
    · rw [update_of_ne hk, h.stack]
      refine filterMap_congr fun z _ => ?_
      rw [entry_mark]
      split
      case isTrue hz =>
        subst hz
        rw [Map.entry, hn, bind_some, if_neg fun hlive => hk (hlive.1.symm.trans hkey)]
      case isFalse => rfl
  · rw [Stacks.pop_removed, Set.mem_insert_iff, h.removed, nodes_mark]
    constructor
    · rintro (rfl | ⟨n', hn', hdead⟩)
      · exact ⟨{ n with dead := true }, by rw [hn]; simp, rfl⟩
      · exact ⟨{ n' with dead := true }, by rw [hn']; simp [hdead], rfl⟩
    · rintro ⟨n', hn', hdead⟩
      obtain ⟨n'', hn'', rfl⟩ := map_eq_some_iff.mp hn'
      by_cases hz : z = y
      · exact .inl hz
      · exact .inr ⟨n'', hn'', by simpa [hz] using hdead⟩

theorem Represents.remove {m : Map Key Value} {chain : ℕ → List ℕ} (h : Represents m chain t)
    (key : Key) : ∃ m' flag t', m.remove key = .ok (m', flag) ∧
      t.Allowed (.remove key) (.removed flag) t' ∧ m'.bucketCount = m.bucketCount ∧
      Represents m' chain t' := by
  have hloop := removeLoop_eq key (h.segment (m.hash key)) (fun x hx => by
    obtain ⟨n, hn, -⟩ := h.home _ x hx
    exact ⟨n, hn⟩) (h.length_le _)
  rw [← h.stack] at hloop
  cases hhead : (t.stack key).head? with
  | none =>
    rw [hhead] at hloop
    exact ⟨m, false, t, hloop, by simp [Stacks.Allowed, hhead], rfl, h⟩
  | some p =>
    obtain ⟨x, v⟩ := p
    rw [hhead] at hloop
    exact ⟨m.mark x, true, t.pop key x, hloop, by simp [Stacks.Allowed, hhead], rfl,
      h.mark hhead⟩

end Equilibrium.LockFreeHashMap
