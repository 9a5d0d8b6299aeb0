import Equilibrium.Containers.ConcurrentOrderedMap
import Equilibrium.Library.DoublyLinked

/-! What the operations of `ConcurrentOrderedMap` do with the pointers of the nodes. -/

namespace Equilibrium.ConcurrentOrderedMap

open Library.LinkedChain Library.DoublyLinked Function Option
open Function (update update_self update_of_ne update_eq_self update_idem)

variable {Key Value : Type} {m : ConcurrentOrderedMap Key Value} {n : Node Key Value} {x : ℕ}

def next (m : ConcurrentOrderedMap Key Value) (x : ℕ) : Option ℕ := (m.nodes x).bind (·.next)

def orderNext (m : ConcurrentOrderedMap Key Value) (x : ℕ) : Option ℕ :=
  (m.nodes x).bind (·.orderNext)

def orderPrev (m : ConcurrentOrderedMap Key Value) (x : ℕ) : Option ℕ :=
  (m.nodes x).bind (·.orderPrev)

def pair (m : ConcurrentOrderedMap Key Value) (x : ℕ) : Option (Key × Value) :=
  (m.nodes x).map fun n => (n.key, n.value)

theorem next_put : (m.put x n).next = update m.next x n.next :=
  comp_update (fun o : Option (Node Key Value) => o.bind (·.next)) m.nodes x (some n)

theorem orderNext_put : (m.put x n).orderNext = update m.orderNext x n.orderNext :=
  comp_update (fun o : Option (Node Key Value) => o.bind (·.orderNext)) m.nodes x (some n)

theorem orderPrev_put : (m.put x n).orderPrev = update m.orderPrev x n.orderPrev :=
  comp_update (fun o : Option (Node Key Value) => o.bind (·.orderPrev)) m.nodes x (some n)

theorem pair_put : (m.put x n).pair = update m.pair x (some (n.key, n.value)) :=
  comp_update (fun o : Option (Node Key Value) =>
    o.map fun n : Node Key Value => (n.key, n.value)) m.nodes x (some n)

theorem next_free : (m.free x).next = update m.next x none :=
  comp_update (fun o : Option (Node Key Value) => o.bind (·.next)) m.nodes x none

theorem orderNext_free : (m.free x).orderNext = update m.orderNext x none :=
  comp_update (fun o : Option (Node Key Value) => o.bind (·.orderNext)) m.nodes x none

theorem orderPrev_free : (m.free x).orderPrev = update m.orderPrev x none :=
  comp_update (fun o : Option (Node Key Value) => o.bind (·.orderPrev)) m.nodes x none

theorem pair_free : (m.free x).pair = update m.pair x none :=
  comp_update (fun o : Option (Node Key Value) =>
    o.map fun n : Node Key Value => (n.key, n.value)) m.nodes x none

theorem fields_congr {m' : ConcurrentOrderedMap Key Value} (h : m'.nodes = m.nodes) :
    m'.next = m.next ∧ m'.orderNext = m.orderNext ∧ m'.orderPrev = m.orderPrev ∧
      m'.pair = m.pair := by
  refine ⟨?_, ?_, ?_, ?_⟩
  · funext x
    rw [next, next, h]
  · funext x
    rw [orderNext, orderNext, h]
  · funext x
    rw [orderPrev, orderPrev, h]
  · funext x
    rw [pair, pair, h]

theorem orderTail_put : (m.put x n).orderTail = m.orderTail := rfl

section Fields

variable (hn : m.nodes x = some n)

include hn

theorem next_eq : m.next x = n.next := by rw [next, hn, bind_some]

theorem orderNext_eq : m.orderNext x = n.orderNext := by rw [orderNext, hn, bind_some]

theorem orderPrev_eq : m.orderPrev x = n.orderPrev := by rw [orderPrev, hn, bind_some]

theorem pair_eq : m.pair x = some (n.key, n.value) := by rw [pair, hn, map_some]

variable {n' : Node Key Value}

theorem next_put_eq (h : n'.next = n.next) : (m.put x n').next = m.next := by
  rw [next_put, h, ← next_eq hn, update_eq_self]

theorem orderNext_put_eq (h : n'.orderNext = n.orderNext) :
    (m.put x n').orderNext = m.orderNext := by
  rw [orderNext_put, h, ← orderNext_eq hn, update_eq_self]

theorem orderPrev_put_eq (h : n'.orderPrev = n.orderPrev) :
    (m.put x n').orderPrev = m.orderPrev := by
  rw [orderPrev_put, h, ← orderPrev_eq hn, update_eq_self]

theorem pair_put_eq (hkey : n'.key = n.key) (hvalue : n'.value = n.value) :
    (m.put x n').pair = m.pair := by
  rw [pair_put, hkey, hvalue, ← pair_eq hn, update_eq_self]

theorem load_eq : m.load x = .ok n := by rw [load, hn]

theorem store_eq {f : Node Key Value → Node Key Value} : m.store x f = .ok (m.put x (f n)) := by
  rw [store, load_eq hn]
  rfl

end Fields

theorem exists_node {p : Key × Value} (h : m.pair x = some p) :
    ∃ n, m.nodes x = some n ∧ n.key = p.1 ∧ n.value = p.2 := by
  obtain ⟨n, hn, rfl⟩ := map_eq_some_iff.mp h
  exact ⟨n, hn, rfl, rfl⟩

/-- A store into the list in the order of insertion. -/
structure Relinked (m m' : ConcurrentOrderedMap Key Value) (orderNext orderPrev : ℕ → Option ℕ)
    (orderHead orderTail : Option ℕ) : Prop where
  orderNext : m'.orderNext = orderNext
  orderPrev : m'.orderPrev = orderPrev
  orderHead : m'.orderHead = orderHead
  orderTail : m'.orderTail = orderTail
  next : m'.next = m.next
  pair : m'.pair = m.pair
  buckets : m'.buckets = m.buckets
  bucketCount : m'.bucketCount = m.bucketCount
  size : m'.size = m.size

/-- The node that a pointer leads to, if it leads to one, is there. -/
def Alive (m : ConcurrentOrderedMap Key Value) (p : Option ℕ) : Prop :=
  ∀ x, p = some x → ∃ n, m.nodes x = some n

theorem setOrderNext_spec {prev : Option ℕ} (hprev : m.Alive prev) (v : Option ℕ) : ∃ m',
    m.setOrderNext prev v = .ok m' ∧ Relinked m m' (setLink m.orderNext prev v) m.orderPrev
      (if prev = none then v else m.orderHead) m.orderTail := by
  cases prev with
  | none => exact ⟨{ m with orderHead := v }, rfl, rfl, rfl, rfl, rfl, rfl, rfl, rfl, rfl, rfl⟩
  | some p =>
    obtain ⟨n, hn⟩ := hprev p rfl
    exact ⟨_, store_eq hn, orderNext_put, orderPrev_put_eq hn rfl, rfl, rfl, next_put_eq hn rfl,
      pair_put_eq hn rfl rfl, rfl, rfl, rfl⟩

theorem setOrderPrev_spec {next : Option ℕ} (hnext : m.Alive next) (v : Option ℕ) : ∃ m',
    m.setOrderPrev next v = .ok m' ∧ Relinked m m' m.orderNext (setLink m.orderPrev next v)
      m.orderHead (if next = none then v else m.orderTail) := by
  cases next with
  | none => exact ⟨{ m with orderTail := v }, rfl, rfl, rfl, rfl, rfl, rfl, rfl, rfl, rfl, rfl⟩
  | some p =>
    obtain ⟨n, hn⟩ := hnext p rfl
    exact ⟨_, store_eq hn, orderNext_put_eq hn rfl, orderPrev_put, rfl, rfl, next_put_eq hn rfl,
      pair_put_eq hn rfl rfl, rfl, rfl, rfl⟩

theorem exists_node_iff : (∃ n, m.nodes x = some n) ↔ m.pair x ≠ none := by
  rw [pair]
  cases m.nodes x with
  | none => simp
  | some n => simp

theorem Alive.congr {m' : ConcurrentOrderedMap Key Value} {p : Option ℕ} (h : m.Alive p)
    (hpair : m'.pair = m.pair) : m'.Alive p := by
  intro x hx
  rw [exists_node_iff, hpair, ← exists_node_iff]
  exact h x hx

theorem orderListAppend_spec (hn : m.nodes x = some n) (htail : m.Alive m.orderTail) : ∃ m',
    m.orderListAppend x = .ok m' ∧
      Relinked m m' (setLink (update m.orderNext x none) m.orderTail (some x))
        (update m.orderPrev x m.orderTail)
        (if m.orderTail = none then some x else m.orderHead) (some x) := by
  have hpair : (m.put x { n with orderPrev := m.orderTail, orderNext := none }).pair = m.pair :=
    pair_put_eq hn rfl rfl
  obtain ⟨m', hm', hr⟩ := setOrderNext_spec (htail.congr hpair) (some x)
  refine ⟨{ m' with orderTail := some x }, ?_, hr.orderNext.trans (by rw [orderNext_put]),
    hr.orderPrev.trans orderPrev_put, hr.orderHead, rfl, hr.next.trans (next_put_eq hn rfl),
    hr.pair.trans hpair, hr.buckets, hr.bucketCount, hr.size⟩
  simp only [orderListAppend, store_eq hn, bind, Except.bind, pure, Except.pure, orderTail_put, hm']

theorem orderListUnlink_spec (hn : m.nodes x = some n) (hprev : m.Alive n.orderPrev)
    (hnext : m.Alive n.orderNext) (hne : n.orderPrev ≠ some x) : ∃ m',
    m.orderListUnlink x = .ok m' ∧ Relinked m m' (setLink m.orderNext n.orderPrev n.orderNext)
        (setLink m.orderPrev n.orderNext n.orderPrev)
        (if n.orderPrev = none then n.orderNext else m.orderHead)
        (if n.orderNext = none then n.orderPrev else m.orderTail) := by
  obtain ⟨m₁, hm₁, hr₁⟩ := setOrderNext_spec hprev n.orderNext
  have hpair := hr₁.pair
  obtain ⟨n₁, hn₁⟩ := exists_node_iff.mpr (by rw [hpair, pair_eq hn]; exact nofun)
  have hnext₁ : n₁.orderNext = n.orderNext := by
    rw [← orderNext_eq hn₁, hr₁.orderNext, setLink_of_ne hne, orderNext_eq hn]
  have hprev₁ : n₁.orderPrev = n.orderPrev := by
    rw [← orderPrev_eq hn₁, hr₁.orderPrev, orderPrev_eq hn]
  obtain ⟨m₂, hm₂, hr₂⟩ := setOrderPrev_spec (hnext.congr hpair) n.orderPrev
  refine ⟨m₂, ?_, hr₂.orderNext.trans hr₁.orderNext, hr₂.orderPrev.trans (by rw [hr₁.orderPrev]),
    hr₂.orderHead.trans hr₁.orderHead, hr₂.orderTail.trans (by rw [hr₁.orderTail]),
    hr₂.next.trans hr₁.next, hr₂.pair.trans hpair, hr₂.buckets.trans hr₁.buckets,
    hr₂.bucketCount.trans hr₁.bucketCount, hr₂.size.trans hr₁.size⟩
  simp only [orderListUnlink, load_eq hn, bind, Except.bind, hm₁, load_eq hn₁, hnext₁, hprev₁, hm₂]

/-- The node `x` between `prev` and `next` is gone. -/
structure Removed (m m' : ConcurrentOrderedMap Key Value) (idx : ℕ) (prev : Option ℕ) (x : ℕ) :
    Prop where
  next : m'.next = update (setLink m.next prev (m.next x)) x none
  buckets : m'.buckets =
    if prev = none then update m.buckets idx (m.next x) else m.buckets
  orderNext : m'.orderNext =
    update (setLink m.orderNext (m.orderPrev x) (m.orderNext x)) x none
  orderPrev : m'.orderPrev =
    update (setLink m.orderPrev (m.orderNext x) (m.orderPrev x)) x none
  orderHead : m'.orderHead = if m.orderPrev x = none then m.orderNext x else m.orderHead
  orderTail : m'.orderTail = if m.orderNext x = none then m.orderPrev x else m.orderTail
  pair : m'.pair = update m.pair x none
  bucketCount : m'.bucketCount = m.bucketCount
  size : m'.size = if m.size = 0 then sizeRange - 1 else m.size - 1

/-- A store into a bucket chain. -/
structure Rechained (m m' : ConcurrentOrderedMap Key Value) (next : ℕ → Option ℕ)
    (buckets : ℕ → Option ℕ) : Prop where
  next : m'.next = next
  buckets : m'.buckets = buckets
  orderNext : m'.orderNext = m.orderNext
  orderPrev : m'.orderPrev = m.orderPrev
  orderHead : m'.orderHead = m.orderHead
  orderTail : m'.orderTail = m.orderTail
  pair : m'.pair = m.pair
  bucketCount : m'.bucketCount = m.bucketCount
  size : m'.size = m.size

theorem setNext_spec {prev : Option ℕ} (hprev : m.Alive prev) (idx : ℕ) (v : Option ℕ) : ∃ m',
    m.setNext idx prev v = .ok m' ∧ Rechained m m' (setLink m.next prev v)
      (if prev = none then update m.buckets idx v else m.buckets) := by
  cases prev with
  | none => exact ⟨m.setBucket idx v, rfl, rfl, rfl, rfl, rfl, rfl, rfl, rfl, rfl, rfl⟩
  | some p =>
    obtain ⟨n, hn⟩ := hprev p rfl
    exact ⟨_, store_eq hn, next_put, rfl, orderNext_put_eq hn rfl, orderPrev_put_eq hn rfl, rfl,
      rfl, pair_put_eq hn rfl rfl, rfl, rfl⟩

theorem removeNode_spec (idx : ℕ) {prev : Option ℕ} (hx : m.Alive (some x)) (hprev : m.Alive prev)
    (horderPrev : m.Alive (m.orderPrev x)) (horderNext : m.Alive (m.orderNext x)) (horderNe : m.orderPrev x ≠ some x) : ∃ m',
    m.removeNode idx prev x = .ok m' ∧ Removed m m' idx prev x := by
  obtain ⟨n, hn⟩ := hx x rfl
  obtain ⟨m₁, hm₁, hr₁⟩ := setNext_spec hprev idx n.next
  obtain ⟨n₁, hn₁⟩ := hx.congr hr₁.pair x rfl
  have hnext₁ : n₁.orderNext = m.orderNext x := by rw [← orderNext_eq hn₁, hr₁.orderNext]
  have hprev₁ : n₁.orderPrev = m.orderPrev x := by rw [← orderPrev_eq hn₁, hr₁.orderPrev]
  obtain ⟨m₂, hm₂, hr₂⟩ := orderListUnlink_spec hn₁
    (hprev₁ ▸ horderPrev.congr hr₁.pair) (hnext₁ ▸ horderNext.congr hr₁.pair)
    (hprev₁ ▸ horderNe)
  obtain ⟨n₂, hn₂⟩ := (hx.congr hr₁.pair).congr hr₂.pair x rfl
  have hnodes : (m₂.free x).decrementSize.nodes = (m₂.free x).nodes := rfl
  obtain ⟨hnext, horderNext, horderPrev, hpair⟩ :=
    fields_congr hnodes
  refine ⟨(m₂.free x).decrementSize, ?_, ?_, ?_, ?_, ?_, ?_, ?_, ?_, ?_, ?_⟩
  · simp only [removeNode, load_eq hn, bind, Except.bind, hm₁, hm₂, deleteNode, load_eq hn₂, pure,
      Except.pure]
  · rw [hnext, next_free, hr₂.next, hr₁.next, next_eq hn]
  · exact hr₂.buckets.trans (by rw [hr₁.buckets, next_eq hn])
  · rw [horderNext, orderNext_free, hr₂.orderNext, hr₁.orderNext, hprev₁, hnext₁]
  · rw [horderPrev, orderPrev_free, hr₂.orderPrev, hr₁.orderPrev, hprev₁, hnext₁]
  · exact hr₂.orderHead.trans (by rw [hr₁.orderHead, hprev₁, hnext₁])
  · exact hr₂.orderTail.trans (by rw [hr₁.orderTail, hprev₁, hnext₁])
  · rw [hpair, pair_free, hr₂.pair, hr₁.pair]
  · exact hr₂.bucketCount.trans hr₁.bucketCount
  · simp only [decrementSize, free, hr₂.size, hr₁.size]

def Free (m : ConcurrentOrderedMap Key Value) (x : ℕ) : Prop :=
  0 < x ∧ x < addressSpace ∧ m.pair x = none

section Inserts

variable {key : Key} {value : Value}

theorem newNode_eq (hx : m.Free x) :
    m.newNode x key value = .ok (m.put x ⟨key, value, none, none, none⟩) := by
  obtain ⟨hpos, hlt, hpair⟩ := hx
  have hnone : (m.nodes x).isNone := by
    rw [isNone_iff_eq_none]
    exact map_eq_none_iff.mp hpair
  rw [newNode, if_pos ⟨hpos, hlt, hnone⟩]

theorem newNode_error (hx : ¬ m.Free x) : m.newNode x key value = .error .badAddress := by
  refine if_neg fun h => hx ⟨h.1, h.2.1, ?_⟩
  rw [pair, isNone_iff_eq_none.mp h.2.2, map_none]

theorem buckets_put : (m.put x n).buckets = m.buckets := rfl

variable [Hashable Key]

theorem bucketIndex_put : (m.put x n).bucketIndex key = m.bucketIndex key := rfl

/-- The new node `x` is the first of its bucket and the last in order. -/
structure Inserted (m m' : ConcurrentOrderedMap Key Value) (x : ℕ) (key : Key) (value : Value) :
    Prop where
  next : m'.next = update m.next x (m.buckets (m.bucketIndex key))
  buckets : m'.buckets = update m.buckets (m.bucketIndex key) (some x)
  orderNext : m'.orderNext = setLink (update m.orderNext x none) m.orderTail (some x)
  orderPrev : m'.orderPrev = update m.orderPrev x m.orderTail
  orderHead : m'.orderHead = if m.orderTail = none then some x else m.orderHead
  orderTail : m'.orderTail = some x
  pair : m'.pair = update m.pair x (some (key, value))
  bucketCount : m'.bucketCount = m.bucketCount
  size : m'.size = (m.size + 1) % sizeRange

theorem bucketPushFront_eq (hn : m.nodes x = some n) :
    m.bucketPushFront x = .ok ((m.put x { n with next := m.buckets (m.bucketIndex n.key) }).setBucket
      (m.bucketIndex n.key) (some x)) := by
  rw [bucketPushFront, load_eq hn]
  simp only [bind, Except.bind, store_eq hn]
  rfl

theorem bucketPushFront_spec (hn : m.nodes x = some n) : ∃ m', m.bucketPushFront x = .ok m' ∧
    Rechained m m' (update m.next x (m.buckets (m.bucketIndex n.key)))
      (update m.buckets (m.bucketIndex n.key) (some x)) :=
  ⟨_, bucketPushFront_eq hn, next_put, rfl, orderNext_put_eq hn rfl, orderPrev_put_eq hn rfl, rfl,
    rfl, pair_put_eq hn rfl rfl, rfl, rfl⟩

theorem insert_spec (hx : m.Free x) (htail : m.Alive m.orderTail) :
    ∃ m', m.insert x key value = .ok m' ∧ Inserted m m' x key value := by
  have hn : (m.put x ⟨key, value, none, none, none⟩).nodes x =
    some ⟨key, value, none, none, none⟩ := update_self _ _ _
  have hpair : (m.put x ⟨key, value, none, none, none⟩).pair =
    update m.pair x (some (key, value)) := pair_put
  obtain ⟨m₁, hm₁, hr₁⟩ := bucketPushFront_spec hn
  obtain ⟨n₁, hn₁⟩ := exists_node_iff.mpr (by rw [hr₁.pair, pair_eq hn]; exact nofun)
  have htail₁ : m₁.Alive m₁.orderTail := by
    rw [hr₁.orderTail]
    intro t ht
    rw [exists_node_iff, hr₁.pair, hpair]
    by_cases h : t = x
    · rw [h, update_self]
      exact nofun
    · rw [update_of_ne h]
      exact exists_node_iff.mp (htail t ht)
  obtain ⟨m₂, hm₂, hr₂⟩ := orderListAppend_spec hn₁ htail₁
  refine ⟨m₂.incrementSize, ?_, ?_, ?_, ?_, ?_, ?_, hr₂.orderTail, ?_, ?_, ?_⟩
  · simp only [insert, newNode_eq hx, bind, Except.bind, hm₁, hm₂, pure, Except.pure]
  · refine hr₂.next.trans (hr₁.next.trans ?_)
    rw [next_put, update_idem]
    rfl
  · exact hr₂.buckets.trans hr₁.buckets
  · refine hr₂.orderNext.trans ?_
    rw [hr₁.orderNext, orderNext_put, update_idem, hr₁.orderTail, orderTail_put]
  · refine hr₂.orderPrev.trans ?_
    rw [hr₁.orderPrev, orderPrev_put, update_idem, hr₁.orderTail, orderTail_put]
  · refine hr₂.orderHead.trans ?_
    rw [hr₁.orderTail, orderTail_put, hr₁.orderHead]
    rfl
  · exact hr₂.pair.trans (hr₁.pair.trans hpair)
  · exact hr₂.bucketCount.trans hr₁.bucketCount
  · have hsize : m₂.size = m.size := hr₂.size.trans hr₁.size
    rw [← hsize]
    rfl

theorem insert_error (hx : ¬ m.Free x) : m.insert x key value = .error .badAddress := by
  rw [insert, newNode_error hx]
  rfl

end Inserts

end Equilibrium.ConcurrentOrderedMap
