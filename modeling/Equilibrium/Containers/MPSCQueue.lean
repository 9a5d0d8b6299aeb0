import Equilibrium.Library.Interleaving
import Mathlib.Data.Fintype.Defs

/-! The queue of `base/containers/mpsc_queue.h`: many producers, one consumer.
`enqueue` is the exchange of the head and then the store into the predecessor; the
consumer's calls are cut at every access of shared memory. A node is its address;
node `0` is the sentinel of the constructor. Touching a freed node, reading a value that is not there and
destroying one twice raise `fault`. The lists at the end of the state record the
history and are read by no step. -/

namespace Equilibrium.MPSCQueue

open Library.Interleaving
open Function (update)

structure Node (T : Type) where
  value : Option T
  next : Option ℕ
  freed : Bool
  /-- How often `value.~T()` ran. -/
  destructions : ℕ

/-- A producer's next access; before the exchange it alone knows its node and value. -/
inductive Producer (T : Type) where
  | idle
  | exchange (node : ℕ) (value : T)
  | link (node prevHead : ℕ)

inductive ConsumerOp where
  | dequeue
  | peek
  | removeFront
  deriving DecidableEq

inductive Consumer where
  | idle
  | loadNext (op : ConsumerOp) (tail : ℕ)
  | take (op : ConsumerOp) (tail next : ℕ)
  | storeTail (tail next : ℕ)
  | deleteTail (tail : ℕ)

/-- An `enqueue` in the order of the head exchanges. -/
structure Entry (Thread T : Type) where
  producer : Thread
  node : ℕ
  value : T

structure State (Thread T : Type) where
  nodes : ℕ → Node T
  allocated : ℕ
  head : ℕ
  tail : ℕ
  producer : Thread → Producer T
  consumer : Consumer
  destroyed : Bool
  fault : Bool
  /-- The values of each producer's calls. -/
  calls : Thread → List T
  exchanged : List (Entry Thread T)
  consumed : List T
  /-- What `peek` delivered, and how many values were consumed before. -/
  peeked : List (ℕ × T)

inductive Act (Thread T : Type) where
  | enqueue (t : Thread) (value : T)
  | produce (t : Thread)
  | call (op : ConsumerOp)
  | consume
  | destroy

variable {Thread T : Type}

@[simps] def State.touch (s : State Thread T) (x : ℕ) : State Thread T :=
  { s with fault := s.fault || (s.nodes x).freed }

/-- `x->value.~T()` -/
@[simps] def State.destroyValue (s : State Thread T) (x : ℕ) : State Thread T :=
  { s with
    nodes := update s.nodes x
      { s.nodes x with value := none, destructions := (s.nodes x).destructions + 1 }
    fault := s.fault || (s.nodes x).freed || (s.nodes x).value.isNone }

/-- `delete x` -/
@[simps] def State.deleteNode (s : State Thread T) (x : ℕ) : State Thread T :=
  { s with
    nodes := update s.nodes x { s.nodes x with freed := true }
    fault := s.fault || (s.nodes x).freed }

def State.readValue (s : State Thread T) (x : ℕ) (k : State Thread T → T → State Thread T) :
    State Thread T :=
  match (s.nodes x).value with
  | some v => k (s.touch x) v
  | none => { s.touch x with fault := true }

/-- The walk of the destructor after the sentinel. -/
def destroyChain : ℕ → State Thread T → Option ℕ → Option (State Thread T)
  | _, s, none => some s
  | 0, _, some _ => none
  | fuel + 1, s, some x =>
    destroyChain fuel (((s.touch x).destroyValue x).deleteNode x) (s.nodes x).next

def destructor (s : State Thread T) : Option (State Thread T) :=
  destroyChain s.allocated ((s.touch s.tail).deleteNode s.tail) (s.nodes s.tail).next

def consume (s : State Thread T) : Option (State Thread T) :=
  match s.consumer with
  | .idle => none
  | .loadNext op tl =>
    some { s.touch tl with
      consumer := match (s.nodes tl).next with
        | none => .idle
        | some nx => .take op tl nx }
  | .take .peek _ nx =>
    some (s.readValue nx fun s v =>
      { s with consumer := .idle, peeked := s.peeked ++ [(s.consumed.length, v)] })
  | .take _ tl nx =>
    some (s.readValue nx fun s v =>
      { s.destroyValue nx with consumer := .storeTail tl nx, consumed := s.consumed ++ [v] })
  | .storeTail tl nx => some { s with tail := nx, consumer := .deleteTail tl }
  | .deleteTail tl => some { s.deleteNode tl with consumer := .idle }

variable [DecidableEq Thread]

/-- `new Node(value)`: producer `t` goes on to exchange the head. -/
@[simps] def State.newNode (s : State Thread T) (t : Thread) (v : T) : State Thread T :=
  { s with
    nodes := update s.nodes s.allocated ⟨some v, none, false, 0⟩
    allocated := s.allocated + 1
    producer := update s.producer t (.exchange s.allocated v)
    calls := update s.calls t (s.calls t ++ [v]) }

/-- `head_.exchange(node)`, which also enters the history. -/
@[simps] def State.exchangeHead (s : State Thread T) (t : Thread) (n : ℕ) (v : T) :
    State Thread T :=
  { s with
    head := n
    producer := update s.producer t (.link n s.head)
    exchanged := s.exchanged ++ [⟨t, n, v⟩] }

/-- `prev_head->next.store(node)` -/
@[simps] def State.storeNext (s : State Thread T) (t : Thread) (n prev : ℕ) : State Thread T :=
  { s with
    nodes := update s.nodes prev { s.nodes prev with next := some n }
    producer := update s.producer t .idle
    fault := s.fault || (s.nodes prev).freed }

def produce (s : State Thread T) (t : Thread) : Option (State Thread T) :=
  match s.producer t with
  | .idle => none
  | .exchange n v => some (s.exchangeHead t n v)
  | .link n prev => some (s.storeNext t n prev)

instance (p : Producer T) : Decidable (p = .idle) :=
  match p with
  | .idle => isTrue rfl
  | .exchange _ _ => isFalse nofun
  | .link _ _ => isFalse nofun

instance (c : Consumer) : Decidable (c = .idle) :=
  match c with
  | .idle => isTrue rfl
  | .loadNext _ _ => isFalse nofun
  | .take _ _ _ => isFalse nofun
  | .storeTail _ _ => isFalse nofun
  | .deleteTail _ => isFalse nofun

/-- The destructor runs when no call is in progress and is the last step. -/
def step [Fintype Thread] (s : State Thread T) : Act Thread T → Option (State Thread T)
  | .enqueue t v =>
    if s.destroyed = false ∧ s.producer t = .idle then some (s.newNode t v) else none
  | .produce t => produce s t
  | .call op =>
    if s.destroyed = false ∧ s.consumer = .idle then
      some { s with consumer := .loadNext op s.tail }
    else none
  | .consume => consume s
  | .destroy =>
    if s.destroyed = false ∧ s.consumer = .idle ∧ ∀ t, s.producer t = .idle then
      (destructor s).map fun s => { s with destroyed := true }
    else none

def machine (Thread T : Type) [DecidableEq Thread] [Fintype Thread] :
    Machine (State Thread T) (Act Thread T) where
  init :=
    { nodes := fun _ => ⟨none, none, false, 0⟩
      allocated := 1
      head := 0
      tail := 0
      producer := fun _ => .idle
      consumer := .idle
      destroyed := false
      fault := false
      calls := fun _ => []
      exchanged := []
      consumed := []
      peeked := [] }
  step := step

/-! The list of the queue under any interleaving. Position `0` of `ids` is the
sentinel, position `i + 1` the node of the `i`-th head exchange; `k` is the position
of the tail. Two neighbours are linked, or a producer is about to link them. -/

open List
open Function (update_self update_of_ne)

variable {Thread T : Type}

def ids (s : State Thread T) : List ℕ := 0 :: s.exchanged.map (·.node)

/-- The number of values taken when the tail is at `k`. -/
def Consumer.taken (k : ℕ) : Consumer → ℕ
  | .storeTail _ _ => k + 1
  | _ => k

/-- The positions below this one are freed when the tail is at `k`. -/
def Consumer.freedBelow (k : ℕ) : Consumer → ℕ
  | .deleteTail _ => k - 1
  | _ => k

/-- The links out of the positions below this one are in place when the tail is at `k`. -/
def Consumer.linkedBelow (k : ℕ) : Consumer → ℕ
  | .take _ _ _ => k + 1
  | .storeTail _ _ => k + 1
  | _ => k

def Consumer.Reads (s : State Thread T) (k : ℕ) : Consumer → Prop
  | .idle => True
  | .loadNext _ tl => tl = s.tail
  | .take _ tl nx => tl = s.tail ∧ (ids s)[k + 1]? = some nx
  | .storeTail tl nx => tl = s.tail ∧ (ids s)[k + 1]? = some nx
  | .deleteTail tl => 0 < k ∧ (ids s)[k - 1]? = some tl

def Producer.pending : Producer T → List T
  | .exchange _ v => [v]
  | _ => []

structure Inv [DecidableEq Thread] (s : State Thread T) (k : ℕ) : Prop where
  fault : s.fault = false
  nodup : (ids s).Nodup
  tail : (ids s)[k]? = some s.tail
  head : (ids s)[s.exchanged.length]? = some s.head
  last : (s.nodes s.head).next = none
  link : ∀ i a b, (ids s)[i]? = some a → (ids s)[i + 1]? = some b →
    (s.nodes a).next = some b ∨ ((s.nodes a).next = none ∧ ∃ t, s.producer t = .link b a)
  linking : ∀ t n p, s.producer t = .link n p →
    ∃ i, (ids s)[i]? = some p ∧ (ids s)[i + 1]? = some n ∧ (s.nodes p).next = none
  link_inj : ∀ t u n p q, s.producer t = .link n p → s.producer u = .link n q → t = u
  fresh : ∀ t n v, s.producer t = .exchange n v →
    n ∉ ids s ∧ n < s.allocated ∧ s.nodes n = ⟨some v, none, false, 0⟩
  fresh_inj : ∀ t u n v w, s.producer t = .exchange n v → s.producer u = .exchange n w → t = u
  bounded : ∀ x ∈ ids s, x < s.allocated
  covered : ∀ x, x < s.allocated → x ∈ ids s ∨ ∃ t v, s.producer t = .exchange x v
  queued : ∀ i e, s.exchanged[i]? = some e → s.consumer.taken k ≤ i →
    (s.nodes e.node).value = some e.value ∧ (s.nodes e.node).destructions = 0
  gone : ∀ i e, s.exchanged[i]? = some e → i < s.consumer.taken k →
    (s.nodes e.node).destructions = 1
  sentinel : (s.nodes 0).destructions = 0
  passed : ∀ i a, (ids s)[i]? = some a → i < s.consumer.linkedBelow k → (s.nodes a).next ≠ none
  freed : ∀ i a, (ids s)[i]? = some a →
    ((s.nodes a).freed = true ↔ i < s.consumer.freedBelow k)
  consumed : s.consumed = (s.exchanged.take (s.consumer.taken k)).map (·.value)
  reads : s.consumer.Reads s k
  calls : ∀ t, s.calls t =
    (s.exchanged.filter (fun e => e.producer = t)).map (·.value) ++ (s.producer t).pending
  peeked : ∀ p ∈ s.peeked, (s.exchanged[p.1]?).map (·.value) = some p.2

theorem length_ids (s : State Thread T) : (ids s).length = s.exchanged.length + 1 := by
  simp [ids]

variable {s : State Thread T} {i : ℕ}

theorem entry_mem {e : Entry Thread T} (h : s.exchanged[i]? = some e) : e.node ∈ ids s :=
  mem_cons_of_mem _ (mem_map_of_mem (mem_of_getElem? h))

theorem Consumer.linkedBelow_le (k : ℕ) (c : Consumer) : c.linkedBelow k ≤ k + 1 := by
  cases c <;> simp [Consumer.linkedBelow]

theorem Consumer.freedBelow_le (k : ℕ) (c : Consumer) : c.freedBelow k ≤ k := by
  cases c <;> simp [Consumer.freedBelow]

variable {a : ℕ}

theorem ids_succ : (ids s)[i + 1]? = some a ↔ ∃ e, s.exchanged[i]? = some e ∧ e.node = a := by
  simp [ids]

variable [DecidableEq Thread]

variable {k : ℕ}

theorem Inv.position_inj (h : Inv s k) {j : ℕ} (hi : (ids s)[i]? = some a)
    (hj : (ids s)[j]? = some a) : i = j :=
  (getElem?_inj (List.getElem?_eq_some_iff.mp hi).1 h.nodup).mp (hi.trans hj.symm)

theorem Inv.tail_le (h : Inv s k) : k ≤ s.exchanged.length := by
  have := (List.getElem?_eq_some_iff.mp h.tail).1
  rw [length_ids] at this
  omega

theorem inv_init [Fintype Thread] : Inv (machine Thread T).init 0 where
  fault := rfl
  nodup := by simp [machine, ids]
  tail := rfl
  head := rfl
  last := rfl
  link := by simp [machine, ids]
  linking := nofun
  link_inj := nofun
  fresh := nofun
  fresh_inj := nofun
  bounded := by simp [machine, ids]
  covered := by simp [machine, ids]
  queued := by simp [machine]
  gone := by simp [machine]
  sentinel := rfl
  passed := by simp [machine, Consumer.linkedBelow]
  freed := by simp [machine, ids, Consumer.freedBelow]
  consumed := rfl
  reads := trivial
  calls := fun _ => rfl
  peeked := by simp [machine]

/-! Producers. -/

theorem Inv.newNode {s : State Thread T} {k : ℕ} (h : Inv s k) {t : Thread} {v : T}
    (ht : s.producer t = .idle) : Inv (s.newNode t v) k := by
  have hids : ids (s.newNode t v) = ids s := rfl
  have hnode : ∀ x ∈ ids s, (s.newNode t v).nodes x = s.nodes x := fun x hx =>
    update_of_ne (Nat.ne_of_lt (h.bounded x hx)) _ _
  have hother : ∀ {u}, u ≠ t → (s.newNode t v).producer u = s.producer u := fun hut =>
    update_of_ne hut _ _
  have hself : (s.newNode t v).producer t = .exchange s.allocated v := update_self _ _ _
  have hlink : ∀ {u n p}, (s.newNode t v).producer u = .link n p ↔ s.producer u = .link n p := by
    intro u n p
    by_cases hut : u = t
    · subst hut
      simp [ht]
    · rw [hother hut]
  have hmem : ∀ {i a : ℕ}, (ids s)[i]? = some a → a ∈ ids s := fun hi => mem_of_getElem? hi
  constructor
  case fault => exact h.fault
  case nodup => exact h.nodup
  case tail => exact h.tail
  case head => exact h.head
  case last => rw [State.newNode_head, hnode _ (hmem h.head), h.last]
  case link =>
    intro i a b ha hb
    rw [hnode a (hmem ha)]
    exact (h.link i a b ha hb).imp id fun ⟨hn, u, hu⟩ => ⟨hn, u, hlink.mpr hu⟩
  case linking =>
    intro u n p hu
    obtain ⟨i, hp, hn, hnext⟩ := h.linking u n p (hlink.mp hu)
    exact ⟨i, hp, hn, by rw [hnode p (hmem hp), hnext]⟩
  case link_inj => exact fun u w n p q hu hw => h.link_inj u w n p q (hlink.mp hu) (hlink.mp hw)
  case fresh =>
    intro u n w hu
    by_cases hut : u = t
    · subst hut
      obtain ⟨rfl, rfl⟩ : s.allocated = n ∧ v = w := by simpa [hself] using hu
      exact ⟨fun hx => Nat.lt_irrefl _ (h.bounded _ hx), Nat.lt_succ_self _, update_self _ _ _⟩
    · obtain ⟨hn, hlt, hval⟩ := h.fresh u n w (hother hut ▸ hu)
      exact ⟨hn, Nat.lt_succ_of_lt hlt, (update_of_ne hlt.ne _ _).trans hval⟩
  case fresh_inj =>
    intro u w n x y hu hw
    by_cases hut : u = t <;> by_cases hwt : w = t
    · rw [hut, hwt]
    · subst hut
      obtain ⟨rfl, rfl⟩ : s.allocated = n ∧ v = x := by simpa [hself] using hu
      exact absurd (h.fresh w _ y (hother hwt ▸ hw)).2.1 (Nat.lt_irrefl _)
    · subst hwt
      obtain ⟨rfl, rfl⟩ : s.allocated = n ∧ v = y := by simpa [hself] using hw
      exact absurd (h.fresh u _ x (hother hut ▸ hu)).2.1 (Nat.lt_irrefl _)
    · exact h.fresh_inj u w n x y (hother hut ▸ hu) (hother hwt ▸ hw)
  case bounded => exact fun x hx => Nat.lt_succ_of_lt (h.bounded x hx)
  case covered =>
    intro x hx
    by_cases hxa : x = s.allocated
    · exact .inr ⟨t, v, by rw [hself, hxa]⟩
    · have hlt : x < s.allocated := by
        rw [State.newNode_allocated] at hx
        omega
      refine (h.covered x hlt).imp id fun ⟨u, w, hu⟩ => ⟨u, w, ?_⟩
      rwa [hother]
      rintro rfl
      simp [ht] at hu
  case queued =>
    intro i e he hi
    rw [hnode _ (entry_mem he)]
    exact h.queued i e he hi
  case gone =>
    intro i e he hi
    rw [hnode _ (entry_mem he)]
    exact h.gone i e he hi
  case sentinel => rw [hnode 0 mem_cons_self, h.sentinel]
  case passed =>
    intro i a ha hi
    rw [hnode a (hmem ha)]
    exact h.passed i a ha hi
  case freed =>
    intro i a ha
    rw [hnode a (hmem ha)]
    exact h.freed i a ha
  case consumed => exact h.consumed
  case reads =>
    have := h.reads
    cases hc : s.consumer <;> simp_all [Consumer.Reads]
  case calls =>
    intro u
    by_cases hut : u = t
    · subst hut
      rw [hself, State.newNode_calls, update_self, h.calls u, ht]
      simp [Producer.pending]
    · rw [hother hut, State.newNode_calls, update_of_ne hut, h.calls u]
      rfl
  case peeked => exact h.peeked

theorem Inv.exchangeHead (h : Inv s k) {t : Thread} {n : ℕ} {v : T}
    (ht : s.producer t = .exchange n v) : Inv (s.exchangeHead t n v) k := by
  obtain ⟨hnew, hlt, hval⟩ := h.fresh t n v ht
  have hids : ids (s.exchangeHead t n v) = ids s ++ [n] := by simp [ids]
  have hlen := length_ids s
  have hleft : ∀ {i : ℕ}, i < (ids s).length → (ids s ++ [n])[i]? = (ids s)[i]? :=
    fun hi => getElem?_append_left hi
  have hcases : ∀ {i a : ℕ}, (ids s ++ [n])[i]? = some a →
      (i < (ids s).length ∧ (ids s)[i]? = some a) ∨ (i = (ids s).length ∧ a = n) := by
    intro i a hi
    rcases Nat.lt_trichotomy i (ids s).length with hlt | heq | hgt
    · exact .inl ⟨hlt, hleft hlt ▸ hi⟩
    · exact .inr ⟨heq, by simpa [heq, eq_comm] using hi⟩
    · rw [getElem?_eq_none (by simp; omega)] at hi
      simp at hi
  have hentry : ∀ {i e}, (s.exchanged ++ [(⟨t, n, v⟩ : Entry Thread T)])[i]? = some e →
      (i < s.exchanged.length ∧ s.exchanged[i]? = some e) ∨
        (i = s.exchanged.length ∧ e = ⟨t, n, v⟩) := by
    intro i e hi
    rcases Nat.lt_trichotomy i s.exchanged.length with hlt | heq | hgt
    · exact .inl ⟨hlt, getElem?_append_left hlt ▸ hi⟩
    · exact .inr ⟨heq, by simpa [heq, eq_comm] using hi⟩
    · rw [getElem?_eq_none (by simp; omega)] at hi
      simp at hi
  have hother : ∀ {u}, u ≠ t → (s.exchangeHead t n v).producer u = s.producer u := fun hut =>
    update_of_ne hut _ _
  have hself : (s.exchangeHead t n v).producer t = .link n s.head := update_self _ _ _
  have htaken : s.consumer.taken k ≤ s.exchanged.length := by
    have hk := h.tail_le
    have hr := h.reads
    cases hc : s.consumer with
    | storeTail tl nx =>
      rw [hc] at hr
      have := (List.getElem?_eq_some_iff.mp hr.2).1
      simp only [Consumer.taken]
      omega
    | _ => exact hk
  constructor
  case fault => exact h.fault
  case nodup =>
    rw [hids]
    exact nodup_append.mpr ⟨h.nodup, by simp, fun a ha b hb => by
      rintro rfl
      exact hnew (mem_singleton.mp hb ▸ ha)⟩
  case tail => rw [hids, hleft (by have := h.tail_le; omega)]; exact h.tail
  case head =>
    rw [hids, State.exchangeHead_exchanged, length_append]
    simp [hlen]
  case last => rw [State.exchangeHead_head, State.exchangeHead_nodes, hval]
  case link =>
    intro i a b ha hb
    rw [hids] at ha hb
    rw [State.exchangeHead_nodes]
    rcases hcases hb with ⟨hi, hb'⟩ | ⟨hi, rfl⟩
    · rw [hleft (by omega)] at ha
      rcases h.link i a b ha hb' with hnext | ⟨hn, u, hu⟩
      · exact .inl hnext
      · refine .inr ⟨hn, u, ?_⟩
        rwa [hother]
        rintro rfl
        simp [ht] at hu
    · rw [hleft (by omega)] at ha
      obtain rfl : a = s.head := by
        have hi' : i = s.exchanged.length := by omega
        subst hi'
        exact Option.some.inj (ha.symm.trans h.head)
      exact .inr ⟨h.last, t, hself⟩
  case linking =>
    intro u m p hu
    rw [hids, State.exchangeHead_nodes]
    by_cases hut : u = t
    · subst hut
      obtain ⟨rfl, rfl⟩ : n = m ∧ s.head = p := by simpa [hself] using hu
      refine ⟨s.exchanged.length, ?_, ?_, h.last⟩
      · rw [hleft (by omega)]
        exact h.head
      · simp [hlen]
    · obtain ⟨i, hp, hm, hnext⟩ := h.linking u m p (hother hut ▸ hu)
      have hi := (List.getElem?_eq_some_iff.mp hm).1
      exact ⟨i, by rw [hleft (by omega), hp], by rw [hleft hi, hm], hnext⟩
  case link_inj =>
    have hfresh : ∀ {u p}, s.producer u ≠ .link n p := by
      intro u p hu
      obtain ⟨i, _, hm, _⟩ := h.linking u n p hu
      exact hnew (mem_of_getElem? hm)
    intro u w m p q hu hw
    by_cases hut : u = t <;> by_cases hwt : w = t
    · rw [hut, hwt]
    · subst hut
      obtain ⟨rfl, rfl⟩ : n = m ∧ s.head = p := by simpa [hself] using hu
      exact absurd (hother hwt ▸ hw) hfresh
    · subst hwt
      obtain ⟨rfl, rfl⟩ : n = m ∧ s.head = q := by simpa [hself] using hw
      exact absurd (hother hut ▸ hu) hfresh
    · exact h.link_inj u w m p q (hother hut ▸ hu) (hother hwt ▸ hw)
  case fresh =>
    intro u m w hu
    have hut : u ≠ t := by
      rintro rfl
      simp at hu
    have hu' : s.producer u = .exchange m w := hother hut ▸ hu
    obtain ⟨hm, hmlt, hmval⟩ := h.fresh u m w hu'
    refine ⟨?_, hmlt, hmval⟩
    rw [hids, mem_append, mem_singleton]
    rintro (hm' | rfl)
    · exact hm hm'
    · exact hut (h.fresh_inj u t m w v hu' ht)
  case fresh_inj =>
    have hne : ∀ {u m w}, (s.exchangeHead t n v).producer u = .exchange m w →
        s.producer u = .exchange m w := by
      intro u m w hu
      have hut : u ≠ t := by
        rintro rfl
        simp at hu
      exact hother hut ▸ hu
    exact fun u w m x y hu hw => h.fresh_inj u w m x y (hne hu) (hne hw)
  case bounded =>
    intro x hx
    rw [hids, mem_append, mem_singleton] at hx
    rcases hx with hx | rfl
    · exact h.bounded x hx
    · exact hlt
  case covered =>
    intro x hx
    rw [hids, mem_append, mem_singleton]
    rcases h.covered x hx with hx' | ⟨u, w, hu⟩
    · exact .inl (.inl hx')
    · by_cases hut : u = t
      · subst hut
        obtain ⟨rfl, rfl⟩ : n = x ∧ v = w := by simpa [ht] using hu
        exact .inl (.inr rfl)
      · exact .inr ⟨u, w, by rw [hother hut, hu]⟩
  case queued =>
    intro i e he hi
    rw [State.exchangeHead_nodes]
    rcases hentry he with ⟨_, he'⟩ | ⟨_, rfl⟩
    · exact h.queued i e he' hi
    · rw [hval]
      exact ⟨rfl, rfl⟩
  case gone =>
    intro i e he hi
    rw [State.exchangeHead_nodes]
    rcases hentry he with ⟨_, he'⟩ | ⟨hi', rfl⟩
    · exact h.gone i e he' hi
    · rw [State.exchangeHead_consumer] at hi
      omega
  case sentinel => exact h.sentinel
  case passed =>
    intro i a ha hi
    rw [hids] at ha
    rw [State.exchangeHead_nodes]
    rcases hcases ha with ⟨_, ha'⟩ | ⟨hi', rfl⟩
    · exact h.passed i a ha' hi
    · have hk := h.tail_le
      have hbelow := s.consumer.linkedBelow_le k
      rw [State.exchangeHead_consumer] at hi
      omega
  case freed =>
    intro i a ha
    rw [hids] at ha
    rw [State.exchangeHead_nodes, State.exchangeHead_consumer]
    rcases hcases ha with ⟨_, ha'⟩ | ⟨hi, rfl⟩
    · exact h.freed i a ha'
    · have hk := h.tail_le
      have hbelow := s.consumer.freedBelow_le k
      simp only [hval, Bool.false_eq_true, false_iff]
      omega
  case consumed =>
    rw [State.exchangeHead_exchanged, State.exchangeHead_consumer, take_append_of_le_length htaken]
    exact h.consumed
  case reads =>
    have hr := h.reads
    have hstep : ∀ {i a : ℕ}, (ids s)[i]? = some a → (ids (s.exchangeHead t n v))[i]? = some a := by
      intro i a hi
      rw [hids, hleft (List.getElem?_eq_some_iff.mp hi).1, hi]
    rw [State.exchangeHead_consumer]
    cases hc : s.consumer with
    | idle => trivial
    | loadNext op tl =>
      rw [hc] at hr
      exact hr
    | take op tl nx =>
      rw [hc] at hr
      exact ⟨hr.1, hstep hr.2⟩
    | storeTail tl nx =>
      rw [hc] at hr
      exact ⟨hr.1, hstep hr.2⟩
    | deleteTail tl =>
      rw [hc] at hr
      exact ⟨hr.1, hstep hr.2⟩
  case calls =>
    intro u
    by_cases hut : u = t
    · subst hut
      rw [hself, State.exchangeHead_calls, State.exchangeHead_exchanged, h.calls u, ht]
      simp [Producer.pending]
    · rw [hother hut, State.exchangeHead_calls, State.exchangeHead_exchanged, h.calls u]
      simp [Ne.symm hut]
  case peeked =>
    intro p hp
    have hget := h.peeked p hp
    have hlt : p.1 < s.exchanged.length := by
      by_contra hge
      rw [getElem?_eq_none (by omega)] at hget
      simp at hget
    rw [State.exchangeHead_exchanged, getElem?_append_left hlt]
    exact hget

theorem Inv.storeNext {s : State Thread T} {k : ℕ} (h : Inv s k) {t : Thread} {n prev : ℕ}
    (ht : s.producer t = .link n prev) : Inv (s.storeNext t n prev) k := by
  obtain ⟨j, hprev, hn, hnone⟩ := h.linking t n prev ht
  have hids : ids (s.storeNext t n prev) = ids s := rfl
  have hother : ∀ {u}, u ≠ t → (s.storeNext t n prev).producer u = s.producer u := fun hut =>
    update_of_ne hut _ _
  have hself : (s.storeNext t n prev).producer t = .idle := update_self _ _ _
  have hnext : ((s.storeNext t n prev).nodes prev).next = some n := by simp
  have hnode : ∀ {x}, x ≠ prev → (s.storeNext t n prev).nodes x = s.nodes x := fun hx =>
    update_of_ne hx _ _
  have hrest : ∀ x, ((s.storeNext t n prev).nodes x).value = (s.nodes x).value ∧
      ((s.storeNext t n prev).nodes x).freed = (s.nodes x).freed ∧
      ((s.storeNext t n prev).nodes x).destructions = (s.nodes x).destructions := by
    intro x
    by_cases hx : x = prev
    · subst hx
      simp
    · rw [hnode hx]
      exact ⟨rfl, rfl, rfl⟩
  have hj : s.consumer.linkedBelow k ≤ j := by
    by_contra hlt
    exact h.passed j prev hprev (by omega) hnone
  constructor
  case fault =>
    have hfreed := (h.freed j prev hprev).not.mpr (by
      have : s.consumer.freedBelow k ≤ s.consumer.linkedBelow k := by
        cases s.consumer <;> simp [Consumer.freedBelow, Consumer.linkedBelow]
      omega)
    simp [h.fault, hfreed]
  case nodup => exact h.nodup
  case tail => exact h.tail
  case head => exact h.head
  case last =>
    have hne : s.head ≠ prev := by
      intro heq
      have := h.position_inj h.head (heq ▸ hprev)
      have hlt := (List.getElem?_eq_some_iff.mp hn).1
      rw [length_ids] at hlt
      omega
    rw [State.storeNext_head, hnode hne, h.last]
  case link =>
    intro i a b ha hb
    rw [hids] at ha hb
    by_cases hap : a = prev
    · subst hap
      obtain rfl := h.position_inj ha hprev
      exact .inl (by rw [hnext, ← hn, hb])
    · rw [hnode hap]
      refine (h.link i a b ha hb).imp id fun ⟨hnx, u, hu⟩ => ⟨hnx, u, ?_⟩
      rwa [hother]
      rintro rfl
      obtain ⟨-, rfl⟩ : n = b ∧ prev = a := by simpa [ht] using hu
      exact hap rfl
  case linking =>
    intro u m p hu
    have hut : u ≠ t := by
      rintro rfl
      simp at hu
    have hu' : s.producer u = .link m p := hother hut ▸ hu
    obtain ⟨i, hp, hm, hnx⟩ := h.linking u m p hu'
    refine ⟨i, hp, hm, ?_⟩
    rwa [hnode]
    rintro rfl
    obtain rfl := h.position_inj hp hprev
    obtain rfl : m = n := Option.some.inj (hm.symm.trans hn)
    exact hut (h.link_inj u t m p p hu' ht)
  case link_inj =>
    have hne : ∀ {u m p}, (s.storeNext t n prev).producer u = .link m p →
        s.producer u = .link m p := by
      intro u m p hu
      have hut : u ≠ t := by
        rintro rfl
        simp at hu
      exact hother hut ▸ hu
    exact fun u w m p q hu hw => h.link_inj u w m p q (hne hu) (hne hw)
  case fresh =>
    intro u m w hu
    have hut : u ≠ t := by
      rintro rfl
      simp at hu
    obtain ⟨hm, hlt, hval⟩ := h.fresh u m w (hother hut ▸ hu)
    refine ⟨hm, hlt, ?_⟩
    rwa [hnode]
    rintro rfl
    exact hm (mem_of_getElem? hprev)
  case fresh_inj =>
    have hne : ∀ {u m w}, (s.storeNext t n prev).producer u = .exchange m w →
        s.producer u = .exchange m w := by
      intro u m w hu
      have hut : u ≠ t := by
        rintro rfl
        simp at hu
      exact hother hut ▸ hu
    exact fun u w m x y hu hw => h.fresh_inj u w m x y (hne hu) (hne hw)
  case bounded => exact h.bounded
  case covered =>
    intro x hx
    refine (h.covered x hx).imp id fun ⟨u, w, hu⟩ => ⟨u, w, ?_⟩
    rwa [hother]
    rintro rfl
    simp [ht] at hu
  case queued =>
    intro i e he hi
    rw [(hrest _).1, (hrest _).2.2]
    exact h.queued i e he hi
  case gone =>
    intro i e he hi
    rw [(hrest _).2.2]
    exact h.gone i e he hi
  case sentinel => rw [(hrest 0).2.2, h.sentinel]
  case passed =>
    intro i a ha hi
    by_cases hap : a = prev
    · subst hap
      simp
    · rw [hnode hap]
      exact h.passed i a ha hi
  case freed =>
    intro i a ha
    rw [(hrest a).2.1]
    exact h.freed i a ha
  case consumed => exact h.consumed
  case reads =>
    have := h.reads
    cases hc : s.consumer <;> simp_all [Consumer.Reads]
  case calls =>
    intro u
    rw [State.storeNext_calls, State.storeNext_exchanged, h.calls u]
    by_cases hut : u = t
    · subst hut
      rw [hself, ht]
      rfl
    · rw [hother hut]
  case peeked => exact h.peeked

/-! The consumer. -/

theorem Inv.setConsumer (h : Inv s k) {c : Consumer} {peeked : List (ℕ × T)}
    (htaken : c.taken k = s.consumer.taken k) (hfreed : c.freedBelow k = s.consumer.freedBelow k)
    (hlinked : c.linkedBelow k ≤ s.consumer.linkedBelow k ∨ (s.nodes s.tail).next ≠ none)
    (hreads : c.Reads s k) (hpeeked : ∀ p ∈ peeked, (s.exchanged[p.1]?).map (·.value) = some p.2) :
    Inv { s with consumer := c, peeked := peeked } k := by
  refine { h with
    queued := fun i e he hi => h.queued i e he (htaken ▸ hi)
    gone := fun i e he hi => h.gone i e he (htaken ▸ hi)
    passed := ?_
    freed := ?_
    consumed := ?_
    reads := ?_
    peeked := hpeeked }
  · intro i a ha hi
    by_cases hlt : i < s.consumer.linkedBelow k
    · exact h.passed i a ha hlt
    · have hle := hlinked.resolve_left (by simp only at hi; omega)
      have hbelow := c.linkedBelow_le k
      have hge : k ≤ s.consumer.linkedBelow k := by
        cases s.consumer <;> simp [Consumer.linkedBelow]
      obtain rfl : i = k := by simp only at hi; omega
      cases ha.symm.trans h.tail
      exact hle
  · intro i a ha
    rw [hfreed]
    exact h.freed i a ha
  · rw [htaken]
    exact h.consumed
  · cases c <;> exact hreads

theorem Inv.not_freed {s : State Thread T} {k : ℕ} (h : Inv s k) {i a : ℕ}
    (ha : (ids s)[i]? = some a) (hi : s.consumer.freedBelow k ≤ i) : (s.nodes a).freed = false := by
  have := (h.freed i a ha).not.mpr (by omega)
  simpa using this

theorem Inv.next_position (h : Inv s k) {b : ℕ} (ha : (ids s)[i]? = some a)
    (hb : (s.nodes a).next = some b) : (ids s)[i + 1]? = some b := by
  have hlt := (List.getElem?_eq_some_iff.mp ha).1
  rw [length_ids] at hlt
  rcases Nat.lt_or_ge i s.exchanged.length with hi | hi
  · obtain ⟨c, hc⟩ : ∃ c, (ids s)[i + 1]? = some c :=
      ⟨_, getElem?_eq_getElem (by rw [length_ids]; omega)⟩
    rcases h.link i a c ha hc with hn | ⟨hn, -⟩
    · rw [hc, ← hn, hb]
    · simp [hn] at hb
  · obtain rfl : i = s.exchanged.length := by omega
    cases ha.symm.trans h.head
    simp [h.last] at hb

end Equilibrium.MPSCQueue
