import Equilibrium.Containers.LockFreeOrderedMap
import Mathlib.Data.List.Perm.Subperm

/-! The map between two calls of its one thread, and `insert_internal` from there. Every
unmarked node is in the chain of its bucket and in the order list, whose last node the
tail names; a bucket has no marked node. -/

namespace Equilibrium.LockFreeOrderedHashMap

open Library.LinkedChain
open Function (update update_self update_of_ne update_eq_self)

variable {Key Value : Type} [Hashable Key]

/-- An unmarked node that was allocated and not freed, with what it holds. -/
def Map.Live (m : Map Key Value) (x : ℕ) (n : Node Key Value) : Prop :=
  m.nodes x = some n ∧ n.isDeleted = false ∧ n.freed = false

/-- The chains of the buckets are `chain`: exactly the unmarked nodes, no key twice. -/
structure Bucketed (m : Map Key Value) (chain : ℕ → List ℕ) : Prop where
  positive : 0 < m.bucketCount
  bucketChain : ∀ b, Segment m.bucketNext (m.buckets b) (chain b) none
  mem_chain : ∀ b x, x ∈ chain b ↔ ∃ n, m.Live x n ∧ m.hashKey n.key = b
  keys : ∀ x y n n', m.Live x n → m.Live y n' → n.key = n'.key → x = y
  unswept : ∀ x n, m.nodes x = some n → n.bucketSwept = false ∧ n.retiredEpoch = -1
  bounded : ∀ x n, m.nodes x = some n → x < m.allocated
  tracked : ∀ x, x ∈ m.allNodes ++ m.staging ↔ m.Held x

/-- The order list is `order`, too. -/
structure Settled (m : Map Key Value) (chain : ℕ → List ℕ) (order : List ℕ) : Prop
    extends Bucketed m chain where
  orderChain : Segment m.orderNext m.orderHead order none
  tail : m.orderTail = order.getLast?
  listed : ∀ x ∈ order, m.Held x
  live_listed : ∀ x n, m.Live x n → x ∈ order

namespace Map

variable {x : ℕ}

omit [Hashable Key] in
theorem Live.held {m : Map Key Value} {n : Node Key Value} (h : m.Live x n) : m.Held x :=
  ⟨n, h.1, h.2.2⟩

def pair (m : Map Key Value) (x : ℕ) : Option (Key × Value) :=
  (m.nodes x).bind fun n => if n.isDeleted then none else some (n.key, n.value)

omit [Hashable Key] in
theorem pair_congr {m m' : Map Key Value} (h : m'.nodes x = m.nodes x) : m'.pair x = m.pair x := by
  rw [pair, pair, h]

def pairs (m : Map Key Value) (order : List ℕ) : List (Key × Value) := order.filterMap m.pair

def keys (m : Map Key Value) (order : List ℕ) : List Key := (m.pairs order).map Prod.fst

omit [Hashable Key] in
theorem mem_pairs {m : Map Key Value} {order : List ℕ} {key : Key} {value : Value} :
    (key, value) ∈ m.pairs order ↔
      ∃ x ∈ order, ∃ n, m.nodes x = some n ∧ n.isDeleted = false ∧ n.key = key ∧
        n.value = value := by
  simp only [pairs, List.mem_filterMap, pair, Option.bind_eq_some_iff]
  refine exists_congr fun x => and_congr_right fun _ => exists_congr fun n =>
    and_congr_right fun _ => ?_
  cases n.isDeleted <;> simp

end Map

namespace Bucketed

variable {m : Map Key Value} {chain : ℕ → List ℕ}

section

variable (h : Bucketed m chain)
include h

theorem held {b : ℕ} (hx : x ∈ chain b) : m.Held x := by
  obtain ⟨n, hlive, -⟩ := (h.mem_chain b x).mp hx
  exact hlive.held

theorem lt (hx : m.Held x) : x < m.allocated := by
  obtain ⟨n, hn, -⟩ := hx
  exact h.bounded x n hn

theorem length_le {l : List ℕ} (hl : l.Nodup) (hheld : ∀ x ∈ l, m.Held x) :
    l.length ≤ m.allocated := by
  have hsub : l ⊆ List.range m.allocated := fun x hx => List.mem_range.mpr (h.lt (hheld x hx))
  have := (List.subperm_of_subset hl hsub).length_le
  rwa [List.length_range] at this

theorem chain_length (b : ℕ) : (chain b).length ≤ m.allocated :=
  h.length_le (h.bucketChain b).nodup fun _ hx => h.held hx

theorem unallocated : m.nodes m.allocated = none := by
  cases hn : m.nodes m.allocated with
  | none => rfl
  | some n => exact absurd (h.bounded _ n hn) (Nat.lt_irrefl _)

theorem ne_new (hx : m.Held x) : x ≠ m.allocated :=
  Nat.ne_of_lt (h.lt hx)

end

end Bucketed

namespace Settled

variable {m : Map Key Value} {chain : ℕ → List ℕ} {order : List ℕ}

theorem order_length (h : Settled m chain order) : order.length ≤ m.allocated :=
  h.length_le h.orderChain.nodup h.listed

theorem mem_keys (h : Settled m chain order) {key : Key} :
    key ∈ m.keys order ↔ ∃ x n, m.Live x n ∧ n.key = key := by
  simp only [Map.keys, List.mem_map, Prod.exists, exists_and_right, exists_eq_right, Map.mem_pairs]
  constructor
  · rintro ⟨v, x, hx, n, hn, hdeleted, hkey, -⟩
    obtain ⟨n', hn', hfreed⟩ := h.listed x hx
    rw [hn] at hn'
    cases hn'
    exact ⟨x, n, ⟨hn, hdeleted, hfreed⟩, hkey⟩
  · rintro ⟨x, n, hlive, hkey⟩
    exact ⟨n.value, x, h.live_listed x n hlive, n, hlive.1, hlive.2.1, hkey, rfl⟩

variable [DecidableEq Key]

theorem find_chain (h : Settled m chain order) (key : Key) {p : ℕ → Bool}
    (hp : ∀ x n, m.Live x n → p x = decide (n.key = key)) :
    (key ∉ m.keys order ∧ (chain (m.hashKey key)).find? p = none) ∨
      ∃ x n, (chain (m.hashKey key)).find? p = some x ∧ m.Live x n ∧ n.key = key := by
  cases hfind : (chain (m.hashKey key)).find? p with
  | none =>
    refine .inl ⟨fun hkey => ?_, rfl⟩
    obtain ⟨x, n, hlive, rfl⟩ := h.mem_keys.mp hkey
    have hx := (h.mem_chain _ x).mpr ⟨n, hlive, rfl⟩
    have := List.find?_eq_none.mp hfind x hx
    rw [hp x n hlive] at this
    simp at this
  | some x =>
    obtain ⟨n, hlive, -⟩ := (h.mem_chain _ x).mp (List.mem_of_find?_eq_some hfind)
    have hx := List.find?_some hfind
    rw [hp x n hlive] at hx
    exact .inr ⟨x, n, rfl, hlive, of_decide_eq_true hx⟩

end Settled

/-! Stores into the order fields change nothing but the order list. -/

def Node.core (n : Node Key Value) : Node Key Value := { n with orderNext := none, orderSwept := false }

def Map.core (m : Map Key Value) (x : ℕ) : Option (Node Key Value) := (m.nodes x).map Node.core

omit [Hashable Key] in
theorem Map.core_modify {m : Map Key Value} {f : Node Key Value → Node Key Value}
    (hf : ∀ n, (f n).core = n.core) (y : ℕ) : (m.modify x f).core y = m.core y := by
  rw [Map.core, Map.core, Map.nodes_modify, Option.map_map]
  congr 1
  funext n
  split
  · exact hf n
  · rfl

/-- What the lists of the buckets and of the collector depend on. -/
def Node.frame (n : Node Key Value) : Key × Option ℕ × Bool × Bool × ℤ × Bool :=
  (n.key, n.bucketNext, n.isDeleted, n.bucketSwept, n.retiredEpoch, n.freed)

def Map.frame (m : Map Key Value) (x : ℕ) : Option (Key × Option ℕ × Bool × Bool × ℤ × Bool) :=
  (m.nodes x).map Node.frame

section Frame

variable {m m' : Map Key Value}

section

omit [Hashable Key]

theorem frame_of_core (hcore : ∀ x, m'.core x = m.core x) (x : ℕ) : m'.frame x = m.frame x := by
  have heq : ∀ m : Map Key Value, m.frame x = (m.core x).map Node.frame := by
    intro m
    rw [Map.frame, Map.core, Option.map_map]
    rfl
  rw [heq, heq, hcore]

theorem pair_of_core (hcore : ∀ x, m'.core x = m.core x) (x : ℕ) : m'.pair x = m.pair x := by
  have heq : ∀ m : Map Key Value, m.pair x =
      (m.core x).bind fun n => if n.isDeleted then none else some (n.key, n.value) := by
    intro m
    rw [Map.pair, Map.core]
    cases m.nodes x <;> rfl
  rw [heq, heq, hcore]

theorem node_of_frame (hframe : ∀ x, m'.frame x = m.frame x) {n' : Node Key Value}
    (hn' : m'.nodes x = some n') : ∃ n, m.nodes x = some n ∧ n.frame = n'.frame := by
  have h := hframe x
  rw [Map.frame, Map.frame, hn'] at h
  obtain ⟨n, hn, heq⟩ := Option.map_eq_some_iff.mp h.symm
  exact ⟨n, hn, heq⟩

theorem frame_fields {n n' : Node Key Value} (h : n.frame = n'.frame) :
    n.key = n'.key ∧ n.bucketNext = n'.bucketNext ∧ n.isDeleted = n'.isDeleted ∧
      n.bucketSwept = n'.bucketSwept ∧ n.retiredEpoch = n'.retiredEpoch ∧ n.freed = n'.freed := by
  simpa only [Node.frame, Prod.mk.injEq] using h

theorem live_of_frame (hframe : ∀ x, m'.frame x = m.frame x) {n' : Node Key Value}
    (h : m'.Live x n') : ∃ n, m.Live x n ∧ n.key = n'.key := by
  obtain ⟨n, hn, heq⟩ := node_of_frame hframe h.1
  obtain ⟨hkey, -, hdeleted, -, -, hfreed⟩ := frame_fields heq
  exact ⟨n, ⟨hn, hdeleted.trans h.2.1, hfreed.trans h.2.2⟩, hkey⟩

theorem held_of_frame (hframe : ∀ x, m'.frame x = m.frame x) (h : m'.Held x) : m.Held x := by
  obtain ⟨n', hn', hfreed'⟩ := h
  obtain ⟨n, hn, heq⟩ := node_of_frame hframe hn'
  exact ⟨n, hn, (frame_fields heq).2.2.2.2.2.trans hfreed'⟩

end

theorem Bucketed.of_frame {chain : ℕ → List ℕ} (h : Bucketed m chain)
    (hbuckets : m'.buckets = m.buckets) (hcount : m'.bucketCount = m.bucketCount)
    (hallocated : m'.allocated = m.allocated) (hframe : ∀ x, m'.frame x = m.frame x)
    (htracked : ∀ x, x ∈ m'.allNodes ++ m'.staging ↔ x ∈ m.allNodes ++ m.staging) :
    Bucketed m' chain where
  positive := hcount ▸ h.positive
  bucketChain := fun b => by
    rw [hbuckets]
    refine (h.bucketChain b).congr fun x _ => ?_
    have heq : ∀ m : Map Key Value, m.bucketNext x = (m.frame x).bind (·.2.1) := by
      intro m
      rw [Map.bucketNext, Map.frame]
      cases m.nodes x <;> rfl
    rw [heq, heq, hframe]
  mem_chain := fun b x => by
    rw [h.mem_chain, hashKey_congr hcount]
    constructor
    · rintro ⟨n, hlive, hb⟩
      obtain ⟨n', hlive', hkey⟩ := live_of_frame (fun y => (hframe y).symm) hlive
      exact ⟨n', hlive', hkey ▸ hb⟩
    · rintro ⟨n', hlive', hb⟩
      obtain ⟨n, hlive, hkey⟩ := live_of_frame hframe hlive'
      exact ⟨n, hlive, hkey ▸ hb⟩
  keys := fun x y n n' hx hy heq => by
    obtain ⟨nx, hx', hkx⟩ := live_of_frame hframe hx
    obtain ⟨ny, hy', hky⟩ := live_of_frame hframe hy
    exact h.keys x y nx ny hx' hy' (hkx.trans (heq.trans hky.symm))
  unswept := fun x n' hn' => by
    obtain ⟨n, hn, heq⟩ := node_of_frame hframe hn'
    obtain ⟨-, -, -, hswept, hretired, -⟩ := frame_fields heq
    exact ⟨hswept ▸ (h.unswept x n hn).1, hretired ▸ (h.unswept x n hn).2⟩
  bounded := fun x n' hn' => by
    obtain ⟨n, hn, -⟩ := node_of_frame hframe hn'
    exact hallocated ▸ h.bounded x n hn
  tracked := fun x => by
    rw [htracked, h.tracked]
    exact ⟨held_of_frame fun y => (hframe y).symm, held_of_frame hframe⟩

theorem Settled.of_frame {chain : ℕ → List ℕ} {order order' : List ℕ} (h : Settled m chain order)
    (hbucketed : Bucketed m' chain) (hframe : ∀ x, m'.frame x = m.frame x)
    (hchain : Segment m'.orderNext m'.orderHead order' none)
    (htail : m'.orderTail = order'.getLast?) (hsub : ∀ x ∈ order', x ∈ order)
    (hlive : ∀ x ∈ order, ∀ n, m.Live x n → x ∈ order') : Settled m' chain order' where
  toBucketed := hbucketed
  orderChain := hchain
  tail := htail
  listed := fun x hx => held_of_frame (fun y => (hframe y).symm) (h.listed x (hsub x hx))
  live_listed := fun x n' hl => by
    obtain ⟨n, hl, -⟩ := live_of_frame hframe hl
    exact hlive x (h.live_listed x n hl) n hl

end Frame

theorem settled_construct (count : ℕ) :
    Settled (construct count : Map Key Value) (fun _ => []) [] where
  positive := by
    dsimp only [construct]
    split
    · assumption
    · exact Nat.one_pos
  bucketChain := fun _ => rfl
  mem_chain := fun b x => iff_of_false List.not_mem_nil fun ⟨_, h, _⟩ => absurd h.1 nofun
  orderChain := rfl
  tail := rfl
  listed := fun x hx => absurd hx List.not_mem_nil
  live_listed := fun x n h => absurd h.1 nofun
  keys := fun x y n n' h => absurd h.1 nofun
  unswept := nofun
  bounded := nofun
  tracked := fun x => iff_of_false List.not_mem_nil fun ⟨_, h, _⟩ => absurd h nofun

/-! The closed forms of an insertion. -/

namespace Map

def fresh (m : Map Key Value) (key : Key) (value : Value) : Node Key Value :=
  { Node.new key value with bucketNext := m.buckets (m.hashKey key) }

def published (m : Map Key Value) (key : Key) (value : Value) : Map Key Value :=
  { m with
    buckets := update m.buckets (m.hashKey key) (some m.allocated)
    nodes := update m.nodes m.allocated (some (m.fresh key value))
    allocated := m.allocated + 1
    staging := m.allocated :: m.staging }

omit [Hashable Key] in
/-- The node is behind the last one of the order list. -/
def appended (m : Map Key Value) (new : ℕ) : Map Key Value :=
  match m.orderTail with
  | none => { m with orderHead := some new, orderTail := some new }
  | some t => { m.modify t fun n => { n with orderNext := some new } with orderTail := some new }

end Map

section Published

variable {m : Map Key Value} {chain : ℕ → List ℕ} {order : List ℕ} {key : Key} {value : Value}

def pushedChain (m : Map Key Value) (chain : ℕ → List ℕ) (key : Key) : ℕ → List ℕ :=
  update chain (m.hashKey key) (m.allocated :: chain (m.hashKey key))

theorem mem_pushedChain {b : ℕ} : x ∈ pushedChain m chain key b ↔
    (x = m.allocated ∧ b = m.hashKey key) ∨ x ∈ chain b := by
  by_cases hb : b = m.hashKey key
  · subst hb
    simp [pushedChain]
  · simp [pushedChain, hb]

theorem nodes_published_new :
    (m.published key value).nodes m.allocated = some (m.fresh key value) :=
  update_self _ _ _

theorem nodes_published (hx : x ≠ m.allocated) : (m.published key value).nodes x = m.nodes x :=
  update_of_ne hx _ _

theorem live_published (h : Bucketed m chain) {n : Node Key Value} :
    (m.published key value).Live x n ↔ m.Live x n ∨ (x = m.allocated ∧ n = m.fresh key value) := by
  by_cases hx : x = m.allocated
  · subst hx
    have hnone : ¬ m.Live m.allocated n := fun hlive => by
      rw [Map.Live, h.unallocated] at hlive
      cases hlive.1
    simp only [Map.Live, nodes_published_new, Option.some.injEq, true_and]
    constructor
    · rintro ⟨rfl, -, -⟩
      exact .inr rfl
    · rintro (hlive | rfl)
      · exact absurd hlive hnone
      · exact ⟨rfl, rfl, rfl⟩
  · simp [Map.Live, nodes_published hx, hx]

theorem Bucketed.published (h : Bucketed m chain) (hkey : ∀ x n, m.Live x n → n.key ≠ key) :
    Bucketed (m.published key value) (pushedChain m chain key) where
  positive := h.positive
  bucketChain := fun b => by
    have hold : Segment (m.published key value).bucketNext (m.buckets b) (chain b) none :=
      (h.bucketChain b).congr fun x hx => Map.bucketNext_congr (nodes_published (h.ne_new (h.held hx)))
    by_cases hb : b = m.hashKey key
    · subst hb
      have hbucket : (m.published key value).buckets (m.hashKey key) = some m.allocated :=
        update_self _ _ _
      have hnext : (m.published key value).bucketNext m.allocated = m.buckets (m.hashKey key) :=
        Map.bucketNext_node nodes_published_new
      rw [pushedChain, update_self, hbucket]
      exact ⟨rfl, hnext ▸ hold⟩
    · have hbucket : (m.published key value).buckets b = m.buckets b := update_of_ne hb _ _
      rw [pushedChain, update_of_ne hb, hbucket]
      exact hold
  mem_chain := fun b x => by
    rw [mem_pushedChain, h.mem_chain]
    simp only [live_published h]
    constructor
    · rintro (⟨rfl, rfl⟩ | ⟨n, hlive, hb⟩)
      · exact ⟨_, .inr ⟨rfl, rfl⟩, rfl⟩
      · exact ⟨n, .inl hlive, hb⟩
    · rintro ⟨n, hlive | ⟨rfl, rfl⟩, hb⟩
      · exact .inr ⟨n, hlive, hb⟩
      · exact .inl ⟨rfl, hb.symm⟩
  keys := fun x y n n' hx hy heq => by
    rw [live_published h] at hx hy
    rcases hx with hx | ⟨rfl, rfl⟩
    · rcases hy with hy | ⟨rfl, rfl⟩
      · exact h.keys x y n n' hx hy heq
      · exact absurd heq (hkey x n hx)
    · rcases hy with hy | ⟨rfl, rfl⟩
      · exact absurd heq.symm (hkey y n' hy)
      · rfl
  unswept := fun x n hn => by
    by_cases hx : x = m.allocated
    · subst hx
      rw [nodes_published_new] at hn
      cases hn
      exact ⟨rfl, rfl⟩
    · exact h.unswept x n ((nodes_published hx).symm.trans hn)
  bounded := fun x n hn => by
    by_cases hx : x = m.allocated
    · exact hx ▸ Nat.lt_succ_self _
    · exact Nat.lt_succ_of_lt (h.bounded x n ((nodes_published hx).symm.trans hn))
  tracked := fun x => by
    have hmem : x ∈ (m.published key value).allNodes ++ (m.published key value).staging ↔
        x = m.allocated ∨ x ∈ m.allNodes ++ m.staging := by
      simp only [Map.published, List.mem_append, List.mem_cons]
      tauto
    rw [hmem, h.tracked]
    by_cases hx : x = m.allocated
    · subst hx
      exact iff_of_true (.inl rfl) ⟨_, nodes_published_new, rfl⟩
    · rw [Map.Held, Map.Held, nodes_published hx]
      simp [hx]

section

omit [Hashable Key]

theorem orderNext_store {m : Map Key Value} {t : ℕ} {p : Option ℕ} (ht : m.Held t) :
    (m.modify t fun n => { n with orderNext := p }).orderNext = update m.orderNext t p := by
  obtain ⟨n, hn, -⟩ := ht
  funext y
  rw [Map.orderNext, Map.nodes_modify]
  by_cases hy : y = t
  · subst hy
    simp [hn]
  · rw [update_of_ne hy, Map.orderNext]
    cases m.nodes y <;> simp [hy]

theorem core_appended (m : Map Key Value) (new x : ℕ) : (m.appended new).core x = m.core x := by
  rw [Map.appended]
  cases m.orderTail with
  | none => rfl
  | some t =>
    exact Map.core_modify (f := fun n => { n with orderNext := some new })
      (fun _ => rfl) x

theorem appended_fields (m : Map Key Value) (new : ℕ) :
    (m.appended new).buckets = m.buckets ∧ (m.appended new).bucketCount = m.bucketCount ∧
      (m.appended new).allocated = m.allocated ∧ (m.appended new).allNodes = m.allNodes ∧
      (m.appended new).staging = m.staging ∧ (m.appended new).orderTail = some new := by
  rw [Map.appended]
  cases m.orderTail <;> exact ⟨rfl, rfl, rfl, rfl, rfl, rfl⟩

end

theorem Settled.inserted (h : Settled m chain order) (hkey : ∀ x n, m.Live x n → n.key ≠ key) :
    Settled ((m.published key value).appended m.allocated) (pushedChain m chain key)
      (order ++ [m.allocated]) := by
  have hframe := frame_of_core (core_appended (m.published key value) m.allocated)
  obtain ⟨hbuckets, hcount, hallocated, hall, hstaging, htail⟩ :=
    appended_fields (m.published key value) m.allocated
  have hnew : (m.published key value).orderNext m.allocated = none :=
    (Map.orderNext_node nodes_published_new).trans rfl
  have hold : Segment (m.published key value).orderNext m.orderHead order none :=
    h.orderChain.congr fun x hx =>
      Map.orderNext_congr (nodes_published (h.ne_new (h.listed x hx)))
  have hheld : ∀ x ∈ order ++ [m.allocated], (m.published key value).Held x := by
    intro x hx
    rcases List.mem_append.mp hx with hx | hx
    · rw [Map.Held, nodes_published (h.ne_new (h.listed x hx))]
      exact h.listed x hx
    · rw [List.mem_singleton.mp hx]
      exact ⟨_, nodes_published_new, rfl⟩
  refine ⟨(h.toBucketed.published hkey).of_frame hbuckets hcount hallocated hframe fun x => ?_, ?_, ?_,
    fun x hx => held_of_frame (fun y => (hframe y).symm) (hheld x hx), fun x n hlive => ?_⟩
  · rw [hall, hstaging]
  · rcases List.eq_nil_or_concat order with rfl | ⟨l, t, rfl⟩
    · have htail' : (m.published key value).orderTail = none := h.tail
      rw [Map.appended, htail']
      exact ⟨rfl, hnew⟩
    · rw [List.concat_eq_append] at *
      have htail' : (m.published key value).orderTail = some t := h.tail.trans (by simp)
      rw [Map.appended, htail']
      have hnext := orderNext_store (p := some m.allocated) (hheld t (by simp))
      refine Segment.congr (?_ : Segment (update (m.published key value).orderNext t
        (some m.allocated)) _ _ _) fun x _ => congrFun hnext x
      exact hold.extend (fun hmem => h.ne_new (h.listed _ hmem) rfl) hnew
  · rw [htail, List.getLast?_concat]
  · obtain ⟨n', hlive', -⟩ := live_of_frame hframe hlive
    rcases (live_published h.toBucketed).mp hlive' with hx | ⟨rfl, -⟩
    · exact List.mem_append_left _ (h.live_listed x n' hx)
    · exact List.mem_append_right _ (by simp)

theorem Settled.pairs_inserted (h : Settled m chain order) :
    ((m.published key value).appended m.allocated).pairs (order ++ [m.allocated]) =
      m.pairs order ++ [(key, value)] := by
  have hcore := core_appended (m.published key value) m.allocated
  have hold : order.filterMap ((m.published key value).appended m.allocated).pair =
      order.filterMap m.pair :=
    List.filterMap_congr fun x hx => (pair_of_core hcore x).trans
      (Map.pair_congr (nodes_published (h.ne_new (h.listed x hx))))
  have hnew : ((m.published key value).appended m.allocated).pair m.allocated =
      some (key, value) := by
    rw [pair_of_core hcore, Map.pair, nodes_published_new]
    rfl
  rw [Map.pairs, List.filterMap_append, hold, List.filterMap_cons, hnew]
  rfl

end Published

/-! The phases of `insert_internal` from a settled map. -/

section

omit [Hashable Key]

theorem modify_eq_self {m : Map Key Value} {f : Node Key Value → Node Key Value}
    (hf : ∀ n, m.nodes x = some n → f n = n) : m.modify x f = m := by
  have hmap : (m.nodes x).map f = m.nodes x := by
    cases hn : m.nodes x with
    | none => rfl
    | some n => rw [Option.map_some, hf n hn]
  rw [Map.modify, hmap, update_eq_self]

theorem orderLoop_eq {m : Map Key Value} {new : ℕ}
    (hempty : m.orderTail = none → m.orderHead = none)
    (hlast : ∀ t, m.orderTail = some t → ∃ n, m.nodes t = some n ∧ n.freed = false ∧
      n.orderNext = none) {failures rounds : ℕ} (hrounds : failures < rounds) :
    Map.orderLoop new rounds failures m = .ok (m.appended new) := by
  induction failures generalizing rounds with
  | zero =>
    obtain ⟨rounds, rfl⟩ : ∃ r, rounds = r + 1 := ⟨rounds - 1, by omega⟩
    rw [Map.orderLoop.eq_def, Map.appended]
    cases htail : m.orderTail with
    | none => simp [hempty htail, Map.exchangeTail, htail]
    | some t =>
      obtain ⟨n, hn, hfreed, hnext⟩ := hlast t htail
      simp [Map.load_held hn hfreed, bind, Except.bind, hnext, Map.exchangeTail, htail]
  | succ failures ih =>
    obtain ⟨rounds, rfl⟩ : ∃ r, rounds = r + 1 := ⟨rounds - 1, by omega⟩
    have hrest := ih (show failures < rounds by omega)
    rw [Map.orderLoop.eq_def]
    cases htail : m.orderTail with
    | none => simp [htail, hrest]
    | some t =>
      obtain ⟨n, hn, hfreed, hnext⟩ := hlast t htail
      simp [Map.load_held hn hfreed, bind, Except.bind, hnext, htail, hrest]

end

section Phases

variable {m : Map Key Value} {chain : ℕ → List ℕ} {order : List ℕ}

theorem Settled.orderPhase (h : Settled m chain order) (key : Key) (value : Value)
    (failures : ℕ) : (m.published key value).orderPhase failures m.allocated =
      .ok ((m.published key value).appended m.allocated) := by
  have hself : (m.published key value).modify m.allocated (fun n => { n with orderNext := none }) =
      m.published key value := by
    refine modify_eq_self fun n hn => ?_
    rw [nodes_published_new] at hn
    cases hn
    rfl
  rw [Map.orderPhase, hself]
  refine orderLoop_eq (fun htail => ?_) (fun t htail => ?_) (by omega)
  · have horder : order = [] := List.getLast?_eq_none_iff.mp (h.tail.symm.trans htail)
    have := h.orderChain
    rw [horder] at this
    exact this
  · have hlast : order.getLast? = some t := h.tail.symm.trans htail
    obtain ⟨l, rfl⟩ := List.getLast?_eq_some_iff.mp hlast
    obtain ⟨n, hn, hfreed⟩ := h.listed t (by simp)
    obtain ⟨q, -, rfl, hnext⟩ := segment_append.mp h.orderChain
    rw [segment_nil, Map.orderNext_node hn] at hnext
    exact ⟨n, (nodes_published (h.ne_new ⟨n, hn, hfreed⟩)).trans hn, hfreed, hnext⟩

@[simps] def Map.prepared (m : Map Key Value) (key : Key) (value : Value) : Map Key Value :=
  { m with
    nodes := update m.nodes m.allocated (some (m.fresh key value))
    allocated := m.allocated + 1 }

/-- The nodes of `m` are there in `m'`. -/
structure Keeps (m m' : Map Key Value) : Prop where
  count : m'.bucketCount = m.bucketCount
  allocated : m.allocated ≤ m'.allocated
  nodes : ∀ x, m.Held x → m'.nodes x = m.nodes x

omit [Hashable Key] in
theorem Keeps.refl (m : Map Key Value) : Keeps m m := ⟨rfl, Nat.le_refl _, fun _ _ => rfl⟩

theorem Bucketed.keeps_prepared (h : Bucketed m chain) (key : Key) (value : Value) :
    Keeps m (m.prepared key value) :=
  ⟨rfl, Nat.le_succ _, fun _ hx => update_of_ne (h.ne_new hx) _ _⟩

omit [Hashable Key] in
theorem Keeps.held {m' : Map Key Value} (hk : Keeps m m') (hx : m.Held x) : m'.Held x := by
  rw [Map.Held, hk.nodes x hx]
  exact hx

variable [DecidableEq Key]

theorem Settled.findInBucket (h : Settled m chain order) {m' : Map Key Value} (hk : Keeps m m')
    (hbuckets : m'.buckets = m.buckets) (key : Key) :
    (key ∉ m.keys order ∧ m'.findInBucket key = .ok none) ∨
      ∃ x n, m'.findInBucket key = .ok (some x) ∧ m.Live x n ∧ n.key = key := by
  have heq : m'.findInBucket key = .ok ((chain (m.hashKey key)).find? (m'.hasKey key)) := by
    rw [Map.findInBucket, hashKey_congr hk.count, hbuckets]
    exact Map.findInBucketLoop_eq ((h.bucketChain _).congr fun x hx =>
      Map.bucketNext_congr (hk.nodes x (h.held hx))) (fun x hx => hk.held (h.held hx))
      (Nat.le_trans (h.chain_length _) hk.allocated)
  rw [heq]
  rcases h.find_chain key (p := m'.hasKey key) fun x n hlive => by
    rw [Map.hasKey, hk.nodes x hlive.held, hlive.1]
    rfl
  with ⟨hkey, hnone⟩ | ⟨x, n, hx, hlive, hkey⟩
  · exact .inl ⟨hkey, by rw [hnone]⟩
  · exact .inr ⟨x, n, by rw [hx], hlive, hkey⟩

theorem Settled.liveLoop (h : Settled m chain order) {m' : Map Key Value} (hk : Keeps m m')
    (key : Key) (index : ℕ) : (¬ (key ∈ m.keys order ∧ m.hashKey key = index) ∧
        m'.liveLoop key m'.allocated (m.buckets index) = .ok none) ∨
      ∃ x n, m'.liveLoop key m'.allocated (m.buckets index) = .ok (some x) ∧ m.Live x n ∧
        n.key = key ∧ m.hashKey key = index := by
  have heq : m'.liveLoop key m'.allocated (m.buckets index) =
      .ok ((chain index).find? (m'.liveKey key)) := Map.liveLoop_eq
    ((h.bucketChain index).congr fun x hx => Map.bucketNext_congr (hk.nodes x (h.held hx)))
    (fun x hx => hk.held (h.held hx)) (Nat.le_trans (h.chain_length _) hk.allocated)
  rw [heq]
  have hp : ∀ x n, m.Live x n → m'.liveKey key x = decide (n.key = key) := by
    intro x n hlive
    rw [Map.liveKey, hk.nodes x hlive.held, hlive.1]
    simp [hlive.2.1]
  by_cases hindex : m.hashKey key = index
  · subst hindex
    rcases h.find_chain key hp with ⟨hkey, hnone⟩ | ⟨x, n, hx, hlive, hkey⟩
    · exact .inl ⟨fun hand => hkey hand.1, by rw [hnone]⟩
    · exact .inr ⟨x, n, by rw [hx], hlive, hkey, rfl⟩
  · refine .inl ⟨fun hand => hindex hand.2, ?_⟩
    rw [List.find?_eq_none.mpr fun x hx => ?_]
    obtain ⟨n, hlive, hb⟩ := (h.mem_chain index x).mp hx
    rw [hp x n hlive]
    simpa using fun hkey : n.key = key => hindex (hkey ▸ hb)

end Phases

end Equilibrium.LockFreeOrderedHashMap
