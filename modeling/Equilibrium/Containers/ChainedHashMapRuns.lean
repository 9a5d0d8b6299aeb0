import Equilibrium.Containers.ChainedHashMapChains
import Equilibrium.Containers.OrderedMap
import Equilibrium.Library.Fallible

/-! Every map that a program can have holds its nodes in chains, and `EraseIf` goes along
them; what that says of the two maps with nodes. -/

namespace Equilibrium.ChainedHashMap

open Library.LinkedChain List
open RedBlackTree2 (naturals lawful_naturals blank)

variable {K V : Type} {m m' other : HashMap K V} {chain : ℕ → List ℕ} {x : ℕ}
  {l r : List ℕ}

theorem holds_empty (hcount : m.bucketCount = 0) (hsize : m.size = 0) : Holds m (fun _ => []) := by
  have hnone : ∀ b, ¬ b < m.bucketCount := fun b => by omega
  refine ⟨⟨fun b hb => absurd hb (hnone b), fun b hb => absurd hb (hnone b),
    fun b hb => absurd hb (hnone b), .inl hcount⟩, ?_⟩
  rw [hsize, hcount]
  rfl

theorem Holds.setSecond (h : Holds m chain) (node : ℕ) (value : V) :
    Holds (m.setSecond node value) chain :=
  ⟨⟨h.linked, h.placed, h.bounded, h.table⟩, h.size⟩

theorem emplace_cases {key : K} {value : V} {node : ℕ} {inserted : Bool}
    (hop : m.emplace key value = some (m', node, inserted)) : m' = m ∧ inserted = false ∨
      m.link (m.hasher key) key value = some (m', node) ∧ inserted = true := by
  obtain ⟨found, -, hop⟩ := Option.bind_eq_some_iff.mp hop
  cases found with
  | some node =>
    cases hop
    exact .inl ⟨rfl, rfl⟩
  | none =>
    obtain ⟨linked, hlink, hop⟩ := Option.bind_eq_some_iff.mp hop
    cases hop
    exact .inr ⟨hlink, rfl⟩

theorem insertOrAssign_cases {key : K} {value : V} {node : ℕ} {inserted : Bool}
    (hop : m.insertOrAssign key value = some (m', node, inserted)) :
    m' = m.setSecond node value ∧ inserted = false ∨
      m.emplace key value = some (m', node, inserted) := by
  obtain ⟨found, -, hop⟩ := Option.bind_eq_some_iff.mp hop
  cases found with
  | some node =>
    cases hop
    exact .inl ⟨rfl, rfl⟩
  | none => exact .inr hop

section

variable (h : Holds m chain)
include h

theorem Holds.emplace {key : K} {value : V} {node : ℕ} {inserted : Bool}
    (hop : m.emplace key value = some (m', node, inserted)) : ∃ chain', Holds m' chain' := by
  obtain ⟨rfl, -⟩ | ⟨hlink, -⟩ := emplace_cases hop
  · exact ⟨chain, h⟩
  · exact h.link hlink

theorem Holds.insertOrAssign {key : K} {value : V} {node : ℕ} {inserted : Bool}
    (hop : m.insertOrAssign key value = some (m', node, inserted)) : ∃ chain', Holds m' chain' := by
  obtain ⟨rfl, -⟩ | hemplace := insertOrAssign_cases hop
  · exact ⟨chain, h.setSecond node value⟩
  · exact h.emplace hemplace

theorem Holds.eraseKey {key : K} {count : ℕ} (hop : m.eraseKey key = some (m', count)) :
    ∃ chain', Holds m' chain' := by
  rw [HashMap.eraseKey] at hop
  split at hop
  case isTrue =>
    cases hop
    exact ⟨chain, h⟩
  case isFalse hcount =>
    have hb := h.bucketOf_lt hcount (m.hasher key)
    cases hmatch : m.matchLoop (m.hasher key) key (m.allocated + 1) none
        (m.buckets (bucketOf m.bucketShift (m.hasher key))) with
    | none =>
      simp only [hmatch, bind, Option.bind, reduceCtorEq] at hop
    | some found =>
      simp only [hmatch, bind, Option.bind] at hop
      cases found with
      | none =>
        cases hop
        exact ⟨chain, h⟩
      | some found =>
        cases hop
        obtain ⟨a, c, hchain, hlink⟩ := matchLoop_some (h.linked _ hb) hmatch
        rw [hlink]
        exact ⟨_, h.unlink hb hchain⟩

theorem Holds.eraseAt (hsplit : nodes chain m.bucketCount = l ++ x :: r) :
    ∃ m' chain', m.eraseAt x = some (m', r.head?) ∧ Holds m' chain' ∧
      nodes chain' m'.bucketCount = l ++ r ∧ m'.value = m.value ∧ m'.hash = m.hash ∧
      m'.hasher = m.hasher ∧ m'.equal = m.equal := by
  have hnext := h.nextNode hsplit
  obtain ⟨b, a, c, hb, hchain, rfl, rfl⟩ := h.split hsplit
  have hxb : x ∈ chain b := by
    rw [hchain]
    exact mem_append_right _ mem_cons_self
  have hlinked := h.linked b hb
  have hlength := h.length_le hb
  rw [hchain] at hlinked hlength
  rw [length_append, length_cons] at hlength
  have hloop : m.victimLoop b x (m.allocated + 1) none = some (lastLink none a) :=
    victimLoop_eq hlinked (by omega)
  refine ⟨m.unlink b (lastLink none a) x, _, ?_, h.unlink hb hchain, ?_, unlink_value ..,
    unlink_hash .., unlink_hasher .., unlink_equal ..⟩
  · rw [HashMap.eraseAt, h.placed b hb x hxb, hloop, hnext]
    rfl
  · rw [unlink_bucketCount, nodes_update hb, append_assoc, append_assoc]

theorem Holds.clear : Holds m.clear (fun _ => []) := by
  refine ⟨⟨fun b hb => ?_, fun _ _ => nofun, fun _ _ => nofun, h.table⟩, ?_⟩
  · exact if_pos hb
  · exact (length_eq_zero_iff.mpr (flatMap_eq_nil_iff.mpr fun _ _ => rfl)).symm

theorem Holds.copyLoop {rounds : ℕ} {p : Option ℕ}
    (hop : HashMap.copyLoop other rounds m p = some m') : ∃ chain', Holds m' chain' := by
  induction rounds generalizing m chain p with
  | zero => cases hop
  | succ rounds ih =>
    cases p with
    | none =>
      cases hop
      exact ⟨chain, h⟩
    | some node =>
      rw [HashMap.copyLoop] at hop
      cases hemplace : m.emplace (other.value node).1 (other.value node).2 with
      | none =>
        rw [hemplace] at hop
        cases hop
      | some emplaced =>
        rw [hemplace] at hop
        obtain ⟨chain₁, h₁⟩ := h.emplace hemplace
        exact ih h₁ hop

theorem Holds.copyFrom (hop : m.copyFrom other = some m') : ∃ chain', Holds m' chain' := by
  rw [HashMap.copyFrom] at hop
  cases hreserve : m.reserve other.size with
  | none =>
    rw [hreserve] at hop
    cases hop
  | some m₁ =>
    rw [hreserve] at hop
    obtain ⟨chain₁, h₁⟩ := h.reserve hreserve
    exact h₁.copyLoop hop

end

theorem Reachable.holds (h : Reachable m) : ∃ chain, Holds m chain := by
  induction h with
  | construct memory => exact ⟨_, holds_empty rfl rfl⟩
  | copyConstruct memory _ hop _ => exact (holds_empty rfl rfl).copyFrom hop
  | copyAssign _ _ hop _ _ => exact (holds_empty rfl rfl).copyFrom hop
  | stolen _ _ => exact ⟨_, holds_empty rfl rfl⟩
  | reserve _ hop ih =>
    obtain ⟨chain, h⟩ := ih
    exact h.reserve hop
  | emplace _ hop ih =>
    obtain ⟨chain, h⟩ := ih
    exact h.emplace hop
  | insertOrAssign _ hop ih =>
    obtain ⟨chain, h⟩ := ih
    exact h.insertOrAssign hop
  | setSecond value _ ih =>
    obtain ⟨chain, h⟩ := ih
    exact ⟨chain, h.setSecond _ value⟩
  | eraseKey _ hop ih =>
    obtain ⟨chain, h⟩ := ih
    exact h.eraseKey hop
  | eraseAt _ hit hop ih =>
    obtain ⟨chain, h⟩ := ih
    obtain ⟨l, r, hsplit⟩ := append_of_mem (h.contains_iff.mp hit)
    obtain ⟨m₁, chain₁, hop', hholds, -⟩ := h.eraseAt hsplit
    rw [hop'] at hop
    cases hop
    exact ⟨chain₁, hholds⟩
  | clear _ ih =>
    obtain ⟨chain, h⟩ := ih
    exact ⟨_, h.clear⟩

/-- What `EraseIf` calls; an iterator is a node or null. -/
def container (K V : Type) : EraseIf.Container (HashMap K V) (Option ℕ) (K × V) where
  first m := some m.firstNode
  last _ := none
  value m it := it.map m.value
  advance m it := it.map m.nextNode
  erase m it := it.bind m.eraseAt

theorem listed (K V : Type) : EraseIf.Listed (container K V) (fun m l =>
    ∃ chain, Holds m chain ∧ (nodes chain m.bucketCount).map some = l) where
  first_eq := by
    rintro m _ ⟨chain, h, rfl⟩
    refine congrArg some (h.firstNode.trans ?_)
    rw [head?_map]
    cases (nodes chain m.bucketCount).head? <;> rfl
  ne_last := by
    rintro m _ x ⟨chain, h, rfl⟩ hx
    obtain ⟨y, -, rfl⟩ := mem_map.mp hx
    exact nofun
  value_isSome := by
    rintro m _ x ⟨chain, h, rfl⟩ hx
    obtain ⟨y, -, rfl⟩ := mem_map.mp hx
    rfl
  advance_eq := by
    rintro m _ _ _ ⟨chain, h, hsplit⟩
    obtain ⟨l, r', hnodes, rfl, hr⟩ := map_eq_append_iff.mp hsplit
    obtain ⟨x, r, rfl, rfl, rfl⟩ := map_eq_cons_iff.mp hr
    refine congrArg some ((h.nextNode hnodes).trans ?_)
    rw [head?_map]
    cases r.head? <;> rfl
  erase_eq := by
    rintro m _ _ _ ⟨chain, h, hsplit⟩
    obtain ⟨l, r', hnodes, rfl, hr⟩ := map_eq_append_iff.mp hsplit
    obtain ⟨x, r, rfl, rfl, rfl⟩ := map_eq_cons_iff.mp hr
    obtain ⟨m', chain', herase, hholds, hlist, hvalue, -⟩ := h.eraseAt hnodes
    refine ⟨m', ?_, ⟨chain', hholds, ?_⟩, rfl, ?_⟩
    · refine herase.trans ?_
      rw [head?_map]
      cases r.head? <;> rfl
    · rw [hlist, map_append]
    · funext it
      exact congrArg (fun f => it.map f) hvalue

theorem Reachable.sweep (h : Reachable m) (pred : K × V → Bool) {rounds : ℕ}
    (hrounds : m.size < rounds) : ∃ m' removed visited,
      EraseIf.eraseIf (container K V) pred rounds m = some (m', removed, visited.map some) ∧
        EraseIf.Sweep HashMap.Contains HashMap.value HashMap.size pred m m' removed visited := by
  obtain ⟨chain, hm⟩ := h.holds
  have hlength : ((nodes chain m.bucketCount).map some).length < rounds := by
    rw [length_map, ← hm.size]
    exact hrounds
  obtain ⟨m', hsweep, ⟨chain', hm', hkept⟩, hvalue⟩ :=
    (listed K V).eraseIf_eq pred ⟨chain, hm, rfl⟩ hlength
  have hleft : nodes chain' m'.bucketCount =
      (nodes chain m.bucketCount).filter fun x => !pred (m.value x) := by
    rw [List.filter_map] at hkept
    exact map_injective_iff.mpr (fun _ _ => Option.some.inj) hkept
  refine ⟨m', _, nodes chain m.bucketCount, hsweep, hm.nodup, fun x => hm.contains_iff.symm,
    fun x => ?_, fun x _ => ?_, ?_, ?_⟩
  · rw [hm'.contains_iff, hm.contains_iff, hleft, mem_filter, Bool.not_eq_true']
  · exact Option.some.inj (congrFun hvalue (some x))
  · rw [List.filter_map, length_map]
    rfl
  · rw [hm'.size, hm.size, hleft, List.filter_map, length_map, Nat.add_comm]
    exact (length_eq_length_filter_add fun x => pred (m.value x)).symm

/-- `EraseIf` on the two maps with nodes: every element present at the start is visited once, those
that do not match stay in unchanged nodes, and the number of the others comes back. -/
theorem eraseIf_sweeps :
    (∀ {K V : Type} (m : HashMap K V), Reachable m → ∀ (pred : K × V → Bool) (rounds : ℕ),
      m.size < rounds → ∃ m' removed visited,
        EraseIf.eraseIf (container K V) pred rounds m = some (m', removed, visited.map some) ∧
          EraseIf.Sweep HashMap.Contains HashMap.value HashMap.size pred m m' removed visited) ∧
    (∀ {K V : Type} [Inhabited V] (keys : RedBlackTree2.Comparator K), keys.Lawful →
      ∀ (m : OrderedMap.Map K V), OrderedMap.Reachable keys m →
        ∀ (pred : K × V → Bool) (rounds : ℕ), m.size < rounds → ∃ m' removed visited,
          EraseIf.eraseIf (OrderedMap.container keys V) pred rounds m =
              some (m', removed, visited) ∧
            EraseIf.Sweep OrderedMap.Map.Contains OrderedMap.Map.value OrderedMap.Map.size pred m
              m' removed visited) :=
  ⟨fun _ h pred _ hrounds => h.sweep pred hrounds,
    fun _ hk _ h pred _ hrounds => h.sweep hk pred hrounds⟩

def numbers : HashMap ℕ ℕ where
  buckets _ := none
  bucketCount := 0
  bucketShift := 0
  size := 0
  hasher k := k.toUInt64
  equal a b := a == b
  value _ := (0, 0)
  next _ := none
  hash _ := 0
  allocated := 0

/-- The sweep of the odd keys over the keys 1 and 2. -/
theorem eraseIf_sweeps_numbers : (∃ m, Reachable m ∧ m.size = 2 ∧ ∃ m' removed visited,
      EraseIf.eraseIf (container ℕ ℕ) (fun e => e.1 % 2 == 1) 3 m =
          some (m', removed, visited.map some) ∧
        EraseIf.Sweep HashMap.Contains HashMap.value HashMap.size (fun e => e.1 % 2 == 1) m m'
          removed visited) ∧
    (∃ m, OrderedMap.Reachable naturals m ∧ m.size = 2 ∧ ∃ m' removed visited,
      EraseIf.eraseIf (OrderedMap.container naturals ℕ) (fun e => e.1 % 2 == 1) 3 m =
          some (m', removed, visited) ∧
        EraseIf.Sweep OrderedMap.Map.Contains OrderedMap.Map.value OrderedMap.Map.size
          (fun e => e.1 % 2 == 1) m m' removed visited) := by
  constructor
  · obtain ⟨r₁, h₁⟩ := Option.isSome_iff_exists.mp
      (by decide +kernel : (numbers.construct.emplace 1 10).isSome)
    have hsize : ((numbers.construct.emplace 1 10).bind fun r => r.1.emplace 2 20).map
        (fun r => r.1.size) = some 2 := by decide +kernel
    obtain ⟨r₂, h₂, hr₂⟩ := Option.map_eq_some_iff.mp hsize
    rw [h₁] at h₂
    have hreach : Reachable r₂.1 := .emplace (.emplace (.construct numbers) h₁) h₂
    exact ⟨r₂.1, hreach, hr₂, eraseIf_sweeps.1 r₂.1 hreach _ 3 (by rw [hr₂]; decide)⟩
  · obtain ⟨r₁, h₁⟩ := Option.isSome_iff_exists.mp (by decide +kernel :
      ((OrderedMap.Map.construct (blank (0, 0))).emplace naturals 1 10).isSome)
    have hsize : (((OrderedMap.Map.construct (blank (0, 0))).emplace naturals 1 10).bind
        fun r => r.1.emplace naturals 2 20).map (fun r => r.1.size) = some 2 := by
      decide +kernel
    obtain ⟨r₂, h₂, hr₂⟩ := Option.map_eq_some_iff.mp hsize
    rw [h₁] at h₂
    have hreach : OrderedMap.Reachable naturals r₂.1 :=
      .emplace (.emplace (.construct (blank (0, 0))) h₁) h₂
    exact ⟨r₂.1, hreach, hr₂, eraseIf_sweeps.2 naturals lawful_naturals r₂.1
      hreach _ 3 (by rw [hr₂]; decide)⟩

/-! How `reserve` of the hash map ends, and what it is good for later. -/

open Nat Option
open Library.Fallible (bind_eq_ok)

variable {K V : Type} {m m' m₁ : HashMap K V} {count wanted rounds : ℕ} {granted : Bool}

/-- How a call ends that does not return. -/
inductive Halt where
  /-- The check of an allocation has failed. -/
  | allocation
  /-- A loop goes on for ever. -/
  | endless
  /-- A store is behind the block of the buckets. -/
  | overrun
  deriving DecidableEq, Repr

def looped {α : Type} : Option α → Except Halt α
  | some a => .ok a
  | none => .error .endless

/-- `Rehash`, where the allocator may give null. -/
def HashMap.rehashWith (m : HashMap K V) (granted : Bool) (wanted : ℕ) :
    Except Halt (HashMap K V) := do
  let count ← looped (roundUpToPowerOfTwo wanted)
  let shift ← looped (shiftLoop count 65 0)
  if granted = false then .error .allocation
  else if count * 8 % UInt64.size < count * 8 then .error .overrun
  else
    looped ((List.range m.bucketCount).foldlM
      (fun fresh b => relinkLoop (m.allocated + 1) fresh (m.buckets b)) (m.freshTable count shift))

def HashMap.reserveWith (m : HashMap K V) (granted : Bool) (count : ℕ) :
    Except Halt (HashMap K V) :=
  if count > m.bucketCount then m.rehashWith granted count else .ok m

/-- The condition in `Link`. -/
def HashMap.LinkRehashes (m : HashMap K V) : Prop := m.size + 1 > m.bucketCount

/-- What a map can become while elements come and go and insertions find fewer than `count` of
them. -/
inductive Later (count : ℕ) (m : HashMap K V) : HashMap K V → Prop
  | refl : Later count m m
  | emplace {m₁ m₂ : HashMap K V} {key : K} {value : V} {node : ℕ} {inserted : Bool}
      (h : Later count m m₁) (hop : m₁.emplace key value = some (m₂, node, inserted))
      (hroom : inserted = true → m₁.size < count) : Later count m m₂
  | insertOrAssign {m₁ m₂ : HashMap K V} {key : K} {value : V} {node : ℕ} {inserted : Bool}
      (h : Later count m m₁) (hop : m₁.insertOrAssign key value = some (m₂, node, inserted))
      (hroom : inserted = true → m₁.size < count) : Later count m m₂
  | setSecond {m₁ : HashMap K V} (node : ℕ) (value : V) (h : Later count m m₁) :
      Later count m (m₁.setSecond node value)
  | eraseKey {m₁ m₂ : HashMap K V} {key : K} {erased : ℕ} (h : Later count m m₁)
      (hop : m₁.eraseKey key = some (m₂, erased)) : Later count m m₂
  | eraseAt {m₁ m₂ : HashMap K V} {victim : ℕ} {next : Option ℕ} (h : Later count m m₁)
      (hop : m₁.eraseAt victim = some (m₂, next)) : Later count m m₂
  | clear {m₁ : HashMap K V} (h : Later count m m₁) : Later count m m₁.clear

/-- What `reserve` is for. -/
structure Reserved (m : HashMap K V) (count : ℕ) (m' : HashMap K V) : Prop where
  power : ∃ k, m'.bucketCount = 2 ^ k
  enough : count ≤ m'.bucketCount
  /-- The bytes that the table was allocated with are those of its pointers. -/
  backed : m'.bucketCount * 8 % UInt64.size = m'.bucketCount * 8
  chains : ∃ chain, Holds m' chain
  contents : ∀ x, m'.Contains x ↔ m.Contains x
  value : m'.value = m.value
  hash : m'.hash = m.hash
  size : m'.size = m.size
  hasher : m'.hasher = m.hasher
  equal : m'.equal = m.equal
  later : ∀ m'', Later count m' m'' → m''.size < count → ¬m''.LinkRehashes

/-- `reserve` does what it is for, or the check of its allocation ends the program. -/
def Reserves (m : HashMap K V) (granted : Bool) (count : ℕ) : Prop :=
  match m.reserveWith granted count with
  | .ok m' => Reserved m count m'
  | .error halt => halt = .allocation

section Tables

/-- The sizes of the tables that a rehash makes. -/
def TableSize (n : ℕ) : Prop := n = 0 ∨ ∃ k ≤ 60, n = 1 <<< k

theorem relinkLoop_bucketCount {p : Option ℕ} (h : HashMap.relinkLoop rounds m p = some m') :
    m'.bucketCount = m.bucketCount := by
  induction rounds generalizing m p with
  | zero => cases h
  | succ rounds ih =>
    cases p with
    | none =>
      cases h
      rfl
    | some node =>
      have hpushed := ih h
      exact hpushed

theorem relinkAll_bucketCount {old : HashMap K V} {bs : List ℕ}
    (h : bs.foldlM (fun fresh b => HashMap.relinkLoop rounds fresh (old.buckets b)) m = some m') :
    m'.bucketCount = m.bucketCount := by
  induction bs generalizing m with
  | nil =>
    cases h
    rfl
  | cons b bs ih =>
    obtain ⟨m₁, hloop, h⟩ := bind_eq_some_iff.mp h
    exact (ih h).trans (relinkLoop_bucketCount hloop)

theorem fits_iff {k : ℕ} (hk : k ≤ 63) :
    ¬ (1 <<< k) * 8 % UInt64.size < (1 <<< k) * 8 ↔ k ≤ 60 := by
  have hbytes : (1 <<< k) * 8 = 2 ^ (k + 3) := by
    rw [shiftLeft_eq, Nat.one_mul, Nat.pow_add]
  rw [hbytes]
  constructor
  · intro hfit
    by_contra hlarge
    have hzero : 2 ^ (k + 3) % 2 ^ 64 = 0 :=
      mod_eq_zero_of_dvd (Nat.pow_dvd_pow 2 (by omega))
    exact hfit (hzero ▸ Nat.two_pow_pos _)
  · intro hle
    rw [mod_eq_of_lt (Nat.pow_lt_pow_right (by decide) (by omega : k + 3 < 64))]
    exact Nat.lt_irrefl _

theorem rehash_tableSize (h : m.rehash wanted = some m') : TableSize m'.bucketCount := by
  obtain ⟨k, hk, hround, -, hfit⟩ := rehash_rounds h
  have hshift : shiftLoop (1 <<< k) 65 0 = some k := shiftLoop_eq (Nat.zero_le k) (by omega)
  rw [HashMap.rehash] at h
  simp only [hround, hshift, bind, Option.bind, hfit, if_false] at h
  exact .inr ⟨k, (fits_iff hk).mp hfit, relinkAll_bucketCount h⟩

theorem reserve_tableSize (hm : TableSize m.bucketCount) (h : m.reserve count = some m') :
    TableSize m'.bucketCount := by
  rw [HashMap.reserve] at h
  split at h
  case isTrue => exact rehash_tableSize h
  case isFalse => exact Option.some.inj h ▸ hm

theorem link_cases {h : UInt64} {key : K} {value : V} {node : ℕ}
    (hop : m.link h key value = some (m', node)) :
    (¬m.LinkRehashes ∧ m'.bucketCount = m.bucketCount) ∨
      (m.LinkRehashes ∧ TableSize m'.bucketCount) := by
  rw [HashMap.link] at hop
  split at hop
  case isTrue hfull =>
    obtain ⟨m₁, hrehash, hop⟩ := bind_eq_some_iff.mp hop
    cases hop
    have htable : TableSize m₁.bucketCount := rehash_tableSize hrehash
    exact .inr ⟨hfull, htable⟩
  case isFalse hroom =>
    cases hop
    exact .inl ⟨hroom, rfl⟩

theorem emplace_tableSize {key : K} {value : V} {node : ℕ} {inserted : Bool}
    (hm : TableSize m.bucketCount) (hop : m.emplace key value = some (m', node, inserted)) :
    TableSize m'.bucketCount := by
  obtain ⟨rfl, -⟩ | ⟨hlink, -⟩ := emplace_cases hop
  · exact hm
  · obtain ⟨-, hcount⟩ | ⟨-, htable⟩ := link_cases hlink
    · exact hcount ▸ hm
    · exact htable

theorem eraseKey_bucketCount {key : K} {erased : ℕ} (hop : m.eraseKey key = some (m', erased)) :
    m'.bucketCount = m.bucketCount := by
  rw [HashMap.eraseKey] at hop
  split at hop
  case isTrue =>
    cases hop
    rfl
  case isFalse =>
    obtain ⟨found, -, hop⟩ := bind_eq_some_iff.mp hop
    cases found with
    | none =>
      cases hop
      rfl
    | some found =>
      cases hop
      exact unlink_bucketCount ..

theorem eraseAt_bucketCount {victim : ℕ} {next : Option ℕ}
    (hop : m.eraseAt victim = some (m', next)) : m'.bucketCount = m.bucketCount := by
  obtain ⟨link, -, hop⟩ := bind_eq_some_iff.mp hop
  cases hop
  exact unlink_bucketCount ..

theorem copyLoop_tableSize {other : HashMap K V} {p : Option ℕ} (hm : TableSize m.bucketCount)
    (hop : HashMap.copyLoop other rounds m p = some m') : TableSize m'.bucketCount := by
  induction rounds generalizing m p with
  | zero => cases hop
  | succ rounds ih =>
    cases p with
    | none =>
      cases hop
      exact hm
    | some node =>
      obtain ⟨emplaced, hemplace, hop⟩ := bind_eq_some_iff.mp hop
      exact ih (emplace_tableSize hm hemplace) hop

theorem copyFrom_tableSize {other : HashMap K V} (hm : TableSize m.bucketCount)
    (hop : m.copyFrom other = some m') : TableSize m'.bucketCount := by
  obtain ⟨m₁, hreserve, hop⟩ := bind_eq_some_iff.mp hop
  exact copyLoop_tableSize (reserve_tableSize hm hreserve) hop

theorem Reachable.tableSize (h : Reachable m) : TableSize m.bucketCount := by
  induction h with
  | construct memory => exact .inl rfl
  | copyConstruct memory _ hop _ => exact copyFrom_tableSize (.inl rfl) hop
  | copyAssign _ _ hop _ _ => exact copyFrom_tableSize (.inl rfl) hop
  | stolen _ _ => exact .inl rfl
  | reserve _ hop ih => exact reserve_tableSize ih hop
  | emplace _ hop ih => exact emplace_tableSize ih hop
  | insertOrAssign _ hop ih =>
    obtain ⟨rfl, -⟩ | hemplace := insertOrAssign_cases hop
    · exact ih
    · exact emplace_tableSize ih hemplace
  | setSecond value _ ih => exact ih
  | eraseKey _ hop ih => exact eraseKey_bucketCount hop ▸ ih
  | eraseAt _ _ hop ih => exact eraseAt_bucketCount hop ▸ ih
  | clear _ ih => exact ih

/-- As long as they find fewer elements than there are buckets, insertions keep the table. -/
theorem Later.bucketCount (h : Later count m m₁) (hcount : count ≤ m.bucketCount) :
    m₁.bucketCount = m.bucketCount := by
  have hemplace : ∀ {m₁ m₂ : HashMap K V} {key : K} {value : V} {node : ℕ} {inserted : Bool},
      m₁.bucketCount = m.bucketCount → m₁.emplace key value = some (m₂, node, inserted) →
      (inserted = true → m₁.size < count) → m₂.bucketCount = m.bucketCount := by
    intro m₁ m₂ key value node inserted ih hop hroom
    obtain ⟨rfl, -⟩ | ⟨hlink, hinserted⟩ := emplace_cases hop
    · exact ih
    · obtain ⟨-, hsame⟩ | ⟨hfull, -⟩ := link_cases hlink
      · exact hsame.trans ih
      · have hless := hroom hinserted
        rw [HashMap.LinkRehashes] at hfull
        omega
  induction h with
  | refl => rfl
  | emplace _ hop hroom ih => exact hemplace ih hop hroom
  | insertOrAssign _ hop hroom ih =>
    obtain ⟨rfl, -⟩ | hop := insertOrAssign_cases hop
    · exact ih
    · exact hemplace ih hop hroom
  | setSecond _ _ _ ih => exact ih
  | eraseKey _ hop ih => exact (eraseKey_bucketCount hop).trans ih
  | eraseAt _ hop ih => exact (eraseAt_bucketCount hop).trans ih
  | clear _ ih => exact ih

end Tables

section Outcomes

/-- Past `2 ^ 63` the doubled size comes round to zero and stays there. -/
theorem roundUpLoop_endless (h : 1 <<< 63 < wanted) (rounds : ℕ) :
    roundUpLoop wanted rounds 16 = none := by
  cases hround : roundUpLoop wanted rounds 16 with
  | none => rfl
  | some count =>
    obtain ⟨hle, k, hk, rfl⟩ := roundUpLoop_eq (.inr ⟨4, by decide, rfl⟩) hround
    have hpow : 1 <<< k ≤ 1 <<< 63 := by
      rw [one_shiftLeft, one_shiftLeft]
      exact Nat.pow_le_pow_right (by decide) hk
    omega

theorem rehashWith_endless (h : 1 <<< 63 < wanted) (m : HashMap K V) (granted : Bool) :
    m.rehashWith granted wanted = .error .endless := by
  rw [HashMap.rehashWith, roundUpToPowerOfTwo, roundUpLoop_endless h]
  rfl

theorem rehashWith_rounds (h : wanted ≤ 1 <<< 63) : ∃ k ≤ 63,
    roundUpToPowerOfTwo wanted = some (1 <<< k) ∧ shiftLoop (1 <<< k) 65 0 = some k ∧
      (k ≤ 60 ↔ wanted ≤ 1 <<< 60) := by
  have hround : ∀ top, 4 ≤ top → top ≤ 63 → wanted ≤ 1 <<< top →
      ∃ k ≤ top, roundUpToPowerOfTwo wanted = some (1 <<< k) := fun top hfour htop hle =>
    roundUpLoop_total htop hle hfour (by omega)
  obtain ⟨k, hk, heq⟩ := hround 63 (by decide) (Nat.le_refl _) h
  refine ⟨k, hk, heq, shiftLoop_eq (Nat.zero_le k) (by omega), fun hle => ?_, fun hle => ?_⟩
  · obtain ⟨hwanted, -⟩ := roundUpLoop_eq (.inr ⟨4, by decide, rfl⟩) heq
    refine Nat.le_trans hwanted ?_
    rw [one_shiftLeft, one_shiftLeft]
    exact Nat.pow_le_pow_right (by decide) hle
  · obtain ⟨j, hj, heq'⟩ := hround 60 (by decide) (by decide) hle
    have hpow := Option.some.inj (heq.symm.trans heq')
    rw [one_shiftLeft, one_shiftLeft] at hpow
    exact Nat.le_trans ((Nat.pow_le_pow_iff_right (by decide)).mp (Nat.le_of_eq hpow)) hj

theorem rehashWith_refused (h : wanted ≤ 1 <<< 63) (m : HashMap K V) :
    m.rehashWith false wanted = .error .allocation := by
  obtain ⟨k, -, hround, hshift, -⟩ := rehashWith_rounds h
  simp only [HashMap.rehashWith, hround, looped, bind, Except.bind, hshift, if_true]

theorem rehashWith_overrun (hlarge : 1 <<< 60 < wanted) (h : wanted ≤ 1 <<< 63)
    (m : HashMap K V) : m.rehashWith true wanted = .error .overrun := by
  obtain ⟨k, hk, hround, hshift, hiff⟩ := rehashWith_rounds h
  have hcut : (1 <<< k) * 8 % UInt64.size < (1 <<< k) * 8 := by
    by_contra hfit
    exact Nat.not_le_of_lt hlarge (hiff.mp ((fits_iff hk).mp hfit))
  simp only [HashMap.rehashWith, hround, looped, bind, Except.bind, hshift, hcut, if_true,
    Bool.true_eq_false, if_false]

theorem rehashWith_granted (h : m.rehash wanted = some m') : m.rehashWith true wanted = .ok m' := by
  obtain ⟨k, hk, hround, -, hfit⟩ := rehash_rounds h
  have hshift : shiftLoop (1 <<< k) 65 0 = some k := shiftLoop_eq (Nat.zero_le k) (by omega)
  rw [HashMap.rehash] at h
  simp only [hround, hshift, bind, Option.bind, hfit, if_false] at h
  simp only [HashMap.rehashWith, hround, looped, bind, Except.bind, hshift, hfit, if_false,
    Bool.true_eq_false, h]

theorem later_fits (hcount : count ≤ m.bucketCount) :
    ∀ m₁, Later count m m₁ → m₁.size < count → ¬m₁.LinkRehashes := by
  intro m₁ hlater hless
  have hsame := hlater.bucketCount hcount
  rw [HashMap.LinkRehashes]
  omega

theorem reserved_self (h : Reachable m) (hcount : count ≤ m.bucketCount)
    (hpos : m.bucketCount ≠ 0) : Reserved m count m := by
  obtain ⟨k, hk, hpow⟩ := h.tableSize.resolve_left hpos
  refine ⟨⟨k, hpow.trans (one_shiftLeft k)⟩, hcount, ?_, h.holds, fun _ => Iff.rfl, rfl, rfl,
    rfl, rfl, rfl, later_fits hcount⟩
  have hfit := (fits_iff (Nat.le_trans hk (by decide))).mpr hk
  rw [hpow]
  exact Nat.le_antisymm (mod_le _ _) (Nat.le_of_not_lt hfit)

theorem reserved_rehash (h : Reachable m) (hlarge : count > m.bucketCount)
    (hcount : count ≤ 1 <<< 60) : ∃ m', m.rehash count = some m' ∧ Reserved m count m' := by
  obtain ⟨chain, hm⟩ := h.holds
  obtain ⟨m', chain', hop, hchains, hpos, hperm, hhash, hvalue, -, hsize, hhasher, hequal⟩ :=
    hm.rehash_total hcount
  obtain ⟨-, -, hwanted, -⟩ := hm.toChains.rehash hop
  have hreach : Reachable m' := .reserve h ((if_pos hlarge).trans hop)
  have hself := reserved_self hreach hwanted hpos
  refine ⟨m', hop, hself.power, hself.enough, hself.backed, hself.chains, fun x => ?_, hvalue,
    hhash, hsize, hhasher, hequal, hself.later⟩
  rw [hchains.contains_iff, hm.contains_iff, hperm.mem_iff]

end Outcomes

/-- For every map, `reserve` does what it is for exactly up to `2 ^ 60` elements, or up to `2 ^ 63`
where the allocator gives nothing. -/
theorem reserves_iff (h : Reachable m) (granted : Bool) (count : ℕ) :
    Reserves m granted count ↔ ¬(count = 0 ∧ m.bucketCount = 0) ∧
      (count ≤ 2 ^ 60 ∨ granted = false ∧ count ≤ 2 ^ 63) := by
  rw [← one_shiftLeft 60, ← one_shiftLeft 63]
  by_cases hlarge : count > m.bucketCount
  case neg =>
    -- every table has at most `2 ^ 60` buckets
    have hle : count ≤ m.bucketCount := Nat.le_of_not_lt hlarge
    have hreserve : m.reserveWith granted count = .ok m := if_neg hlarge
    have hsmall : count ≤ 1 <<< 60 := by
      refine Nat.le_trans hle ?_
      obtain hzero | ⟨k, hk, hpow⟩ := h.tableSize
      · rw [hzero]
        exact Nat.zero_le _
      · rw [hpow, one_shiftLeft, one_shiftLeft]
        exact Nat.pow_le_pow_right (by decide) hk
    rw [Reserves, hreserve]
    constructor
    · intro hreserved
      refine ⟨fun hnone => ?_, .inl hsmall⟩
      obtain ⟨k, hpow⟩ := hreserved.power
      exact absurd (hpow.symm.trans hnone.2) (Nat.pos_iff_ne_zero.mp (Nat.two_pow_pos k))
    · intro ⟨hsome, _⟩
      exact reserved_self h hle fun hzero => hsome ⟨by omega, hzero⟩
  case pos =>
    have hreserve : m.reserveWith granted count = m.rehashWith granted count := if_pos hlarge
    have hsome : ¬(count = 0 ∧ m.bucketCount = 0) := by omega
    rw [Reserves, hreserve]
    by_cases hendless : 1 <<< 63 < count
    case pos =>
      rw [rehashWith_endless hendless]
      refine iff_of_false nofun fun ⟨_, hcases⟩ => ?_
      omega
    case neg =>
      have hround : count ≤ 1 <<< 63 := Nat.le_of_not_lt hendless
      cases granted with
      | false =>
        rw [rehashWith_refused hround]
        exact iff_of_true rfl ⟨hsome, .inr ⟨rfl, hround⟩⟩
      | true =>
        by_cases hsmall : count ≤ 1 <<< 60
        case pos =>
          obtain ⟨m', hop, hreserved⟩ := reserved_rehash h hlarge hsmall
          rw [rehashWith_granted hop]
          exact iff_of_true hreserved ⟨hsome, .inl hsmall⟩
        case neg =>
          rw [rehashWith_overrun (Nat.lt_of_not_le hsmall) hround]
          refine iff_of_false nofun fun ⟨_, hcases⟩ => ?_
          exact hcases.elim hsmall fun hrefused => Bool.true_eq_false.mp hrefused.1

/-- Room for 100 elements beside the one there is. -/
theorem reserves_iff_numbers :
    ∃ m : HashMap ℕ ℕ, Reachable m ∧ m.size = 1 ∧ Reserves m true 100 := by
  have hsize : (numbers.construct.emplace 1 10).map (fun r => r.1.size) = some 1 := by
    decide +kernel
  obtain ⟨r, hop, hr⟩ := map_eq_some_iff.mp hsize
  have hreach : Reachable r.1 := .emplace (.construct numbers) hop
  have hsome : ¬(100 = 0 ∧ r.1.bucketCount = 0) := fun hnone => absurd hnone.1 (by decide)
  exact ⟨r.1, hreach, hr, (reserves_iff hreach true 100).mpr ⟨hsome, .inl (by decide)⟩⟩

/-- The pointers of `2 ^ 61` buckets are written to a block of no bytes, and from `2 ^ 63 + 1` on
the size is looked for in vain. -/
theorem reserve_overruns : numbers.construct.reserveWith true (2 ^ 60 + 1) = .error .overrun ∧
      (∀ rounds, roundUpLoop (2 ^ 63 + 1) rounds 16 = none) ∧
        ¬ ∀ count < UInt64.size, Reserves numbers.construct true count := by
  have hoverrun : numbers.construct.reserveWith true (2 ^ 60 + 1) = .error .overrun :=
    (if_pos (by decide)).trans (rehashWith_overrun (by decide) (by decide) _)
  refine ⟨hoverrun, roundUpLoop_endless (by decide), fun h => ?_⟩
  have hreserves := h (2 ^ 60 + 1) (by decide)
  cases hreserves

end Equilibrium.ChainedHashMap
