import Equilibrium.Containers.OrderedMap

/-! The set of `base/containers/set.h`, and the walks over trees, maps and sets. -/

namespace Equilibrium.OrderedSet

open RedBlackTree2 hiding Tree

structure Set (T : Type) where
  tree : RedBlackTree2.Tree T
  size : ℕ

variable {T : Type}

namespace Set

/-- `Set()`, on what the memory holds. -/
def construct (memory : RedBlackTree2.Tree T) : Set T := ⟨.construct memory, 0⟩

/-- `Set(const Set& other)` -/
def copyConstruct (cmp : Comparator T) (memory : RedBlackTree2.Tree T) (other : Set T) :
    Option (Set T) := do
  let tree ← RedBlackTree2.Tree.copyConstruct cmp memory other.tree
  some ⟨tree, other.size⟩

def copyAssign (cmp : Comparator T) (s other : Set T) : Option (Set T) := do
  let tree ← s.tree.copyAssign cmp other.tree
  some ⟨tree, other.size⟩

/-- `Set(Set&& other)`: the new set and what is left in `other`. -/
def moveConstruct (memory : RedBlackTree2.Tree T) (other : Set T) : Set T × Set T :=
  let (tree, left) := RedBlackTree2.Tree.moveConstruct memory other.tree
  (⟨tree, other.size⟩, ⟨left, 0⟩)

/-- The assignment that moves another set: the target and what is left in `other`. -/
def moveAssign (s other : Set T) : Set T × Set T :=
  let (tree, left) := s.tree.moveAssign other.tree
  (⟨tree, other.size⟩, ⟨left, 0⟩)

def clear (s : Set T) : Set T := ⟨s.tree.clear, 0⟩

/-- `begin` -/
def first (s : Set T) : Option ℕ := s.tree.first

/-- Both overloads of `insert`. -/
def insert (cmp : Comparator T) (s : Set T) (value : T) : Option (Set T × ℕ × Bool) := do
  let (tree, node, inserted) ← s.tree.findOrInsert cmp value
  some (⟨tree, s.size + inserted.toNat⟩, node, inserted)

/-- `Set(std::initializer_list<T> values)` -/
def ofValues (cmp : Comparator T) (memory : RedBlackTree2.Tree T) (values : List T) :
    Option (Set T) :=
  values.foldlM (fun s value => do
    let (s, _, _) ← s.insert cmp value
    some s) (construct memory)

def erase (cmp : Comparator T) (s : Set T) (value : T) : Option (Set T × Bool) := do
  let (tree, erased) ← s.tree.erase cmp value
  if !erased then some (⟨tree, s.size⟩, false)
  else some (⟨tree, s.size - 1⟩, true)

/-- `erase(Iterator)` -/
def eraseAt (cmp : Comparator T) (s : Set T) (it : ℕ) : Option (Set T × ℕ) := do
  let next ← s.tree.successor it
  let (tree, erased) ← s.tree.erase cmp (s.tree.value it)
  some (⟨tree, if erased then s.size - 1 else s.size⟩, next)

def Contains (s : Set T) (it : ℕ) : Prop := s.tree.Within s.tree.root it

end Set

/-- The sets that a program can have. -/
inductive Reachable (cmp : Comparator T) : Set T → Prop
  | construct (memory : RedBlackTree2.Tree T) : Reachable cmp (.construct memory)
  | ofValues {s : Set T} (memory : RedBlackTree2.Tree T) (values : List T)
      (hop : Set.ofValues cmp memory values = some s) : Reachable cmp s
  | copyConstruct {other s : Set T} (memory : RedBlackTree2.Tree T) (ho : Reachable cmp other)
      (hop : Set.copyConstruct cmp memory other = some s) : Reachable cmp s
  | copyAssign {s other s' : Set T} (h : Reachable cmp s) (ho : Reachable cmp other)
      (hop : s.copyAssign cmp other = some s') : Reachable cmp s'
  | moveConstruct {other : Set T} (memory : RedBlackTree2.Tree T) (ho : Reachable cmp other)
      {s : Set T} (hs : s = (Set.moveConstruct memory other).1 ∨
        s = (Set.moveConstruct memory other).2) : Reachable cmp s
  | moveAssign {s other : Set T} (h : Reachable cmp s) (ho : Reachable cmp other)
      {s' : Set T} (hs : s' = (s.moveAssign other).1 ∨ s' = (s.moveAssign other).2) :
      Reachable cmp s'
  | clear {s : Set T} (h : Reachable cmp s) : Reachable cmp s.clear
  | insert {s s' : Set T} {value : T} {node : ℕ} {inserted : Bool} (h : Reachable cmp s)
      (hop : s.insert cmp value = some (s', node, inserted)) : Reachable cmp s'
  | erase {s s' : Set T} {value : T} {erased : Bool} (h : Reachable cmp s)
      (hop : s.erase cmp value = some (s', erased)) : Reachable cmp s'
  | eraseAt {s s' : Set T} {it next : ℕ} (h : Reachable cmp s) (hit : s.Contains it)
      (hop : s.eraseAt cmp it = some (s', next)) : Reachable cmp s'

def Holds (cmp : Comparator T) (s : Set T) (l : List ℕ) : Prop := Counted cmp s.tree s.size l

variable {cmp : Comparator T} {s s' other : Set T} {l r : List ℕ} {x : ℕ}

section

variable (hc : cmp.Lawful)
include hc

theorem Holds.insert (h : Holds cmp s l) (value : T) :
    ∃ s' node inserted l', s.insert cmp value = some (s', node, inserted) ∧ Holds cmp s' l' := by
  obtain ⟨tree, node, inserted, l', hop, hcounted⟩ := Counted.findOrInsert h hc value
  refine ⟨_, node, inserted, l', by rw [Set.insert, hop]; rfl, ?_⟩
  cases inserted <;> exact hcounted

theorem Holds.erase (h : Holds cmp s l) (value : T) :
    ∃ s' erased l', s.erase cmp value = some (s', erased) ∧ Holds cmp s' l' := by
  obtain ⟨tree, erased, l', hop, hcounted, -⟩ := Counted.erase h hc value
  cases erased with
  | false => exact ⟨⟨tree, s.size⟩, false, l', by rw [Set.erase, hop]; rfl, hcounted⟩
  | true => exact ⟨⟨tree, s.size - 1⟩, true, l', by rw [Set.erase, hop]; rfl, hcounted⟩

theorem Holds.eraseAt (h : Holds cmp s (l ++ x :: r)) : ∃ s',
    s.eraseAt cmp x = some (s', r.head?.getD s.tree.nil) ∧ Holds cmp s' (l ++ r) ∧
      Keeps s.tree s'.tree := by
  obtain ⟨tree, hop, hcounted, hkeeps⟩ := Counted.erase_value h hc
  refine ⟨⟨tree, s.size - 1⟩, ?_, hcounted, hkeeps⟩
  rw [Set.eraseAt, Counted.successor_eq h]
  simp only [bind, Option.bind, hop, if_true]

theorem Holds.insertAll (h : Holds cmp s l) (values : List T) :
    ∃ s' l', values.foldlM (fun s value => do
        let (s, _, _) ← Set.insert cmp s value
        some s) s = some s' ∧ Holds cmp s' l' := by
  induction values generalizing s l with
  | nil => exact ⟨s, l, rfl, h⟩
  | cons value values ih =>
    obtain ⟨s₁, node, inserted, l₁, hop, h₁⟩ := h.insert hc value
    obtain ⟨s₂, l₂, hrest, h₂⟩ := ih h₁
    refine ⟨s₂, l₂, ?_, h₂⟩
    rw [List.foldlM_cons, hop]
    exact hrest

theorem Reachable.holds (h : Reachable cmp s) : ∃ l, Holds cmp s l := by
  induction h with
  | construct memory => exact ⟨[], counted_construct cmp memory⟩
  | ofValues memory values hop =>
    have hempty : Holds cmp (.construct memory) [] := counted_construct cmp memory
    obtain ⟨s₁, l, hall, hholds⟩ := hempty.insertAll hc values
    cases hop.symm.trans hall
    exact ⟨l, hholds⟩
  | copyConstruct memory _ hop iho =>
    obtain ⟨l, ho⟩ := iho
    obtain ⟨tree, l', hcopy, hcounted, -⟩ :=
      Counted.copyFrom ho hc (valid_construct cmp memory)
    rw [Set.copyConstruct, RedBlackTree2.Tree.copyConstruct, hcopy] at hop
    cases hop
    exact ⟨l', hcounted⟩
  | copyAssign _ _ hop ih iho =>
    obtain ⟨l, h⟩ := ih
    obtain ⟨t, ht, -⟩ := h.tree
    obtain ⟨l, ho⟩ := iho
    obtain ⟨tree, l', hcopy, hcounted, -⟩ := Counted.copyFrom ho hc ht.clear
    rw [Set.copyAssign, RedBlackTree2.Tree.copyAssign, hcopy] at hop
    cases hop
    exact ⟨l', hcounted⟩
  | moveConstruct memory _ hs iho =>
    obtain rfl | rfl := hs
    · exact iho
    · exact ⟨[], counted_construct cmp memory⟩
  | moveAssign _ _ hs ih iho =>
    obtain ⟨l, h⟩ := ih
    obtain rfl | rfl := hs
    · exact iho
    · exact ⟨[], Counted.clear h⟩
  | clear _ ih =>
    obtain ⟨l, h⟩ := ih
    exact ⟨[], Counted.clear h⟩
  | insert _ hop ih =>
    obtain ⟨l, h⟩ := ih
    obtain ⟨s₁, node, inserted, l', hop', hholds⟩ := h.insert hc _
    rw [hop'] at hop
    cases hop
    exact ⟨l', hholds⟩
  | erase _ hop ih =>
    obtain ⟨l, h⟩ := ih
    obtain ⟨s₁, erased, l', hop', hholds⟩ := h.erase hc _
    rw [hop'] at hop
    cases hop
    exact ⟨l', hholds⟩
  | eraseAt _ hit hop ih =>
    obtain ⟨l, h⟩ := ih
    obtain ⟨a, b, rfl⟩ := List.append_of_mem ((Counted.within_iff h).mp hit)
    obtain ⟨s₁, hop', hholds, -⟩ := h.eraseAt hc
    rw [hop'] at hop
    cases hop
    exact ⟨a ++ b, hholds⟩

end

/-- What a map or a set promises of its tree, its size and an erasure at an iterator. -/
structure Ordered (cmp : Comparator T) (tree : RedBlackTree2.Tree T) (size : ℕ)
    (eraseAt : ℕ → Option (RedBlackTree2.Tree T × ℕ)) : Prop where
  walks : ∃ l, Walks cmp tree l ∧ size = l.length
  eraseAt : ∀ it, tree.Within tree.root it → ∃ tree' next, eraseAt it = some (tree', next) ∧
    tree.successor it = some next ∧ Without tree tree' it ∧
    FirstOf cmp tree' (fun y => cmp.lessThan (tree.value it) (tree'.value y) = true) next

theorem ordered_of_counted {tree : RedBlackTree2.Tree T} {size : ℕ}
    {eraseAt : ℕ → Option (RedBlackTree2.Tree T × ℕ)} (hc : cmp.Lawful)
    (h : Counted cmp tree size l)
    (herase : ∀ a x b, l = a ++ x :: b → ∃ tree' size',
      eraseAt x = some (tree', b.head?.getD tree.nil) ∧ Counted cmp tree' size' (a ++ b) ∧
        Keeps tree tree') : Ordered cmp tree size eraseAt where
  walks := ⟨l, h.walks hc, h.size⟩
  eraseAt it hit := by
    obtain ⟨a, b, rfl⟩ := List.append_of_mem (h.within_iff.mp hit)
    obtain ⟨tree', size', hop, hcounted, hkeeps⟩ := herase a it b rfl
    exact ⟨tree', _, hop, h.successor_eq, h.without hcounted hkeeps,
      h.next_after hc hcounted hkeeps⟩

theorem ordered_map {K V : Type} [Inhabited V] {keys : Comparator K}
    {m : OrderedMap.Map K V} (hk : keys.Lawful) (h : OrderedMap.Reachable keys m) :
    Ordered (OrderedMap.pairs keys V) m.tree m.size fun it =>
      (m.eraseAt keys it).map fun after => (after.1.tree, after.2) := by
  obtain ⟨l, hholds⟩ := h.holds hk
  refine ordered_of_counted (OrderedMap.lawful_pairs hk) hholds.counted fun a x b hl => ?_
  subst hl
  obtain ⟨m', hop, hholds', hkeeps⟩ := hholds.eraseAt hk
  exact ⟨m'.tree, m'.size, by rw [hop]; rfl, hholds'.counted, hkeeps⟩

theorem ordered_set (hc : cmp.Lawful) (h : Reachable cmp s) : Ordered cmp s.tree s.size fun it =>
      (s.eraseAt cmp it).map fun after => (after.1.tree, after.2) := by
  obtain ⟨l, hholds⟩ := h.holds hc
  refine ordered_of_counted hc hholds fun a x b hl => ?_
  subst hl
  obtain ⟨s', hop, hholds', hkeeps⟩ := hholds.eraseAt hc
  exact ⟨s'.tree, s'.size, by rw [hop]; rfl, hholds', hkeeps⟩

/-- Trees in every run, and every map and set, are walked in order and erased from in place. -/
theorem containers_ordered {K V : Type} [Inhabited V] {keys : Comparator K} (hc : cmp.Lawful)
    (hk : keys.Lawful) : (∀ (memory : ℕ → RedBlackTree2.Tree T) (ops : List (Operation T)), ∃ trees,
      ops.foldlM (step cmp) (fun i => .construct (memory i)) = some trees ∧
        ∀ i, ∃ l, Walks cmp (trees i) l) ∧ (∀ m : OrderedMap.Map K V, OrderedMap.Reachable keys m →
      Ordered (OrderedMap.pairs keys V) m.tree m.size fun it =>
        (m.eraseAt keys it).map fun after => (after.1.tree, after.2)) ∧
    ∀ s : Set T, Reachable cmp s → Ordered cmp s.tree s.size fun it =>
      (s.eraseAt cmp it).map fun after => (after.1.tree, after.2) := by
  refine ⟨fun memory ops => ?_, fun m hm => ordered_map hk hm, fun s hs => ordered_set hc hs⟩
  have hinit : AllValid cmp fun i => RedBlackTree2.Tree.construct (memory i) := fun i =>
    ⟨.leaf, valid_construct cmp (memory i)⟩
  obtain ⟨trees, hrun, hvalid⟩ := hinit.run hc ops
  refine ⟨trees, hrun, fun i => ?_⟩
  obtain ⟨t, ht⟩ := hvalid i
  exact ⟨_, Counted.walks ⟨⟨t, ht, rfl⟩, rfl⟩ hc⟩

theorem containers_ordered_naturals : ∃ trees,
    [.findOrInsert 0 5, .findOrInsert 0 3, .findOrInsert 0 4, .erase 0 4].foldlM (step naturals)
        (fun _ => .construct (blank 0)) = some trees ∧ ∀ i, ∃ l, Walks naturals (trees i) l :=
  (containers_ordered (V := ℕ) lawful_naturals lawful_naturals).1 (fun _ => blank 0) _

end Equilibrium.OrderedSet
