import Equilibrium.Containers.RedBlackTree2Runs
import Equilibrium.Containers.EraseIf

/-! The map of `base/containers/map.h`. -/

namespace Equilibrium.OrderedMap

open RedBlackTree2 hiding Tree

/-- `Map::Comparator` over the operators `<` and `==` of the keys. -/
def pairs {K : Type} (keys : Comparator K) (V : Type) : Comparator (K × V) where
  lessThan lhs rhs := keys.lessThan lhs.1 rhs.1
  equals lhs rhs := keys.equals lhs.1 rhs.1

structure Map (K V : Type) where
  tree : RedBlackTree2.Tree (K × V)
  size : ℕ

variable {K V : Type}

namespace Map

/-- `Map()`, on what the memory holds. -/
def construct (memory : RedBlackTree2.Tree (K × V)) : Map K V := ⟨.construct memory, 0⟩

/-- `Map(const Map& other)` -/
def copyConstruct (keys : Comparator K) (memory : RedBlackTree2.Tree (K × V)) (other : Map K V) :
    Option (Map K V) := do
  let tree ← RedBlackTree2.Tree.copyConstruct (pairs keys V) memory other.tree
  some ⟨tree, other.size⟩

def copyAssign (keys : Comparator K) (m other : Map K V) : Option (Map K V) := do
  let tree ← m.tree.copyAssign (pairs keys V) other.tree
  some ⟨tree, other.size⟩

/-- `Map(Map&& other)`: the new map and what is left in `other`. -/
def moveConstruct (memory : RedBlackTree2.Tree (K × V)) (other : Map K V) : Map K V × Map K V :=
  let (tree, left) := RedBlackTree2.Tree.moveConstruct memory other.tree
  (⟨tree, other.size⟩, ⟨left, 0⟩)

/-- The assignment that moves another map: the target and what is left in `other`. -/
def moveAssign (m other : Map K V) : Map K V × Map K V :=
  let (tree, left) := m.tree.moveAssign other.tree
  (⟨tree, other.size⟩, ⟨left, 0⟩)

def clear (m : Map K V) : Map K V := ⟨m.tree.clear, 0⟩

/-- `FirstNode`, for `begin`. -/
def firstNode (m : Map K V) : Option ℕ :=
  if m.tree.root = m.tree.nil then some m.tree.nil else m.tree.minimum m.tree.root

/-- `*it`; the sentinel has no value. -/
def dereference (m : Map K V) (it : ℕ) : Option (K × V) :=
  if it = m.tree.nil then none else some (m.tree.value it)

def emplace (keys : Comparator K) (m : Map K V) (key : K) (value : V) :
    Option (Map K V × ℕ × Bool) := do
  let (tree, node, inserted) ← m.tree.findOrInsert (pairs keys V) (key, value)
  some (⟨tree, if inserted then m.size + 1 else m.size⟩, node, inserted)

def eraseKey [Inhabited V] (keys : Comparator K) (m : Map K V) (key : K) :
    Option (Map K V × Bool) := do
  let (tree, erased) ← m.tree.erase (pairs keys V) (key, default)
  some (⟨tree, if erased then m.size - 1 else m.size⟩, erased)

/-- `erase(iterator)` -/
def eraseAt (keys : Comparator K) (m : Map K V) (it : ℕ) : Option (Map K V × ℕ) := do
  let next ← m.tree.successor it
  let (tree, erased) ← m.tree.erase (pairs keys V) (m.tree.value it)
  some (⟨tree, if erased then m.size - 1 else m.size⟩, next)

def setSecond (m : Map K V) (it : ℕ) (value : V) : Map K V :=
  { m with tree := { m.tree with
      value := Function.update m.tree.value it ((m.tree.value it).1, value) } }

def Contains (m : Map K V) (it : ℕ) : Prop := m.tree.Within m.tree.root it

def value (m : Map K V) (it : ℕ) : K × V := m.tree.value it

end Map

/-- The maps that a program can have. -/
inductive Reachable [Inhabited V] (keys : Comparator K) : Map K V → Prop
  | construct (memory : RedBlackTree2.Tree (K × V)) : Reachable keys (.construct memory)
  | copyConstruct {other m : Map K V} (memory : RedBlackTree2.Tree (K × V))
      (ho : Reachable keys other) (hop : Map.copyConstruct keys memory other = some m) :
      Reachable keys m
  | copyAssign {m other m' : Map K V} (h : Reachable keys m) (ho : Reachable keys other)
      (hop : m.copyAssign keys other = some m') : Reachable keys m'
  | moveConstruct {other : Map K V} (memory : RedBlackTree2.Tree (K × V))
      (ho : Reachable keys other) : Reachable keys (Map.moveConstruct memory other).2
  | moveAssign {m other : Map K V} (h : Reachable keys m) (ho : Reachable keys other) :
      Reachable keys (m.moveAssign other).2
  | clear {m : Map K V} (h : Reachable keys m) : Reachable keys m.clear
  | emplace {m m' : Map K V} {key : K} {value : V} {node : ℕ} {inserted : Bool}
      (h : Reachable keys m) (hop : m.emplace keys key value = some (m', node, inserted)) :
      Reachable keys m'
  | eraseKey {m m' : Map K V} {key : K} {erased : Bool} (h : Reachable keys m)
      (hop : m.eraseKey keys key = some (m', erased)) : Reachable keys m'
  | eraseAt {m m' : Map K V} {it next : ℕ} (h : Reachable keys m)
      (hit : m.Contains it) (hop : m.eraseAt keys it = some (m', next)) :
      Reachable keys m'
  | setSecond {m : Map K V} {it : ℕ} (value : V) (h : Reachable keys m)
      (hit : m.Contains it) : Reachable keys (m.setSecond it value)

variable {keys : Comparator K}

theorem lawful_pairs (hk : keys.Lawful) : (pairs keys V).Lawful :=
  ⟨fun a => hk.irrefl a.1, fun h h' => hk.trans h h', hk.equals⟩

/-- The tree holds the nodes of a list in order, and their number is stored. -/
structure Holds (keys : Comparator K) (m : Map K V) (l : List ℕ) : Prop where
  tree : ∃ t, Valid (pairs keys V) m.tree t ∧ t.inorder = l
  size : m.size = l.length

variable {m m' other : Map K V} {l r : List ℕ} {x : ℕ}

theorem Holds.counted (h : Holds keys m l) : Counted (pairs keys V) m.tree m.size l :=
  ⟨h.tree, h.size⟩

theorem holds_of_counted (h : Counted (pairs keys V) m.tree m.size l) : Holds keys m l :=
  ⟨h.tree, h.size⟩

theorem Holds.contains_iff (h : Holds keys m l) : m.Contains x ↔ x ∈ l :=
  h.counted.within_iff

theorem holds_construct (keys : Comparator K) (memory : RedBlackTree2.Tree (K × V)) :
    Holds keys (.construct memory) [] :=
  holds_of_counted (counted_construct _ memory)

theorem Holds.clear (h : Holds keys m l) : Holds keys m.clear [] :=
  holds_of_counted h.counted.clear

theorem Holds.emplace (hk : keys.Lawful) (h : Holds keys m l) (key : K) (value : V) :
    ∃ m' node inserted l', m.emplace keys key value = some (m', node, inserted) ∧
      Holds keys m' l' := by
  obtain ⟨tree, node, inserted, l', hop, hcounted⟩ :=
    h.counted.findOrInsert (lawful_pairs hk) (key, value)
  exact ⟨_, node, inserted, l', by rw [Map.emplace, hop]; rfl, holds_of_counted hcounted⟩

theorem Holds.eraseKey [Inhabited V] (hk : keys.Lawful) (h : Holds keys m l) (key : K) :
    ∃ m' erased l', m.eraseKey keys key = some (m', erased) ∧ Holds keys m' l' := by
  obtain ⟨tree, erased, l', hop, hcounted, -⟩ := h.counted.erase (lawful_pairs hk) (key, default)
  exact ⟨_, erased, l', by rw [Map.eraseKey, hop]; rfl, holds_of_counted hcounted⟩

theorem Holds.eraseAt (hk : keys.Lawful) (h : Holds keys m (l ++ x :: r)) : ∃ m',
    m.eraseAt keys x = some (m', r.head?.getD m.tree.nil) ∧ Holds keys m' (l ++ r) ∧
      Keeps m.tree m'.tree := by
  obtain ⟨tree, hop, hcounted, hkeeps⟩ := h.counted.erase_value (lawful_pairs hk)
  refine ⟨⟨tree, m.size - 1⟩, ?_, holds_of_counted hcounted, hkeeps⟩
  rw [Map.eraseAt, h.counted.successor_eq]
  simp only [bind, Option.bind, hop, if_true]

theorem Holds.setSecond (h : Holds keys m l) (x : ℕ) (value : V) :
    Holds keys (m.setSecond x value) l := by
  obtain ⟨t, ht, rfl⟩ := h.tree
  have hkey : ∀ y, ((m.setSecond x value).tree.value y).1 = (m.tree.value y).1 := by
    intro y
    have hvalue : (m.setSecond x value).tree.value =
        Function.update m.tree.value x ((m.tree.value x).1, value) := rfl
    by_cases hy : y = x
    · subst hy
      rw [hvalue, Function.update_self]
    · rw [hvalue, Function.update_of_ne hy]
  refine ⟨⟨t, ⟨⟨?_, ht.nodup, ht.nil, ht.bounded, ht.sentinel⟩, ht.rules, ?_⟩, rfl⟩, h.size⟩
  · exact ht.shape.congr rfl fun _ _ => ⟨rfl, fun _ => rfl, rfl⟩
  · refine ht.sorted.imp fun {y z} hyz => ?_
    have hless : keys.lessThan (m.tree.value y).1 (m.tree.value z).1 = true := hyz
    rwa [← hkey y, ← hkey z] at hless

theorem Reachable.holds [Inhabited V] (hk : keys.Lawful) (h : Reachable keys m) :
    ∃ l, Holds keys m l := by
  induction h with
  | construct memory => exact ⟨[], holds_construct keys memory⟩
  | copyConstruct memory _ hop iho =>
    obtain ⟨l, ho⟩ := iho
    obtain ⟨tree', l', hcopy, hcounted, -⟩ :=
      ho.counted.copyFrom (lawful_pairs hk) (valid_construct _ memory)
    rw [Map.copyConstruct, RedBlackTree2.Tree.copyConstruct, hcopy] at hop
    cases hop
    exact ⟨l', holds_of_counted hcounted⟩
  | copyAssign _ _ hop ih iho =>
    obtain ⟨l, h⟩ := ih
    obtain ⟨t, ht, -⟩ := h.tree
    obtain ⟨l, ho⟩ := iho
    obtain ⟨tree', l', hcopy, hcounted, -⟩ := ho.counted.copyFrom (lawful_pairs hk) ht.clear
    rw [Map.copyAssign, RedBlackTree2.Tree.copyAssign, hcopy] at hop
    cases hop
    exact ⟨l', holds_of_counted hcounted⟩
  | moveConstruct memory _ _ => exact ⟨[], holds_construct keys memory⟩
  | moveAssign _ _ ih _ =>
    obtain ⟨l, h⟩ := ih
    exact ⟨[], h.clear⟩
  | clear _ ih =>
    obtain ⟨l, h⟩ := ih
    exact ⟨[], h.clear⟩
  | @emplace m m' key value node inserted _ hop ih =>
    obtain ⟨l, h⟩ := ih
    obtain ⟨m₁, node₁, inserted₁, l', hop', hholds⟩ := h.emplace hk key value
    rw [hop'] at hop
    cases hop
    exact ⟨l', hholds⟩
  | @eraseKey m m' key erased _ hop ih =>
    obtain ⟨l, h⟩ := ih
    obtain ⟨m₁, erased₁, l', hop', hholds⟩ := h.eraseKey hk key
    rw [hop'] at hop
    cases hop
    exact ⟨l', hholds⟩
  | @eraseAt m m' it next _ hit hop ih =>
    obtain ⟨l, h⟩ := ih
    obtain ⟨a, b, rfl⟩ := List.append_of_mem (h.contains_iff.mp hit)
    obtain ⟨m₁, hop', hholds, -⟩ := h.eraseAt hk
    rw [hop'] at hop
    cases hop
    exact ⟨a ++ b, hholds⟩
  | setSecond value _ _ ih =>
    obtain ⟨l, h⟩ := ih
    exact ⟨l, h.setSecond _ value⟩

/-- What `EraseIf` calls. -/
def container (keys : Comparator K) (V : Type) : EraseIf.Container (Map K V) ℕ (K × V) where
  first := Map.firstNode
  last m := m.tree.nil
  value := Map.dereference
  advance m it := m.tree.successor it
  erase m it := m.eraseAt keys it

theorem Holds.ne_nil (h : Holds keys m l) (hx : x ∈ l) : x ≠ m.tree.nil :=
  h.counted.ne_nil hx

theorem Holds.dereference (h : Holds keys m l) (hx : x ∈ l) :
    m.dereference x = some (m.tree.value x) :=
  if_neg (h.ne_nil hx)

theorem Holds.firstNode (h : Holds keys m l) : m.firstNode = some (l.head?.getD m.tree.nil) :=
  h.counted.first_eq

theorem listed (hk : keys.Lawful) : EraseIf.Listed (container keys V) (Holds keys) where
  first_eq h := h.firstNode
  ne_last h hx := h.ne_nil hx
  value_isSome h hx := Option.isSome_iff_exists.mpr ⟨_, h.dereference hx⟩
  advance_eq h := h.counted.successor_eq
  erase_eq := by
    intro m l x r h
    obtain ⟨m', herase, hholds, hkeeps⟩ := h.eraseAt hk
    have hsame : m'.dereference = m.dereference := funext fun it => by
      rw [Map.dereference, Map.dereference, hkeeps.nil, hkeeps.value]
    exact ⟨m', herase, hholds, hkeeps.nil, hsame⟩

theorem Reachable.sweep [Inhabited V] (hk : keys.Lawful) (h : Reachable keys m)
    (pred : K × V → Bool) {rounds : ℕ} (hrounds : m.size < rounds) : ∃ m' removed visited,
      EraseIf.eraseIf (container keys V) pred rounds m = some (m', removed, visited) ∧
        EraseIf.Sweep Map.Contains Map.value Map.size pred m m' removed visited := by
  obtain ⟨l, hm⟩ := h.holds hk
  have hhits : ∀ x ∈ l, EraseIf.hits (container keys V) pred m x = pred (m.value x) := by
    intro x hx
    rw [EraseIf.hits, show (container keys V).value m x = some (m.tree.value x) from
      hm.dereference hx]
    rfl
  have hlength : l.length < rounds := hm.size ▸ hrounds
  obtain ⟨m', hsweep, hm', hvalue⟩ := (listed hk).eraseIf_eq pred hm hlength
  rw [List.filter_congr hhits] at hsweep
  rw [List.filter_congr fun x hx => congrArg (! ·) (hhits x hx)] at hm'
  refine ⟨m', _, l, hsweep, hm.counted.nodup, fun x => hm.contains_iff.symm, fun x => ?_, fun x hx => ?_,
    rfl, ?_⟩
  · rw [hm'.contains_iff, hm.contains_iff, List.mem_filter, Bool.not_eq_true']
  · have hx' := hm'.contains_iff.mp hx
    have hsame : m'.dereference x = m.dereference x := congrFun hvalue x
    rw [hm'.dereference hx', hm.dereference (List.mem_filter.mp hx').1] at hsame
    exact Option.some.inj hsame
  · rw [hm'.size, hm.size, Nat.add_comm]
    exact (List.length_eq_length_filter_add fun x => pred (m.value x)).symm

end Equilibrium.OrderedMap
