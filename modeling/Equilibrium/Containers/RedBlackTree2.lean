import Equilibrium.Library.RedBlack

/-! The tree of `base/containers/tree/red_black_tree_2.h` and the map of
`base/containers/map.h` over it. Each field of the nodes is a function of the address;
where no node was made it holds whatever the memory held, and a deleted node keeps what
it held. Left and right are a parameter where two functions of the source mirror each
other. Loops and recursions are given a number of rounds and give nothing without. -/

namespace Equilibrium.RedBlackTree2

open Library.RedBlack
open Function (update)

/-- `TComparator` -/
structure Comparator (T : Type) where
  lessThan : T → T → Bool
  equals : T → T → Bool

structure Tree (T : Type) where
  root : ℕ
  nil : ℕ
  value : ℕ → T
  color : ℕ → Color
  child : Side → ℕ → ℕ
  parent : ℕ → ℕ
  /-- Addresses below this one were handed out. -/
  allocated : ℕ

variable {T : Type}

namespace Tree

def setRoot (m : Tree T) (p : ℕ) : Tree T := { m with root := p }

def setColor (m : Tree T) (x : ℕ) (c : Color) : Tree T :=
  { m with color := update m.color x c }

def setParent (m : Tree T) (x p : ℕ) : Tree T :=
  { m with parent := update m.parent x p }

def setChild (m : Tree T) (d : Side) (x p : ℕ) : Tree T :=
  { m with child := update m.child d (update (m.child d) x p) }

/-- `RedBlackTree2()`, on what the memory holds. -/
def construct (memory : Tree T) : Tree T where
  root := memory.allocated
  nil := memory.allocated
  value := memory.value
  color := update memory.color memory.allocated .black
  child := fun d => update (memory.child d) memory.allocated memory.allocated
  parent := update memory.parent memory.allocated memory.allocated
  allocated := memory.allocated + 1

/-- The pointer to `u` becomes one to `v`; child `d` of the parent is compared first. -/
def relink (m : Tree T) (d : Side) (u v : ℕ) : Tree T :=
  if m.parent u = m.nil then m.setRoot v
  else if u = m.child d (m.parent u) then m.setChild d (m.parent u) v
  else m.setChild d.other (m.parent u) v

def rotate (m : Tree T) (d : Side) (x : ℕ) : Tree T :=
  let y := m.child d.other x
  let m := m.setChild d.other x (m.child d y)
  let m := if m.child d y ≠ m.nil then m.setParent (m.child d y) x else m
  let m := m.setParent y (m.parent x)
  let m := m.relink d x y
  let m := m.setChild d y x
  m.setParent x y

def rotateLeft (m : Tree T) (x : ℕ) : Tree T := m.rotate .left x

def rotateRight (m : Tree T) (x : ℕ) : Tree T := m.rotate .right x

/-- The body of the loop of `FixInsert` when the parent is child `d` of its own parent. -/
def fixInsertStep (m : Tree T) (d : Side) (k : ℕ) : Tree T × ℕ :=
  let u := m.child d.other (m.parent (m.parent k))
  if m.color u = .red then
    let m := m.setColor u .black
    let m := m.setColor (m.parent k) .black
    let m := m.setColor (m.parent (m.parent k)) .red
    (m, m.parent (m.parent k))
  else
    let (m, k) :=
      if k = m.child d.other (m.parent k) then (m.rotate d (m.parent k), m.parent k) else (m, k)
    let m := m.setColor (m.parent k) .black
    let m := m.setColor (m.parent (m.parent k)) .red
    (m.rotate d.other (m.parent (m.parent k)), k)

def fixInsertLoop : ℕ → Tree T → ℕ → Option (Tree T)
  | 0, _, _ => none
  | rounds + 1, m, k =>
    if m.color (m.parent k) = .red then
      let (m, k) :=
        if m.parent k = m.child .left (m.parent (m.parent k)) then m.fixInsertStep .left k
        else m.fixInsertStep .right k
      fixInsertLoop rounds m k
    else some m

def fixInsert (m : Tree T) (k : ℕ) : Option (Tree T) := do
  let m ← fixInsertLoop (m.allocated + 1) m k
  some (m.setColor m.root .black)

/-- The red sibling `w` of child `d` is turned into a black one. -/
def fixDeleteSibling (m : Tree T) (d : Side) (x w : ℕ) : Tree T × ℕ :=
  if m.color w = .red then
    let m := m.setColor w .black
    let m := m.setColor (m.parent x) .red
    let m := m.rotate d (m.parent x)
    (m, m.child d.other (m.parent x))
  else (m, w)

/-- The outer child of the sibling `w` is made red. -/
def fixDeleteOuter (m : Tree T) (d : Side) (x w : ℕ) : Tree T × ℕ :=
  if m.color (m.child d.other w) = .black then
    let m := m.setColor (m.child d w) .black
    let m := m.setColor w .red
    let m := m.rotate d.other w
    (m, m.child d.other (m.parent x))
  else (m, w)

/-- The body of the loop of `FixDelete` from where the sibling `w` is black. -/
def fixDeleteBlack (m : Tree T) (d : Side) (x w : ℕ) : Tree T × ℕ :=
  if m.color (m.child d w) = .black ∧ m.color (m.child d.other w) = .black then
    (m.setColor w .red, m.parent x)
  else
    let (m, w) := m.fixDeleteOuter d x w
    let m := m.setColor w (m.color (m.parent x))
    let m := m.setColor (m.parent x) .black
    let m := m.setColor (m.child d.other w) .black
    let m := m.rotate d (m.parent x)
    (m, m.root)

/-- The body of the loop of `FixDelete` for child `d`. -/
def fixDeleteStep (m : Tree T) (d : Side) (x : ℕ) : Tree T × ℕ :=
  let (m, w) := m.fixDeleteSibling d x (m.child d.other (m.parent x))
  m.fixDeleteBlack d x w

def fixDeleteLoop : ℕ → Tree T → ℕ → Option (Tree T × ℕ)
  | 0, _, _ => none
  | rounds + 1, m, x =>
    if x ≠ m.root ∧ m.color x = .black then
      let (m, x) :=
        if x = m.child .left (m.parent x) then m.fixDeleteStep .left x
        else m.fixDeleteStep .right x
      fixDeleteLoop rounds m x
    else some (m, x)

def fixDelete (m : Tree T) (x : ℕ) : Option (Tree T) := do
  let (m, x) ← fixDeleteLoop (m.allocated + 1) m x
  some (m.setColor x .black)

def transplant (m : Tree T) (u v : ℕ) : Tree T :=
  let m := m.relink .left u v
  m.setParent v (m.parent u)

/-- The loop of `Minimum` towards the left, and of `Maximum` towards the right. -/
def descend (m : Tree T) (d : Side) : ℕ → ℕ → Option ℕ
  | 0, _ => none
  | rounds + 1, node =>
    if m.child d node ≠ m.nil then descend m d rounds (m.child d node) else some node

def minimum (m : Tree T) (node : ℕ) : Option ℕ := m.descend .left (m.allocated + 1) node

def maximum (m : Tree T) (node : ℕ) : Option ℕ := m.descend .right (m.allocated + 1) node

/-- The loop up from child `d`. -/
def climb (m : Tree T) (d : Side) : ℕ → ℕ → ℕ → Option ℕ
  | 0, _, _ => none
  | rounds + 1, node, parent =>
    if parent ≠ m.nil ∧ node = m.child d parent then climb m d rounds parent (m.parent parent)
    else some parent

/-- The next node on side `d`. -/
def neighbour (m : Tree T) (d : Side) (node : ℕ) : Option ℕ :=
  if m.child d node ≠ m.nil then m.descend d.other (m.allocated + 1) (m.child d node)
  else m.climb d (m.allocated + 1) node (m.parent node)

def successor (m : Tree T) (node : ℕ) : Option ℕ := m.neighbour .right node

def predecessor (m : Tree T) (node : ℕ) : Option ℕ :=
  if node = m.nil then if m.root = m.nil then some m.nil else m.maximum m.root
  else m.neighbour .left node

section Compare

variable (c : Comparator T)

def searchTree (m : Tree T) (value : T) : ℕ → ℕ → Option ℕ
  | 0, _ => none
  | rounds + 1, node =>
    if node = m.nil ∨ c.equals value (m.value node) then some node
    else if c.lessThan value (m.value node) then searchTree m value rounds (m.child .left node)
    else searchTree m value rounds (m.child .right node)

def find (m : Tree T) (value : T) : Option ℕ := m.searchTree c value (m.allocated + 1) m.root

/-- The loop of `LowerBound` and `UpperBound`; `before` says which nodes come too early. -/
def boundLoop (m : Tree T) (before : T → Bool) : ℕ → ℕ → ℕ → Option ℕ
  | 0, _, _ => none
  | rounds + 1, found, node =>
    if node = m.nil then some found
    else if before (m.value node) then boundLoop m before rounds found (m.child .right node)
    else boundLoop m before rounds node (m.child .left node)

def lowerBound (m : Tree T) (value : T) : Option ℕ :=
  m.boundLoop (fun v => c.lessThan v value) (m.allocated + 1) m.nil m.root

def upperBound (m : Tree T) (value : T) : Option ℕ :=
  m.boundLoop (fun v => !c.lessThan value v) (m.allocated + 1) m.nil m.root

/-- `new Node(value)`, with the stores of `nil_` into its children. -/
def newNode (m : Tree T) (value : T) : Tree T :=
  { m with
    value := update m.value m.allocated value
    color := update m.color m.allocated .red
    child := fun d => update (m.child d) m.allocated m.nil
    allocated := m.allocated + 1 }

/-- The loop of `FindOrInsert` down to the place of the new node, which is a child of `y`. -/
def insertLoop (m : Tree T) (value : T) : ℕ → ℕ → ℕ → Option ℕ
  | 0, _, _ => none
  | rounds + 1, y, x =>
    if x = m.nil then some y
    else if c.lessThan value (m.value x) then insertLoop m value rounds x (m.child .left x)
    else insertLoop m value rounds x (m.child .right x)

def findOrInsert (m : Tree T) (value : T) : Option (Tree T × ℕ × Bool) := do
  let existing ← m.find c value
  if existing ≠ m.nil then some (m, existing, false)
  else
    let node := m.allocated
    let m := m.newNode value
    let y ← m.insertLoop c (m.value node) (m.allocated + 1) m.nil m.root
    let m := m.setParent node y
    let m :=
      if y = m.nil then m.setRoot node
      else if c.lessThan (m.value node) (m.value y) then m.setChild .left y node
      else m.setChild .right y node
    let m ← m.fixInsert node
    some (m, node, true)

/-- The part of `Erase` that takes the least node `y` on the right of `z` from its place. -/
def detach (m : Tree T) (z y : ℕ) : Tree T :=
  let x := m.child .right y
  if m.parent y = z then m.setParent x y
  else
    let m := m.transplant y (m.child .right y)
    let m := m.setChild .right y (m.child .right z)
    m.setParent (m.child .right y) y

/-- The part of `Erase` that puts `y` into the place of `z`. -/
def replace (m : Tree T) (z y : ℕ) : Tree T :=
  let m := m.transplant z y
  let m := m.setChild .left y (m.child .left z)
  let m := m.setParent (m.child .left y) y
  m.setColor y (m.color z)

/-- `Erase` as far as to `delete z`: also the node that has moved up and the color that has gone
from there. -/
def unlink (m : Tree T) (z : ℕ) : Option (Tree T × ℕ × Color) :=
  if m.child .left z = m.nil then
    some (m.transplant z (m.child .right z), m.child .right z, m.color z)
  else if m.child .right z = m.nil then
    some (m.transplant z (m.child .left z), m.child .left z, m.color z)
  else do
    let y ← m.minimum (m.child .right z)
    some ((m.detach z y).replace z y, m.child .right y, m.color y)

def erase (m : Tree T) (value : T) : Option (Tree T × Bool) := do
  let z ← m.find c value
  if z = m.nil then some (m, false)
  else
    let (m, x, originalColor) ← m.unlink z
    if originalColor = .black then do
      let m ← m.fixDelete x
      some (m, true)
    else some (m, true)

def copySubtree (other : Tree T) : ℕ → Tree T → ℕ → Option (Tree T)
  | 0, _, _ => none
  | rounds + 1, m, node =>
    if node = other.nil then some m
    else do
      let (m, _, _) ← m.findOrInsert c (other.value node)
      let m ← copySubtree other rounds m (other.child .left node)
      copySubtree other rounds m (other.child .right node)

def copyFrom (m other : Tree T) : Option (Tree T) :=
  copySubtree c other (other.allocated + 1) m other.root

end Compare

def clear (m : Tree T) : Tree T := { m with root := m.nil }

/-- `RedBlackTree2(const RedBlackTree2& other)` -/
def copyConstruct (c : Comparator T) (memory other : Tree T) : Option (Tree T) :=
  (construct memory).copyFrom c other

def copyAssign (c : Comparator T) (m other : Tree T) : Option (Tree T) := m.clear.copyFrom c other

/-- `RedBlackTree2(RedBlackTree2&& other)`: the new tree and what is left in `other`. -/
def moveConstruct (memory other : Tree T) : Tree T × Tree T := (other, construct memory)

/-- The assignment that moves another tree: the target and what is left in `other`. -/
def moveAssign (m other : Tree T) : Tree T × Tree T := (other, m.clear)

/-- The nodes that the links lead to from `x`. -/
inductive Within (m : Tree T) : ℕ → ℕ → Prop
  | here {x : ℕ} (hx : x ≠ m.nil) : Within m x x
  | child {x y : ℕ} (d : Side) (hx : x ≠ m.nil) (h : Within m (m.child d x) y) : Within m x y

/-- A way from `x` down to the sentinel, with the number of black nodes on it. -/
inductive BlackPath (m : Tree T) : ℕ → ℕ → Prop
  | nil : BlackPath m m.nil 0
  | child {x n : ℕ} (d : Side) (hx : x ≠ m.nil) (h : BlackPath m (m.child d x) n) :
      BlackPath m x (n + (m.color x).weight)

end Tree

end Equilibrium.RedBlackTree2
