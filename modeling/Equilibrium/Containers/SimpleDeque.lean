import Equilibrium.Memory.AllocationSize

/-! `SimpleDeque` of `base/containers/deque.h`, against lists. -/

namespace Equilibrium

open Function (update)

structure SimpleDeque (α : Type) where
  data : Option (List α)
  capacity : ℕ
  frontIndex : ℕ
  backIndex : ℕ
  size : ℕ
  deriving DecidableEq, Repr

namespace SimpleDeque

open AllocationSize

inductive Fault where
  | fatal
  | invalid
  | dangling
  deriving DecidableEq, Repr

variable {α : Type}

/-- The constructed objects at `data_`. -/
def slots (d : SimpleDeque α) : List α := d.data.getD []

def new : SimpleDeque α := ⟨none, 0, 0, 0, 0⟩

def access (d : SimpleDeque α) (i : ℕ) : Except Fault α :=
  match d.slots[i]? with
  | some v => .ok v
  | none => .error .invalid

def store (d : SimpleDeque α) (i : ℕ) (v : α) : Except Fault (SimpleDeque α) :=
  if i < d.slots.length then .ok { d with data := some (d.slots.set i v) } else .error .invalid

def checked : Outcome ℕ → Except Fault ℕ
  | .ok n => .ok n
  | .error _ => .error .fatal

section Grow

variable (e : Element α)

/-- The loop of `Grow` that moves the elements to the front of the new block; the slots left
behind hold what a move leaves. -/
def unroll (oldCap : ℕ) : ℕ → ℕ → ℕ → List α → List α → Except Fault (List α)
  | 0, _, _, _, newData => .ok newData
  | turns + 1, i, src, data, newData =>
    match data[src]? with
    | none => .error .invalid
    | some v =>
      if i < newData.length then
        unroll oldCap turns (i + 1) ((src + 1) % oldCap) (data.set src (e.moved v))
          (newData.set i v)
      else .error .invalid

def newBlock (d : SimpleDeque α) (newCapacity : ℕ) : Except Fault (List α) :=
  let newData := List.replicate newCapacity e.fresh
  if d.data.isSome ∧ 0 < d.size then
    unroll e d.capacity d.size 0 d.frontIndex d.slots newData
  else .ok newData

def grow (granted : Bool) (d : SimpleDeque α) (newCapacity : ℕ) :
    Except Fault (SimpleDeque α) := do
  let _ ← checked (checkedAllocationSize newCapacity e.size)
  if granted then
    let newData ← newBlock e d newCapacity
    .ok ⟨some newData, newCapacity, 0, d.size, d.size⟩
  else .error .fatal

/-- The argument of `Grow`. -/
def growTo (d : SimpleDeque α) : Except Fault ℕ :=
  if d.capacity = 0 then .ok 4 else checked (checkedCountProduct d.capacity 2)

def makeRoom (granted : Bool) (d : SimpleDeque α) : Except Fault (SimpleDeque α) :=
  if d.size = d.capacity then do
    let newCapacity ← growTo d
    grow e granted d newCapacity
  else .ok d

end Grow

/-- The slot of `operator[]`. -/
def elementSlot (d : SimpleDeque α) (index : ℕ) : ℕ := wrapAdd d.frontIndex index % d.capacity

def backSlot (d : SimpleDeque α) : ℕ :=
  if d.backIndex = 0 then d.capacity - 1 else d.backIndex - 1

/-- The end of `push_back` and `emplace_back`, once there is room. -/
def placeBack (d : SimpleDeque α) (v : α) : Except Fault (SimpleDeque α) := do
  let d ← store d d.backIndex v
  .ok { d with backIndex := (d.backIndex + 1) % d.capacity, size := d.size + 1 }

/-- The end of `push_front`. -/
def placeFront (d : SimpleDeque α) (v : α) : Except Fault (SimpleDeque α) := do
  let frontIndex := if d.frontIndex = 0 then d.capacity - 1 else d.frontIndex - 1
  let d ← store d frontIndex v
  .ok { d with frontIndex, size := d.size + 1 }

def popFront (d : SimpleDeque α) : SimpleDeque α :=
  { d with frontIndex := (d.frontIndex + 1) % d.capacity, size := d.size - 1 }

def popBack (d : SimpleDeque α) : SimpleDeque α :=
  { d with backIndex := backSlot d, size := d.size - 1 }

def clear (d : SimpleDeque α) : SimpleDeque α :=
  { d with size := 0, frontIndex := 0, backIndex := 0 }

/-- What iterators from `begin()` to `end()` come upon. -/
def iterate (d : SimpleDeque α) : Except Fault (List α) :=
  (List.range d.size).mapM fun index => access d (elementSlot d index)

section Calls

variable {ι : Type} [DecidableEq ι]

abbrev World (ι α : Type) := ι → SimpleDeque α

/-- What a call is given by reference: an object outside of the deques, or an element of one of
them, which an rvalue reference moves from. -/
inductive Argument (ι α : Type) where
  | value (v : α)
  | element (y : ι) (index : ℕ) (moves : Bool)

/-- The object that an argument refers to. -/
inductive Reference (ι α : Type) where
  | value (v : α)
  | slot (y : ι) (i : ℕ) (moves : Bool)

inductive Place where
  | index (i : ℕ)
  | front
  | back

inductive Call (ι α : Type) where
  | construct (x : ι)
  | moveConstruct (x y : ι)
  | moveAssign (x y : ι)
  | pushFront (x : ι) (arg : Argument ι α) (granted : Bool)
  | pushBack (x : ι) (arg : Argument ι α) (granted : Bool)
  | emplaceBack (x : ι) (args : List (Argument ι α)) (build : List α → α) (granted : Bool)
  | popFront (x : ι)
  | popBack (x : ι)
  | clear (x : ι)
  | read (x : ι) (place : Place)
  | write (x : ι) (place : Place) (v : α)
  | iterate (x : ι)
  | empty (x : ι)
  | size (x : ι)

inductive Reply (α : Type) where
  | done
  | value (v : α)
  | values (vs : List α)
  | bit (b : Bool)
  | number (n : ℕ)
  deriving DecidableEq, Repr

def refer (s : World ι α) : Argument ι α → Reference ι α
  | .value v => .value v
  | .element y index moves => .slot y (elementSlot (s y) index) moves

/-- The value of an object referred to; `Grow` of the deque `freed` has destroyed its old
slots. -/
def fetch (e : Element α) (freed : Option ι) (s : World ι α) :
    Reference ι α → Except Fault (World ι α × α)
  | .value v => .ok (s, v)
  | .slot y i moves =>
    if freed = some y then .error .dangling
    else do
      let v ← access (s y) i
      if moves then
        let d ← store (s y) i (e.moved v)
        .ok (update s y d, v)
      else .ok (s, v)

/-- The arguments of a constructor, which reads them in order. -/
def fetchAll (e : Element α) (freed : Option ι) (s : World ι α) :
    List (Reference ι α) → Except Fault (World ι α × List α)
  | [] => .ok (s, [])
  | r :: rest => do
    let (s, v) ← fetch e freed s r
    let (s, vs) ← fetchAll e freed s rest
    .ok (s, v :: vs)

def freedBy (s : World ι α) (x : ι) : Option ι :=
  if (s x).size = (s x).capacity then some x else none

def pushBack (e : Element α) (s : World ι α) (x : ι) (arg : Argument ι α) (granted : Bool) :
    Except Fault (World ι α) := do
  let d ← makeRoom e granted (s x)
  let (s', v) ← fetch e (freedBy s x) (update s x d) (refer s arg)
  let d ← placeBack (s' x) v
  .ok (update s' x d)

def pushFront (e : Element α) (s : World ι α) (x : ι) (arg : Argument ι α) (granted : Bool) :
    Except Fault (World ι α) := do
  let d ← makeRoom e granted (s x)
  let (s', v) ← fetch e (freedBy s x) (update s x d) (refer s arg)
  let d ← placeFront (s' x) v
  .ok (update s' x d)

def emplaceBack (e : Element α) (s : World ι α) (x : ι) (args : List (Argument ι α))
    (build : List α → α) (granted : Bool) : Except Fault (World ι α × α) := do
  let d ← makeRoom e granted (s x)
  let (s', vs) ← fetchAll e (freedBy s x) (update s x d) (args.map (refer s))
  let d ← placeBack (s' x) (build vs)
  .ok (update s' x d, build vs)

def moveConstruct (s : World ι α) (x y : ι) : World ι α :=
  update (update s x (s y)) y new

def moveAssign (s : World ι α) (x y : ι) : World ι α :=
  if x = y then s else update (update s x (s y)) y new

def slotOf (d : SimpleDeque α) : Place → ℕ
  | .index i => elementSlot d i
  | .front => d.frontIndex
  | .back => backSlot d

def exec (e : Element α) (s : World ι α) : Call ι α → Except Fault (World ι α × Reply α)
  | .construct x => .ok (update s x new, .done)
  | .moveConstruct x y => .ok (moveConstruct s x y, .done)
  | .moveAssign x y => .ok (moveAssign s x y, .done)
  | .pushFront x arg granted => do
    let s ← pushFront e s x arg granted
    .ok (s, .done)
  | .pushBack x arg granted => do
    let s ← pushBack e s x arg granted
    .ok (s, .done)
  | .emplaceBack x args build granted => do
    let (s, v) ← emplaceBack e s x args build granted
    .ok (s, .value v)
  | .popFront x => .ok (update s x (popFront (s x)), .done)
  | .popBack x => .ok (update s x (popBack (s x)), .done)
  | .clear x => .ok (update s x (clear (s x)), .done)
  | .read x place => do
    let v ← access (s x) (slotOf (s x) place)
    .ok (s, .value v)
  | .write x place v => do
    let d ← store (s x) (slotOf (s x) place) v
    .ok (update s x d, .done)
  | .iterate x => do
    let vs ← iterate (s x)
    .ok (s, .values vs)
  | .empty x => .ok (s, .bit (decide ((s x).size = 0)))
  | .size x => .ok (s, .number (s x).size)

/-- The preconditions that the calls check in debug builds, and those of the language: elements
referred to are there, and no object is constructed from itself. -/
def Legal (s : World ι α) : Call ι α → Prop
  | .moveConstruct x y => x ≠ y
  | .pushFront _ arg _ | .pushBack _ arg _ => Present arg
  | .emplaceBack _ args _ _ => ∀ arg ∈ args, Present arg
  | .popFront x | .popBack x => 0 < (s x).size
  | .read x (.index i) | .write x (.index i) _ => i < (s x).size
  | .read x _ | .write x _ _ => 0 < (s x).size
  | _ => True
where
  Present : Argument ι α → Prop
    | .value _ => True
    | .element y index _ => index < (s y).size

instance decidablePresent (s : World ι α) : ∀ arg : Argument ι α, Decidable (Legal.Present s arg)
  | .value _ => isTrue trivial
  | .element y index _ => inferInstanceAs (Decidable (_ < _))

instance decidableLegal (s : World ι α) : ∀ c : Call ι α, Decidable (Legal s c)
  | .moveConstruct x y => inferInstanceAs (Decidable (x ≠ y))
  | .pushFront _ arg _ | .pushBack _ arg _ => decidablePresent s arg
  | .emplaceBack _ args _ _ =>
    inferInstanceAs (Decidable (∀ arg ∈ args, Legal.Present s arg))
  | .popFront x | .popBack x => inferInstanceAs (Decidable (_ < _))
  | .read x (.index i) | .write x (.index i) _ => inferInstanceAs (Decidable (_ < _))
  | .read x .front | .read x .back | .write x .front _ | .write x .back _ =>
    inferInstanceAs (Decidable (_ < _))
  | .construct _ | .moveAssign _ _ | .clear _ | .iterate _ | .empty _ | .size _ => isTrue trivial

end Calls

section Lists

variable {ι : Type} [DecidableEq ι] (e : Element α)

def specFetch (t : ι → List α) : Argument ι α → (ι → List α) × α
  | .value v => (t, v)
  | .element y index moves =>
    let v := (t y).getD index e.fresh
    (if moves then update t y ((t y).set index (e.moved v)) else t, v)

def specFetchAll (t : ι → List α) : List (Argument ι α) → (ι → List α) × List α
  | [] => (t, [])
  | arg :: rest =>
    let (t, v) := specFetch e t arg
    let (t, vs) := specFetchAll t rest
    (t, v :: vs)

def specIndex (xs : List α) : Place → ℕ
  | .index i => i
  | .front => 0
  | .back => xs.length - 1

def specExec (t : ι → List α) : Call ι α → (ι → List α) × Reply α
  | .construct x => (update t x [], .done)
  | .moveConstruct x y => (update (update t x (t y)) y [], .done)
  | .moveAssign x y =>
    (if x = y then t else update (update t x (t y)) y [], .done)
  | .pushFront x arg _ =>
    let (t, v) := specFetch e t arg
    (update t x (v :: t x), .done)
  | .pushBack x arg _ =>
    let (t, v) := specFetch e t arg
    (update t x (t x ++ [v]), .done)
  | .emplaceBack x args build _ =>
    let (t, vs) := specFetchAll e t args
    (update t x (t x ++ [build vs]), .value (build vs))
  | .popFront x => (update t x ((t x).drop 1), .done)
  | .popBack x => (update t x (t x).dropLast, .done)
  | .clear x => (update t x [], .done)
  | .read x place => (t, .value ((t x).getD (specIndex (t x) place) e.fresh))
  | .write x place v => (update t x ((t x).set (specIndex (t x) place) v), .done)
  | .iterate x => (t, .values (t x))
  | .empty x => (t, .bit (t x).isEmpty)
  | .size x => (t, .number (t x).length)

end Lists

end SimpleDeque

end Equilibrium
