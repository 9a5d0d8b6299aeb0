import Mathlib.Data.Nat.Notation
import Mathlib.Logic.Function.Basic
import Equilibrium.Library.Ledger

/-! `Function` of `base/functional/function.h`. A target is an object of some callable kind with
a state; it lives in the storage of a function object or in a block of the heap, and the erased
operations of a kind reach it through its place. Using a place that holds no target of the kind,
building a target over another one, and freeing a block twice or with its target stop the
program. -/

namespace Equilibrium.Functional

inductive Stop where
  | fault
  deriving DecidableEq, Repr

/-- The decayed types of callables; `invoke` gives the state that a call leaves behind. -/
structure Callables (Kind State Args R : Type) where
  size : Kind → ℕ
  align : Kind → ℕ
  invoke : Kind → State → Args → State × R

structure Target (Kind State : Type) where
  id : ℕ
  kind : Kind
  state : State
  deriving DecidableEq, Repr

/-- The members of a `Function`; each erased operation is the one of a kind, or null. -/
structure FunctionObject (Kind State : Type) where
  invoke : Option Kind := none
  destroy : Option Kind := none
  copyFn : Option Kind := none
  moveFn : Option Kind := none
  sizeFn : Option Kind := none
  storage : Option (Target Kind State) := none
  heapPtr : Option ℕ := none
  hasTarget : Bool := false
  deriving DecidableEq, Repr

inductive Place (Obj : Type) where
  | storage (x : Obj)
  | block (b : ℕ)
  deriving DecidableEq, Repr

/-- The constructed function objects, the allocated blocks with what they hold, and what was
constructed, destroyed, allocated and freed so far. -/
structure World (Obj Kind State : Type) where
  objects : Obj → Option (FunctionObject Kind State)
  heap : ℕ → Option (Option (Target Kind State))
  constructed : ℕ
  destroyed : List ℕ
  allocated : ℕ
  freed : List ℕ

variable {Obj Kind State Args R : Type} [DecidableEq Obj] [DecidableEq Kind]

namespace World

def start : World Obj Kind State := ⟨fun _ => none, fun _ => none, 0, [], 0, []⟩

def read (w : World Obj Kind State) (x : Obj) : Except Stop (FunctionObject Kind State) :=
  match w.objects x with
  | some f => .ok f
  | none => .error .fault

def write (w : World Obj Kind State) (x : Obj) (f : FunctionObject Kind State) :
    World Obj Kind State :=
  { w with objects := Function.update w.objects x (some f) }

def targetAt (w : World Obj Kind State) : Place Obj → Option (Target Kind State)
  | .storage x => (w.objects x).bind (·.storage)
  | .block b => (w.heap b).join

/-- What a place holds from now on; the place has to be memory that is there. -/
def setTarget (w : World Obj Kind State) (place : Place Obj)
    (target : Option (Target Kind State)) : Except Stop (World Obj Kind State) :=
  match place with
  | .storage x =>
    match w.objects x with
    | some f => .ok (w.write x { f with storage := target })
    | none => .error .fault
  | .block b =>
    match w.heap b with
    | some _ => .ok { w with heap := Function.update w.heap b (some target) }
    | none => .error .fault

/-- A placement `new`. -/
def construct (w : World Obj Kind State) (place : Place Obj) (kind : Kind) (state : State) :
    Except Stop (World Obj Kind State) :=
  match w.targetAt place with
  | some _ => .error .fault
  | none =>
    setTarget { w with constructed := w.constructed + 1 } place
      (some ⟨w.constructed, kind, state⟩)

def allocate (w : World Obj Kind State) : World Obj Kind State × ℕ :=
  ({ w with
      heap := Function.update w.heap w.allocated (some none)
      allocated := w.allocated + 1 }, w.allocated)

def free (w : World Obj Kind State) (b : ℕ) : Except Stop (World Obj Kind State) :=
  match w.heap b with
  | some none => .ok { w with heap := Function.update w.heap b none, freed := b :: w.freed }
  | _ => .error .fault

/-! The erased operations of a kind. -/

def targetOf (w : World Obj Kind State) (kind : Kind) (place : Place Obj) :
    Except Stop (Target Kind State) :=
  match w.targetAt place with
  | some target => if target.kind = kind then .ok target else .error .fault
  | none => .error .fault

def destroyImpl (w : World Obj Kind State) (kind : Kind) (place : Place Obj) :
    Except Stop (World Obj Kind State) := do
  let target ← w.targetOf kind place
  setTarget { w with destroyed := target.id :: w.destroyed } place none

def copyImpl (w : World Obj Kind State) (kind : Kind) (dst src : Place Obj) :
    Except Stop (World Obj Kind State) := do
  let target ← w.targetOf kind src
  w.construct dst kind target.state

def moveImpl (w : World Obj Kind State) (kind : Kind) (dst src : Place Obj) :
    Except Stop (World Obj Kind State) := do
  let target ← w.targetOf kind src
  let w ← w.construct dst kind target.state
  w.destroyImpl kind src

def invokeImpl (callables : Callables Kind State Args R) (w : World Obj Kind State) (kind : Kind)
    (place : Place Obj) (args : Args) : Except Stop (World Obj Kind State × R) := do
  let target ← w.targetOf kind place
  let result := callables.invoke kind target.state args
  let w ← w.setTarget place (some { target with state := result.1 })
  return (w, result.2)

end World

namespace FunctionObject

def isSBO (f : FunctionObject Kind State) : Bool := f.hasTarget && f.heapPtr.isNone

/-- `Target`, `none` for null. -/
def target (f : FunctionObject Kind State) (x : Obj) : Option (Place Obj) :=
  if f.isSBO then some (.storage x) else f.heapPtr.map .block

def forget (f : FunctionObject Kind State) : FunctionObject Kind State :=
  { f with
      invoke := none, destroy := none, copyFn := none, moveFn := none, sizeFn := none
      hasTarget := false }

def initVTable (f : FunctionObject Kind State) (kind : Kind) : FunctionObject Kind State :=
  { f with
      invoke := some kind, destroy := some kind, copyFn := some kind, moveFn := some kind
      sizeFn := some kind }

/-- The erased operations of another object, and whether it has a target. -/
def adopt (f other : FunctionObject Kind State) : FunctionObject Kind State :=
  { f with
      invoke := other.invoke, destroy := other.destroy, copyFn := other.copyFn
      moveFn := other.moveFn, sizeFn := other.sizeFn, hasTarget := other.hasTarget }

end FunctionObject

open World

/-- The part of `Cleanup` under its condition. -/
def destroyTarget (w : World Obj Kind State) (x : Obj) : Except Stop (World Obj Kind State) := do
  let f ← w.read x
  match f.hasTarget, f.destroy with
  | true, some kind =>
    match f.target x with
    | none => .error .fault
    | some place =>
      let w ← w.destroyImpl kind place
      match f.heapPtr with
      | some b =>
        let w ← w.free b
        let f ← w.read x
        return w.write x { f with heapPtr := none }
      | none => return w
  | _, _ => return w

def cleanup (w : World Obj Kind State) (x : Obj) : Except Stop (World Obj Kind State) := do
  let w ← destroyTarget w x
  let f ← w.read x
  return w.write x f.forget

/-- `MemSet` of the storage, in which no target may live. -/
def memSet (w : World Obj Kind State) (x : Obj) : Except Stop (World Obj Kind State) := do
  let f ← w.read x
  match f.storage with
  | none => return w
  | some _ => .error .fault

def kSBOCapacity : ℕ := 48

def maxAlign : ℕ := 16

def place (w : World Obj Kind State) (x : Obj) (kind : Kind) (state : State) (fits : Bool) :
    Except Stop (World Obj Kind State) := do
  let f ← w.read x
  match fits with
  | true =>
    let w := w.write x { f.initVTable kind with heapPtr := none }
    let w ← w.construct (.storage x) kind state
    let f ← w.read x
    return w.write x { f with hasTarget := true }
  | false =>
    let (w, b) := w.allocate
    let w := w.write x { f.initVTable kind with heapPtr := some b }
    let w ← w.construct (.block b) kind state
    let f ← w.read x
    return w.write x { f with hasTarget := true }

def emplace (callables : Callables Kind State Args R) (w : World Obj Kind State) (x : Obj)
    (kind : Kind) (state : State) : Except Stop (World Obj Kind State) :=
  place w x kind state
    (callables.size kind ≤ kSBOCapacity && callables.align kind ≤ maxAlign)

def copyFrom (w : World Obj Kind State) (x other : Obj) : Except Stop (World Obj Kind State) := do
  let f ← w.read x
  let g ← w.read other
  match g.hasTarget, g.copyFn with
  | true, some kind =>
    match g.heapPtr with
    | none =>
      let w := w.write x { f.adopt g with heapPtr := none }
      w.copyImpl kind (.storage x) (.storage other)
    | some b =>
      let (w, a) := w.allocate
      let w := w.write x { f.adopt g with heapPtr := some a }
      w.copyImpl kind (.block a) (.block b)
  | _, _ => return w.write x { f.adopt g with heapPtr := none }

/-- The part of `MoveFrom` before the source is emptied. -/
def moveTarget (w : World Obj Kind State) (x other : Obj) :
    Except Stop (World Obj Kind State) := do
  let f ← w.read x
  let g ← w.read other
  match g.hasTarget, g.heapPtr, g.moveFn with
  | true, none, some kind =>
    moveImpl (w.write x { f.adopt g with heapPtr := none }) kind (.storage x) (.storage other)
  | true, none, none => return w.write x { f.adopt g with heapPtr := none }
  | true, some b, _ => return w.write x { f.adopt g with heapPtr := some b }
  | false, _, _ => return w.write x { f.adopt g with heapPtr := none }

def moveFrom (w : World Obj Kind State) (x other : Obj) : Except Stop (World Obj Kind State) := do
  let w ← moveTarget w x other
  let g ← w.read other
  return w.write other { g.forget with heapPtr := none }

/-! The public members. A constructor makes the object of a name that has none. -/

/-- `Function()` and `Function(nullptr)` -/
def constructEmpty (w : World Obj Kind State) (x : Obj) : Except Stop (World Obj Kind State) :=
  memSet (w.write x {}) x

def constructFrom (callables : Callables Kind State Args R) (w : World Obj Kind State) (x : Obj)
    (kind : Kind) (state : State) : Except Stop (World Obj Kind State) := do
  let w ← memSet (w.write x {}) x
  emplace callables w x kind state

/-- The constructor for member functions, which looks at the size of the holder alone. -/
def constructMember (callables : Callables Kind State Args R) (w : World Obj Kind State) (x : Obj)
    (kind : Kind) (state : State) : Except Stop (World Obj Kind State) := do
  let w ← memSet (w.write x {}) x
  place w x kind state (callables.size kind ≤ kSBOCapacity)

def copyConstruct (w : World Obj Kind State) (x other : Obj) :
    Except Stop (World Obj Kind State) := do
  let w ← memSet (w.write x {}) x
  copyFrom w x other

def moveConstruct (w : World Obj Kind State) (x other : Obj) :
    Except Stop (World Obj Kind State) := do
  let w ← memSet (w.write x {}) x
  moveFrom w x other

def assignFrom (callables : Callables Kind State Args R) (w : World Obj Kind State) (x : Obj)
    (kind : Kind) (state : State) : Except Stop (World Obj Kind State) := do
  let w ← cleanup w x
  emplace callables w x kind state

def copyAssign (w : World Obj Kind State) (x other : Obj) : Except Stop (World Obj Kind State) :=
  if x = other then .ok w
  else do
    let w ← cleanup w x
    let w ← memSet w x
    copyFrom w x other

def moveAssign (w : World Obj Kind State) (x other : Obj) : Except Stop (World Obj Kind State) :=
  if x = other then .ok w
  else do
    let w ← cleanup w x
    let w ← memSet w x
    moveFrom w x other

def destruct (w : World Obj Kind State) (x : Obj) : Except Stop (World Obj Kind State) := do
  let w ← cleanup w x
  return { w with objects := Function.update w.objects x none }

/-- `Swap`, through a temporary object. -/
def swap (w : World Obj Kind State) (temporary x other : Obj) :
    Except Stop (World Obj Kind State) := do
  let w ← moveConstruct w temporary other
  let w ← moveAssign w other x
  let w ← moveAssign w x temporary
  destruct w temporary

/-- `operator()` -/
def call (callables : Callables Kind State Args R) (w : World Obj Kind State) (x : Obj)
    (args : Args) : Except Stop (World Obj Kind State × R) := do
  let f ← w.read x
  match f.invoke, f.target x with
  | some kind, some place => w.invokeImpl callables kind place args
  | _, _ => .error .fault

def isEmpty (w : World Obj Kind State) (x : Obj) : Except Stop Bool := do
  let f ← w.read x
  return !f.hasTarget

/-! Calls on named function objects; the temporary of `Swap` is the object without a name. -/

inductive Call (ι Kind State Args : Type) where
  | constructEmpty (x : ι)
  | constructFrom (x : ι) (kind : Kind) (state : State)
  | constructMember (x : ι) (kind : Kind) (state : State)
  | copyConstruct (x other : ι)
  | moveConstruct (x other : ι)
  | assignNull (x : ι)
  | assignFrom (x : ι) (kind : Kind) (state : State)
  | copyAssign (x other : ι)
  | moveAssign (x other : ι)
  | swap (x other : ι)
  | reset (x : ι)
  | call (x : ι) (args : Args)
  | isEmpty (x : ι)
  | destruct (x : ι)

inductive Reply (R : Type) where
  | done
  | result (r : R)
  | flag (b : Bool)
  deriving DecidableEq, Repr

variable {ι : Type} [DecidableEq ι]

def exec (callables : Callables Kind State Args R) (w : World (Option ι) Kind State) :
    Call ι Kind State Args → Except Stop (World (Option ι) Kind State × Reply R)
  | .constructEmpty x => (constructEmpty w (some x)).map (·, .done)
  | .constructFrom x kind state => (constructFrom callables w (some x) kind state).map (·, .done)
  | .constructMember x kind state =>
    (constructMember callables w (some x) kind state).map (·, .done)
  | .copyConstruct x other => (copyConstruct w (some x) (some other)).map (·, .done)
  | .moveConstruct x other => (moveConstruct w (some x) (some other)).map (·, .done)
  | .assignNull x => (cleanup w (some x)).map (·, .done)
  | .assignFrom x kind state => (assignFrom callables w (some x) kind state).map (·, .done)
  | .copyAssign x other => (copyAssign w (some x) (some other)).map (·, .done)
  | .moveAssign x other => (moveAssign w (some x) (some other)).map (·, .done)
  | .swap x other => (swap w none (some x) (some other)).map (·, .done)
  | .reset x => (cleanup w (some x)).map (·, .done)
  | .call x args => (call callables w (some x) args).map fun r => (r.1, .result r.2)
  | .isEmpty x => (isEmpty w (some x)).map fun b => (w, .flag b)
  | .destruct x => (destruct w (some x)).map (·, .done)

/-- A constructor is for a name without an object, every other call for objects that are
there, and `operator()` for one with a target. -/
def Legal (w : World (Option ι) Kind State) : Call ι Kind State Args → Prop
  | .constructEmpty x | .constructFrom x _ _ | .constructMember x _ _ =>
    w.objects (some x) = none
  | .copyConstruct x other | .moveConstruct x other =>
    w.objects (some x) = none ∧ w.objects (some other) ≠ none
  | .assignNull x | .assignFrom x _ _ | .reset x | .isEmpty x | .destruct x =>
    w.objects (some x) ≠ none
  | .copyAssign x other | .moveAssign x other | .swap x other =>
    w.objects (some x) ≠ none ∧ w.objects (some other) ≠ none
  | .call x _ => (w.objects (some x)).any (fun f => f.hasTarget) = true

instance (w : World (Option ι) Kind State) :
    DecidablePred (Legal w : Call ι Kind State Args → Prop)
  | .constructEmpty _ | .constructFrom _ _ _ | .constructMember _ _ _ =>
    inferInstanceAs (Decidable (_ = _))
  | .copyConstruct _ _ | .moveConstruct _ _ => inferInstanceAs (Decidable (_ ∧ _))
  | .assignNull _ | .assignFrom _ _ _ | .reset _ | .isEmpty _ | .destruct _ =>
    inferInstanceAs (Decidable (¬_ = none))
  | .copyAssign _ _ | .moveAssign _ _ | .swap _ _ =>
    inferInstanceAs (Decidable (¬_ = none ∧ ¬_ = none))
  | .call _ _ => inferInstanceAs (Decidable (_ = _))

/-! What the private members of `Function` do to the contents of function objects. An object
is empty, or holds a target in its storage or in a block of its own; every target and every
block has one object that is to destroy or free it. -/

open Library
open Function (update update_self update_of_ne update_eq_self)

/-- What a function object holds. -/
inductive Content (Kind State : Type) where
  | empty
  | inline (target : Target Kind State)
  | boxed (target : Target Kind State) (b : ℕ)
  deriving DecidableEq, Repr

namespace Content

variable {Kind State : Type}

def target : Content Kind State → Option (Target Kind State)
  | .empty => none
  | .inline t => some t
  | .boxed t _ => some t

def id (a : Content Kind State) : Option ℕ := a.target.map Target.id

def block : Content Kind State → Option ℕ
  | .empty => none
  | .inline _ => none
  | .boxed _ b => some b

def value (a : Content Kind State) : Option (Kind × State) :=
  a.target.map fun t => (t.kind, t.state)

def encode : Content Kind State → FunctionObject Kind State
  | .empty => {}
  | .inline t => ⟨some t.kind, some t.kind, some t.kind, some t.kind, some t.kind, some t, none,
      true⟩
  | .boxed t b => ⟨some t.kind, some t.kind, some t.kind, some t.kind, some t.kind, none, some b,
      true⟩

end Content

variable {Obj Kind State Args R : Type} {w : World Obj Kind State}
  {c : Obj → Option (Content Kind State)} {x y : Obj} {a : Content Kind State}

/-- The function objects hold these contents; each target that was constructed and each block
that was allocated is held by one of them, or was destroyed or freed once. -/
structure Rep (w : World Obj Kind State) (c : Obj → Option (Content Kind State)) : Prop where
  objects : ∀ x, w.objects x = (c x).map Content.encode
  heap : ∀ b o, w.heap b = some o ↔ ∃ x t, c x = some (.boxed t b) ∧ o = some t
  targets : Ledger (Single fun x => (c x).bind Content.id) w.constructed w.destroyed
  blocks : Ledger (Single fun x => (c x).bind Content.block) w.allocated w.freed

theorem rep_start : Rep (start : World Obj Kind State) fun _ => none where
  objects _ := rfl
  heap b o := by simp [start]
  targets := Ledger.empty nofun
  blocks := Ledger.empty nofun

theorem Rep.heap_boxed (h : Rep w c) {t : Target Kind State} {b : ℕ}
    (hx : c x = some (.boxed t b)) : w.heap b = some (some t) :=
  (h.heap b (some t)).mpr ⟨x, t, hx, rfl⟩

theorem Rep.boxed_unique (h : Rep w c) {t t' : Target Kind State} {b : ℕ}
    (hx : c x = some (.boxed t b)) (hy : c y = some (.boxed t' b)) : x = y :=
  h.blocks.unique x y b (by simp [Single, hx, Content.block]) (by simp [Single, hy, Content.block])

theorem Rep.heap_fresh (h : Rep w c) : w.heap w.allocated = none := by
  cases hheap : w.heap w.allocated with
  | none => rfl
  | some o =>
    obtain ⟨x, t, hx, -⟩ := (h.heap _ o).mp hheap
    have := h.blocks.issued x w.allocated (by simp [Single, hx, Content.block])
    omega

variable [DecidableEq Obj]

section Effects

variable {w' : World Obj Kind State}

theorem objects_update (h : Rep w c) (a : Content Kind State) (y : Obj) :
    update w.objects x (some a.encode) y = (update c x (some a) y).map Content.encode := by
  by_cases hyx : y = x
  case pos =>
    subst hyx
    simp
  case neg => simp [hyx, h.objects y]

theorem Rep.heap_unboxed (h : Rep w c) (hx : ∀ t b, c x ≠ some (.boxed t b))
    (ha : ∀ t b, a ≠ .boxed t b) (b : ℕ) (o : Option (Target Kind State)) :
    w.heap b = some o ↔ ∃ y t, update c x (some a) y = some (.boxed t b) ∧ o = some t := by
  rw [h.heap]
  refine exists_congr fun y => exists_congr fun t => and_congr_left fun _ => ?_
  by_cases hyx : y = x
  case pos => simp [hyx, hx t b, ha t b]
  case neg => simp [hyx]

theorem Rep.add (h : Rep w c) (hx : c x = none) :
    Rep (w.write x {}) (update c x (some .empty)) where
  objects := objects_update h .empty
  heap := h.heap_unboxed (by simp [hx]) nofun
  targets := h.targets.congr_single fun y => by
    by_cases hyx : y = x
    case pos => simp [hyx, hx, Content.id, Content.target]
    case neg => simp [hyx]
  blocks := h.blocks.congr_single fun y => by
    by_cases hyx : y = x
    case pos => simp [hyx, hx, Content.block]
    case neg => simp [hyx]

theorem Rep.same (h : Rep w c) (hx : c x = some a) : Rep (w.write x a.encode) c := by
  have hsame : update c x (some a) = c := by rw [← hx, update_eq_self]
  refine ⟨fun y => ?_, h.heap, h.targets, h.blocks⟩
  have := objects_update h a (x := x) y
  rwa [hsame] at this

variable {t : Target Kind State}

section

variable (h : Rep w c)
include h

theorem Rep.drop_inline (hx : c x = some (.inline t)) : Rep { w with
        objects := update w.objects x (some {})
        destroyed := t.id :: w.destroyed } (update c x (some .empty)) where
  objects := objects_update h .empty
  heap := h.heap_unboxed (by simp [hx]) nofun
  targets := h.targets.retire_single (x := x) (by simp [hx, Content.id, Content.target])
    (by simp [Content.id, Content.target]) fun y hyx => by simp [hyx]
  blocks := h.blocks.congr_single fun y => by
    by_cases hyx : y = x
    case pos => simp [hyx, hx, Content.block]
    case neg => simp [hyx]

theorem Rep.drop_boxed {b : ℕ} (hx : c x = some (.boxed t b)) : Rep { w with
        objects := update w.objects x (some {})
        heap := update w.heap b none
        destroyed := t.id :: w.destroyed
        freed := b :: w.freed } (update c x (some .empty)) where
  objects := objects_update h .empty
  heap b' o := by
    by_cases hb : b' = b
    case pos =>
      simp only [hb, update_self, reduceCtorEq, false_iff]
      rintro ⟨y, t', hy, -⟩
      by_cases hyx : y = x
      case pos => simp [hyx] at hy
      case neg =>
        rw [update_of_ne hyx] at hy
        exact hyx (h.boxed_unique hy hx)
    case neg =>
      simp only [update_of_ne hb, h.heap]
      refine exists_congr fun y => exists_congr fun t' => and_congr_left fun _ => ?_
      by_cases hyx : y = x
      case pos => simp [hyx, hx, Ne.symm hb]
      case neg => simp [hyx]
  targets := h.targets.retire_single (x := x) (by simp [hx, Content.id, Content.target])
    (by simp [Content.id, Content.target]) fun y hyx => by simp [hyx]
  blocks := h.blocks.retire_single (x := x) (by simp [hx, Content.block]) (by simp [Content.block])
    fun y hyx => by simp [hyx]

theorem Rep.fill_inline (hx : c x = some .empty) (kind : Kind) (state : State) : Rep { w with
        objects := update w.objects x
          (some (Content.inline ⟨w.constructed, kind, state⟩).encode)
        constructed := w.constructed + 1 }
      (update c x (some (.inline ⟨w.constructed, kind, state⟩))) where
  objects := objects_update h _
  heap := h.heap_unboxed (by simp [hx]) nofun
  targets := h.targets.issue_single (x := x) (by simp [hx, Content.id, Content.target])
    (by simp [Content.id, Content.target]) fun y hyx => by simp [hyx]
  blocks := h.blocks.congr_single fun y => by
    by_cases hyx : y = x
    case pos => simp [hyx, hx, Content.block]
    case neg => simp [hyx]

theorem Rep.fill_boxed (hx : c x = some .empty) (kind : Kind) (state : State) : Rep { w with
        objects := update w.objects x
          (some (Content.boxed ⟨w.constructed, kind, state⟩ w.allocated).encode)
        heap := update w.heap w.allocated (some (some ⟨w.constructed, kind, state⟩))
        constructed := w.constructed + 1
        allocated := w.allocated + 1 }
      (update c x (some (.boxed ⟨w.constructed, kind, state⟩ w.allocated))) where
  objects := objects_update h _
  heap b o := by
    have hfresh := h.heap_fresh
    by_cases hb : b = w.allocated
    case pos =>
      simp only [hb, update_self, Option.some.injEq]
      constructor
      · rintro rfl
        exact ⟨x, _, by rw [update_self], rfl⟩
      · rintro ⟨y, t, hy, rfl⟩
        by_cases hyx : y = x
        case pos =>
          rw [hyx, update_self] at hy
          cases hy
          rfl
        case neg =>
          rw [update_of_ne hyx] at hy
          rw [h.heap_boxed hy] at hfresh
          cases hfresh
    case neg =>
      simp only [update_of_ne hb, h.heap]
      refine exists_congr fun y => exists_congr fun t => and_congr_left fun _ => ?_
      by_cases hyx : y = x
      case pos => simp [hyx, hx, Ne.symm hb]
      case neg => simp [hyx]
  targets := h.targets.issue_single (x := x) (by simp [hx, Content.id, Content.target])
    (by simp [Content.id, Content.target]) fun y hyx => by simp [hyx]
  blocks := h.blocks.issue_single (x := x) (by simp [hx, Content.block]) (by simp [Content.block])
    fun y hyx => by simp [hyx]

theorem Rep.remove (hx : c x = some .empty) :
    Rep { w with objects := update w.objects x none } (update c x none) where
  objects y := by
    by_cases hyx : y = x
    case pos => simp [hyx]
    case neg => simp [hyx, h.objects y]
  heap b o := by
    rw [h.heap]
    refine exists_congr fun y => exists_congr fun t => and_congr_left fun _ => ?_
    by_cases hyx : y = x
    case pos => simp [hyx, hx]
    case neg => simp [hyx]
  targets := h.targets.congr_single fun y => by
    by_cases hyx : y = x
    case pos => simp [hyx, hx, Content.id, Content.target]
    case neg => simp [hyx]
  blocks := h.blocks.congr_single fun y => by
    by_cases hyx : y = x
    case pos => simp [hyx, hx, Content.block]
    case neg => simp [hyx]

theorem Rep.set_inline (hx : c x = some (.inline t)) (state : State) :
    Rep (w.write x (Content.inline { t with state }).encode)
      (update c x (some (.inline { t with state }))) where
  objects := objects_update h _
  heap := h.heap_unboxed (by simp [hx]) nofun
  targets := h.targets.congr_single fun y => by
    by_cases hyx : y = x
    case pos => simp [hyx, hx, Content.id, Content.target]
    case neg => simp [hyx]
  blocks := h.blocks.congr_single fun y => by
    by_cases hyx : y = x
    case pos => simp [hyx, hx, Content.block]
    case neg => simp [hyx]

theorem Rep.set_boxed {b : ℕ} (hx : c x = some (.boxed t b)) (state : State) :
    Rep { w with heap := update w.heap b (some (some { t with state })) }
      (update c x (some (.boxed { t with state } b))) where
  objects y := by
    by_cases hyx : y = x
    case pos => simp [hyx, h.objects, hx, Content.encode]
    case neg => simp [hyx, h.objects y]
  heap b' o := by
    by_cases hb : b' = b
    case pos =>
      simp only [hb, update_self, Option.some.injEq]
      constructor
      · rintro rfl
        exact ⟨x, _, by rw [update_self], rfl⟩
      · rintro ⟨y, t', hy, rfl⟩
        by_cases hyx : y = x
        case pos =>
          rw [hyx, update_self] at hy
          cases hy
          rfl
        case neg =>
          rw [update_of_ne hyx] at hy
          exact absurd (h.boxed_unique hy hx) hyx
    case neg =>
      simp only [update_of_ne hb, h.heap]
      refine exists_congr fun y => exists_congr fun t' => and_congr_left fun _ => ?_
      by_cases hyx : y = x
      case pos => simp [hyx, hx, Ne.symm hb]
      case neg => simp [hyx]
  targets := h.targets.congr_single fun y => by
    by_cases hyx : y = x
    case pos => simp [hyx, hx, Content.id, Content.target]
    case neg => simp [hyx]
  blocks := h.blocks.congr_single fun y => by
    by_cases hyx : y = x
    case pos => simp [hyx, hx, Content.block]
    case neg => simp [hyx]

theorem Rep.steal (hxy : x ≠ y) (hx : c x = some .empty) {b : ℕ} (hy : c y = some (.boxed t b)) :
    Rep { w with
        objects := update (update w.objects x
          (some (Content.boxed t b).encode)) y (some {}) }
      (update (update c x (some (.boxed t b))) y (some .empty)) where
  objects z := by
    by_cases hzy : z = y
    case pos => simp [hzy, Content.encode]
    case neg =>
      simp only [update_of_ne hzy]
      exact objects_update h _ z
  heap b' o := by
    rw [h.heap]
    constructor
    · rintro ⟨z, t', hz, rfl⟩
      by_cases hzy : z = y
      case pos =>
        rw [hzy, hy] at hz
        cases hz
        exact ⟨x, t, by rw [update_of_ne hxy, update_self], rfl⟩
      case neg =>
        have hzx : z ≠ x := by
          rintro rfl
          rw [hx] at hz
          cases hz
        exact ⟨z, t', by rw [update_of_ne hzy, update_of_ne hzx, hz], rfl⟩
    · rintro ⟨z, t', hz, rfl⟩
      by_cases hzy : z = y
      case pos => simp [hzy] at hz
      case neg =>
        rw [update_of_ne hzy] at hz
        by_cases hzx : z = x
        case pos =>
          rw [hzx, update_self] at hz
          cases hz
          exact ⟨y, _, hy, rfl⟩
        case neg =>
          rw [update_of_ne hzx] at hz
          exact ⟨z, t', hz, rfl⟩
  targets := h.targets.transfer_single hxy (by simp [hx, Content.id, Content.target])
    (by simp [hxy, hy, Content.id, Content.target]) (by simp [Content.id, Content.target])
    fun z hzx hzy => by simp [hzx, hzy]
  blocks := h.blocks.transfer_single hxy (by simp [hx, Content.block])
    (by simp [hxy, hy, Content.block]) (by simp [Content.block])
    fun z hzx hzy => by simp [hzx, hzy]

end

end Effects

end Equilibrium.Functional
