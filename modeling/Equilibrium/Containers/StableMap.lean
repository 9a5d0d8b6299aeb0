import Equilibrium.Containers.UnorderedMap
import Equilibrium.Containers.UnorderedMapStores
import Equilibrium.Library.Ledger

/-! `StableMap` of `base/containers/stable_map.h`: an `UnorderedMap` of pointers to values on the
heap. A value object is the number of its creation; deleting one that is not there and using a
null reference stop the program, as do the ways in which the inner map may not return. -/

namespace Equilibrium.StableMap

open UnorderedMap

inductive Stop where
  | map (stop : Equilibrium.Stop)
  | fault
  deriving DecidableEq, Repr

/-- `V*`, `none` for null. -/
abbrev Pointer := Option ℕ

/-- The constructed maps, and the value objects created and deleted so far. -/
structure World (ι K : Type) where
  maps : ι → Option (UnorderedMap K Pointer)
  created : ℕ
  deleted : List ℕ

variable {ι K : Type}

inductive Call (ι K : Type) where
  | construct (x : ι)
  | moveConstruct (x other : ι)
  | moveAssign (x other : ι)
  | subscript (x : ι) (key : K)
  | find (x : ι) (key : K)
  | contains (x : ι) (key : K)
  | erase (x : ι) (key : K)
  | clear (x : ι)
  | reserve (x : ι) (n : ℕ)
  | destruct (x : ι)

/-- What a call returns; a reference is given by its object. -/
inductive Reply where
  | done
  | reference (v : ℕ)
  | pointer (p : Pointer)
  | flag (b : Bool)
  deriving DecidableEq, Repr

/-- A constructor is for a name without a map, every other call for maps that are there. -/
def Legal (w : World ι K) : Memory × Call ι K → Prop
  | (_, .construct x) => w.maps x = none
  | (_, .moveConstruct x other) => w.maps x = none ∧ w.maps other ≠ none
  | (_, .moveAssign x other) => w.maps x ≠ none ∧ w.maps other ≠ none
  | (_, .subscript x _) | (_, .find x _) | (_, .contains x _) | (_, .erase x _)
  | (_, .clear x) | (_, .reserve x _) | (_, .destruct x) => w.maps x ≠ none

instance (w : World ι K) : DecidablePred (Legal w)
  | (_, .construct _) => inferInstanceAs (Decidable (_ = _))
  | (_, .moveConstruct _ _) => inferInstanceAs (Decidable (_ ∧ _))
  | (_, .moveAssign _ _) => inferInstanceAs (Decidable (¬_ = none ∧ ¬_ = none))
  | (_, .subscript _ _) | (_, .find _ _) | (_, .contains _ _) | (_, .erase _ _)
  | (_, .clear _) | (_, .reserve _ _) | (_, .destruct _) => inferInstanceAs (Decidable (¬_ = none))

variable [DecidableEq ι]

namespace World

def start : World ι K := ⟨fun _ => none, 0, []⟩

def read (w : World ι K) (x : ι) : Except Stop (UnorderedMap K Pointer) :=
  match w.maps x with
  | some m => .ok m
  | none => .error .fault

def write (w : World ι K) (x : ι) (m : UnorderedMap K Pointer) : World ι K :=
  { w with maps := Function.update w.maps x (some m) }

def live (w : World ι K) (v : ℕ) : Bool := v < w.created && !w.deleted.contains v

def deref (w : World ι K) : Pointer → Except Stop ℕ
  | some v => if w.live v then .ok v else .error .fault
  | none => .error .fault

def delete (w : World ι K) : Pointer → Except Stop (World ι K)
  | some v => if w.live v then .ok { w with deleted := v :: w.deleted } else .error .fault
  | none => .ok w

/-- `ForEach` with the deletion of every value. -/
def deleteAll (w : World ι K) : List (Slot K Pointer) → Except Stop (World ι K)
  | [] => .ok w
  | .occupied _ p :: rest => do
    let w ← w.delete p
    w.deleteAll rest
  | _ :: rest => w.deleteAll rest

end World

def inner {α : Type} (result : Outcome α) : Except Stop α := result.mapError .map

def clear (w : World ι K) (x : ι) : Except Stop (World ι K) := do
  let m ← w.read x
  let w ← w.deleteAll m.slots
  return w.write x m.clear

/-- The inner map of `other` goes to `x`. -/
def moveMap (w : World ι K) (x other : ι) : Except Stop (World ι K) := do
  let m ← w.read other
  return (w.write x m).write other movedFrom

def moveAssign (w : World ι K) (x other : ι) : Except Stop (World ι K) :=
  if x = other then .ok w
  else do
    let w ← clear w x
    moveMap w x other

def destruct (w : World ι K) (x : ι) : Except Stop (World ι K) := do
  let w ← clear w x
  return { w with maps := Function.update w.maps x none }

def reserve [Hashable K] (mem : Memory) (w : World ι K) (x : ι) (n : ℕ) : Except Stop (World ι K) := do
  let m ← w.read x
  let m ← inner (UnorderedMap.reserve mem m n)
  return w.write x m

variable [BEq K] [Hashable K]

/-- `operator[]`: the object that the reference is to. -/
def subscript (mem : Memory) (w : World ι K) (x : ι) (key : K) : Except Stop (World ι K × ℕ) := do
  let m ← w.read x
  match m.find key with
  | some p => do
    let v ← w.deref p
    return (w, v)
  | none => do
    let v := w.created
    let (m, idx) ← inner (UnorderedMap.subscript mem m key)
    return ({ w with created := v + 1 }.write x (m.storeAt idx (some v)), v)

def find (w : World ι K) (x : ι) (key : K) : Except Stop Pointer := do
  let m ← w.read x
  match m.find key with
  | some p => return p
  | none => return none

def contains (w : World ι K) (x : ι) (key : K) : Except Stop Bool := do
  let m ← w.read x
  return m.contains key

def erase (w : World ι K) (x : ι) (key : K) : Except Stop (World ι K × Bool) := do
  let m ← w.read x
  match m.find key with
  | none => return (w, false)
  | some p => do
    let w ← w.delete p
    return (w.write x (m.erase key).1, true)

def exec (w : World ι K) : Memory × Call ι K → Except Stop (World ι K × Reply)
  | (_, .construct x) => .ok (w.write x {}, .done)
  | (_, .moveConstruct x other) => (moveMap w x other).map (·, .done)
  | (_, .moveAssign x other) => (moveAssign w x other).map (·, .done)
  | (mem, .subscript x key) => (subscript mem w x key).map fun r => (r.1, .reference r.2)
  | (_, .find x key) => (find w x key).map fun p => (w, .pointer p)
  | (_, .contains x key) => (contains w x key).map fun b => (w, .flag b)
  | (_, .erase x key) => (erase w x key).map fun r => (r.1, .flag r.2)
  | (_, .clear x) => (clear w x).map (·, .done)
  | (mem, .reserve x n) => (reserve mem w x n).map (·, .done)
  | (_, .destruct x) => (destruct w x).map (·, .done)

/-! `StableMap` objects against finite maps from keys to value objects: a value object belongs to
one key of one map from its creation to its deletion, wherever the table and the map go. -/

open Prod (fst snd)
open Library
open Function (update update_self update_of_ne update_eq_self)

variable {ι K : Type} [BEq K]

/-- The finite map of each map that is there, and the value objects created so far. -/
structure Contents (ι K : Type) [BEq K] where
  maps : ι → Option (FiniteMap K ℕ)
  created : ℕ

namespace Contents

def start : Contents ι K := ⟨fun _ => none, 0⟩

def address (s : Contents ι K) (x : ι) (key : K) : Option ℕ :=
  (s.maps x).bind fun a => a.lookup key

def Holds (s : Contents ι K) (p : ι × K) (v : ℕ) : Prop :=
  ∃ a, s.maps p.1 = some a ∧ (p.2, v) ∈ a.entries

variable [DecidableEq ι]

def put (s : Contents ι K) (x : ι) (a : Option (FiniteMap K ℕ)) : Contents ι K :=
  { s with maps := update s.maps x a }

def move (s : Contents ι K) (x other : ι) : Contents ι K :=
  (s.put x (s.maps other)).put other (some FiniteMap.empty)

def insert (s : Contents ι K) (x : ι) (key : K) : Contents ι K :=
  { s.put x ((s.maps x).map fun a => a.insertNew key s.created) with created := s.created + 1 }

end Contents

def spec [DecidableEq ι] (s : Contents ι K) : Memory × Call ι K → Contents ι K × Reply
  | (_, .construct x) => (s.put x (some FiniteMap.empty), .done)
  | (_, .moveConstruct x other) => (s.move x other, .done)
  | (_, .moveAssign x other) => (if x = other then s else s.move x other, .done)
  | (_, .subscript x key) =>
    match s.address x key with
    | some v => (s, .reference v)
    | none => (s.insert x key, .reference s.created)
  | (_, .find x key) => (s, .pointer (s.address x key))
  | (_, .contains x key) => (s, .flag (s.address x key).isSome)
  | (_, .erase x key) =>
    (s.put x ((s.maps x).map fun a => a.erase key), .flag (s.address x key).isSome)
  | (_, .clear x) => (s.put x (some FiniteMap.empty), .done)
  | (_, .reserve _ _) => (s, .done)
  | (_, .destruct x) => (s.put x none, .done)

variable [Hashable K]

/-- The maps store the pairs of the finite maps, and each value object is held by one key or was
deleted once. -/
structure Matches (w : World ι K) (s : Contents ι K) : Prop where
  maps : ∀ x, Option.Rel (fun m a => Stores m (a.map some)) (w.maps x) (s.maps x)
  created : w.created = s.created
  objects : Ledger s.Holds w.created w.deleted

variable {w w' : World ι K} {s : Contents ι K} {x other : ι} {a : FiniteMap K ℕ}

section

variable (h : Matches w s)
include h

theorem Matches.maps_eq_none : w.maps x = none ↔ s.maps x = none := by
  have := h.maps x
  cases hw : w.maps x <;> cases hs : s.maps x <;> rw [hw, hs] at this <;> cases this <;> simp

theorem Matches.exists_of_ne_none (hx : w.maps x ≠ none) : ∃ a, s.maps x = some a :=
  Option.ne_none_iff_exists'.mp fun hs => hx (h.maps_eq_none.mpr hs)

theorem Matches.read (hx : s.maps x = some a) : ∃ m, w.read x = .ok m ∧ Stores m (a.map some) := by
  have := h.maps x
  rw [hx] at this
  cases hw : w.maps x with
  | none => rw [hw] at this; cases this
  | some m =>
    rw [hw] at this
    cases this with
    | some hm => exact ⟨m, by rw [World.read, hw], hm⟩

theorem Matches.live (hx : s.maps x = some a) {k : K} {v : ℕ} (hmem : (k, v) ∈ a.entries) :
    w.live v = true := by
  have hv : s.Holds (x, k) v := ⟨a, hx, hmem⟩
  have hlt := h.objects.issued _ v hv
  have hkept := h.objects.kept _ v hv
  simp [World.live, hlt, hkept]

end

omit [Hashable K] in
theorem Contents.address_eq (hx : s.maps x = some a) (key : K) :
    s.address x key = a.lookup key := by
  rw [Contents.address, hx]
  rfl

variable [DecidableEq ι]

omit [BEq K] [Hashable K] in
theorem rel_update {α β : Type} {R : α → β → Prop} {f : ι → Option α} {g : ι → Option β}
    (h : ∀ x, Option.Rel R (f x) (g x)) (x : ι) {p : Option α} {q : Option β}
    (hpq : Option.Rel R p q) (y : ι) : Option.Rel R (update f x p y) (update g x q y) := by
  by_cases hyx : y = x
  · rw [hyx, update_self, update_self]
    exact hpq
  · rw [update_of_ne hyx, update_of_ne hyx]
    exact h y

section

omit [Hashable K]

theorem Contents.holds_put (p : Option (FiniteMap K ℕ)) (y : ι) (k : K) (v : ℕ) :
    (s.put x p).Holds (y, k) v ↔
      (y = x ∧ ∃ a, p = some a ∧ (k, v) ∈ a.entries) ∨ (y ≠ x ∧ s.Holds (y, k) v) := by
  by_cases hyx : y = x
  · simp [Holds, put, hyx]
  · simp [Holds, put, hyx]

theorem Contents.put_put (p q : Option (FiniteMap K ℕ)) : (s.put x p).put x q = s.put x q := by
  simp [put]

theorem Contents.put_self (hx : s.maps x = some a) : s.put x (some a) = s := by
  simp [put, ← hx]

end

theorem Matches.write (h : Matches w s) (hx : s.maps x = some a)
    {m : UnorderedMap K Pointer} (hm : Stores m (a.map some)) : Matches (w.write x m) s := by
  refine ⟨fun y => ?_, h.created, h.objects⟩
  have := rel_update h.maps x (.some hm) y
  rwa [← hx, update_eq_self] at this

theorem Matches.put_vacant (h : Matches w s) (hx : ∀ k v, ¬s.Holds (x, k) v)
    {p : Option (UnorderedMap K Pointer)} {q : Option (FiniteMap K ℕ)}
    (hpq : Option.Rel (fun m a => Stores m (a.map some)) p q)
    (hq : ∀ a k v, q = some a → (k, v) ∉ a.entries) :
    Matches { w with maps := update w.maps x p } (s.put x q) := by
  refine ⟨rel_update h.maps x hpq, h.created, h.objects.congr fun ⟨y, k⟩ v => ?_⟩
  rw [Contents.holds_put]
  constructor
  · rintro (⟨rfl, a, ha, hmem⟩ | ⟨-, hold⟩)
    · exact absurd hmem (hq a k v ha)
    · exact hold
  · intro hold
    refine .inr ⟨?_, hold⟩
    rintro rfl
    exact hx k v hold

section

omit [DecidableEq ι] [Hashable K]

theorem Contents.not_holds_of_none (hx : s.maps x = none) (k : K) (v : ℕ) : ¬s.Holds (x, k) v := by
  rintro ⟨a, ha, -⟩
  rw [hx] at ha
  cases ha

theorem Contents.not_holds_of_empty (hx : s.maps x = some FiniteMap.empty) (k : K) (v : ℕ) :
    ¬s.Holds (x, k) v := by
  rintro ⟨a, ha, hmem⟩
  rw [hx] at ha
  cases ha
  cases hmem

end

/-! `clear` -/

omit [BEq K] [Hashable K] [DecidableEq ι] in
/-- Deleting different objects that are there. -/
theorem deleteAll_eq (w : World ι K) (slots : List (Slot K Pointer))
    (hlive : ∀ v ∈ (entries slots).filterMap snd, w.live v = true)
    (hnodup : ((entries slots).filterMap snd).Nodup) : w.deleteAll slots = .ok { w with
      deleted := ((entries slots).filterMap snd).reverse ++ w.deleted } := by
  induction slots generalizing w with
  | nil => rfl
  | cons slot rest ih =>
    cases slot with
    | empty => exact ih w hlive hnodup
    | deleted => exact ih w hlive hnodup
    | occupied k p =>
      cases p with
      | none => exact ih w hlive hnodup
      | some v =>
        have hcons : (entries (.occupied k (some v) :: rest)).filterMap snd =
            v :: (entries rest).filterMap snd := rfl
        rw [hcons] at hlive hnodup ⊢
        obtain ⟨hv, hrest⟩ := List.nodup_cons.mp hnodup
        have hfirst : w.delete (some v) = .ok { w with deleted := v :: w.deleted } :=
          if_pos (hlive v (by simp))
        have hnext := ih { w with deleted := v :: w.deleted } ?_ hrest
        · simp only [World.deleteAll, hfirst, bind, Except.bind]
          rw [hnext, List.reverse_cons, List.append_assoc]
          rfl
        · intro u hu
          have hne : u ≠ v := by
            rintro rfl
            exact hv hu
          simpa [World.live, hne] using hlive u (by simp [hu])

variable [EquivBEq K]

omit [DecidableEq ι] in
/-- The value objects of one map are different. -/
theorem Matches.nodup (h : Matches w s) (hx : s.maps x = some a) : (a.entries.map snd).Nodup := by
  refine List.pairwise_map.mpr (a.distinct.imp_of_mem fun {e e'} he he' hne heq => ?_)
  have := h.objects.unique (x, e.1) (x, e'.1) e.2 ⟨a, hx, he⟩ ⟨a, hx, heq ▸ he'⟩
  simp_all

theorem Matches.clear (h : Matches w s) (hx : s.maps x = some a) :
    ∃ w', clear w x = .ok w' ∧ Matches w' (s.put x (some FiniteMap.empty)) := by
  obtain ⟨m, hread, hm⟩ := h.read hx
  have hvalues : ((entries m.slots).filterMap snd).Perm (a.entries.map snd) := by
    refine (hm.entries.filterMap snd).trans (.of_eq ?_)
    rw [FiniteMap.entries_map, List.filterMap_map]
    exact congrFun List.filterMap_eq_map _
  have hnodup := hvalues.nodup_iff.mpr (h.nodup hx)
  have hheld : ∀ v ∈ (entries m.slots).filterMap snd, ∃ k, (k, v) ∈ a.entries := by
    intro v hv
    obtain ⟨⟨k, v⟩, hmem, rfl⟩ := List.mem_map.mp (hvalues.mem_iff.mp hv)
    exact ⟨k, hmem⟩
  have hdelete := deleteAll_eq w m.slots (fun v hv => h.live hx (hheld v hv).choose_spec) hnodup
  have hrun : StableMap.clear w x = .ok (({ w with
      deleted := ((entries m.slots).filterMap snd).reverse ++ w.deleted } :
        World ι K).write x m.clear) := by
    simp only [StableMap.clear, hread, hdelete, bind, Except.bind, pure, Except.pure]
  have hclear : Stores m.clear (FiniteMap.empty.map some) := hm.clear
  refine ⟨_, hrun, rel_update h.maps x (.some hclear), h.created,
    h.objects.retire_all hnodup (fun v hv => ?_) fun ⟨y, k⟩ v => ?_⟩
  case refine_1 =>
    obtain ⟨k, hmem⟩ := hheld v hv
    exact ⟨(x, k), a, hx, hmem⟩
  case refine_2 =>
    rw [Contents.holds_put]
    constructor
    · rintro (⟨-, a', ha', hmem⟩ | ⟨hyx, hold⟩)
      · cases ha'
        cases hmem
      · refine ⟨hold, fun hv => hyx ?_⟩
        obtain ⟨k', hmem⟩ := hheld v hv
        exact congrArg fst (h.objects.unique (y, k) (x, k') v hold ⟨a, hx, hmem⟩)
    · rintro ⟨hold, hv⟩
      refine .inr ⟨?_, hold⟩
      rintro rfl
      obtain ⟨a', ha', hmem⟩ := hold
      cases hx.symm.trans ha'
      exact hv (hvalues.mem_iff.mpr (List.mem_map.mpr ⟨(k, v), hmem, rfl⟩))

/-! Moves and insertion -/

omit [EquivBEq K] in
theorem Matches.moveMap (h : Matches w s) (hxo : x ≠ other) (ho : s.maps other = some a)
    (hx : ∀ k v, ¬s.Holds (x, k) v) :
    ∃ w', moveMap w x other = .ok w' ∧ Matches w' (s.move x other) := by
  obtain ⟨m, hread, hm⟩ := h.read ho
  have hrun : StableMap.moveMap w x other = .ok ((w.write x m).write other movedFrom) := by
    rw [StableMap.moveMap, hread]
    rfl
  have hempty : Stores movedFrom ((FiniteMap.empty : FiniteMap K ℕ).map some) := stores_empty
  have hmaps := rel_update (rel_update h.maps x (.some hm)) other (.some hempty)
  rw [← ho] at hmaps
  have hiff (y : ι) (k : K) (v : ℕ) : (s.move x other).Holds (y, k) v ↔
      (y = x ∧ s.Holds (other, k) v) ∨ (y ≠ x ∧ y ≠ other ∧ s.Holds (y, k) v) := by
    rw [Contents.move, Contents.holds_put, Contents.holds_put]
    constructor
    · rintro (⟨-, a', ha', hmem⟩ | ⟨hyo, ⟨rfl, a', ha', hmem⟩ | ⟨hyx, hold⟩⟩)
      · cases ha'
        cases hmem
      · exact .inl ⟨rfl, a', ha', hmem⟩
      · exact .inr ⟨hyx, hyo, hold⟩
    · rintro (⟨rfl, a', ha', hmem⟩ | ⟨hyx, hyo, hold⟩)
      · exact .inr ⟨hxo, .inl ⟨rfl, a', ha', hmem⟩⟩
      · exact .inr ⟨hyo, .inr ⟨hyx, hold⟩⟩
  refine ⟨_, hrun, hmaps, h.created, h.objects.transfer ?_ fun v => ⟨?_, ?_⟩⟩
  case refine_1 =>
    rintro ⟨y, k⟩ ⟨z, l⟩ v hy hz
    obtain ⟨rfl, hy'⟩ | ⟨-, hyo, hy'⟩ := (hiff y k v).mp hy
    · obtain ⟨rfl, hz'⟩ | ⟨-, hzo, hz'⟩ := (hiff z l v).mp hz
      · exact congrArg (fun p => (z, p.2)) (h.objects.unique _ _ v hy' hz')
      · exact absurd (congrArg fst (h.objects.unique _ _ v hy' hz')).symm hzo
    · obtain ⟨rfl, hz'⟩ | ⟨-, hzo, hz'⟩ := (hiff z l v).mp hz
      · exact absurd (congrArg fst (h.objects.unique _ _ v hy' hz')) hyo
      · exact h.objects.unique _ _ v hy' hz'
  case refine_2 =>
    rintro ⟨⟨y, k⟩, hy⟩
    obtain ⟨-, hold⟩ | ⟨-, -, hold⟩ := (hiff y k v).mp hy
    · exact ⟨(other, k), hold⟩
    · exact ⟨(y, k), hold⟩
  case refine_3 =>
    rintro ⟨⟨y, k⟩, hy⟩
    have hyx : y ≠ x := by
      rintro rfl
      exact hx k v hy
    by_cases hyo : y = other
    case pos => exact ⟨(x, k), (hiff x k v).mpr (.inl ⟨rfl, hyo ▸ hy⟩)⟩
    case neg => exact ⟨(y, k), (hiff y k v).mpr (.inr ⟨hyx, hyo, hy⟩)⟩

variable [LawfulHashable K]

theorem Matches.insert (h : Matches w s) (hx : s.maps x = some a) {key : K}
    (hnew : a.lookup key = none) {mem : Memory} {m m' : UnorderedMap K Pointer} {idx : ℕ}
    (hm : Stores m (a.map some)) (hrun : UnorderedMap.subscript mem m key = .ok (m', idx)) :
    Matches (({ w with created := w.created + 1 } : World ι K).write x
      (m'.storeAt idx (some w.created))) (s.insert x key) := by
  obtain ⟨⟨m₁, idx₁, fresh⟩, hinsert, hpair⟩ := Outcome.bind_eq_ok.mp hrun
  cases hpair
  obtain ⟨hstored, ⟨k, v, hkey, hslot, -⟩, -⟩ := hm.insertSlot hinsert
  have hnone : (a.map some).lookup key = none := by rw [FiniteMap.lookup_map, hnew]; rfl
  have hstore := hstored.storeAt hslot hkey (some w.created)
  rw [FiniteMap.replace_insertNew hnone, FiniteMap.insertNew_map] at hstore
  have hmaps := rel_update h.maps x (.some hstore)
  have hput : s.insert x key = { s.put x (some (a.insertNew key w.created)) with
      created := s.created + 1 } := by
    rw [Contents.insert, hx, h.created]
    rfl
  rw [hput]
  refine ⟨hmaps, congrArg (· + 1) h.created, ?_⟩
  refine h.objects.issue (x := (x, key)) fun ⟨y, k⟩ v => ?_
  refine (Contents.holds_put _ y k v).trans ?_
  have hentries := FiniteMap.insertNew_of_none hnew w.created
  constructor
  · rintro (⟨rfl, a', ha', hmem⟩ | ⟨-, hold⟩)
    · cases ha'
      rw [hentries, List.mem_append, List.mem_singleton] at hmem
      obtain hmem | heq := hmem
      · exact .inl ⟨a, hx, hmem⟩
      · cases heq
        exact .inr ⟨rfl, rfl⟩
    · exact .inl hold
  · rintro (hold | ⟨heq, rfl⟩)
    · by_cases hyx : y = x
      case pos =>
        subst hyx
        obtain ⟨a', ha', hmem⟩ := hold
        cases hx.symm.trans ha'
        exact .inl ⟨rfl, _, rfl, by rw [hentries]; exact List.mem_append_left _ hmem⟩
      case neg => exact .inr ⟨hyx, hold⟩
    · cases heq
      exact .inl ⟨rfl, _, rfl, by rw [hentries]; simp⟩

theorem Matches.erase (h : Matches w s) (hx : s.maps x = some a) (key : K) :
    ∃ w', erase w x key = .ok (w', (a.lookup key).isSome) ∧
      Matches w' (s.put x (some (a.erase key))) := by
  obtain ⟨m, hread, hm⟩ := h.read hx
  have hfind := hm.find key
  rw [FiniteMap.lookup_map] at hfind
  cases hlookup : a.lookup key with
  | none =>
    rw [FiniteMap.erase_of_none hlookup, Contents.put_self hx]
    rw [hlookup] at hfind
    refine ⟨w, ?_, h⟩
    simp only [StableMap.erase, hread, hfind, Option.map_none, bind, Except.bind, pure,
      Except.pure, Option.isSome_none]
  | some v =>
    obtain ⟨k', hmem, hkey⟩ := FiniteMap.exists_of_lookup hlookup
    rw [hlookup] at hfind
    have hdelete : w.delete (some v) = .ok { w with deleted := v :: w.deleted } :=
      if_pos (h.live hx hmem)
    have hrun : StableMap.erase w x key = .ok (({ w with deleted := v :: w.deleted } :
        World ι K).write x (m.erase key).1, true) := by
      simp only [StableMap.erase, hread, hfind, hdelete, Option.map_some, bind, Except.bind, pure,
        Except.pure]
    have hstored := (hm.erase key).2
    rw [FiniteMap.erase_map] at hstored
    refine ⟨_, hrun, rel_update h.maps x (.some hstored), h.created,
      h.objects.retire (x := (x, k')) ⟨a, hx, hmem⟩ fun ⟨y, k⟩ u => ?_⟩
    rw [Contents.holds_put]
    constructor
    · rintro (⟨rfl, a', ha', hmem'⟩ | ⟨hyx, hold⟩)
      · cases ha'
        obtain ⟨hin, hne⟩ := List.mem_filter.mp hmem'
        refine ⟨⟨a, hx, hin⟩, ?_⟩
        rintro rfl
        have := h.objects.unique (y, k) (y, k') u ⟨a, hx, hin⟩ ⟨a, hx, hmem⟩
        simp_all
      · refine ⟨hold, ?_⟩
        rintro rfl
        exact hyx (congrArg fst (h.objects.unique (y, k) (x, k') u hold ⟨a, hx, hmem⟩))
    · rintro ⟨hold, hne⟩
      by_cases hyx : y = x
      case pos =>
        subst hyx
        obtain ⟨a', ha', hin⟩ := hold
        cases hx.symm.trans ha'
        refine .inl ⟨rfl, _, rfl, List.mem_filter.mpr ⟨hin, ?_⟩⟩
        by_contra hek
        have := FiniteMap.eq_of_pairwise a.distinct hin hmem (by simpa using hek) hkey
        exact hne (congrArg snd this)
      case neg => exact .inr ⟨hyx, hold⟩

/-! Calls -/

/-- What a call returns agrees with the finite maps; it does not stop at a value object. -/
structure Agrees (result : Except Stop (World ι K × Reply)) (s : Contents ι K) (r : Reply) :
    Prop where
  runs : result ≠ .error .fault
  returns : ∀ w' r', result = .ok (w', r') → r' = r ∧ Matches w' s

section

omit [DecidableEq ι] [EquivBEq K] [LawfulHashable K]

theorem Agrees.of_ok {r : Reply} (h : Matches w s) : Agrees (.ok (w, r)) s r := by
  refine ⟨nofun, fun w' r' hok => ?_⟩
  cases hok
  exact ⟨rfl, h⟩

theorem Agrees.of_error {stop : Stop} {r : Reply} (h : stop ≠ .fault) :
    Agrees (.error stop) s r := by
  refine ⟨fun hstop => h (Except.error.inj hstop), fun w' r' hok => ?_⟩
  cases hok

end

theorem Matches.subscript (h : Matches w s) (hx : s.maps x = some a) (mem : Memory) (key : K) :
    Agrees ((subscript mem w x key).map fun r => (r.1, .reference r.2))
      (spec s (mem, .subscript x key)).1 (spec s (mem, .subscript x key)).2 := by
  obtain ⟨m, hread, hm⟩ := h.read hx
  have hfind := hm.find key
  rw [FiniteMap.lookup_map] at hfind
  cases hlookup : a.lookup key with
  | some v =>
    obtain ⟨k, hmem, -⟩ := FiniteMap.exists_of_lookup hlookup
    rw [hlookup, Option.map_some] at hfind
    have hderef : w.deref (some v) = .ok v := if_pos (h.live hx hmem)
    have hrun : StableMap.subscript mem w x key = .ok (w, v) := by
      simp only [StableMap.subscript, hread, hfind, hderef, bind, Except.bind, pure, Except.pure]
    simp only [hrun, spec, Contents.address_eq hx, hlookup]
    exact .of_ok h
  | none =>
    rw [hlookup, Option.map_none] at hfind
    have hrun : StableMap.subscript mem w x key =
        (inner (UnorderedMap.subscript mem m key)).bind fun r =>
          .ok (({ w with created := w.created + 1 } : World ι K).write x
            (r.1.storeAt r.2 (some w.created)), w.created) := by
      simp only [StableMap.subscript, hread, hfind, bind, Except.bind, pure, Except.pure]
    simp only [hrun, spec, Contents.address_eq hx, hlookup]
    cases hinner : UnorderedMap.subscript mem m key with
    | error stop => exact .of_error (by simp)
    | ok r =>
      rw [← h.created]
      exact .of_ok (h.insert hx hlookup hm hinner)

theorem Matches.exec (h : Matches w s) (call : Memory × Call ι K) (hlegal : Legal w call) :
    Agrees (exec w call) (spec s call).1 (spec s call).2 := by
  obtain ⟨mem, call⟩ := call
  cases call with
  | construct x =>
    have hnone : s.maps x = none := h.maps_eq_none.mp hlegal
    exact .of_ok (h.put_vacant (Contents.not_holds_of_none hnone)
      (.some stores_empty) fun a k v ha hmem => by cases ha; cases hmem)
  | moveConstruct x other =>
    have hnone : s.maps x = none := h.maps_eq_none.mp hlegal.1
    obtain ⟨a, ho⟩ := h.exists_of_ne_none hlegal.2
    have hxo : x ≠ other := by
      rintro rfl
      rw [hnone] at ho
      cases ho
    obtain ⟨w', hrun, h'⟩ := h.moveMap hxo ho (Contents.not_holds_of_none hnone)
    rw [StableMap.exec, hrun]
    exact .of_ok h'
  | moveAssign x other =>
    obtain ⟨a, hx⟩ := h.exists_of_ne_none hlegal.1
    obtain ⟨b, ho⟩ := h.exists_of_ne_none hlegal.2
    by_cases hxo : x = other
    case pos =>
      simp only [StableMap.exec, moveAssign, spec, if_pos hxo]
      exact .of_ok h
    case neg =>
      obtain ⟨w₁, hclear, h₁⟩ := h.clear hx
      have hempty : (s.put x (some FiniteMap.empty)).maps x = some FiniteMap.empty :=
        update_self ..
      have hother : (s.put x (some FiniteMap.empty)).maps other = some b := by
        rw [← ho]
        exact update_of_ne (Ne.symm hxo) ..
      obtain ⟨w', hrun, h'⟩ := h₁.moveMap hxo hother (Contents.not_holds_of_empty hempty)
      have hmove : (s.put x (some FiniteMap.empty)).move x other = s.move x other := by
        rw [Contents.move, Contents.move, Contents.put_put, hother, ho]
      rw [hmove] at h'
      simp only [StableMap.exec, moveAssign, spec, if_neg hxo, hclear, bind, Except.bind, hrun]
      exact .of_ok h'
  | subscript x key =>
    obtain ⟨a, hx⟩ := h.exists_of_ne_none hlegal
    exact h.subscript hx mem key
  | find x key =>
    obtain ⟨a, hx⟩ := h.exists_of_ne_none hlegal
    obtain ⟨m, hread, hm⟩ := h.read hx
    have hfind := hm.find key
    rw [FiniteMap.lookup_map] at hfind
    have hrun : StableMap.find w x key = .ok (a.lookup key) := by
      simp only [StableMap.find, hread, hfind, bind, Except.bind, pure, Except.pure]
      cases a.lookup key <;> rfl
    simp only [StableMap.exec, hrun, spec, Contents.address_eq hx]
    exact .of_ok h
  | contains x key =>
    obtain ⟨a, hx⟩ := h.exists_of_ne_none hlegal
    obtain ⟨m, hread, hm⟩ := h.read hx
    have hcontains := hm.contains key
    rw [FiniteMap.lookup_map, Option.isSome_map] at hcontains
    simp only [StableMap.exec, StableMap.contains, hread, hcontains, spec,
      Contents.address_eq hx, bind, Except.bind, pure, Except.pure]
    exact .of_ok h
  | erase x key =>
    obtain ⟨a, hx⟩ := h.exists_of_ne_none hlegal
    obtain ⟨w', hrun, h'⟩ := h.erase hx key
    simp only [StableMap.exec, hrun, spec, Contents.address_eq hx, hx, Option.map_some]
    exact .of_ok h'
  | clear x =>
    obtain ⟨a, hx⟩ := h.exists_of_ne_none hlegal
    obtain ⟨w', hrun, h'⟩ := h.clear hx
    rw [StableMap.exec, hrun]
    exact .of_ok h'
  | reserve x n =>
    obtain ⟨a, hx⟩ := h.exists_of_ne_none hlegal
    obtain ⟨m, hread, hm⟩ := h.read hx
    simp only [StableMap.exec, StableMap.reserve, hread, bind, Except.bind]
    cases hinner : UnorderedMap.reserve mem m n with
    | error stop => exact .of_error (by simp)
    | ok m' => exact .of_ok (h.write hx (hm.reserve hinner))
  | destruct x =>
    obtain ⟨a, hx⟩ := h.exists_of_ne_none hlegal
    obtain ⟨w₁, hclear, h₁⟩ := h.clear hx
    have hempty : (s.put x (some FiniteMap.empty)).maps x = some FiniteMap.empty :=
      update_self ..
    have h' := h₁.put_vacant (Contents.not_holds_of_empty hempty) .none (by simp)
    rw [Contents.put_put] at h'
    simp only [StableMap.exec, destruct, hclear, bind, Except.bind, pure, Except.pure]
    exact .of_ok h'

end Equilibrium.StableMap
