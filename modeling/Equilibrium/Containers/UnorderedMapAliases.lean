import Equilibrium.Containers.UnorderedMapStores
import Equilibrium.Containers.UnorderedMapCapacity

/-! Insertions into an `UnorderedMap` of a key that it has, and of keys and values that are
references into its own slots. The growth test comes before the key is looked up and before
either of them is read. -/

namespace Equilibrium.UnorderedMap

open AllocationSize Library Library.CyclicProbe Prod
open Outcome (bind_eq_ok)

variable {K V : Type}

section Model

inductive Insertion (V : Type) where
  | insert (val : V)
  | emplace (val : V)
  | subscript

def Insertion.value [Inhabited V] : Insertion V → V
  | .insert val => val
  | .emplace val => val
  | .subscript => default

/-- The map that an insertion leaves, and the slot that it returns a pointer or reference to. -/
def Insertion.run [BEq K] [Hashable K] [Inhabited V] (mem : Memory) (m : UnorderedMap K V)
    (key : K) : Insertion V → Outcome (UnorderedMap K V × Nat)
  | .insert val => do
    let (m, idx, _) ← UnorderedMap.insert mem m key val
    .ok (m, idx)
  | .emplace val => do
    let (m, idx, _) ← UnorderedMap.emplace mem m key val
    .ok (m, idx)
  | .subscript => UnorderedMap.subscript mem m key

/-- The insertion returns the slot of the key and leaves everything as it is. -/
def LeavesAlone [BEq K] [Hashable K] [Inhabited V] (mem : Memory) (m : UnorderedMap K V) (key : K)
    (call : Insertion V) : Prop :=
  ∃ idx, m.findSlot key = some idx ∧ call.run mem m key = .ok (m, idx)

/-- The growth test moves the pairs to another table and frees the one that they were in. -/
def Rebuilds (m : UnorderedMap K V) : Prop :=
  m.bucketCount = 0 ∨ maxLoad m.bucketCount < wrapAdd (wrapAdd m.size m.tombstoneCount) 1

instance (m : UnorderedMap K V) : Decidable m.Rebuilds :=
  inferInstanceAs (Decidable (_ ∨ _))

/-- A key or a value that is passed by reference: an object outside of the map, or the one in a
slot of the table. -/
inductive Ref (α : Type) where
  | object (a : α)
  | slot (idx : Nat)

/-- How an insertion ends without returning; `dangling` is an access to a slot that was destroyed
or freed. -/
inductive Fault where
  | stop (how : Stop)
  | dangling
  deriving DecidableEq

def checked {β : Type} : Outcome β → Except Fault β
  | .ok b => .ok b
  | .error how => .error (.stop how)

variable {α : Type}

def Ref.Outside : Ref α → Prop
  | .object _ => True
  | .slot _ => False

def Ref.Designates (m : UnorderedMap K V) (part : K × V → α) : Ref α → α → Prop
  | .object b, a => b = a
  | .slot idx, a => (slotAt m.slots idx).pair.map part = some a

/-- Read through a reference, once the table that it was taken from is `rebuilt`. -/
def look (rebuilt : Bool) (m : UnorderedMap K V) (part : K × V → α) : Ref α → Except Fault α
  | .object a => .ok a
  | .slot idx =>
    if rebuilt then .error .dangling
    else match (slotAt m.slots idx).pair with
      | some pair => .ok (part pair)
      | none => .error .dangling

variable [BEq K] [Hashable K]

/-- The body of `insertSlot`, with its reads through `key` and `value`. -/
def insertSlotRef (mem : Memory) (m : UnorderedMap K V) (key : Ref K) (val : Ref V) :
    Except Fault (UnorderedMap K V × Nat × Bool) := do
  let grown ← checked (growthTest mem m)
  let k ← look m.Rebuilds grown Prod.fst key
  let (idx, fresh) ←
    checked (prepareLoop grown.slots k grown.bucketCount (bucketFor grown.bucketCount k) none)
  if fresh then do
    let v ← look m.Rebuilds grown Prod.snd val
    .ok (grown.markOccupied idx k v, idx, true)
  else .ok (grown, idx, false)

def insertRef (mem : Memory) (m : UnorderedMap K V) (key : Ref K) (val : Ref V) :
    Except Fault (UnorderedMap K V × Nat × Bool) := insertSlotRef mem m key val

def emplaceRef (mem : Memory) (m : UnorderedMap K V) (key : Ref K) (val : Ref V) :
    Except Fault (UnorderedMap K V × Nat × Bool) := insertSlotRef mem m key val

inductive Entry where
  | insert
  | emplace

/-- The insertion through references does what it does with copies of what they are to, and reads
no slot that is gone. -/
def Entry.LikeCopy (mem : Memory) (m : UnorderedMap K V) (key : Ref K) (val : Ref V) (k : K)
    (v : V) : Entry → Prop
  | .insert => insertRef mem m key val = checked (UnorderedMap.insert mem m k v)
  | .emplace => emplaceRef mem m key val = checked (UnorderedMap.emplace mem m k v)

def newCount (m : UnorderedMap K V) : Nat := if m.bucketCount = 0 then 16 else m.bucketCount * 2

/-- There is no table that the growth test could move the pairs to. -/
def NoTable (mem : Memory) (m : UnorderedMap K V) : Prop :=
  ¬ (m.newCount ≤ memSizeMax ∧ m.newCount * mem.slotSize ≤ memSizeMax ∧
    mem.allocates (m.newCount * mem.slotSize) = true)

/-- The table stays, or the program ends, or nothing in the old table is read: the key is not in
it, and neither is the value, unless the key is there and no value is needed. -/
def Clear (mem : Memory) (m : UnorderedMap K V) (key : Ref K) (val : Ref V) (k : K) : Prop :=
  ¬ m.Rebuilds ∨ NoTable mem m ∨ key.Outside ∧ (val.Outside ∨ m.contains k = true)

end Model

section Present

variable [BEq K] [Hashable K]

omit [Hashable K] in
/-- A key that a search meets is met by the probe of an insertion. -/
theorem prepareLoop_of_findSlotLoop {slots : List (Slot K V)} {key : K} {turns idx i : Nat}
    (tombstone : Option Nat) (h : findSlotLoop slots key turns idx = some i) :
    prepareLoop slots key turns idx tombstone = .ok (i, false) := by
  induction turns generalizing idx tombstone with
  | zero => cases h
  | succ turns ih =>
    rw [findSlotLoop] at h
    rw [prepareLoop]
    cases hslot : slotAt slots idx with
    | empty =>
      rw [hslot] at h
      cases h
    | deleted =>
      rw [hslot] at h
      exact ih _ h
    | occupied k v =>
      rw [hslot] at h
      dsimp only at h ⊢
      split at h
      case isTrue hkey =>
        rw [if_pos hkey]
        cases h
        rfl
      case isFalse hkey =>
        rw [if_neg hkey]
        exact ih _ h

omit [BEq K] in
theorem growthTest_of_not_rebuilds {mem : Memory} {m : UnorderedMap K V} (h : ¬ m.Rebuilds) :
    growthTest mem m = .ok m := if_neg h

theorem findOrPrepareInsert_of_loop {mem : Memory} {m grown : UnorderedMap K V} {key : K}
    {slot : Nat × Bool} (hgrow : growthTest mem m = .ok grown)
    (hloop : prepareLoop grown.slots key grown.bucketCount (bucketFor grown.bucketCount key) none =
      .ok slot) : findOrPrepareInsert mem m key = .ok (grown, slot) :=
  bind_eq_ok.mpr ⟨grown, hgrow, bind_eq_ok.mpr ⟨slot, hloop, rfl⟩⟩

theorem Insertion.run_eq_ok [Inhabited V] {mem : Memory} {m m' : UnorderedMap K V} {key : K}
    {call : Insertion V} {idx : Nat} : call.run mem m key = .ok (m', idx) ↔
      ∃ fresh, insertSlot mem m key call.value = .ok (m', idx, fresh) := by
  have hbody : call.run mem m key = (do
      let (m, idx, _) ← insertSlot mem m key call.value
      .ok (m, idx)) := by
    cases call with
    | insert val => rfl
    | emplace val => rfl
    | subscript => rfl
  rw [hbody]
  constructor
  · intro h
    obtain ⟨⟨m₁, i, fresh⟩, hrun, hret⟩ := bind_eq_ok.mp h
    cases hret
    exact ⟨fresh, hrun⟩
  · rintro ⟨fresh, hrun⟩
    exact bind_eq_ok.mpr ⟨(m', idx, fresh), hrun, rfl⟩

/-- For every key that the map has, under any counters. -/
theorem leavesAlone_iff_not_rebuilds [Inhabited V] (mem : Memory) (m : UnorderedMap K V) (key : K)
    (hkey : m.contains key = true) (call : Insertion V) :
    LeavesAlone mem m key call ↔ ¬ m.Rebuilds := by
  obtain ⟨idx, hfind⟩ := Option.isSome_iff_exists.mp hkey
  constructor
  · rintro ⟨i, -, hrun⟩ hrebuilds
    obtain ⟨fresh, hinsert⟩ := Insertion.run_eq_ok.mp hrun
    obtain ⟨m₁, hgrow, hcount, -⟩ := insertSlot_keeps hinsert
    obtain ⟨-, hpos, hroom⟩ | ⟨hlt, -⟩ := growthTest_cases hgrow
    · exact hrebuilds.elim hpos (Nat.not_lt_of_le hroom)
    · omega
  · intro hstays
    refine ⟨idx, hfind, Insertion.run_eq_ok.mpr ⟨false, ?_⟩⟩
    have hpos : m.bucketCount ≠ 0 := fun hzero => hstays (.inl hzero)
    rw [findSlot, if_neg hpos] at hfind
    rw [insertSlot, findOrPrepareInsert_of_loop (growthTest_of_not_rebuilds hstays)
      (prepareLoop_of_findSlotLoop none hfind)]
    rfl

end Present

section Growth

variable [Hashable K] {mem : Memory} {m : UnorderedMap K V}

section

omit [Hashable K]

theorem growCount_eq (m : UnorderedMap K V) : growCount m.bucketCount 0 =
    if m.newCount ≤ memSizeMax then .ok m.newCount else .error .fatal := by
  rw [growCount, if_neg (Nat.lt_irrefl 0), newCount]
  split
  case isTrue => rfl
  case isFalse =>
    rw [checkedCountProduct]
    split
    case isTrue hle => exact checkedAllocationSize_of_le hle
    case isFalse hlt => exact checkedAllocationSize_of_lt (Nat.lt_of_not_le hlt)

theorem allocSlots_eq (mem : Memory) (count : Nat) : allocSlots mem count =
      if count * mem.slotSize ≤ memSizeMax ∧ mem.allocates (count * mem.slotSize) = true then
        .ok (List.replicate count (.empty : Slot K V)) else .error .fatal := by
  rw [allocSlots]
  by_cases hle : count * mem.slotSize ≤ memSizeMax
  · rw [checkedAllocationSize_of_le hle]
    by_cases hallocates : mem.allocates (count * mem.slotSize) = true
    · rw [if_pos ⟨hle, hallocates⟩]
      exact if_pos hallocates
    · rw [if_neg fun hboth => hallocates hboth.2]
      exact if_neg hallocates
  · rw [if_neg fun hboth => hle hboth.1, checkedAllocationSize_of_lt (Nat.lt_of_not_le hle)]
    rfl

end

theorem growAndRehash_of_noTable (h : NoTable mem m) : growAndRehash mem m 0 = .error .fatal := by
  rw [growAndRehash, growCount_eq]
  by_cases hle : m.newCount ≤ memSizeMax
  · rw [if_pos hle]
    change (allocSlots mem m.newCount >>= _) = _
    rw [allocSlots_eq, if_neg fun hboth => h ⟨hle, hboth⟩]
    rfl
  · rw [if_neg hle]
    rfl

theorem growAndRehash_of_table (hsized : Sized m.bucketCount) (h : ¬ NoTable mem m) :
    ∃ m', growAndRehash mem m 0 = .ok m' ∧ Relocated m m' := by
  obtain ⟨hle, hallocates⟩ := not_not.mp h
  have hcount : growCount m.bucketCount 0 = .ok m.newCount := by rw [growCount_eq, if_pos hle]
  obtain ⟨-, hdouble, k, -, hk, hpow⟩ := (growCount_safe hsized (.inl rfl)).of_eq_ok hcount
  have hroom : occupiedCount m.slots ≤ m.newCount := by
    have hlength : occupiedCount m.slots ≤ m.bucketCount := occupiedCount_le_length m.slots
    omega
  obtain ⟨table, hrun, -⟩ := relocate_fresh m.slots hpow hk hroom
  have hgrow : growAndRehash mem m 0 = .ok { m with slots := table, tombstoneCount := 0 } := by
    rw [growAndRehash, hcount]
    change (allocSlots mem m.newCount >>= _) = _
    rw [allocSlots_eq, if_pos hallocates]
    change (relocate _ _ _ >>= _) = _
    rw [hrun]
    rfl
  exact ⟨_, hgrow, ((growAndRehash_relocated mem hsized (.inl rfl)).of_eq_ok hgrow).1⟩

end Growth

section References

variable [BEq K] [Hashable K] {mem : Memory} {m grown : UnorderedMap K V} {a : FiniteMap K V}
  {key : Ref K} {val : Ref V} {k : K} {v : V} {α : Type}

section

omit [BEq K] [Hashable K]

theorem look_of_designates {part : K × V → α} {r : Ref α} {b : α} (h : r.Designates m part b) :
    look false m part r = .ok b := by
  cases r with
  | object c => exact congrArg Except.ok h
  | slot idx =>
    obtain ⟨pair, hpair, hb⟩ := Option.map_eq_some_iff.mp h
    rw [look, if_neg Bool.false_ne_true, hpair, ← hb]

theorem look_outside {rebuilt : Bool} {part : K × V → α} {r : Ref α} {b : α}
    (h : r.Designates m part b) (hr : r.Outside) : look rebuilt grown part r = .ok b := by
  cases r with
  | object c => exact congrArg Except.ok h
  | slot idx => exact hr.elim

theorem look_inside {part : K × V → α} {r : Ref α} (hr : ¬ r.Outside) :
    look true grown part r = .error .dangling := by
  cases r with
  | object c => exact absurd trivial hr
  | slot idx => rfl

theorem checked_ne_dangling {β : Type} (x : Outcome β) : checked x ≠ .error .dangling := by
  cases x with
  | ok b => exact fun h => by cases h
  | error how => exact fun h => by cases h

end

theorem insertSlotRef_of_look (hgrow : growthTest mem m = .ok grown)
    (hkey : look m.Rebuilds grown fst key = .ok k)
    (hval : ∀ idx, prepareLoop grown.slots k grown.bucketCount (bucketFor grown.bucketCount k)
      none = .ok (idx, true) → look m.Rebuilds grown snd val = .ok v) :
    insertSlotRef mem m key val = checked (insertSlot mem m k v) := by
  have hprepare : findOrPrepareInsert mem m k = (do
      let slot ←
        prepareLoop grown.slots k grown.bucketCount (bucketFor grown.bucketCount k) none
      .ok (grown, slot)) := by
    rw [findOrPrepareInsert, hgrow]
    rfl
  rw [insertSlotRef, insertSlot, hprepare, hgrow]
  simp only [checked, bind, Except.bind, hkey]
  cases hloop : prepareLoop grown.slots k grown.bucketCount (bucketFor grown.bucketCount k)
    none with
  | error how => rfl
  | ok slot =>
    obtain ⟨idx, fresh⟩ := slot
    cases fresh with
    | false => rfl
    | true => simp only [hval idx hloop, if_true]

theorem insertSlotRef_of_not_rebuilds (h : ¬ m.Rebuilds) (hkey : key.Designates m fst k)
    (hval : val.Designates m snd v) :
    insertSlotRef mem m key val = checked (insertSlot mem m k v) := by
  have hstays : decide m.Rebuilds = false := decide_eq_false h
  refine insertSlotRef_of_look (growthTest_of_not_rebuilds h) ?_ fun _ _ => ?_
  · rw [hstays]
    exact look_of_designates hkey
  · rw [hstays]
    exact look_of_designates hval

theorem insertSlotRef_of_noTable (h : m.Rebuilds) (hno : NoTable mem m) :
    insertSlotRef mem m key val = checked (insertSlot mem m k v) := by
  have hgrow : growthTest mem m = .error .fatal := (if_pos h).trans (growAndRehash_of_noTable hno)
  rw [insertSlotRef, insertSlot, findOrPrepareInsert, hgrow]
  rfl

variable [EquivBEq K] [LawfulHashable K]

theorem Stores.insertSlot_rebuilt (h : Stores m a) (hgrow : UnorderedMap.growthTest mem m = .ok grown)
    (hre : Relocated m grown) (k : K) (v : V) :
    ∃ idx, prepareLoop grown.slots k grown.bucketCount (bucketFor grown.bucketCount k) none =
      .ok (idx, !m.contains k) := by
  obtain ⟨n, -, -, hpow⟩ := hre.buckets
  have hlength : ∃ n, grown.slots.length = 2 ^ n := ⟨n, hpow⟩
  have hdoubled := hre.doubled
  have hsixteen := hre.sixteen
  have hcount := occupiedCount_eq_of_perm hre.entries
  have hle : occupiedCount m.slots ≤ m.bucketCount := occupiedCount_le_length m.slots
  have hclean := hre.clean
  have hempty : ∃ i < grown.slots.length, slotAt grown.slots i = .empty := by
    refine exists_empty ?_
    change _ < grown.bucketCount
    omega
  obtain ⟨d, -, fresh, hloop, -⟩ :=
    prepareLoop_ends hlength k (bucketFor_lt hlength k) hempty
  refine ⟨_, hloop.trans (congrArg Except.ok (Prod.ext rfl ?_))⟩
  have hinsert : ∃ m' idx, UnorderedMap.insertSlot mem m k v = .ok (m', idx, fresh) := by
    rw [UnorderedMap.insertSlot, findOrPrepareInsert_of_loop hgrow hloop]
    cases fresh with
    | false => exact ⟨_, _, rfl⟩
    | true => exact ⟨_, _, rfl⟩
  obtain ⟨m', idx, hrun⟩ := hinsert
  obtain ⟨-, -, hfresh⟩ := h.insertSlot hrun
  rw [hfresh, h.contains k]
  cases a.lookup k with
  | none => rfl
  | some u => rfl

theorem Stores.insertSlotRef_iff (h : Stores m a) (mem : Memory)
    (hkey : key.Designates m fst k) (hval : val.Designates m snd v) :
    insertSlotRef mem m key val = checked (UnorderedMap.insertSlot mem m k v) ↔ Clear mem m key val k := by
  by_cases hrebuilds : m.Rebuilds
  case neg =>
    exact iff_of_true (insertSlotRef_of_not_rebuilds hrebuilds hkey hval) (.inl hrebuilds)
  by_cases hno : NoTable mem m
  case pos => exact iff_of_true (insertSlotRef_of_noTable hrebuilds hno) (.inr (.inl hno))
  have hrebuilt : decide m.Rebuilds = true := decide_eq_true hrebuilds
  obtain ⟨grown, hrun, hre⟩ := growAndRehash_of_table h.sized hno
  have hgrow : UnorderedMap.growthTest mem m = .ok grown := (if_pos hrebuilds).trans hrun
  obtain ⟨idx, hloop⟩ := h.insertSlot_rebuilt hgrow hre k v
  have hclear : Clear mem m key val k ↔ key.Outside ∧ (val.Outside ∨ m.contains k = true) := by
    rw [Clear, or_iff_right (not_not.mpr hrebuilds), or_iff_right hno]
  rw [hclear]
  by_cases hkeyOut : key.Outside
  case neg =>
    have hdangling : insertSlotRef mem m key val = .error .dangling := by
      rw [insertSlotRef, hgrow]
      change (look m.Rebuilds grown fst key >>= _) = _
      rw [hrebuilt, look_inside hkeyOut]
      rfl
    exact iff_of_false (fun heq => checked_ne_dangling _ (heq.symm.trans hdangling))
      fun hboth => hkeyOut hboth.1
  have hlook : look m.Rebuilds grown fst key = .ok k := look_outside hkey hkeyOut
  by_cases hread : val.Outside ∨ m.contains k = true
  case pos =>
    refine iff_of_true (insertSlotRef_of_look hgrow hlook fun i hi => ?_) ⟨hkeyOut, hread⟩
    obtain hvalOut | hcontains := hread
    · exact look_outside hval hvalOut
    · rw [hloop, hcontains] at hi
      cases hi
  case neg =>
    obtain ⟨hvalIn, habsent⟩ := not_or.mp hread
    rw [Bool.eq_false_of_not_eq_true habsent] at hloop
    have hdangling : insertSlotRef mem m key val = .error .dangling := by
      rw [insertSlotRef, hgrow]
      change (look m.Rebuilds grown fst key >>= _) = _
      rw [hlook]
      change (checked (prepareLoop _ k _ _ none) >>= _) = _
      rw [hloop]
      rw [hrebuilt, look_inside hvalIn]
      rfl
    exact iff_of_false (fun heq => checked_ne_dangling _ (heq.symm.trans hdangling))
      fun hboth => hread hboth.2

end References

section Runs

variable {ι : Type} [BEq K] [Hashable K]

/-- The pairs of the map are those of a finite map, each where probing finds it. -/
def Stored (m : UnorderedMap K V) : Prop := ∃ a, Stores m a

theorem stored_empty : Stored ({} : UnorderedMap K V) := ⟨_, stores_empty⟩

theorem Stored.copy {mem : Memory} {m m' : UnorderedMap K V} (h : Stored m)
    (hrun : UnorderedMap.copy mem m = .ok m') : Stored m' := by
  obtain ⟨a, ha⟩ := h
  unfold UnorderedMap.copy at hrun
  split at hrun
  case isFalse =>
    cases hrun
    exact stored_empty
  case isTrue =>
    obtain ⟨slots, hslots, hrest⟩ := bind_eq_ok.mp hrun
    obtain ⟨⟨table, placed⟩, hrelocate, hret⟩ := bind_eq_ok.mp hrest
    cases hret
    obtain rfl := (allocSlots_safe mem m.bucketCount).of_eq_ok hslots
    obtain hzero | ⟨k, hk, hk', hcount⟩ := ha.sized
    · have hnil : m.slots = [] := List.length_eq_zero_iff.mp hzero
      rw [hnil, hzero] at hrelocate
      cases hrelocate
      exact ⟨_, stores_empty.sized, stores_empty.chained, stores_empty.entries⟩
    · obtain ⟨table', hrun', hlength, -, hperm, hchain⟩ :=
        relocate_fresh m.slots hcount hk' (occupiedCount_le_length m.slots)
      rw [hrun'] at hrelocate
      cases hrelocate
      exact ⟨a, .inr ⟨k, hk, hk', hlength.trans hcount⟩, hchain, hperm.trans ha.entries⟩

variable [EquivBEq K] [LawfulHashable K]

theorem Stored.insertSlot {mem : Memory} {m m' : UnorderedMap K V} {key : K} {val : V}
    {r : Nat × Bool} (h : Stored m) (hrun : UnorderedMap.insertSlot mem m key val = .ok (m', r)) :
    Stored m' := by
  obtain ⟨a, ha⟩ := h
  exact ⟨_, (ha.insertSlot hrun).1⟩

theorem Stored.insertAll {mem : Memory} {m m' : UnorderedMap K V} {entries : List (K × V)}
    (h : Stored m) (hrun : UnorderedMap.insertAll mem m entries = .ok m') : Stored m' := by
  induction entries generalizing m with
  | nil =>
    cases hrun
    exact h
  | cons entry rest ih =>
    obtain ⟨⟨m₁, r⟩, hinsert, hrest⟩ := bind_eq_ok.mp hrun
    exact ih (h.insertSlot hinsert) hrest

theorem stored_ofList {mem : Memory} {entries : List (K × V)} {m : UnorderedMap K V}
    (hrun : ofList mem entries = .ok m) : Stored m := by
  obtain ⟨m₁, hreserve, hrest⟩ := bind_eq_ok.mp hrun
  exact Stored.insertAll ⟨_, stores_empty.reserve hreserve⟩ hrest

omit [EquivBEq K] [LawfulHashable K] in
theorem stored_update [DecidableEq ι] {w : World ι K V} (hw : ∀ x, Stored (w x)) (x : ι)
    {m : UnorderedMap K V} (hm : Stored m) (y : ι) : Stored (Function.update w x m y) := by
  by_cases hy : y = x
  · rw [hy, Function.update_self]
    exact hm
  · rw [Function.update_of_ne hy]
    exact hw y

theorem stored_insertInto [DecidableEq ι] {w w' : World ι K V} {mem : Memory} {x : ι} {key : K}
    {val : V} {r : Reply V} (hw : ∀ x, Stored (w x))
    (hrun : insertInto w x (insertSlot mem (w x) key val) = .ok (w', r)) (y : ι) :
    Stored (w' y) := by
  obtain ⟨⟨m, idx, fresh⟩, hinsert, hret⟩ := bind_eq_ok.mp hrun
  cases hret
  exact stored_update hw x ((hw x).insertSlot hinsert) y

variable [DecidableEq ι] [Inhabited V]

theorem stored_exec {w w' : World ι K V} {call : Memory × Call ι K V} {r : Reply V}
    (hw : ∀ x, Stored (w x)) (hrun : exec w call = .ok (w', r)) (y : ι) : Stored (w' y) := by
  obtain ⟨mem, call⟩ := call
  cases call with
  | construct x =>
    cases hrun
    exact stored_update hw x stored_empty y
  | constructList x entries =>
    obtain ⟨m, hlist, hret⟩ := bind_eq_ok.mp hrun
    cases hret
    exact stored_update hw x (stored_ofList hlist) y
  | copyConstruct x z =>
    obtain ⟨m, hcopy, hret⟩ := bind_eq_ok.mp hrun
    cases hret
    exact stored_update hw x ((hw z).copy hcopy) y
  | moveConstruct x z =>
    cases hrun
    exact stored_update (stored_update hw x (hw z)) z stored_empty y
  | copyAssign x z =>
    simp only [exec] at hrun
    split at hrun
    case isTrue =>
      cases hrun
      exact hw y
    case isFalse =>
      obtain ⟨m, hcopy, hret⟩ := bind_eq_ok.mp hrun
      cases hret
      exact stored_update hw x ((hw z).copy hcopy) y
  | moveAssign x z =>
    simp only [exec] at hrun
    split at hrun
    case isTrue =>
      cases hrun
      exact hw y
    case isFalse =>
      cases hrun
      exact stored_update (stored_update hw x (hw z)) z stored_empty y
  | subscript x key =>
    obtain ⟨⟨m, idx⟩, hsubscript, hret⟩ := bind_eq_ok.mp hrun
    obtain ⟨⟨m₁, i, fresh⟩, hinsert, hret'⟩ := bind_eq_ok.mp hsubscript
    cases hret
    cases hret'
    exact stored_update hw x ((hw x).insertSlot hinsert) y
  | subscriptStore x key val =>
    obtain ⟨⟨m, idx⟩, hsubscript, hret⟩ := bind_eq_ok.mp hrun
    obtain ⟨⟨m₁, i, fresh⟩, hinsert, hret'⟩ := bind_eq_ok.mp hsubscript
    cases hret
    cases hret'
    obtain ⟨a, ha⟩ := hw x
    obtain ⟨hstores, ⟨k, v, hkey, hslot, -⟩, -⟩ := ha.insertSlot hinsert
    exact stored_update hw x ⟨_, hstores.storeAt hslot hkey val⟩ y
  | find x key =>
    cases hrun
    exact hw y
  | contains x key =>
    cases hrun
    exact hw y
  | insert x key val => exact stored_insertInto hw hrun y
  | emplace x key val => exact stored_insertInto hw hrun y
  | tryEmplace x key val => exact stored_insertInto hw hrun y
  | erase x key =>
    cases hrun
    obtain ⟨a, ha⟩ := hw x
    exact stored_update hw x ⟨_, (ha.erase key).2⟩ y
  | clear x =>
    cases hrun
    obtain ⟨a, ha⟩ := hw x
    exact stored_update hw x ⟨_, ha.clear⟩ y
  | reserve x count =>
    obtain ⟨m, hreserve, hret⟩ := bind_eq_ok.mp hrun
    cases hret
    obtain ⟨a, ha⟩ := hw x
    exact stored_update hw x ⟨_, ha.reserve hreserve⟩ y

theorem stored_run {calls : List (Memory × Call ι K V)} {w : World ι K V}
    {replies : List (Reply V)} (hrun : run initial calls = .ok (w, replies)) (x : ι) :
    Stored (w x) := by
  have hguard : Calls.Guarded exec (fun _ _ => True) (initial : World ι K V) calls :=
    Calls.guarded_of_forall (fun _ _ _ => trivial) initial
  refine Calls.run_invariant (fun w => ∀ x, Stored (w x)) ?_ (fun _ => stored_empty) hguard hrun x
  intro w call w' r hw _ hexec
  exact stored_exec hw hexec

/-- In every state that calls lead to, for every key and value and every place that they may be
read from. -/
theorem entry_likeCopy_iff_clear (calls : List (Memory × Call ι K V)) {w : World ι K V}
    {replies : List (Reply V)} (hrun : run initial calls = .ok (w, replies)) (x : ι) (mem : Memory)
    {key : Ref K} {val : Ref V} {k : K} {v : V} (hkey : key.Designates (w x) Prod.fst k)
    (hval : val.Designates (w x) Prod.snd v) (entry : Entry) :
    entry.LikeCopy mem (w x) key val k v ↔ Clear mem (w x) key val k := by
  obtain ⟨a, ha⟩ := stored_run hrun x
  cases entry with
  | insert => exact ha.insertSlotRef_iff mem hkey hval
  | emplace => exact ha.insertSlotRef_iff mem hkey hval

end Runs

section Examples

def twelve : List (Memory × Call Unit Nat Nat) :=
  (List.range 12).map fun key => onTable (.insert () key (key + 100))

theorem exists_twelve (test : UnorderedMap Nat Nat → Bool)
    (h : (run initial twelve).toOption.any (fun r => test (r.1 ())) = true) :
    ∃ w replies, run initial twelve = .ok (w, replies) ∧ test (w ()) = true := by
  cases hrun : run initial twelve with
  | error stop =>
    rw [hrun] at h
    cases h
  | ok r =>
    rw [hrun] at h
    exact ⟨r.1, r.2, rfl, h⟩

theorem leavesAlone_iff_not_rebuilds_twelve : ∃ w replies, run initial twelve = .ok (w, replies) ∧
      ∀ call, LeavesAlone ample (w ()) 3 call ↔ ¬ (w ()).Rebuilds := by
  obtain ⟨w, replies, hrun, hkey⟩ := exists_twelve (·.contains 3) (by decide +kernel)
  exact ⟨w, replies, hrun, leavesAlone_iff_not_rebuilds ample (w ()) 3 hkey⟩

/-- The thirteenth pair would cross the load limit, and so does a key that is there. -/
theorem not_leavesAlone_twelve : ¬ ∀ (calls : List (Memory × Call Unit Nat Nat))
    (w : World Unit Nat Nat) (replies : List (Reply Nat)), run initial calls = .ok (w, replies) →
      ∀ mem key, (w ()).contains key = true → ∀ call, LeavesAlone mem (w ()) key call := by
  intro h
  obtain ⟨w, replies, hrun, htest⟩ := exists_twelve (fun m => m.contains 3 &&
    (Insertion.run ample m 3 .subscript).toOption.all fun r => r.1.bucketCount != m.bucketCount)
    (by decide +kernel)
  obtain ⟨hkey, hmoved⟩ := (Bool.and_eq_true _ _).mp htest
  obtain ⟨idx, -, hsame⟩ := h twelve w replies hrun ample 3 hkey .subscript
  rw [hsame] at hmoved
  exact absurd rfl (bne_iff_ne.mp hmoved)

theorem entry_likeCopy_iff_clear_twelve : ∃ w replies, run initial twelve = .ok (w, replies) ∧
      ∀ entry : Entry, entry.LikeCopy ample (w ()) (.object 100) (.slot 3) 100 103 ↔
        Clear ample (w ()) (.object 100) (.slot 3) 100 := by
  obtain ⟨w, replies, hrun, hval⟩ :=
    exists_twelve (fun m => (slotAt m.slots 3).pair.map snd == some 103) (by decide +kernel)
  exact ⟨w, replies, hrun,
    entry_likeCopy_iff_clear twelve hrun () ample rfl (beq_iff_eq.mp hval)⟩

/-- A value of the table that the thirteenth pair leaves behind. -/
theorem not_likeCopy_twelve : ¬ ∀ (calls : List (Memory × Call Unit Nat Nat))
    (w : World Unit Nat Nat) (replies : List (Reply Nat)), run initial calls = .ok (w, replies) →
      ∀ mem key val k v, Ref.Designates (w ()) Prod.fst key k →
        Ref.Designates (w ()) Prod.snd val v →
          ∀ entry : Entry, entry.LikeCopy mem (w ()) key val k v := by
  intro h
  obtain ⟨w, replies, hrun, htest⟩ := exists_twelve (fun m =>
    (slotAt m.slots 3).pair.map snd == some 103 &&
      ((insertRef ample m (.object 100) (.slot 3)).toOption.isNone &&
        (checked (insert ample m 100 103)).toOption.isSome)) (by decide +kernel)
  obtain ⟨hval, htest⟩ := (Bool.and_eq_true _ _).mp htest
  obtain ⟨hstops, hreturns⟩ := (Bool.and_eq_true _ _).mp htest
  have hlike : insertRef ample (w ()) (.object 100) (.slot 3) =
      checked (insert ample (w ()) 100 103) :=
    h twelve w replies hrun ample (.object 100) (.slot 3) 100 103 rfl (beq_iff_eq.mp hval) .insert
  rw [hlike] at hstops
  exact absurd (Option.isNone_iff_eq_none.mp hstops) (Option.isSome_iff_ne_none.mp hreturns)

end Examples

end Equilibrium.UnorderedMap
