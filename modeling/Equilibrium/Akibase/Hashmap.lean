import Mathlib.Algebra.Group.Int.Defs
import Mathlib.Algebra.Group.Nat.Defs
import Mathlib.Tactic.Common

/-! `Map<V>` of `akibase/containers/hashmap.aki`: string keys hashed by FNV-1a, linear
probing over a power of two of 32 byte slots, removed slots marked. A slot is the four words
that it holds, with the string that its third word points to. -/

namespace Equilibrium.Hashmap

/-- Ways to leave the paths on which the operations are defined. -/
inductive Stop where
  | outOfBounds
  | overflow
  | hang
  deriving DecidableEq, Repr

structure Str where
  bytes : List UInt8
  deriving DecidableEq, Repr

def hmFnv (key : Str) : Int64 :=
  let h := key.bytes.foldl (fun h c => (h ^^^ Int64.ofNat c.toNat) * 1099511628211)
    (Int64.ofNat 14695981039346656037)
  if h < 0 then 0 - h else h

/-- How values go into a word and come back: `value as i64` and `word as V`. -/
structure Casts (V : Type) where
  asI64 : V → Int64
  ofI64 : Int64 → V
  ofI64_asI64 : ∀ value, ofI64 (asI64 value) = value

structure Slot where
  state : Int64 := 0
  hash : Int64 := 0
  key : Str := ⟨[]⟩
  value : Int64 := 0
  deriving DecidableEq, Repr

structure Map where
  buf : List Slot
  cap : ℕ
  count : ℕ
  deriving DecidableEq, Repr

/-- A number as an `i32`. -/
def i32 (n : ℕ) : Except Stop ℕ := if n < 2 ^ 31 then .ok n else .error .overflow

/-- The loop of the constructor, with a bound on its rounds. -/
def capLoop (initial : ℤ) : ℕ → ℕ → Except Stop ℕ
  | 0, _ => .error .hang
  | rounds + 1, c =>
    if c < initial then
      match i32 (c * 2) with
      | .error stop => .error stop
      | .ok c => capLoop initial rounds c
    else .ok c

/-- The constructor -/
def Map.new (initial : ℤ) : Except Stop Map :=
  match capLoop initial 32 16 with
  | .error stop => .error stop
  | .ok c => .ok ⟨List.replicate c {}, c, 0⟩

/-- `(hash % cap as i64) as i32` -/
def home (hash : Int64) (cap : ℕ) : ℤ := hash.toInt.tmod cap

def slotAt (buf : List Slot) (idx : ℤ) : Except Stop Slot :=
  if 0 ≤ idx then
    match buf[idx.toNat]? with
    | some slot => .ok slot
    | none => .error .outOfBounds
  else .error .outOfBounds

/-- The loop that all operations share: at most so many slots from an index on, up to the
first that ends the search. -/
def probe {β : Type} (buf : List Slot) (cap : ℕ) (test : Slot → Option β) :
    ℕ → ℤ → Except Stop (Option (ℕ × β))
  | 0, _ => .ok none
  | rounds + 1, idx =>
    match slotAt buf idx with
    | .error stop => .error stop
    | .ok slot =>
      match test slot with
      | some found => .ok (some (idx.toNat, found))
      | none => probe buf cap test rounds ((idx.toNat + 1) &&& (cap - 1) : ℕ)

def Slot.holds (slot : Slot) (hash : Int64) (key : Str) : Bool :=
  slot.state == 1 && slot.hash == hash && slot.key == key

/-- How `put` goes through the slots: it stops at one without a pair, or at the key's. -/
def putTest (hash : Int64) (key : Str) (slot : Slot) : Option Bool :=
  if slot.state == 0 || slot.state == 2 then some false
  else if slot.holds hash key then some true
  else none

/-- How `get`, `contains` and `remove` go through the slots. -/
def findTest (hash : Int64) (key : Str) (slot : Slot) : Option Bool :=
  if slot.state == 0 then some false
  else if slot.holds hash key then some true
  else none

/-- How `grow` goes through the new slots. -/
def growTest (slot : Slot) : Option Unit := if slot.state == 0 then some () else none

namespace Map

/-- The loop of `grow` over the old slots, with the new buffer and the new count. -/
def growLoop (newCap : ℕ) (buf : List Slot) (count : ℕ) :
    List Slot → Except Stop (List Slot × ℕ)
  | [] => .ok (buf, count)
  | src :: rest =>
    if src.state == 1 then
      match probe buf newCap growTest newCap (home src.hash newCap) with
      | .error stop => .error stop
      | .ok (some (idx, ())) =>
        growLoop newCap (buf.set idx ⟨1, src.hash, src.key, src.value⟩) (count + 1) rest
      | .ok none => growLoop newCap buf count rest
    else growLoop newCap buf count rest

def grow (m : Map) : Except Stop Map :=
  match i32 (m.cap * 2) with
  | .error stop => .error stop
  | .ok newCap =>
    match growLoop newCap (List.replicate newCap {}) 0 m.buf with
    | .error stop => .error stop
    | .ok (buf, count) => .ok ⟨buf, newCap, count⟩

/-- The load test at the head of `put`. -/
def isFull (m : Map) : Except Stop Bool :=
  match i32 (m.count * 4), i32 (m.cap * 3) with
  | .ok used, .ok limit => .ok (decide (limit ≤ used))
  | _, _ => .error .overflow

def growIfFull (m : Map) : Except Stop Map :=
  match m.isFull with
  | .error stop => .error stop
  | .ok full => if full then m.grow else .ok m

variable {V : Type}

def put (casts : Casts V) (m : Map) (key : Str) (value : V) : Except Stop Map :=
  match m.growIfFull with
  | .error stop => .error stop
  | .ok m =>
    let hash := hmFnv key
    match probe m.buf m.cap (putTest hash key) m.cap (home hash m.cap) with
    | .error stop => .error stop
    | .ok (some (idx, false)) =>
      .ok ⟨m.buf.set idx ⟨1, hash, key, casts.asI64 value⟩, m.cap, m.count + 1⟩
    | .ok (some (idx, true)) =>
      .ok ⟨m.buf.modify idx fun slot => { slot with value := casts.asI64 value }, m.cap, m.count⟩
    | .ok none => .ok m

/-- The index of the slot that `get`, `contains` and `remove` find. -/
def find (m : Map) (key : Str) : Except Stop (Option ℕ) :=
  match probe m.buf m.cap (findTest (hmFnv key) key) m.cap (home (hmFnv key) m.cap) with
  | .error stop => .error stop
  | .ok (some (idx, true)) => .ok (some idx)
  | .ok _ => .ok none

def get (casts : Casts V) (m : Map) (key : Str) : Except Stop V :=
  match m.find key with
  | .error stop => .error stop
  | .ok (some idx) =>
    match slotAt m.buf idx with
    | .error stop => .error stop
    | .ok slot => .ok (casts.ofI64 slot.value)
  | .ok none => .ok (casts.ofI64 0)

def contains (m : Map) (key : Str) : Except Stop Bool :=
  match m.find key with
  | .error stop => .error stop
  | .ok found => .ok found.isSome

def getOr (casts : Casts V) (m : Map) (key : Str) (fallback : V) : Except Stop V :=
  match m.contains key with
  | .error stop => .error stop
  | .ok true => m.get casts key
  | .ok false => .ok fallback

def remove (m : Map) (key : Str) : Except Stop (Map × Bool) :=
  match m.find key with
  | .error stop => .error stop
  | .ok (some idx) =>
    .ok (⟨m.buf.modify idx fun slot => { slot with state := 2 }, m.cap, m.count - 1⟩, true)
  | .ok none => .ok (m, false)

def clear (m : Map) : Map := ⟨List.replicate m.cap {}, m.cap, 0⟩

def len (m : Map) : ℕ := m.count

def isEmpty (m : Map) : Bool := m.count == 0

end Map

/-! Calls on a map and their replies. -/

inductive Call (V : Type) where
  | put (key : Str) (value : V)
  | get (key : Str)
  | getOr (key : Str) (fallback : V)
  | contains (key : Str)
  | remove (key : Str)
  | clear
  | len
  | isEmpty
  deriving DecidableEq, Repr

inductive Reply (V : Type) where
  | done
  | value (v : V)
  | flag (b : Bool)
  | number (n : ℕ)
  deriving DecidableEq, Repr

variable {V : Type}

def exec (casts : Casts V) (m : Map) : Call V → Except Stop (Map × Reply V)
  | .put key value => (m.put casts key value).map fun m => (m, .done)
  | .get key => (m.get casts key).map fun v => (m, .value v)
  | .getOr key fallback => (m.getOr casts key fallback).map fun v => (m, .value v)
  | .contains key => (m.contains key).map fun b => (m, .flag b)
  | .remove key => (m.remove key).map fun r => (r.1, .flag r.2)
  | .clear => .ok (m.clear, .done)
  | .len => .ok (m, .number m.len)
  | .isEmpty => .ok (m, .flag m.isEmpty)

end Equilibrium.Hashmap
