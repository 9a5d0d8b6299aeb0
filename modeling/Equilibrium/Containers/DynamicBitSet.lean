import Equilibrium.Library.Calls
import Equilibrium.Library.WordBits

/-! `DynamicBitSet` of `base/containers/bitsets/dynamic_bitset.h`, against vectors of bits. -/

namespace Equilibrium

open Library.WordBits

structure DynamicBitSet where
  vector : List (BitVec 64)
  bitCount : ℕ
  lastMask : BitVec 64
  deriving DecidableEq, Repr

namespace DynamicBitSet

/-- How a call ends without returning: the allocator gives no block, or a word outside the
storage is accessed. -/
inductive Fault where
  | fatal
  | outOfBounds
  deriving DecidableEq, Repr

def load (v : List (BitVec 64)) (i : ℕ) : Except Fault (BitVec 64) :=
  if i < v.length then .ok (wordAt v i) else .error .outOfBounds

def store (v : List (BitVec 64)) (i : ℕ) (word : BitVec 64) : Except Fault (List (BitVec 64)) :=
  if i < v.length then .ok (v.set i word) else .error .outOfBounds

def reserveCount (bitCount : ℕ) : ℕ :=
  if bitCount = 0 then 1 else (bitCount + 63) % 2 ^ 64 / 64

/-- `SetLastMask`. -/
def maskOf (bitCount : ℕ) : BitVec 64 :=
  ~~~(~~~1#64 <<< ((bitCount + (2 ^ 64 - 1)) % 2 ^ 64 % 64))

/-- The constructor; `granted` tells whether the allocator gives the words. -/
def construct (granted : Bool) (val : BitVec 64) (bitCount : ℕ) : Except Fault DynamicBitSet := do
  let count := reserveCount bitCount
  if granted = false ∧ 0 < count then .error .fatal
  let vector := List.replicate count (0 : BitVec 64)
  let kNeedsMask := bitCount < 64
  let kMask := (1#64 <<< (if kNeedsMask then bitCount else 0)) - 1#64
  let vector ← store vector 0 (if kNeedsMask then val &&& kMask else val)
  .ok { vector := vector, bitCount := bitCount, lastMask := maskOf bitCount }

variable (d : DynamicBitSet)

def storageSize : ℕ := d.vector.length

def wordCount : ℕ := (d.bitCount + 63) % 2 ^ 64 / 64

def countSetBits : ℕ := count d.vector

def setAll : Except Fault DynamicBitSet :=
  if d.storageSize = 0 then .error .outOfBounds
  else .ok { d with
    vector := List.replicate (d.storageSize - 1) (BitVec.allOnes 64) ++ [d.lastMask] }

def reset (pos : ℕ) : Except Fault DynamicBitSet := do
  if 64 < d.bitCount then
    let chunk := pos / 64
    let shift := pos % 64
    let word ← load d.vector chunk
    if chunk = d.wordCount - 1 then
      .ok { d with vector := d.vector.set chunk (word &&& (~~~(1#64 <<< shift) &&& d.lastMask)) }
    else .ok { d with vector := d.vector.set chunk (word &&& ~~~(1#64 <<< shift)) }
  else
    let word ← load d.vector 0
    .ok { d with vector := d.vector.set 0 (word &&& (~~~(1#64 <<< pos) &&& d.lastMask)) }

def set (pos : ℕ) (value : Bool) : Except Fault DynamicBitSet := do
  if value = false then reset d pos
  else if 64 < d.bitCount then
    let chunk := pos / 64
    let shift := pos % 64
    let word ← load d.vector chunk
    .ok { d with vector := d.vector.set chunk (word ||| 1#64 <<< shift) }
  else
    let word ← load d.vector 0
    .ok { d with vector := d.vector.set 0 (word ||| 1#64 <<< pos) }

/-- The loop runs up to `word_count() - 1`, which wraps around for no words. -/
def flip : Except Fault DynamicBitSet :=
  let last := (d.wordCount + (2 ^ 64 - 1)) % 2 ^ 64
  if last < d.storageSize then
    .ok { d with
      vector := (d.vector.take last).map (~~~ ·) ++
        (~~~wordAt d.vector last &&& d.lastMask) :: d.vector.drop (last + 1) }
  else .error .outOfBounds

def resetAll : DynamicBitSet := { d with vector := d.vector.map fun _ => 0 }

/-- `operator=` from a number. -/
def assign (val : BitVec 64) : Except Fault DynamicBitSet := do
  let vector ← store d.vector 0 val
  .ok { d with vector := vector }

/-- `operator[]` -/
def subscript (pos : ℕ) : Except Fault Bool := do
  let word ← load d.vector (pos / 64)
  .ok (word >>> (pos % 64) &&& 1#64 != 0)

def equal (rhs : DynamicBitSet) : Bool :=
  if rhs.bitCount ≠ d.bitCount then false else d.vector == rhs.vector

/-- The inner loop at word `i`, over the words `j` below `m` of the right operand. -/
def combineWord (op : BitVec 64 → BitVec 64 → BitVec 64)
    (rhs : List (BitVec 64) → List (BitVec 64)) (i m : ℕ) (v : List (BitVec 64)) :
    List (BitVec 64) :=
  (List.range m).foldl (fun v j => v.set i (op (wordAt v i) (wordAt (rhs v) j))) v

/-- The two loops of `operator&=` and `operator^=`; the inner one breaks where `i < j`. `rhs`
gives the words of the right operand, which may be the object itself, from its own. -/
def combine (op : BitVec 64 → BitVec 64 → BitVec 64)
    (rhs : List (BitVec 64) → List (BitVec 64)) (v : List (BitVec 64)) : List (BitVec 64) :=
  (List.range v.length).foldl
    (fun v i => combineWord op rhs i (min (i + 1) (rhs v).length) v) v

def andAssign (rhs : List (BitVec 64) → List (BitVec 64)) : DynamicBitSet :=
  { d with vector := combine (fun v u => v &&& (u &&& d.lastMask)) rhs d.vector }

def xorAssign (rhs : List (BitVec 64) → List (BitVec 64)) : DynamicBitSet :=
  { d with vector := combine (fun v u => v ^^^ u) rhs d.vector }

/-- The body of the loops of `operator|=`, which takes the indices of words as positions. -/
def orBit (rhs : DynamicBitSet → DynamicBitSet) (i : ℕ) (d : DynamicBitSet) (j : ℕ) :
    Except Fault DynamicBitSet := do
  let own ← subscript d i
  let other ← subscript (rhs d) j
  set d i (own || other)

def orAssign (rhs : DynamicBitSet → DynamicBitSet) : Except Fault DynamicBitSet :=
  (List.range d.storageSize).foldlM
    (fun d i => (List.range (min (i + 1) (rhs d).storageSize)).foldlM (orBit rhs i) d) d

section Calls

variable {ι : Type} [DecidableEq ι]

inductive Call (ι : Type) where
  | construct (x : ι) (granted : Bool) (val : BitVec 64) (bitCount : ℕ)
  | copy (x y : ι) (granted : Bool)
  | set (x : ι) (pos : ℕ) (value : Bool)
  | setAll (x : ι)
  | reset (x : ι) (pos : ℕ)
  | resetAll (x : ι)
  | flip (x : ι)
  | assign (x : ι) (val : BitVec 64)
  | subscript (x : ι) (pos : ℕ)
  | andAssign (x y : ι)
  | orAssign (x y : ι)
  | xorAssign (x y : ι)
  | countSetBits (x : ι)
  | equal (x y : ι)

inductive Reply where
  | done
  | bit (value : Bool)
  | number (value : ℕ)
  deriving DecidableEq, Repr

abbrev World (ι : Type) := ι → DynamicBitSet

/-- Every object starts as `DynamicBitSet(0, 0)`. -/
def initial : World ι := fun _ => { vector := [0], bitCount := 0, lastMask := maskOf 0 }

def update (s : World ι) (x : ι) (result : Except Fault DynamicBitSet) :
    Except Fault (World ι × Reply) := do
  let d ← result
  .ok (Function.update s x d, .done)

def operand (s : World ι) (x y : ι) (d : DynamicBitSet) : DynamicBitSet := if y = x then d else s y

def words (s : World ι) (x y : ι) (v : List (BitVec 64)) : List (BitVec 64) :=
  if y = x then v else (s y).vector

def exec (s : World ι) : Call ι → Except Fault (World ι × Reply)
  | .construct x granted val bitCount => update s x (construct granted val bitCount)
  | .copy x y granted =>
    if x = y then .ok (s, .done)
    else if granted = false ∧ 0 < (s y).storageSize then .error .fatal
    else update s x (.ok (s y))
  | .set x pos value => update s x (set (s x) pos value)
  | .setAll x => update s x (setAll (s x))
  | .reset x pos => update s x (reset (s x) pos)
  | .resetAll x => update s x (.ok (resetAll (s x)))
  | .flip x => update s x (flip (s x))
  | .assign x val => update s x (assign (s x) val)
  | .subscript x pos => do
    let value ← subscript (s x) pos
    .ok (s, .bit value)
  | .andAssign x y => update s x (.ok (andAssign (s x) (words s x y)))
  | .orAssign x y => update s x (orAssign (s x) (operand s x y))
  | .xorAssign x y => update s x (.ok (xorAssign (s x) (words s x y)))
  | .countSetBits x => .ok (s, .number (countSetBits (s x)))
  | .equal x y => .ok (s, .bit (equal (s x) (s y)))

/-- Positions are below the bit count, a `mem_size`, and binary operators have operands of one
bit count. -/
def Legal (s : World ι) : Call ι → Prop
  | .construct _ _ _ bitCount => bitCount < 2 ^ 64
  | .set x pos _ | .reset x pos | .subscript x pos => pos < (s x).bitCount
  | .andAssign x y | .orAssign x y | .xorAssign x y => (s x).bitCount = (s y).bitCount
  | .copy _ _ _ | .setAll _ | .resetAll _ | .flip _ | .assign _ _ | .countSetBits _
  | .equal _ _ => True

end Calls

/-- A vector of bits, by its length and the positions that are set. -/
structure Bits where
  size : ℕ
  ones : Finset ℕ
  deriving DecidableEq

section Spec

variable {ι : Type} [DecidableEq ι]

/-- The calls on vectors of bits. A number assigned replaces the first 64 bits. -/
def specExec (s : ι → Bits) : Call ι → (ι → Bits) × Reply
  | .construct x _ val bitCount =>
    (Function.update s x ⟨bitCount, (Finset.range bitCount).filter fun p => val.getLsbD p⟩, .done)
  | .copy x y _ => (Function.update s x (s y), .done)
  | .set x pos value => (Function.update s x
      ⟨(s x).size, if value then insert pos (s x).ones else (s x).ones.erase pos⟩, .done)
  | .setAll x => (Function.update s x ⟨(s x).size, Finset.range (s x).size⟩, .done)
  | .reset x pos => (Function.update s x ⟨(s x).size, (s x).ones.erase pos⟩, .done)
  | .resetAll x => (Function.update s x ⟨(s x).size, ∅⟩, .done)
  | .flip x => (Function.update s x ⟨(s x).size, Finset.range (s x).size \ (s x).ones⟩, .done)
  | .assign x val => (Function.update s x ⟨(s x).size, (Finset.range (s x).size).filter
      fun p => if p < 64 then val.getLsbD p else p ∈ (s x).ones⟩, .done)
  | .subscript x pos => (s, .bit (decide (pos ∈ (s x).ones)))
  | .andAssign x y => (Function.update s x ⟨(s x).size, (s x).ones ∩ (s y).ones⟩, .done)
  | .orAssign x y => (Function.update s x ⟨(s x).size, (s x).ones ∪ (s y).ones⟩, .done)
  | .xorAssign x y =>
    (Function.update s x ⟨(s x).size, symmDiff (s x).ones (s y).ones⟩, .done)
  | .countSetBits x => (s, .number (s x).ones.card)
  | .equal x y => (s, .bit (decide (s x = s y)))

end Spec

end DynamicBitSet

end Equilibrium
