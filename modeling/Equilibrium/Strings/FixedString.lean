import Equilibrium.Library.ArrayWrite
import Equilibrium.Library.Interleaving
import Mathlib.Algebra.GroupWithZero.Nat

/-! The string of bounded length of `base/strings/fixed_string.h`. A failed `BASE_BUGCHECK`
leaves the string as it is; a call that reaches past the memory it is given, or copies
between ranges that overlap, gives `none`. -/

namespace Equilibrium

open Library.ArrayWrite

/-- `data_` and `size_`. -/
structure FixedString (TChar : Type) (N : ℕ) where
  data : List TChar
  size : ℕ
  length_data : data.length = N + 1

namespace FixedString

/-- The values of `size_type`, a `u32`. -/
def kSizeRange : ℕ := 2 ^ 32

def kCapacity (N : ℕ) : ℕ := N % kSizeRange

/-- What a pointer argument points to: characters elsewhere, or a place in `data_`. -/
inductive Source (ι TChar : Type) where
  | null
  | chars (units : List TChar)
  | part (j : ι) (start : ℕ)

def Source.isNull {ι TChar : Type} : Source ι TChar → Bool
  | .null => true
  | _ => false

section Operations

variable {ι TChar : Type} {N : ℕ} [DecidableEq ι] [Zero TChar] [DecidableEq TChar]

def chars (s : FixedString TChar N) : List TChar := s.data.take s.size

def empty : FixedString TChar N where
  data := List.replicate (N + 1) 0
  size := 0
  length_data := List.length_replicate

def write (s : FixedString TChar N) (i : ℕ) (xs : List TChar) :
    Option (FixedString TChar N) :=
  (Library.ArrayWrite.write s.data i xs).pmap (fun b h => ⟨b, s.size, h⟩)
    fun _ h => (length_write h).trans s.length_data

def finish (s : FixedString TChar N) (size : ℕ) : Option (FixedString TChar N) :=
  (s.write size [0]).map fun s => { s with size := size }

variable (st : ι → FixedString TChar N) (i : ι)

/-- The characters that a pointer leads to, as far as they can be read. -/
def Source.units : Source ι TChar → List TChar
  | .null => []
  | .chars units => units
  | .part j start => (st j).data.drop start

def Source.overlaps (dest n : ℕ) : Source ι TChar → Bool
  | .part j start => j = i ∧ start < dest + n ∧ dest < start + n
  | _ => false

/-- `MemCopy` to `data_ + dest`. -/
def memCopy (dest : ℕ) (src : Source ι TChar) (n : ℕ) : Option (FixedString TChar N) :=
  if n ≤ (src.units st).length ∧ ¬ src.overlaps i dest n then
    (st i).write dest ((src.units st).take n)
  else none

def countStringLength (src : Source ι TChar) : Option ℕ :=
  if 0 ∈ src.units st then some ((src.units st).takeWhile (· ≠ 0)).length else none

def clear : Option (FixedString TChar N) := (st i).finish 0

def fill (count : ℕ) (c : TChar) : Option (FixedString TChar N) :=
  if count ≤ kCapacity N then
    ((st i).write 0 (List.replicate count c)).bind fun s => s.finish count
  else some (st i)

def assign (src : Source ι TChar) (len : ℕ) : Option (FixedString TChar N) :=
  if len ≤ kCapacity N then
    (if src.isNull ∨ len = 0 then some (st i) else memCopy st i 0 src len).bind fun s =>
      s.finish len
  else some (st i)

def assignRange (src : Source ι TChar) (n : ℕ) : Option (FixedString TChar N) :=
  assign st i src (n % kSizeRange)

def assignCStr (src : Source ι TChar) : Option (FixedString TChar N) :=
  (countStringLength st src).bind fun n => assign st i src (n % kSizeRange)

def resize (newSize : ℕ) : Option (FixedString TChar N) :=
  if newSize ≤ kCapacity N then
    (if (st i).size < newSize then
        (st i).write (st i).size (List.replicate (newSize - (st i).size) 0)
      else some (st i)).bind fun s => s.finish newSize
  else some (st i)

def append (src : Source ι TChar) (count : ℕ) : Option (FixedString TChar N) :=
  if ((st i).size + count) % kSizeRange ≤ kCapacity N ∧ 0 < count then
    (memCopy st i (st i).size src count).bind fun s =>
      s.finish (((st i).size + count) % kSizeRange)
  else some (st i)

def appendCStr (src : Source ι TChar) : Option (FixedString TChar N) :=
  (countStringLength st src).bind fun n => append st i src (n % kSizeRange)

def pushBack (c : TChar) : Option (FixedString TChar N) :=
  if (st i).size < kCapacity N then
    ((st i).write (st i).size [c]).bind fun s => s.finish ((st i).size + 1)
  else some (st i)

def assignTruncating (src : Source ι TChar) : Option (Bool × FixedString TChar N) :=
  if src.isNull then (clear st i).map (true, ·)
  else (countStringLength st src).bind fun full =>
    let toCopy := if kCapacity N < full then kCapacity N else full
    ((memCopy st i 0 src toCopy).bind fun s => s.finish toCopy).map
      (decide (full ≤ kCapacity N), ·)

end Operations

inductive Act (ι TChar : Type) where
  | construct (i : ι)
  | copy (i j : ι)
  | clear (i : ι)
  | fill (i : ι) (count : ℕ) (c : TChar)
  | assign (i : ι) (src : Source ι TChar) (len : ℕ)
  | assignRange (i : ι) (src : Source ι TChar) (n : ℕ)
  | assignCStr (i : ι) (src : Source ι TChar)
  | resize (i : ι) (newSize : ℕ)
  | append (i : ι) (src : Source ι TChar) (count : ℕ)
  | appendCStr (i : ι) (src : Source ι TChar)
  | pushBack (i : ι) (c : TChar)
  | assignTruncating (i : ι) (src : Source ι TChar)

def Act.target {ι TChar : Type} : Act ι TChar → ι
  | construct i | copy i _ | clear i | fill i _ _ | assign i _ _ | assignRange i _ _
  | assignCStr i _ | resize i _ | append i _ _ | appendCStr i _ | pushBack i _
  | assignTruncating i _ => i

section Machine

variable {ι TChar : Type} {N : ℕ} [DecidableEq ι] [Zero TChar] [DecidableEq TChar]
  (st : ι → FixedString TChar N)

/-- The changed string; a constructor is `construct` and the operation that it calls. -/
def perform : Act ι TChar → Option (FixedString TChar N)
  | .construct _ => some empty
  | .copy _ j => some (st j)
  | .clear i => clear st i
  | .fill i count c => fill st i count c
  | .assign i src len => assign st i src len
  | .assignRange i src n => assignRange st i src n
  | .assignCStr i src => assignCStr st i src
  | .resize i newSize => resize st i newSize
  | .append i src count => append st i src count
  | .appendCStr i src => appendCStr st i src
  | .pushBack i c => pushBack st i c
  | .assignTruncating i src => (assignTruncating st i src).map Prod.snd

/-- The lengths are of their types, and a pointer leads to as many characters as the call
is told, or to a terminator. -/
def Act.Valid : Act ι TChar → Prop
  | .construct _ => True
  | .copy _ _ => True
  | .clear _ => True
  | .fill _ count _ => count < kSizeRange
  | .assign _ src len => len < kSizeRange ∧ len ≤ (src.units st).length
  | .assignRange _ src n => n < 2 ^ 63 ∧ n ≤ (src.units st).length
  | .assignCStr _ src => 0 ∈ src.units st
  | .resize _ newSize => newSize < kSizeRange
  | .append _ src count => count < kSizeRange ∧ count ≤ (src.units st).length
  | .appendCStr _ src => 0 ∈ src.units st
  | .pushBack _ _ => True
  | .assignTruncating _ src => src.isNull ∨ 0 ∈ src.units st

def step (a : Act ι TChar) : Option (ι → FixedString TChar N) :=
  (perform st a).map (Function.update st a.target)

def machine (ι TChar : Type) (N : ℕ) [DecidableEq ι] [Zero TChar] [DecidableEq TChar] :
    Library.Interleaving.Machine (ι → FixedString TChar N) (Act ι TChar) where
  init := fun _ => empty
  step := step

end Machine

end FixedString

end Equilibrium
