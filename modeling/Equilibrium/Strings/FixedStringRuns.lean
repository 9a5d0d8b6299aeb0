import Equilibrium.Strings.FixedString

/-! Runs of operations on strings of bounded length, compared with lists of characters. -/

namespace Equilibrium.FixedString

open Library.ArrayWrite Function Option
open List (length_replicate length_take replicate take_of_length_le take_take take_zero)

section Writes

variable {TChar : Type} {N : ℕ} {s : FixedString TChar N} {i n : ℕ} {cs : List TChar}

/-- The size within the capacity, and the terminator behind the characters. -/
structure Sound [Zero TChar] (s : FixedString TChar N) : Prop where
  size_le : s.size ≤ N
  holds : Holds 0 s.data s.chars

theorem length_chars (h : s.size ≤ N) : s.chars.length = s.size := by
  have hlength := s.length_data
  rw [chars, length_take]
  omega

theorem Sound.nul [Zero TChar] (h : s.Sound) : s.data[s.size]? = some 0 := by
  have hnul := h.holds.nul
  rwa [length_chars h.size_le] at hnul

theorem exists_write (s : FixedString TChar N) {xs : List TChar} (h : i + xs.length ≤ N + 1) :
    ∃ s', s.write i xs = some s' ∧ Library.ArrayWrite.write s.data i xs = some s'.data := by
  have hlength := s.length_data
  have hfits : i + xs.length ≤ s.data.length := by omega
  obtain ⟨b, hb⟩ := Library.ArrayWrite.exists_write hfits
  refine ⟨⟨b, s.size, (length_write hb).trans hlength⟩, ?_, hb⟩
  rw [write, pmap_eq_some_iff]
  exact ⟨b, (length_write hb).trans hlength, hb, rfl⟩

variable [Zero TChar]

end Writes

section Steps

variable {ι TChar : Type} {N : ℕ} [DecidableEq ι] [Zero TChar] [DecidableEq TChar]
  {st : ι → FixedString TChar N} {i : ι} {src : Source ι TChar} {n : ℕ}

def Source.cstr (st : ι → FixedString TChar N) (src : Source ι TChar) : List TChar :=
  (src.units st).takeWhile (· ≠ 0)

def Act.result (st : ι → FixedString TChar N) : Act ι TChar → List TChar
  | .construct _ => []
  | .copy _ j => (st j).chars
  | .clear _ => []
  | .fill _ count c => List.replicate count c
  | .assign _ src len => (src.units st).take len
  | .assignRange _ src n => (src.units st).take n
  | .assignCStr _ src => src.cstr st
  | .resize i newSize =>
    ((st i).chars ++ List.replicate (newSize - (st i).chars.length) 0).take newSize
  | .append i src count => (st i).chars ++ (src.units st).take count
  | .appendCStr i src => (st i).chars ++ src.cstr st
  | .pushBack i c => (st i).chars ++ [c]
  | .assignTruncating _ src => (src.cstr st).take (kCapacity N)

/-- A copy that the check lets through is of a length below 2^32, and its source does not
overlap the place it is written to. -/
def Copies (i : ι) (src : Source ι TChar) (dest n checked : ℕ) : Prop :=
  checked ≤ kCapacity N → dest + n < kSizeRange ∧ ¬ src.overlaps i dest n

def Act.Ok (st : ι → FixedString TChar N) : Act ι TChar → Prop
  | .assign i src len => Copies (N := N) i src 0 len len
  | .assignRange i src n => Copies (N := N) i src 0 n (n % kSizeRange)
  | .assignCStr i src =>
    Copies (N := N) i src 0 (src.cstr st).length ((src.cstr st).length % kSizeRange)
  | .append i src count =>
    Copies (N := N) i src (st i).size count (((st i).size + count) % kSizeRange)
  | .appendCStr i src => Copies (N := N) i src (st i).size (src.cstr st).length
    (((st i).size + (src.cstr st).length) % kSizeRange)
  | .assignTruncating i src => ¬ src.overlaps i 0 (min (src.cstr st).length (kCapacity N))
  | .construct _ => True
  | .copy _ _ => True
  | .clear _ => True
  | .fill _ _ _ => True
  | .resize _ _ => True
  | .pushBack _ _ => True

section

omit [DecidableEq ι]

theorem countStringLength_eq (h : 0 ∈ src.units st) :
    countStringLength st src = some (src.cstr st).length := if_pos h

end

section

omit [DecidableEq TChar]

end

section

omit [DecidableEq ι] [DecidableEq TChar]

end

section

omit [DecidableEq TChar]

end

end Steps

section Runs

open Library.Interleaving

variable {ι TChar : Type} {N : ℕ} [DecidableEq ι] [Zero TChar] [DecidableEq TChar]

instance (st : ι → FixedString TChar N) (a : Act ι TChar) : Decidable (a.Valid st) :=
  match a with
  | .construct _ | .copy .. | .clear _ | .pushBack .. => inferInstanceAs (Decidable True)
  | .fill .. | .resize .. => inferInstanceAs (Decidable (_ < _))
  | .assign .. | .assignRange .. | .append .. => inferInstanceAs (Decidable (_ ∧ _))
  | .assignCStr _ src | .appendCStr _ src => inferInstanceAs (Decidable (_ ∈ _))
  | .assignTruncating _ src => inferInstanceAs (Decidable (_ ∨ _))

instance (i : ι) (src : Source ι TChar) (dest n checked : ℕ) :
    Decidable (Copies (N := N) i src dest n checked) := inferInstanceAs (Decidable (_ → _))

instance (st : ι → FixedString TChar N) (a : Act ι TChar) : Decidable (a.Ok st) :=
  match a with
  | .assign .. | .assignRange .. | .assignCStr .. | .append .. | .appendCStr .. =>
    inferInstanceAs (Decidable (Copies _ _ _ _ _))
  | .assignTruncating .. => inferInstanceAs (Decidable (¬ _))
  | .construct _ | .copy .. | .clear _ | .fill .. | .resize .. | .pushBack .. =>
    inferInstanceAs (Decidable True)

/-- A string that is appended to itself, and one cut to its capacity. -/
def smallRun : List (Act Bool ℕ) :=
  [.assign true (.chars [1, 2, 3, 4]) 3, .append true (.part true 1) 2,
    .assignTruncating false (.chars [5, 6, 7, 8, 9, 1, 2, 3, 4, 0])]

end Runs

end Equilibrium.FixedString
