import Mathlib.Data.UInt
import Mathlib.Tactic.NormNum

/-! The string hashes of `base/hashing/djb2.h`, `elf.h` and `fnv1a.h`, and their ports to
`akibase/hashing`. A string is the list of its bytes, none of which is zero. A `char` of
`base` is a signed byte, or an unsigned one, as the target has it. -/

namespace Equilibrium.StringHashes

open List Nat

/-- `static_cast<u32>` of a `char` -/
def char32 (signed : Bool) (c : UInt8) : UInt32 :=
  if signed then c.toInt8.toInt32.toUInt32 else c.toUInt32

def char64 (signed : Bool) (c : UInt8) : UInt64 :=
  if signed then c.toInt8.toInt64.toUInt64 else c.toUInt64

section Base

variable (signed : Bool) (str : List UInt8)

def djb2Step64 (h : UInt64 × UInt64) (c : UInt64) : UInt64 × UInt64 :=
  let hash := ((h.1 <<< 5) + h.1) + c
  (hash, ((hash <<< 5) + hash) + c)

def djb2Hash64 : UInt64 :=
  if str = [] then 0
  else
    let (hash, hash2) := str.foldl (fun h c => djb2Step64 h (char64 signed c)) (5381, 52711)
    hash * 4096 + hash2

def djb2Step32 (hash c : UInt32) : UInt32 := ((hash <<< 5) + hash) + c

def djb2Hash32 : UInt32 :=
  if str = [] then 0 else str.foldl (fun hash c => djb2Step32 hash (char32 signed c)) 5381

def elfStep (hash c : UInt32) : UInt32 :=
  let hash := (hash <<< 4) + c
  let high := (hash.toUInt64 &&& 0xF000000000000000).toUInt32
  let hash := if high ≠ 0 then hash ^^^ (high >>> 24) else hash
  hash &&& ~~~high

def elfHash : UInt32 := str.foldl (fun hash c => elfStep hash (char32 signed c)) 0

def fnv1a32 : UInt32 :=
  if str = [] then 0
  else str.foldl (fun hash c => (hash ^^^ char32 signed c) * 0x1000193) 0x811c9dc5

def fnv1a64 : UInt64 :=
  if str = [] then 0
  else str.foldl (fun hash c => (hash ^^^ char64 signed c) * 0x100000001b3) 0xcbf29ce484222325

end Base

/-! The ports. -/

namespace Aki

variable (data : List UInt8)

def djb2_64 : UInt64 :=
  let (hash, hash2) := data.foldl (fun h c => djb2Step64 h c.toUInt64) (5381, 52711)
  hash * 4096 + hash2

def djb2_32 : UInt32 := data.foldl (fun hash c => djb2Step32 hash c.toUInt32) 5381

def elfStep (hash c : UInt32) : UInt32 :=
  let hash := (hash <<< 4) + c
  let high := hash &&& 4026531840
  let hash := if high ≠ 0 then hash ^^^ (high >>> 24) else hash
  hash &&& ~~~high

def elf_hash : UInt32 := data.foldl (fun hash c => elfStep hash c.toUInt32) 0

def fnv1a_32 : UInt32 :=
  data.foldl (fun hash c => (hash ^^^ c.toUInt32) * 16777619) 2166136261

def fnv1a_64 : UInt64 :=
  data.foldl (fun hash c => (hash ^^^ c.toUInt64) * 1099511628211) 14695981039346656037

end Aki

/-- Each hash has the value of its port. -/
structure SameHashes (signed : Bool) (str : List UInt8) : Prop where
  djb2_64 : djb2Hash64 signed str = Aki.djb2_64 str
  djb2_32 : djb2Hash32 signed str = Aki.djb2_32 str
  elf : elfHash signed str = Aki.elf_hash str
  fnv1a_32 : fnv1a32 signed str = Aki.fnv1a_32 str
  fnv1a_64 : fnv1a64 signed str = Aki.fnv1a_64 str

/-- The bytes as digits to the base 16. -/
def numeral (str : List UInt8) : ℕ := str.foldl (fun n c => 16 * n + c.toNat) 0

/-- No byte is extended by its sign, and no front of the string has a numeral with one of the top
four of its 32 bits. -/
structure Plain (signed : Bool) (str : List UInt8) : Prop where
  low : signed = true → ∀ c ∈ str, c < 128
  small : ∀ front, front <+: str → numeral front % 2 ^ 32 < 2 ^ 28

section Characters

variable {signed : Bool} {c : UInt8}

theorem char32_eq_iff : char32 signed c = c.toUInt32 ↔ (signed = true → c < 128) := by
  have hall : ∀ (signed : Bool) (n : Fin 256), char32 signed (UInt8.ofFin n) =
      (UInt8.ofFin n).toUInt32 ↔ (signed = true → UInt8.ofFin n < 128) := by decide +kernel
  exact hall signed c.toFin

theorem char64_eq (h : signed = true → c < 128) : char64 signed c = c.toUInt64 := by
  have hall : ∀ (signed : Bool) (n : Fin 256), (signed = true → UInt8.ofFin n < 128) →
      char64 signed (UInt8.ofFin n) = (UInt8.ofFin n).toUInt64 := by decide +kernel
  exact hall signed c.toFin h

end Characters

section Steps

variable {hash c : UInt32}

theorem elfStep_eq (hash c : UInt32) : elfStep hash c = (hash <<< 4) + c := by
  have hhigh (x : UInt32) : (x.toUInt64 &&& 0xF000000000000000).toUInt32 = 0 := by
    rw [UInt64.toUInt32_and]
    exact UInt32.and_zero
  simp only [elfStep, hhigh]
  simp

theorem high_eq_zero_iff (x : UInt32) : x &&& 4026531840 = 0 ↔ x.toNat < 2 ^ 28 := by
  have hmask (i : ℕ) : (4026531840 : UInt32).toNat.testBit i = decide (28 ≤ i ∧ i < 32) := by
    change (4026531840 : ℕ).testBit i = _
    have hshift : (4026531840 : ℕ) = (2 ^ 4 - 1) <<< 28 := by decide
    rw [hshift, testBit_shiftLeft, testBit_two_pow_sub_one]
    by_cases h : 28 ≤ i
    · simp [h]
      omega
    · simp [h]
  rw [← UInt32.toNat_inj, UInt32.toNat_and]
  constructor
  · intro h
    refine lt_pow_two_of_testBit _ fun i hi => ?_
    have hbit := congrArg (testBit · i) h
    simp only [testBit_and, hmask, UInt32.toNat_zero, zero_testBit] at hbit
    by_cases hlt : i < 32
    · simpa [hi, hlt] using hbit
    · exact testBit_lt_two_pow (x.toNat_lt.trans_le (Nat.pow_le_pow_right (by decide) (by omega)))
  · intro h
    refine eq_of_testBit_eq fun i => ?_
    rw [testBit_and]
    by_cases hi : 28 ≤ i
    · rw [testBit_lt_two_pow (h.trans_le (Nat.pow_le_pow_right (by decide) hi))]
      simp
    · rw [hmask]
      simp [hi]

theorem aki_elfStep_eq_iff (hash c : UInt32) :
    elfStep hash c = Aki.elfStep hash c ↔ ((hash <<< 4) + c).toNat < 2 ^ 28 := by
  rw [elfStep_eq, ← high_eq_zero_iff]
  unfold Aki.elfStep
  generalize (hash <<< 4) + c = x
  constructor
  · intro h
    by_contra hne
    have hand := congrArg (· &&& (x &&& 4026531840)) h
    beta_reduce at hand
    rw [← UInt32.and_assoc, UInt32.and_self, UInt32.and_assoc, UInt32.not_and_self,
      UInt32.and_zero] at hand
    exact hne hand
  · intro h
    simp [h]

end Steps

section Strings

variable {signed : Bool} {str : List UInt8} {c : UInt8}

theorem Plain.front (h : Plain signed (str ++ [c])) : Plain signed str where
  low hsigned x hx := h.low hsigned x (mem_append_left _ hx)
  small front hfront := h.small front (hfront.trans (prefix_append str [c]))

theorem numeral_concat (str : List UInt8) (c : UInt8) :
    numeral (str ++ [c]) = 16 * numeral str + c.toNat := by
  rw [numeral, foldl_append]
  rfl

theorem elfHash_concat (str : List UInt8) (c : UInt8) :
    elfHash signed (str ++ [c]) = elfStep (elfHash signed str) (char32 signed c) := by
  rw [elfHash, foldl_append]
  rfl

theorem elf_hash_concat (str : List UInt8) (c : UInt8) :
    Aki.elf_hash (str ++ [c]) = Aki.elfStep (Aki.elf_hash str) c.toUInt32 := by
  rw [Aki.elf_hash, foldl_append]
  rfl

theorem toNat_elfHash (hlow : signed = true → ∀ c ∈ str, c < 128) :
    (elfHash signed str).toNat = numeral str % 2 ^ 32 := by
  induction str using reverseRecOn with
  | nil => rfl
  | append_singleton str c ih =>
    have hlast : signed = true → c < 128 := fun hsigned => hlow hsigned c (by simp)
    have hfront := ih fun hsigned x hx => hlow hsigned x (mem_append_left _ hx)
    rw [elfHash_concat, elfStep_eq, char32_eq_iff.mpr hlast, UInt32.toNat_add,
      UInt32.toNat_shiftLeft, hfront, UInt8.toNat_toUInt32, numeral_concat, shiftLeft_eq]
    change ((numeral str % 2 ^ 32 * 2 ^ 4) % 2 ^ 32 + c.toNat) % 2 ^ 32 = _
    omega

theorem elf_concat_iff (h : elfHash signed str = Aki.elf_hash str)
    (hlow : signed = true → ∀ x ∈ str ++ [c], x < 128) :
    elfHash signed (str ++ [c]) = Aki.elf_hash (str ++ [c]) ↔
      numeral (str ++ [c]) % 2 ^ 32 < 2 ^ 28 := by
  have hlast : signed = true → c < 128 := fun hsigned => hlow hsigned c (by simp)
  have hnumeral := toNat_elfHash hlow
  rw [elfHash_concat, char32_eq_iff.mpr hlast] at hnumeral ⊢
  rw [elf_hash_concat, ← h, aki_elfStep_eq_iff, ← hnumeral, elfStep_eq]

theorem Plain.elf (h : Plain signed str) : elfHash signed str = Aki.elf_hash str := by
  induction str using reverseRecOn with
  | nil => rfl
  | append_singleton str c ih =>
    exact (elf_concat_iff (ih h.front) h.low).mpr (h.small _ (prefix_refl _))

theorem Plain.same (h : Plain signed str) (hne : str ≠ []) : SameHashes signed str := by
  have h32 : ∀ c ∈ str, char32 signed c = c.toUInt32 := fun c hc =>
    char32_eq_iff.mpr fun hsigned => h.low hsigned c hc
  have h64 : ∀ c ∈ str, char64 signed c = c.toUInt64 := fun c hc =>
    char64_eq fun hsigned => h.low hsigned c hc
  refine ⟨?_, ?_, h.elf, ?_, ?_⟩
  · rw [djb2Hash64, if_neg hne, Aki.djb2_64,
      foldl_ext _ _ _ fun hash c hc => congrArg (djb2Step64 hash) (h64 c hc)]
  · rw [djb2Hash32, if_neg hne, Aki.djb2_32,
      foldl_ext _ _ _ fun hash c hc => congrArg (djb2Step32 hash) (h32 c hc)]
  · rw [fnv1a32, if_neg hne, Aki.fnv1a_32]
    exact foldl_ext _ _ _ fun hash c hc =>
      congrArg (fun x => (hash ^^^ x) * 0x1000193) (h32 c hc)
  · rw [fnv1a64, if_neg hne, Aki.fnv1a_64]
    exact foldl_ext _ _ _ fun hash c hc =>
      congrArg (fun x => (hash ^^^ x) * 0x100000001b3) (h64 c hc)

theorem SameHashes.plain (h : SameHashes signed (str ++ [c])) (hfront : Plain signed str) :
    Plain signed (str ++ [c]) := by
  have hfold : str.foldl (fun hash c => djb2Step32 hash (char32 signed c)) 5381 =
      str.foldl (fun hash c => djb2Step32 hash c.toUInt32) 5381 :=
    foldl_ext _ _ _ fun hash c hc => congrArg (djb2Step32 hash)
      (char32_eq_iff.mpr fun hsigned => hfront.low hsigned c hc)
  have hlast : signed = true → c < 128 := by
    have hdjb2 := h.djb2_32
    rw [djb2Hash32, if_neg (by simp), Aki.djb2_32, foldl_append, foldl_append, hfold]
      at hdjb2
    exact char32_eq_iff.mp (add_left_cancel hdjb2)
  have hlow : signed = true → ∀ x ∈ str ++ [c], x < 128 := by
    intro hsigned x hx
    rcases mem_append.mp hx with hx | hx
    · exact hfront.low hsigned x hx
    · rw [mem_singleton.mp hx]
      exact hlast hsigned
  refine ⟨hlow, fun front hstart => ?_⟩
  rcases prefix_concat_iff.mp hstart with rfl | hstart
  · exact (elf_concat_iff hfront.elf hlow).mp h.elf
  · exact hfront.small front hstart

theorem fronts_same_iff : (∀ front, front <+: str → front ≠ [] → SameHashes signed front) ↔
    Plain signed str := by
  constructor
  · intro h
    induction str using reverseRecOn with
    | nil =>
      refine ⟨by simp, fun front hstart => ?_⟩
      rw [prefix_nil.mp hstart]
      decide
    | append_singleton str c ih =>
      have hfront := ih fun front hstart hne =>
        h front (hstart.trans (prefix_append str [c])) hne
      exact (h (str ++ [c]) (prefix_refl _) (by simp)).plain hfront
  · intro h front hstart hne
    refine Plain.same ⟨fun hsigned x hx => h.low hsigned x (hstart.subset hx),
      fun f hf => h.small f (hf.trans hstart)⟩ hne

theorem not_same_nil (signed : Bool) : ¬ SameHashes signed [] := fun h => by
  have hdjb2 := h.djb2_32
  cases signed <;> cases hdjb2

end Strings

/-- The empty string never hashes as its port says; every other one does as long as its bytes are
plain, and no longer. -/
theorem sameHashes_iff (signed : Bool) (str : List UInt8) :
    (Plain signed str → (SameHashes signed str ↔ str ≠ [])) ∧
      ((∀ front, front <+: str → front ≠ [] → SameHashes signed front) ↔ Plain signed str) := by
  refine ⟨fun hplain => ⟨fun hsame hnil => ?_, hplain.same⟩, fronts_same_iff⟩
  rw [hnil] at hsame
  exact not_same_nil signed hsame

theorem sameHashes_iff_ab : SameHashes true [97, 98] ↔ ([97, 98] : List UInt8) ≠ [] := by
  refine (sameHashes_iff true [97, 98]).1 ⟨by simp, fun front hstart => ?_⟩
  have hfronts : ∀ front ∈ ([97, 98] : List UInt8).inits, numeral front % 2 ^ 32 < 2 ^ 28 := by
    decide
  exact hfronts front (mem_inits _ _ |>.mpr hstart)

/-- The empty string hashes to zero here and to the start value there. -/
theorem not_sameHashes : ¬ ∀ str : List UInt8, 0 ∉ str → SameHashes true str := fun h => by
  have hdjb2 := (h [] (by decide)).djb2_32
  cases hdjb2

/-- The port masks the seventh of these characters and the 64-bit mask does not. -/
example : elfHash true [97, 98, 99, 100, 101, 102, 103] = 0x6789abc7 ∧
    Aki.elf_hash [97, 98, 99, 100, 101, 102, 103] = 0x0789aba7 := by decide

end Equilibrium.StringHashes
