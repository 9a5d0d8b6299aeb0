import Equilibrium.Library.ArrayWrite
import Mathlib.Algebra.Group.Int.Defs
import Mathlib.Algebra.Group.Nat.Defs
import Mathlib.Data.Nat.Bitwise

/-! The conversions of `base/text/code_convert.cc`, with the macros of
`base/external/icu/icu_utf.h` and the checks of `base/text/code_point_validation.h` that
they use. A code unit is a number, a source pointer is the list of the units from it on,
and a code point is the number that its 32 bits hold. A write past the destination, or
past the range of an `int32_t` offset, gives `none`. -/

namespace Equilibrium.CodeConvert

open Library

/-- `CBU_SENTINEL` as an unsigned number -/
def kSentinel : ℕ := 2 ^ 32 - 1

def kErrorCodePoint : ℕ := 0xFFFD

def isValidCodepoint (codePoint : ℕ) : Bool :=
  codePoint < 0xD800 ∨ (codePoint ≥ 0xE000 ∧ codePoint ≤ 0x10FFFF)

/-! `DoIsStringASCII` on units of `width` bytes. -/

def nonAsciiMask (width : ℕ) : ℕ :=
  if width = 1 then 0x8080808080808080
  else if width = 2 then 0xFF80FF80FF80FF80
  else 0xFFFFFF80FFFFFF80

def machineWord (width : ℕ) (signed : Bool) (c : ℕ) : ℕ :=
  if signed ∧ 2 ^ (8 * width - 1) ≤ c then c + (2 ^ 64 - 2 ^ (8 * width)) else c

def orUnits (width : ℕ) (signed : Bool) (bits : ℕ) (cs : List ℕ) : ℕ :=
  cs.foldl (fun bits c => bits ||| machineWord width signed c) bits

def charsPerWord (width : ℕ) : ℕ := 8 / width

def loadWord (width : ℕ) (cs : List ℕ) : ℕ := cs.foldr (fun c word => c ||| word <<< (8 * width)) 0

/-- The words that the next units make up, and what is behind them. -/
def orWords (width : ℕ) : ℕ → ℕ → List ℕ → ℕ × List ℕ
  | 0, bits, cs => (bits, cs)
  | n + 1, bits, cs =>
    orWords width n (bits ||| loadWord width (cs.take (charsPerWord width)))
      (cs.drop (charsPerWord width))

def batchCount : ℕ := 16

/-- The loop over the batches, `none` for one that is not ASCII. -/
def asciiBatches (width : ℕ) : ℕ → List ℕ → Option (List ℕ)
  | 0, cs => some cs
  | rounds + 1, cs =>
    if cs.length ≥ batchCount * charsPerWord width then
      let (bits, rest) := orWords width batchCount 0 cs
      if bits &&& nonAsciiMask width ≠ 0 then none else asciiBatches width rounds rest
    else some cs

/-- `offset` units lie before the first aligned one. -/
def doIsStringAscii (width : ℕ) (signed : Bool) (offset : ℕ) (characters : List ℕ) : Bool :=
  if characters.length = 0 then true
  else if orUnits width signed 0 (characters.take offset) &&& nonAsciiMask width ≠ 0 then false
  else
    match asciiBatches width characters.length (characters.drop offset) with
    | none => false
    | some rest =>
      let (bits, rest) := orWords width (rest.length / charsPerWord width) 0 rest
      orUnits width signed bits rest &&& nonAsciiMask width = 0

/-! The destination. -/

/-- The units of the destination, and the `int32_t` length of what was written. -/
structure Dest where
  units : List ℕ
  length : ℕ

/-- `out[(*size)++] = unit` -/
def Dest.put (d : Dest) (unit : ℕ) : Option Dest :=
  if d.length + 1 < 2 ^ 31 then
    (ArrayWrite.write d.units d.length [unit]).map fun units => ⟨units, d.length + 1⟩
  else none

def Dest.puts (d : Dest) : List ℕ → Option Dest
  | [] => some d
  | unit :: rest => (d.put unit).bind fun d => d.puts rest

/-- The units that `CBU8_APPEND_UNSAFE` writes -/
def cbu8Append (uc : ℕ) : List ℕ :=
  if uc ≤ 0x7f then [uc % 2 ^ 8]
  else
    (if uc ≤ 0x7ff then [(uc >>> 6 ||| 0xc0) % 2 ^ 8]
    else
      (if uc ≤ 0xffff then [(uc >>> 12 ||| 0xe0) % 2 ^ 8]
      else [(uc >>> 18 ||| 0xf0) % 2 ^ 8, (uc >>> 12 &&& 0x3f ||| 0x80) % 2 ^ 8]) ++
        [(uc >>> 6 &&& 0x3f ||| 0x80) % 2 ^ 8]) ++
      [(uc &&& 0x3f ||| 0x80) % 2 ^ 8]

/-- The units that `CBU16_APPEND_UNSAFE` writes -/
def cbu16Append (c : ℕ) : List ℕ :=
  if c ≤ 0xffff then [c % 2 ^ 16]
  else [(c >>> 10 + 0xd7c0) % 2 ^ 16, (c &&& 0x3ff ||| 0xdc00) % 2 ^ 16]

def utf32Append (codePoint : ℕ) : List ℕ := [codePoint]

/-- A destination type: its width, and what `UnicodeAppendUnsafe` writes for it. -/
structure DestChar where
  width : ℕ
  append : ℕ → List ℕ

def char8 : DestChar := ⟨1, cbu8Append⟩

def char16 : DestChar := ⟨2, cbu16Append⟩

def char32 : DestChar := ⟨4, utf32Append⟩

/-! The decoders. -/

def kLead3T1Bits : List ℕ :=
  [0x20, 0x30, 0x30, 0x30, 0x30, 0x30, 0x30, 0x30, 0x30, 0x30, 0x30, 0x30, 0x30, 0x10, 0x30, 0x30]

def kLead4T1Bits : List ℕ :=
  [0x00, 0x00, 0x00, 0x00, 0x00, 0x00, 0x00, 0x00, 0x1E, 0x0F, 0x0F, 0x0F, 0x00, 0x00, 0x00, 0x00]

def lastTrail (c : ℕ) : List ℕ → ℕ × List ℕ
  | [] => (kSentinel, [])
  | b :: p =>
    let t := (b + (2 ^ 8 - 0x80)) % 2 ^ 8
    if t ≤ 0x3f then (c <<< 6 ||| t, p) else (kSentinel, b :: p)

def secondTrail (c : ℕ) : List ℕ → ℕ × List ℕ
  | [] => (kSentinel, [])
  | b :: p =>
    let t := (b + (2 ^ 8 - 0x80)) % 2 ^ 8
    if t ≤ 0x3f then lastTrail (c <<< 6 ||| t) p else (kSentinel, b :: p)

/-- `CBU8_NEXT`: the code point and the source behind it -/
def cbu8Next : List ℕ → ℕ × List ℕ
  | [] => (kSentinel, [])
  | c :: p =>
    if c &&& 0x80 = 0 then (c, p)
    else if c ≥ 0xe0 then
      match p with
      | [] => (kSentinel, [])
      | t :: p =>
        if c < 0xf0 then
          let c := c &&& 0xf
          if kLead3T1Bits.getD c 0 &&& 1 <<< (t >>> 5) ≠ 0 then
            lastTrail (c <<< 6 ||| (t &&& 0x3f)) p
          else (kSentinel, t :: p)
        else
          let c := c - 0xf0
          if c ≤ 4 ∧ kLead4T1Bits.getD (t >>> 4) 0 &&& 1 <<< c ≠ 0 then
            secondTrail (c <<< 6 ||| (t &&& 0x3f)) p
          else (kSentinel, t :: p)
    else if c ≥ 0xc2 then lastTrail (c &&& 0x1f) p
    else (kSentinel, p)

def validated (cp : ℕ) : Bool × ℕ :=
  if isValidCodepoint cp then (true, cp) else (false, kErrorCodePoint)

def cbu16IsLead (c : ℕ) : Bool := c &&& 0xfffffc00 = 0xd800

def cbu16IsTrail (c : ℕ) : Bool := c &&& 0xfffffc00 = 0xdc00

def cbu16IsSingle (c : ℕ) : Bool := c &&& 0xfffff800 ≠ 0xd800

def cbu16GetSupplementary (lead trail : ℕ) : ℕ :=
  lead <<< 10 + trail - (0xd800 <<< 10 + 0xdc00 - 0x10000)

def singleUnit (c : ℕ) : Bool × ℕ :=
  if ¬ cbu16IsSingle c ∨ ¬ isValidCodepoint c then (false, kErrorCodePoint) else (true, c)

/-- The code point that a source starts with, as `DecodeUtf8` takes it. -/
def nextUtf8 (s : List ℕ) : (Bool × ℕ) × List ℕ := (validated (cbu8Next s).1, (cbu8Next s).2)

/-- As `DecodeUtf16` takes it: the last unit is not the first of a pair. -/
def nextUtf16 : List ℕ → (Bool × ℕ) × List ℕ
  | [] => ((false, kErrorCodePoint), [])
  | [c] => (singleUnit c, [])
  | c :: d :: rest =>
    if cbu16IsLead c ∧ cbu16IsTrail d then (validated (cbu16GetSupplementary c d), rest)
    else (singleUnit c, d :: rest)

/-- As `DecodeUtf32` takes it. -/
def nextUtf32 : List ℕ → (Bool × ℕ) × List ℕ
  | [] => ((false, kErrorCodePoint), [])
  | c :: rest => (validated c, rest)

/-- The loop of the decoders. -/
def decodeLoop (next : List ℕ → (Bool × ℕ) × List ℕ) (append : ℕ → List ℕ) :
    ℕ → Bool → Dest → List ℕ → Option (Bool × Dest)
  | _, success, d, [] => some (success, d)
  | 0, _, _, _ :: _ => none
  | rounds + 1, success, d, c :: p =>
    let (cp, rest) := next (c :: p)
    (d.puts (append cp.2)).bind fun d => decodeLoop next append rounds (success && cp.1) d rest

/-- A source type: its width, whether it has a sign, and its decoder. -/
structure SrcChar where
  width : ℕ
  signed : Bool
  next : List ℕ → (Bool × ℕ) × List ℕ

/-- `char` -/
def srcUtf8 : SrcChar := ⟨1, true, nextUtf8⟩

/-- `char8_t` -/
def srcChar8 : SrcChar := ⟨1, false, nextUtf8⟩

def srcUtf16 : SrcChar := ⟨2, false, nextUtf16⟩

/-- `wchar_t` of 32 bits -/
def srcWide : SrcChar := ⟨4, true, nextUtf32⟩

def sizeCoefficient (src : SrcChar) (dest : DestChar) : ℕ :=
  if src.width = 2 ∧ dest.width = 1 then 3
  else if src.width = 4 ∧ dest.width = 1 then 4
  else if src.width = 4 ∧ dest.width = 2 then 2
  else 1

/-- `kMaxCapacity` of a string of units of `width` bytes -/
def kMaxCapacity (width : ℕ) : ℕ := (2 ^ 63 - 1) / width - 1

/-- `static_cast<int32_t>` -/
def castInt32 (n : ℕ) : ℤ := (n : ℤ).bmod (2 ^ 32)

/-- The length that the destination is resized to, a product of `mem_size`s. -/
def reserved (src : SrcChar) (dest : DestChar) (n : ℕ) : ℕ :=
  n * sizeCoefficient src dest % 2 ^ 64

/-- The units that a decoder takes of `n`. `DecodeUtf16` subtracts one from its `int32_t`. -/
def srcLen (src : SrcChar) (n : ℕ) : Option ℕ :=
  if src.width = 2 ∧ castInt32 n = -2 ^ 31 then none else some (castInt32 n).toNat

/-- The fast path of `Convert`. A string stops the program past its capacity. -/
def convertAscii (dest : DestChar) (s : List ℕ) : Option (Bool × List ℕ) :=
  if s.length ≤ kMaxCapacity dest.width then
    some (true, s.map (· % 2 ^ (8 * dest.width)))
  else none

/-- `Convert` behind its fast path. -/
def convertDecoded (src : SrcChar) (dest : DestChar) (s : List ℕ) : Option (Bool × List ℕ) :=
  if reserved src dest s.length ≤ kMaxCapacity dest.width then do
    let count ← srcLen src s.length
    let units := List.replicate (reserved src dest s.length) 0
    let (ok, d) ← decodeLoop src.next dest.append s.length true ⟨units, 0⟩ (s.take count)
    return (ok, d.units.take d.length)
  else none

def convert (src : SrcChar) (dest : DestChar) (offset : ℕ) (s : List ℕ) :
    Option (Bool × List ℕ) :=
  if s.length = 0 then some (true, [])
  else if doIsStringAscii src.width src.signed offset s then convertAscii dest s
  else convertDecoded src dest s

/-! What `Convert` writes, and where: the index is an `int32_t` that wraps in the decoders, and a
`mem_size` in the fast path. -/

def unitWrites : ℕ → List ℕ → List (ℤ × ℕ)
  | _, [] => []
  | size, unit :: rest => (castInt32 size, unit) :: unitWrites (size + 1) rest

def loopWrites (next : List ℕ → (Bool × ℕ) × List ℕ) (append : ℕ → List ℕ) :
    ℕ → ℕ → List ℕ → List (ℤ × ℕ)
  | _, _, [] => []
  | 0, _, _ :: _ => []
  | rounds + 1, size, c :: p =>
    let (cp, rest) := next (c :: p)
    unitWrites size (append cp.2) ++
      loopWrites next append rounds (size + (append cp.2).length) rest

def asciiWrites (dest : DestChar) (s : List ℕ) : List (ℤ × ℕ) :=
  s.zipIdx.map fun r => ((r.2 : ℤ), r.1 % 2 ^ (8 * dest.width))

def convertWrites (src : SrcChar) (dest : DestChar) (offset : ℕ) (s : List ℕ) : List (ℤ × ℕ) :=
  if s.length = 0 then []
  else if doIsStringAscii src.width src.signed offset s then asciiWrites dest s
  else
    match srcLen src s.length with
    | none => []
    | some count => loopWrites src.next dest.append s.length 0 (s.take count)

/-- The length that `Convert` resizes the destination to before it writes. -/
def destLength (src : SrcChar) (dest : DestChar) (offset : ℕ) (s : List ℕ) : ℕ :=
  if doIsStringAscii src.width src.signed offset s then s.length else reserved src dest s.length

def utf8ToUtf16 : ℕ → List ℕ → Option (Bool × List ℕ) := convert srcUtf8 char16

def utf16ToUtf8 : ℕ → List ℕ → Option (Bool × List ℕ) := convert srcUtf16 char8

def utf8ToWide : ℕ → List ℕ → Option (Bool × List ℕ) := convert srcUtf8 char32

def wideToUtf8 : ℕ → List ℕ → Option (Bool × List ℕ) := convert srcWide char8

def wideToUtf16 : ℕ → List ℕ → Option (Bool × List ℕ) := convert srcWide char16

def utf16ToWide : ℕ → List ℕ → Option (Bool × List ℕ) := convert srcUtf16 char32

/-! The fast path of the conversions: a source that `DoIsStringASCII` accepts has units
below 0x80 only. -/

open List Nat

variable {width bits c i j m n : ℕ} {signed : Bool} {cs : List ℕ}

/-- The widths of the source types. -/
def IsWidth (width : ℕ) : Prop := width = 1 ∨ width = 2 ∨ width = 4

theorem testBit_nonAsciiMask (hw : IsWidth width) :
    ∀ j < 64, (nonAsciiMask width).testBit j = decide (7 ≤ j % (8 * width)) := by
  obtain rfl | rfl | rfl := hw <;> decide +kernel

theorem testBit_of_and_eq_zero (h : n &&& m = 0) (hm : m.testBit i = true) :
    n.testBit i = false := by
  have hbit := congrArg (testBit · i) h
  rw [testBit_and, hm, Bool.and_true, zero_testBit] at hbit
  exact hbit

theorem lt_of_testBit (hc : c < 2 ^ (8 * width))
    (h : ∀ j < 8 * width, 7 ≤ j → c.testBit j = false) : c < 0x80 := by
  refine lt_pow_two_of_testBit (n := 7) c fun j hj => ?_
  by_cases hlow : j < 8 * width
  · exact h j hlow hj
  · have hpow : 2 ^ (8 * width) ≤ 2 ^ j := Nat.pow_le_pow_right (by decide) (by omega)
    exact testBit_lt_two_pow (by omega)

theorem testBit_machineWord (signed : Bool) (hw : IsWidth width) (hj : j < 8 * width)
    (h : (machineWord width signed c).testBit j = false) : c.testBit j = false := by
  have hmod : machineWord width signed c % 2 ^ (8 * width) = c % 2 ^ (8 * width) := by
    unfold machineWord
    split
    · obtain rfl | rfl | rfl := hw <;> omega
    · rfl
  have hbit := testBit_mod_two_pow c (8 * width) j
  rw [← hmod, testBit_mod_two_pow, h, decide_eq_true hj] at hbit
  exact hbit.symm

theorem lt_of_machineWord (hw : IsWidth width) (hc : c < 2 ^ (8 * width))
    (h : machineWord width signed c &&& nonAsciiMask width = 0) : c < 0x80 := by
  refine lt_of_testBit hc fun j hj hseven => testBit_machineWord signed hw hj ?_
  refine testBit_of_and_eq_zero h ?_
  rw [testBit_nonAsciiMask hw j (by obtain rfl | rfl | rfl := hw <;> omega),
    mod_eq_of_lt hj, decide_eq_true hseven]

theorem or_and_eq_zero : (n ||| m) &&& i = 0 ↔ n &&& i = 0 ∧ m &&& i = 0 := by
  rw [and_or_distrib_right, or_eq_zero_iff]

theorem lt_of_orUnits (hw : IsWidth width) (hcs : ∀ c ∈ cs, c < 2 ^ (8 * width))
    (h : orUnits width signed bits cs &&& nonAsciiMask width = 0) :
    bits &&& nonAsciiMask width = 0 ∧ ∀ c ∈ cs, c < 0x80 := by
  induction cs generalizing bits with
  | nil => exact ⟨h, nofun⟩
  | cons c cs ih =>
    obtain ⟨hbits, hrest⟩ := ih (fun d hd => hcs d (mem_cons_of_mem c hd)) h
    obtain ⟨hbits, hword⟩ := or_and_eq_zero.mp hbits
    exact ⟨hbits, forall_mem_cons.mpr
      ⟨lt_of_machineWord hw (hcs c mem_cons_self) hword, hrest⟩⟩

theorem testBit_loadWord (hi : i < cs.length) (h : cs[i].testBit j = true) :
    (loadWord width cs).testBit (8 * width * i + j) = true := by
  induction cs generalizing i with
  | nil => cases hi
  | cons c cs ih =>
    have hcons : loadWord width (c :: cs) = c ||| loadWord width cs <<< (8 * width) := rfl
    rw [hcons, testBit_or, testBit_shiftLeft]
    cases i with
    | zero =>
      have hc : c.testBit j = true := h
      rw [Nat.mul_zero, Nat.zero_add, hc, Bool.true_or]
    | succ i =>
      have hi' : i < cs.length := lt_of_succ_lt_succ hi
      have hsub : 8 * width * (i + 1) + j - 8 * width = 8 * width * i + j := by
        rw [Nat.mul_add]
        omega
      have hle : 8 * width ≤ 8 * width * (i + 1) + j := by
        rw [Nat.mul_add]
        omega
      rw [hsub, ih hi' h, decide_eq_true hle, Bool.and_true, Bool.or_true]

theorem lt_of_loadWord (hw : IsWidth width) (hcs : ∀ c ∈ cs, c < 2 ^ (8 * width))
    (hlength : cs.length ≤ charsPerWord width)
    (h : loadWord width cs &&& nonAsciiMask width = 0) : ∀ c ∈ cs, c < 0x80 := by
  intro c hc
  obtain ⟨i, hi, rfl⟩ := mem_iff_getElem.mp hc
  refine lt_of_testBit (hcs _ hc) fun j hj hseven => ?_
  by_contra hbit
  have hword : (loadWord width cs).testBit (8 * width * i + j) = true :=
    testBit_loadWord hi (Bool.not_eq_false _ ▸ hbit)
  have hmod : (8 * width * i + j) % (8 * width) = j := by
    rw [mul_add_mod, mod_eq_of_lt hj]
  have hlow : 8 * width * i + j < 64 := by
    have hi' := Nat.lt_of_lt_of_le hi hlength
    unfold charsPerWord at hi'
    obtain rfl | rfl | rfl := hw <;> omega
  have hmask := testBit_nonAsciiMask hw _ hlow
  rw [hmod, decide_eq_true hseven] at hmask
  rw [testBit_of_and_eq_zero h hmask] at hword
  cases hword

theorem orWords_rest : (orWords width n bits cs).2 = cs.drop (n * charsPerWord width) := by
  induction n generalizing bits cs with
  | zero => rw [Nat.zero_mul]; rfl
  | succ n ih => rw [orWords, ih, drop_drop, succ_mul, Nat.add_comm]

theorem lt_of_orWords (hw : IsWidth width) (hcs : ∀ c ∈ cs, c < 2 ^ (8 * width))
    (h : (orWords width n bits cs).1 &&& nonAsciiMask width = 0) :
    bits &&& nonAsciiMask width = 0 ∧ ∀ c ∈ cs.take (n * charsPerWord width), c < 0x80 := by
  induction n generalizing bits cs with
  | zero => exact ⟨h, by rw [Nat.zero_mul]; exact nofun⟩
  | succ n ih =>
    obtain ⟨hbits, hrest⟩ := ih (fun d hd => hcs d (mem_of_mem_drop hd)) h
    obtain ⟨hbits, hword⟩ := or_and_eq_zero.mp hbits
    refine ⟨hbits, fun c hc => ?_⟩
    rw [succ_mul, Nat.add_comm, take_add, mem_append] at hc
    obtain hc | hc := hc
    · exact lt_of_loadWord hw (fun d hd => hcs d (mem_of_mem_take hd))
        (length_take_le _ _) hword c hc
    · exact hrest c hc

theorem lt_of_asciiBatches (hw : IsWidth width) {rounds : ℕ} {rest : List ℕ}
    (hcs : ∀ c ∈ cs, c < 2 ^ (8 * width)) (h : asciiBatches width rounds cs = some rest) :
    ∃ done, cs = done ++ rest ∧ ∀ c ∈ done, c < 0x80 := by
  induction rounds generalizing cs with
  | zero => exact ⟨[], Option.some.inj h, nofun⟩
  | succ rounds ih =>
    unfold asciiBatches at h
    split at h
    case isFalse => exact ⟨[], Option.some.inj h, nofun⟩
    case isTrue =>
      simp only at h
      obtain ⟨hzero, h⟩ := Option.ite_none_left_eq_some.mp h
      obtain ⟨-, hbatch⟩ := lt_of_orWords hw hcs (not_not.mp hzero)
      rw [orWords_rest] at h
      obtain ⟨done, hdone, hlt⟩ := ih (fun d hd => hcs d (mem_of_mem_drop hd)) h
      refine ⟨_ ++ done, ?_, fun c hc => (mem_append.mp hc).elim (hbatch c) (hlt c)⟩
      rw [append_assoc, ← hdone, take_append_drop]

theorem lt_of_doIsStringAscii (hw : IsWidth width) {offset : ℕ}
    (hcs : ∀ c ∈ cs, c < 2 ^ (8 * width))
    (h : doIsStringAscii width signed offset cs = true) : ∀ c ∈ cs, c < 0x80 := by
  unfold doIsStringAscii at h
  split at h
  case isTrue hnil =>
    rw [length_eq_zero_iff.mp hnil]
    exact nofun
  case isFalse =>
    split at h
    case isTrue => cases h
    case isFalse hzero =>
      obtain ⟨-, hfirst⟩ :=
        lt_of_orUnits hw (fun d hd => hcs d (mem_of_mem_take hd)) (not_not.mp hzero)
      split at h
      case h_1 => cases h
      case h_2 rest hbatches =>
        have hdrop : ∀ c ∈ cs.drop offset, c < 2 ^ (8 * width) :=
          fun d hd => hcs d (mem_of_mem_drop hd)
        obtain ⟨done, hdone, hlt⟩ := lt_of_asciiBatches hw hdrop hbatches
        have hrest : ∀ c ∈ rest, c < 2 ^ (8 * width) :=
          fun d hd => hdrop d (hdone ▸ mem_append_right done hd)
        have hzero := of_decide_eq_true h
        rw [orWords_rest] at hzero
        obtain ⟨hwords, hlast⟩ :=
          lt_of_orUnits hw (fun d hd => hrest d (mem_of_mem_drop hd)) hzero
        obtain ⟨-, hmiddle⟩ := lt_of_orWords hw hrest hwords
        intro c hc
        rw [← take_append_drop offset cs, hdone, mem_append, mem_append] at hc
        obtain hc | hc | hc := hc
        · exact hfirst c hc
        · exact hlt c hc
        · rw [← take_append_drop (rest.length / charsPerWord width * charsPerWord width) rest,
            mem_append] at hc
          exact hc.elim (hmiddle c) (hlast c)

/-! The check of a string whose units are ASCII. -/

def LowBits (width n : ℕ) : Prop := ∀ i, n.testBit i = true → i % (8 * width) < 7

theorem lowBits_zero (width : ℕ) : LowBits width 0 := fun i h => by simp at h

theorem LowBits.or {m : ℕ} (hn : LowBits width n) (hm : LowBits width m) :
    LowBits width (n ||| m) := by
  intro i h
  rw [testBit_or, Bool.or_eq_true] at h
  exact h.elim (hn i) (hm i)

section

variable (hw : IsWidth width)
include hw

theorem lowBits_of_lt (h : c < 0x80) : LowBits width c := by
  intro i hi
  have hi7 : i < 7 := by
    by_contra hge
    have hpow : 2 ^ 7 ≤ 2 ^ i := Nat.pow_le_pow_right (by decide) (by omega)
    rw [testBit_lt_two_pow (by omega)] at hi
    cases hi
  rw [mod_eq_of_lt (by obtain rfl | rfl | rfl := hw <;> omega)]
  exact hi7

theorem lowBits_machineWord (h : c < 0x80) : LowBits width (machineWord width signed c) := by
  have hpow : 0x80 ≤ 2 ^ (8 * width - 1) := by obtain rfl | rfl | rfl := hw <;> decide
  rw [machineWord, if_neg (by omega)]
  exact lowBits_of_lt hw h

theorem lowBits_loadWord (hcs : ∀ c ∈ cs, c < 0x80) : LowBits width (loadWord width cs) := by
  induction cs with
  | nil => exact lowBits_zero width
  | cons c cs ih =>
    have hrest := ih fun d hd => hcs d (mem_cons_of_mem c hd)
    refine (lowBits_of_lt hw (hcs c mem_cons_self)).or fun i hi => ?_
    rw [testBit_shiftLeft, Bool.and_eq_true, decide_eq_true_eq] at hi
    have hlow := hrest _ hi.2
    rwa [← mod_eq_sub_mod hi.1] at hlow

theorem LowBits.and_eq_zero (h : LowBits width n) : n &&& nonAsciiMask width = 0 := by
  refine eq_of_testBit_eq fun i => ?_
  rw [testBit_and, zero_testBit]
  by_contra hbit
  rw [Bool.not_eq_false, Bool.and_eq_true] at hbit
  by_cases hi : i < 64
  · have hmask := testBit_nonAsciiMask hw i hi
    rw [hbit.2, eq_comm, decide_eq_true_eq] at hmask
    have := h i hbit.1
    omega
  · have hlt : nonAsciiMask width < 2 ^ 64 := by obtain rfl | rfl | rfl := hw <;> decide
    have hpow : 2 ^ 64 ≤ 2 ^ i := Nat.pow_le_pow_right (by decide) (by omega)
    have hclear := testBit_lt_two_pow (Nat.lt_of_lt_of_le hlt hpow)
    cases hclear.symm.trans hbit.2

theorem lowBits_orUnits (hbits : LowBits width bits) (hcs : ∀ c ∈ cs, c < 0x80) :
    LowBits width (orUnits width signed bits cs) := by
  induction cs generalizing bits with
  | nil => exact hbits
  | cons c cs ih =>
    exact ih (hbits.or (lowBits_machineWord hw (hcs c mem_cons_self)))
      fun d hd => hcs d (mem_cons_of_mem c hd)

theorem lowBits_orWords (hbits : LowBits width bits) (hcs : ∀ c ∈ cs, c < 0x80) :
    LowBits width (orWords width n bits cs).1 := by
  induction n generalizing bits cs with
  | zero => exact hbits
  | succ n ih =>
    refine ih (hbits.or (lowBits_loadWord hw fun d hd => hcs d (mem_of_mem_take hd))) ?_
    exact fun d hd => hcs d (mem_of_mem_drop hd)

theorem exists_asciiBatches (rounds : ℕ) (hcs : ∀ c ∈ cs, c < 0x80) :
    ∃ rest, asciiBatches width rounds cs = some rest ∧ ∀ c ∈ rest, c < 0x80 := by
  induction rounds generalizing cs with
  | zero => exact ⟨cs, rfl, hcs⟩
  | succ rounds ih =>
    rw [asciiBatches]
    split
    case isFalse => exact ⟨cs, rfl, hcs⟩
    case isTrue =>
      dsimp only
      rw [if_neg (not_not.mpr ((lowBits_orWords hw (lowBits_zero width) hcs).and_eq_zero hw))]
      refine ih fun c hc => ?_
      rw [orWords_rest] at hc
      exact hcs c (mem_of_mem_drop hc)

theorem doIsStringAscii_of_lt (offset : ℕ) (hcs : ∀ c ∈ cs, c < 0x80) :
    doIsStringAscii width signed offset cs = true := by
  unfold doIsStringAscii
  split
  case isTrue => rfl
  case isFalse =>
    have hfirst : LowBits width (orUnits width signed 0 (cs.take offset)) :=
      lowBits_orUnits hw (lowBits_zero width) fun d hd => hcs d (mem_of_mem_take hd)
    have hdrop : ∀ c ∈ cs.drop offset, c < 0x80 := fun d hd => hcs d (mem_of_mem_drop hd)
    obtain ⟨rest, hrest, hlt⟩ := exists_asciiBatches hw cs.length hdrop
    rw [if_neg (not_not.mpr (hfirst.and_eq_zero hw)), hrest]
    refine decide_eq_true (LowBits.and_eq_zero hw ?_)
    refine lowBits_orUnits hw (lowBits_orWords hw (lowBits_zero width) hlt) fun d hd => ?_
    rw [orWords_rest] at hd
    exact hlt d (mem_of_mem_drop hd)

end

end Equilibrium.CodeConvert
