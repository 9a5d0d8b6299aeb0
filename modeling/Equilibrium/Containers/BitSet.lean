import Equilibrium.Library.Calls
import Equilibrium.Library.WordBits

/-! `BitSet` of `base/containers/bitsets/bitset.h`, against sets of positions. -/

namespace Equilibrium.BitSet

open Library.WordBits

section Layout

variable (N : ℕ)

/-- `kBitsPerWord`, the bits of `ArrayType`. -/
def kBitsPerWord : ℕ := if N ≤ 32 then 32 else 64

def kWords : ℕ := if N = 0 then 0 else (N - 1) / kBitsPerWord N

def kNeedsMask : Bool := N < 64

def kMask : BitVec 64 := (1#64 <<< (if kNeedsMask N then N else 0)) - 1#64

def storedBits : ℕ := (kWords N + 1) * kBitsPerWord N

end Layout

inductive Fault where
  | overflow
  deriving DecidableEq, Repr

variable {N : ℕ}

abbrev Storage (N : ℕ) := List (BitVec (kBitsPerWord N))

def empty (N : ℕ) : Storage N := List.replicate (kWords N + 1) 0

/-- The constructor from a number. -/
def ofNumber (N : ℕ) (val : BitVec 64) : Storage N :=
  (empty N).set 0 ((if kNeedsMask N then val &&& kMask N else val).setWidth _)

def reset (a : Storage N) : Storage N := a.map fun _ => 0

def set (a : Storage N) (pos : ℕ) (toggle : Bool) : Storage N :=
  let selected := pos / kBitsPerWord N
  let newBit := 1#(kBitsPerWord N) <<< (pos % kBitsPerWord N)
  a.set selected (if toggle then wordAt a selected ||| newBit else wordAt a selected &&& ~~~newBit)

def flip (a : Storage N) (pos : ℕ) : Storage N :=
  a.set (pos / kBitsPerWord N)
    (wordAt a (pos / kBitsPerWord N) ^^^ 1#(kBitsPerWord N) <<< (pos % kBitsPerWord N))

def test (a : Storage N) (pos : ℕ) : Bool :=
  (wordAt a (pos / kBitsPerWord N) &&& 1#(kBitsPerWord N) <<< (pos % kBitsPerWord N)) != 0

/-- What a loop `for (auto i = 0; i <= kWords; ++i)` gives; its index is an `int`. -/
def everyWord {α : Type} (N : ℕ) (result : α) : Except Fault α :=
  if kWords N < 2 ^ 31 - 1 then .ok result else .error .overflow

def countSetBits (a : Storage N) : Except Fault ℕ := everyWord N (count a)

def andAssign (a b : Storage N) : Except Fault (Storage N) :=
  everyWord N (List.zipWith (· &&& ·) a b)

def orAssign (a b : Storage N) : Except Fault (Storage N) :=
  everyWord N (List.zipWith (· ||| ·) a b)

def xorAssign (a b : Storage N) : Except Fault (Storage N) :=
  everyWord N (List.zipWith (· ^^^ ·) a b)

/-- `operator<<=`, from the last word down. -/
def shiftLeft (a : Storage N) (pos : ℕ) : Storage N :=
  let wordShift := pos / kBitsPerWord N
  let moved :=
    if wordShift ≠ 0 then
      sweep (fun word i => if wordShift ≤ i then word (i - wordShift) else 0)
        (List.range (kWords N + 1)).reverse a
    else a
  let pos := pos % kBitsPerWord N
  if pos ≠ 0 then
    let shifted := sweep
      (fun word i => word i <<< pos ||| word (i - 1) >>> (kBitsPerWord N - pos))
      (List.range' 1 (kWords N)).reverse moved
    shifted.set 0 (wordAt shifted 0 <<< pos)
  else moved

/-- `operator>>=`, from the first word up. -/
def shiftRight (a : Storage N) (pos : ℕ) : Storage N :=
  let wordShift := pos / kBitsPerWord N
  let moved :=
    if wordShift ≠ 0 then
      sweep (fun word i => if wordShift ≤ kWords N - i then word (i + wordShift) else 0)
        (List.range (kWords N + 1)) a
    else a
  let pos := pos % kBitsPerWord N
  if pos ≠ 0 then
    let shifted := sweep
      (fun word i => word i >>> pos ||| word (i + 1) <<< (kBitsPerWord N - pos))
      (List.range (kWords N)) moved
    shifted.set (kWords N) (wordAt shifted (kWords N) >>> pos)
  else moved

def equal (a b : Storage N) : Bool := a == b

section Calls

variable {ι : Type} [DecidableEq ι]

abbrev World (ι : Type) (N : ℕ) := ι → Storage N

inductive Call (ι : Type) (N : ℕ) where
  | construct (x : ι) (val : BitVec 64)
  | copy (x y : ι)
  | reset (x : ι)
  | set (x : ι) (pos : Fin N) (toggle : Bool)
  | flip (x : ι) (pos : Fin N)
  | test (x : ι) (pos : Fin N)
  | countSetBits (x : ι)
  | andAssign (x y : ι)
  | orAssign (x y : ι)
  | xorAssign (x y : ι)
  | shiftLeft (x : ι) (pos : ℕ)
  | shiftRight (x : ι) (pos : ℕ)
  | equal (x y : ι)

inductive Reply where
  | done
  | bit (value : Bool)
  | number (value : ℕ)
  deriving DecidableEq, Repr

def update (s : World ι N) (x : ι) (result : Except Fault (Storage N)) :
    Except Fault (World ι N × Reply) := do
  let a ← result
  .ok (Function.update s x a, .done)

def exec (s : World ι N) : Call ι N → Except Fault (World ι N × Reply)
  | .construct x val => update s x (.ok (ofNumber N val))
  | .copy x y => update s x (.ok (s y))
  | .reset x => update s x (.ok (reset (s x)))
  | .set x pos toggle => update s x (.ok (set (s x) pos toggle))
  | .flip x pos => update s x (.ok (flip (s x) pos))
  | .test x pos => .ok (s, .bit (test (s x) pos))
  | .countSetBits x => do
    let value ← countSetBits (s x)
    .ok (s, .number value)
  | .andAssign x y => update s x (andAssign (s x) (s y))
  | .orAssign x y => update s x (orAssign (s x) (s y))
  | .xorAssign x y => update s x (xorAssign (s x) (s y))
  | .shiftLeft x pos => update s x (.ok (shiftLeft (s x) pos))
  | .shiftRight x pos => update s x (.ok (shiftRight (s x) pos))
  | .equal x y => .ok (s, .bit (equal (s x) (s y)))

/-- The same calls on sets of positions below `n`, to which shifts are truncated. -/
def specExec (n : ℕ) (s : ι → Finset ℕ) : Call ι N → (ι → Finset ℕ) × Reply
  | .construct x val =>
    (Function.update s x ((Finset.range N).filter fun p => val.getLsbD p), .done)
  | .copy x y => (Function.update s x (s y), .done)
  | .reset x => (Function.update s x ∅, .done)
  | .set x pos toggle =>
    (Function.update s x (if toggle then insert pos.val (s x) else (s x).erase pos), .done)
  | .flip x pos => (Function.update s x (symmDiff (s x) {pos.val}), .done)
  | .test x pos => (s, .bit (decide (pos.val ∈ s x)))
  | .countSetBits x => (s, .number (s x).card)
  | .andAssign x y => (Function.update s x (s x ∩ s y), .done)
  | .orAssign x y => (Function.update s x (s x ∪ s y), .done)
  | .xorAssign x y => (Function.update s x (symmDiff (s x) (s y)), .done)
  | .shiftLeft x pos =>
    (Function.update s x (((s x).image (· + pos)).filter (· < n)), .done)
  | .shiftRight x pos =>
    (Function.update s x (((s x).filter (pos ≤ ·)).image (· - pos)), .done)
  | .equal x y => (s, .bit (decide (s x = s y)))

end Calls

/-! The bits of a `BitSet` after each of its operations, and runs of them as sets of the stored
positions. -/

variable {N : ℕ}

section Layout

theorem bits_pos (N : ℕ) : 0 < kBitsPerWord N := by
  unfold kBitsPerWord
  split
  case isTrue => decide
  case isFalse => decide

theorem le_storedBits (N : ℕ) : N ≤ storedBits N := by
  rw [storedBits, kWords]
  split
  case isTrue h => omega
  case isFalse h =>
    have hdiv := Nat.lt_div_mul_add (a := N - 1) (bits_pos N)
    rw [Nat.succ_mul]
    omega

theorem bit_lt (N p : ℕ) : p % kBitsPerWord N < kBitsPerWord N := Nat.mod_lt _ (bits_pos N)

end Layout

section Bits

variable {a b : Storage N} {p pos : ℕ}

theorem length_empty : (empty N).length = kWords N + 1 := List.length_replicate

theorem word_of_lt (ha : a.length = kWords N + 1) (hp : p < storedBits N) :
    p / kBitsPerWord N < a.length := ha ▸ word_lt hp

theorem within_stored (ha : a.length = kWords N + 1) : Within (storedBits N) a := by
  intro p hp
  refine bitAt_of_length_le (bits_pos N) ?_
  rw [ha]
  exact hp

theorem bitAt_empty : bitAt (empty N) p = false :=
  bitAt_of_zero fun _ hv => List.eq_of_mem_replicate hv

theorem bitAt_reset (a : Storage N) : bitAt (reset a) p = false :=
  bitAt_of_zero fun _ hv => (List.mem_map.mp hv).choose_spec.2.symm

theorem bitAt_ofNumber (val : BitVec 64) :
    bitAt (ofNumber N val) p = (decide (p < N) && val.getLsbD p) := by
  have hbit := bit_lt N p
  have hbits : kBitsPerWord N = 32 ∧ N ≤ 32 ∨ kBitsPerWord N = 64 ∧ 32 < N := by
    unfold kBitsPerWord
    split
    case isTrue h => exact .inl ⟨rfl, h⟩
    case isFalse h => exact .inr ⟨rfl, by omega⟩
  rw [ofNumber, bitAt_set (by rw [length_empty]; exact Nat.succ_pos _), bitAt_empty]
  split
  case isTrue hword =>
    have hmod : p % kBitsPerWord N = p := by
      rw [← Nat.div_add_mod p (kBitsPerWord N), ← hword, Nat.mul_zero, Nat.zero_add, Nat.mod_mod]
    rw [hmod] at hbit
    rw [BitVec.getLsbD_setWidth, hmod, decide_eq_true hbit, Bool.true_and]
    by_cases hmask : N < 64
    · have hneeds : kNeedsMask N = true := decide_eq_true hmask
      rw [hneeds, if_pos rfl, BitVec.getLsbD_and, kMask, hneeds, if_pos rfl,
        getLsbD_belowMask hmask, Bool.and_comm]
    · have hneeds : kNeedsMask N = false := decide_eq_false hmask
      rw [hneeds, if_neg Bool.false_ne_true, decide_eq_true (by omega), Bool.true_and]
  case isFalse hword =>
    have hbeyond : kBitsPerWord N ≤ p := by
      by_contra hlt
      exact hword (Nat.div_eq_of_lt (by omega)).symm
    by_cases hp : p < N
    · rw [BitVec.getLsbD_of_ge val p (by omega), Bool.and_false]
    · rw [decide_eq_false hp, Bool.false_and]

theorem bitAt_write {f : Bool → Bool → Bool} (word : BitVec (kBitsPerWord N))
    (hpos : pos / kBitsPerWord N < a.length) (hf : ∀ c, f c false = c)
    (hword : ∀ j < kBitsPerWord N, word.getLsbD j =
      f ((wordAt a (pos / kBitsPerWord N)).getLsbD j) (decide (j = pos % kBitsPerWord N))) :
    bitAt (a.set (pos / kBitsPerWord N) word) p = f (bitAt a p) (decide (p = pos)) := by
  rw [bitAt_set hpos]
  split
  case isTrue heq =>
    rw [hword _ (bit_lt N p), decide_place heq.symm, heq]
    rfl
  case isFalse hne =>
    rw [decide_eq_false, hf]
    rintro rfl
    exact hne rfl

theorem bitAt_setPos (hpos : pos / kBitsPerWord N < a.length) (toggle : Bool) :
    bitAt (set a pos toggle) p = if p = pos then toggle else bitAt a p := by
  cases toggle with
  | true =>
    have hwrite := bitAt_write (p := p)
      (wordAt a (pos / kBitsPerWord N) ||| 1#(kBitsPerWord N) <<< (pos % kBitsPerWord N))
      hpos Bool.or_false fun j hj => by rw [BitVec.getLsbD_or, getLsbD_bit hj]
    refine hwrite.trans ?_
    by_cases hp : p = pos
    · rw [decide_eq_true hp, if_pos hp, Bool.or_true]
    · rw [decide_eq_false hp, if_neg hp, Bool.or_false]
  | false =>
    have hwrite := bitAt_write (p := p) (f := fun c d => c && !d)
      (wordAt a (pos / kBitsPerWord N) &&& ~~~(1#(kBitsPerWord N) <<< (pos % kBitsPerWord N)))
      hpos Bool.and_true fun j hj => by
        rw [BitVec.getLsbD_and, BitVec.getLsbD_not, getLsbD_bit hj, decide_eq_true hj,
          Bool.true_and]
    refine hwrite.trans ?_
    by_cases hp : p = pos
    · rw [decide_eq_true hp, if_pos hp, Bool.not_true, Bool.and_false]
    · rw [decide_eq_false hp, if_neg hp, Bool.not_false, Bool.and_true]

theorem bitAt_flip (hpos : pos / kBitsPerWord N < a.length) :
    bitAt (flip a pos) p = (bitAt a p ^^ decide (p = pos)) :=
  bitAt_write _ hpos Bool.xor_false fun j hj => by
    rw [BitVec.getLsbD_xor, getLsbD_bit hj]

theorem test_eq (a : Storage N) (pos : ℕ) : test a pos = bitAt a pos := by
  rw [test, Bool.eq_iff_iff, bne_iff_ne]
  constructor
  · intro hne
    by_contra hunset
    refine hne (BitVec.eq_of_getLsbD_eq fun j hj => ?_)
    rw [BitVec.getLsbD_and, getLsbD_bit hj]
    by_cases heq : j = pos % kBitsPerWord N
    · rw [heq]
      change (bitAt a pos && _) = _
      rw [Bool.eq_false_iff.mpr hunset, Bool.false_and]
      exact BitVec.getLsbD_zero.symm
    · rw [decide_eq_false heq, Bool.and_false]
      exact BitVec.getLsbD_zero.symm
  · intro hset hzero
    have hbit := congrArg (fun word => word.getLsbD (pos % kBitsPerWord N)) hzero
    rw [BitVec.getLsbD_and, getLsbD_bit (bit_lt N pos), decide_eq_true rfl, Bool.and_true] at hbit
    exact Bool.false_ne_true ((hbit.trans BitVec.getLsbD_zero).symm.trans hset)

theorem bitAt_pair {f : BitVec (kBitsPerWord N) → BitVec (kBitsPerWord N) → BitVec (kBitsPerWord N)}
    {g : Bool → Bool → Bool} (hf : ∀ x y j, (f x y).getLsbD j = g (x.getLsbD j) (y.getLsbD j))
    (hg : g false false = false) (ha : a.length = kWords N + 1) (hb : b.length = kWords N + 1) :
    bitAt (List.zipWith f a b) p = g (bitAt a p) (bitAt b p) := by
  by_cases hp : p / kBitsPerWord N < kWords N + 1
  · rw [bitAt, wordAt_zipWith f (by omega) (by omega), hf]
    rfl
  · have hnone : ∀ {c : Storage N}, c.length = kWords N + 1 → bitAt c p = false := by
      intro c hc
      rw [bitAt, wordAt_of_length_le (by omega)]
      exact BitVec.getLsbD_zero
    rw [hnone ha, hnone hb, hg, hnone]
    rw [List.length_zipWith, ha, hb, Nat.min_self]

end Bits

section Shifts

variable {a : Storage N} {i k p : ℕ}

theorem length_shiftLeft : (shiftLeft a k).length = a.length := by
  unfold shiftLeft
  dsimp only
  split_ifs
  case pos => rw [List.length_set, length_sweep, length_sweep]
  case neg => rw [List.length_set, length_sweep]
  case pos => rw [length_sweep]
  case neg => rfl

theorem length_shiftRight : (shiftRight a k).length = a.length := by
  unfold shiftRight
  dsimp only
  split_ifs
  case pos => rw [List.length_set, length_sweep, length_sweep]
  case neg => rw [List.length_set, length_sweep]
  case pos => rw [length_sweep]
  case neg => rfl

section

variable (ha : a.length = kWords N + 1)
include ha

theorem wordAt_movedUp (wordShift i : ℕ) : wordAt (if wordShift ≠ 0 then
        sweep (fun word i => if wordShift ≤ i then word (i - wordShift) else 0)
          (List.range (kWords N + 1)).reverse a
      else a) i = if wordShift ≤ i ∧ i < kWords N + 1 then wordAt a (i - wordShift) else 0 := by
  by_cases hzero : wordShift = 0
  · subst hzero
    rw [if_neg fun h => h rfl, Nat.sub_zero]
    split
    case isTrue => rfl
    case isFalse h => exact wordAt_of_length_le (by omega)
  · have hsweep := wordAt_sweep (a := a)
      (fun word i => if wordShift ≤ i then word (i - wordShift) else 0)
      (List.range (kWords N + 1)).reverse
      (fun j hj => by
        rw [List.mem_reverse, List.mem_range] at hj
        omega)
      (List.pairwise_reverse.mpr (List.pairwise_lt_range.imp fun {j k} hlt =>
        ⟨Nat.ne_of_gt hlt, fun g v => by rw [Function.update_of_ne (by omega)]⟩)) i
    rw [if_pos hzero, hsweep]
    simp only [List.mem_reverse, List.mem_range]
    by_cases hi : i < kWords N + 1
    · rw [if_pos hi]
      by_cases hle : wordShift ≤ i
      · rw [if_pos hle, if_pos ⟨hle, hi⟩]
      · rw [if_neg hle, if_neg fun h => hle h.1]
    · rw [if_neg hi, if_neg fun h => hi h.2]
      exact wordAt_of_length_le (by omega)

theorem wordAt_movedDown (wordShift i : ℕ) : wordAt (if wordShift ≠ 0 then
        sweep (fun word i => if wordShift ≤ kWords N - i then word (i + wordShift) else 0)
          (List.range (kWords N + 1)) a
      else a) i = wordAt a (i + wordShift) := by
  by_cases hzero : wordShift = 0
  · subst hzero
    rw [if_neg fun h => h rfl, Nat.add_zero]
  · have hsweep := wordAt_sweep (a := a)
      (fun word i => if wordShift ≤ kWords N - i then word (i + wordShift) else 0)
      (List.range (kWords N + 1))
      (fun j hj => by
        rw [List.mem_range] at hj
        omega)
      (List.pairwise_lt_range.imp fun {j k} hlt =>
        ⟨Nat.ne_of_lt hlt, fun g v => by rw [Function.update_of_ne (by omega)]⟩) i
    rw [if_pos hzero, hsweep]
    simp only [List.mem_range]
    by_cases hi : i < kWords N + 1
    · rw [if_pos hi]
      split
      case isTrue => rfl
      case isFalse h => exact (wordAt_of_length_le (by omega)).symm
    · rw [if_neg hi, wordAt_of_length_le (by omega), wordAt_of_length_le (by omega)]

theorem wordAt_shiftedUp (hi : i < kWords N + 1) (r : ℕ) :
    wordAt ((sweep (fun word i => word i <<< r ||| word (i - 1) >>> (kBitsPerWord N - r))
        (List.range' 1 (kWords N)).reverse a).set 0
          (wordAt (sweep (fun word i => word i <<< r ||| word (i - 1) >>> (kBitsPerWord N - r))
            (List.range' 1 (kWords N)).reverse a) 0 <<< r)) i =
      wordAt a i <<< r ||| (if 0 < i then wordAt a (i - 1) else 0) >>> (kBitsPerWord N - r) := by
  have hmem : ∀ j, j ∈ (List.range' 1 (kWords N)).reverse ↔ 1 ≤ j ∧ j < 1 + kWords N := fun j => by
    rw [List.mem_reverse, List.mem_range'_1]
  have hsweep := wordAt_sweep (a := a)
    (fun word i => word i <<< r ||| word (i - 1) >>> (kBitsPerWord N - r))
    (List.range' 1 (kWords N)).reverse
    (fun j hj => by
      have := (hmem j).mp hj
      omega)
    (List.pairwise_reverse.mpr ((List.pairwise_lt_range' 1).imp fun {j k} hlt =>
      ⟨Nat.ne_of_gt hlt, fun g v => by
        rw [Function.update_of_ne (by omega), Function.update_of_ne (by omega)]⟩))
  rw [wordAt_set (by rw [length_sweep]; omega), hsweep, hsweep]
  by_cases hzero : 0 = i
  · subst hzero
    rw [if_pos rfl, if_neg fun h => absurd ((hmem 0).mp h).1 (by decide),
      if_neg (Nat.lt_irrefl 0), BitVec.ofNat_eq_ofNat, BitVec.zero_ushiftRight, BitVec.or_zero]
  · rw [if_neg hzero, if_pos ((hmem i).mpr (by omega)), if_pos (by omega : 0 < i)]

theorem wordAt_shiftedDown (hi : i < kWords N + 1) (r : ℕ) :
    wordAt ((sweep (fun word i => word i >>> r ||| word (i + 1) <<< (kBitsPerWord N - r))
        (List.range (kWords N)) a).set (kWords N)
          (wordAt (sweep (fun word i => word i >>> r ||| word (i + 1) <<< (kBitsPerWord N - r))
            (List.range (kWords N)) a) (kWords N) >>> r)) i =
      wordAt a i >>> r ||| wordAt a (i + 1) <<< (kBitsPerWord N - r) := by
  have hsweep := wordAt_sweep (a := a)
    (fun word i => word i >>> r ||| word (i + 1) <<< (kBitsPerWord N - r))
    (List.range (kWords N))
    (fun j hj => by
      have := List.mem_range.mp hj
      omega)
    (List.pairwise_lt_range.imp fun {j k} hlt =>
      ⟨Nat.ne_of_lt hlt, fun g v => by
        rw [Function.update_of_ne (by omega), Function.update_of_ne (by omega)]⟩)
  rw [wordAt_set (by rw [length_sweep]; omega), hsweep, hsweep]
  by_cases hlast : kWords N = i
  · subst hlast
    have hbeyond : wordAt a (kWords N + 1) = 0 := wordAt_of_length_le (by omega)
    rw [if_pos rfl, if_neg fun h => absurd (List.mem_range.mp h) (Nat.lt_irrefl _), hbeyond,
      BitVec.ofNat_eq_ofNat, BitVec.zero_shiftLeft, BitVec.or_zero]
  · rw [if_neg hlast, if_pos (List.mem_range.mpr (by omega))]

theorem bitAt_shiftLeft :
    bitAt (shiftLeft a k) p = (decide (p < storedBits N) && (decide (k ≤ p) && bitAt a (p - k))) := by
  have hw := bits_pos N
  by_cases hp : p < storedBits N
  · have hword : p / kBitsPerWord N < kWords N + 1 := word_lt hp
    rw [decide_eq_true hp, Bool.true_and, bitAt, bitAt, ← getLsbD_left hw (wordAt a) p k]
    congr 1
    unfold shiftLeft
    dsimp only
    have hmoved := wordAt_movedUp ha (k / kBitsPerWord N)
    have hlength : (if k / kBitsPerWord N ≠ 0 then
        sweep (fun word i => if k / kBitsPerWord N ≤ i then word (i - k / kBitsPerWord N) else 0)
          (List.range (kWords N + 1)).reverse a else a).length = kWords N + 1 := by
      split
      case isTrue => rw [length_sweep, ha]
      case isFalse => exact ha
    generalize (if k / kBitsPerWord N ≠ 0 then
        sweep (fun word i => if k / kBitsPerWord N ≤ i then word (i - k / kBitsPerWord N) else 0)
          (List.range (kWords N + 1)).reverse a else a) = moved at hmoved hlength ⊢
    generalize p / kBitsPerWord N = i at hword ⊢
    have hself : (if k / kBitsPerWord N ≤ i then wordAt a (i - k / kBitsPerWord N) else 0) =
        wordAt moved i := by
      rw [hmoved]
      simp only [hword, and_true]
    have hbelow : (if k / kBitsPerWord N + 1 ≤ i then
        wordAt a (i - 1 - k / kBitsPerWord N) else 0) =
          if 0 < i then wordAt moved (i - 1) else 0 := by
      rw [hmoved]
      by_cases hi : 0 < i
      · rw [if_pos hi]
        have hcond : k / kBitsPerWord N ≤ i - 1 ∧ i - 1 < kWords N + 1 ↔
            k / kBitsPerWord N + 1 ≤ i := by
          generalize k / kBitsPerWord N = q
          omega
        simp only [hcond]
      · rw [if_neg hi, if_neg fun h => hi (Nat.lt_of_lt_of_le (Nat.succ_pos _) h)]
    rw [hself, hbelow]
    by_cases hzero : k % kBitsPerWord N = 0
    · rw [if_neg fun h => h hzero, hzero, Nat.sub_zero, BitVec.shiftLeft_zero]
      rw [BitVec.ushiftRight_eq_zero le_rfl, BitVec.or_zero]
    · rw [if_pos hzero]
      exact wordAt_shiftedUp hlength hword _
  · rw [decide_eq_false hp, Bool.false_and]
    exact within_stored (length_shiftLeft.trans ha) p (by omega)

theorem bitAt_shiftRight : bitAt (shiftRight a k) p = bitAt a (p + k) := by
  have hw := bits_pos N
  by_cases hp : p < storedBits N
  · have hword : p / kBitsPerWord N < kWords N + 1 := word_lt hp
    rw [bitAt, bitAt, ← getLsbD_right hw (wordAt a) p k]
    congr 1
    unfold shiftRight
    dsimp only
    have hmoved := wordAt_movedDown ha (k / kBitsPerWord N)
    have hlength : (if k / kBitsPerWord N ≠ 0 then
        sweep (fun word i => if k / kBitsPerWord N ≤ kWords N - i then
          word (i + k / kBitsPerWord N) else 0) (List.range (kWords N + 1)) a
        else a).length = kWords N + 1 := by
      split
      case isTrue => rw [length_sweep, ha]
      case isFalse => exact ha
    generalize (if k / kBitsPerWord N ≠ 0 then
        sweep (fun word i => if k / kBitsPerWord N ≤ kWords N - i then
          word (i + k / kBitsPerWord N) else 0) (List.range (kWords N + 1)) a
        else a) = moved at hmoved hlength ⊢
    rw [← hmoved, ← hmoved]
    by_cases hzero : k % kBitsPerWord N = 0
    · rw [if_neg fun h => h hzero, hzero, Nat.sub_zero, BitVec.ushiftRight_zero,
        BitVec.shiftLeft_eq_zero le_rfl, BitVec.or_zero]
    · rw [if_pos hzero]
      exact wordAt_shiftedDown hlength hword _
  · rw [within_stored ha (p + k) (by omega)]
    exact within_stored (length_shiftRight.trans ha) p (by omega)

end

end Shifts

section Steps

variable {n : ℕ} {a b : Storage N}

/-- Storage of the right length with no bit from `n` on. -/
structure Kept (n : ℕ) (a : Storage N) : Prop where
  length : a.length = kWords N + 1
  within : Within n a

theorem kept_of_bits {f : ℕ → Bool} (hlength : a.length = kWords N + 1)
    (hbits : ∀ p, bitAt a p = f p) (hf : ∀ p, n ≤ p → f p = false) : Kept n a :=
  ⟨hlength, fun p hp => (hbits p).trans (hf p hp)⟩

theorem members_of_bits {f : ℕ → Bool} {S : Finset ℕ} (hbits : ∀ p, bitAt a p = f p)
    (hS : ∀ p, p ∈ S ↔ p < n ∧ f p = true) : members n a = S := by
  ext p
  rw [mem_members, hbits, hS]

theorem kept_empty : Kept n (empty N) := ⟨length_empty, fun _ _ => bitAt_empty⟩

theorem Kept.word_lt (ha : Kept n a) (pos : Fin N) : pos / kBitsPerWord N < a.length :=
  word_of_lt ha.length (Nat.lt_of_lt_of_le pos.isLt (le_storedBits N))

variable {ι : Type} [DecidableEq ι]

/-- The sets of positions below `n` that the objects hold. -/
def below (n : ℕ) (s : World ι N) : ι → Finset ℕ := fun x => members n (s x)

/-- The call returns, does on the objects what it does on the sets below `n` and leaves no bit
from `n` on. -/
def Behaves (n : ℕ) (s : World ι N) (c : Call ι N) : Prop :=
  ∃ s' r, exec s c = .ok (s', r) ∧ r = (specExec n (below n s) c).2 ∧
    below n s' = (specExec n (below n s) c).1 ∧ ∀ x, Kept n (s' x)

/-- No `<<=` carries a position below `n` to one from `n` on that the words still hold. -/
def Contained (n : ℕ) (s : World ι N) : Call ι N → Prop
  | .shiftLeft x pos => ∀ q ∈ below n s x, q + pos < n ∨ storedBits N ≤ q + pos
  | _ => True

instance (n : ℕ) (s : World ι N) : ∀ c : Call ι N, Decidable (Contained n s c)
  | .shiftLeft x pos =>
    inferInstanceAs (Decidable (∀ q ∈ below n s x, q + pos < n ∨ storedBits N ≤ q + pos))
  | .construct _ _ | .copy _ _ | .reset _ | .set _ _ _ | .flip _ _ | .test _ _ | .countSetBits _
  | .andAssign _ _ | .orAssign _ _ | .xorAssign _ _ | .shiftRight _ _ | .equal _ _ =>
    isTrue trivial

variable {s : World ι N}

theorem below_update (s : World ι N) (x : ι) (a : Storage N) :
    below n (Function.update s x a) = Function.update (below n s) x (members n a) :=
  Function.comp_update (members n) s x a

theorem kept_update (hs : ∀ z, Kept n (s z)) (x : ι) (ha : Kept n a) :
    ∀ z, Kept n (Function.update s x a z) :=
  (Function.forall_update_iff s fun _ a => Kept n a).mpr ⟨ha, fun z _ => hs z⟩

theorem everyWord_ok {α : Type} (hwords : kWords N < 2 ^ 31 - 1) (result : α) :
    everyWord N result = .ok result := if_pos hwords

theorem behaves_of_update (hs : ∀ z, Kept n (s z)) {c : Call ι N} {x : ι} {S : Finset ℕ}
    (hexec : exec s c = .ok (Function.update s x a, .done))
    (hspec : specExec n (below n s) c = (Function.update (below n s) x S, .done))
    (ha : Kept n a) (h : members n a = S) : Behaves n s c := by
  refine ⟨_, _, hexec, ?_, ?_, kept_update hs x ha⟩
  · rw [hspec]
  · rw [hspec, below_update, h]

theorem members_shiftLeft (hn : n ≤ storedBits N) (ha : Kept n a) (k : ℕ) :
    members n (shiftLeft a k) = ((members n a).image (· + k)).filter (· < n) := by
  ext p
  rw [mem_members, bitAt_shiftLeft ha.length, Finset.mem_filter, Finset.mem_image, and_comm]
  refine and_congr_left fun hp => ?_
  rw [decide_eq_true (Nat.lt_of_lt_of_le hp hn), Bool.true_and, Bool.and_eq_true,
    decide_eq_true_iff]
  constructor
  · rintro ⟨hle, hbit⟩
    exact ⟨p - k, ha.within.mem_members.mpr hbit, Nat.sub_add_cancel hle⟩
  · rintro ⟨q, hq, rfl⟩
    rw [Nat.add_sub_cancel]
    exact ⟨Nat.le_add_left k q, ha.within.mem_members.mp hq⟩

theorem within_shiftLeft_iff (ha : Kept n a) (k : ℕ) :
    Within n (shiftLeft a k) ↔ ∀ q ∈ members n a, q + k < n ∨ storedBits N ≤ q + k := by
  constructor
  · intro h q hq
    by_contra hbetween
    have hbit := h (q + k) (by omega)
    rw [bitAt_shiftLeft ha.length, decide_eq_true (by omega), decide_eq_true (by omega),
      Nat.add_sub_cancel, ha.within.mem_members.mp hq] at hbit
    exact Bool.false_ne_true hbit.symm
  · intro h p hp
    rw [bitAt_shiftLeft ha.length, Bool.eq_false_iff]
    intro hbit
    rw [Bool.and_eq_true, Bool.and_eq_true, decide_eq_true_iff, decide_eq_true_iff] at hbit
    obtain ⟨hstored, hle, hset⟩ := hbit
    have := h (p - k) (ha.within.mem_members.mpr hset)
    omega

theorem members_shiftRight (ha : Kept n a) (k : ℕ) :
    members n (shiftRight a k) = ((members n a).filter (k ≤ ·)).image (· - k) := by
  ext p
  rw [mem_members, bitAt_shiftRight ha.length, Finset.mem_image]
  constructor
  · rintro ⟨-, hbit⟩
    refine ⟨p + k, ?_, Nat.add_sub_cancel p k⟩
    exact Finset.mem_filter.mpr ⟨ha.within.mem_members.mpr hbit, Nat.le_add_left k p⟩
  · rintro ⟨q, hq, rfl⟩
    obtain ⟨hq, hle⟩ := Finset.mem_filter.mp hq
    have hlt := (mem_members.mp hq).1
    rw [Nat.sub_add_cancel hle]
    exact ⟨by omega, (mem_members.mp hq).2⟩

theorem kept_shiftRight (ha : Kept n a) (k : ℕ) : Kept n (shiftRight a k) :=
  ⟨length_shiftRight.trans ha.length, fun p hp =>
    (bitAt_shiftRight ha.length).trans (ha.within (p + k) (by omega))⟩

section

variable {f : BitVec (kBitsPerWord N) → BitVec (kBitsPerWord N) → BitVec (kBitsPerWord N)}
  {g : Bool → Bool → Bool} (hf : ∀ x y j, (f x y).getLsbD j = g (x.getLsbD j) (y.getLsbD j))
include hf

theorem kept_pair (hg : g false false = false) (ha : Kept n a) (hb : Kept n b) :
    Kept n (List.zipWith f a b) := by
  refine kept_of_bits ?_ (fun _ => bitAt_pair hf hg ha.length hb.length) fun p hp => ?_
  · rw [List.length_zipWith, ha.length, hb.length, Nat.min_self]
  · rw [ha.within p hp, hb.within p hp, hg]

theorem members_pair (hg : g false false = false) (ha : Kept n a) (hb : Kept n b) {S : Finset ℕ}
    (hS : ∀ p, p ∈ S ↔ p < n ∧ g (bitAt a p) (bitAt b p) = true) :
    members n (List.zipWith f a b) = S :=
  members_of_bits (fun _ => bitAt_pair hf hg ha.length hb.length) hS

end

theorem behaves_iff (hwords : kWords N < 2 ^ 31 - 1) (hN : N ≤ n) (hn : n ≤ storedBits N)
    (hs : ∀ z, Kept n (s z)) (c : Call ι N) : Behaves n s c ↔ Contained n s c := by
  cases c with
  | construct x val =>
    have hbits : ∀ p, bitAt (ofNumber N val) p = (decide (p < N) && val.getLsbD p) := fun p =>
      bitAt_ofNumber val
    refine iff_of_true (behaves_of_update hs rfl rfl (kept_of_bits ?_ hbits fun p hp => ?_)
      (members_of_bits hbits fun p => ?_)) trivial
    · rw [ofNumber, List.length_set, length_empty]
    · rw [decide_eq_false (by omega), Bool.false_and]
    · rw [Finset.mem_filter, Finset.mem_range, Bool.and_eq_true, decide_eq_true_iff]
      exact ⟨fun h => ⟨Nat.lt_of_lt_of_le h.1 hN, h⟩, And.right⟩
  | copy x y => exact iff_of_true (behaves_of_update hs rfl rfl (hs y) rfl) trivial
  | reset x =>
    have hbits : ∀ p, bitAt (reset (s x)) p = false := fun p => bitAt_reset (s x)
    refine iff_of_true (behaves_of_update hs rfl rfl (kept_of_bits ?_ hbits fun _ _ => rfl)
      (members_of_bits hbits fun p => ?_)) trivial
    · rw [reset, List.length_map, (hs x).length]
    · exact iff_of_false (Finset.notMem_empty p) fun h => Bool.false_ne_true h.2
  | set x pos toggle =>
    have hbits : ∀ p, bitAt (set (s x) pos toggle) p = if p = pos then toggle else bitAt (s x) p :=
      fun p => bitAt_setPos ((hs x).word_lt pos) toggle
    refine iff_of_true (behaves_of_update hs rfl rfl (kept_of_bits ?_ hbits fun p hp => ?_)
      (members_of_bits hbits fun p => ?_)) trivial
    · rw [set, List.length_set, (hs x).length]
    · rw [if_neg (by omega), (hs x).within p hp]
    · cases toggle with
      | true =>
        rw [if_pos rfl, Finset.mem_insert, below, mem_members]
        by_cases hp : p = pos
        · rw [if_pos hp]
          exact iff_of_true (.inl hp) ⟨by omega, rfl⟩
        · rw [if_neg hp]
          exact or_iff_right hp
      | false =>
        rw [if_neg Bool.false_ne_true, Finset.mem_erase, below, mem_members]
        by_cases hp : p = pos
        · rw [if_pos hp]
          exact iff_of_false (fun h => h.1 hp) fun h => Bool.false_ne_true h.2
        · rw [if_neg hp]
          exact and_iff_right hp
  | flip x pos =>
    have hbits : ∀ p, bitAt (flip (s x) pos) p = (bitAt (s x) p ^^ decide (p = pos)) :=
      fun p => bitAt_flip ((hs x).word_lt pos)
    refine iff_of_true (behaves_of_update hs rfl rfl (kept_of_bits ?_ hbits fun p hp => ?_)
      (members_of_bits hbits fun p => ?_)) trivial
    · rw [flip, List.length_set, (hs x).length]
    · rw [(hs x).within p hp, decide_eq_false (by omega), Bool.xor_false]
    · rw [Finset.mem_symmDiff, Finset.mem_singleton, below, mem_members]
      by_cases hp : p = pos
      · rw [decide_eq_true hp, Bool.xor_true, Bool.not_eq_true', ← Bool.not_eq_true]
        have hlt : p < n := by omega
        tauto
      · rw [decide_eq_false hp, Bool.xor_false]
        tauto
  | test x pos =>
    refine iff_of_true ⟨s, _, rfl, congrArg Reply.bit ?_, rfl, hs⟩ trivial
    rw [test_eq, Bool.eq_iff_iff, decide_eq_true_iff, below, (hs x).within.mem_members]
  | countSetBits x =>
    refine iff_of_true ⟨s, .number (count (s x)), ?_, congrArg Reply.number ?_, rfl, hs⟩
      trivial
    · rw [exec, countSetBits, everyWord_ok hwords]
      rfl
    · rw [below]
      exact count_eq_card_members (bits_pos N) ((hs x).length ▸ hn) (hs x).within
  | andAssign x y =>
    have hbit : ∀ (v u : BitVec (kBitsPerWord N)) j, (v &&& u).getLsbD j =
        Bool.and (v.getLsbD j) (u.getLsbD j) := fun v u j => BitVec.getLsbD_and
    refine iff_of_true (behaves_of_update hs ?_ rfl (kept_pair hbit rfl (hs x) (hs y))
      (members_pair hbit rfl (hs x) (hs y) fun p => ?_)) trivial
    · rw [exec, andAssign, everyWord_ok hwords]
      rfl
    · rw [Finset.mem_inter, below, below, mem_members, mem_members, Bool.and_eq_true]
      tauto
  | orAssign x y =>
    have hbit : ∀ (v u : BitVec (kBitsPerWord N)) j, (v ||| u).getLsbD j =
        Bool.or (v.getLsbD j) (u.getLsbD j) := fun v u j => BitVec.getLsbD_or
    refine iff_of_true (behaves_of_update hs ?_ rfl (kept_pair hbit rfl (hs x) (hs y))
      (members_pair hbit rfl (hs x) (hs y) fun p => ?_)) trivial
    · rw [exec, orAssign, everyWord_ok hwords]
      rfl
    · rw [Finset.mem_union, below, below, mem_members, mem_members, Bool.or_eq_true]
      tauto
  | xorAssign x y =>
    have hbit : ∀ (v u : BitVec (kBitsPerWord N)) j, (v ^^^ u).getLsbD j =
        Bool.xor (v.getLsbD j) (u.getLsbD j) := fun v u j => BitVec.getLsbD_xor
    refine iff_of_true (behaves_of_update hs ?_ rfl (kept_pair hbit rfl (hs x) (hs y))
      (members_pair hbit rfl (hs x) (hs y) fun p => ?_)) trivial
    · rw [exec, xorAssign, everyWord_ok hwords]
      rfl
    · rw [Finset.mem_symmDiff, below, below, mem_members, mem_members]
      cases bitAt (s x) p <;> cases bitAt (s y) p <;> simp
  | shiftLeft x pos =>
    rw [Contained, below, ← within_shiftLeft_iff (hs x)]
    constructor
    · rintro ⟨s', r, hexec, -, -, hkept⟩
      cases hexec
      have hself := hkept x
      rw [Function.update_self] at hself
      exact hself.within
    · intro h
      exact behaves_of_update hs rfl rfl ⟨length_shiftLeft.trans (hs x).length, h⟩
        (members_shiftLeft hn (hs x) pos)
  | shiftRight x pos =>
    exact iff_of_true (behaves_of_update hs rfl rfl (kept_shiftRight (hs x) pos)
      (members_shiftRight (hs x) pos)) trivial
  | equal x y =>
    refine iff_of_true ⟨s, _, rfl, congrArg Reply.bit ?_, rfl, hs⟩ trivial
    rw [equal, Bool.eq_iff_iff, beq_iff_eq, decide_eq_true_iff]
    constructor
    · intro h
      rw [below, below, h]
    · intro h
      exact members_injective (bits_pos N) ((hs x).length.trans (hs y).length.symm)
        (hs x).within (hs y).within h

end Steps

/-- In every run from empty sets the calls behave as on sets of the positions that the words hold;
with `N` in place of their number they do exactly as long as no `<<=` carries a position over
`N`. -/
theorem behaves_as_stored {ι : Type} [DecidableEq ι] (hwords : kWords N < 2 ^ 31 - 1)
    (calls : List (Call ι N)) :
    Library.Calls.Guarded exec (Behaves (storedBits N)) (fun _ => empty N) calls ∧
      (Library.Calls.Guarded exec (Behaves N) (fun _ => empty N) calls ↔
        Library.Calls.Guarded exec (Contained N) (fun _ => empty N) calls) := by
  have hruns : ∀ n, N ≤ n → n ≤ storedBits N →
      (Library.Calls.Guarded exec (Behaves n) (fun _ => empty N) calls ↔
        Library.Calls.Guarded exec (Contained n) (fun _ => empty N) calls) := by
    intro n hN hn
    have hall : Library.Calls.Guarded exec (fun _ _ => True) (fun _ : ι => empty N) calls :=
      Library.Calls.guarded_of_forall (fun _ _ _ => trivial) _
    refine Library.Calls.guarded_congr (fun s : World ι N => ∀ z, Kept n (s z))
      (fun s c hs _ => behaves_iff hwords hN hn hs c) ?_ (fun _ => kept_empty) hall
    rintro s c s' r - - ⟨s₁, r₁, hexec, -, -, hkept⟩ hx
    obtain ⟨rfl, -⟩ := Prod.mk.inj (Except.ok.inj (hexec.symm.trans hx))
    exact hkept
  refine ⟨(hruns _ (le_storedBits N) le_rfl).mpr ?_, hruns N (Nat.le_refl N)
    (le_storedBits N)⟩
  refine Library.Calls.guarded_of_forall (fun c _ s => ?_) _
  cases c
  case shiftLeft => exact fun q _ => Nat.lt_or_ge _ (storedBits N)
  all_goals trivial

section Examples

theorem three_lt : 3 < 4 := by decide

theorem four_words : kWords 4 < 2 ^ 31 - 1 := by decide

/-- Bits 0 and 3 of four, shifted by two and back. -/
theorem behaves_as_stored_four : kWords 4 < 2 ^ 31 - 1 ∧
      Library.Calls.Guarded exec (Behaves (storedBits 4)) (fun _ : Unit => empty 4)
        [.construct () 9, .shiftLeft () 2, .countSetBits (), .shiftRight () 2] ∧
      Library.Calls.Guarded exec (Behaves 4) (fun _ : Unit => empty 4)
        [.construct () 2, .flip () ⟨3, three_lt⟩, .shiftRight () 1, .equal () ()] := by
  refine ⟨four_words, (behaves_as_stored four_words _).1, (behaves_as_stored four_words _).2.mpr ?_⟩
  exact ⟨trivial, fun _ _ _ => ⟨trivial, fun _ _ _ => ⟨trivial, fun _ _ _ => ⟨trivial,
    fun _ _ _ => trivial⟩⟩⟩⟩

/-- Of the four positions, 3 is carried to the storage bit 5, which then counts. -/
theorem shiftLeft_not_trimmed : ¬Library.Calls.Guarded exec (Behaves 4) (fun _ : Unit => empty 4)
        [.construct () 9, .shiftLeft () 2] ∧
      ¬Library.Calls.Guarded exec (fun s c => ∀ s' r, exec s c = .ok (s', r) →
          r = (specExec 4 (below 4 s) c).2) (fun _ : Unit => empty 4)
        [.construct () 9, .shiftLeft () 2, .countSetBits ()] := by
  constructor
  · rintro ⟨-, h⟩
    obtain ⟨⟨s', r, hexec, -, -, hkept⟩, -⟩ := h _ _ rfl
    cases hexec
    exact absurd ((hkept ()).within 5 (by decide)) (by decide +kernel)
  · rintro ⟨-, h⟩
    obtain ⟨-, h⟩ := h _ _ rfl
    obtain ⟨hcount, -⟩ := h _ _ rfl
    exact absurd (hcount _ _ rfl) (by decide +kernel)

end Examples

end Equilibrium.BitSet
