import Equilibrium.Library.Calls
import Equilibrium.Library.WordBits

/-! `BetterBitSet` of `base/containers/bitsets/better_bitset.h`, against subsets of its
positions. -/

namespace Equilibrium.BetterBitSet

open Library.WordBits
open Function (update)

/-- The argument `N` of the template. An array of no words is not a type, so that `N + 63`
stays below `2 ^ 64`. -/
structure Width where
  size : ℕ
  pos : 0 < size
  fits : size + 63 < 2 ^ 64

namespace Width

variable (N : Width)

/-- The bits of `ArrayType`. -/
def wordBits : ℕ :=
  if 32 < N.size then 64 else if 16 < N.size then 32 else if 8 < N.size then 16 else 8

def kLastMask : BitVec 64 := ~~~(~~~1#64 <<< ((N.size - 1) % 64))

def kWords : ℕ := (N.size + 63) % 2 ^ 64 / 64

def kNeedsMask : Bool := N.size < 64

def kMask : BitVec 64 := (1#64 <<< (if N.kNeedsMask then N.size else 0)) - 1#64

end Width

abbrev Storage (N : Width) := List (BitVec N.wordBits)

variable {N : Width}

def empty (N : Width) : Storage N := List.replicate N.kWords 0

/-- The constructor from a number. -/
def ofNumber (N : Width) (val : BitVec 64) : Storage N :=
  (empty N).set 0 ((if N.kNeedsMask then val &&& N.kMask else val).setWidth _)

def countSetBits (a : Storage N) : ℕ := count a

/-- `operator[]` -/
def subscript (a : Storage N) (pos : ℕ) : Bool :=
  if 64 < N.size then
    let chunk := pos / 64
    let shift := pos % 64
    wordAt a chunk >>> shift != 0
  else ((wordAt a 0).setWidth 64 >>> pos) &&& 1#64 != 0

def setAll (N : Width) : Storage N :=
  List.replicate (N.kWords - 1) (BitVec.allOnes _) ++ [N.kLastMask.setWidth _]

def flip (a : Storage N) : Storage N :=
  (a.take (N.kWords - 1)).map (~~~ ·) ++
    [(~~~(wordAt a (N.kWords - 1)).setWidth 64 &&& N.kLastMask).setWidth _]

def resetAll (a : Storage N) : Storage N := a.map fun _ => 0

def reset (a : Storage N) (pos : ℕ) : Storage N :=
  if 64 < N.size then
    let chunk := pos / 64
    let shift := pos % 64
    if chunk = N.kWords - 1 then
      a.set chunk (((wordAt a chunk).setWidth 64 &&&
        (~~~(1#64 <<< shift) &&& N.kLastMask)).setWidth _)
    else a.set chunk (((wordAt a chunk).setWidth 64 &&& ~~~(1#64 <<< shift)).setWidth _)
  else a.set 0 (((wordAt a 0).setWidth 64 &&& (~~~(1#64 <<< pos) &&& N.kLastMask)).setWidth _)

def set (a : Storage N) (pos : ℕ) (value : Bool) : Storage N :=
  if value = false then reset a pos
  else if 64 < N.size then
    let chunk := pos / 64
    let shift := pos % 64
    a.set chunk (((wordAt a chunk).setWidth 64 ||| 1#64 <<< shift).setWidth _)
  else a.set 0 (wordAt a 0 ||| (1#64 <<< pos).setWidth _)

def equal (a b : Storage N) : Bool := a == b

/-- `operator&=`; a word is combined with the word at its own index, also of the same object. -/
def andAssign (a b : Storage N) : Storage N :=
  List.zipWith (fun v u => (v.setWidth 64 &&& (u.setWidth 64 &&& N.kLastMask)).setWidth _) a b

def xorAssign (a b : Storage N) : Storage N := List.zipWith (· ^^^ ·) a b

section Calls

variable {ι : Type} [DecidableEq ι]

abbrev World (ι : Type) (N : Width) := ι → Storage N

/-- The loop of `operator|=`, over positions. -/
def orAssign (s : World ι N) (x y : ι) : World ι N :=
  (List.range N.kWords).foldl
    (fun s i => update s x (set (s x) i (subscript (s x) i || subscript (s y) i))) s

/-- A call on the objects; `&=` is there for at most 64 positions only. -/
inductive Call (ι : Type) (N : Width) where
  | construct (x : ι) (val : BitVec 64)
  | copy (x y : ι)
  | set (x : ι) (pos : Fin N.size) (value : Bool)
  | setAll (x : ι)
  | reset (x : ι) (pos : Fin N.size)
  | resetAll (x : ι)
  | flip (x : ι)
  | subscript (x : ι) (pos : Fin N.size)
  | andAssign (available : N.size ≤ 64) (x y : ι)
  | orAssign (x y : ι)
  | xorAssign (x y : ι)
  | countSetBits (x : ι)
  | equal (x y : ι)

inductive Reply where
  | done
  | bit (value : Bool)
  | number (value : ℕ)
  deriving DecidableEq, Repr

def exec (s : World ι N) : Call ι N → World ι N × Reply
  | .construct x val => (update s x (ofNumber N val), .done)
  | .copy x y => (update s x (s y), .done)
  | .set x pos value => (update s x (set (s x) pos value), .done)
  | .setAll x => (update s x (setAll N), .done)
  | .reset x pos => (update s x (reset (s x) pos), .done)
  | .resetAll x => (update s x (resetAll (s x)), .done)
  | .flip x => (update s x (flip (s x)), .done)
  | .subscript x pos => (s, .bit (subscript (s x) pos))
  | .andAssign _ x y => (update s x (andAssign (s x) (s y)), .done)
  | .orAssign x y => (orAssign s x y, .done)
  | .xorAssign x y => (update s x (xorAssign (s x) (s y)), .done)
  | .countSetBits x => (s, .number (countSetBits (s x)))
  | .equal x y => (s, .bit (equal (s x) (s y)))

def specExec (s : ι → Finset (Fin N.size)) : Call ι N → (ι → Finset (Fin N.size)) × Reply
  | .construct x val => (update s x (Finset.univ.filter fun p => val.getLsbD p), .done)
  | .copy x y => (update s x (s y), .done)
  | .set x pos value =>
    (update s x (if value then insert pos (s x) else (s x).erase pos), .done)
  | .setAll x => (update s x Finset.univ, .done)
  | .reset x pos => (update s x ((s x).erase pos), .done)
  | .resetAll x => (update s x ∅, .done)
  | .flip x => (update s x (s x)ᶜ, .done)
  | .subscript x pos => (s, .bit (decide (pos ∈ s x)))
  | .andAssign _ x y => (update s x (s x ∩ s y), .done)
  | .orAssign x y => (update s x (s x ∪ s y), .done)
  | .xorAssign x y => (update s x (symmDiff (s x) (s y)), .done)
  | .countSetBits x => (s, .number (s x).card)
  | .equal x y => (s, .bit (decide (s x = s y)))

end Calls

end Equilibrium.BetterBitSet

/-! The bits of a `BetterBitSet` after each of its operations. -/

namespace Equilibrium.BetterBitSet

open Library.WordBits BitVec List Nat

variable {N : Width}

section Layout

theorem wordBits_of_lt (h : 64 < N.size) : N.wordBits = 64 := by
  rw [Width.wordBits, if_pos (by omega)]

theorem size_le_wordBits (h : N.size ≤ 64) : N.size ≤ N.wordBits := by
  unfold Width.wordBits
  split_ifs
  case pos => exact h
  case pos => omega
  case pos => omega
  case neg => omega

theorem wordBits_le (N : Width) : N.wordBits ≤ 64 := by
  unfold Width.wordBits
  split_ifs
  case pos => decide
  case pos => decide
  case pos => decide
  case neg => decide

theorem wordBits_pos (N : Width) : 0 < N.wordBits := by
  unfold Width.wordBits
  split_ifs
  case pos => decide
  case pos => decide
  case pos => decide
  case neg => decide

theorem kWords_eq (N : Width) : N.kWords = (N.size + 63) / 64 := by
  rw [Width.kWords, mod_eq_of_lt N.fits]

theorem kWords_pos (N : Width) : 0 < N.kWords := by
  have hpos := N.pos
  rw [kWords_eq]
  omega

theorem kWords_of_le (h : N.size ≤ 64) : N.kWords = 1 := by
  have hpos := N.pos
  rw [kWords_eq]
  omega

theorem size_le (N : Width) : N.size ≤ N.kWords * N.wordBits := by
  by_cases h : 64 < N.size
  · rw [wordBits_of_lt h, kWords_eq]
    omega
  · rw [kWords_of_le (by omega), Nat.one_mul]
    exact size_le_wordBits (by omega)

theorem word_of_pos {p : ℕ} (hp : p < N.size) : p / N.wordBits < N.kWords :=
  word_lt (lt_of_lt_of_le hp (size_le N))

theorem place_of_le (h : N.size ≤ 64) {p : ℕ} (hp : p < N.size) :
    p / N.wordBits = 0 ∧ p % N.wordBits = p := by
  have hlt : p < N.wordBits := lt_of_lt_of_le hp (size_le_wordBits h)
  exact ⟨div_eq_of_lt hlt, mod_eq_of_lt hlt⟩

theorem kLastMask_bit {j : ℕ} (hj : j < 64) :
    N.kLastMask.getLsbD j = decide (j ≤ (N.size - 1) % 64) := getLsbD_lowMask hj _

theorem below_iff {p : ℕ} : p < N.size ↔ p / N.wordBits < N.kWords - 1 ∨
    p / N.wordBits = N.kWords - 1 ∧ p % N.wordBits ≤ (N.size - 1) % 64 := by
  have hpos := N.pos
  by_cases h : 64 < N.size
  · rw [wordBits_of_lt h, kWords_eq]
    omega
  · have hsmall : N.size ≤ 64 := by omega
    have hmask : (N.size - 1) % 64 = N.size - 1 := mod_eq_of_lt (by omega)
    rw [kWords_of_le hsmall, hmask]
    constructor
    · intro hp
      obtain ⟨hzero, hmod⟩ := place_of_le hsmall hp
      exact .inr ⟨hzero, by omega⟩
    · rintro (hlt | ⟨hzero, hle⟩)
      · cases hlt
      · rw [mod_eq_of_lt ((div_eq_zero_iff_lt (wordBits_pos N)).mp hzero)] at hle
        omega

end Layout

/-- The storage of a set: all its words, and no bit at or above `N`. -/
structure Valid (a : Storage N) : Prop where
  length : a.length = N.kWords
  within : Within N.size a

section Operations

variable {a b : Storage N} {p pos : ℕ}

theorem Valid.word_lt (ha : Valid a) (hp : p < N.size) : p / N.wordBits < a.length :=
  ha.length ▸ word_of_pos hp

theorem bit_lt (N : Width) (p : ℕ) : p % N.wordBits < N.wordBits := mod_lt _ (wordBits_pos N)

theorem length_reset (a : Storage N) (pos : ℕ) : (reset a pos).length = a.length := by
  unfold reset
  dsimp only
  split_ifs
  case pos => exact List.length_set
  case neg => exact List.length_set
  case neg => exact List.length_set

theorem length_set (a : Storage N) (pos : ℕ) (value : Bool) :
    (set a pos value).length = a.length := by
  unfold set
  split_ifs
  case pos => exact length_reset a pos
  case pos => exact List.length_set
  case neg => exact List.length_set

theorem Valid.mask (ha : Valid a) (hlast : p / N.wordBits = N.kWords - 1) :
    (bitAt a p && N.kLastMask.getLsbD (p % N.wordBits)) = bitAt a p := by
  have hbit := bit_lt N p
  have hle := wordBits_le N
  rw [kLastMask_bit (by omega)]
  cases hset : bitAt a p with
  | false => rfl
  | true =>
    have hp : p < N.size := by
      by_contra hge
      rw [ha.within p (by omega)] at hset
      cases hset
    have hmask : p % N.wordBits ≤ (N.size - 1) % 64 := by
      obtain hlt | ⟨-, hmask⟩ := below_iff.mp hp
      · omega
      · exact hmask
    rw [decide_eq_true hmask]
    rfl

theorem getLsbD_narrow {v : BitVec 64} {j : ℕ} (hj : j < N.wordBits) :
    (v.setWidth N.wordBits).getLsbD j = v.getLsbD j := by
  rw [getLsbD_setWidth, decide_eq_true hj, Bool.true_and]

theorem getLsbD_widen {v : BitVec N.wordBits} {j : ℕ} (hj : j < N.wordBits) :
    (v.setWidth 64).getLsbD j = v.getLsbD j := by
  have hle := wordBits_le N
  rw [getLsbD_setWidth, decide_eq_true (by omega), Bool.true_and]

section

variable (ha : Valid a)
include ha

section

variable (hpos : pos < N.size)
include hpos

theorem Valid.bitAt_write {v : BitVec N.wordBits} {value : Bool}
    (hv : p / N.wordBits = pos / N.wordBits →
      v.getLsbD (p % N.wordBits) = if p = pos then value else bitAt a p) :
    bitAt (a.set (pos / N.wordBits) v) p = if p = pos then value else bitAt a p := by
  rw [bitAt_set (ha.word_lt hpos)]
  split
  case isTrue hword => exact hv hword.symm
  case isFalse hword =>
    rw [if_neg]
    rintro rfl
    exact hword rfl

theorem bitAt_reset : bitAt (reset a pos) p = if p = pos then false else bitAt a p := by
  have hbit := bit_lt N p
  have hle := wordBits_le N
  have hclear := and_not_decide (bitAt a p) (p = pos)
  unfold reset
  split
  case isTrue hmany =>
    have hw := wordBits_of_lt hmany
    have hchunk : pos / 64 = pos / N.wordBits := by rw [hw]
    have hshift : pos % 64 = pos % N.wordBits := by rw [hw]
    dsimp only
    rw [hchunk, hshift]
    split
    case isTrue hlast =>
      refine ha.bitAt_write hpos fun hword => ?_
      rw [getLsbD_narrow hbit, getLsbD_and, getLsbD_widen hbit, getLsbD_and,
        getLsbD_clear (by omega), decide_place hword, bitAt_word hword, Bool.and_left_comm,
        ha.mask (hword.trans hlast), Bool.and_comm, hclear]
    case isFalse hlast =>
      refine ha.bitAt_write hpos fun hword => ?_
      rw [getLsbD_narrow hbit, getLsbD_and, getLsbD_widen hbit, getLsbD_clear (by omega),
        decide_place hword, bitAt_word hword, hclear]
  case isFalse hfew =>
    have hsmall : N.size ≤ 64 := by omega
    obtain ⟨hzero, hshift⟩ := place_of_le hsmall hpos
    have hlast : pos / N.wordBits = N.kWords - 1 := by rw [hzero, kWords_of_le hsmall]
    have hword0 : p / N.wordBits = pos / N.wordBits →
        (((wordAt a 0).setWidth 64 &&& (~~~(1#64 <<< pos) &&& N.kLastMask)).setWidth
          N.wordBits).getLsbD (p % N.wordBits) = if p = pos then false else bitAt a p := by
      intro hword
      rw [getLsbD_narrow hbit, getLsbD_and, getLsbD_widen hbit, getLsbD_and,
        getLsbD_clear (by omega), bitAt_word (hword.trans hzero), ← hclear, ← decide_place hword,
        hshift, Bool.and_left_comm, ha.mask (hword.trans hlast), Bool.and_comm]
    have hset := ha.bitAt_write hpos hword0
    rw [hzero] at hset
    exact hset

theorem bitAt_set (value : Bool) :
    bitAt (set a pos value) p = if p = pos then value else bitAt a p := by
  unfold set
  cases value with
  | false =>
    rw [if_pos rfl]
    exact bitAt_reset ha hpos
  | true =>
    have hbit := bit_lt N p
    have hle := wordBits_le N
    have hjoin := or_decide (bitAt a p) (p = pos)
    rw [if_neg (Bool.false_ne_true ·.symm)]
    split
    case isTrue hmany =>
      have hw := wordBits_of_lt hmany
      have hchunk : pos / 64 = pos / N.wordBits := by rw [hw]
      have hshift : pos % 64 = pos % N.wordBits := by rw [hw]
      rw [hchunk, hshift]
      refine ha.bitAt_write hpos fun hword => ?_
      rw [getLsbD_narrow hbit, getLsbD_or, getLsbD_widen hbit, getLsbD_bit (by omega),
        decide_place hword, bitAt_word hword, hjoin]
    case isFalse hfew =>
      have hsmall : N.size ≤ 64 := by omega
      obtain ⟨hzero, hshift⟩ := place_of_le hsmall hpos
      have hword0 : p / N.wordBits = pos / N.wordBits →
          (wordAt a 0 ||| (1#64 <<< pos).setWidth N.wordBits).getLsbD (p % N.wordBits) =
            if p = pos then true else bitAt a p := by
        intro hword
        rw [getLsbD_or, getLsbD_narrow hbit, getLsbD_bit (by omega),
          bitAt_word (hword.trans hzero), ← hjoin, ← decide_place hword, hshift]
      have hset := ha.bitAt_write hpos hword0
      rw [hzero] at hset
      exact hset

theorem Valid.of_write (hlength : b.length = a.length) {value : Bool}
    (hb : ∀ p, bitAt b p = if p = pos then value else bitAt a p) : Valid b where
  length := hlength.trans ha.length
  within := fun p hp => by
    rw [hb, if_neg (by omega), ha.within p hp]

theorem Valid.reset : Valid (reset a pos) :=
  ha.of_write hpos (length_reset a pos) fun _ => bitAt_reset ha hpos

theorem Valid.set (value : Bool) : Valid (set a pos value) :=
  ha.of_write hpos (length_set a pos value) fun _ => bitAt_set ha hpos value

end

theorem positions_reset (pos : Fin N.size) :
    positions N.size (reset a pos) = (positions N.size a).erase pos := by
  ext p
  rw [mem_positions, bitAt_reset ha pos.isLt, Finset.mem_erase, mem_positions]
  by_cases hp : p = pos
  · rw [if_pos (congrArg Fin.val hp)]
    exact ⟨fun h => absurd h Bool.false_ne_true, fun h => absurd hp h.1⟩
  · rw [if_neg fun h => hp (Fin.ext h)]
    exact (and_iff_right hp).symm

theorem positions_set (pos : Fin N.size) (value : Bool) : positions N.size (set a pos value) =
      if value then insert pos (positions N.size a) else (positions N.size a).erase pos := by
  cases value with
  | false => exact positions_reset ha pos
  | true =>
    rw [if_pos rfl]
    ext p
    rw [mem_positions, bitAt_set ha pos.isLt, Finset.mem_insert, mem_positions]
    by_cases hp : p = pos
    · rw [if_pos (congrArg Fin.val hp)]
      exact iff_of_true rfl (.inl hp)
    · rw [if_neg fun h => hp (Fin.ext h)]
      exact (or_iff_right hp).symm

end

theorem valid_of_bits (hlength : a.length = N.kWords) {f : ℕ → Bool}
    (h : ∀ p, bitAt a p = (decide (p < N.size) && f p)) : Valid a where
  length := hlength
  within := fun p hp => by
    rw [h, decide_eq_false (by omega), Bool.false_and]

theorem positions_of_bits {f : ℕ → Bool} (h : ∀ p, bitAt a p = (decide (p < N.size) && f p)) :
    positions N.size a = Finset.univ.filter fun p : Fin N.size => f p = true := by
  ext p
  rw [mem_positions, h, decide_eq_true p.isLt, Bool.true_and, Finset.mem_filter]
  exact (and_iff_right (Finset.mem_univ p)).symm

theorem bitAt_masked {c : Bool} (hbefore : p / N.wordBits < N.kWords - 1 → bitAt a p = c)
    (hlast : p / N.wordBits = N.kWords - 1 →
      bitAt a p = (c && N.kLastMask.getLsbD (p % N.wordBits)))
    (hlength : a.length = N.kWords) : bitAt a p = (decide (p < N.size) && c) := by
  have hbit := bit_lt N p
  have hle := wordBits_le N
  by_cases hword : p / N.wordBits < N.kWords - 1
  · rw [hbefore hword, decide_eq_true (below_iff.mpr (.inl hword)), Bool.true_and]
  · by_cases heq : p / N.wordBits = N.kWords - 1
    · rw [hlast heq, kLastMask_bit (by omega), Bool.and_comm]
      refine congrArg (· && c) (decide_eq_decide.mpr ?_)
      rw [below_iff]
      exact ⟨fun h => .inr ⟨heq, h⟩, fun h => (h.resolve_left hword).2⟩
    · have hnot : ¬p < N.size := by
        rw [below_iff]
        omega
      rw [decide_eq_false hnot, Bool.false_and, bitAt,
        wordAt_of_length_le (by omega : a.length ≤ p / N.wordBits)]
      exact getLsbD_zero

theorem length_setAll : (setAll N).length = N.kWords := by
  have hwords := kWords_pos N
  rw [setAll, length_append, length_replicate, length_singleton]
  omega

theorem bitAt_setAll : bitAt (setAll N) p = (decide (p < N.size) && true) := by
  have hbit := bit_lt N p
  refine bitAt_masked (fun hword => ?_) (fun hword => ?_) length_setAll
  · rw [bitAt, setAll, wordAt_concat, length_replicate, if_pos hword, wordAt_replicate hword,
      getLsbD_allOnes, decide_eq_true hbit]
  · rw [bitAt, setAll, wordAt_concat, length_replicate, if_neg (by omega), if_pos hword,
      getLsbD_narrow hbit, Bool.true_and]

theorem length_flip (ha : Valid a) : (flip a).length = N.kWords := by
  have hwords := kWords_pos N
  rw [flip, length_append, length_map, length_take, ha.length,
    length_singleton]
  omega

theorem bitAt_flip (ha : Valid a) : bitAt (flip a) p = (decide (p < N.size) && !bitAt a p) := by
  have hbit := bit_lt N p
  have hle := wordBits_le N
  have hfront : ((a.take (N.kWords - 1)).map (~~~ ·)).length = N.kWords - 1 := by
    rw [length_map, length_take, ha.length]
    omega
  refine bitAt_masked (fun hword => ?_) (fun hword => ?_) (length_flip ha)
  · have htake : p / N.wordBits < (a.take (N.kWords - 1)).length := by
      rw [length_map] at hfront
      omega
    rw [bitAt, flip, wordAt_concat, hfront, if_pos hword, wordAt_map htake, wordAt_take hword,
      getLsbD_not, decide_eq_true hbit, Bool.true_and]
    rfl
  · rw [bitAt, flip, wordAt_concat, hfront, if_neg (by omega), if_pos hword, getLsbD_narrow hbit,
      getLsbD_and, getLsbD_not, decide_eq_true (by omega), Bool.true_and,
      getLsbD_widen hbit, bitAt_word hword]

theorem length_empty : (empty N).length = N.kWords := length_replicate

theorem bitAt_empty : bitAt (empty N) p = false :=
  bitAt_of_zero fun _ hv => eq_of_mem_replicate hv

theorem bitAt_resetAll (a : Storage N) : bitAt (resetAll a) p = false :=
  bitAt_of_zero fun _ hv => (mem_map.mp hv).choose_spec.2.symm

theorem kMask_bit (h : N.size < 64) (j : ℕ) : N.kMask.getLsbD j = decide (j < N.size) := by
  have hneeds : N.kNeedsMask = true := decide_eq_true h
  rw [Width.kMask, hneeds, if_pos rfl]
  exact getLsbD_belowMask h j

theorem bitAt_ofNumber (val : BitVec 64) :
    bitAt (ofNumber N val) p = (decide (p < N.size) && val.getLsbD p) := by
  have hbit := bit_lt N p
  have hle := wordBits_le N
  rw [ofNumber, Library.WordBits.bitAt_set (by rw [length_empty]; exact kWords_pos N)]
  split
  case isTrue hword =>
    have hmod : p % N.wordBits = p := by
      rw [← div_add_mod p N.wordBits, ← hword, Nat.mul_zero, Nat.zero_add, mod_mod]
    rw [getLsbD_narrow hbit, hmod]
    by_cases hmask : N.size < 64
    · have hneeds : N.kNeedsMask = true := decide_eq_true hmask
      rw [hneeds, if_pos rfl, getLsbD_and, kMask_bit hmask, Bool.and_comm]
    · have hneeds : N.kNeedsMask = false := decide_eq_false hmask
      rw [hneeds, if_neg Bool.false_ne_true, decide_eq_true (by omega), Bool.true_and]
  case isFalse hword =>
    have hbeyond : N.wordBits ≤ p := by
      by_contra hlt
      exact hword (div_eq_of_lt (by omega)).symm
    rw [bitAt_empty]
    by_cases hsize : p < N.size
    · have hmany : 64 < N.size := by
        by_contra hfew
        have := (place_of_le (by omega) hsize).1
        exact hword this.symm
      rw [wordBits_of_lt hmany] at hbeyond
      rw [getLsbD_of_ge val p hbeyond, Bool.and_false]
    · rw [decide_eq_false hsize, Bool.false_and]

section

variable (f : BitVec N.wordBits → BitVec N.wordBits → BitVec N.wordBits)
include f

theorem wordAt_pair (ha : Valid a) (hb : Valid b) (h : p / N.wordBits < N.kWords) :
    wordAt (zipWith f a b) (p / N.wordBits) =
      f (wordAt a (p / N.wordBits)) (wordAt b (p / N.wordBits)) :=
  wordAt_zipWith f (ha.length.symm ▸ h) (hb.length.symm ▸ h)

theorem length_pair (ha : Valid a) (hb : Valid b) : (zipWith f a b).length = N.kWords := by
  rw [length_zipWith, ha.length, hb.length, Nat.min_self]

end

theorem bitAt_andAssign (hsize : N.size ≤ 64) (ha : Valid a) (hb : Valid b) :
    bitAt (andAssign a b) p = (decide (p < N.size) && (bitAt a p && bitAt b p)) := by
  have hbit := bit_lt N p
  have hwords := kWords_of_le hsize
  refine bitAt_masked (fun hword => ?_) (fun hword => ?_) (length_pair _ ha hb)
  · rw [hwords] at hword
    cases hword
  · rw [bitAt, andAssign, wordAt_pair _ ha hb (by omega), getLsbD_narrow hbit, getLsbD_and,
      getLsbD_widen hbit, getLsbD_and, getLsbD_widen hbit, ← Bool.and_assoc]
    rfl

theorem bitAt_xorAssign (ha : Valid a) (hb : Valid b) :
    bitAt (xorAssign a b) p = (decide (p < N.size) && (bitAt a p ^^ bitAt b p)) := by
  by_cases hp : p < N.size
  · rw [bitAt, xorAssign, wordAt_pair _ ha hb (word_of_pos hp), getLsbD_xor,
      decide_eq_true hp, Bool.true_and]
    rfl
  · rw [decide_eq_false hp, Bool.false_and]
    by_cases hword : p / N.wordBits < N.kWords
    · rw [bitAt, xorAssign, wordAt_pair _ ha hb hword, getLsbD_xor, bitAt_word rfl,
        bitAt_word rfl, ha.within p (by omega), hb.within p (by omega)]
      rfl
    · rw [bitAt, wordAt_of_length_le (by rw [xorAssign, length_pair _ ha hb]; omega)]
      exact getLsbD_zero

end Operations

section Reading

variable {a : Storage N}

theorem shifted_ne_zero {w : ℕ} {v : BitVec w} {k : ℕ} :
    (v >>> k != 0) = true ↔ ∃ j, k ≤ j ∧ v.getLsbD j = true := by
  rw [bne_iff_ne, ne_eq]
  constructor
  · intro hne
    by_contra hnone
    refine hne (eq_of_getLsbD_eq fun j _ => ?_)
    rw [getLsbD_ushiftRight]
    by_contra hset
    refine hnone ⟨k + j, Nat.le_add_right k j, ?_⟩
    cases hbit : v.getLsbD (k + j) with
    | false => exact absurd (hbit.trans getLsbD_zero.symm) hset
    | true => rfl
  · rintro ⟨j, hkj, hset⟩ hzero
    have hbit : (v >>> k).getLsbD (j - k) = true := by
      rw [getLsbD_ushiftRight, Nat.add_sub_cancel' hkj]
      exact hset
    rw [hzero] at hbit
    cases getLsbD_zero.symm.trans hbit

/-- What `operator[]` reads as set: of several words, also a position below a set one of the same
word. -/
def Seen (S : Finset (Fin N.size)) (pos : ℕ) : Prop :=
  (∃ q ∈ S, q.val = pos) ∨ 64 < N.size ∧ ∃ q ∈ S, pos < q.val ∧ q.val / 64 = pos / 64

instance (S : Finset (Fin N.size)) (pos : ℕ) : Decidable (Seen S pos) :=
  inferInstanceAs (Decidable (_ ∨ _))

theorem subscript_eq (ha : Valid a) {pos : ℕ} (hpos : pos < N.size) :
    subscript a pos = decide (Seen (positions N.size a) pos) := by
  rw [Bool.eq_iff_iff, decide_eq_true_iff, Seen]
  have hself : (∃ q ∈ positions N.size a, q.val = pos) ↔ bitAt a pos = true := by
    constructor
    · rintro ⟨q, hq, rfl⟩
      exact mem_positions.mp hq
    · intro h
      exact ⟨⟨pos, hpos⟩, mem_positions.mpr h, rfl⟩
  rw [hself]
  by_cases hmany : 64 < N.size
  · have hw := wordBits_of_lt hmany
    rw [subscript, if_pos hmany]
    rw [shifted_ne_zero]
    have hat : ∀ q, q / 64 = pos / 64 → bitAt a q = (wordAt a (pos / 64)).getLsbD (q % 64) := by
      intro q hq
      have hword : q / N.wordBits = pos / 64 := by rw [hw, hq]
      have hmod : q % N.wordBits = q % 64 := by rw [hw]
      rw [bitAt, hword, hmod]
    constructor
    · rintro ⟨j, hj, hset⟩
      have hlt : j < 64 := by
        have := lt_of_getLsbD hset
        omega
      have hbit : bitAt a (pos / 64 * 64 + j) = true := by
        rw [hat _ (by omega), ← hset]
        congr 1
        omega
      by_cases heq : pos / 64 * 64 + j = pos
      · exact .inl (heq ▸ hbit)
      · have hq : pos / 64 * 64 + j < N.size := by
          by_contra hge
          rw [ha.within _ (by omega)] at hbit
          cases hbit
        refine .inr ⟨hmany, ⟨_, hq⟩, mem_positions.mpr hbit, ?_, ?_⟩
        · change pos < pos / 64 * 64 + j
          omega
        · change (pos / 64 * 64 + j) / 64 = pos / 64
          omega
    · rintro (hset | ⟨-, q, hq, hlt, hword⟩)
      · exact ⟨pos % 64, le_refl _, (hat pos rfl).symm.trans hset⟩
      · refine ⟨q.val % 64, by omega, (hat q hword).symm.trans (mem_positions.mp hq)⟩
  · have hsmall : N.size ≤ 64 := by omega
    obtain ⟨hzero, hmod⟩ := place_of_le hsmall hpos
    have hbit := bit_lt N pos
    rw [hmod] at hbit
    rw [subscript, if_neg hmany, getLsbD_test, getLsbD_widen hbit, bitAt, hzero, hmod]
    exact ⟨.inl, fun h => h.resolve_right fun hbad => hmany hbad.1⟩

end Reading

end Equilibrium.BetterBitSet
