import Equilibrium.Containers.DynamicBitSet

/-! The bits of a `DynamicBitSet` after each of its operations. -/

namespace Equilibrium.DynamicBitSet

open Library.WordBits List Nat
open BitVec (allOnes getLsbD_and)

/-- What the constructor sets up and no operation changes. -/
structure Layout (d : DynamicBitSet) : Prop where
  fits : d.bitCount + 63 < 2 ^ 64
  length : d.vector.length = reserveCount d.bitCount
  mask : d.lastMask = maskOf d.bitCount

/-- A storage in which no bit at or above the bit count is set. -/
structure Valid (d : DynamicBitSet) : Prop extends Layout d where
  within : Within d.bitCount d.vector

variable {d : DynamicBitSet} {v u : List (BitVec 64)} {i p pos : ℕ}

section Storage

theorem load_of_lt (h : i < v.length) : load v i = .ok (wordAt v i) := if_pos h

theorem store_of_lt (h : i < v.length) (word : BitVec 64) : store v i word = .ok (v.set i word) :=
  if_pos h

section

variable (hd : Layout d)
include hd

theorem length_pos : 0 < d.vector.length := by
  have hfits := hd.fits
  rw [hd.length, reserveCount]
  split
  case isTrue => exact Nat.one_pos
  case isFalse hne =>
    rw [mod_eq_of_lt hfits]
    omega

theorem length_eq (hpos : d.bitCount ≠ 0) : d.vector.length = (d.bitCount + 63) / 64 := by
  rw [hd.length, reserveCount, if_neg hpos, mod_eq_of_lt hd.fits]

theorem wordCount_eq (hpos : d.bitCount ≠ 0) : d.wordCount = d.vector.length := by
  rw [length_eq hd hpos, wordCount, mod_eq_of_lt hd.fits]

theorem size_le : d.bitCount ≤ d.vector.length * 64 := by
  by_cases hpos : d.bitCount = 0
  · omega
  · rw [length_eq hd hpos]
    omega

theorem word_of_lt (hp : p < d.bitCount) : p / 64 < d.vector.length :=
  word_lt (lt_of_lt_of_le hp (size_le hd))

end

theorem maskOf_bit {n j : ℕ} (hn : n ≠ 0) (hfits : n + 63 < 2 ^ 64) (hj : j < 64) :
    (maskOf n).getLsbD j = decide (j ≤ (n - 1) % 64) := by
  have hwrap : (n + (2 ^ 64 - 1)) % 2 ^ 64 = n - 1 := by omega
  rw [maskOf, hwrap]
  exact getLsbD_lowMask hj _

theorem below_iff (hd : Layout d) (hpos : d.bitCount ≠ 0) :
    p < d.bitCount ↔ p / 64 < d.vector.length - 1 ∨
      p / 64 = d.vector.length - 1 ∧ p % 64 ≤ (d.bitCount - 1) % 64 := by
  rw [length_eq hd hpos]
  omega

theorem Valid.mask_bit (hd : Valid d) (hlast : p / 64 = d.vector.length - 1) :
    (bitAt d.vector p && d.lastMask.getLsbD (p % 64)) = bitAt d.vector p := by
  cases hset : bitAt d.vector p with
  | false => rfl
  | true =>
    have hp : p < d.bitCount := by
      by_contra hge
      rw [hd.within p (by omega)] at hset
      cases hset
    have hpos : d.bitCount ≠ 0 := by omega
    have hle : p % 64 ≤ (d.bitCount - 1) % 64 := by
      obtain hlt | ⟨-, hle⟩ := (below_iff hd.toLayout hpos).mp hp
      · omega
      · exact hle
    rw [hd.mask, maskOf_bit hpos hd.fits (mod_lt p (by decide)), decide_eq_true hle]
    rfl

end Storage

section Positions

theorem writes_word {x : Except Fault DynamicBitSet} {value : Bool}
    (hpos : pos / 64 < d.vector.length) (word : BitVec 64)
    (hrun : x = .ok { d with vector := d.vector.set (pos / 64) word })
    (hword : ∀ p, p / 64 = pos / 64 →
      word.getLsbD (p % 64) = if p = pos then value else bitAt d.vector p) :
    ∃ v, x = .ok { d with vector := v } ∧ v.length = d.vector.length ∧
      ∀ p, bitAt v p = if p = pos then value else bitAt d.vector p := by
  refine ⟨_, hrun, length_set, fun p => ?_⟩
  rw [bitAt_set hpos]
  split
  case isTrue h => exact hword p h.symm
  case isFalse h =>
    rw [if_neg]
    rintro rfl
    exact h rfl

theorem place_of_few (hd : Layout d) (hfew : ¬64 < d.bitCount) (hpos : pos / 64 < d.vector.length) :
    pos / 64 = 0 ∧ pos % 64 = pos := by
  have hone : d.vector.length = 1 := by
    by_cases hzero : d.bitCount = 0
    · rw [hd.length, hzero]
      rfl
    · rw [length_eq hd hzero]
      omega
  omega

theorem reset_spec (hd : Valid d) (hpos : pos / 64 < d.vector.length) :
    ∃ v, reset d pos = .ok { d with vector := v } ∧ v.length = d.vector.length ∧
      ∀ p, bitAt v p = if p = pos then false else bitAt d.vector p := by
  have hbit : ∀ p, p % 64 < 64 := fun p => mod_lt p (by decide)
  by_cases hmany : 64 < d.bitCount
  · by_cases hlast : pos / 64 = d.wordCount - 1
    · refine writes_word hpos (wordAt d.vector (pos / 64) &&&
        (~~~(1#64 <<< (pos % 64)) &&& d.lastMask)) ?_ fun p hword => ?_
      · simp only [reset, if_pos hmany, load_of_lt hpos, bind, Except.bind, if_pos hlast]
      · rw [wordCount_eq hd.toLayout (by omega)] at hlast
        rw [getLsbD_and, getLsbD_and, getLsbD_clear (hbit p), decide_place hword,
          bitAt_word hword, Bool.and_left_comm, hd.mask_bit (hword.trans hlast), Bool.and_comm,
          and_not_decide]
    · refine writes_word hpos (wordAt d.vector (pos / 64) &&& ~~~(1#64 <<< (pos % 64))) ?_
        fun p hword => ?_
      · simp only [reset, if_pos hmany, load_of_lt hpos, bind, Except.bind, if_neg hlast]
      · rw [getLsbD_and, getLsbD_clear (hbit p), decide_place hword, bitAt_word hword,
          and_not_decide]
  · obtain ⟨hzero, hmod⟩ := place_of_few hd.toLayout hmany hpos
    have hlast : pos / 64 = d.vector.length - 1 := by
      by_cases hnone : d.bitCount = 0
      · rw [hd.length, hnone, hzero]
        rfl
      · rw [length_eq hd.toLayout hnone]
        omega
    refine writes_word hpos (wordAt d.vector (pos / 64) &&&
      (~~~(1#64 <<< pos) &&& d.lastMask)) ?_ fun p hword => ?_
    · simp only [reset, if_neg hmany, load_of_lt (hzero ▸ hpos), bind, Except.bind, hzero]
    · have hsame : decide (p % 64 = pos) = decide (p = pos) := by
        rw [← decide_place hword, hmod]
      rw [getLsbD_and, getLsbD_and, getLsbD_clear (hbit p), bitAt_word hword, hsame,
        Bool.and_left_comm, hd.mask_bit (hword.trans hlast), Bool.and_comm, and_not_decide]

theorem set_spec (hd : Valid d) (hpos : pos / 64 < d.vector.length) (value : Bool) :
    ∃ v, set d pos value = .ok { d with vector := v } ∧ v.length = d.vector.length ∧
      ∀ p, bitAt v p = if p = pos then value else bitAt d.vector p := by
  have hbit : ∀ p, p % 64 < 64 := fun p => mod_lt p (by decide)
  cases value with
  | false =>
    rw [set, if_pos rfl]
    exact reset_spec hd hpos
  | true =>
    by_cases hmany : 64 < d.bitCount
    · refine writes_word hpos (wordAt d.vector (pos / 64) ||| 1#64 <<< (pos % 64)) ?_
        fun p hword => ?_
      · rw [set, if_neg (Bool.false_ne_true ·.symm), if_pos hmany]
        dsimp only
        rw [load_of_lt hpos]
        rfl
      · rw [BitVec.getLsbD_or, getLsbD_bit (hbit p), decide_place hword, bitAt_word hword, or_decide]
    · obtain ⟨hzero, hmod⟩ := place_of_few hd.toLayout hmany hpos
      refine writes_word hpos (wordAt d.vector (pos / 64) ||| 1#64 <<< pos) ?_ fun p hword => ?_
      · rw [set, if_neg (Bool.false_ne_true ·.symm), if_neg hmany, hzero,
          load_of_lt (hzero ▸ hpos)]
        rfl
      · have hsame : decide (p % 64 = pos) = decide (p = pos) := by
          rw [← decide_place hword, hmod]
        rw [BitVec.getLsbD_or, getLsbD_bit (hbit p), bitAt_word hword, hsame, or_decide]

theorem subscript_of_lt (hpos : pos / 64 < d.vector.length) :
    subscript d pos = .ok (bitAt d.vector pos) := by
  rw [subscript, load_of_lt hpos]
  exact congrArg Except.ok getLsbD_test

end Positions

section Whole

theorem length_setAll {last : BitVec 64} {n : ℕ} (hn : 0 < n) :
    (List.replicate (n - 1) (allOnes 64) ++ [last]).length = n := by
  rw [length_append, length_replicate, length_singleton]
  omega

theorem bitAt_setAll (hd : Layout d) (hpos : d.bitCount ≠ 0) :
    bitAt (List.replicate (d.vector.length - 1) (allOnes 64) ++ [d.lastMask]) p =
      decide (p < d.bitCount) := by
  have hbit : p % 64 < 64 := mod_lt p (by decide)
  rw [bitAt, wordAt_concat, length_replicate]
  by_cases hword : p / 64 < d.vector.length - 1
  · rw [if_pos hword, wordAt_replicate hword, BitVec.getLsbD_allOnes, decide_eq_true hbit,
      decide_eq_true ((below_iff hd hpos).mpr (.inl hword))]
  · rw [if_neg hword]
    by_cases hlast : p / 64 = d.vector.length - 1
    · rw [if_pos hlast, hd.mask, maskOf_bit hpos hd.fits hbit]
      refine decide_eq_decide.mpr ?_
      rw [below_iff hd hpos]
      exact ⟨fun h => .inr ⟨hlast, h⟩, fun h => (h.resolve_left hword).2⟩
    · have hnot : ¬p < d.bitCount := by
        rw [below_iff hd hpos]
        omega
      rw [if_neg hlast, decide_eq_false hnot]
      exact BitVec.getLsbD_zero

theorem flip_spec (hd : Layout d) (hpos : d.bitCount ≠ 0) :
    ∃ v, flip d = .ok { d with vector := v } ∧ v.length = d.vector.length ∧
      ∀ p, bitAt v p = (decide (p < d.bitCount) && !bitAt d.vector p) := by
  have hfits := hd.fits
  have hcount := wordCount_eq hd hpos
  have hlength := length_eq hd hpos
  have hlast : (d.wordCount + (2 ^ 64 - 1)) % 2 ^ 64 = d.vector.length - 1 := by omega
  have hfront : ((d.vector.take (d.vector.length - 1)).map (~~~ ·)).length =
      d.vector.length - 1 := by
    rw [length_map, length_take]
    omega
  have hrest : d.vector.drop (d.vector.length - 1 + 1) = [] :=
    drop_of_length_le (by omega)
  refine ⟨(d.vector.take (d.vector.length - 1)).map (~~~ ·) ++
    [~~~wordAt d.vector (d.vector.length - 1) &&& d.lastMask], ?_, ?_, fun p => ?_⟩
  · rw [flip, hlast, if_pos (by rw [storageSize]; omega), hrest]
  · rw [length_append, hfront, length_singleton]
    omega
  · have hbit : p % 64 < 64 := mod_lt p (by decide)
    rw [bitAt, wordAt_concat, hfront]
    by_cases hword : p / 64 < d.vector.length - 1
    · have htake : p / 64 < (d.vector.take (d.vector.length - 1)).length := by
        rw [length_take]
        omega
      rw [if_pos hword, wordAt_map htake, wordAt_take hword, BitVec.getLsbD_not,
        decide_eq_true hbit, Bool.true_and, decide_eq_true ((below_iff hd hpos).mpr (.inl hword)),
        Bool.true_and]
      rfl
    · rw [if_neg hword]
      by_cases heq : p / 64 = d.vector.length - 1
      · have hmask : decide (p % 64 ≤ (d.bitCount - 1) % 64) = decide (p < d.bitCount) := by
          refine decide_eq_decide.mpr ?_
          rw [below_iff hd hpos]
          exact ⟨fun h => .inr ⟨heq, h⟩, fun h => (h.resolve_left hword).2⟩
        rw [if_pos heq, getLsbD_and, BitVec.getLsbD_not, decide_eq_true hbit, Bool.true_and,
          hd.mask, maskOf_bit hpos hfits hbit, bitAt_word heq, hmask, Bool.and_comm]
      · have hnot : ¬p < d.bitCount := by
          rw [below_iff hd hpos]
          omega
        rw [if_neg heq, decide_eq_false hnot]
        exact BitVec.getLsbD_zero

theorem bitAt_resetAll (v : List (BitVec 64)) : bitAt (v.map fun _ => (0 : BitVec 64)) p = false :=
  bitAt_of_zero fun _ hv => (mem_map.mp hv).choose_spec.2.symm

theorem bitAt_first (hv : 0 < v.length) (val : BitVec 64) :
    bitAt (v.set 0 val) p = if p < 64 then val.getLsbD p else bitAt v p := by
  rw [bitAt_set hv]
  by_cases hp : p < 64
  · rw [if_pos (div_eq_of_lt hp).symm, if_pos hp, mod_eq_of_lt hp]
  · rw [if_neg (by omega), if_neg hp]

theorem construct_spec (val : BitVec 64) {n : ℕ} (hfits : n + 63 < 2 ^ 64) :
    ∃ v, construct true val n = .ok ⟨v, n, maskOf n⟩ ∧ v.length = reserveCount n ∧
      ∀ p, bitAt v p = (decide (p < n) && val.getLsbD p) := by
  have hcount : 0 < reserveCount n := by
    rw [reserveCount]
    split
    case isTrue => exact Nat.one_pos
    case isFalse hne =>
      rw [mod_eq_of_lt hfits]
      omega
  have hlength : 0 < (List.replicate (reserveCount n) (0 : BitVec 64)).length := by
    rw [length_replicate]
    exact hcount
  refine ⟨(List.replicate (reserveCount n) 0).set 0
    (if n < 64 then val &&& ((1#64 <<< (if n < 64 then n else 0)) - 1#64) else val), ?_, ?_,
    fun p => ?_⟩
  · rw [construct, if_neg fun h => Bool.false_ne_true h.1.symm]
    dsimp only [bind, Except.bind, pure, Except.pure]
    rw [store_of_lt hlength]
  · rw [length_set, length_replicate]
  · have hzero : bitAt (List.replicate (reserveCount n) (0 : BitVec 64)) p = false :=
      bitAt_of_zero fun _ hv => eq_of_mem_replicate hv
    rw [bitAt_first hlength, hzero]
    by_cases hfew : n < 64
    · rw [if_pos hfew, if_pos hfew, getLsbD_and, getLsbD_belowMask hfew]
      split
      case isTrue => exact Bool.and_comm _ _
      case isFalse hp => rw [decide_eq_false (by omega), Bool.false_and]
    · rw [if_neg hfew]
      split
      case isTrue hp => rw [decide_eq_true (by omega), Bool.true_and]
      case isFalse hp => rw [BitVec.getLsbD_of_ge val p (by omega), Bool.and_false]

end Whole

/-! What the nested loops of the binary operators of a `DynamicBitSet` compute. -/

section Combine

variable {op : BitVec 64 → BitVec 64 → BitVec 64} {v u : List (BitVec 64)} {i m k : ℕ}

/-- The words `u` from the first on, put into `word`. -/
def folded (op : BitVec 64 → BitVec 64 → BitVec 64) (word : BitVec 64) (u : List (BitVec 64))
    (m : ℕ) : BitVec 64 :=
  ((List.range m).map (wordAt u)).foldl op word

theorem folded_succ (word : BitVec 64) (u : List (BitVec 64)) (m : ℕ) :
    folded op word u (m + 1) = op (folded op word u m) (wordAt u m) := by
  rw [folded, range_succ, map_append, foldl_append]
  rfl

theorem folded_congr {u u' : List (BitVec 64)} (word : BitVec 64)
    (h : ∀ j < m, wordAt u j = wordAt u' j) : folded op word u m = folded op word u' m := by
  rw [folded, folded]
  congr 1
  exact map_congr_left fun j hj => h j (mem_range.mp hj)

theorem set_wordAt (hi : i < v.length) : v.set i (wordAt v i) = v := by
  rw [wordAt_eq_getElem hi, set_getElem_self]

theorem combineWord_succ (rhs : List (BitVec 64) → List (BitVec 64)) :
    combineWord op rhs i (m + 1) v = (combineWord op rhs i m v).set i
      (op (wordAt (combineWord op rhs i m v) i) (wordAt (rhs (combineWord op rhs i m v)) m)) := by
  rw [combineWord, range_succ, foldl_append]
  rfl

theorem combineWord_apart (hi : i < v.length) (m : ℕ) :
    combineWord op (fun _ => u) i m v = v.set i (folded op (wordAt v i) u m) := by
  induction m with
  | zero => exact (set_wordAt hi).symm
  | succ m ih =>
    rw [combineWord_succ, ih, set_set, wordAt_set hi, if_pos rfl, folded_succ]

theorem combineWord_self (hi : i < v.length) (hm : m ≤ i) :
    combineWord op id i m v = v.set i (folded op (wordAt v i) v m) := by
  induction m with
  | zero => exact (set_wordAt hi).symm
  | succ m ih =>
    have hread : wordAt (v.set i (folded op (wordAt v i) v m)) m = wordAt v m := by
      rw [wordAt_set hi, if_neg (by omega)]
    rw [combineWord_succ, ih (by omega), set_set, wordAt_set hi, if_pos rfl, folded_succ, id,
      hread]

/-- The outer loop after its first `k` turns. -/
def combined (op : BitVec 64 → BitVec 64 → BitVec 64)
    (rhs : List (BitVec 64) → List (BitVec 64)) (v : List (BitVec 64)) (k : ℕ) :
    List (BitVec 64) :=
  (List.range k).foldl (fun v i => combineWord op rhs i (min (i + 1) (rhs v).length) v) v

theorem combined_succ (rhs : List (BitVec 64) → List (BitVec 64)) :
    combined op rhs v (k + 1) = combineWord op rhs k
      (min (k + 1) (rhs (combined op rhs v k)).length) (combined op rhs v k) := by
  rw [combined, range_succ, foldl_append]
  rfl

theorem combined_apart (hlength : u.length = v.length) (hk : k ≤ v.length) :
    (combined op (fun _ => u) v k).length = v.length ∧
      ∀ i, wordAt (combined op (fun _ => u) v k) i =
        if i < k then folded op (wordAt v i) u (i + 1) else wordAt v i := by
  induction k with
  | zero =>
    refine ⟨rfl, fun i => ?_⟩
    rw [if_neg (Nat.not_lt_zero i)]
    rfl
  | succ k ih =>
    obtain ⟨hsame, hwords⟩ := ih (by omega)
    have hmin : min (k + 1) u.length = k + 1 := by omega
    rw [combined_succ, hmin, combineWord_apart (by omega), length_set]
    refine ⟨hsame, fun i => ?_⟩
    rw [wordAt_set (by omega), hwords, hwords, if_neg (Nat.lt_irrefl k)]
    by_cases hki : k = i
    · subst hki
      rw [if_pos rfl, if_pos (Nat.lt_succ_self k)]
    · have hstep : i < k + 1 ↔ i < k := by omega
      rw [if_neg hki]
      simp only [hstep]

theorem combine_apart (op : BitVec 64 → BitVec 64 → BitVec 64) (hlength : u.length = v.length) :
    (combine op (fun _ => u) v).length = v.length ∧
      ∀ i < v.length, wordAt (combine op (fun _ => u) v) i = folded op (wordAt v i) u (i + 1) := by
  obtain ⟨hsame, hwords⟩ := combined_apart hlength (Nat.le_refl v.length)
  refine ⟨hsame, fun i hi => ?_⟩
  exact (hwords i).trans (if_pos hi)

theorem combined_self (hk : k ≤ v.length) : (combined op id v k).length = v.length ∧
      (∀ i, k ≤ i → wordAt (combined op id v k) i = wordAt v i) ∧
        ∀ i < k, wordAt (combined op id v k) i = op (folded op (wordAt v i) (combined op id v k) i)
            (folded op (wordAt v i) (combined op id v k) i) := by
  induction k with
  | zero => exact ⟨rfl, fun _ _ => rfl, fun i hi => absurd hi (Nat.not_lt_zero i)⟩
  | succ k ih =>
    obtain ⟨hsame, hlater, hdone⟩ := ih (by omega)
    have hlast : combined op id v (k + 1) = (combined op id v k).set k
        (op (folded op (wordAt v k) (combined op id v k) k)
          (folded op (wordAt v k) (combined op id v k) k)) := by
      have hmin : min (k + 1) (id (combined op id v k)).length = k + 1 := by
        rw [id]
        omega
      rw [combined_succ, hmin, combineWord_succ, combineWord_self (by omega) (Nat.le_refl k),
        set_set, id, wordAt_set (by omega), if_pos rfl, hlater k (Nat.le_refl k)]
    rw [hlast]
    generalize combined op id v k = r at hsame hlater hdone ⊢
    have hbelow : ∀ i ≤ k, ∀ word c : BitVec 64,
        folded op word (r.set k c) i = folded op word r i := by
      intro i hi word c
      refine folded_congr word fun j hj => ?_
      rw [wordAt_set (by omega), if_neg (by omega)]
    refine ⟨by rw [length_set, hsame], fun i hi => ?_, fun i hi => ?_⟩
    · rw [wordAt_set (by omega), if_neg (by omega), hlater i (by omega)]
    · rw [hbelow i (by omega), wordAt_set (by omega)]
      by_cases hki : k = i
      · subst hki
        rw [if_pos rfl]
      · rw [if_neg hki, hdone i (by omega)]

theorem combine_self (op : BitVec 64 → BitVec 64 → BitVec 64) (v : List (BitVec 64)) :
    (combine op id v).length = v.length ∧ ∀ i < v.length, wordAt (combine op id v) i =
      op (folded op (wordAt v i) (combine op id v) i)
        (folded op (wordAt v i) (combine op id v) i) := by
  obtain ⟨hsame, -, hdone⟩ := combined_self (Nat.le_refl v.length)
  exact ⟨hsame, hdone⟩

end Combine

section Union

variable {d : DynamicBitSet} {rhs : DynamicBitSet → DynamicBitSet} {i k m : ℕ}

/-- The right operand is the object itself, or another one of the same bit count. -/
def Operand (d : DynamicBitSet) (rhs : DynamicBitSet → DynamicBitSet) : Prop :=
  rhs = id ∨ ∃ e, rhs = (fun _ => e) ∧ Valid e ∧ e.bitCount = d.bitCount

theorem Operand.valid (h : Operand d rhs) (hd : Valid d) :
    Valid (rhs d) ∧ (rhs d).bitCount = d.bitCount := by
  obtain rfl | ⟨e, rfl, he, hcount⟩ := h
  · exact ⟨hd, rfl⟩
  · exact ⟨he, hcount⟩

theorem length_of_count {e : DynamicBitSet} (hd : Layout d) (he : Layout e)
    (h : e.bitCount = d.bitCount) : e.vector.length = d.vector.length := by
  rw [hd.length, he.length, h]

theorem lt_size_of_bit {e : DynamicBitSet} (hd : Valid d) (he : Valid e)
    (hcount : e.bitCount = d.bitCount) (hi : i < d.vector.length) {j : ℕ}
    (hset : bitAt e.vector j = true) : i < d.bitCount := by
  have hj : j < e.bitCount := by
    by_contra hge
    rw [he.within j (by omega)] at hset
    cases hset
  have hlength := length_eq hd.toLayout (by omega)
  omega

theorem Valid.of_bit {v : List (BitVec 64)} {value : Prop} (hd : Valid d)
    (hlength : v.length = d.vector.length)
    (hbits : ∀ p, bitAt v p = true ↔ if p = i then value else bitAt d.vector p = true)
    (hi : value → i < d.bitCount) : Valid { d with vector := v } where
  fits := hd.fits
  length := hlength.trans hd.length
  mask := hd.mask
  within := fun p hp => by
    change d.bitCount ≤ p at hp
    refine Bool.eq_false_iff.mpr fun hset => ?_
    have h := (hbits p).mp hset
    split at h
    case isTrue heq =>
      have := hi h
      omega
    case isFalse =>
      rw [hd.within p hp] at h
      cases h

/-- The inner loop at position `i`: it becomes set when one of the first `m` positions of the
right operand is. -/
theorem orBits_spec (hd : Valid d) (hrhs : Operand d rhs) (hi : i < d.vector.length)
    (hm : m ≤ i + 1) : ∃ v, (range m).foldlM (orBit rhs i) d = .ok { d with vector := v } ∧
      v.length = d.vector.length ∧ (∀ p, bitAt v p = true ↔ if p = i then
        bitAt d.vector i = true ∨ ∃ j < m, bitAt (rhs d).vector j = true
      else bitAt d.vector p = true) ∧ Valid { d with vector := v } := by
  obtain ⟨hrhsValid, hcount⟩ := hrhs.valid hd
  have hsome : ∀ m, (bitAt d.vector i = true ∨ ∃ j < m, bitAt (rhs d).vector j = true) →
      i < d.bitCount := by
    rintro m (hset | ⟨j, -, hset⟩)
    · exact lt_size_of_bit hd hd rfl hi hset
    · exact lt_size_of_bit hd hrhsValid hcount hi hset
  induction m with
  | zero =>
    refine ⟨d.vector, rfl, rfl, fun p => ?_, hd⟩
    split
    case isTrue heq =>
      subst heq
      simp only [Nat.not_lt_zero, false_and, exists_false, or_false]
    case isFalse => exact Iff.rfl
  | succ m ih =>
    obtain ⟨v, hrun, hlength, hbits, hv⟩ := ih (by omega)
    have hown : subscript { d with vector := v } i = .ok (bitAt v i) :=
      subscript_of_lt (by change i / 64 < v.length; omega)
    have hlengths := length_of_count hd.toLayout hrhsValid.toLayout hcount
    have hcur := hbits i
    rw [if_pos rfl] at hcur
    have hother : ∃ b, subscript (rhs { d with vector := v }) m = .ok b ∧ ((bitAt v i || b) = true ↔
          bitAt d.vector i = true ∨ ∃ j < m + 1, bitAt (rhs d).vector j = true) := by
      obtain rfl | ⟨e, rfl, he, -⟩ := hrhs
      · refine ⟨bitAt v m, subscript_of_lt (by change m / 64 < v.length; omega), ?_⟩
        rw [Bool.or_eq_true, hcur, hbits m, Nat.exists_lt_succ_right, or_assoc]
        split
        case isTrue heq =>
          subst heq
          change _ ↔ bitAt d.vector m = true ∨ (_ ∨ bitAt d.vector m = true)
          generalize (∃ j < m, bitAt (id d).vector j = true) = earlier
          generalize (bitAt d.vector m = true) = own
          rw [← or_assoc, or_self, @or_comm earlier own, ← or_assoc, or_self]
        case isFalse => exact Iff.rfl
      · change e.vector.length = d.vector.length at hlengths
        refine ⟨bitAt e.vector m, subscript_of_lt (by change m / 64 < e.vector.length; omega), ?_⟩
        rw [Bool.or_eq_true, hcur, Nat.exists_lt_succ_right, or_assoc]
    obtain ⟨b, hread, hvalue⟩ := hother
    obtain ⟨v', hset, hlength', hbits'⟩ := set_spec hv
      (by change i / 64 < v.length; omega) (bitAt v i || b)
    have hfinal : ∀ p, bitAt v' p = true ↔ if p = i then
        bitAt d.vector i = true ∨ ∃ j < m + 1, bitAt (rhs d).vector j = true
        else bitAt d.vector p = true := by
      intro p
      rw [hbits' p]
      by_cases heq : p = i
      · rw [if_pos heq, if_pos heq]
        exact hvalue
      · rw [if_neg heq, if_neg heq, hbits p, if_neg heq]
    refine ⟨v', ?_, hlength'.trans hlength, hfinal, ?_⟩
    · rw [range_succ, foldlM_append, hrun]
      change (foldlM (orBit rhs i) { d with vector := v } [m]) = _
      rw [foldlM_cons]
      simp only [orBit, hown, hread, hset, bind, Except.bind, foldlM_nil, pure, Except.pure]
    · exact hd.of_bit (hlength'.trans hlength) hfinal (hsome (m + 1))

/-- The loops of `operator|=`: of as many positions as there are words, each becomes set when one
up to it is set in the right operand. -/
theorem orAssign_spec (hd : Valid d) (hrhs : Operand d rhs) :
    ∃ v, orAssign d rhs = .ok { d with vector := v } ∧ v.length = d.vector.length ∧
      (∀ p, bitAt v p = true ↔ if p < d.vector.length then
        bitAt d.vector p = true ∨ ∃ j ≤ p, bitAt (rhs d).vector j = true
      else bitAt d.vector p = true) ∧ Valid { d with vector := v } := by
  have hloop : ∀ k ≤ d.vector.length, ∃ v, (range k).foldlM (fun d i =>
        (range (min (i + 1) (rhs d).storageSize)).foldlM (orBit rhs i) d) d =
          .ok { d with vector := v } ∧ v.length = d.vector.length ∧
      (∀ p, bitAt v p = true ↔ if p < k then
        bitAt d.vector p = true ∨ ∃ j ≤ p, bitAt (rhs d).vector j = true
      else bitAt d.vector p = true) ∧ Valid { d with vector := v } := by
    intro k hk
    induction k with
    | zero =>
      refine ⟨d.vector, rfl, rfl, fun p => ?_, hd⟩
      rw [if_neg (Nat.not_lt_zero p)]
    | succ k ih =>
      obtain ⟨v, hrun, hlength, hbits, hv⟩ := ih (by omega)
      have hrhs' : Operand { d with vector := v } rhs := hrhs
      obtain ⟨hvalid', hcount'⟩ := hrhs'.valid hv
      have hlengths := length_of_count hv.toLayout hvalid'.toLayout hcount'
      change _ = v.length at hlengths
      have hmin : min (k + 1) (rhs { d with vector := v }).storageSize = k + 1 := by
        rw [storageSize]
        omega
      obtain ⟨v', hrun', hlength', hbits', hv'⟩ := orBits_spec hv hrhs'
        (by change k < v.length; omega) le_rfl
      have hseen : (∃ j < k + 1, bitAt (rhs { d with vector := v }).vector j = true) ↔
          ∃ j ≤ k, bitAt (rhs d).vector j = true := by
        obtain rfl | ⟨e, rfl, -, -⟩ := hrhs
        · constructor
          · rintro ⟨j, hj, hset⟩
            have hold := (hbits j).mp hset
            split at hold
            case isTrue hjk =>
              obtain hold | ⟨l, hl, hold⟩ := hold
              · exact ⟨j, by omega, hold⟩
              · exact ⟨l, by omega, hold⟩
            case isFalse => exact ⟨j, by omega, hold⟩
          · rintro ⟨j, hj, hold⟩
            refine ⟨j, by omega, (hbits j).mpr ?_⟩
            split
            case isTrue => exact .inl hold
            case isFalse => exact hold
        · exact exists_congr fun j => and_congr_left fun _ => Nat.lt_succ_iff
      have hcur := hbits k
      rw [if_neg (Nat.lt_irrefl k)] at hcur
      refine ⟨v', ?_, hlength'.trans hlength, fun p => ?_, hv'⟩
      · rw [range_succ, foldlM_append, hrun]
        simp only [foldlM_cons, foldlM_nil, bind, Except.bind, pure, Except.pure, hmin,
          hrun']
      · rw [hbits' p]
        by_cases heq : p = k
        · subst heq
          rw [if_pos rfl, if_pos (Nat.lt_succ_self p), hseen]
          exact or_congr hcur Iff.rfl
        · have hstep : p < k + 1 ↔ p < k := by omega
          rw [if_neg heq]
          rw [hbits p]
          simp only [hstep]
  exact hloop d.vector.length le_rfl

end Union

end Equilibrium.DynamicBitSet
