import Equilibrium.Containers.DynamicBitSetBits

/-! Runs of operations on `DynamicBitSet` objects: when they behave as vectors of bits. -/

namespace Equilibrium.DynamicBitSet

open BitVec (allOnes getLsbD_and getLsbD_zero)
open Finset (mem_filter mem_inter mem_range mem_union notMem_empty range)
open Library.WordBits

variable {ι : Type} [DecidableEq ι]

def value (d : DynamicBitSet) : Bits := ⟨d.bitCount, members d.bitCount d.vector⟩

def abs (s : World ι) : ι → Bits := fun x => value (s x)

theorem abs_update (s : World ι) (x : ι) (d : DynamicBitSet) :
    abs (Function.update s x d) = Function.update (abs s) x (value d) :=
  Function.comp_update value s x d

/-- The call stops the program for want of memory, or does on the objects what it does on the
vectors of bits, within the storage and without setting a bit at or above the bit count. -/
def Behaves (s : World ι) (c : Call ι) : Prop :=
  match exec s c with
  | .error .fatal => True
  | .error .outOfBounds => False
  | .ok (s', r) => r = (specExec (abs s) c).2 ∧ abs s' = (specExec (abs s) c).1 ∧
      ∀ z, Within (s' z).bitCount (s' z).vector

/-- The words that hold `n` positions. -/
def wordsFor (n : ℕ) : ℕ := (n + 63) / 64

/-- What `&=` must find: beside a common position, every position of the right operand that lies
at the same bit of a word before, none beyond the mask of the last word. -/
def AndKeeps (n : ℕ) (S T : Finset ℕ) : Prop :=
  ∀ p ∈ S ∩ T, p % 64 ≤ (n - 1) % 64 ∧ ∀ j < p / 64, j * 64 + p % 64 ∈ T

/-- What `|=` must find: at the positions that it visits, as many as there are words, nothing
set before an unset one, and no new position at the others. -/
def OrKeeps (n : ℕ) (S T : Finset ℕ) : Prop :=
  (∀ i < wordsFor n, (∃ j ∈ T, j ≤ i) → i ∈ S ∪ T) ∧ ∀ p ∈ T, wordsFor n ≤ p → p ∈ S

/-- What `^=` must find: nothing of the right operand before its last word. -/
def XorKeeps (n : ℕ) (T : Finset ℕ) : Prop := ∀ p ∈ T, (wordsFor n - 1) * 64 ≤ p

instance (n : ℕ) (S T : Finset ℕ) : Decidable (AndKeeps n S T) :=
  inferInstanceAs (Decidable (∀ p ∈ S ∩ T, _ ∧ ∀ j < p / 64, _))

instance (n : ℕ) (S T : Finset ℕ) : Decidable (OrKeeps n S T) :=
  inferInstanceAs (Decidable (_ ∧ _))

instance (n : ℕ) (T : Finset ℕ) : Decidable (XorKeeps n T) :=
  inferInstanceAs (Decidable (∀ p ∈ T, _))

def Keeps (s : World ι) : Call ι → Prop
  | .construct _ _ _ bitCount => bitCount + 63 < 2 ^ 64
  | .setAll x | .flip x => (s x).bitCount ≠ 0
  | .assign x val => ∀ p < 64, (s x).bitCount ≤ p → val.getLsbD p = false
  | .andAssign x y => AndKeeps (s x).bitCount (abs s x).ones (abs s y).ones
  | .orAssign x y => OrKeeps (s x).bitCount (abs s x).ones (abs s y).ones
  | .xorAssign x y => x = y ∨ XorKeeps (s x).bitCount (abs s y).ones
  | .copy _ _ _ | .set _ _ _ | .reset _ _ | .resetAll _ | .subscript _ _ | .countSetBits _
  | .equal _ _ => True

section Steps

variable {s : World ι} {v : List (BitVec 64)}

/-- A call that writes the words of one object behaves when they have the bits of the vector. -/
theorem behaves_iff_bits (hs : ∀ z, Valid (s z)) {c : Call ι} {x : ι} {n : ℕ} {mask : BitVec 64}
    {S : Finset ℕ} (hexec : exec s c = .ok (Function.update s x ⟨v, n, mask⟩, .done))
    (hspec : specExec (abs s) c = (Function.update (abs s) x ⟨n, S⟩, .done)) (hS : ∀ p ∈ S, p < n) :
    Behaves s c ↔ ∀ p, bitAt v p = true ↔ p ∈ S := by
  rw [Behaves, hexec, hspec]
  change Reply.done = Reply.done ∧ abs (Function.update s x ⟨v, n, mask⟩) =
    Function.update (abs s) x ⟨n, S⟩ ∧ _ ↔ _
  rw [abs_update]
  constructor
  · rintro ⟨-, habs, hwithin⟩ p
    have hself := congrFun habs x
    rw [Function.update_self, Function.update_self] at hself
    have hones : members n v = S := congrArg Bits.ones hself
    have hw := hwithin x
    rw [Function.update_self] at hw
    rw [← hones, Within.mem_members hw]
  · intro hbits
    have hw : Within n v := by
      intro p hp
      refine Bool.eq_false_iff.mpr fun hset => ?_
      have := hS p ((hbits p).mp hset)
      omega
    have hones : members n v = S := by
      ext p
      rw [hw.mem_members, hbits]
    refine ⟨rfl, ?_, fun z => ?_⟩
    · rw [value, hones]
    · rw [Function.update_apply]
      split
      case isTrue => exact hw
      case isFalse => exact (hs z).within

section

omit [DecidableEq ι]

theorem mem_ones (hs : ∀ z, Valid (s z)) {x : ι} {p : ℕ} :
    p ∈ (abs s x).ones ↔ bitAt (s x).vector p = true := (hs x).within.mem_members

theorem lt_of_mem_ones {x : ι} {p : ℕ} (h : p ∈ (abs s x).ones) : p < (s x).bitCount :=
  (mem_members.mp h).1

end

theorem exec_ok {c : Call ι} {x : ι} {result : Except Fault DynamicBitSet} {d : DynamicBitSet}
    (hexec : exec s c = update s x result) (h : result = .ok d) :
    exec s c = .ok (Function.update s x d, .done) := by
  rw [hexec, h]
  rfl

end Steps

section Operators

theorem folded_and (mask word : BitVec 64) (u : List (BitVec 64)) (m j : ℕ) :
    (folded (fun v u => v &&& (u &&& mask)) word u m).getLsbD j = true ↔ word.getLsbD j = true ∧
        ∀ i < m, (wordAt u i).getLsbD j = true ∧ mask.getLsbD j = true := by
  induction m with
  | zero => exact ⟨fun h => ⟨h, fun i hi => absurd hi (Nat.not_lt_zero i)⟩, And.left⟩
  | succ m ih =>
    rw [folded_succ, getLsbD_and, getLsbD_and, Bool.and_eq_true, Bool.and_eq_true, ih,
      and_assoc, Nat.forall_lt_succ_right]

theorem folded_xor (word : BitVec 64) (u : List (BitVec 64)) (m : ℕ) :
    folded (fun v u => v ^^^ u) word u m = word ^^^ folded (fun v u => v ^^^ u) 0#64 u m := by
  induction m with
  | zero => exact BitVec.xor_zero.symm
  | succ m ih => rw [folded_succ, folded_succ, ih, BitVec.xor_assoc]

variable {d e : DynamicBitSet}

theorem Valid.mem_ones (hd : Valid d) {p : ℕ} : p ∈ (value d).ones ↔ bitAt d.vector p = true :=
  hd.within.mem_members

theorem lt_of_mem_value {p : ℕ} (h : p ∈ (value d).ones) : p < d.bitCount := (mem_members.mp h).1

theorem bitAt_row (v : List (BitVec 64)) (j p : ℕ) :
    bitAt v (j * 64 + p % 64) = (wordAt v j).getLsbD (p % 64) :=
  bitAt_eq (by decide) (Nat.mod_lt p (by decide))

theorem bitAt_beyond {v : List (BitVec 64)} {p : ℕ} (h : v.length ≤ p / 64) :
    ¬bitAt v p = true := by
  rw [bitAt, wordAt_of_length_le h]
  intro hset
  cases getLsbD_zero.symm.trans hset

theorem mask_row (hd : Valid d) {p : ℕ} (hpos : d.bitCount ≠ 0) :
    d.lastMask.getLsbD (p % 64) = true ↔ p % 64 ≤ (d.bitCount - 1) % 64 := by
  rw [hd.mask, maskOf_bit hpos hd.fits (Nat.mod_lt p (by decide)), decide_eq_true_iff]

theorem and_apart (hd : Valid d) (he : Valid e) (hcount : e.bitCount = d.bitCount) :
    (∀ p, bitAt (andAssign d fun _ => e.vector).vector p = true ↔
      p ∈ (value d).ones ∩ (value e).ones) ↔ AndKeeps d.bitCount (value d).ones (value e).ones := by
  obtain ⟨hlength, hwords⟩ := combine_apart (fun v u => v &&& (u &&& d.lastMask))
    (length_of_count hd.toLayout he.toLayout hcount)
  have hrow : ∀ p, p / 64 < d.vector.length →
      (bitAt (andAssign d fun _ => e.vector).vector p = true ↔ bitAt d.vector p = true ∧
        ∀ i < p / 64 + 1, bitAt e.vector (i * 64 + p % 64) = true ∧
          d.lastMask.getLsbD (p % 64) = true) := by
    intro p hp
    rw [bitAt, andAssign, hwords _ hp, folded_and]
    simp only [bitAt_row]
    rfl
  have hself : ∀ p, p / 64 * 64 + p % 64 = p := fun p => by omega
  constructor
  · intro h p hp
    have hset := (h p).mpr hp
    have hin : p / 64 < d.vector.length :=
      word_of_lt hd.toLayout (lt_of_mem_value (mem_inter.mp hp).1)
    obtain ⟨-, hall⟩ := (hrow p hin).mp hset
    have hpos := Nat.ne_zero_of_lt (lt_of_mem_value (mem_inter.mp hp).1)
    refine ⟨(mask_row hd hpos).mp (hall (p / 64) (Nat.lt_succ_self _)).2, fun j hj => ?_⟩
    exact he.mem_ones.mpr (hall j (by omega)).1
  · intro h p
    by_cases hp : p / 64 < d.vector.length
    · rw [hrow p hp, mem_inter, hd.mem_ones, he.mem_ones]
      constructor
      · rintro ⟨hset, hall⟩
        have hlast := (hall (p / 64) (Nat.lt_succ_self _)).1
        rw [hself] at hlast
        exact ⟨hset, hlast⟩
      · rintro ⟨hset, hset'⟩
        have hboth : p ∈ (value d).ones ∩ (value e).ones :=
          mem_inter.mpr ⟨hd.mem_ones.mpr hset, he.mem_ones.mpr hset'⟩
        obtain ⟨hmask, hbefore⟩ := h p hboth
        have hpos := Nat.ne_zero_of_lt (lt_of_mem_value (mem_inter.mp hboth).1)
        refine ⟨hset, fun i hi => ⟨?_, (mask_row hd hpos).mpr hmask⟩⟩
        by_cases heq : i = p / 64
        · rw [heq, hself]
          exact hset'
        · exact he.mem_ones.mp (hbefore i (by omega))
    · refine iff_of_false (bitAt_beyond ?_) fun hmem => ?_
      · change (combine _ _ d.vector).length ≤ p / 64
        omega
      · exact bitAt_beyond (by omega) (hd.mem_ones.mp (mem_inter.mp hmem).1)

theorem and_self (hd : Valid d) :
    (∀ p, bitAt (andAssign d id).vector p = true ↔ p ∈ (value d).ones ∩ (value d).ones) ↔
      AndKeeps d.bitCount (value d).ones (value d).ones := by
  obtain ⟨hlength, hwords⟩ := combine_self (fun v u => v &&& (u &&& d.lastMask))
    (v := d.vector)
  have hrow : ∀ p, p / 64 < d.vector.length →
      (bitAt (andAssign d id).vector p = true ↔ (bitAt d.vector p = true ∧
        ∀ i < p / 64, bitAt (andAssign d id).vector (i * 64 + p % 64) = true ∧
          d.lastMask.getLsbD (p % 64) = true) ∧ d.lastMask.getLsbD (p % 64) = true) := by
    intro p hp
    have hread : bitAt (andAssign d id).vector p =
        (wordAt (combine (fun v u => v &&& (u &&& d.lastMask)) id d.vector) (p / 64)).getLsbD
          (p % 64) := rfl
    rw [hread, hwords _ hp, getLsbD_and, getLsbD_and, ← Bool.and_assoc,
      Bool.and_self, Bool.and_eq_true, folded_and]
    simp only [bitAt_row]
    rfl
  rw [AndKeeps, Finset.inter_self]
  constructor
  · intro h p hp
    have hlt := lt_of_mem_value hp
    obtain ⟨⟨-, hall⟩, hmask⟩ := (hrow p (word_of_lt hd.toLayout hlt)).mp ((h p).mpr hp)
    refine ⟨(mask_row hd (by omega)).mp hmask, fun j hj => ?_⟩
    exact (h _).mp (hall j hj).1
  · intro h
    -- The words before are combined already: the induction is on the word of the position.
    suffices hword : ∀ i p, p / 64 = i →
        (bitAt (andAssign d id).vector p = true ↔ p ∈ (value d).ones) from
      fun p => hword (p / 64) p rfl
    intro i
    induction i using Nat.strong_induction_on with
    | _ i ih =>
      intro p hpi
      by_cases hp : p / 64 < d.vector.length
      · rw [hrow p hp, hd.mem_ones]
        refine ⟨fun hset => hset.1.1, fun hset => ?_⟩
        obtain ⟨hmask, hbefore⟩ := h p (hd.mem_ones.mpr hset)
        have hlt := (mem_members.mp (hd.mem_ones.mpr hset)).1
        have hmask' := (mask_row hd (by omega)).mpr hmask
        refine ⟨⟨hset, fun j hj => ⟨?_, hmask'⟩⟩, hmask'⟩
        exact (ih j (by omega) _ (by omega)).mpr (hbefore j hj)
      · refine iff_of_false (bitAt_beyond ?_) fun hmem => ?_
        · change (combine _ _ d.vector).length ≤ p / 64
          omega
        · exact bitAt_beyond (by omega) (hd.mem_ones.mp hmem)

theorem xor_apart (hd : Valid d) (he : Valid e) (hcount : e.bitCount = d.bitCount) :
    (∀ p, bitAt (xorAssign d fun _ => e.vector).vector p = true ↔
      p ∈ symmDiff (value d).ones (value e).ones) ↔ XorKeeps d.bitCount (value e).ones := by
  have hlengths := length_of_count hd.toLayout he.toLayout hcount
  obtain ⟨hlength, hwords⟩ := combine_apart (fun v u => v ^^^ u) hlengths
  have hdiff : ∀ p, p ∈ symmDiff (value d).ones (value e).ones ↔
      (bitAt d.vector p ^^ bitAt e.vector p) = true := by
    intro p
    rw [Finset.mem_symmDiff, hd.mem_ones, he.mem_ones]
    cases bitAt d.vector p <;> cases bitAt e.vector p <;> decide
  let before := folded (fun v u => v ^^^ u) 0#64 e.vector
  have hrow : ∀ p, p / 64 < d.vector.length → bitAt (xorAssign d fun _ => e.vector).vector p =
      (bitAt d.vector p ^^ ((before (p / 64)).getLsbD (p % 64) ^^ bitAt e.vector p)) := by
    intro p hp
    have hread : bitAt (xorAssign d fun _ => e.vector).vector p =
        (wordAt (combine (fun v u => v ^^^ u) (fun _ => e.vector) d.vector) (p / 64)).getLsbD
          (p % 64) := rfl
    rw [hread, hwords _ hp, folded_xor, folded_succ, BitVec.getLsbD_xor, BitVec.getLsbD_xor]
    rfl
  constructor
  · intro h
    have hzero : ∀ i < d.vector.length, before i = 0#64 := by
      intro i hi
      refine BitVec.eq_of_getLsbD_eq fun j hj => ?_
      have hplace : (i * 64 + j) / 64 = i ∧ (i * 64 + j) % 64 = j := by omega
      have hbits := Bool.eq_iff_iff.mpr ((h (i * 64 + j)).trans (hdiff _))
      rw [hrow _ (by rw [hplace.1]; exact hi), hplace.1, hplace.2] at hbits
      rw [getLsbD_zero]
      cases hbit : (before i).getLsbD j with
      | false => rfl
      | true =>
        rw [hbit] at hbits
        revert hbits
        cases bitAt d.vector (i * 64 + j) <;> cases bitAt e.vector (i * 64 + j) <;> decide
    intro p hp
    by_contra hlt
    have hcountpos : d.bitCount ≠ 0 := hcount ▸ Nat.ne_zero_of_lt (lt_of_mem_value hp)
    have hlast := length_eq hd.toLayout hcountpos
    rw [wordsFor] at hlt
    have hword : before (p / 64 + 1) = before (p / 64) ^^^ wordAt e.vector (p / 64) :=
      folded_succ _ _ _
    rw [hzero _ (by omega), hzero _ (by omega), BitVec.zero_xor] at hword
    have hset := he.mem_ones.mp hp
    rw [bitAt, ← hword] at hset
    cases getLsbD_zero.symm.trans hset
  · intro h p
    rw [hdiff]
    by_cases hp : p / 64 < d.vector.length
    · have hnone : ∀ i, i < d.vector.length → before i = 0#64 := by
        intro i hi
        induction i with
        | zero => rfl
        | succ i ih =>
          have hword : before (i + 1) = before i ^^^ wordAt e.vector i := folded_succ _ _ _
          rw [hword, ih (by omega), BitVec.zero_xor]
          refine BitVec.eq_of_getLsbD_eq fun j hj => ?_
          rw [getLsbD_zero, ← bitAt_eq (by decide) hj]
          refine Bool.eq_false_iff.mpr fun hset => ?_
          have hle := h _ (he.mem_ones.mpr hset)
          have hcountpos : d.bitCount ≠ 0 := hcount ▸ Nat.ne_zero_of_lt (lt_of_mem_value (he.mem_ones.mpr hset))
          have hlast := length_eq hd.toLayout hcountpos
          rw [wordsFor] at hle
          omega
      rw [hrow p hp, hnone _ hp, getLsbD_zero, Bool.false_xor]
    · have hrest : (bitAt d.vector p ^^ bitAt e.vector p) = false := by
        rw [Bool.eq_false_iff.mpr (bitAt_beyond (by omega)),
          Bool.eq_false_iff.mpr (bitAt_beyond (by omega))]
        rfl
      rw [hrest]
      refine iff_of_false (bitAt_beyond ?_) Bool.false_ne_true
      change (combine _ _ d.vector).length ≤ p / 64
      omega

theorem xor_self (d : DynamicBitSet) (p : ℕ) : ¬bitAt (xorAssign d id).vector p = true := by
  obtain ⟨hlength, hwords⟩ := combine_self (fun v u => v ^^^ u) d.vector
  by_cases hp : p / 64 < d.vector.length
  · have hread : bitAt (xorAssign d id).vector p =
        (wordAt (combine (fun v u => v ^^^ u) id d.vector) (p / 64)).getLsbD (p % 64) := rfl
    rw [hread, hwords _ hp, BitVec.xor_self]
    intro hset
    cases getLsbD_zero.symm.trans hset
  · refine bitAt_beyond ?_
    change (combine _ _ d.vector).length ≤ p / 64
    omega

theorem or_iff (hd : Valid d) (he : Valid e) (hcount : e.bitCount = d.bitCount)
    (hbits : ∀ p, bitAt v p = true ↔ if p < d.vector.length then
      bitAt d.vector p = true ∨ ∃ j ≤ p, bitAt e.vector j = true else bitAt d.vector p = true) :
    (∀ p, bitAt v p = true ↔ p ∈ (value d).ones ∪ (value e).ones) ↔
      OrKeeps d.bitCount (value d).ones (value e).ones := by
  have hwordsFor : d.bitCount ≠ 0 → wordsFor d.bitCount = d.vector.length := fun hpos =>
    (length_eq hd.toLayout hpos).symm
  constructor
  · intro h
    refine ⟨fun i hi hseen => ?_, fun p hp hle => ?_⟩
    · have hpos : d.bitCount ≠ 0 := by
        rintro hzero
        rw [wordsFor] at hi
        omega
      rw [hwordsFor hpos] at hi
      obtain ⟨j, hj, hji⟩ := hseen
      refine (h i).mp ((hbits i).mpr ?_)
      rw [if_pos hi]
      exact .inr ⟨j, hji, he.mem_ones.mp hj⟩
    · have hpos : d.bitCount ≠ 0 := hcount ▸ Nat.ne_zero_of_lt (lt_of_mem_value hp)
      have hset := (hbits p).mp ((h p).mpr (Finset.mem_union_right _ hp))
      rw [if_neg (by omega)] at hset
      exact hd.mem_ones.mpr hset
  · rintro ⟨hseen, hnew⟩ p
    rw [hbits p, mem_union, hd.mem_ones, he.mem_ones]
    split
    case isTrue hp =>
      constructor
      · rintro (hset | ⟨j, hj, hset⟩)
        · exact .inl hset
        · have hpos : d.bitCount ≠ 0 := hcount ▸ Nat.ne_zero_of_lt (lt_of_mem_value (he.mem_ones.mpr hset))
          have hmem := hseen p (by rw [hwordsFor hpos]; exact hp) ⟨j, he.mem_ones.mpr hset, hj⟩
          rw [mem_union, hd.mem_ones, he.mem_ones] at hmem
          exact hmem
      · rintro (hset | hset)
        · exact .inl hset
        · exact .inr ⟨p, Nat.le_refl p, hset⟩
    case isFalse hp =>
      refine ⟨.inl, fun h => h.elim id fun hset => ?_⟩
      have hpos : d.bitCount ≠ 0 := hcount ▸ Nat.ne_zero_of_lt (lt_of_mem_value (he.mem_ones.mpr hset))
      exact hd.mem_ones.mp (hnew p (he.mem_ones.mpr hset) (by rw [hwordsFor hpos]; omega))

end Operators

section Calls

variable {s : World ι} {c : Call ι}

/-- The call behaves exactly under its condition, and leaves every object laid out. -/
def Settled (s : World ι) (c : Call ι) : Prop :=
  (Behaves s c ↔ Keeps s c) ∧ ∀ s' r, exec s c = .ok (s', r) → ∀ z, Layout (s' z)

theorem settled_of_error (fault : Fault) (hexec : exec s c = .error fault)
    (hkeeps : fault = .fatal ↔ Keeps s c) : Settled s c := by
  constructor
  · rw [← hkeeps, Behaves, hexec]
    cases fault with
    | fatal => exact iff_of_true trivial rfl
    | outOfBounds => exact ⟨False.elim, fun h => by cases h⟩
  · intro s' r h
    rw [hexec] at h
    cases h

theorem settled_of_read (hs : ∀ z, Valid (s z)) {r : Reply} (hexec : exec s c = .ok (s, r))
    (hspec : specExec (abs s) c = (abs s, r)) (hkeeps : Keeps s c) : Settled s c := by
  constructor
  · refine iff_of_true ?_ hkeeps
    rw [Behaves, hexec, hspec]
    exact ⟨rfl, rfl, fun z => (hs z).within⟩
  · intro s' r' h
    rw [hexec] at h
    cases h
    exact fun z => (hs z).toLayout

theorem settled_of_write (hs : ∀ z, Valid (s z)) {x : ι} {d : DynamicBitSet} {S : Finset ℕ}
    (hexec : exec s c = .ok (Function.update s x d, .done))
    (hspec : specExec (abs s) c = (Function.update (abs s) x ⟨d.bitCount, S⟩, .done))
    (hS : ∀ p ∈ S, p < d.bitCount) (hd : Layout d)
    (hkeeps : (∀ p, bitAt d.vector p = true ↔ p ∈ S) ↔ Keeps s c) : Settled s c := by
  refine ⟨(behaves_iff_bits hs hexec hspec hS).trans hkeeps, fun s' r h z => ?_⟩
  rw [hexec] at h
  cases h
  rw [Function.update_apply]
  split
  case isTrue => exact hd
  case isFalse => exact (hs z).toLayout

theorem Layout.of_length {d : DynamicBitSet} (hd : Layout d) (h : v.length = d.vector.length) :
    Layout { d with vector := v } where
  fits := hd.fits
  length := h.trans hd.length
  mask := hd.mask

theorem words_self (s : World ι) (x : ι) : words s x x = id := funext fun _ => if_pos rfl

theorem words_apart (s : World ι) {x y : ι} (h : x ≠ y) :
    words s x y = fun _ => (s y).vector := funext fun _ => if_neg (Ne.symm h)

section

variable (hs : ∀ z, Valid (s z))
include hs

theorem operand_spec {x y : ι} (hcount : (s x).bitCount = (s y).bitCount) :
    Operand (s x) (operand s x y) ∧ operand s x y (s x) = s y := by
  by_cases h : y = x
  · subst h
    exact ⟨.inl (funext fun _ => if_pos rfl), if_pos rfl⟩
  · exact ⟨.inr ⟨s y, funext fun _ => if_neg h, hs y, hcount.symm⟩, if_neg h⟩

theorem settled_construct (x : ι) (granted : Bool) (val : BitVec 64) {n : ℕ} (hn : n < 2 ^ 64) :
    Settled s (.construct x granted val n) := by
  by_cases hfits : n + 63 < 2 ^ 64
  · have hcount : 0 < reserveCount n := by
      rw [reserveCount]
      split
      case isTrue => exact Nat.one_pos
      case isFalse hne =>
        omega
    cases granted with
    | false =>
      refine settled_of_error .fatal ?_ (iff_of_true rfl hfits)
      have hstop : construct false val n = .error .fatal := by
        rw [construct, if_pos ⟨rfl, hcount⟩]
        rfl
      rw [exec, hstop]
      rfl
    | true =>
      obtain ⟨v, hrun, hlength, hbits⟩ := construct_spec val hfits
      refine settled_of_write hs (exec_ok rfl hrun) rfl (fun p hp => ?_) ⟨hfits, hlength, rfl⟩ ?_
      · exact mem_range.mp (mem_filter.mp hp).1
      · refine iff_of_true (fun p => ?_) hfits
        rw [hbits, mem_filter, mem_range, Bool.and_eq_true, decide_eq_true_iff]
  · refine settled_of_error .outOfBounds ?_ (iff_of_false (by decide) hfits)
    have hzero : reserveCount n = 0 := by
      rw [reserveCount, if_neg (by omega)]
      omega
    have hstop : construct granted val n = .error .outOfBounds := by
      rw [construct, hzero, if_neg fun h => absurd h.2 (Nat.lt_irrefl 0)]
      rfl
    rw [exec, hstop]
    rfl

theorem settled_setAll (x : ι) : Settled s (.setAll x) := by
  have hwords := length_pos (hs x).toLayout
  have hrun : setAll (s x) = .ok { s x with
      vector := List.replicate ((s x).vector.length - 1) (allOnes 64) ++
        [(s x).lastMask] } := if_neg hwords.ne'
  refine settled_of_write hs (exec_ok rfl hrun) rfl (fun p hp => mem_range.mp hp)
    ((hs x).toLayout.of_length (length_setAll hwords)) ?_
  change (∀ p, bitAt (List.replicate ((s x).vector.length - 1) (allOnes 64) ++
    [(s x).lastMask]) p = true ↔ p ∈ range (s x).bitCount) ↔ (s x).bitCount ≠ 0
  constructor
  · intro h hzero
    have hone : (s x).vector.length = 1 := by
      rw [(hs x).length, hzero]
      rfl
    have hset := (h 0).mp (by rw [hone, (hs x).mask, hzero]; decide)
    rw [hzero] at hset
    exact notMem_empty 0 hset
  · intro hpos p
    rw [bitAt_setAll (hs x).toLayout hpos, decide_eq_true_iff, mem_range]

theorem settled_flip (x : ι) : Settled s (.flip x) := by
  by_cases hpos : (s x).bitCount = 0
  · have hone : (s x).vector.length = 1 := by
      rw [(hs x).length, hpos]
      rfl
    have hcount : (s x).wordCount = 0 := by
      rw [wordCount, hpos]
      rfl
    have hstop : flip (s x) = .error .outOfBounds := by
      rw [flip, hcount, storageSize, hone]
      rfl
    refine settled_of_error .outOfBounds ?_ (iff_of_false (by decide) fun h => h hpos)
    rw [exec, hstop]
    rfl
  · obtain ⟨v, hrun, hlength, hbits⟩ := flip_spec (hs x).toLayout hpos
    refine settled_of_write hs (exec_ok rfl hrun) rfl (fun p hp => ?_)
      ((hs x).toLayout.of_length hlength) (iff_of_true (fun p => ?_) hpos)
    · exact mem_range.mp (Finset.mem_sdiff.mp hp).1
    · rw [hbits, Bool.and_eq_true, decide_eq_true_iff]
      change _ ↔ p ∈ range (s x).bitCount \ (abs s x).ones
      rw [Finset.mem_sdiff, mem_range, mem_ones hs, Bool.not_eq_true']
      exact and_congr_right fun _ => (Bool.not_eq_true _).symm.to_iff

theorem settled_assign (x : ι) (val : BitVec 64) : Settled s (.assign x val) := by
  have hwords := length_pos (hs x).toLayout
  have hrun : assign (s x) val = .ok { s x with vector := (s x).vector.set 0 val } := by
    rw [assign, store_of_lt hwords]
    rfl
  refine settled_of_write hs (exec_ok rfl hrun) rfl (fun p hp => ?_)
    ((hs x).toLayout.of_length List.length_set) ?_
  · exact mem_range.mp (mem_filter.mp hp).1
  · change (∀ p, bitAt ((s x).vector.set 0 val) p = true ↔ p ∈ (range (s x).bitCount).filter
      fun p => (if p < 64 then val.getLsbD p else decide (p ∈ (abs s x).ones)) = true) ↔
        ∀ p < 64, (s x).bitCount ≤ p → val.getLsbD p = false
    constructor
    · intro h p hp hbeyond
      refine Bool.eq_false_iff.mpr fun hset => ?_
      have hmem := (h p).mp (by rw [bitAt_first hwords, if_pos hp]; exact hset)
      have := mem_range.mp (mem_filter.mp hmem).1
      omega
    · intro h p
      rw [bitAt_first hwords, mem_filter, mem_range]
      split
      case isTrue hp =>
        refine ⟨fun hset => ⟨?_, hset⟩, And.right⟩
        by_contra hbeyond
        rw [h p hp (by omega)] at hset
        cases hset
      case isFalse hp =>
        rw [decide_eq_true_iff, mem_ones hs]
        refine ⟨fun hset => ⟨?_, hset⟩, And.right⟩
        exact lt_of_mem_ones ((mem_ones hs).mpr hset)

section

variable {x y : ι} (hcount : (s x).bitCount = (s y).bitCount)
include hcount

theorem settled_and : Settled s (.andAssign x y) := by
  have hbelow : ∀ p ∈ (abs s x).ones ∩ (abs s y).ones, p < (s x).bitCount := fun p hp =>
    lt_of_mem_ones (mem_inter.mp hp).1
  by_cases h : x = y
  · subst h
    refine settled_of_write hs (d := andAssign (s x) id) ?_ rfl hbelow
      ((hs x).toLayout.of_length (combine_self _ _).1) (and_self (hs x))
    rw [exec, words_self]
    rfl
  · refine settled_of_write hs (d := andAssign (s x) fun _ => (s y).vector) ?_ rfl hbelow
      ((hs x).toLayout.of_length ?_) (and_apart (hs x) (hs y) hcount.symm)
    · rw [exec, words_apart s h]
      rfl
    · exact (combine_apart _ (length_of_count (hs x).toLayout (hs y).toLayout hcount.symm)).1

theorem settled_xor : Settled s (.xorAssign x y) := by
  by_cases h : x = y
  · subst h
    refine settled_of_write hs (x := x) (d := xorAssign (s x) id) ?_ ?_
      (fun p hp => absurd hp (notMem_empty p))
      ((hs x).toLayout.of_length (combine_self _ _).1) (iff_of_true (fun p => ?_) (.inl rfl))
    · rw [exec, words_self]
      rfl
    · rw [specExec, symmDiff_self]
      rfl
    · exact iff_of_false (xor_self (s x) p) (notMem_empty p)
  · refine settled_of_write hs (d := xorAssign (s x) fun _ => (s y).vector) ?_ rfl (fun p hp => ?_)
      ((hs x).toLayout.of_length ?_) ?_
    · rw [exec, words_apart s h]
      rfl
    · change p < (s x).bitCount
      obtain ⟨hx, -⟩ | ⟨hy, -⟩ := Finset.mem_symmDiff.mp hp
      · exact lt_of_mem_ones hx
      · exact Nat.lt_of_lt_of_eq (lt_of_mem_ones hy) hcount.symm
    · exact (combine_apart _ (length_of_count (hs x).toLayout (hs y).toLayout hcount.symm)).1
    · refine (xor_apart (hs x) (hs y) hcount.symm).trans ?_
      exact ⟨.inr, fun hkeeps => hkeeps.resolve_left h⟩

theorem settled_or : Settled s (.orAssign x y) := by
  obtain ⟨hrhs, hy⟩ := operand_spec hs hcount
  obtain ⟨v, hrun, hlength, hbits, -⟩ := orAssign_spec (hs x) hrhs
  rw [hy] at hbits
  refine settled_of_write hs (exec_ok rfl hrun) rfl (fun p hp => ?_)
    ((hs x).toLayout.of_length hlength) (or_iff (hs x) (hs y) hcount.symm hbits)
  change p < (s x).bitCount
  obtain hx | hy := mem_union.mp hp
  · exact lt_of_mem_ones hx
  · exact Nat.lt_of_lt_of_eq (lt_of_mem_ones hy) hcount.symm

end

theorem settled_position {x : ι} {pos : ℕ} {b : Bool} {result : Except Fault DynamicBitSet}
    (hpos : pos < (s x).bitCount) (hexec : exec s c = update s x result)
    (hspec : specExec (abs s) c = (Function.update (abs s) x ⟨(s x).bitCount,
      if b then insert pos (abs s x).ones else (abs s x).ones.erase pos⟩, .done))
    (hresult : ∃ v, result = .ok { s x with vector := v } ∧ v.length = (s x).vector.length ∧
      ∀ p, bitAt v p = if p = pos then b else bitAt (s x).vector p) (hkeeps : Keeps s c) :
    Settled s c := by
  obtain ⟨v, hrun, hlength, hbits⟩ := hresult
  refine settled_of_write hs (exec_ok hexec hrun) hspec (fun p hp => ?_)
    ((hs x).toLayout.of_length hlength) (iff_of_true (fun p => ?_) hkeeps)
  · change p < (s x).bitCount
    cases b with
    | false =>
      have hold : p ∈ (abs s x).ones.erase pos := hp
      exact lt_of_mem_ones (Finset.mem_of_mem_erase hold)
    | true =>
      obtain rfl | hp := Finset.mem_insert.mp hp
      · exact hpos
      · exact lt_of_mem_ones hp
  · rw [hbits]
    cases b with
    | false =>
      change _ ↔ p ∈ (abs s x).ones.erase pos
      rw [Finset.mem_erase, mem_ones hs]
      by_cases heq : p = pos
      · rw [if_pos heq]
        exact ⟨fun h => absurd h Bool.false_ne_true, fun h => absurd heq h.1⟩
      · rw [if_neg heq]
        exact (and_iff_right heq).symm
    | true =>
      change _ ↔ p ∈ insert pos (abs s x).ones
      rw [Finset.mem_insert, mem_ones hs]
      by_cases heq : p = pos
      · rw [if_pos heq]
        exact iff_of_true rfl (.inl heq)
      · rw [if_neg heq]
        exact (or_iff_right heq).symm

theorem settled (hlegal : Legal s c) : Settled s c := by
  cases c with
  | construct x granted val bitCount => exact settled_construct hs x granted val hlegal
  | copy x y granted =>
    by_cases hxy : x = y
    · subst hxy
      refine settled_of_read hs (if_pos rfl) ?_ trivial
      rw [specExec, Function.update_eq_self]
    · have hwords := length_pos (hs y).toLayout
      cases granted with
      | false =>
        refine settled_of_error .fatal ?_ (iff_of_true rfl trivial)
        rw [exec, if_neg hxy, if_pos ⟨rfl, hwords⟩]
      | true =>
        refine settled_of_write hs ?_ rfl (fun p hp => lt_of_mem_ones hp)
          (hs y).toLayout (iff_of_true (fun p => (mem_ones hs).symm) trivial)
        rw [exec, if_neg hxy]
        rfl
  | set x pos value =>
    exact settled_position hs hlegal rfl rfl
      (set_spec (hs x) (word_of_lt (hs x).toLayout hlegal) value) trivial
  | setAll x => exact settled_setAll hs x
  | reset x pos =>
    exact settled_position hs hlegal rfl rfl
      (reset_spec (hs x) (word_of_lt (hs x).toLayout hlegal)) trivial
  | resetAll x =>
    refine settled_of_write hs rfl rfl
      (fun p hp => absurd hp (notMem_empty p))
      ((hs x).toLayout.of_length (List.length_map _)) (iff_of_true (fun p => ?_) trivial)
    refine iff_of_false (fun h => ?_) (notMem_empty p)
    cases (bitAt_resetAll _).symm.trans h
  | flip x => exact settled_flip hs x
  | assign x val => exact settled_assign hs x val
  | subscript x pos =>
    refine settled_of_read hs (r := .bit (bitAt (s x).vector pos)) ?_ ?_ trivial
    · rw [exec, subscript_of_lt (word_of_lt (hs x).toLayout hlegal)]
      rfl
    · have hread : decide (pos ∈ (abs s x).ones) = bitAt (s x).vector pos := by
        rw [Bool.eq_iff_iff, decide_eq_true_iff, mem_ones hs]
      rw [specExec, hread]
  | andAssign x y => exact settled_and hs hlegal
  | orAssign x y => exact settled_or hs hlegal
  | xorAssign x y => exact settled_xor hs hlegal
  | countSetBits x =>
    refine settled_of_read hs rfl ?_ trivial
    have hcard : (abs s x).ones.card = countSetBits (s x) :=
      (count_eq_card_members (by decide) (size_le (hs x).toLayout) (hs x).within).symm
    rw [specExec, hcard]
  | equal x y =>
    refine settled_of_read hs rfl ?_ trivial
    have hequal : decide (abs s x = abs s y) = equal (s x) (s y) := by
      rw [equal]
      by_cases hcount : (s y).bitCount = (s x).bitCount
      · rw [if_neg fun h => h hcount, Bool.eq_iff_iff, decide_eq_true_iff, beq_iff_eq]
        constructor
        · intro h
          have hones : members (s x).bitCount (s x).vector = members (s x).bitCount (s y).vector :=
            (congrArg Bits.ones h).trans (hcount ▸ rfl)
          exact members_injective (by decide)
            (length_of_count (hs y).toLayout (hs x).toLayout hcount.symm) (hs x).within
            (hcount ▸ (hs y).within) hones
        · intro h
          rw [abs, abs, value, value, h, hcount]
      · rw [if_pos hcount, decide_eq_false]
        exact fun h => hcount (congrArg Bits.size h).symm
    rw [specExec, hequal]

end

end Calls

theorem behaves_iff_keeps {s : World ι} (hs : ∀ z, Valid (s z)) {calls : List (Call ι)}
    (hlegal : Library.Calls.Guarded exec Legal s calls) :
    Library.Calls.Guarded exec Behaves s calls ↔ Library.Calls.Guarded exec Keeps s calls := by
  refine Library.Calls.guarded_congr (fun s : World ι => ∀ z, Valid (s z))
    (fun s c hs h => (settled hs h).1) (fun s c s' r hs h hbehaves hexec z => ?_) hs hlegal
  refine ⟨(settled hs h).2 s' r hexec z, ?_⟩
  rw [Behaves, hexec] at hbehaves
  exact hbehaves.2.2 z

omit [DecidableEq ι] in
theorem valid_initial (z : ι) : Valid ((initial : World ι) z) where
  fits := show 0 + 63 < 2 ^ 64 by decide
  length := rfl
  mask := rfl
  within := fun _ _ => bitAt_resetAll [0]

/-- The calls of a run behave as on vectors of bits exactly when each keeps to its condition. -/
theorem behaves_as_bits {calls : List (Call ι)}
    (hlegal : Library.Calls.Guarded exec Legal (initial : World ι) calls) :
    Library.Calls.Guarded exec Behaves (initial : World ι) calls ↔
      Library.Calls.Guarded exec Keeps (initial : World ι) calls :=
  behaves_iff_keeps valid_initial hlegal

section Examples

instance (s : World ι) : ∀ c : Call ι, Decidable (Legal s c)
  | .construct _ _ _ bitCount => inferInstanceAs (Decidable (_ < _))
  | .set x pos _ | .reset x pos | .subscript x pos =>
    inferInstanceAs (Decidable (_ < _))
  | .andAssign x y | .orAssign x y | .xorAssign x y =>
    inferInstanceAs (Decidable (_ = _))
  | .copy _ _ _ | .setAll _ | .resetAll _ | .flip _ | .assign _ _ | .countSetBits _
  | .equal _ _ => isTrue trivial

instance (s : World ι) : ∀ c : Call ι, Decidable (Keeps s c)
  | .construct _ _ _ bitCount => inferInstanceAs (Decidable (_ < _))
  | .setAll x | .flip x => inferInstanceAs (Decidable (_ ≠ _))
  | .assign x val =>
    inferInstanceAs (Decidable (∀ p < 64, (s x).bitCount ≤ p → val.getLsbD p = false))
  | .andAssign x y =>
    inferInstanceAs (Decidable (AndKeeps (s x).bitCount (abs s x).ones (abs s y).ones))
  | .orAssign x y =>
    inferInstanceAs (Decidable (OrKeeps (s x).bitCount (abs s x).ones (abs s y).ones))
  | .xorAssign x y =>
    inferInstanceAs (Decidable (_ ∨ _))
  | .copy _ _ _ | .set _ _ _ | .reset _ _ | .resetAll _ | .subscript _ _ | .countSetBits _
  | .equal _ _ => isTrue trivial

theorem behaves_as_bits_small : Library.Calls.Guarded exec Behaves (initial : World Bool)
    [.construct true true 9 70, .construct false true 3 70, .setAll false, .reset false 66,
      .flip true, .xorAssign true true, .countSetBits false] := by
  have hlegal : Library.Calls.Guarded exec Legal (initial : World Bool)
      [.construct true true 9 70, .construct false true 3 70, .setAll false, .reset false 66,
        .flip true, .xorAssign true true, .countSetBits false] := by decide +kernel
  refine (behaves_as_bits hlegal).mpr ?_
  decide +kernel

/-- Two objects of `n` bits, and an operation on them. -/
def between (n : ℕ) (val : BitVec 64) (c : Call Bool) : List (Call Bool) :=
  [.construct false true 0 n, .construct true true val n, c]

/-- `|=` leaves position 2 of four out, `^=` sets position 64 besides position 0, and without
bits `Set` sets some and `flip` leaves the storage. -/
theorem operators_by_words :
    ¬Library.Calls.Guarded exec Behaves initial (between 4 4 (.orAssign false true)) ∧
      ¬Library.Calls.Guarded exec Behaves initial (between 128 1 (.xorAssign false true)) ∧
      ¬Library.Calls.Guarded exec Behaves (initial : World Bool) [.setAll true] ∧
      ¬Library.Calls.Guarded exec Behaves (initial : World Bool) [.flip true] := by
  have hlegal : Library.Calls.Guarded exec Legal initial (between 4 4 (.orAssign false true)) ∧
      Library.Calls.Guarded exec Legal initial (between 128 1 (.xorAssign false true)) ∧
      Library.Calls.Guarded exec Legal (initial : World Bool) [.setAll true] ∧
      Library.Calls.Guarded exec Legal (initial : World Bool) [.flip true] := by decide +kernel
  rw [behaves_iff_keeps valid_initial hlegal.1, behaves_iff_keeps valid_initial hlegal.2.1,
    behaves_iff_keeps valid_initial hlegal.2.2.1, behaves_iff_keeps valid_initial hlegal.2.2.2]
  decide +kernel

end Examples

end Equilibrium.DynamicBitSet
