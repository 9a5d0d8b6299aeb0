import Mathlib.Data.List.Count
import Mathlib.Tactic.Ring
import Equilibrium.Library.WeakOrder

/-! `sort_i32` and `lower_bound_i32` of `akibase/algorithm.aki`. An `i32` that leaves its range
gives `none`, and so does an access outside the array; an address is a number modulo `2 ^ 64`. The
bound of the rounds of a loop is never met. -/

namespace Equilibrium.Algorithm

open Library.WeakOrder List Option

/-- An `i32` that an operation gives. -/
def i32 (z : ℤ) : Option ℤ := if -2 ^ 31 ≤ z ∧ z < 2 ^ 31 then some z else none

/-- The memory of an array of `i32`s. -/
structure Memory where
  address : ℤ
  cells : List Int32
  deriving DecidableEq, Repr

def Memory.cellOf (m : Memory) (base index : ℤ) : Option ℕ :=
  let offset : ℤ := (base + index * 4 - m.address) % 2 ^ 64
  if offset % 4 = 0 ∧ offset / 4 < m.cells.length then some (offset / 4).toNat else none

def abReadI32 (m : Memory) (base index : ℤ) : Option Int32 := do
  let cell ← m.cellOf base index
  m.cells[cell]?

def abWriteI32 (m : Memory) (base index : ℤ) (val : Int32) : Option Memory := do
  let cell ← m.cellOf base index
  return { m with cells := m.cells.set cell val }

def swapI32 (m : Memory) (arr i j : ℤ) : Option Memory := do
  let tmp ← abReadI32 m arr i
  let x ← abReadI32 m arr j
  let m ← abWriteI32 m arr i x
  abWriteI32 m arr j tmp

/-- The loop that moves the elements above the key up. -/
def shiftLoop (arr : ℤ) (key : Int32) : ℕ → ℤ → Memory → Option (ℤ × Memory)
  | 0, _, _ => none
  | rounds + 1, j, m =>
    if 0 ≤ j then do
      let x ← abReadI32 m arr j
      if x > key then do
        let above ← i32 (j + 1)
        let x ← abReadI32 m arr j
        let m ← abWriteI32 m arr above x
        let j ← i32 (j - 1)
        shiftLoop arr key rounds j m
      else some (j, m)
    else some (j, m)

/-- The rounds of the loop over `1..len` from `i` on. -/
def insertionLoop (arr : ℤ) : ℕ → ℤ → Memory → Option Memory
  | 0, _, m => some m
  | rounds + 1, i, m => do
    let key ← abReadI32 m arr i
    let j ← i32 (i - 1)
    let (j, m) ← shiftLoop arr key (i.toNat + 1) j m
    let hole ← i32 (j + 1)
    let m ← abWriteI32 m arr hole key
    insertionLoop arr rounds (i + 1) m

def insertionSortImpl (m : Memory) (arr len : ℤ) : Option Memory :=
  insertionLoop arr (len - 1).toNat 1 m

/-- The rounds of the loop over `lo..hi` from `j` on. -/
def partitionLoop (arr : ℤ) (pivot : Int32) : ℕ → ℤ → ℤ → Memory → Option (ℤ × Memory)
  | 0, i, _, m => some (i, m)
  | rounds + 1, i, j, m => do
    let x ← abReadI32 m arr j
    if x < pivot then do
      let m ← swapI32 m arr i j
      let i ← i32 (i + 1)
      partitionLoop arr pivot rounds i (j + 1) m
    else partitionLoop arr pivot rounds i (j + 1) m

def partitionImpl (m : Memory) (arr lo hi : ℤ) : Option (ℤ × Memory) := do
  let pivot ← abReadI32 m arr hi
  let (i, m) ← partitionLoop arr pivot (hi - lo).toNat lo lo m
  let m ← swapI32 m arr i hi
  return (i, m)

/-- The insertion sort of a part of the array. -/
def sortPart (m : Memory) (arr lo hi : ℤ) : Option Memory := do
  let width ← i32 (hi - lo)
  let subLen ← i32 (width + 1)
  insertionSortImpl m (arr + lo * 4) subLen

def introsortImpl (arr : ℤ) (depth : ℕ) (lo hi : ℤ) (m : Memory) : Option Memory := do
  let width ← i32 (hi - lo)
  if width < 16 then sortPart m arr lo hi
  else
    match depth with
    | 0 => sortPart m arr lo hi
    | depth + 1 => do
      let (p, m) ← partitionImpl m arr lo hi
      let left ← i32 (p - 1)
      let m ← introsortImpl arr depth lo left m
      let right ← i32 (p + 1)
      introsortImpl arr depth right hi m

/-- The loop of `log2_i32` -/
def log2Loop (v : ℕ) : ℕ := if v > 1 then log2Loop (v >>> 1) + 1 else 0
termination_by v
decreasing_by
  rw [Nat.shiftRight_eq_div_pow]
  omega

def sortI32 (m : Memory) (arr len : ℤ) : Option Memory :=
  if len ≤ 1 then some m
  else do
    let maxDepth ← i32 (2 * log2Loop len.toNat)
    let hi ← i32 (len - 1)
    introsortImpl arr maxDepth.toNat 0 hi m

def lowerBoundLoop (m : Memory) (arr : ℤ) (value : Int32) : ℕ → ℤ → ℤ → Option ℤ
  | 0, _, _ => none
  | rounds + 1, lo, hi =>
    if lo < hi then do
      let width ← i32 (hi - lo)
      let mid ← i32 (lo + width / 2)
      let x ← abReadI32 m arr mid
      if x < value then do
        let lo ← i32 (mid + 1)
        lowerBoundLoop m arr value rounds lo hi
      else lowerBoundLoop m arr value rounds lo mid
    else some lo

def lowerBoundI32 (m : Memory) (arr len : ℤ) (value : Int32) : Option ℤ :=
  lowerBoundLoop m arr value (len.toNat + 1) 0 len

section Cells

variable {address base index i j : ℤ} {x y : Int32} {m : Memory} {z : ℤ} {k : ℕ}

theorem i32_eq (hlow : -2 ^ 31 ≤ z) (hhigh : z < 2 ^ 31) : i32 z = some z := if_pos ⟨hlow, hhigh⟩

theorem i32_succ {n : ℕ} (h : n + 1 < 2 ^ 31) : i32 (n + 1) = some ((n + 1 : ℕ) : ℤ) :=
  i32_eq (by omega) (by omega)

theorem cellOf_eq (hlength : m.cells.length < 2 ^ 31) (hk : k < m.cells.length)
    (hcell : base + index * 4 = m.address + k * 4) : m.cellOf base index = some k := by
  have hoffset : (base + index * 4 - m.address) % 2 ^ 64 = k * 4 := by
    rw [hcell, add_sub_cancel_left]
    exact Int.emod_eq_of_lt (by omega) (by omega)
  rw [Memory.cellOf, hoffset, if_pos (by omega), Int.mul_ediv_cancel _ (by decide), Int.toNat_natCast]

variable (before behind : List Int32)

theorem read_at (hlength : (before ++ x :: behind).length < 2 ^ 31)
    (hcell : base + index * 4 = address + before.length * 4) :
    abReadI32 ⟨address, before ++ x :: behind⟩ base index = some x := by
  have hk : before.length < (before ++ x :: behind).length := by simp
  rw [abReadI32, cellOf_eq hlength hk hcell]
  simp

theorem write_at (hlength : (before ++ x :: behind).length < 2 ^ 31)
    (hcell : base + index * 4 = address + before.length * 4) :
    abWriteI32 ⟨address, before ++ x :: behind⟩ base index y =
      some ⟨address, before ++ y :: behind⟩ := by
  have hk : before.length < (before ++ x :: behind).length := by simp
  rw [abWriteI32, cellOf_eq hlength hk hcell]
  simp

theorem swap_rotate (cells : List Int32) (hlength : (before ++ (cells ++ x :: behind)).length < 2 ^ 31)
    (hi : i = before.length) (hj : j = before.length + cells.length) :
    swapI32 ⟨address, before ++ (cells ++ x :: behind)⟩ address i j =
      some ⟨address, before ++ x :: (cells.rotate 1 ++ behind)⟩ := by
  cases cells with
  | nil =>
    have hlength' : (before ++ x :: behind).length < 2 ^ 31 := hlength
    obtain rfl : j = i := by simp [hi, hj]
    have hcell : address + j * 4 = address + before.length * 4 := by rw [hi]
    simp only [swapI32, nil_append, rotate_nil, read_at before behind hlength' hcell,
      write_at before behind hlength' hcell, bind_eq_bind, bind_some]
  | cons y cells =>
    have hassoc (a b : Int32) : before ++ a :: (cells ++ b :: behind) =
        (before ++ a :: cells) ++ b :: behind := by simp
    have hlength' (a b : Int32) : (before ++ a :: (cells ++ b :: behind)).length < 2 ^ 31 := by
      simpa using hlength
    have hlength'' (a b : Int32) : ((before ++ a :: cells) ++ b :: behind).length < 2 ^ 31 := by
      rw [← hassoc]
      exact hlength' a b
    have hj' (a : Int32) : address + j * 4 = address + (before ++ a :: cells).length * 4 := by
      rw [hj, length_append, length_cons]
      push_cast
      rfl
    have htmp : abReadI32 ⟨address, before ++ y :: (cells ++ x :: behind)⟩ address i = some y :=
      read_at before _ (hlength' y x) (by rw [hi])
    have hx : abReadI32 ⟨address, before ++ y :: (cells ++ x :: behind)⟩ address j = some x := by
      rw [hassoc]
      exact read_at _ behind (hlength'' y x) (hj' y)
    have hfirst : abWriteI32 ⟨address, before ++ y :: (cells ++ x :: behind)⟩ address i x =
        some ⟨address, (before ++ x :: cells) ++ x :: behind⟩ := by
      rw [write_at before _ (hlength' y x) (by rw [hi]), hassoc]
    have hsecond : abWriteI32 ⟨address, (before ++ x :: cells) ++ x :: behind⟩ address j y =
        some ⟨address, (before ++ x :: cells) ++ y :: behind⟩ :=
      write_at _ behind (hlength'' x x) (hj' x)
    simp only [swapI32, cons_append, htmp, hx, hfirst, hsecond, bind_eq_bind,
      bind_some]
    simp

end Cells

section Insertion

variable (address : ℤ) {base : ℤ} (key : Int32)

theorem shiftLoop_spec (before behind sorted shifted : List Int32) (hole : Int32) {rounds : ℕ}
    (hbase : base = address + before.length * 4) (hrounds : sorted.length < rounds)
    (hlength : (before ++ (sorted ++ hole :: (shifted ++ behind))).length < 2 ^ 31) :
    ∃ low high hole', sorted = low ++ high ∧ shiftLoop base key rounds (sorted.length - 1)
          ⟨address, before ++ (sorted ++ hole :: (shifted ++ behind))⟩ =
        some ((low.length : ℤ) - 1, ⟨address, before ++ (low ++ hole' :: ((high ++ shifted) ++ behind))⟩) ∧
      (∀ x ∈ low.getLast?, ¬ key < x) ∧ ∀ y ∈ high, key < y := by
  induction sorted using reverseRecOn generalizing shifted hole rounds with
  | nil =>
    obtain ⟨rounds, rfl⟩ := Nat.exists_eq_succ_of_ne_zero hrounds.ne'
    exact ⟨[], [], hole, rfl, rfl, by simp, by simp⟩
  | append_singleton sorted x ih =>
    obtain ⟨rounds, rfl⟩ := Nat.exists_eq_succ_of_ne_zero (Nat.ne_of_gt (Nat.zero_lt_of_lt hrounds))
    have hcells (a : Int32) : before ++ ((sorted ++ [x]) ++ a :: (shifted ++ behind)) =
        (before ++ sorted) ++ x :: a :: (shifted ++ behind) := by simp
    have hwrite (a : Int32) : (before ++ sorted) ++ x :: a :: (shifted ++ behind) =
        (before ++ sorted ++ [x]) ++ a :: (shifted ++ behind) := by simp
    have htop : (((sorted ++ [x]).length : ℕ) : ℤ) - 1 = sorted.length := by simp
    have hindex : base + (sorted.length : ℤ) * 4 = address + ((before ++ sorted).length : ℕ) * 4 := by
      rw [hbase, length_append]
      push_cast
      ring
    have hnext : base + ((sorted.length : ℤ) + 1) * 4 =
        address + ((before ++ sorted ++ [x]).length : ℕ) * 4 := by
      rw [hbase, length_append, length_append, length_singleton]
      push_cast
      ring
    have hshort : sorted.length < 2 ^ 31 - 1 := by
      simp only [length_append, length_cons] at hlength
      omega
    rw [hcells] at hlength ⊢
    have hread := read_at _ _ hlength hindex
    have hstore : abWriteI32 ⟨address, (before ++ sorted) ++ x :: hole :: (shifted ++ behind)⟩ base
        ((sorted.length : ℤ) + 1) x =
          some ⟨address, before ++ (sorted ++ x :: ((x :: shifted) ++ behind))⟩ := by
      rw [hwrite] at hlength ⊢
      rw [write_at _ _ hlength hnext]
      simp
    rw [htop, shiftLoop]
    simp only [hread, bind_eq_bind, bind_some]
    by_cases habove : x > key
    case pos =>
      have hfewer : sorted.length < rounds := by
        omega
      obtain ⟨low, high, hole', hsplit, hrun, hlow, hhigh⟩ := ih (x :: shifted) x hfewer (by
          simp only [length_append, length_cons] at hlength ⊢
          omega)
      refine ⟨low, high ++ [x], hole', by rw [hsplit, append_assoc], ?_, hlow, ?_⟩
      · rw [if_pos habove, i32_eq (by omega) (by omega), i32_eq (by omega) (by omega)]
        simp only [hstore, bind_some]
        simpa using hrun
      · intro y hy
        rcases mem_append.mp hy with hy | hy
        · exact hhigh y hy
        · rwa [mem_singleton.mp hy]
    case neg =>
      refine ⟨sorted ++ [x], [], hole, by simp, ?_, by simpa using habove, by simp⟩
      rw [if_neg habove]
      simp

instance isStrictWeakOrder_int32 : IsStrictWeakOrder Int32 (· < ·) where
  irrefl _ := Int32.lt_irrefl
  trans _ _ _ := Int32.lt_trans
  incomp_trans a b c hab hbc := by
    have heq : a = b := Int32.le_antisymm (Int32.not_lt.mp hab.2) (Int32.not_lt.mp hab.1)
    rwa [heq]

theorem insertionLoop_spec (before behind sorted rest : List Int32)
    (hbase : base = address + before.length * 4)
    (hlength : (before ++ ((sorted ++ rest) ++ behind)).length < 2 ^ 31)
    (h : Sorted (· < ·) sorted) :
    ∃ ys, insertionLoop base rest.length sorted.length ⟨address, before ++ ((sorted ++ rest) ++ behind)⟩ =
        some ⟨address, before ++ (ys ++ behind)⟩ ∧ ys.Perm (sorted ++ rest) ∧ Sorted (· < ·) ys := by
  induction rest generalizing sorted with
  | nil => exact ⟨sorted, by simp [insertionLoop], by simp, h⟩
  | cons key rest ih =>
    have hcells : before ++ ((sorted ++ key :: rest) ++ behind) =
        (before ++ sorted) ++ key :: (rest ++ behind) := by simp
    have hshifted : before ++ ((sorted ++ key :: rest) ++ behind) =
        before ++ (sorted ++ key :: ([] ++ (rest ++ behind))) := by simp
    have hshort : sorted.length < 2 ^ 31 := by
      simp only [length_append] at hlength
      omega
    have hread : abReadI32 ⟨address, before ++ ((sorted ++ key :: rest) ++ behind)⟩ base
        sorted.length = some key := by
      rw [hcells] at hlength ⊢
      refine read_at _ _ hlength ?_
      rw [hbase, length_append]
      push_cast
      ring
    obtain ⟨low, high, hole, hsplit, hshift, hlow, hhigh⟩ := shiftLoop_spec address key
      before (rest ++ behind) sorted [] key hbase (Nat.lt_succ_self _) (hshifted ▸ hlength)
    have hsame : (low ++ key :: high ++ rest).length = (sorted ++ key :: rest).length := by
      rw [hsplit]
      simp only [length_append, length_cons]
      omega
    have hinserted : (before ++ ((low ++ key :: high ++ rest) ++ behind)).length < 2 ^ 31 := by
      rw [length_append, length_append, hsame, ← length_append, ← length_append]
      exact hlength
    have hwrite : abWriteI32 ⟨address, before ++ (low ++ hole :: ((high ++ []) ++
        (rest ++ behind)))⟩ base low.length key =
          some ⟨address, before ++ ((low ++ key :: high ++ rest) ++ behind)⟩ := by
      have hassoc (a : Int32) : before ++ (low ++ a :: ((high ++ []) ++ (rest ++ behind))) =
          (before ++ low) ++ a :: (high ++ (rest ++ behind)) := by simp
      rw [hassoc, write_at]
      · simp
      · simpa [Nat.add_assoc] using hinserted
      · rw [hbase, length_append]
        push_cast
        ring
    rw [hsplit] at h
    obtain ⟨ys, hrun, hperm, hsorted⟩ := ih (low ++ key :: high) hinserted (h.insert hlow hhigh)
    refine ⟨ys, ?_, hperm.trans ?_, hsorted⟩
    · have hnext : (sorted.length : ℤ) + 1 = ((low ++ key :: high).length : ℕ) := by
        rw [hsplit]
        simp only [length_append, length_cons]
        omega
      have hhole : low.length ≤ sorted.length := by
        rw [hsplit, length_append]
        exact Nat.le_add_right _ _
      rw [length_cons, insertionLoop, hread, i32_eq (by omega) (by omega), Int.toNat_natCast]
      simp only [bind_eq_bind, bind_some]
      rw [hshifted, hshift]
      simp only [bind_some, sub_add_cancel]
      rw [i32_eq (by omega) (by omega)]
      simp only [bind_some]
      rw [hwrite, hnext]
      exact hrun
    · rw [hsplit, append_assoc, append_assoc]
      exact (perm_middle.symm).append_left low

theorem sortPart_spec (before behind xs : List Int32)
    (hlength : (before ++ (xs ++ behind)).length < 2 ^ 31) :
    ∃ ys, sortPart ⟨address, before ++ (xs ++ behind)⟩ address before.length
        (before.length + xs.length - 1) = some ⟨address, before ++ (ys ++ behind)⟩ ∧
      ys.Perm xs ∧ Sorted (· < ·) ys := by
  have hshort : before.length + xs.length < 2 ^ 31 := by
    simp only [length_append] at hlength
    omega
  have hpart : sortPart ⟨address, before ++ (xs ++ behind)⟩ address before.length
      (before.length + xs.length - 1) = insertionSortImpl ⟨address, before ++ (xs ++ behind)⟩
        (address + before.length * 4) xs.length := by
    have hwidth : (before.length : ℤ) + xs.length - 1 - before.length = xs.length - 1 := by ring
    rw [sortPart, hwidth, i32_eq (by omega) (by omega)]
    simp only [bind_eq_bind, bind_some, sub_add_cancel]
    rw [i32_eq (by omega) (by omega)]
    rfl
  rw [hpart, insertionSortImpl]
  cases xs with
  | nil => exact ⟨[], rfl, .refl _, List.Pairwise.nil⟩
  | cons x xs =>
    have hrounds : (((x :: xs).length : ℕ) - 1 : ℤ).toNat = xs.length := by simp
    rw [hrounds]
    exact insertionLoop_spec address before behind [x] xs rfl hlength (sorted_singleton x)

end Insertion

section Partition

variable (address : ℤ) (pivot : Int32)

theorem partitionLoop_spec (before behind small large rest : List Int32)
    (hlength : (before ++ ((small ++ large ++ rest) ++ behind)).length < 2 ^ 31)
    (h : Parted (· < ·) pivot small large) :
    ∃ small' large', partitionLoop address pivot rest.length ((before.length + small.length : ℕ) : ℤ)
          ((before.length + (small ++ large).length : ℕ) : ℤ)
          ⟨address, before ++ ((small ++ large ++ rest) ++ behind)⟩ =
        some (((before.length + small'.length : ℕ) : ℤ),
          ⟨address, before ++ ((small' ++ large') ++ behind)⟩) ∧
      Parted (· < ·) pivot small' large' ∧ (small' ++ large').Perm (small ++ large ++ rest) := by
  induction rest generalizing small large with
  | nil => exact ⟨small, large, by simp [partitionLoop], h, by simp⟩
  | cons x rest ih =>
    have hcells : before ++ ((small ++ large ++ x :: rest) ++ behind) =
        (before ++ (small ++ large)) ++ x :: (rest ++ behind) := by simp
    have hparts : before ++ ((small ++ large ++ x :: rest) ++ behind) =
        (before ++ small) ++ (large ++ x :: (rest ++ behind)) := by simp
    have hread : abReadI32 ⟨address, before ++ ((small ++ large ++ x :: rest) ++ behind)⟩ address
        ((before.length + (small ++ large).length : ℕ) : ℤ) = some x := by
      rw [hcells] at hlength ⊢
      exact read_at _ _ hlength (by simp)
    have hnext (n : ℕ) : ((n : ℕ) : ℤ) + 1 = ((n + 1 : ℕ) : ℤ) := by push_cast; rfl
    rw [length_cons, partitionLoop, hread]
    simp only [bind_eq_bind, bind_some]
    by_cases hbelow : x < pivot
    case pos =>
      have hswap : swapI32 ⟨address, before ++ ((small ++ large ++ x :: rest) ++ behind)⟩ address
          ((before.length + small.length : ℕ) : ℤ)
          ((before.length + (small ++ large).length : ℕ) : ℤ) =
            some ⟨address, before ++ ((small ++ [x] ++ large.rotate 1 ++ rest) ++ behind)⟩ := by
        rw [hparts] at hlength ⊢
        rw [swap_rotate _ _ _ hlength (by simp) (by simp; omega)]
        simp
      have hrotated : (before ++ ((small ++ [x] ++ large.rotate 1 ++ rest) ++ behind)).length <
          2 ^ 31 := by
        simp only [length_append, length_rotate, length_cons, length_nil]
          at hlength ⊢
        omega
      obtain ⟨small', large', hrun, hparted, hperm⟩ :=
        ih (small ++ [x]) (large.rotate 1) hrotated (h.push_small hbelow)
      refine ⟨small', large', ?_, hparted, hperm.trans ?_⟩
      · have hsmall : before.length + (small ++ [x]).length = before.length + small.length + 1 := by
          simp [Nat.add_assoc]
        have hlarge : before.length + (small ++ [x] ++ large.rotate 1).length =
            before.length + (small ++ large).length + 1 := by
          simp only [length_append, length_rotate, length_singleton]
          omega
        have hshort : before.length + small.length + 1 < 2 ^ 31 := by
          simp only [length_append, length_cons] at hlength
          omega
        rw [hsmall, hlarge] at hrun
        rw [if_pos hbelow, hswap, i32_succ hshort, bind_some, hnext]
        exact hrun
      · have hmove := (perm_push_small small large x).append_right rest
        rwa [append_assoc (small ++ large)] at hmove
    case neg =>
      have hassoc : small ++ (large ++ [x]) ++ rest = small ++ large ++ x :: rest := by simp
      have hlarge : before.length + (small ++ (large ++ [x])).length =
          before.length + (small ++ large).length + 1 := by
        simp only [length_append, length_singleton]
        omega
      obtain ⟨small', large', hrun, hparted, hperm⟩ :=
        ih small (large ++ [x]) (by rwa [hassoc]) (h.push_large hbelow)
      rw [hassoc] at hrun hperm
      rw [hlarge] at hrun
      refine ⟨small', large', ?_, hparted, hperm⟩
      rw [if_neg hbelow]
      exact hrun

theorem partitionImpl_spec (before behind init : List Int32) (pivot : Int32)
    (hlength : (before ++ ((init ++ [pivot]) ++ behind)).length < 2 ^ 31) :
    ∃ small large, partitionImpl ⟨address, before ++ ((init ++ [pivot]) ++ behind)⟩ address
          before.length ((before.length + init.length : ℕ) : ℤ) =
        some (((before.length + small.length : ℕ) : ℤ),
          ⟨address, before ++ ((small ++ pivot :: large) ++ behind)⟩) ∧
      Parted (· < ·) pivot small large ∧ (small ++ pivot :: large).Perm (init ++ [pivot]) := by
  have hcells : before ++ ((init ++ [pivot]) ++ behind) =
      before ++ (([] ++ [] ++ init) ++ pivot :: behind) := by simp
  have hlast : before ++ ((init ++ [pivot]) ++ behind) = (before ++ init) ++ pivot :: behind := by
    simp
  have hread : abReadI32 ⟨address, before ++ ((init ++ [pivot]) ++ behind)⟩ address
      ((before.length + init.length : ℕ) : ℤ) = some pivot := by
    rw [hlast] at hlength ⊢
    exact read_at _ _ hlength (by rw [length_append])
  obtain ⟨small, large, hrun, hparted, hperm⟩ := partitionLoop_spec address pivot
    before (pivot :: behind) [] [] init (hcells ▸ hlength) ⟨by simp, by simp⟩
  have hsame := hperm.length_eq
  simp only [nil_append, length_nil, Nat.add_zero] at hrun hperm hsame
  refine ⟨small, large.rotate 1, ?_, ⟨hparted.small, ?_⟩, ?_⟩
  · have hrounds : (((before.length + init.length : ℕ) : ℤ) - before.length).toNat = init.length := by
      omega
    have hparts : before ++ ((small ++ large) ++ pivot :: behind) =
        (before ++ small) ++ (large ++ pivot :: behind) := by simp
    have hswap : swapI32 ⟨address, before ++ ((small ++ large) ++ pivot :: behind)⟩ address
        ((before.length + small.length : ℕ) : ℤ) ((before.length + init.length : ℕ) : ℤ) =
          some ⟨address, before ++ ((small ++ pivot :: large.rotate 1) ++ behind)⟩ := by
      have hlength' : (before ++ ((small ++ large) ++ pivot :: behind)).length < 2 ^ 31 := by
        simp only [length_append, length_cons] at hlength hsame ⊢
        omega
      rw [hparts] at hlength' ⊢
      rw [swap_rotate _ _ _ hlength' (by simp) (by rw [← hsame]; simp; omega)]
      simp
    rw [partitionImpl, hread]
    simp only [bind_eq_bind, bind_some]
    rw [hrounds, hcells, nil_append, nil_append, hrun]
    simp only [bind_some]
    rw [hswap]
    rfl
  · exact fun x hx => hparted.large x (mem_rotate.mp hx)
  · have hpush := (perm_push_small small large pivot).trans (hperm.append_right [pivot])
    rwa [append_assoc] at hpush

end Partition

section Ranges

variable (address : ℤ)

theorem width_eq {before behind xs : List Int32} (h : (before ++ (xs ++ behind)).length < 2 ^ 31) :
    i32 ((before.length : ℤ) + xs.length - 1 - before.length) = some (xs.length - 1 : ℤ) := by
  have hwidth : (before.length : ℤ) + xs.length - 1 - before.length = xs.length - 1 := by ring
  simp only [length_append] at h
  rw [hwidth]
  exact i32_eq (by omega) (by omega)

theorem introsortImpl_spec (depth : ℕ) (before behind xs : List Int32)
    (hlength : (before ++ (xs ++ behind)).length < 2 ^ 31) :
    ∃ ys, introsortImpl address depth before.length (before.length + xs.length - 1)
        ⟨address, before ++ (xs ++ behind)⟩ = some ⟨address, before ++ (ys ++ behind)⟩ ∧
      ys.Perm xs ∧ Sorted (· < ·) ys := by
  induction depth generalizing before behind xs with
  | zero =>
    obtain ⟨ys, hrun, hys⟩ := sortPart_spec address before behind xs hlength
    refine ⟨ys, ?_, hys⟩
    rw [introsortImpl, width_eq hlength, bind_eq_bind, bind_some]
    split
    · exact hrun
    · exact hrun
  | succ depth ih =>
    rw [introsortImpl, width_eq hlength, bind_eq_bind, bind_some]
    by_cases hnarrow : (xs.length - 1 : ℤ) < 16
    case pos =>
      rw [if_pos hnarrow]
      exact sortPart_spec address before behind xs hlength
    case neg =>
      obtain rfl | ⟨init, pivot, rfl⟩ := eq_nil_or_concat' xs
      · simp at hnarrow
      have hhi : (before.length : ℤ) + (init ++ [pivot]).length - 1 =
          ((before.length + init.length : ℕ) : ℤ) := by
        rw [length_append, length_singleton]
        push_cast
        ring
      obtain ⟨small, large, hpartition, hparted, hperm⟩ :=
        partitionImpl_spec address before behind init pivot hlength
      have hsame := hperm.length_eq
      have hparts (left right : List Int32) (hleft : left.length = small.length)
          (hright : right.length = large.length) :
          (before ++ ((left ++ pivot :: right) ++ behind)).length < 2 ^ 31 := by
        simp only [length_append, length_cons] at hlength hsame ⊢
        omega
      have hfirst (left right : List Int32) : before ++ (left ++ pivot :: (right ++ behind)) =
          before ++ ((left ++ pivot :: right) ++ behind) := by simp
      have hsecond (left right : List Int32) : (before ++ (left ++ [pivot])) ++ (right ++ behind) =
          before ++ ((left ++ pivot :: right) ++ behind) := by simp
      obtain ⟨left, hrunLeft, hpermLeft, hsortedLeft⟩ := ih before (pivot :: (large ++ behind)) small
        (by rw [hfirst]; exact hparts small large rfl rfl)
      obtain ⟨right, hrunRight, hpermRight, hsortedRight⟩ := ih (before ++ (left ++ [pivot])) behind
        large (by rw [hsecond]; exact hparts left large hpermLeft.length_eq rfl)
      have hshort : before.length + small.length + 1 < 2 ^ 31 := by
        have h := hparts small large rfl rfl
        simp only [length_append, length_cons] at h
        omega
      have hto : (before.length : ℤ) + small.length - 1 = ((before.length + small.length : ℕ) : ℤ) - 1 := by
        push_cast
        rfl
      have hfrom : ((before ++ (left ++ [pivot])).length : ℤ) =
          ((before.length + small.length + 1 : ℕ) : ℤ) := by
        simp [hpermLeft.length_eq, Nat.add_assoc]
      have hend : ((before ++ (left ++ [pivot])).length : ℤ) + large.length - 1 =
          ((before.length + init.length : ℕ) : ℤ) := by
        simp only [length_append, length_cons, length_nil] at hsame
        omega
      rw [hfirst, hfirst, hto] at hrunLeft
      rw [hsecond, hsecond, hend, hfrom] at hrunRight
      refine ⟨left ++ pivot :: right, ?_, (hpermLeft.append (hpermRight.cons pivot)).trans hperm,
        (hparted.of_perm hpermLeft hpermRight).sorted hsortedLeft hsortedRight⟩
      rw [if_neg hnarrow, hhi, hpartition, bind_eq_bind, bind_some]
      dsimp only
      rw [i32_eq (by omega) (by omega), bind_some, hrunLeft, bind_eq_bind, i32_succ hshort,
        bind_some]
      exact hrunRight

theorem two_pow_log2Loop_le {v : ℕ} (hv : 0 < v) : 2 ^ log2Loop v ≤ v := by
  rw [log2Loop]
  split
  case isTrue h =>
    have ih := two_pow_log2Loop_le (v := v >>> 1) (by omega)
    omega
  case isFalse => exact hv
termination_by v
decreasing_by omega

theorem sortI32_spec (cells : List Int32) (hlength : cells.length < 2 ^ 31) :
    ∃ ys, sortI32 ⟨address, cells⟩ address cells.length = some ⟨address, ys⟩ ∧ ys.Perm cells ∧
      Sorted (· < ·) ys := by
  rw [sortI32]
  by_cases hsmall : (cells.length : ℤ) ≤ 1
  case pos =>
    refine ⟨cells, if_pos hsmall, .refl cells, ?_⟩
    match cells, hsmall with
    | [], _ => exact List.Pairwise.nil
    | [x], _ => exact sorted_singleton x
  case neg =>
    have hlog : log2Loop cells.length < 31 := by
      have hpow := two_pow_log2Loop_le (v := cells.length) (by omega)
      exact (Nat.pow_lt_pow_iff_right (by decide)).mp (Nat.lt_of_le_of_lt hpow hlength)
    obtain ⟨ys, hrun, hys⟩ := introsortImpl_spec address
      (2 * log2Loop cells.length : ℤ).toNat [] [] cells (by simpa using hlength)
    refine ⟨ys, ?_, hys⟩
    rw [if_neg hsmall, Int.toNat_natCast, i32_eq (by omega) (by omega), bind_eq_bind,
      i32_eq (by omega) (by omega), bind_some]
    simpa using hrun

end Ranges

section Search

variable (address : ℤ) {value : Int32} {cells : List Int32}

/-- The number of the elements below the value stays between the bounds. -/
theorem lowerBoundLoop_spec (h : Sorted (· < ·) cells) (hlength : cells.length < 2 ^ 31)
    {rounds lo hi : ℕ} (hrounds : hi - lo < rounds) (hhi : hi ≤ cells.length)
    (hlow : lo ≤ cells.countP (· < value)) (hhigh : cells.countP (· < value) ≤ hi) :
    lowerBoundLoop ⟨address, cells⟩ address value rounds lo hi =
      some ((cells.countP (· < value) : ℕ) : ℤ) := by
  induction rounds generalizing lo hi with
  | zero => omega
  | succ rounds ih =>
    rw [lowerBoundLoop]
    by_cases hmore : (lo : ℤ) < hi
    case pos =>
      have hmid : (lo : ℤ) + (hi - lo) / 2 = ((lo + (hi - lo) / 2 : ℕ) : ℤ) := by omega
      have hcell : lo + (hi - lo) / 2 < cells.length := by omega
      have hread : abReadI32 ⟨address, cells⟩ address ((lo + (hi - lo) / 2 : ℕ) : ℤ) =
          some cells[lo + (hi - lo) / 2] := by
        rw [abReadI32, cellOf_eq hlength hcell rfl, bind_eq_bind,
          bind_some, getElem?_eq_getElem hcell]
      have hbelow := h.lt_iff value hcell
      rw [if_pos hmore, i32_eq (by omega) (by omega), bind_eq_bind, bind_some, hmid,
        i32_eq (by omega) (by omega), bind_some, hread, bind_eq_bind,
        bind_some]
      by_cases hx : cells[lo + (hi - lo) / 2] < value
      case pos =>
        rw [if_pos hx, i32_succ (by omega)]
        exact ih (by omega) hhi (hbelow.mp hx) hhigh
      case neg =>
        rw [if_neg hx]
        exact ih (by omega) (by omega) hlow (Nat.not_lt.mp (mt hbelow.mpr hx))
    case neg =>
      rw [if_neg hmore]
      congr 2
      omega

variable {address}

/-- `sort_i32` sorts every array inside it, and then `lower_bound_i32` counts the elements below
any value. -/
theorem sortI32_lowerBoundI32 (cells : List Int32) (hlength : cells.length < 2 ^ 31) :
    ∃ ys, sortI32 ⟨address, cells⟩ address cells.length = some ⟨address, ys⟩ ∧ ys.Perm cells ∧
      ys.Pairwise (fun x y => ¬ y < x) ∧
      ∀ value, lowerBoundI32 ⟨address, ys⟩ address ys.length value =
        some ((ys.countP (· < value) : ℕ) : ℤ) := by
  obtain ⟨ys, hrun, hperm, hsorted⟩ := sortI32_spec address cells hlength
  refine ⟨ys, hrun, hperm, hsorted, fun value => ?_⟩
  rw [lowerBoundI32, Int.toNat_natCast]
  have hzero : 0 ≤ ys.countP (· < value) := Nat.zero_le _
  have hloop := lowerBoundLoop_spec address hsorted (hperm.length_eq ▸ hlength)
    (Nat.lt_succ_self _) le_rfl hzero countP_le_length
  exact hloop

theorem sortI32_lowerBoundI32_small : ∃ ys, sortI32 ⟨-8, [5, -3, 8, 5]⟩ (-8) 4 = some ⟨-8, ys⟩ ∧
    ys.Perm [5, -3, 8, 5] ∧ ys.Pairwise (fun x y => ¬ y < x) ∧
      ∀ value, lowerBoundI32 ⟨-8, ys⟩ (-8) ys.length value =
        some ((ys.countP (· < value) : ℕ) : ℤ) :=
  sortI32_lowerBoundI32 [5, -3, 8, 5] (by decide)

end Search

end Equilibrium.Algorithm
