import Equilibrium.Library.WeakOrder

/-! `Sort` of `base/algorithm.h`. The array is the range to be sorted; a cell without a value is
one that was moved from. An access outside the range gives `none`, and so does a comparison of a
cell without a value. -/

namespace Equilibrium.Sort

open Library.WeakOrder List

variable {T : Type*}

abbrev Cells (T : Type*) := List (Option T)

def load (a : Cells T) (i : ℕ) : Option T := a[i]?.join

def store (a : Cells T) (i : ℕ) (cell : Option T) : Option (Cells T) :=
  if i < a.length then some (a.set i cell) else none

/-- `move(*i)`, and the array after it -/
def move (a : Cells T) (i : ℕ) : Option (Option T × Cells T) := do
  let cell ← a[i]?
  let a ← store a i none
  return (cell, a)

def swap (a : Cells T) (i j : ℕ) : Option (Cells T) := do
  let (tmp, a) ← move a i
  let (b, a) ← move a j
  let a ← store a i b
  store a j tmp

variable (lt : T → T → Bool)

/-- The loop that moves the elements above the key up, with `j + 1`. -/
def shiftLoop (first : ℕ) (key : T) : ℕ → Cells T → Option (ℕ × Cells T)
  | 0, a => some (0, a)
  | j + 1, a =>
    if j ≥ first then do
      let x ← load a j
      if lt key x then do
        let (x, a) ← move a j
        let a ← store a (j + 1) x
        shiftLoop first key j a
      else some (j + 1, a)
    else some (j + 1, a)

/-- The rounds of the outer loop from `i` on. -/
def insertionLoop (first : ℕ) : ℕ → ℕ → Cells T → Option (Cells T)
  | 0, _, a => some a
  | rounds + 1, i, a => do
    let key ← load a i
    let (_, a) ← move a i
    let (hole, a) ← shiftLoop lt first key i a
    let a ← store a hole (some key)
    insertionLoop first rounds (i + 1) a

def insertionSort (first last : ℕ) (a : Cells T) : Option (Cells T) :=
  insertionLoop lt first (last - (first + 1)) (first + 1) a

/-- The rounds of the loop of `Partition` from `j` on. -/
def partitionLoop (pivot : ℕ) : ℕ → ℕ → ℕ → Cells T → Option (ℕ × Cells T)
  | 0, i, _, a => some (i, a)
  | rounds + 1, i, j, a => do
    let x ← load a j
    let p ← load a pivot
    if lt x p then do
      let a ← swap a i j
      partitionLoop pivot rounds (i + 1) (j + 1) a
    else partitionLoop pivot rounds i (j + 1) a

def partition (first last : ℕ) (a : Cells T) : Option (ℕ × Cells T) := do
  let pivot := last - 1
  let (i, a) ← partitionLoop lt pivot (pivot - first) first first a
  let a ← swap a i pivot
  return (i, a)

/-- The loop takes the larger part of the range, and the call the smaller one. -/
def introSortImpl (depth first last : ℕ) (a : Cells T) : Option (Cells T) :=
  if last - first > 16 then
    match depth with
    | 0 => insertionSort lt first last a
    | depth + 1 => do
      let (pivot, a) ← partition lt first last a
      if pivot - first < last - pivot then do
        let a ← introSortImpl depth first pivot a
        introSortImpl depth (pivot + 1) last a
      else do
        let a ← introSortImpl depth (pivot + 1) last a
        introSortImpl depth first pivot a
  else insertionSort lt first last a

def log2 (n : ℕ) : ℕ := if n > 1 then log2 (n >>> 1) + 1 else 0
termination_by n
decreasing_by
  rw [Nat.shiftRight_eq_div_pow]
  omega

/-- `Sort` with a comparator -/
def sortComp (a : Cells T) : Option (Cells T) :=
  if a.length ≤ 1 then some a else introSortImpl lt (2 * log2 a.length) 0 a.length a

/-- `Sort` with `operator<` -/
def sort [LT T] [DecidableRel (α := T) (· < ·)] (a : Cells T) : Option (Cells T) :=
  sortComp (fun x y => decide (x < y)) a

section Cells

variable {i j : ℕ} {x : T} {c d : Option T} (before behind : Cells T)

section

variable (hi : i = before.length)
include hi

theorem load_at : load (before ++ some x :: behind) i = some x := by
  simp [load, hi]

theorem store_at : store (before ++ c :: behind) i d = some (before ++ d :: behind) := by
  simp [store, hi]

theorem move_at : move (before ++ c :: behind) i = some (c, before ++ none :: behind) := by
  have hcell : (before ++ c :: behind)[i]? = some c := by simp [hi]
  rw [move, hcell]
  rw [store_at before behind hi]
  rfl

end

theorem swap_rotate (cells : Cells T) (hi : i = before.length)
    (hj : j = before.length + cells.length) : swap (before ++ (cells ++ c :: behind)) i j =
      some (before ++ c :: (cells.rotate 1 ++ behind)) := by
  cases cells with
  | nil =>
    obtain rfl : j = i := hj.trans hi.symm
    simp only [swap, nil_append, rotate_nil, move_at before behind hi,
      store_at before behind hi, Option.bind_eq_bind, Option.bind_some]
  | cons d cells =>
    have hj' : j = (before ++ none :: cells).length := by
      rw [hj, length_append, length_cons, length_cons]
    have hj'' : j = (before ++ c :: cells).length := by
      rw [hj, length_append, length_cons, length_cons]
    have hassoc (e f : Option T) : before ++ e :: (cells ++ f :: behind) =
        (before ++ e :: cells) ++ f :: behind := by simp
    have hrotate : before ++ c :: ((d :: cells).rotate 1 ++ behind) =
        (before ++ c :: cells) ++ d :: behind := by simp
    have hmove : move (before ++ d :: (cells ++ c :: behind)) i =
        some (d, (before ++ none :: cells) ++ c :: behind) := by
      rw [move_at before _ hi, hassoc]
    have hmove' : move ((before ++ none :: cells) ++ c :: behind) j =
        some (c, before ++ none :: (cells ++ none :: behind)) := by
      rw [move_at _ behind hj', hassoc]
    have hstore : store (before ++ none :: (cells ++ none :: behind)) i c =
        some ((before ++ c :: cells) ++ none :: behind) := by
      rw [store_at before _ hi, hassoc]
    rw [hrotate, swap, cons_append, hmove]
    change (move _ j >>= _) = _
    rw [hmove']
    change (store _ i c >>= _) = _
    rw [hstore]
    exact store_at _ behind hj''

end Cells

section Insertion

variable (key : T)

theorem shiftLoop_spec (before behind : Cells T) (sorted shifted : List T) :
    ∃ low high, sorted = low ++ high ∧
      shiftLoop lt before.length key (before.length + sorted.length)
          (before ++ (sorted.map some ++ none :: (shifted.map some ++ behind))) =
        some (before.length + low.length,
          before ++ (low.map some ++ none :: ((high ++ shifted).map some ++ behind))) ∧
      (∀ x ∈ low.getLast?, ¬ lt key x = true) ∧ ∀ y ∈ high, lt key y = true := by
  induction sorted using reverseRecOn generalizing shifted with
  | nil =>
    refine ⟨[], [], rfl, ?_, by simp, by simp⟩
    cases hbefore : before.length with
    | zero => rfl
    | succ n => exact if_neg (by omega)
  | append_singleton sorted x ih =>
    have hcells (c : Option T) : before ++ ((sorted ++ [x]).map some ++ c ::
        (shifted.map some ++ behind)) = (before ++ sorted.map some) ++ some x :: c ::
          (shifted.map some ++ behind) := by simp
    have hindex : before.length + sorted.length = (before ++ sorted.map some).length := by simp
    rw [length_append, length_singleton, ← Nat.add_assoc, shiftLoop,
      if_pos (Nat.le_add_right _ _), hcells, load_at _ _ hindex]
    change ∃ low high, _ ∧ (if lt key x = true then _ else _) = _ ∧ _
    by_cases habove : lt key x = true
    case pos =>
      obtain ⟨low, high, hsplit, hrun, hlow, hhigh⟩ := ih (x :: shifted)
      refine ⟨low, high ++ [x], by rw [hsplit, append_assoc], ?_, hlow, ?_⟩
      · have hnext : store ((before ++ sorted.map some) ++ none :: none ::
            (shifted.map some ++ behind)) (before.length + sorted.length + 1) (some x) =
              some (before ++ (sorted.map some ++ none :: ((x :: shifted).map some ++ behind))) := by
          have hassoc (c : Option T) : (before ++ sorted.map some) ++ none :: c ::
              (shifted.map some ++ behind) = (before ++ sorted.map some ++ [none]) ++ c ::
                (shifted.map some ++ behind) := by simp
          rw [hassoc, store_at _ _ (by simp [Nat.add_assoc])]
          simp
        rw [if_pos habove, move_at _ _ hindex]
        change (store _ _ (some x) >>= _) = _
        rw [hnext]
        simpa using hrun
      · intro y hy
        rcases mem_append.mp hy with hy | hy
        · exact hhigh y hy
        · rwa [mem_singleton.mp hy]
    case neg =>
      refine ⟨sorted ++ [x], [], by simp, ?_, by simpa using habove, by simp⟩
      rw [if_neg habove]
      simp [Nat.add_assoc]

variable [IsStrictWeakOrder T (fun x y => lt x y = true)]

theorem insertionLoop_spec (before behind : Cells T) (sorted rest : List T)
    (h : Sorted (fun x y => lt x y = true) sorted) :
    ∃ ys, insertionLoop lt before.length rest.length (before.length + sorted.length)
        (before ++ ((sorted ++ rest).map some ++ behind)) = some (before ++ (ys.map some ++ behind)) ∧
      ys.Perm (sorted ++ rest) ∧ Sorted (fun x y => lt x y = true) ys := by
  induction rest generalizing sorted with
  | nil => exact ⟨sorted, by simp [insertionLoop], by simp, h⟩
  | cons key rest ih =>
    obtain ⟨low, high, hsplit, hshift, hlow, hhigh⟩ :=
      shiftLoop_spec lt key before (rest.map some ++ behind) sorted []
    rw [hsplit] at h
    obtain ⟨ys, hrun, hperm, hsorted⟩ := ih (low ++ key :: high) (h.insert hlow hhigh)
    have hcells : before ++ ((sorted ++ key :: rest).map some ++ behind) =
        (before ++ sorted.map some) ++ some key :: (rest.map some ++ behind) := by simp
    have hindex : before.length + sorted.length = (before ++ sorted.map some).length := by simp
    have hstore : store (before ++ (low.map some ++ none :: ((high ++ []).map some ++
        (rest.map some ++ behind)))) (before.length + low.length) (some key) =
          some (before ++ ((low ++ key :: high ++ rest).map some ++ behind)) := by
      rw [← append_assoc before, store_at _ _ (by simp)]
      simp
    refine ⟨ys, ?_, hperm.trans ?_, hsorted⟩
    · rw [length_cons, insertionLoop, hcells, load_at _ _ hindex]
      rw [move_at _ _ hindex]
      change (shiftLoop lt _ key _ _ >>= _) = _
      rw [append_assoc]
      have hshift' := hshift
      rw [map_nil, nil_append] at hshift'
      rw [hshift']
      change (store _ _ (some key) >>= _) = _
      rw [hstore]
      have hlength : before.length + sorted.length + 1 =
          before.length + (low ++ key :: high).length := by
        rw [hsplit]
        simp only [length_append, length_cons]
        omega
      rw [hlength]
      exact hrun
    · rw [hsplit, append_assoc, append_assoc]
      exact (perm_middle.symm).append_left low

theorem insertionSort_spec (before behind : Cells T) (xs : List T) :
    ∃ ys, insertionSort lt before.length (before.length + xs.length)
        (before ++ (xs.map some ++ behind)) = some (before ++ (ys.map some ++ behind)) ∧
      ys.Perm xs ∧ Sorted (fun x y => lt x y = true) ys := by
  cases xs with
  | nil =>
    refine ⟨[], ?_, .refl _, List.Pairwise.nil⟩
    rw [insertionSort, length_nil, Nat.add_zero, Nat.sub_eq_zero_of_le (Nat.le_succ _)]
    rfl
  | cons x xs =>
    have hrounds : before.length + (x :: xs).length - (before.length + 1) = xs.length := by
      rw [length_cons]
      omega
    have hrun := insertionLoop_spec lt before behind [x] xs (sorted_singleton x)
    rw [insertionSort, hrounds]
    exact hrun

end Insertion

section Partition

variable (pivot : T)

theorem partitionLoop_spec (before behind : Cells T) (small large rest : List T)
    (h : Parted (fun x y => lt x y = true) pivot small large) : ∃ small' large',
      partitionLoop lt (before.length + (small ++ large ++ rest).length) rest.length
          (before.length + small.length) (before.length + (small ++ large).length)
          (before ++ ((small ++ large ++ rest).map some ++ some pivot :: behind)) =
        some (before.length + small'.length,
          before ++ ((small' ++ large').map some ++ some pivot :: behind)) ∧
      Parted (fun x y => lt x y = true) pivot small' large' ∧
      (small' ++ large').Perm (small ++ large ++ rest) := by
  induction rest generalizing small large with
  | nil => exact ⟨small, large, by simp [partitionLoop], h, by simp⟩
  | cons x rest ih =>
    have hx : load (before ++ ((small ++ large ++ x :: rest).map some ++ some pivot :: behind))
        (before.length + (small ++ large).length) = some x := by
      have hcells : before ++ ((small ++ large ++ x :: rest).map some ++ some pivot :: behind) =
          (before ++ (small ++ large).map some) ++ some x ::
            (rest.map some ++ some pivot :: behind) := by simp
      rw [hcells, load_at _ _ (by simp)]
    have hpivot : load (before ++ ((small ++ large ++ x :: rest).map some ++ some pivot :: behind))
        (before.length + (small ++ large ++ x :: rest).length) = some pivot := by
      rw [← append_assoc, load_at _ _ (by simp)]
    rw [length_cons, partitionLoop, hx, hpivot]
    change ∃ small' large', (if lt x pivot = true then _ else _) = _ ∧ _
    by_cases hbelow : lt x pivot = true
    case pos =>
      obtain ⟨small', large', hrun, hparted, hperm⟩ :=
        ih (small ++ [x]) (large.rotate 1) (h.push_small hbelow)
      have hswap : swap (before ++ ((small ++ large ++ x :: rest).map some ++ some pivot :: behind))
          (before.length + small.length) (before.length + (small ++ large).length) =
            some (before ++ ((small ++ [x] ++ large.rotate 1 ++ rest).map some ++
              some pivot :: behind)) := by
        have hcells : before ++ ((small ++ large ++ x :: rest).map some ++ some pivot :: behind) =
            (before ++ small.map some) ++ (large.map some ++ some x ::
              (rest.map some ++ some pivot :: behind)) := by simp
        rw [hcells, swap_rotate _ _ _ (by simp) (by simp [Nat.add_assoc]), ← map_rotate]
        simp
      refine ⟨small', large', ?_, hparted, hperm.trans ?_⟩
      · rw [if_pos hbelow, hswap]
        have hlength : (small ++ [x] ++ large.rotate 1).length = (small ++ large).length + 1 := by
          simp only [length_append, length_rotate, length_singleton]
          omega
        have hpivotIndex : (small ++ [x] ++ large.rotate 1 ++ rest).length =
            (small ++ large ++ x :: rest).length := by
          simp only [length_append, length_rotate, length_cons, length_nil]
          omega
        rw [hlength, hpivotIndex, show (small ++ [x]).length = small.length + 1 by simp] at hrun
        exact hrun
      · have hmove := (perm_push_small small large x).append_right rest
        rwa [append_assoc (small ++ large)] at hmove
    case neg =>
      obtain ⟨small', large', hrun, hparted, hperm⟩ :=
        ih small (large ++ [x]) (h.push_large hbelow)
      have hassoc : small ++ (large ++ [x]) ++ rest = small ++ large ++ x :: rest := by simp
      have hlength : (small ++ (large ++ [x])).length = (small ++ large).length + 1 := by
        simp only [length_append, length_singleton]
        omega
      rw [hassoc] at hrun hperm
      rw [hlength] at hrun
      refine ⟨small', large', ?_, hparted, hperm⟩
      rw [if_neg hbelow]
      exact hrun

theorem partition_spec (before behind : Cells T) (init : List T) (pivot : T) :
    ∃ small large, partition lt before.length (before.length + (init ++ [pivot]).length)
          (before ++ ((init ++ [pivot]).map some ++ behind)) = some (before.length + small.length,
          before ++ ((small ++ pivot :: large).map some ++ behind)) ∧
      Parted (fun x y => lt x y = true) pivot small large ∧
      (small ++ pivot :: large).Perm (init ++ [pivot]) := by
  obtain ⟨small, large, hrun, hparted, hperm⟩ :=
    partitionLoop_spec lt pivot before behind [] [] init ⟨by simp, by simp⟩
  have hlength := hperm.length_eq
  simp only [nil_append, length_nil, Nat.add_zero] at hrun hperm hlength
  refine ⟨small, large.rotate 1, ?_, ⟨hparted.small, ?_⟩, ?_⟩
  · have hlast : before.length + (init ++ [pivot]).length - 1 = before.length + init.length := by
      simp
    have hcells : before ++ ((init ++ [pivot]).map some ++ behind) =
        before ++ (init.map some ++ some pivot :: behind) := by simp
    have hparts : before ++ ((small ++ large).map some ++ some pivot :: behind) =
        (before ++ small.map some) ++ (large.map some ++ some pivot :: behind) := by simp
    rw [partition, hlast, Nat.add_sub_cancel_left, hcells]
    rw [hrun]
    change (swap _ _ _ >>= fun a => some (before.length + small.length, a)) = _
    rw [hparts, swap_rotate _ _ _ (by simp)
      (by rw [← hlength]; simp [Nat.add_assoc]), ← map_rotate]
    simp
  · exact fun x hx => hparted.large x (mem_rotate.mp hx)
  · have hpush := (perm_push_small small large pivot).trans (hperm.append_right [pivot])
    rwa [append_assoc] at hpush

end Partition

section Ranges

variable [IsStrictWeakOrder T (fun x y => lt x y = true)]

theorem introSortImpl_spec (depth : ℕ) (before behind : Cells T) (xs : List T) :
    ∃ ys, introSortImpl lt depth before.length (before.length + xs.length)
        (before ++ (xs.map some ++ behind)) = some (before ++ (ys.map some ++ behind)) ∧
      ys.Perm xs ∧ Sorted (fun x y => lt x y = true) ys := by
  induction depth generalizing before behind xs with
  | zero =>
    obtain ⟨ys, hrun, hys⟩ := insertionSort_spec lt before behind xs
    refine ⟨ys, ?_, hys⟩
    rw [introSortImpl]
    split
    · exact hrun
    · exact hrun
  | succ depth ih =>
    rw [introSortImpl]
    by_cases hwide : before.length + xs.length - before.length > 16
    case neg =>
      rw [if_neg hwide]
      exact insertionSort_spec lt before behind xs
    case pos =>
      obtain rfl | ⟨init, pivot, rfl⟩ := eq_nil_or_concat' xs
      · simp at hwide
      obtain ⟨small, large, hpartition, hparted, hperm⟩ :=
        partition_spec lt before behind init pivot
      have hlength := hperm.length_eq
      have hleft (right : List T) := ih before (some pivot :: (right.map some ++ behind)) small
      have hright (left : List T) := ih (before ++ (left.map some ++ [some pivot])) behind large
      have hlow (left right : List T) : before ++ (left.map some ++ some pivot ::
          (right.map some ++ behind)) = before ++ ((left ++ pivot :: right).map some ++ behind) := by
        simp
      have hhigh (left right : List T) : (before ++ (left.map some ++ [some pivot])) ++
          (right.map some ++ behind) = before ++ ((left ++ pivot :: right).map some ++ behind) := by
        simp
      have hfrom {left : List T} (h : left.length = small.length) :
          (before ++ (left.map some ++ [some pivot])).length =
            before.length + small.length + 1 := by
        simp [h, Nat.add_assoc]
      have hto {left : List T} (h : left.length = small.length) :
          (before ++ (left.map some ++ [some pivot])).length + large.length =
            before.length + (init ++ [pivot]).length := by
        rw [hfrom h, ← hlength]
        simp only [length_append, length_cons]
        omega
      rw [if_pos hwide, hpartition]
      -- the order of the two calls differs, the ranges are the same
      simp only [Option.bind_eq_bind, Option.bind_some]
      split
      · obtain ⟨left, hrunLeft, hpermLeft, hsortedLeft⟩ := hleft large
        obtain ⟨right, hrunRight, hpermRight, hsortedRight⟩ := hright left
        rw [hlow, hlow] at hrunLeft
        rw [hhigh, hhigh, hto hpermLeft.length_eq, hfrom hpermLeft.length_eq] at hrunRight
        refine ⟨left ++ pivot :: right, ?_, ?_, ?_⟩
        · rw [hrunLeft]
          exact hrunRight
        · exact (hpermLeft.append (hpermRight.cons pivot)).trans hperm
        · exact (hparted.of_perm hpermLeft hpermRight).sorted hsortedLeft hsortedRight
      · obtain ⟨right, hrunRight, hpermRight, hsortedRight⟩ := hright small
        obtain ⟨left, hrunLeft, hpermLeft, hsortedLeft⟩ := hleft right
        rw [hlow, hlow] at hrunLeft
        rw [hhigh, hhigh, hto rfl, hfrom rfl] at hrunRight
        refine ⟨left ++ pivot :: right, ?_, ?_, ?_⟩
        · rw [hrunRight]
          exact hrunLeft
        · exact (hpermLeft.append (hpermRight.cons pivot)).trans hperm
        · exact (hparted.of_perm hpermLeft hpermRight).sorted hsortedLeft hsortedRight

theorem sortComp_spec (xs : List T) : ∃ ys, sortComp lt (xs.map some) = some (ys.map some) ∧
    ys.Perm xs ∧ Sorted (fun x y => lt x y = true) ys := by
  rw [sortComp]
  split
  case isTrue h =>
    refine ⟨xs, rfl, .refl xs, ?_⟩
    match xs, h with
    | [], _ => exact List.Pairwise.nil
    | [x], _ => exact sorted_singleton x
  case isFalse =>
    obtain ⟨ys, hrun, hys⟩ :=
      introSortImpl_spec lt (2 * log2 (xs.map some).length) [] [] xs
    refine ⟨ys, ?_, hys⟩
    simpa using hrun

end Ranges

/-- Both overloads sort every array inside its range. -/
theorem sort_sorts (xs : List T) :
    (∀ comp : T → T → Bool, IsStrictWeakOrder T (fun x y => comp x y = true) →
      ∃ ys, sortComp comp (xs.map some) = some (ys.map some) ∧ ys.Perm xs ∧
        Sorted (fun x y => comp x y = true) ys) ∧
    ∀ (_ : LT T) (_ : DecidableRel (α := T) (· < ·)), IsStrictWeakOrder T (· < ·) →
      ∃ ys, sort (xs.map some) = some (ys.map some) ∧ ys.Perm xs ∧ Sorted (· < ·) ys := by
  refine ⟨fun comp _ => sortComp_spec comp xs, fun _ _ horder => ?_⟩
  have hdecide : (fun x y : T => decide (x < y) = true) = (· < ·) := by
    simp only [decide_eq_true_eq]
  have hweak : IsStrictWeakOrder T fun x y : T => decide (x < y) = true := by rwa [hdecide]
  obtain ⟨ys, hrun, hperm, hsorted⟩ := sortComp_spec (fun x y : T => decide (x < y)) xs
  rw [hdecide] at hsorted
  exact ⟨ys, hrun, hperm, hsorted⟩

/-- Pairs under an order of their first parts, in a range that is partitioned. -/
theorem sort_sorts_pairs : ∃ ys, sortComp (fun x y : ℕ × ℕ => decide (x.1 < y.1))
    (((List.range 40).map fun n => (7 * n % 5, n)).map some) = some (ys.map some) ∧
      ys.Perm ((List.range 40).map fun n => (7 * n % 5, n)) ∧
      Sorted (fun x y : ℕ × ℕ => decide (x.1 < y.1) = true) ys :=
  (sort_sorts ((range 40).map fun n => (7 * n % 5, n))).1 _
    { irrefl := by simp
      trans := by
        intro a b c hab hbc
        simp only [decide_eq_true_eq] at hab hbc ⊢
        omega
      incomp_trans := by
        intro a b c hab hbc
        simp only [decide_eq_true_eq] at hab hbc ⊢
        omega }

end Equilibrium.Sort
