import Mathlib.Order.Basic
import Mathlib.Algebra.Group.Nat.Even
/-! Checked arithmetic for allocation sizes and element counts, after
`base/memory/allocation_size.h`. A `mem_size` is an unsigned 64-bit number,
written as a natural number; the helpers return an exact count or terminate. -/

namespace Equilibrium

/-- How a call ends without returning: a failed `BASE_FATAL_CHECK`, or a loop
that is never left. -/
inductive Stop where
  | fatal
  | hang
  deriving DecidableEq, Repr

abbrev Outcome := Except Stop

namespace Outcome

variable {α β : Type}

variable {x : Outcome α}

theorem bind_eq_ok {f : α → Outcome β} {b : β} :
    (x >>= f) = .ok b ↔ ∃ a, x = .ok a ∧ f a = .ok b := by
  cases x with
  | error stop => simp [bind, Except.bind]
  | ok a => simp [bind, Except.bind]

/-- The call terminates the program or returns a result with the property; it does not hang. -/
def Safe (P : α → Prop) (x : Outcome α) : Prop :=
  x = .error .fatal ∨ ∃ a, x = .ok a ∧ P a

variable {P : α → Prop}

theorem safe_ok {a : α} (h : P a) : Safe P (.ok a) := .inr ⟨a, rfl, h⟩

theorem Safe.bind {P : α → Prop} {Q : β → Prop} {x : Outcome α} {f : α → Outcome β}
    (hx : Safe P x) (hf : ∀ a, P a → Safe Q (f a)) : Safe Q (x >>= f) := by
  obtain rfl | ⟨a, rfl, ha⟩ := hx
  · exact .inl rfl
  · exact hf a ha

theorem Safe.mono {Q : α → Prop} (hx : Safe P x) (h : ∀ a, P a → Q a) : Safe Q x := by
  obtain rfl | ⟨a, rfl, ha⟩ := hx
  · exact .inl rfl
  · exact safe_ok (h a ha)

theorem Safe.ne_hang (hx : Safe P x) : x ≠ .error .hang := by
  obtain rfl | ⟨a, rfl, -⟩ := hx <;> simp

theorem Safe.of_eq_ok {a : α} (hx : Safe P x) (h : x = .ok a) : P a := by
  obtain hf | ⟨b, hb, hP⟩ := hx
  · simp [hf] at h
  · rw [hb] at h
    cases h
    exact hP

theorem safe_of_ne_hang (h : x ≠ .error .hang) : Safe (fun a => x = .ok a) x := by
  cases x with
  | ok a => exact safe_ok rfl
  | error stop =>
    cases stop with
    | fatal => exact .inl rfl
    | hang => exact absurd rfl h

end Outcome

namespace AllocationSize

/-- `MinMax<mem_size>::max()`. -/
def memSizeMax : Nat := 2 ^ 64 - 1

/-- `a + b` on `mem_size`. -/
def wrapAdd (a b : Nat) : Nat := (a + b) % 2 ^ 64

/-- `a - b` on `mem_size`. -/
def wrapSub (a b : Nat) : Nat := (a + 2 ^ 64 - b) % 2 ^ 64

theorem wrapAdd_of_lt {a b : Nat} (h : a + b < 2 ^ 64) : wrapAdd a b = a + b :=
  Nat.mod_eq_of_lt h

theorem wrapSub_of_le {a b : Nat} (hba : b ≤ a) (ha : a < 2 ^ 64) : wrapSub a b = a - b := by
  unfold wrapSub
  omega

def tryAllocationSize (count elementSize : Nat) : Option Nat :=
  if elementSize ≠ 0 ∧ memSizeMax / elementSize < count then none
  else some (count * elementSize)

def checkedAllocationSize (count elementSize : Nat) : Outcome Nat :=
  match tryAllocationSize count elementSize with
  | some bytes => .ok bytes
  | none => .error .fatal

def checkedCountSum (a b : Nat) : Outcome Nat :=
  if a ≤ memSizeMax - b then .ok (a + b) else .error .fatal

def checkedCountProduct (count factor : Nat) : Outcome Nat :=
  checkedAllocationSize count factor

/-- The doubling loop of `CheckedRoundUpToPowerOfTwo`, given its remaining number of turns. -/
def roundUpLoop (value : Nat) : Nat → Nat → Outcome Nat
  | 0, _ => .error .hang
  | turns + 1, target =>
    if target < value then
      if target ≤ memSizeMax / 2 then roundUpLoop value turns (target * 2) else .error .fatal
    else .ok target

/-- The target doubles on every turn and stays below `2 ^ 64`, so 65 turns are enough. -/
def checkedRoundUpToPowerOfTwo (value : Nat) : Outcome Nat :=
  roundUpLoop value 65 1

theorem tryAllocationSize_eq_some {count elementSize bytes : Nat} :
    tryAllocationSize count elementSize = some bytes ↔
      bytes = count * elementSize ∧ count * elementSize ≤ memSizeMax := by
  unfold tryAllocationSize
  by_cases hzero : elementSize = 0
  · simp [hzero, eq_comm]
  · have hdiv := Nat.le_div_iff_mul_le (x := count) (y := memSizeMax) (Nat.pos_of_ne_zero hzero)
    by_cases hlt : memSizeMax / elementSize < count
    · have : ¬count * elementSize ≤ memSizeMax := by omega
      simp [hzero, hlt, this]
    · have : count * elementSize ≤ memSizeMax := by omega
      simp [hzero, hlt, this, eq_comm]

theorem checkedAllocationSize_safe (count elementSize : Nat) :
    (checkedAllocationSize count elementSize).Safe
      (fun bytes => bytes = count * elementSize ∧ count * elementSize ≤ memSizeMax) := by
  unfold checkedAllocationSize
  cases h : tryAllocationSize count elementSize with
  | none => exact .inl rfl
  | some bytes => exact Outcome.safe_ok (tryAllocationSize_eq_some.mp h)

theorem checkedAllocationSize_of_le {count elementSize : ℕ}
    (h : count * elementSize ≤ memSizeMax) :
    checkedAllocationSize count elementSize = .ok (count * elementSize) := by
  rw [checkedAllocationSize, tryAllocationSize_eq_some.mpr ⟨rfl, h⟩]

theorem checkedAllocationSize_of_lt {count elementSize : ℕ}
    (h : memSizeMax < count * elementSize) :
    checkedAllocationSize count elementSize = .error .fatal := by
  obtain hfatal | ⟨bytes, -, -, hle⟩ := checkedAllocationSize_safe count elementSize
  · exact hfatal
  · omega

theorem checkedCountProduct_safe (count factor : Nat) : (checkedCountProduct count factor).Safe
      (fun product => product = count * factor ∧ count * factor ≤ memSizeMax) :=
  checkedAllocationSize_safe count factor

theorem checkedCountSum_safe (a b : Nat) : (checkedCountSum a b).Safe (fun sum => sum = a + b) := by
  unfold checkedCountSum
  split
  · exact Outcome.safe_ok rfl
  · exact .inl rfl

theorem roundUpLoop_safe (value turns k : Nat) (hturns : 65 ≤ turns + k) (hk : k < 64) :
    (roundUpLoop value turns (2 ^ k)).Safe
      (fun target => ∃ j < 64, k ≤ j ∧ target = 2 ^ j ∧ value ≤ target) := by
  induction turns generalizing k with
  | zero => omega
  | succ turns ih =>
    unfold roundUpLoop
    by_cases hlt : 2 ^ k < value
    · by_cases hfit : 2 ^ k ≤ memSizeMax / 2
      · have hk' : k < 63 := by
          by_contra hge
          have : k = 63 := by omega
          simp [this, memSizeMax] at hfit
        rw [if_pos hlt, if_pos hfit, ← pow_succ]
        refine (ih (k + 1) (by omega) (by omega)).mono fun target => ?_
        rintro ⟨j, hj, hkj, htarget, hval⟩
        exact ⟨j, hj, by omega, htarget, hval⟩
      · rw [if_pos hlt, if_neg hfit]
        exact .inl rfl
    · rw [if_neg hlt]
      exact Outcome.safe_ok ⟨k, hk, le_rfl, rfl, by omega⟩

theorem checkedRoundUpToPowerOfTwo_safe (value : Nat) : (checkedRoundUpToPowerOfTwo value).Safe
      (fun target => ∃ j < 64, target = 2 ^ j ∧ value ≤ target) := by
  refine (roundUpLoop_safe value 65 0 (by omega) (by omega)).mono fun target => ?_
  rintro ⟨j, hj, -, htarget, hval⟩
  exact ⟨j, hj, htarget, hval⟩

end AllocationSize

/-- What the sequence containers use of their element type: `sizeof(T)`, the value of `T()` and
the one that a move leaves behind. -/
structure Element (α : Type) where
  size : ℕ
  size_pos : 0 < size
  fresh : α
  moved : α → α

end Equilibrium
