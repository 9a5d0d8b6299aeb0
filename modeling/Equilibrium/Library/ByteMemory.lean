import Mathlib.Logic.Function.Basic
import Mathlib.Data.Nat.Init
import Mathlib.Algebra.Group.Nat.Defs

/-! A memory of bytes: little-endian words, pointers that may be null, copies, and the order
of numbers by their bytes. -/

namespace Equilibrium.Library.ByteMemory

open List Nat

abbrev Bytes := ℕ → UInt8

/-- The word in the `n` bytes from `a` on. -/
def load (m : Bytes) : (n a : ℕ) → ℕ
  | 0, _ => 0
  | n + 1, a => (m a).toNat + 256 * load m n (a + 1)

def store (m : Bytes) : (n a v : ℕ) → Bytes
  | 0, _, _ => m
  | n + 1, a, v => store (Function.update m a (UInt8.ofNat v)) n (a + 1) (v / 256)

variable {m m' : Bytes} {n a b v : ℕ}

theorem load_congr (h : ∀ b, a ≤ b → b < a + n → m b = m' b) : load m n a = load m' n a := by
  induction n generalizing a with
  | zero => rfl
  | succ n ih =>
    rw [load, load, h a (Nat.le_refl a) (by omega), ih fun b hab hb => h b (by omega) (by omega)]

theorem store_of_outside (h : b < a ∨ a + n ≤ b) : store m n a v b = m b := by
  induction n generalizing m a v with
  | zero => rfl
  | succ n ih =>
    rw [store, ih (by omega), Function.update_of_ne (by omega)]

theorem load_store_of_disjoint {k : ℕ} (h : b + k ≤ a ∨ a + n ≤ b) :
    load (store m n a v) k b = load m k b :=
  load_congr fun c hbc hc => store_of_outside (by omega)

theorem store_apply {k : ℕ} (h : k < n) : store m n a v (a + k) = UInt8.ofNat (v / 256 ^ k) := by
  induction n generalizing m a v k with
  | zero => cases h
  | succ n ih =>
    cases k with
    | zero =>
      change store m (n + 1) a v a = _
      rw [store, store_of_outside (by omega), Function.update_self, pow_zero, Nat.div_one]
    | succ k =>
      rw [store, Nat.add_comm k 1, ← Nat.add_assoc, ih (by omega), Nat.add_comm 1 k, pow_succ',
        Nat.div_div_eq_div_mul]

theorem exists_store_ne (hab : a ≤ b) (hb : b < a + n) : ∃ v, store m n a v b ≠ m b := by
  obtain ⟨k, rfl⟩ := Nat.exists_eq_add_of_le hab
  by_cases hzero : m (a + k) = 0
  · refine ⟨256 ^ k, ?_⟩
    rw [store_apply (by omega), Nat.div_self (Nat.pow_pos (by decide)), hzero]
    decide
  · refine ⟨0, ?_⟩
    rw [store_apply (by omega), Nat.zero_div]
    exact fun h => hzero h.symm

theorem load_store (h : v < 256 ^ n) : load (store m n a v) n a = v := by
  induction n generalizing m a v with
  | zero =>
    rw [load]
    omega
  | succ n ih =>
    have hdiv : v / 256 < 256 ^ n := by
      exact Nat.div_lt_of_lt_mul (by omega)
    rw [load, store, store_of_outside (by omega), Function.update_self, ih hdiv,
      UInt8.toNat_ofNat']
    omega

theorem load_lt (m : Bytes) (n a : ℕ) : load m n a < 256 ^ n := by
  induction n generalizing a with
  | zero => exact Nat.one_pos
  | succ n ih =>
    have hbyte := (m a).toNat_lt
    have hrest := ih (a + 1)
    rw [load, Nat.pow_succ]
    omega

/-- A pointer of 8 bytes; null is zero. -/
def loadPointer (m : Bytes) (a : ℕ) : Option ℕ :=
  if load m 8 a = 0 then none else some (load m 8 a)

def storePointer (m : Bytes) (a : ℕ) (p : Option ℕ) : Bytes := store m 8 a (p.getD 0)

/-- A pointer that eight bytes can hold. -/
def Fits (p : Option ℕ) : Prop := ∀ x, p = some x → x ≠ 0 ∧ x < 256 ^ 8

theorem fits_none : Fits none := nofun

theorem loadPointer_storePointer {p : Option ℕ} (h : Fits p) :
    loadPointer (storePointer m a p) a = p := by
  cases p with
  | none =>
    have hload : load (store m 8 a 0) 8 a = 0 := load_store (by decide)
    rw [loadPointer, storePointer, Option.getD_none, hload, if_pos rfl]
  | some x =>
    obtain ⟨hne, hlt⟩ := h x rfl
    rw [loadPointer, storePointer, Option.getD_some, load_store hlt, if_neg hne]

theorem loadPointer_congr (h : ∀ b, a ≤ b → b < a + 8 → m b = m' b) :
    loadPointer m a = loadPointer m' a := by
  rw [loadPointer, loadPointer, load_congr h]

theorem storePointer_of_outside {p : Option ℕ} (h : b < a ∨ a + 8 ≤ b) :
    storePointer m a p b = m b :=
  store_of_outside h

theorem fits_loadPointer (m : Bytes) (a : ℕ) : Fits (loadPointer m a) := by
  intro x hx
  rw [loadPointer] at hx
  split at hx
  · cases hx
  · rw [← Option.some.inj hx]
    exact ⟨by assumption, load_lt m 8 a⟩

/-- `n` bytes from `source` on, copied to `dest`. -/
def copy (m : Bytes) (dest source n : ℕ) : Bytes := fun a =>
  if dest ≤ a ∧ a < dest + n then m (source + (a - dest)) else m a

theorem copy_of_outside {dest source : ℕ} (h : a < dest ∨ dest + n ≤ a) :
    copy m dest source n a = m a := by
  rw [copy, if_neg (by omega)]

inductive ByteOrder where
  | little
  | big

def byValue (a b : ℕ) : Ordering := if a < b then .lt else if b < a then .gt else .eq

/-- The byte of weight `256 ^ k`. -/
def digit (c k : ℕ) : ℕ := c / 256 ^ k % 256

/-- The bytes of a number of `w` bytes from its address on. -/
def bytes (w : ℕ) (order : ByteOrder) (c : ℕ) : List ℕ :=
  match order with
  | .little => (List.range w).map (digit c)
  | .big => ((List.range w).map (digit c)).reverse

def compareBytes : List ℕ → List ℕ → Ordering
  | a :: as, b :: bs => (byValue a b).then (compareBytes as bs)
  | _, _ => .eq

/-- Two numbers by their bytes in memory. -/
def byBytes (w : ℕ) (order : ByteOrder) (a b : ℕ) : Ordering :=
  compareBytes (bytes w order a) (bytes w order b)

/-- The lowest byte in which two numbers differ has them in order. -/
def OrderedByLowestByte (a b : ℕ) : Prop :=
  ∀ k, a % 256 ^ k = b % 256 ^ k →
    (digit a k < digit b k → a < b) ∧ (digit b k < digit a k → b < a)

section Order

variable {a b k w : ℕ} {order : ByteOrder}

theorem byValue_eq_eq : byValue a b = .eq ↔ a = b := by
  rw [byValue]
  split
  case isTrue h => simp [Nat.ne_of_lt h]
  case isFalse h =>
    split
    case isTrue h' => simp [Nat.ne_of_gt h']
    case isFalse h' => simp [Nat.le_antisymm (Nat.not_lt.mp h') (Nat.not_lt.mp h)]

theorem byValue_eq_lt : byValue a b = .lt ↔ a < b := by
  rw [byValue]
  split
  case isTrue h => simp [h]
  case isFalse h => split <;> simp [h]

theorem byValue_eq_gt : byValue a b = .gt ↔ b < a := by
  rw [byValue]
  split
  case isTrue h => simp [Nat.le_of_lt h]
  case isFalse h => split <;> simp [*]

theorem compareBytes_append {as bs : List ℕ} (h : as.length = bs.length) (xs ys : List ℕ) :
    compareBytes (as ++ xs) (bs ++ ys) = (compareBytes as bs).then (compareBytes xs ys) := by
  induction as generalizing bs with
  | nil =>
    obtain rfl := length_eq_zero_iff.mp h.symm
    rfl
  | cons a as ih =>
    cases bs with
    | nil => simp at h
    | cons b bs =>
      rw [cons_append, cons_append, compareBytes, compareBytes,
        ih (Nat.succ.inj h), Ordering.then_assoc]

theorem length_bytes (c : ℕ) : (bytes w order c).length = w := by
  cases order <;> simp [bytes]

theorem digit_zero (c : ℕ) : digit c 0 = c % 256 := by rw [digit, pow_zero, Nat.div_one]

theorem digit_succ (c k : ℕ) : digit c (k + 1) = digit (c / 256) k := by
  rw [digit, digit, pow_succ', Nat.div_div_eq_div_mul]

theorem bytes_little_succ (c : ℕ) :
    bytes (w + 1) .little c = c % 256 :: bytes w .little (c / 256) := by
  simp only [bytes]
  rw [range_succ_eq_map, map_cons, map_map, digit_zero]
  exact congrArg _ (map_congr_left fun k _ => digit_succ c k)

theorem digit_mod (c : ℕ) (h : k < w) : digit (c % 256 ^ w) k = digit c k := by
  have hpow : 256 ^ w = 256 ^ k * 256 ^ (w - k) := by
    rw [← pow_add]
    congr 1
    omega
  have hpos : 256 ^ (w - k) = 256 * 256 ^ (w - k - 1) := by
    rw [← pow_succ']
    congr 1
    omega
  rw [digit, digit, hpow, mod_mul_right_div_self, hpos, mod_mul_right_mod]

theorem bytes_big_succ (h : a < 256 ^ (w + 1)) :
    bytes (w + 1) .big a = a / 256 ^ w :: bytes w .big (a % 256 ^ w) := by
  simp only [bytes]
  have htop : digit a w = a / 256 ^ w := by
    refine mod_eq_of_lt (Nat.div_lt_of_lt_mul ?_)
    rw [← pow_succ]
    exact h
  rw [range_succ, map_append, reverse_append, map_singleton, htop,
    reverse_singleton, singleton_append]
  refine congrArg _ (congrArg _ (map_congr_left fun k hk => ?_))
  exact (digit_mod a (mem_range.mp hk)).symm

theorem byBytes_big (ha : a < 256 ^ w) (hb : b < 256 ^ w) : byBytes w .big a b = byValue a b := by
  induction w generalizing a b with
  | zero =>
    rw [pow_zero, lt_one_iff] at ha hb
    subst ha hb
    rfl
  | succ w ih =>
    have hpos : 0 < 256 ^ w := Nat.pow_pos (by decide)
    rw [byBytes, bytes_big_succ ha, bytes_big_succ hb, compareBytes, ← byBytes,
      ih (mod_lt a hpos) (mod_lt b hpos)]
    have hda := div_add_mod a (256 ^ w)
    have hdb := div_add_mod b (256 ^ w)
    have hra := mod_lt a hpos
    have hrb := mod_lt b hpos
    rcases Nat.lt_trichotomy (a / 256 ^ w) (b / 256 ^ w) with hlt | heq | hgt
    · have hmul := Nat.mul_le_mul_left (256 ^ w) hlt
      rw [succ_eq_add_one, Nat.mul_add_one] at hmul
      have hab : a < b := by omega
      rw [byValue_eq_lt.mpr hlt, byValue_eq_lt.mpr hab]
      rfl
    · rw [byValue_eq_eq.mpr heq]
      change byValue (a % 256 ^ w) (b % 256 ^ w) = _
      rw [heq] at hda
      rcases Nat.lt_trichotomy (a % 256 ^ w) (b % 256 ^ w) with h | h | h
      · rw [byValue_eq_lt.mpr h, byValue_eq_lt.mpr (by omega)]
      · rw [byValue_eq_eq.mpr h, byValue_eq_eq.mpr (by omega)]
      · rw [byValue_eq_gt.mpr h, byValue_eq_gt.mpr (by omega)]
    · have hmul := Nat.mul_le_mul_left (256 ^ w) hgt
      rw [succ_eq_add_one, Nat.mul_add_one] at hmul
      have hba : b < a := by omega
      rw [byValue_eq_gt.mpr hgt, byValue_eq_gt.mpr hba]
      rfl

theorem byBytes_little_lt : byBytes w .little a b = .lt ↔
      ∃ k < w, a % 256 ^ k = b % 256 ^ k ∧ digit a k < digit b k := by
  induction w generalizing a b with
  | zero => simp [byBytes, bytes, compareBytes]
  | succ w ih =>
    rw [byBytes, bytes_little_succ, bytes_little_succ, compareBytes, ← byBytes,
      Ordering.then_eq_lt, byValue_eq_lt, byValue_eq_eq, ih]
    constructor
    · rintro (hlt | ⟨heq, k, hk, hmod, hlt⟩)
      · refine ⟨0, succ_pos w, ?_, ?_⟩
        · rw [pow_zero, mod_one, mod_one]
        · rw [digit_zero, digit_zero]
          exact hlt
      · refine ⟨k + 1, succ_lt_succ hk, ?_, ?_⟩
        · rw [pow_succ', mod_mul, mod_mul, heq, hmod]
        · rw [digit_succ, digit_succ]
          exact hlt
    · rintro ⟨k, hk, hmod, hlt⟩
      cases k with
      | zero =>
        rw [digit_zero, digit_zero] at hlt
        exact .inl hlt
      | succ k =>
        rw [pow_succ', mod_mul, mod_mul] at hmod
        rw [digit_succ, digit_succ] at hlt
        have hlow := congrArg (· % 256) hmod
        simp only [add_mul_mod_self_left, mod_mod] at hlow
        refine .inr ⟨hlow, k, lt_of_succ_lt_succ hk, ?_, hlt⟩
        omega

theorem compareBytes_swap (as bs : List ℕ) : (compareBytes as bs).swap = compareBytes bs as := by
  induction as generalizing bs with
  | nil => cases bs <;> rfl
  | cons a as ih =>
    cases bs with
    | nil => rfl
    | cons b bs =>
      have hswap : (byValue a b).swap = byValue b a := by
        rcases Nat.lt_trichotomy a b with h | h | h
        · rw [byValue_eq_lt.mpr h, byValue_eq_gt.mpr h]
          rfl
        · rw [byValue_eq_eq.mpr h, byValue_eq_eq.mpr h.symm]
          rfl
        · rw [byValue_eq_gt.mpr h, byValue_eq_lt.mpr h]
          rfl
      rw [compareBytes, compareBytes, Ordering.swap_then, hswap, ih]

theorem byBytes_swap (a b : ℕ) : (byBytes w order a b).swap = byBytes w order b a :=
  compareBytes_swap _ _

theorem bytes_injective {c d : ℕ} (hc : c < 256 ^ w) (hd : d < 256 ^ w)
    (h : bytes w order c = bytes w order d) : c = d := by
  have hbig : bytes w .big c = bytes w .big d := by
    cases order with
    | little => exact congrArg reverse h
    | big => exact h
  have hcompare := byBytes_big hc hd
  rw [byBytes, hbig, ← byBytes, byBytes_big hd hd, byValue_eq_eq.mpr rfl] at hcompare
  exact byValue_eq_eq.mp hcompare.symm

theorem compareBytes_eq_eq {as bs : List ℕ} (h : as.length = bs.length) :
    compareBytes as bs = .eq ↔ as = bs := by
  induction as generalizing bs with
  | nil => simp [length_eq_zero_iff.mp h.symm, compareBytes]
  | cons a as ih =>
    cases bs with
    | nil => simp at h
    | cons b bs =>
      rw [compareBytes, Ordering.then_eq_eq, byValue_eq_eq, ih (Nat.succ.inj h),
        List.cons.injEq]

theorem byBytes_eq_eq (ha : a < 256 ^ w) (hb : b < 256 ^ w) :
    byBytes w order a b = .eq ↔ a = b := by
  rw [byBytes, compareBytes_eq_eq (by rw [length_bytes, length_bytes])]
  exact ⟨fun h => bytes_injective ha hb h, fun h => by rw [h]⟩

theorem byBytes_little_of_digit {c d : ℕ} (hd : d < 256 ^ w) (hmod : c % 256 ^ k = d % 256 ^ k)
    (hlt : digit c k < digit d k) : byBytes w .little c d = .lt := by
  refine byBytes_little_lt.mpr ⟨k, Nat.lt_of_not_le fun hk => ?_, hmod, hlt⟩
  have hpow : 256 ^ w ≤ 256 ^ k := Nat.pow_le_pow_right (by decide) hk
  have hzero : digit d k = 0 := by
    rw [digit, div_eq_of_lt (Nat.lt_of_lt_of_le hd hpow)]
  omega

theorem byBytes_little_iff (ha : a < 256 ^ w) (hb : b < 256 ^ w) (hne : a ≠ b) :
    byBytes w .little a b = byValue a b ↔ OrderedByLowestByte a b := by
  constructor
  · intro heq k hmod
    refine ⟨fun hlt => ?_, fun hgt => ?_⟩
    · rw [byBytes_little_of_digit hb hmod hlt] at heq
      exact byValue_eq_lt.mp heq.symm
    · have hswap := congrArg Ordering.swap (byBytes_little_of_digit ha hmod.symm hgt)
      rw [byBytes_swap, heq] at hswap
      exact byValue_eq_gt.mp hswap
  · intro h
    cases hbytes : byBytes w .little a b with
    | lt =>
      obtain ⟨k, -, hmod, hlt⟩ := byBytes_little_lt.mp hbytes
      exact (byValue_eq_lt.mpr ((h k hmod).1 hlt)).symm
    | eq => exact absurd ((byBytes_eq_eq ha hb).mp hbytes) hne
    | gt =>
      have hswap := congrArg Ordering.swap hbytes
      rw [byBytes_swap] at hswap
      obtain ⟨k, -, hmod, hlt⟩ := byBytes_little_lt.mp hswap
      exact (byValue_eq_gt.mpr ((h k hmod.symm).2 hlt)).symm

end Order

end Equilibrium.Library.ByteMemory
