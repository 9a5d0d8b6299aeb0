import Mathlib.Data.Finset.Max
import Mathlib.Data.Int.ConditionallyCompleteOrder
import Mathlib.Data.Int.Interval
import Mathlib.Tactic.Linarith
import Mathlib.Tactic.Ring
import Equilibrium.Library.Calls

/-! Generation and release of identifiers: `IdSet` of `base/containers/id_set.h`. -/

namespace Equilibrium.IdSet

inductive Width where
  | w8
  | w16
  | w32
  | w64
  deriving DecidableEq, Repr

def Width.bits : Width → ℕ
  | .w8 => 8
  | .w16 => 16
  | .w32 => 32
  | .w64 => 64

/-- An integral type. -/
structure IntType where
  width : Width
  signed : Bool
  deriving DecidableEq, Repr

namespace IntType

def bits (t : IntType) : ℕ := t.width.bits

def min (t : IntType) : ℤ := if t.signed then -2 ^ (t.bits - 1) else 0

def max (t : IntType) : ℤ := if t.signed then 2 ^ (t.bits - 1) - 1 else 2 ^ t.bits - 1

def Holds (t : IntType) (n : ℤ) : Prop := t.min ≤ n ∧ n ≤ t.max

instance (t : IntType) (n : ℤ) : Decidable (t.Holds n) := inferInstanceAs (Decidable (_ ∧ _))

/-- The value of the type that is `n` modulo its range. -/
def convert (t : IntType) (n : ℤ) : ℤ := (n - t.min) % 2 ^ t.bits + t.min

/-- The type of the local `id` of `GenerateId`, and of the arithmetic on narrower types. -/
def int : IntType := ⟨.w32, true⟩

end IntType

inductive Fault where
  | overflow
  deriving DecidableEq, Repr

/-- `n + 1`, computed in `int` where the type is narrower. -/
def plusOne (t : IntType) (n : ℤ) : Except Fault ℤ :=
  if t.bits < 32 then .ok (n + 1)
  else if t.signed ∧ n = t.max then .error .overflow
  else .ok (t.convert (n + 1))

def minusOne (t : IntType) (n : ℤ) : Except Fault ℤ :=
  if t.bits < 32 then .ok (n - 1)
  else if t.signed ∧ n = t.min then .error .overflow
  else .ok (t.convert (n - 1))

/-- The arguments of the template. -/
structure Params where
  type : IntType
  invalidValue : ℤ
  maxValue : ℤ
  invalid_holds : type.Holds invalidValue
  max_holds : type.Holds maxValue

end Equilibrium.IdSet

/-- `released_ids_` is a `base::Set`, kept in order. -/
structure Equilibrium.IdSet where
  nextId : ℤ := 0
  releasedIds : Finset ℤ := ∅
  deriving DecidableEq

namespace Equilibrium.IdSet

open Finset Library.Calls List

/-- The local `id` is an `int`: the first released id is narrowed to it, and widened again for
`Remove` and for the result. -/
def generateId (p : Params) (s : IdSet) : Except Fault (IdSet × ℤ) :=
  if h : s.releasedIds.Nonempty then
    let id := p.type.convert (IntType.int.convert (s.releasedIds.min' h))
    .ok ({ s with releasedIds := s.releasedIds.erase id }, id)
  else do
    let next ← plusOne p.type s.nextId
    if next = p.maxValue then .ok (s, p.invalidValue)
    else .ok ({ s with nextId := p.type.convert (s.nextId + 1) }, s.nextId)

def releaseId (p : Params) (s : IdSet) (id : ℤ) : Except Fault IdSet := do
  let last ← minusOne p.type s.nextId
  if id = last then .ok { s with nextId := p.type.convert (s.nextId - 1) }
  else .ok { s with releasedIds := insert id s.releasedIds }

inductive Call where
  | generate
  | release (id : ℤ)
  deriving DecidableEq, Repr

/-- An `IdSet` with the ids its caller holds. -/
structure System where
  ids : IdSet := {}
  live : Finset ℤ := ∅
  deriving DecidableEq

def exec (p : Params) (s : System) : Call → Except Fault (System × Option ℤ)
  | .generate => do
    let (ids, id) ← generateId p s.ids
    .ok (⟨ids, if id = p.invalidValue then s.live else insert id s.live⟩, some id)
  | .release id => do
    let ids ← releaseId p s.ids id
    .ok (⟨ids, s.live.erase id⟩, none)

def Legal (s : System) : Call → Prop
  | .generate => True
  | .release id => id ∈ s.live

instance (s : System) : ∀ c : Call, Decidable (Legal s c)
  | .generate => isTrue trivial
  | .release id => inferInstanceAs (Decidable (_ ∈ _))

/-- The live and the released ids are apart and together the numbers below `next_id_`. -/
structure Accounted (s : System) : Prop where
  disjoint : Disjoint s.live s.ids.releasedIds
  covers : s.live ∪ s.ids.releasedIds = Finset.Ico 0 s.ids.nextId

def AllLive (p : Params) (s : System) : Prop :=
  ∀ id, 0 ≤ id → id < s.ids.nextId ∨ id ≤ p.maxValue - 2 → id ∈ s.live

/-- What `GenerateId` may return. -/
def Answers (p : Params) (s : System) (id : ℤ) : Prop :=
  (id = p.invalidValue → AllLive p s) ∧ (id ≠ p.invalidValue → id ∉ s.live)

def Proper (p : Params) (s : System) (c : Call) : Prop :=
  ∃ s' r, exec p s c = .ok (s', r) ∧ Accounted s' ∧ ∀ id ∈ r, Answers p s id

/-- The first released id survives the passage through `int`; a fresh id is neither
`InvalidValue` nor the last value of the type, where `MaxValue` allows for none. -/
def Faithful (p : Params) (s : System) : Call → Prop
  | .generate =>
    if h : s.ids.releasedIds.Nonempty then
      p.type.convert (IntType.int.convert (s.ids.releasedIds.min' h)) ∈ s.ids.releasedIds
    else
      0 < p.maxValue ∨ (s.ids.nextId ≠ p.invalidValue ∧ s.ids.nextId ≠ p.type.max) ∨
        (p.type.signed = false ∧ 32 ≤ p.type.bits ∧ s.ids.nextId = p.type.max)
  | .release _ => True

section Arithmetic

variable {t : IntType} {n : ℤ}

theorem bits_cases (t : IntType) : t.bits = 8 ∨ t.bits = 16 ∨ t.bits = 32 ∨ t.bits = 64 := by
  obtain ⟨width, signed⟩ := t
  cases width
  case w8 => exact .inl rfl
  case w16 => exact .inr (.inl rfl)
  case w32 => exact .inr (.inr (.inl rfl))
  case w64 => exact .inr (.inr (.inr rfl))

theorem IntType.max_eq (t : IntType) : t.max = t.min + 2 ^ t.bits - 1 := by
  unfold max min
  obtain h | h | h | h := bits_cases t <;> rw [h] <;> cases t.signed <;> rfl

theorem IntType.min_le (t : IntType) : t.min ≤ 0 := by
  unfold min
  obtain h | h | h | h := bits_cases t <;> rw [h] <;> cases t.signed <;> decide

theorem IntType.le_max (t : IntType) : 127 ≤ t.max := by
  unfold max
  obtain h | h | h | h := bits_cases t <;> rw [h] <;> cases t.signed <;> decide

theorem convert_of_holds (h : t.Holds n) : t.convert n = n := by
  have hmax := t.max_eq
  rw [IntType.convert, Int.emod_eq_of_lt (by linarith [h.1]) (by linarith [h.2])]
  omega

theorem convert_max (t : IntType) : t.convert (t.max + 1) = t.min := by
  have hall : t.max + 1 - t.min = 2 ^ t.bits := by
    rw [t.max_eq]
    ring
  rw [IntType.convert, hall, Int.emod_self, zero_add]

theorem convert_int (hbits : t.bits ≤ 32) (h : t.Holds n) :
    t.convert (IntType.int.convert n) = n := by
  have hint : IntType.int.convert n = (n + 2 ^ 31) % 2 ^ 32 - 2 ^ 31 := by
    change (n - -2 ^ 31) % 2 ^ 32 + -2 ^ 31 = _
    omega
  have hdvd : (2 : ℤ) ^ t.bits ∣ 2 ^ 32 := pow_dvd_pow 2 hbits
  have hmod : ((n + 2 ^ 31) % 2 ^ 32 - 2 ^ 31 - t.min) % 2 ^ t.bits = (n - t.min) % 2 ^ t.bits := by
    rw [sub_sub, Int.sub_emod, Int.emod_emod_of_dvd _ hdvd, ← Int.sub_emod]
    congr 1
    ring
  rw [hint, IntType.convert, hmod]
  exact convert_of_holds h

theorem plusOne_of_lt (hmin : t.min ≤ n) (hmax : n < t.max) : plusOne t n = .ok (n + 1) := by
  rw [plusOne, convert_of_holds ⟨by omega, by omega⟩, ite_eq_left_iff]
  intro _
  exact if_neg fun h => absurd h.2 hmax.ne

theorem minusOne_of_lt (hmin : t.min < n) (hmax : n ≤ t.max) : minusOne t n = .ok (n - 1) := by
  rw [minusOne, convert_of_holds ⟨by omega, by omega⟩, ite_eq_left_iff]
  intro _
  exact if_neg fun h => absurd h.2 hmin.ne'

end Arithmetic

section Steps

variable {p : Params} {s : System}

theorem exec_generate_released (h : s.ids.releasedIds.Nonempty) {id : ℤ}
    (hid : p.type.convert (IntType.int.convert (s.ids.releasedIds.min' h)) = id) :
    exec p s .generate = .ok (⟨{ s.ids with releasedIds := s.ids.releasedIds.erase id },
      if id = p.invalidValue then s.live else insert id s.live⟩, some id) := by
  subst hid
  rw [exec, generateId, dif_pos h]
  rfl

theorem exec_generate_last (h : ¬s.ids.releasedIds.Nonempty)
    (hplus : plusOne p.type s.ids.nextId = .ok p.maxValue) :
    exec p s .generate = .ok (s, some p.invalidValue) := by
  rw [exec, generateId, dif_neg h, hplus]
  change (if p.maxValue = p.maxValue then _ else _) >>= _ = _
  rw [if_pos rfl]
  change Except.ok (System.mk s.ids (if p.invalidValue = p.invalidValue then s.live else _), _) = _
  rw [if_pos rfl]

theorem exec_generate_fresh (h : ¬s.ids.releasedIds.Nonempty) {next : ℤ}
    (hplus : plusOne p.type s.ids.nextId = .ok next) (hne : next ≠ p.maxValue) :
    exec p s .generate = .ok (⟨{ s.ids with nextId := p.type.convert (s.ids.nextId + 1) },
      if s.ids.nextId = p.invalidValue then s.live else insert s.ids.nextId s.live⟩,
      some s.ids.nextId) := by
  rw [exec, generateId, dif_neg h, hplus]
  change (if next = p.maxValue then _ else _) >>= _ = _
  rw [if_neg hne]
  rfl

theorem Accounted.mem (hs : Accounted s) {id : ℤ} :
    id ∈ s.live ∨ id ∈ s.ids.releasedIds ↔ 0 ≤ id ∧ id < s.ids.nextId := by
  rw [← mem_union, hs.covers, mem_Ico]

theorem accounted_of_mem
    (hapart : ∀ id ∈ s.live, id ∉ s.ids.releasedIds)
    (hmem : ∀ id, id ∈ s.live ∨ id ∈ s.ids.releasedIds ↔ 0 ≤ id ∧ id < s.ids.nextId) :
    Accounted s where
  disjoint := disjoint_left.mpr hapart
  covers := by
    ext id
    rw [mem_union, hmem, mem_Ico]

/-- What holds between calls: besides the account of the ids, `InvalidValue` is not among
them. -/
structure Inv (p : Params) (s : System) : Prop where
  accounted : Accounted s
  nonneg : 0 ≤ s.ids.nextId
  le_max : s.ids.nextId ≤ p.type.max
  bound : 0 < p.maxValue → s.ids.nextId < p.maxValue
  invalid : ¬(0 ≤ p.invalidValue ∧ p.invalidValue < s.ids.nextId)

theorem inv_initial (p : Params) : Inv p {} where
  accounted := accounted_of_mem (fun id h => absurd h (notMem_empty id)) fun id => by
    constructor
    · rintro (h | h)
      · exact absurd h (notMem_empty id)
      · exact absurd h (notMem_empty id)
    · intro h
      exact absurd (lt_of_le_of_lt h.1 h.2) (lt_irrefl 0)
  nonneg := le_refl 0
  le_max := le_trans (by decide) p.type.le_max
  bound := fun h => h
  invalid := fun h => absurd (lt_of_le_of_lt h.1 h.2) (lt_irrefl 0)

section

variable (hs : Inv p s)
include hs

theorem Inv.reissue {id : ℤ} (hid : id ∈ s.ids.releasedIds) :
    Inv p ⟨{ s.ids with releasedIds := s.ids.releasedIds.erase id }, insert id s.live⟩ ∧
      Answers p s id := by
  have hapart := disjoint_left.mp hs.accounted.disjoint
  have hrange := hs.accounted.mem.mp (.inr hid)
  have hvalid : id ≠ p.invalidValue := by
    rintro rfl
    exact hs.invalid hrange
  refine ⟨⟨accounted_of_mem ?_ ?_, hs.nonneg, hs.le_max, hs.bound, hs.invalid⟩, ?_, ?_⟩
  · intro j hj
    obtain rfl | hj := mem_insert.mp hj
    · exact notMem_erase j _
    · exact fun h => hapart hj (mem_of_mem_erase h)
  · intro j
    rw [← hs.accounted.mem, mem_insert, mem_erase]
    by_cases hj : j = id
    · subst hj
      exact ⟨fun _ => .inr hid, fun _ => .inl (.inl rfl)⟩
    · simp only [hj, false_or, ne_eq, not_false_eq_true, true_and]
  · exact fun h => absurd h hvalid
  · exact fun _ h => hapart h hid

theorem Inv.issue (hnone : ¬s.ids.releasedIds.Nonempty) (hlt : s.ids.nextId < p.type.max)
    (hbound : 0 < p.maxValue → s.ids.nextId + 1 < p.maxValue)
    (hvalid : s.ids.nextId ≠ p.invalidValue) :
    Inv p ⟨{ s.ids with nextId := s.ids.nextId + 1 }, insert s.ids.nextId s.live⟩ ∧
      Answers p s s.ids.nextId := by
  have hempty := not_nonempty_iff_eq_empty.mp hnone
  have hmem : ∀ j, j ∈ s.live ↔ 0 ≤ j ∧ j < s.ids.nextId := by
    intro j
    rw [← hs.accounted.mem, hempty]
    exact ⟨.inl, fun h => h.resolve_right (notMem_empty j)⟩
  have hnonneg := hs.nonneg
  have hinvalid := hs.invalid
  refine ⟨⟨accounted_of_mem ?_ ?_, ?_, ?_, hbound, ?_⟩, ?_, ?_⟩
  · intro j _
    rw [hempty]
    exact notMem_empty j
  · intro j
    change j ∈ insert s.ids.nextId s.live ∨ j ∈ s.ids.releasedIds ↔ 0 ≤ j ∧ j < s.ids.nextId + 1
    rw [hempty, mem_insert, hmem]
    simp only [notMem_empty, or_false]
    omega
  · change 0 ≤ s.ids.nextId + 1
    omega
  · exact hlt
  · change ¬(0 ≤ p.invalidValue ∧ p.invalidValue < s.ids.nextId + 1)
    omega
  · exact fun h => absurd h hvalid
  · intro _ h
    exact absurd ((hmem _).mp h).2 (lt_irrefl _)

theorem Inv.release {id : ℤ} (hid : id ∈ s.live) :
    ∃ s', exec p s (.release id) = .ok (s', none) ∧ Inv p s' := by
  have hapart := disjoint_left.mp hs.accounted.disjoint
  have hrange := hs.accounted.mem.mp (.inl hid)
  have hmin := p.type.min_le
  have hmax := hs.le_max
  have hlast : minusOne p.type s.ids.nextId = .ok (s.ids.nextId - 1) :=
    minusOne_of_lt (by omega) hs.le_max
  by_cases heq : id = s.ids.nextId - 1
  · have hstep : exec p s (.release id) =
        .ok (⟨{ s.ids with nextId := s.ids.nextId - 1 }, s.live.erase id⟩, none) := by
      have hkeep : p.type.convert (s.ids.nextId - 1) = s.ids.nextId - 1 :=
        convert_of_holds ⟨by omega, by omega⟩
      rw [exec, releaseId, hlast]
      change (if id = s.ids.nextId - 1 then _ else _) >>= _ = _
      rw [if_pos heq, hkeep]
      rfl
    refine ⟨_, hstep, accounted_of_mem ?_ ?_, ?_, ?_, ?_, ?_⟩
    · exact fun j hj => hapart (mem_of_mem_erase hj)
    · intro j
      have hj : j ∈ s.live ∨ _ ↔ _ := hs.accounted.mem
      have hnot : id ∉ s.ids.releasedIds := hapart hid
      rw [mem_erase]
      by_cases hjid : j = id
      · subst hjid
        simp only [ne_eq, not_true_eq_false, false_and, hnot, or_self, false_iff]
        omega
      · simp only [ne_eq, hjid, not_false_eq_true, true_and, hj]
        omega
    · change 0 ≤ s.ids.nextId - 1
      omega
    · change s.ids.nextId - 1 ≤ p.type.max
      omega
    · intro hpos
      have hlt := hs.bound hpos
      change s.ids.nextId - 1 < p.maxValue
      omega
    · have hinvalid := hs.invalid
      change ¬(0 ≤ p.invalidValue ∧ p.invalidValue < s.ids.nextId - 1)
      omega
  · have hstep : exec p s (.release id) =
        .ok (⟨{ s.ids with releasedIds := insert id s.ids.releasedIds }, s.live.erase id⟩, none) := by
      rw [exec, releaseId, hlast]
      change (if id = s.ids.nextId - 1 then _ else _) >>= _ = _
      rw [if_neg heq]
      rfl
    refine ⟨_, hstep, accounted_of_mem ?_ ?_, hs.nonneg, hs.le_max, hs.bound, hs.invalid⟩
    · intro j hj h
      obtain ⟨hne, hj⟩ := mem_erase.mp hj
      exact hapart hj (mem_of_mem_insert_of_ne h hne)
    · intro j
      rw [← hs.accounted.mem, mem_erase, mem_insert]
      by_cases hjid : j = id
      · subst hjid
        simp only [hid, true_or, or_true]
      · simp only [ne_eq, hjid, not_false_eq_true, true_and, false_or]

theorem Inv.mem_live (hnone : ¬s.ids.releasedIds.Nonempty) {id : ℤ} :
    id ∈ s.live ↔ 0 ≤ id ∧ id < s.ids.nextId := by
  rw [← hs.accounted.mem, not_nonempty_iff_eq_empty.mp hnone]
  exact ⟨.inl, fun h => h.resolve_right (notMem_empty id)⟩

theorem Inv.answers_invalid (hnone : ¬s.ids.releasedIds.Nonempty)
    (hlast : p.maxValue ≤ s.ids.nextId + 1) : Answers p s p.invalidValue := by
  refine ⟨fun _ id hnonneg hid => (hs.mem_live hnone).mpr ⟨hnonneg, ?_⟩, fun h => absurd rfl h⟩
  omega

end

variable (hvalid : ∀ id, 0 ≤ id → id ≤ p.maxValue - 2 → id ≠ p.invalidValue)
include hvalid

section

variable (hs : Inv p s)
include hs

theorem Inv.generate (hfaithful : Faithful p s .generate) :
    ∃ s' id, exec p s .generate = .ok (s', some id) ∧ Inv p s' ∧ Answers p s id := by
  by_cases hreleased : s.ids.releasedIds.Nonempty
  · rw [Faithful, dif_pos hreleased] at hfaithful
    have hne : p.type.convert (IntType.int.convert (s.ids.releasedIds.min' hreleased)) ≠
        p.invalidValue := by
      intro h
      exact hs.invalid (h ▸ hs.accounted.mem.mp (.inr hfaithful))
    have hstep := exec_generate_released (p := p) hreleased rfl
    rw [if_neg hne] at hstep
    exact ⟨_, _, hstep, hs.reissue hfaithful⟩
  · rw [Faithful, dif_neg hreleased] at hfaithful
    have hmin := p.type.min_le
    have hnonneg := hs.nonneg
    by_cases hmax : s.ids.nextId = p.type.max
    · have hfew : p.maxValue ≤ 0 := by
        by_contra hpos
        have hbound := hs.bound (by omega)
        have hle := p.max_holds.2
        omega
      obtain hpos | ⟨-, hne⟩ | ⟨hunsigned, hwide, -⟩ := hfaithful
      · omega
      · exact absurd hmax hne
      · have hzero : p.type.min = 0 := by
          rw [IntType.min, hunsigned]
          rfl
        have hge := p.max_holds.1
        have hplus : plusOne p.type s.ids.nextId = .ok p.maxValue := by
          have hnot : ¬(p.type.signed = true ∧ s.ids.nextId = p.type.max) := by
            rintro ⟨h, -⟩
            rw [hunsigned] at h
            cases h
          have heq : p.type.min = p.maxValue := by omega
          rw [plusOne, if_neg (by omega), if_neg hnot, hmax, convert_max, heq]
        exact ⟨s, _, exec_generate_last hreleased hplus, hs,
          hs.answers_invalid hreleased (by omega)⟩
    · have hlt : s.ids.nextId < p.type.max := lt_of_le_of_ne hs.le_max hmax
      have hplus := plusOne_of_lt (t := p.type) (by omega) hlt
      by_cases hlast : s.ids.nextId + 1 = p.maxValue
      · rw [hlast] at hplus
        exact ⟨s, _, exec_generate_last hreleased hplus, hs,
          hs.answers_invalid hreleased (by omega)⟩
      · have hkeep : p.type.convert (s.ids.nextId + 1) = s.ids.nextId + 1 :=
          convert_of_holds ⟨by omega, by omega⟩
        have hne : s.ids.nextId ≠ p.invalidValue := by
          by_cases hpos : 0 < p.maxValue
          · have hbound := hs.bound hpos
            exact hvalid _ hnonneg (by omega)
          · obtain h | ⟨hne, -⟩ | ⟨-, -, h⟩ := hfaithful
            · exact absurd h hpos
            · exact hne
            · exact absurd h hmax
        have hstep := exec_generate_fresh hreleased hplus hlast
        rw [hkeep, if_neg hne] at hstep
        refine ⟨_, _, hstep, hs.issue hreleased hlt (fun hpos => ?_) hne⟩
        have hbound := hs.bound hpos
        omega

omit hvalid in
/-- Without a released id to hand out, a call outside the condition loses the account. -/
theorem Inv.faithful_fresh (hnone : ¬s.ids.releasedIds.Nonempty) (hproper : Proper p s .generate) :
    Faithful p s .generate := by
  obtain ⟨s', r, hstep, haccounted, -⟩ := hproper
  rw [Faithful, dif_neg hnone]
  have hmin := p.type.min_le
  have hnonneg := hs.nonneg
  by_contra hbad
  simp only [not_or, not_and, not_lt, not_ne_iff] at hbad
  obtain ⟨hfew, hnext, hnarrow⟩ := hbad
  have hmem : ∀ id, id ∈ s.live ↔ 0 ≤ id ∧ id < s.ids.nextId := fun _ => hs.mem_live hnone
  by_cases hmax : s.ids.nextId = p.type.max
  · have hbig := p.type.le_max
    have hplus : plusOne p.type s.ids.nextId = .ok (s.ids.nextId + 1) ∨
        plusOne p.type s.ids.nextId = .error .overflow := by
      rw [plusOne]
      split
      case isTrue => exact .inl rfl
      case isFalse hwide =>
        rw [if_pos]
        · exact .inr rfl
        · refine ⟨?_, hmax⟩
          by_contra hunsigned
          exact hnarrow (Bool.eq_false_iff.mpr hunsigned) (by omega) hmax
    obtain hplus | hplus := hplus
    · rw [exec_generate_fresh hnone hplus (by omega), hmax, convert_max] at hstep
      cases hstep
      have hcovers : (0 : ℤ) ∈ _ ∨ _ ↔ _ := haccounted.mem
      have hzero : (0 : ℤ) ∈ s.live := (hmem 0).mpr ⟨le_refl 0, by omega⟩
      have hlt : (0 : ℤ) < p.type.min := by
        refine (hcovers.mp (.inl ?_)).2
        split
        case isTrue => exact hzero
        case isFalse => exact mem_insert_of_mem hzero
      omega
    · rw [exec, generateId, dif_neg hnone, hplus] at hstep
      cases hstep
  · have hlt : s.ids.nextId < p.type.max := lt_of_le_of_ne hs.le_max hmax
    have hkeep : p.type.convert (s.ids.nextId + 1) = s.ids.nextId + 1 :=
      convert_of_holds ⟨by omega, by omega⟩
    have hinvalid : s.ids.nextId = p.invalidValue := by
      by_contra h
      exact hmax (hnext h)
    rw [exec_generate_fresh hnone (plusOne_of_lt (by omega) hlt) (by omega), hkeep,
      if_pos hinvalid] at hstep
    cases hstep
    obtain hlive | hreleased := haccounted.mem.mpr
      ⟨hnonneg, show s.ids.nextId < s.ids.nextId + 1 by omega⟩
    · exact absurd ((hmem _).mp hlive).2 (lt_irrefl _)
    · exact hnone ⟨_, hreleased⟩

omit hvalid in
/-- An id that came out of `int` as another number was not a released one. -/
theorem Inv.faithful_released (hreleased : s.ids.releasedIds.Nonempty)
    (hproper : Proper p s .generate) : Faithful p s .generate := by
  obtain ⟨s', r, hstep, haccounted, hanswers⟩ := hproper
  rw [Faithful, dif_pos hreleased]
  generalize hid : p.type.convert (IntType.int.convert (s.ids.releasedIds.min' hreleased)) = id
  by_contra hnot
  rw [exec_generate_released hreleased hid] at hstep
  cases hstep
  have hapart := disjoint_left.mp hs.accounted.disjoint
  have hfirst := s.ids.releasedIds.min'_mem hreleased
  have hrange := hs.accounted.mem.mp (.inr hfirst)
  obtain ⟨hinvalid, hfresh⟩ := hanswers id rfl
  by_cases heq : id = p.invalidValue
  · exact hapart (hinvalid heq _ hrange.1 (.inl hrange.2)) hfirst
  · rw [if_neg heq] at haccounted
    have hissued := haccounted.mem.mp (.inl (mem_insert_self id s.live))
    obtain hlive | hmem := hs.accounted.mem.mpr hissued
    · exact hfresh heq hlive
    · exact hnot hmem

theorem Inv.proper_iff {c : Call} (hlegal : Legal s c) : Proper p s c ↔ Faithful p s c := by
  cases c with
  | generate =>
    constructor
    · intro hproper
      by_cases hreleased : s.ids.releasedIds.Nonempty
      · exact hs.faithful_released hreleased hproper
      · exact hs.faithful_fresh hreleased hproper
    · intro hfaithful
      obtain ⟨s', id, hstep, hs', hanswers⟩ := hs.generate hvalid hfaithful
      refine ⟨s', some id, hstep, hs'.accounted, fun j hj => ?_⟩
      cases hj
      exact hanswers
  | release id =>
    refine ⟨fun _ => trivial, fun _ => ?_⟩
    obtain ⟨s', hstep, hs'⟩ := hs.release hlegal
    exact ⟨s', none, hstep, hs'.accounted, fun j hj => absurd hj.symm (Option.some_ne_none j)⟩

theorem Inv.step {c : Call} (hlegal : Legal s c) (hproper : Proper p s c) {s' : System}
    {r : Option ℤ} (hstep : exec p s c = .ok (s', r)) : Inv p s' := by
  cases c with
  | generate =>
    obtain ⟨s₁, id, hstep₁, hs₁, -⟩ := hs.generate hvalid ((hs.proper_iff hvalid hlegal).mp hproper)
    obtain ⟨rfl, -⟩ := Prod.mk.inj (Except.ok.inj (hstep₁.symm.trans hstep))
    exact hs₁
  | release id =>
    obtain ⟨s₁, hstep₁, hs₁⟩ := hs.release hlegal
    obtain ⟨rfl, -⟩ := Prod.mk.inj (Except.ok.inj (hstep₁.symm.trans hstep))
    exact hs₁

end

end Steps

theorem Inv.faithful {p : Params} {s : System} (hs : Inv p s) (hbits : p.type.bits ≤ 32)
    (hpos : 0 < p.maxValue) (c : Call) : Faithful p s c := by
  cases c with
  | generate =>
    by_cases hreleased : s.ids.releasedIds.Nonempty
    · have hfirst := s.ids.releasedIds.min'_mem hreleased
      have hrange := hs.accounted.mem.mp (.inr hfirst)
      have hmin := p.type.min_le
      have hmax := hs.le_max
      rw [Faithful, dif_pos hreleased, convert_int hbits ⟨by omega, by omega⟩]
      exact hfirst
    · rw [Faithful, dif_neg hreleased]
      exact .inl hpos
  | release id => trivial

/-- Every call of a run is properly answered, and the ids are accounted for after it, exactly
when every `GenerateId` of the run is faithful; for id types of at most 32 bits they all are. -/
theorem proper_iff_faithful (p : Params)
    (hvalid : ∀ id, 0 ≤ id → id ≤ p.maxValue - 2 → id ≠ p.invalidValue) {calls : List Call}
    (hlegal : Library.Calls.Guarded (exec p) Legal {} calls) :
    (Library.Calls.Guarded (exec p) (Proper p) {} calls ↔
      Library.Calls.Guarded (exec p) (Faithful p) {} calls) ∧
    (p.type.bits ≤ 32 → 0 < p.maxValue → Library.Calls.Guarded (exec p) (Proper p) {} calls) := by
  have hstep : ∀ s c s' r, Inv p s → Legal s c → Proper p s c → exec p s c = .ok (s', r) →
      Inv p s' := fun _ _ _ _ hs h hproper hstep => hs.step hvalid h hproper hstep
  refine ⟨guarded_congr (Inv p) (fun _ _ hs h => hs.proper_iff hvalid h) hstep
    (inv_initial p) hlegal, fun hbits hpos => ?_⟩
  have hiff : ∀ s c, Inv p s → Legal s c → (Proper p s c ↔ True) := fun s c hs h =>
    iff_true_intro ((hs.proper_iff hvalid h).mpr (hs.faithful hbits hpos c))
  refine (guarded_congr (Inv p) hiff hstep (inv_initial p) hlegal).mpr ?_
  exact guarded_of_forall (fun _ _ _ => trivial) _

section Witnesses

instance (p : Params) (s : System) : ∀ c, Decidable (Faithful p s c)
  | .generate => inferInstanceAs (Decidable (dite _ _ _))
  | .release _ => isTrue trivial

theorem byte_invalid : (⟨.w8, false⟩ : IntType).Holds 255 := by decide

theorem byte_max : (⟨.w8, false⟩ : IntType).Holds 3 := by decide

def byteIds : Params := ⟨⟨.w8, false⟩, 255, 3, byte_invalid, byte_max⟩

theorem proper_iff_faithful_byte : Library.Calls.Guarded (exec byteIds) (Proper byteIds) {}
    [.generate, .generate, .generate, .release 0, .generate] := by
  have hlegal : Library.Calls.Guarded (exec byteIds) Legal {}
      [.generate, .generate, .generate, .release 0, .generate] := by decide +kernel
  have hvalid : ∀ id, 0 ≤ id → id ≤ byteIds.maxValue - 2 → id ≠ byteIds.invalidValue := by
    intro id _ hle
    change id ≤ 3 - 2 at hle
    change id ≠ 255
    omega
  refine (proper_iff_faithful byteIds hvalid hlegal).1.mpr ?_
  decide +kernel

theorem wide_invalid : (⟨.w64, false⟩ : IntType).Holds (2 ^ 64 - 1) := by decide

theorem wide_max : (⟨.w64, false⟩ : IntType).Holds (2 ^ 64 - 2) := by decide

def wideIds : Params := ⟨⟨.w64, false⟩, 2 ^ 64 - 1, 2 ^ 64 - 2, wide_invalid, wide_max⟩

theorem run_generates {k : ℕ} (hk : k < 2 ^ 32) : ∃ ids,
    run (exec wideIds) {} (replicate k .generate) = .ok (⟨⟨k, ∅⟩, Finset.Ico 0 k⟩, ids) := by
  induction k with
  | zero => exact ⟨[], rfl⟩
  | succ k ih =>
    obtain ⟨ids, hrun⟩ := ih (by omega)
    have hmax : wideIds.type.max = 2 ^ 64 - 1 := rfl
    have hmin : wideIds.type.min = 0 := rfl
    have hlast : wideIds.maxValue = 2 ^ 64 - 2 := rfl
    have hnone : wideIds.invalidValue = 2 ^ 64 - 1 := rfl
    have hstep := exec_generate_fresh (p := wideIds) (s := ⟨⟨k, ∅⟩, Finset.Ico 0 (k : ℤ)⟩)
      Finset.not_nonempty_empty (plusOne_of_lt (n := k) (by omega) (by omega)) (by omega)
    have hkeep : wideIds.type.convert ((k : ℤ) + 1) = k + 1 :=
      convert_of_holds ⟨by omega, by omega⟩
    have hne : (k : ℤ) ≠ wideIds.invalidValue := by omega
    have hlive : insert (k : ℤ) (Finset.Ico 0 (k : ℤ)) = Finset.Ico 0 ((k + 1 : ℕ) : ℤ) := by
      ext j
      rw [mem_insert, mem_Ico, mem_Ico]
      omega
    rw [hkeep, if_neg hne, hlive] at hstep
    refine ⟨ids ++ [some (k : ℤ)], ?_⟩
    rw [replicate_succ']
    exact run_append hrun (by simp only [run, hstep]; rfl)

/-- Among 64-bit ids, a released one from `2 ^ 31` on is not the one that is handed out. -/
theorem generateId_narrows : ∃ (calls : List Call) (s s' : System) (ids : List (Option ℤ)),
    (∀ id, 0 ≤ id → id ≤ wideIds.maxValue - 2 → id ≠ wideIds.invalidValue) ∧
      Library.Calls.Guarded (exec wideIds) Legal {} (calls ++ [.generate]) ∧
      Library.Calls.run (exec wideIds) {} calls = .ok (s, ids) ∧ s.ids.nextId = 2 ^ 31 + 2 ∧
      exec wideIds s .generate = .ok (s', some (2 ^ 64 - 2 ^ 31)) ∧ ¬Accounted s' := by
  obtain ⟨ids, hrun⟩ := run_generates (k := 2 ^ 31 + 2) (by decide)
  have hcast : ((2 ^ 31 + 2 : ℕ) : ℤ) = 2 ^ 31 + 2 := Nat.cast_add (2 ^ 31) 2
  rw [hcast] at hrun
  generalize hlive : Finset.Ico (0 : ℤ) (2 ^ 31 + 2) = live at hrun
  have hlegal : Library.Calls.Guarded (exec wideIds) Legal {}
      (replicate (2 ^ 31 + 2) Call.generate) := by
    refine guarded_of_forall (fun c hc s => ?_) _
    rw [(mem_replicate.mp hc).2]
    trivial
  generalize replicate (2 ^ 31 + 2) Call.generate = calls at hrun hlegal
  have hrelease : exec wideIds ⟨⟨2 ^ 31 + 2, ∅⟩, live⟩ (.release (2 ^ 31)) =
      .ok (⟨⟨2 ^ 31 + 2, {2 ^ 31}⟩, live.erase (2 ^ 31)⟩, none) := by
    have hlast : minusOne wideIds.type (2 ^ 31 + 2) = .ok (2 ^ 31 + 1) := by decide
    rw [exec, releaseId, hlast]
    rfl
  have hmem : (2 ^ 31 : ℤ) ∈ live := by
    rw [← hlive, mem_Ico]
    decide
  have hreleased : ({2 ^ 31} : Finset ℤ).Nonempty := singleton_nonempty _
  have hnarrow : wideIds.type.convert (IntType.int.convert (({2 ^ 31} : Finset ℤ).min' hreleased)) =
      2 ^ 64 - 2 ^ 31 := by
    rw [min'_singleton]
    decide
  have hgenerate := exec_generate_released
    (s := ⟨⟨2 ^ 31 + 2, {2 ^ 31}⟩, live.erase (2 ^ 31)⟩) hreleased hnarrow
  have hlast : run (exec wideIds) ⟨⟨2 ^ 31 + 2, ∅⟩, live⟩ [.release (2 ^ 31)] =
      .ok (⟨⟨2 ^ 31 + 2, {2 ^ 31}⟩, live.erase (2 ^ 31)⟩, [none]) := by
    simp only [run]
    rw [hrelease]
  refine ⟨calls ++ [.release (2 ^ 31)], _, _, ids ++ [none], ?_, ?_,
    run_append hrun hlast, rfl, hgenerate, ?_⟩
  · intro id _ hle
    change id ≤ 2 ^ 64 - 2 - 2 at hle
    change id ≠ 2 ^ 64 - 1
    omega
  · rw [append_assoc]
    refine guarded_append hlegal hrun ?_
    exact ⟨hmem, fun _ _ _ => ⟨trivial, fun _ _ _ => trivial⟩⟩
  · intro haccounted
    have hbelow := haccounted.mem.mp (.inl (mem_insert_self (2 ^ 64 - 2 ^ 31 : ℤ) _))
    have hlt : (2 ^ 64 - 2 ^ 31 : ℤ) < 2 ^ 31 + 2 := hbelow.2
    cases hlt

end Witnesses

end Equilibrium.IdSet
