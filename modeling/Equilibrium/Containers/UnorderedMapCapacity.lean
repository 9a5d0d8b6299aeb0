import Equilibrium.Containers.UnorderedMapCounters

/-! The bucket count of an `UnorderedMap` under insertions and erasures: what `reserve`
saves, and how far the table grows. -/

namespace Equilibrium.UnorderedMap

open AllocationSize Library.CyclicProbe Except Library.Calls List
open Outcome (bind_eq_ok)

variable {K V : Type}

/-- The calls that insert or erase a key. -/
inductive Change (K V : Type) where
  | insert (key : K) (val : V)
  | emplace (key : K) (val : V)
  | tryEmplace (key : K) (val : V)
  | subscript (key : K)
  | erase (key : K)

def Change.erases : Change K V → Bool
  | .erase _ => true
  | _ => false

section Model

variable [BEq K] [Hashable K] [Inhabited V]

/-- A call, and whether `erase` found the key. -/
def change (m : UnorderedMap K V) : Memory × Change K V → Outcome (UnorderedMap K V × Bool)
  | (mem, .insert key val) => do
    let (m, _) ← insert mem m key val
    return (m, false)
  | (mem, .emplace key val) => do
    let (m, _) ← emplace mem m key val
    return (m, false)
  | (mem, .tryEmplace key val) => do
    let (m, _) ← tryEmplace mem m key val
    return (m, false)
  | (mem, .subscript key) => do
    let (m, _) ← subscript mem m key
    return (m, false)
  | (_, .erase key) => .ok (m.erase key)

abbrev changes (m : UnorderedMap K V) (calls : List (Memory × Change K V)) :
    Outcome (UnorderedMap K V × List Bool) :=
  Library.Calls.run change m calls

/-- The size before every call is at most `n`. -/
abbrev Bounded (n : Nat) (m : UnorderedMap K V) (calls : List (Memory × Change K V)) : Prop :=
  Library.Calls.Guarded change (fun m _ => m.size ≤ n) m calls

end Model

/-- An insertion finds the pairs, the tombstones and one more within three quarters of the
buckets. -/
def HasRoom (m : UnorderedMap K V) (call : Memory × Change K V) : Prop :=
  call.2.erases = true ∨
    m.bucketCount ≠ 0 ∧ wrapAdd (wrapAdd m.size m.tombstoneCount) 1 ≤ maxLoad m.bucketCount

instance (m : UnorderedMap K V) (call : Memory × Change K V) : Decidable (HasRoom m call) :=
  inferInstanceAs (Decidable (_ ∨ _))

section Insertion

variable [BEq K] [Hashable K] [Inhabited V]

def Change.value : Change K V → V
  | .insert _ val | .emplace _ val | .tryEmplace _ val => val
  | .subscript _ | .erase _ => default

def Change.key : Change K V → K
  | .insert key _ | .emplace key _ | .tryEmplace key _ | .subscript key | .erase key => key

variable {mem : Memory}

theorem change_eq_ok {m m' : UnorderedMap K V} {c : Change K V} {found : Bool}
    (hc : c.erases = false) : change m (mem, c) = .ok (m', found) ↔
      found = false ∧ ∃ r, insertSlot mem m c.key c.value = .ok (m', r) := by
  cases c with
  | erase key => cases hc
  | insert key val | emplace key val | tryEmplace key val =>
    constructor
    · intro h
      obtain ⟨⟨m₁, r⟩, hrun, hret⟩ := bind_eq_ok.mp h
      cases hret
      exact ⟨rfl, r, hrun⟩
    · rintro ⟨rfl, r, hrun⟩
      exact bind_eq_ok.mpr ⟨(m', r), hrun, rfl⟩
  | subscript key =>
    constructor
    · intro h
      obtain ⟨⟨m₁, i⟩, hrun, hret⟩ := bind_eq_ok.mp h
      obtain ⟨⟨m₂, r⟩, hslot, hret'⟩ := bind_eq_ok.mp hrun
      cases hret
      cases hret'
      exact ⟨rfl, r, hslot⟩
    · rintro ⟨rfl, r, hrun⟩
      refine bind_eq_ok.mpr ⟨(m', r.1), ?_, rfl⟩
      exact bind_eq_ok.mpr ⟨(m', r), hrun, rfl⟩

end Insertion

section Growth

theorem prepareLoop_free [BEq K] {slots : List (Slot K V)} {key : K} {turns idx i : Nat}
    {tombstone : Option Nat} (htomb : ∀ t ∈ tombstone, (slotAt slots t).isOccupied = false)
    (h : prepareLoop slots key turns idx tombstone = .ok (i, true)) :
    (slotAt slots i).isOccupied = false := by
  induction turns generalizing idx tombstone with
  | zero => cases h
  | succ turns ih =>
    rw [prepareLoop] at h
    cases hslot : slotAt slots idx with
    | empty =>
      rw [hslot] at h
      cases h
      cases tombstone with
      | none =>
        rw [Option.getD_none, hslot]
        rfl
      | some t => exact htomb t rfl
    | deleted =>
      rw [hslot] at h
      refine ih (fun t ht => ?_) h
      cases tombstone with
      | none =>
        cases ht
        rw [hslot]
        rfl
      | some u => exact htomb t ht
    | occupied k v =>
      rw [hslot] at h
      dsimp only at h
      split at h
      case isTrue => cases h
      case isFalse => exact ih htomb h

theorem length_relocate [Hashable K] {src table table' : List (Slot K V)} {placed placed' : Nat}
    (h : relocate table placed src = .ok (table', placed')) : table'.length = table.length := by
  induction src generalizing table placed with
  | nil =>
    cases h
    rfl
  | cons slot rest ih =>
    cases slot with
    | occupied k v =>
      obtain ⟨idx, -, hrest⟩ := bind_eq_ok.mp h
      rw [ih hrest, length_set]
    | empty => exact ih h
    | deleted => exact ih h

theorem bucketCount_growAndRehash [Hashable K] {m m' : UnorderedMap K V} {target : Nat}
    (h : growAndRehash mem m target = .ok m') :
    growCount m.bucketCount target = .ok m'.bucketCount := by
  obtain ⟨count, hcount, hrest⟩ := bind_eq_ok.mp h
  obtain ⟨slots, hslots, hrest⟩ := bind_eq_ok.mp hrest
  obtain ⟨⟨table, placed⟩, htable, hret⟩ := bind_eq_ok.mp hrest
  cases hret
  have hlength := length_relocate htable
  rw [(allocSlots_safe mem count).of_eq_ok hslots, length_replicate] at hlength
  rw [hcount, bucketCount, hlength]

theorem growthTest_cases [Hashable K] {m m' : UnorderedMap K V} (h : growthTest mem m = .ok m') :
    (m' = m ∧ m.bucketCount ≠ 0 ∧
      wrapAdd (wrapAdd m.size m.tombstoneCount) 1 ≤ maxLoad m.bucketCount) ∨
    (m.bucketCount < m'.bucketCount ∧ ¬ (m.bucketCount ≠ 0 ∧
      wrapAdd (wrapAdd m.size m.tombstoneCount) 1 ≤ maxLoad m.bucketCount)) := by
  unfold growthTest at h
  split at h
  case isTrue hgrow =>
    refine .inr ⟨?_, by omega⟩
    have hcount := bucketCount_growAndRehash h
    rw [growCount] at hcount
    by_cases hzero : m.bucketCount = 0
    · rw [if_pos hzero] at hcount
      have hsixteen := ok.inj hcount
      omega
    · rw [if_neg hzero] at hcount
      obtain ⟨hdouble, -⟩ := (checkedCountProduct_safe m.bucketCount 2).of_eq_ok hcount
      omega
  case isFalse hroom =>
    cases h
    exact .inl ⟨rfl, by omega⟩

end Growth

section Steps

variable [BEq K] [Hashable K] [Inhabited V]

variable {m m' : UnorderedMap K V}

section

omit [Inhabited V]

theorem insertSlot_cases {key : K} {val : V} {r : Nat × Bool}
    (h : insertSlot mem m key val = .ok (m', r)) :
    ∃ m₁, growthTest mem m = .ok m₁ ∧ (m' = m₁ ∨ ∃ idx,
      (slotAt m₁.slots idx).isOccupied = false ∧ m' = m₁.markOccupied idx key val) := by
  obtain ⟨⟨m₁, idx, fresh⟩, hfind, hrest⟩ := bind_eq_ok.mp h
  obtain ⟨m₂, hgrow, hslot⟩ := bind_eq_ok.mp hfind
  obtain ⟨⟨i, b⟩, hloop, hret⟩ := bind_eq_ok.mp hslot
  cases hret
  refine ⟨m₁, hgrow, ?_⟩
  cases fresh with
  | false =>
    cases hrest
    exact .inl rfl
  | true =>
    cases hrest
    have hnone : ∀ t ∈ (none : Option Nat), (slotAt m₁.slots t).isOccupied = false := by
      intro t ht
      cases ht
    exact .inr ⟨idx, prepareLoop_free hnone hloop, rfl⟩

theorem insertSlot_keeps {key : K} {val : V} {r : Nat × Bool}
    (h : insertSlot mem m key val = .ok (m', r)) :
    ∃ m₁, growthTest mem m = .ok m₁ ∧ m'.bucketCount = m₁.bucketCount ∧
      ∀ i k v, slotAt m₁.slots i = .occupied k v → slotAt m'.slots i = .occupied k v := by
  obtain ⟨m₁, hgrow, rfl | ⟨idx, hfree, rfl⟩⟩ := insertSlot_cases h
  · exact ⟨m', hgrow, rfl, fun _ _ _ hpair => hpair⟩
  · refine ⟨m₁, hgrow, length_set, fun i k v hpair => ?_⟩
    have hne : idx ≠ i := by
      rintro rfl
      rw [hpair] at hfree
      cases hfree
    rw [UnorderedMap.markOccupied, slotAt, getD_eq_getElem?_getD, getElem?_set_ne hne]
    exact hpair

theorem erase_keeps (m : UnorderedMap K V) (key : K) : (m.erase key).1.bucketCount = m.bucketCount ∧
      ∀ i k v, slotAt m.slots i = .occupied k v → (k == key) = false →
        slotAt (m.erase key).1.slots i = .occupied k v := by
  unfold UnorderedMap.erase
  cases hfind : m.findSlot key with
  | none => exact ⟨rfl, fun _ _ _ hpair _ => hpair⟩
  | some idx =>
    refine ⟨length_set, fun i k v hpair hkey => ?_⟩
    obtain ⟨k', v', hslot, hkey'⟩ := findSlot_some hfind
    have hne : idx ≠ i := by
      rintro rfl
      rw [hpair] at hslot
      obtain ⟨rfl, -⟩ := Slot.occupied.inj hslot
      rw [hkey] at hkey'
      cases hkey'
    rw [slotAt, getD_eq_getElem?_getD, getElem?_set_ne hne]
    exact hpair

end

/-- The table is the same, and every pair whose key was not erased is where it was. -/
structure Undisturbed (m : UnorderedMap K V) (calls : List (Memory × Change K V))
    (m' : UnorderedMap K V) : Prop where
  bucketCount : m'.bucketCount = m.bucketCount
  pairs : ∀ i k v, slotAt m.slots i = .occupied k v →
    (∀ call ∈ calls, call.2.erases = true → (k == call.2.key) = false) →
      slotAt m'.slots i = .occupied k v

theorem change_cases {call : Memory × Change K V} {found : Bool}
    (h : change m call = .ok (m', found)) : (HasRoom m call ∧ Undisturbed m [call] m') ∨
      (¬ HasRoom m call ∧ m.bucketCount < m'.bucketCount) := by
  obtain ⟨mem, c⟩ := call
  cases hc : c.erases with
  | true =>
    cases c with
    | erase key =>
      have hm' : (m.erase key).1 = m' := congrArg Prod.fst (ok.inj h)
      obtain ⟨hcount, hpairs⟩ := erase_keeps m key
      rw [hm'] at hcount hpairs
      refine .inl ⟨.inl rfl, hcount, fun i k v hpair hkey => hpairs i k v hpair ?_⟩
      exact hkey _ (mem_singleton_self _) rfl
    | _ => cases hc
  | false =>
    obtain ⟨-, r, hslot⟩ := (change_eq_ok hc).mp h
    obtain ⟨m₁, hgrow, hcount, hpairs⟩ := insertSlot_keeps hslot
    have hroom : HasRoom m (mem, c) ↔ m.bucketCount ≠ 0 ∧
        wrapAdd (wrapAdd m.size m.tombstoneCount) 1 ≤ maxLoad m.bucketCount := by
      rw [HasRoom, hc]
      exact ⟨fun h => h.resolve_left Bool.false_ne_true, .inr⟩
    obtain ⟨rfl, htest⟩ | ⟨hlt, htest⟩ := growthTest_cases hgrow
    · exact .inl ⟨hroom.mpr htest, hcount, fun i k v hpair _ => hpairs i k v hpair⟩
    · exact .inr ⟨fun h => htest (hroom.mp h), hcount ▸ hlt⟩

variable {calls : List (Memory × Change K V)} {found : List Bool}

theorem bucketCount_le_changes (h : changes m calls = .ok (m', found)) :
    m.bucketCount ≤ m'.bucketCount := by
  induction calls generalizing m found with
  | nil =>
    cases h
    exact le_rfl
  | cons call rest ih =>
    obtain ⟨m₁, r, rs, hcall, hrest, -⟩ := run_cons_ok h
    refine Nat.le_trans ?_ (ih hrest)
    obtain ⟨-, hkept⟩ | ⟨-, hlt⟩ := change_cases hcall
    · exact Nat.le_of_eq hkept.bucketCount.symm
    · exact hlt.le

theorem undisturbed_of_room {m m' : UnorderedMap K V} (h : changes m calls = .ok (m', found))
    (hroom : Library.Calls.Guarded change HasRoom m calls) : Undisturbed m calls m' := by
  induction calls generalizing m found with
  | nil =>
    cases h
    exact ⟨rfl, fun _ _ _ hpair _ => hpair⟩
  | cons call rest ih =>
    obtain ⟨m₁, r, rs, hcall, hrest, -⟩ := run_cons_ok h
    obtain ⟨hroom, hguarded⟩ := hroom
    have hkept := ih hrest (hguarded m₁ r hcall)
    obtain ⟨-, hstep⟩ | ⟨hno, -⟩ := change_cases hcall
    · refine ⟨hkept.bucketCount.trans hstep.bucketCount, fun i k v hpair hkeys => ?_⟩
      refine hkept.pairs i k v (hstep.pairs i k v hpair fun c hc => ?_) fun c hc =>
        hkeys c (mem_cons_of_mem _ hc)
      rw [mem_singleton.mp hc]
      exact hkeys call mem_cons_self
    · exact absurd hroom hno

theorem room_of_bucketCount {m m' : UnorderedMap K V} (h : changes m calls = .ok (m', found))
    (hsame : m'.bucketCount = m.bucketCount) : Library.Calls.Guarded change HasRoom m calls := by
  induction calls generalizing m found with
  | nil => trivial
  | cons call rest ih =>
    obtain ⟨m₁, r, rs, hcall, hrest, -⟩ := run_cons_ok h
    have hle := bucketCount_le_changes hrest
    obtain ⟨hroom, hstep⟩ | ⟨-, hlt⟩ := change_cases hcall
    · refine ⟨hroom, fun m₂ r₂ hcall₂ => ?_⟩
      rw [hcall] at hcall₂
      cases hcall₂
      exact ih hrest (hsame.trans hstep.bucketCount.symm)
    · omega

end Steps

section Reserve

variable [BEq K] [Hashable K] [Inhabited V]

omit [BEq K] [Inhabited V] in
/-- Three quarters of the table that `reserve` leaves hold one more than was asked for. -/
theorem lt_maxLoad_of_reserve {m m₀ : UnorderedMap K V} {n : Nat} (h : reserve mem m n = .ok m₀) :
    n < maxLoad m₀.bucketCount := by
  obtain ⟨product, hproduct, hrest⟩ := bind_eq_ok.mp h
  obtain ⟨required, hrequired, hrest⟩ := bind_eq_ok.mp hrest
  obtain ⟨rounded, hrounded, hrest⟩ := bind_eq_ok.mp hrest
  obtain ⟨hproduct, -⟩ := (checkedCountProduct_safe n 4).of_eq_ok hproduct
  have hrequired := (checkedCountSum_safe (product / 3) 1).of_eq_ok hrequired
  obtain ⟨j, -, hpow, hle⟩ := (checkedRoundUpToPowerOfTwo_safe required).of_eq_ok hrounded
  have htarget : max 16 rounded ≤ m₀.bucketCount := by
    dsimp only at hrest
    split at hrest
    case isTrue hlt =>
      have hcount := bucketCount_growAndRehash hrest
      rw [growCount, if_pos (by omega)] at hcount
      exact Nat.le_of_eq (ok.inj hcount)
    case isFalse hle =>
      cases hrest
      omega
  have hfour : 4 ∣ max 16 rounded := by
    by_cases hj : 2 ≤ j
    · have hdvd : 4 ∣ rounded := hpow ▸ Nat.pow_dvd_pow 2 hj
      omega
    · have hsmall : rounded ≤ 2 ^ 2 := hpow ▸ Nat.pow_le_pow_right (by decide) (by omega)
      omega
  obtain ⟨d, hd⟩ := hfour
  have hquarters : 3 * d ≤ m₀.bucketCount * 3 / 4 := by omega
  have hlarge : n < 3 * d := by omega
  unfold maxLoad
  omega

theorem wrapAdd_le (a b : Nat) : wrapAdd a b ≤ a + b := Nat.mod_le _ _

theorem room_of_no_tombstones {m : UnorderedMap K V} {n : Nat} (hlt : n < maxLoad m.bucketCount)
    (hsize : Bounded n m calls) (hnone : Library.Calls.Guarded change
      (fun m call => call.2.erases = true ∨ m.tombstoneCount = 0) m calls) :
    Library.Calls.Guarded change HasRoom m calls := by
  induction calls generalizing m with
  | nil => trivial
  | cons call rest ih =>
    obtain ⟨hle, hsize⟩ := hsize
    obtain ⟨hzero, hnone⟩ := hnone
    refine ⟨?_, fun m₁ r hcall => ih ?_ (hsize m₁ r hcall) (hnone m₁ r hcall)⟩
    · refine hzero.imp_right fun hzero => ⟨fun hcount => ?_, ?_⟩
      · rw [hcount] at hlt
        exact Nat.not_lt_zero n hlt
      · have houter := wrapAdd_le (wrapAdd m.size m.tombstoneCount) 1
        have hinner := wrapAdd_le m.size m.tombstoneCount
        omega
    · have hgrow : m.bucketCount ≤ m₁.bucketCount := by
        obtain ⟨-, hkept⟩ | ⟨-, hmore⟩ := change_cases hcall
        · exact Nat.le_of_eq hkept.bucketCount.symm
        · exact hmore.le
      unfold maxLoad at hlt ⊢
      omega

/-- After `reserve(n)`, while the size stays within `n`, the table is left alone exactly when
no insertion finds too many tombstones; without tombstones there are none too many. -/
theorem reserve_undisturbed_iff {mem : Memory} {m m₀ m' : UnorderedMap K V} {n : Nat}
    {calls : List (Memory × Change K V)} {found : List Bool} (hreserve : reserve mem m n = .ok m₀)
    (hsize : Bounded n m₀ calls) (hrun : changes m₀ calls = .ok (m', found)) :
    (Undisturbed m₀ calls m' ↔ Library.Calls.Guarded change HasRoom m₀ calls) ∧
      (Library.Calls.Guarded change
        (fun m call => call.2.erases = true ∨ m.tombstoneCount = 0) m₀ calls →
          Undisturbed m₀ calls m') := by
  refine ⟨⟨fun h => room_of_bucketCount hrun h.bucketCount, undisturbed_of_room hrun⟩,
    fun hnone => undisturbed_of_room hrun ?_⟩
  exact room_of_no_tombstones (lt_maxLoad_of_reserve hreserve) hsize hnone

end Reserve

section Churn

variable [BEq K] [Hashable K] [Inhabited V]

/-- The counters agree with the slots, `e` erasures account for the tombstones, and the
table is no larger than `n` pairs and those erasures make it. -/
structure Within (n e : Nat) (m : UnorderedMap K V) : Prop where
  loaded : Loaded m
  tombstones : m.tombstoneCount ≤ e
  buckets : m.bucketCount ≤ 4 * max 16 (n + e)

variable {m : UnorderedMap K V} {e n : Nat}

omit [BEq K] [Inhabited V] in
theorem Within.growthTest {m₁ : UnorderedMap K V} (hm : Within n e m) (hn : m.size ≤ n)
    (h : growthTest mem m = .ok m₁) : Within n e m₁ := by
  obtain ⟨hloaded, htomb, hb⟩ := hm
  have hlt := hloaded.bucketCount_lt
  have hload := hloaded.load
  have hgrown := (growthTest_safe mem hloaded).of_eq_ok h
  unfold UnorderedMap.growthTest at h
  split at h
  case isTrue hgrow =>
    have hre := ((growAndRehash_safe mem hloaded (.inl rfl)).of_eq_ok h).1
    refine ⟨hre.loaded, Nat.le_trans (Nat.le_of_eq hre.tombstones) (Nat.zero_le e), ?_⟩
    have hcount := bucketCount_growAndRehash h
    rw [growCount] at hcount
    by_cases hzero : m.bucketCount = 0
    · rw [if_pos hzero] at hcount
      have hsixteen := ok.inj hcount
      omega
    · rw [if_neg hzero] at hcount
      obtain ⟨hdouble, -⟩ := (checkedCountProduct_safe m.bucketCount 2).of_eq_ok hcount
      have hfull := hgrow.resolve_left hzero
      rw [wrapAdd_of_lt (by omega : m.size + m.tombstoneCount < 2 ^ 64),
        wrapAdd_of_lt (by omega)] at hfull
      unfold maxLoad at hfull
      omega
  case isFalse =>
    cases h
    exact ⟨hgrown.loaded, htomb, hb⟩

section

omit [Inhabited V]

theorem Within.insertSlot {m' : UnorderedMap K V} {key : K} {val : V} {r : Nat × Bool}
    (hm : Within n e m) (hn : m.size ≤ n) (h : insertSlot mem m key val = .ok (m', r)) :
    Within n e m' := by
  have hloaded' := (insertSlot_safe mem hm.loaded key val).of_eq_ok h
  obtain ⟨m₁, hgrow, rfl | ⟨idx, hfree, rfl⟩⟩ := insertSlot_cases h
  · exact hm.growthTest hn hgrow
  · obtain ⟨hloaded, htomb, hb⟩ := hm.growthTest hn hgrow
    refine ⟨hloaded', ?_, Nat.le_trans (Nat.le_of_eq length_set) hb⟩
    rw [hloaded'.tombstones]
    rw [hloaded.tombstones] at htomb
    by_cases hidx : idx < m₁.slots.length
    · have hdel := deletedCount_set hidx (.occupied key val)
      have hpair : (Slot.occupied key val).isDeleted.toNat = 0 := rfl
      have hslots : (m₁.markOccupied idx key val).slots = m₁.slots.set idx (.occupied key val) :=
        rfl
      rw [hslots]
      omega
    · have hslots : (m₁.markOccupied idx key val).slots = m₁.slots :=
        set_eq_of_length_le (Nat.le_of_not_lt hidx)
      rw [hslots]
      exact htomb

theorem Within.erase (hm : Within n e m) (key : K) :
    Within n (e + (m.erase key).2.toNat) (m.erase key).1 := by
  have hcount := (erase_keeps m key).1
  have htomb := hm.tombstones
  have hb := hm.buckets
  refine ⟨hm.loaded.erase key, ?_, ?_⟩
  · unfold UnorderedMap.erase
    cases hfind : m.findSlot key with
    | none => exact Nat.le_trans htomb (Nat.le_add_right _ _)
    | some idx =>
      have hadd := wrapAdd_le m.tombstoneCount 1
      exact Nat.le_trans hadd (Nat.add_le_add_right htomb 1)
  · omega

end

theorem Within.change {m m' : UnorderedMap K V} {call : Memory × Change K V} {found : Bool}
    {n e : Nat} (hm : Within n e m) (hn : m.size ≤ n)
    (h : change m call = .ok (m', found)) : Within n (e + found.toNat) m' := by
  obtain ⟨mem, c⟩ := call
  cases hc : c.erases with
  | true =>
    cases c with
    | erase key =>
      have heq : m.erase key = (m', found) := ok.inj h
      have herase := hm.erase key
      rw [heq] at herase
      exact herase
    | _ => cases hc
  | false =>
    obtain ⟨rfl, r, hslot⟩ := (change_eq_ok hc).mp h
    exact hm.insertSlot hn hslot

theorem Within.changes {m' : UnorderedMap K V} (hm : Within n e m) (hsize : Bounded n m calls)
    (h : changes m calls = .ok (m', found)) : Within n (e + found.count true) m' := by
  induction calls generalizing m found e with
  | nil =>
    cases h
    exact hm
  | cons call rest ih =>
    obtain ⟨m₁, r, rs, hcall, hrest, rfl⟩ := run_cons_ok h
    have hwithin := ih (hm.change hsize.1 hcall) (hsize.2 m₁ r hcall) hrest
    have hcount : e + (r :: rs).count true = e + r.toNat + rs.count true := by
      cases r with
      | false => rw [count_cons_of_ne Bool.false_ne_true, Bool.toNat_false, Nat.add_zero]
      | true => rw [count_cons_self, Bool.toNat_true, Nat.add_assoc, Nat.add_comm 1]
    rw [hcount]
    exact hwithin

/-- With at most `n` pairs at a time, the table is bounded by `n` and by how many pairs were
erased. -/
theorem churn_bounded {n : Nat} {calls : List (Memory × Change K V)} {m : UnorderedMap K V}
    {found : List Bool} (hsize : Bounded n {} calls) (h : changes {} calls = .ok (m, found)) :
    m.bucketCount ≤ 4 * max 16 (n + found.count true) := by
  have hempty : Within n 0 ({} : UnorderedMap K V) := ⟨loaded_default, Nat.le_refl 0, Nat.zero_le _⟩
  have hbuckets := (hempty.changes hsize h).buckets
  rw [Nat.zero_add] at hbuckets
  exact hbuckets

end Churn

section Sweeping

def churned (key : Nat) : List (Memory × Change Nat Nat) :=
  [(ample, .insert key 10), (ample, .erase key)]

/-- A table of `b` buckets whose first `t` are tombstones. -/
def swept (b t : Nat) : UnorderedMap Nat Nat :=
  ⟨List.replicate t .deleted ++ List.replicate (b - t) .empty, 0, t⟩

theorem slotAt_swept (b t i : Nat) :
    slotAt (swept b t).slots i = if i < t then .deleted else .empty := by
  rw [slotAt, swept, getD_eq_getElem?_getD]
  by_cases hi : i < t
  · rw [if_pos hi, getElem?_append_left (by rw [length_replicate]; exact hi),
      getElem?_replicate, if_pos hi]
    rfl
  · rw [getElem?_append_right (by rw [length_replicate]; omega), length_replicate,
      getElem?_replicate]
    split
    · rfl
    · rfl

variable {b t : Nat}

theorem bucketCount_swept (h : t ≤ b) : (swept b t).bucketCount = b := by
  rw [bucketCount, swept, length_append, length_replicate, length_replicate]
  omega

theorem set_swept (h : t < b) (s : Slot Nat Nat) : (swept b t).slots.set t s =
      replicate t .deleted ++ s :: replicate (b - (t + 1)) .empty := by
  have hsplit : b - t = b - (t + 1) + 1 := by omega
  change (replicate t Slot.deleted ++ replicate (b - t) Slot.empty).set t s = _
  rw [set_append_right t s (by rw [length_replicate]), length_replicate,
    Nat.sub_self, hsplit, replicate_succ, set_cons_zero]

theorem maxLoad_lt (h : 0 < b) : maxLoad b < b := by
  unfold maxLoad
  omega

variable {k : Nat}

theorem bucketFor_nat {key : Nat} (hk : k < 64) (hkey : key < 2 ^ k) :
    bucketFor (2 ^ k) key = key := by
  have hlt : key < 2 ^ 64 := Nat.lt_trans hkey (Nat.pow_lt_pow_right (by decide) hk)
  have hhash : (hash key).toNat = key := UInt64.toNat_ofNat_of_lt' hlt
  rw [bucketFor, and_pred_eq_mod ⟨k, rfl⟩, hhash, Nat.mod_eq_of_lt hkey]

theorem growthTest_swept (hb : b < 2 ^ 64) (ht : t < maxLoad b) :
    growthTest ample (swept b t) = .ok (swept b t) := by
  have hpos : 0 < b := by
    unfold maxLoad at ht
    omega
  have hlt := maxLoad_lt hpos
  have hcount := bucketCount_swept (b := b) (t := t) (by omega)
  have hload : wrapAdd (wrapAdd 0 t) 1 = t + 1 := by
    rw [wrapAdd_of_lt (a := 0) (by omega), wrapAdd_of_lt (by omega), Nat.zero_add]
  have htest : ¬(b = 0 ∨ maxLoad b < wrapAdd (wrapAdd (swept b t).size
      (swept b t).tombstoneCount) 1) := by
    rintro (hzero | hover)
    · exact absurd hzero hpos.ne'
    · change maxLoad b < wrapAdd (wrapAdd 0 t) 1 at hover
      omega
  rw [growthTest, hcount, if_neg htest]

theorem relocate_of_no_entry [Hashable K] (table : List (Slot K V)) (placed : Nat)
    {src : List (Slot K V)} (h : ∀ s ∈ src, s.isOccupied = false) :
    relocate table placed src = .ok (table, placed) := by
  induction src with
  | nil => rfl
  | cons slot rest ih =>
    have hrest := ih fun s hs => h s (mem_cons_of_mem slot hs)
    cases slot with
    | occupied k v => cases h (.occupied k v) mem_cons_self
    | empty => exact hrest
    | deleted => exact hrest

/-- At three quarters of tombstones, the table is rebuilt with twice the buckets. -/
theorem growthTest_full (hfour : 4 ≤ b) (hb : b * 48 < 2 ^ 64) :
    growthTest ample (swept b (maxLoad b)) = .ok (swept (b * 2) 0) := by
  have hlt := maxLoad_lt (b := b) (by omega)
  have hcount := bucketCount_swept (b := b) (t := maxLoad b) (by omega)
  have hover : maxLoad b < wrapAdd (wrapAdd (swept b (maxLoad b)).size
      (swept b (maxLoad b)).tombstoneCount) 1 := by
    change maxLoad b < wrapAdd (wrapAdd 0 (maxLoad b)) 1
    rw [wrapAdd_of_lt (a := 0) (by omega), wrapAdd_of_lt (by omega)]
    omega
  have hmax : memSizeMax = 2 ^ 64 - 1 := rfl
  have hgrow : growCount b 0 = .ok (b * 2) := by
    rw [growCount, if_neg (Nat.lt_irrefl 0), if_neg (by omega), checkedCountProduct,
      checkedAllocationSize_of_le (by omega)]
  have halloc : allocSlots ample (b * 2) = .ok (replicate (b * 2) (.empty : Slot Nat Nat)) := by
    have hsize : checkedAllocationSize (b * 2) ample.slotSize = .ok (b * 2 * 24) :=
      checkedAllocationSize_of_le (by
        change b * 2 * 24 ≤ memSizeMax
        omega)
    rw [allocSlots, hsize]
    rfl
  have hnone : ∀ s ∈ (swept b (maxLoad b)).slots, s.isOccupied = false := by
    intro s hs
    rcases mem_append.mp hs with hs | hs
    · rw [(mem_replicate.mp hs).2]
      rfl
    · rw [(mem_replicate.mp hs).2]
      rfl
  rw [growthTest, if_pos (Or.inr (hcount.symm ▸ hover)), growAndRehash, hcount, hgrow]
  refine bind_eq_ok.mpr ⟨b * 2, rfl, bind_eq_ok.mpr ⟨_, halloc, ?_⟩⟩
  refine bind_eq_ok.mpr ⟨_, relocate_of_no_entry _ 0 hnone, ?_⟩
  rfl

theorem churned_swept {m : UnorderedMap Nat Nat} (hk : k < 64) (ht : t < 2 ^ k)
    (hm : growthTest ample m = .ok (swept (2 ^ k) t)) :
    ∃ held, change m (ample, .insert t 10) = .ok (held, false) ∧ held.size = 1 ∧
      change held (ample, .erase t) = .ok (swept (2 ^ k) (t + 1), true) := by
  have hcount := bucketCount_swept (b := 2 ^ k) (t := t) (by omega)
  obtain ⟨turns, hturns⟩ : ∃ turns, 2 ^ k = turns + 1 := ⟨2 ^ k - 1, by omega⟩
  have hslot : slotAt (swept (2 ^ k) t).slots t = .empty := by
    rw [slotAt_swept, if_neg (Nat.lt_irrefl t)]
  have hprobe : prepareLoop (swept (2 ^ k) t).slots t (2 ^ k) (bucketFor (2 ^ k) t) none =
      .ok (t, true) := by
    rw [bucketFor_nat hk ht, hturns, prepareLoop, ← hturns, hslot]
    rfl
  let held : UnorderedMap Nat Nat := (swept (2 ^ k) t).markOccupied t t 10
  have hlength : t < (swept (2 ^ k) t).slots.length := by
    change t < (swept (2 ^ k) t).bucketCount
    omega
  have hheldCount : held.bucketCount = 2 ^ k := by
    change ((swept (2 ^ k) t).slots.set t _).length = 2 ^ k
    rw [length_set]
    exact hcount
  have hinsert : insertSlot ample m t 10 = .ok (held, t, true) := by
    rw [insertSlot, findOrPrepareInsert, hm]
    change (prepareLoop _ t (swept (2 ^ k) t).bucketCount (bucketFor (swept (2 ^ k) t).bucketCount t)
      none >>= _) >>= _ = _
    rw [hcount, hprobe]
    rfl
  have hheldSlot : slotAt held.slots t = .occupied t 10 := by
    change slotAt ((swept (2 ^ k) t).slots.set t (.occupied t 10)) t = _
    rw [slotAt_set hlength, if_pos rfl]
  have hfind : held.findSlot t = some t := by
    rw [findSlot, hheldCount, bucketFor_nat hk ht, hturns, findSlotLoop, hheldSlot]
    exact if_pos (beq_self_eq_true t)
  have htomb : held.tombstoneCount = t := by
    change (if (slotAt (swept (2 ^ k) t).slots t).isDeleted then _ else t) = t
    rw [hslot]
    rfl
  have hwide : 2 ^ k < 2 ^ 64 := Nat.pow_lt_pow_right (by decide) hk
  have herase : held.erase t = (swept (2 ^ k) (t + 1), true) := by
    have hslots : held.slots.set t .deleted = (swept (2 ^ k) (t + 1)).slots := by
      change ((swept (2 ^ k) t).slots.set t (.occupied t 10)).set t .deleted = _
      rw [set_set, set_swept ht, swept, replicate_succ', append_assoc]
      rfl
    have hone : wrapSub held.size 1 = 0 := by
      change wrapSub (wrapAdd 0 1) 1 = 0
      decide
    rw [erase, hfind]
    change (UnorderedMap.mk (held.slots.set t .deleted) (wrapSub held.size 1)
      (wrapAdd held.tombstoneCount 1), true) = _
    rw [hslots, hone, htomb, wrapAdd_of_lt (by omega)]
    rfl
  have hfirst : change m (ample, .insert t 10) = .ok (held, false) := by
    rw [change, insert, hinsert]
    rfl
  refine ⟨held, hfirst, ?_, ?_⟩
  · change wrapAdd 0 1 = 1
    decide
  · rw [change, herase]

/-- A run of changes that never holds more than one pair leads from `m` to `m'`. -/
def Reaches (m m' : UnorderedMap Nat Nat) : Prop :=
  ∃ calls found, Bounded 1 m calls ∧ changes m calls = .ok (m', found)

theorem Reaches.trans {m₁ m₂ m₃ : UnorderedMap Nat Nat} (h : Reaches m₁ m₂) (h' : Reaches m₂ m₃) :
    Reaches m₁ m₃ := by
  obtain ⟨calls, found, hsize, hrun⟩ := h
  obtain ⟨calls', found', hsize', hrun'⟩ := h'
  exact ⟨calls ++ calls', found ++ found', guarded_append hsize hrun hsize',
    run_append hrun hrun'⟩

theorem reaches_churned {m : UnorderedMap Nat Nat} (hsize : m.size ≤ 1) (hk : k < 64)
    (ht : t < 2 ^ k) (hm : growthTest ample m = .ok (swept (2 ^ k) t)) :
    Reaches m (swept (2 ^ k) (t + 1)) := by
  obtain ⟨held, hinsert, hheld, herase⟩ := churned_swept hk ht hm
  refine ⟨churned t, [false, true], ⟨hsize, fun m₁ r h => ?_⟩, ?_⟩
  · obtain ⟨rfl, -⟩ := Prod.mk.inj (ok.inj (hinsert.symm.trans h))
    exact ⟨Nat.le_of_eq hheld, fun _ _ _ => trivial⟩
  · simp only [churned, Library.Calls.run, hinsert, herase]

theorem reaches_maxLoad (hk : k < 64) (ht : t ≤ maxLoad (2 ^ k)) (hpos : 0 < t) :
    Reaches (swept (2 ^ k) 1) (swept (2 ^ k) t) := by
  induction t with
  | zero => cases hpos
  | succ t ih =>
    by_cases hzero : t = 0
    · subst hzero
      exact ⟨[], [], trivial, rfl⟩
    · have hlt := maxLoad_lt (Nat.two_pow_pos k)
      have hwide : 2 ^ k < 2 ^ 64 := Nat.pow_lt_pow_right (by decide) hk
      refine (ih (by omega) (by omega)).trans (reaches_churned (Nat.zero_le 1) hk (by omega) ?_)
      exact growthTest_swept hwide (by omega)

theorem reaches_swept (hk : k ≤ 55) : Reaches {} (swept (2 ^ (k + 4)) 1) := by
  induction k with
  | zero =>
    have hgrow : growthTest ample ({} : UnorderedMap Nat Nat) = .ok (swept (2 ^ 4) 0) := by decide
    exact reaches_churned (Nat.zero_le 1) (by decide) (by decide) hgrow
  | succ k ih =>
    have hsixteen : 2 ^ 4 ≤ 2 ^ (k + 4) := Nat.pow_le_pow_right (by decide) (by omega)
    have hwide : 2 ^ (k + 4) ≤ 2 ^ 58 := Nat.pow_le_pow_right (by decide) (by omega)
    have hload : 0 < maxLoad (2 ^ (k + 4)) := by
      unfold maxLoad
      omega
    have hfull := growthTest_full (b := 2 ^ (k + 4)) (by omega) (by omega)
    exact ((ih (by omega)).trans (reaches_maxLoad (by omega) le_rfl hload)).trans
      (reaches_churned (Nat.zero_le 1) (by omega) (Nat.two_pow_pos _) hfull)

/-- No factor below `2 ^ 55` bounds the table by the number of pairs. -/
theorem churn_unbounded : ¬∃ c < 2 ^ 55, ∀ (n : Nat) (calls : List (Memory × Change Nat Nat))
    (m : UnorderedMap Nat Nat) (found : List Bool), Bounded n {} calls →
      changes {} calls = .ok (m, found) → m.bucketCount ≤ c * max 16 n := by
  rintro ⟨c, hc, hbound⟩
  obtain ⟨calls, found, hsize, hrun⟩ := reaches_swept (Nat.le_refl 55)
  have hle := hbound 1 calls _ found hsize hrun
  rw [bucketCount_swept (by decide)] at hle
  change 2 ^ 59 ≤ c * 16 at hle
  omega

end Sweeping

section Witnesses

theorem churn_bounded_small : ∃ m found,
    changes {} ((List.range 13).flatMap churned) = .ok (m, found) ∧ m.bucketCount = 32 ∧
      m.bucketCount ≤ 4 * max 16 (1 + found.count true) := by
  have hsize : Bounded 1 ({} : UnorderedMap Nat Nat) ((range 13).flatMap churned) := by
    decide
  exact ⟨_, _, rfl, rfl, churn_bounded hsize rfl⟩

def filling : List (Memory × Change Nat Nat) :=
  (List.range 8).map fun key => (ample, .insert (key + 5) 10)

/-- Five tombstones that `reserve` keeps make the table grow before it holds eleven pairs. -/
theorem reserve_beside_tombstones : ∃ (m m₀ m' : UnorderedMap Nat Nat) (found found' : List Bool),
    changes {} ((List.range 5).flatMap churned) = .ok (m, found) ∧
      reserve ample m 11 = .ok m₀ ∧ Bounded 11 m₀ filling ∧
      changes m₀ filling = .ok (m', found') ∧ m'.size ≤ 11 ∧ m₀.bucketCount = 16 ∧
      m'.bucketCount = 32 := by
  refine ⟨_, _, _, _, _, rfl, rfl, by decide, rfl, by decide, rfl, rfl⟩

theorem reserve_undisturbed_small : ∃ m₀ m' found, reserve ample {} 3 = .ok m₀ ∧
    changes m₀ (churned 1 ++ churned 2) = .ok (m', found) ∧
      Undisturbed m₀ (churned 1 ++ churned 2) m' := by
  have hsize : Bounded 3 (⟨replicate 16 .empty, 0, 0⟩ : UnorderedMap Nat Nat)
      (churned 1 ++ churned 2) := by
    decide
  have hreserve : reserve ample ({} : UnorderedMap Nat Nat) 3 =
      .ok ⟨replicate 16 .empty, 0, 0⟩ := rfl
  refine ⟨⟨replicate 16 .empty, 0, 0⟩, _, _, hreserve, rfl, ?_⟩
  refine (reserve_undisturbed_iff hreserve hsize rfl).1.mpr ?_
  decide

end Witnesses

end Equilibrium.UnorderedMap
