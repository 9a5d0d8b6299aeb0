import Equilibrium.Containers.UnorderedMap
import Equilibrium.Library.CyclicProbe

/-! What the probe loops of `UnorderedMap` return, in terms of the places they
pass. A rehash or a copy keeps the stored pairs and leaves every one of them
reachable from its bucket without crossing an empty slot. -/

namespace Equilibrium.UnorderedMap

open Library.CyclicProbe List

variable {K V : Type}

def entries (slots : List (Slot K V)) : List (K × V) := slots.filterMap Slot.pair

def occupiedCount (slots : List (Slot K V)) : Nat := slots.countP Slot.isOccupied

def deletedCount (slots : List (Slot K V)) : Nat := slots.countP Slot.isDeleted

variable {i : Nat}

theorem slotAt_of_length_le {slots : List (Slot K V)} (h : slots.length ≤ i) :
    slotAt slots i = .empty := by
  simp [slotAt, h]

theorem lt_length_of_slotAt_ne {slots : List (Slot K V)} (h : slotAt slots i ≠ .empty) :
    i < slots.length := by
  by_contra hge
  exact h (slotAt_of_length_le (by omega))

theorem slotAt_set {slots : List (Slot K V)} {i : Nat} (hi : i < slots.length) (s : Slot K V)
    (j : Nat) : slotAt (slots.set i s) j = if i = j then s else slotAt slots j := by
  simp only [slotAt, getD_eq_getElem?_getD, getElem?_set, hi, if_true]
  split <;> rfl

@[simp] theorem slotAt_replicate (n i : Nat) :
    slotAt (replicate n (.empty : Slot K V)) i = .empty := by
  simp only [slotAt, getD_eq_getElem?_getD, getElem?_replicate]
  split <;> rfl

theorem exists_split {slots : List (Slot K V)} (hi : i < slots.length) :
    ∃ before t after, slotAt slots i = t ∧ slots = before ++ t :: after ∧
      ∀ s, slots.set i s = before ++ s :: after := by
  refine ⟨slots.take i, slots[i], slots.drop (i + 1), by simp [slotAt, hi], ?_, fun s => ?_⟩
  · rw [← drop_eq_getElem_cons hi, take_append_drop]
  · rw [set_eq_take_append_cons_drop, if_pos hi]

@[simp] theorem entries_append (xs ys : List (Slot K V)) :
    entries (xs ++ ys) = entries xs ++ entries ys := filterMap_append

@[simp] theorem entries_occupied (k : K) (v : V) (rest : List (Slot K V)) :
    entries (.occupied k v :: rest) = (k, v) :: entries rest := rfl

theorem entries_cons_of_free {s : Slot K V} (h : s.isOccupied = false) (rest : List (Slot K V)) :
    entries (s :: rest) = entries rest := by
  cases s with
  | occupied k v => simp [Slot.isOccupied] at h
  | empty => rfl
  | deleted => rfl

theorem mem_entries {slots : List (Slot K V)} {k : K} {v : V} :
    (k, v) ∈ entries slots ↔ ∃ i, slotAt slots i = .occupied k v := by
  simp only [entries, mem_filterMap]
  constructor
  · rintro ⟨s, hs, he⟩
    obtain ⟨i, hi, rfl⟩ := mem_iff_getElem.mp hs
    refine ⟨i, ?_⟩
    simp only [slotAt, getD_eq_getElem?_getD, getElem?_eq_getElem hi, Option.getD_some]
    cases hslot : slots[i] <;> simp_all [Slot.pair]
  · rintro ⟨i, hi⟩
    have hlt : i < slots.length := lt_length_of_slotAt_ne (by simp [hi])
    refine ⟨slots[i], getElem_mem hlt, ?_⟩
    have hget : slots[i] = .occupied k v := by
      rw [← hi]
      simp [slotAt, hlt]
    rw [hget]
    rfl

theorem entries_set_occupied {slots : List (Slot K V)} (hi : i < slots.length)
    (hfree : (slotAt slots i).isOccupied = false) (k : K) (v : V) :
    (entries (slots.set i (.occupied k v))).Perm ((k, v) :: entries slots) := by
  obtain ⟨before, t, after, hslot, hslots, hset⟩ := exists_split hi
  rw [hslot] at hfree
  rw [hset, hslots, entries_append, entries_append, entries_cons_of_free hfree, entries_occupied]
  exact perm_middle

theorem entries_set_deleted {slots : List (Slot K V)} {k : K} {v : V}
    (h : slotAt slots i = .occupied k v) :
    (entries slots).Perm ((k, v) :: entries (slots.set i .deleted)) := by
  have hi : i < slots.length := lt_length_of_slotAt_ne (by simp [h])
  obtain ⟨before, t, after, hslot, hslots, hset⟩ := exists_split hi
  rw [h] at hslot
  rw [hset, hslots, ← hslot, entries_append, entries_append, entries_occupied,
    entries_cons_of_free rfl]
  exact perm_middle

theorem length_entries (slots : List (Slot K V)) :
    (entries slots).length = occupiedCount slots := by
  rw [entries, length_filterMap_eq_countP]
  refine countP_congr fun s _ => ?_
  cases s <;> simp [Slot.pair, Slot.isOccupied]

theorem occupiedCount_set_occupied {slots : List (Slot K V)} (hi : i < slots.length)
    (hfree : (slotAt slots i).isOccupied = false) (k : K) (v : V) :
    occupiedCount (slots.set i (.occupied k v)) = occupiedCount slots + 1 := by
  simp only [← length_entries, (entries_set_occupied hi hfree k v).length_eq, length_cons]

theorem occupiedCount_set_deleted {slots : List (Slot K V)} {k : K} {v : V}
    (h : slotAt slots i = .occupied k v) :
    occupiedCount slots = occupiedCount (slots.set i .deleted) + 1 := by
  simp only [← length_entries, (entries_set_deleted h).length_eq, length_cons]

theorem deletedCount_set {slots : List (Slot K V)} (hi : i < slots.length) (s : Slot K V) :
    deletedCount (slots.set i s) + (slotAt slots i).isDeleted.toNat =
      deletedCount slots + s.isDeleted.toNat := by
  obtain ⟨before, t, after, hslot, hslots, hset⟩ := exists_split hi
  have hcount : ∀ t, deletedCount (before ++ t :: after) =
      deletedCount before + deletedCount after + t.isDeleted.toNat := by
    intro t
    cases t <;> simp [deletedCount, countP_append, countP_cons, Slot.isDeleted]
    omega
  rw [hset, hslot, hcount, hslots, hcount]
  omega

theorem occupiedCount_le_length (slots : List (Slot K V)) :
    occupiedCount slots ≤ slots.length := countP_le_length

theorem exists_empty {slots : List (Slot K V)}
    (h : occupiedCount slots + deletedCount slots < slots.length) :
    ∃ i < slots.length, slotAt slots i = .empty := by
  induction slots with
  | nil => simp at h
  | cons s rest ih =>
    have tail : (∃ i < rest.length, slotAt rest i = .empty) →
        ∃ i < (s :: rest).length, slotAt (s :: rest) i = .empty := by
      rintro ⟨i, hi, he⟩
      exact ⟨i + 1, by simpa using hi, by simpa [slotAt] using he⟩
    cases s with
    | empty => exact ⟨0, by simp, by simp [slotAt]⟩
    | occupied k v =>
      refine tail (ih ?_)
      simp only [occupiedCount, deletedCount, countP_cons, Slot.isOccupied, Slot.isDeleted,
        length_cons] at h ⊢
      simp at h
      omega
    | deleted =>
      refine tail (ih ?_)
      simp only [occupiedCount, deletedCount, countP_cons, Slot.isOccupied, Slot.isDeleted,
        length_cons] at h ⊢
      simp at h
      omega

theorem exists_vacant {slots : List (Slot K V)} (h : occupiedCount slots < slots.length) :
    ∃ i < slots.length, (slotAt slots i).isOccupied = false := by
  by_contra hall
  push Not at hall
  have hcount : occupiedCount slots = slots.length := by
    refine countP_eq_length.mpr fun s hs => ?_
    obtain ⟨i, hi, rfl⟩ := mem_iff_getElem.mp hs
    have := hall i hi
    simpa [slotAt, hi] using this
  omega

section Loops

variable {slots : List (Slot K V)} (hpow : ∃ k, slots.length = 2 ^ k)
include hpow

theorem length_pos_of_pow : 0 < slots.length := by
  obtain ⟨k, hk⟩ := hpow
  rw [hk]
  exact Nat.two_pow_pos k

theorem nextIndex_pos (start j : Nat) :
    nextIndex slots.length (pos slots.length start j) = pos slots.length start (j + 1) := by
  rw [nextIndex, and_pred_eq_mod hpow, pos_succ]

theorem bucketFor_lt [Hashable K] (key : K) : bucketFor slots.length key < slots.length := by
  rw [bucketFor, and_pred_eq_mod hpow]
  exact Nat.mod_lt _ (length_pos_of_pow hpow)

variable {d : Nat}

theorem vacantFrom_pos (start : Nat) {j turns : Nat} (hjd : j ≤ d) (hturns : d - j < turns)
    (hpass : ∀ l, j ≤ l → l < d → (slotAt slots (pos slots.length start l)).isOccupied)
    (hstop : (slotAt slots (pos slots.length start d)).isOccupied = false) :
    vacantFrom slots turns (pos slots.length start j) = .ok (pos slots.length start d) := by
  induction turns generalizing j with
  | zero => omega
  | succ turns ih =>
    unfold vacantFrom
    by_cases hlast : j = d
    · subst hlast
      cases hs : slotAt slots (pos slots.length start j) with
      | occupied k v =>
        rw [hs] at hstop
        cases hstop.symm
      | empty => rfl
      | deleted => rfl
    · have hocc := hpass j le_rfl (by omega)
      cases hs : slotAt slots (pos slots.length start j) with
      | occupied k v =>
        simp only
        rw [nextIndex_pos hpow]
        exact ih (by omega) (by omega) fun l hl => hpass l (by omega)
      | empty => simp [hs, Slot.isOccupied] at hocc
      | deleted => simp [hs, Slot.isOccupied] at hocc

variable {start : Nat}

theorem vacantFrom_spec (hs : start < slots.length) (hroom : occupiedCount slots < slots.length) :
    ∃ d < slots.length, vacantFrom slots slots.length start = .ok (pos slots.length start d) ∧
      (slotAt slots (pos slots.length start d)).isOccupied = false ∧
      ∀ l < d, (slotAt slots (pos slots.length start l)).isOccupied := by
  obtain ⟨d, hd, hstop, hpass⟩ := exists_first hs (exists_vacant hroom)
  have hpass' : ∀ l < d, (slotAt slots (pos slots.length start l)).isOccupied := by
    intro l hl
    simpa using hpass l hl
  refine ⟨d, hd, ?_, hstop, hpass'⟩
  have hrun := vacantFrom_pos hpow start (Nat.zero_le d) (by omega : d - 0 < slots.length)
    (fun l _ => hpass' l) hstop
  rwa [pos_zero hs] at hrun

/-- The slot does not end a search for the key: it is not empty and holds no equal key. -/
def Passes [BEq K] (key : K) (s : Slot K V) : Prop :=
  s ≠ .empty ∧ ∀ k v, s = .occupied k v → (k == key) = false

omit hpow in
theorem passes_deleted [BEq K] (key : K) : Passes key (.deleted : Slot K V) :=
  ⟨by simp, by simp⟩

variable {key : K}

theorem findSlotLoop_skip [BEq K] (start : Nat) {j turns : Nat} (hjd : j ≤ d)
    (hturns : d - j ≤ turns)
    (hpass : ∀ l, j ≤ l → l < d → Passes key (slotAt slots (pos slots.length start l))) :
    findSlotLoop slots key turns (pos slots.length start j) =
      findSlotLoop slots key (turns - (d - j)) (pos slots.length start d) := by
  induction turns generalizing j with
  | zero =>
    have : j = d := by omega
    rw [this, Nat.sub_self]
  | succ turns ih =>
    by_cases hlast : j = d
    · rw [hlast, Nat.sub_self, Nat.sub_zero]
    · have hcount : turns + 1 - (d - j) = turns - (d - (j + 1)) := by omega
      rw [findSlotLoop, hcount]
      obtain ⟨hne, hkey⟩ := hpass j le_rfl (by omega)
      have hrest := @ih (j + 1) (by omega) (by omega) fun l hl => hpass l (by omega)
      cases hs : slotAt slots (pos slots.length start j) with
      | empty => exact absurd hs hne
      | deleted =>
        simp only
        rw [nextIndex_pos hpow, hrest]
      | occupied k v =>
        simp only [hkey k v hs, Bool.false_eq_true, if_false]
        rw [nextIndex_pos hpow, hrest]

/-- The probe loop of an insertion passes the slots that cannot end it,
remembering the first tombstone. -/
theorem prepareLoop_skip [BEq K] {key : K} (start : Nat) {j d turns : Nat}
    (tombstone : Option Nat) (hjd : j ≤ d) (hturns : d - j ≤ turns)
    (hpass : ∀ l, j ≤ l → l < d → Passes key (slotAt slots (pos slots.length start l)))
    (htomb : ∀ t, tombstone = some t →
      ∃ e < j, t = pos slots.length start e ∧ slotAt slots t = .deleted) :
    ∃ tombstone', (∀ t, tombstone' = some t →
        ∃ e < d, t = pos slots.length start e ∧ slotAt slots t = .deleted) ∧
      prepareLoop slots key turns (pos slots.length start j) tombstone =
        prepareLoop slots key (turns - (d - j)) (pos slots.length start d) tombstone' := by
  induction turns generalizing j tombstone with
  | zero =>
    have : j = d := by omega
    subst this
    exact ⟨tombstone, htomb, by rw [Nat.sub_self]⟩
  | succ turns ih =>
    by_cases hlast : j = d
    · subst hlast
      exact ⟨tombstone, htomb, by rw [Nat.sub_self, Nat.sub_zero]⟩
    · have hcount : turns + 1 - (d - j) = turns - (d - (j + 1)) := by omega
      rw [prepareLoop, hcount]
      obtain ⟨hne, hkey⟩ := hpass j le_rfl (by omega)
      have htail : ∀ l, j + 1 ≤ l → l < d → Passes key (slotAt slots (pos slots.length start l)) :=
        fun l hl => hpass l (by omega)
      cases hs : slotAt slots (pos slots.length start j) with
      | empty => exact absurd hs hne
      | deleted =>
        simp only
        rw [nextIndex_pos hpow]
        refine ih _ (by omega) (by omega) htail fun t ht => ?_
        cases tombstone with
        | none =>
          have : t = pos slots.length start j := by simpa using ht.symm
          exact ⟨j, by omega, this, this ▸ hs⟩
        | some t' =>
          obtain ⟨e, he, hpos, hdel⟩ := htomb t (by simpa using ht)
          exact ⟨e, by omega, hpos, hdel⟩
      | occupied k v =>
        simp only [hkey k v hs, Bool.false_eq_true, if_false]
        rw [nextIndex_pos hpow]
        refine ih _ (by omega) (by omega) htail fun t ht => ?_
        obtain ⟨e, he, hpos, hdel⟩ := htomb t ht
        exact ⟨e, by omega, hpos, hdel⟩

theorem prepareLoop_fresh [BEq K] (hs : start < slots.length) (hd : d < slots.length)
    (hpass : ∀ l < d, Passes key (slotAt slots (pos slots.length start l)))
    (hempty : slotAt slots (pos slots.length start d) = .empty) :
    ∃ e ≤ d, (slotAt slots (pos slots.length start e)).isOccupied = false ∧
      prepareLoop slots key slots.length start none = .ok (pos slots.length start e, true) := by
  obtain ⟨tombstone, htomb, hskip⟩ := prepareLoop_skip hpow start none (Nat.zero_le d)
    (by omega : d - 0 ≤ slots.length) (fun l _ => hpass l) (by simp)
  rw [pos_zero hs] at hskip
  obtain ⟨turns, hturns⟩ : ∃ turns, slots.length - (d - 0) = turns + 1 :=
    ⟨slots.length - d - 1, by omega⟩
  rw [hskip, hturns, prepareLoop, hempty]
  cases tombstone with
  | none => exact ⟨d, le_rfl, by simp [hempty, Slot.isOccupied], rfl⟩
  | some t =>
    obtain ⟨e, he, rfl, hdel⟩ := htomb t rfl
    exact ⟨e, by omega, by simp [hdel, Slot.isOccupied], rfl⟩

theorem prepareLoop_found [BEq K] {k : K} {v : V} (hs : start < slots.length)
    (hd : d < slots.length) (hpass : ∀ l < d, Passes key (slotAt slots (pos slots.length start l)))
    (hslot : slotAt slots (pos slots.length start d) = .occupied k v) (hkey : (k == key) = true) :
    prepareLoop slots key slots.length start none = .ok (pos slots.length start d, false) := by
  obtain ⟨tombstone, -, hskip⟩ := prepareLoop_skip hpow start none (Nat.zero_le d)
    (by omega : d - 0 ≤ slots.length) (fun l _ => hpass l) (by simp)
  rw [pos_zero hs] at hskip
  obtain ⟨turns, hturns⟩ : ∃ turns, slots.length - (d - 0) = turns + 1 :=
    ⟨slots.length - d - 1, by omega⟩
  rw [hskip, hturns, prepareLoop, hslot]
  simp [hkey]

theorem prepareLoop_ends [BEq K] (key : K) (hs : start < slots.length)
    (hempty : ∃ i < slots.length, slotAt slots i = .empty) :
    ∃ d < slots.length, ∃ fresh, prepareLoop slots key slots.length start none =
        .ok (pos slots.length start d, fresh) ∧
      (fresh = true → (slotAt slots (pos slots.length start d)).isOccupied = false) := by
  obtain ⟨i, hi, he⟩ := hempty
  obtain ⟨d, hd, hstop, hpass⟩ := exists_first (p := fun i => ¬Passes key (slotAt slots i)) hs
    ⟨i, hi, fun h => h.1 he⟩
  have hpass' : ∀ l < d, Passes key (slotAt slots (pos slots.length start l)) :=
    fun l hl => not_not.mp (hpass l hl)
  cases hslot : slotAt slots (pos slots.length start d) with
  | empty =>
    obtain ⟨e, hed, hfree, hrun⟩ := prepareLoop_fresh hpow hs hd hpass' hslot
    exact ⟨e, by omega, true, hrun, fun _ => hfree⟩
  | deleted => exact absurd (hslot ▸ passes_deleted key) hstop
  | occupied k v =>
    have hkey : (k == key) = true := by
      by_contra hne
      refine hstop ⟨by simp [hslot], fun k' v' h => ?_⟩
      rw [hslot] at h
      cases h
      simpa using hne
    exact ⟨d, hd, false, prepareLoop_found hpow hs hd hpass' hslot hkey, by simp⟩

end Loops

/-! Rehash and copy of `UnorderedMap`. `Loaded` ties the counters to the slots
and bounds the load; `Chained` says that every stored pair is reached from its
bucket before an empty slot. -/

open AllocationSize

variable {K V : Type}

/-- Probing for the key reaches slot `i` before an empty slot. -/
def Reached [Hashable K] (slots : List (Slot K V)) (i : Nat) (key : K) : Prop :=
  ∃ d < slots.length, pos slots.length (bucketFor slots.length key) d = i ∧
    ∀ l < d, slotAt slots (pos slots.length (bucketFor slots.length key) l) ≠ .empty

def Chained [Hashable K] (slots : List (Slot K V)) : Prop :=
  ∀ i k v, slotAt slots i = .occupied k v → Reached slots i k

/-- The counters count the slots, the table is null or a power of two of at
least 16 slots, and pairs and tombstones fill at most three quarters of it. -/
structure Loaded (m : UnorderedMap K V) : Prop where
  tombstones : m.tombstoneCount = deletedCount m.slots
  size : m.size = occupiedCount m.slots
  buckets : m.bucketCount = 0 ∨ ∃ k, 4 ≤ k ∧ k < 64 ∧ m.bucketCount = 2 ^ k
  load : 4 * (m.size + m.tombstoneCount) ≤ 3 * m.bucketCount

theorem loaded_default : Loaded ({} : UnorderedMap K V) where
  tombstones := rfl
  size := rfl
  buckets := .inl rfl
  load := by simp

section Loaded

variable {m : UnorderedMap K V} (hm : Loaded m)
include hm

theorem Loaded.bucketCount_lt : m.bucketCount < 2 ^ 64 := by
  obtain h | ⟨k, -, hk, h⟩ := hm.buckets
  · omega
  · rw [h]
    exact Nat.pow_lt_pow_right (by omega) hk

section

variable (hpos : m.bucketCount ≠ 0)
include hpos

theorem Loaded.pow_of_pos : ∃ k, m.slots.length = 2 ^ k := by
  obtain h | ⟨k, -, -, h⟩ := hm.buckets
  · exact absurd h hpos
  · exact ⟨k, h⟩

theorem Loaded.sixteen_le : 16 ≤ m.bucketCount := by
  obtain h | ⟨k, hk, -, h⟩ := hm.buckets
  · exact absurd h hpos
  · rw [h]
    calc
      16 = 2 ^ 4 := rfl
      _ ≤ 2 ^ k := Nat.pow_le_pow_right (by omega) hk

theorem Loaded.exists_empty : ∃ i < m.slots.length, slotAt m.slots i = .empty := by
  refine UnorderedMap.exists_empty ?_
  have hload := hm.load
  rw [hm.size, hm.tombstones] at hload
  have : m.bucketCount = m.slots.length := rfl
  omega

end

end Loaded

theorem chained_of_no_entry [Hashable K] {slots : List (Slot K V)}
    (h : ∀ i, slotAt slots i = .empty ∨ slotAt slots i = .deleted) : Chained slots := by
  intro i k v hslot
  obtain he | hd := h i
  · simp [he] at hslot
  · simp [hd] at hslot

theorem Chained.set_occupied [Hashable K] {slots : List (Slot K V)} (hc : Chained slots) {k : K}
    (v : V) {d : Nat} (hd : d < slots.length)
    (hreach : ∀ l < d, slotAt slots (pos slots.length (bucketFor slots.length k) l) ≠ .empty) :
    Chained (slots.set (pos slots.length (bucketFor slots.length k) d) (.occupied k v)) := by
  have hi := pos_lt (by omega : 0 < slots.length) (bucketFor slots.length k) d
  generalize hidx : pos slots.length (bucketFor slots.length k) d = idx at hi ⊢
  have keep : ∀ j, slotAt slots j ≠ .empty → slotAt (slots.set idx (.occupied k v)) j ≠ .empty := by
    intro j hj
    rw [slotAt_set hi]
    split
    · simp
    · exact hj
  intro i k' v' hslot
  rw [slotAt_set hi] at hslot
  simp only [Reached, length_set]
  split at hslot
  · next heq =>
    obtain ⟨rfl, rfl⟩ : k = k' ∧ v = v' := by simpa using hslot
    exact ⟨d, hd, hidx.trans heq, fun l hl => keep _ (hreach l hl)⟩
  · obtain ⟨e, he, hpos, hne⟩ := hc i k' v' hslot
    exact ⟨e, he, hpos, fun l hl => keep _ (hne l hl)⟩

theorem Chained.set_deleted [Hashable K] {slots : List (Slot K V)} (hc : Chained slots) {i : Nat}
    (hi : i < slots.length) : Chained (slots.set i .deleted) := by
  intro j k v hslot
  rw [slotAt_set hi] at hslot
  split at hslot
  · cases hslot
  · obtain ⟨d, hd, hpos, hne⟩ := hc j k v hslot
    simp only [Reached, length_set]
    refine ⟨d, hd, hpos, fun l hl => ?_⟩
    rw [slotAt_set hi]
    split
    · simp
    · exact hne l hl

theorem relocate_spec [Hashable K] (src table : List (Slot K V)) (placed : Nat)
    (hpow : ∃ k, table.length = 2 ^ k)
    (hroom : occupiedCount table + occupiedCount src ≤ table.length)
    (hplaced : placed + occupiedCount src < 2 ^ 64) (hclean : deletedCount table = 0)
    (hchain : Chained table) :
    ∃ table', relocate table placed src = .ok (table', placed + occupiedCount src) ∧
      table'.length = table.length ∧ deletedCount table' = 0 ∧
      (entries table').Perm (entries src ++ entries table) ∧ Chained table' := by
  induction src generalizing table placed with
  | nil => exact ⟨table, by simp [relocate, occupiedCount], rfl, hclean, .refl _, hchain⟩
  | cons s rest ih =>
    have skip : s.isOccupied = false → occupiedCount (s :: rest) = occupiedCount rest := by
      intro h
      simp [occupiedCount, h]
    cases s with
    | empty =>
      exact ih _ _ hpow hroom hplaced hclean hchain
    | deleted =>
      exact ih _ _ hpow hroom hplaced hclean hchain
    | occupied k v =>
      have hcount : occupiedCount (.occupied k v :: rest) = occupiedCount rest + 1 := by
        simp [occupiedCount, countP_cons, Slot.isOccupied]
      obtain ⟨d, hd, hrun, hfree, hpass⟩ :=
        vacantFrom_spec hpow (bucketFor_lt hpow k) (by omega)
      have hidx := pos_lt (by omega : 0 < table.length) (bucketFor table.length k) d
      have hdel := deletedCount_set hidx (.occupied k v)
      obtain ⟨table', hrelocate, hlen, hdel', hperm, hchain'⟩ := ih
        (table.set (pos table.length (bucketFor table.length k) d) (.occupied k v))
        (placed + 1) (by simpa using hpow)
        (by rw [occupiedCount_set_occupied hidx hfree, length_set]; omega) (by omega)
        (by simp only [Slot.isDeleted, Bool.toNat_false] at hdel; omega)
        (hchain.set_occupied v hd fun l hl => by
          have := hpass l hl
          cases h : slotAt table (pos table.length (bucketFor table.length k) l) <;>
            simp_all [Slot.isOccupied])
      refine ⟨table', ?_, by simpa using hlen, hdel', ?_, hchain'⟩
      · rw [relocate, hrun]
        simp only [bind, Except.bind]
        rw [wrapAdd_of_lt (by omega), hrelocate, hcount]
        congr 2
        omega
      · refine hperm.trans ?_
        refine ((entries_set_occupied hidx hfree k v).append_left (entries rest)).trans ?_
        rw [entries_occupied]
        exact perm_middle

theorem allocSlots_safe (mem : Memory) (count : Nat) :
    (allocSlots mem count : Outcome (List (Slot K V))).Safe
      (· = replicate count .empty) := by
  refine (checkedAllocationSize_safe count mem.slotSize).bind fun bytes _ => ?_
  split
  · exact Outcome.safe_ok rfl
  · exact .inl rfl

@[simp] theorem occupiedCount_replicate (n : Nat) :
    occupiedCount (replicate n (.empty : Slot K V)) = 0 := by
  simp [occupiedCount, countP_replicate, Slot.isOccupied]

@[simp] theorem deletedCount_replicate (n : Nat) :
    deletedCount (replicate n (.empty : Slot K V)) = 0 := by
  simp [deletedCount, countP_replicate, Slot.isDeleted]

@[simp] theorem entries_replicate (n : Nat) : entries (replicate n (.empty : Slot K V)) = [] :=
  length_eq_zero_iff.mp (by rw [length_entries, occupiedCount_replicate])

theorem relocate_fresh [Hashable K] (src : List (Slot K V)) {count k : Nat} (hcount : count = 2 ^ k)
    (hk : k < 64) (hroom : occupiedCount src ≤ count) :
    ∃ table, relocate (replicate count .empty) 0 src = .ok (table, occupiedCount src) ∧
      table.length = count ∧ deletedCount table = 0 ∧ (entries table).Perm (entries src) ∧
      Chained table := by
  have hlt : count < 2 ^ 64 := by
    rw [hcount]
    exact Nat.pow_lt_pow_right (by omega) hk
  obtain ⟨table, hrun, hlen, hdel, hperm, hchain⟩ := relocate_spec src
    (replicate count .empty) 0 ⟨k, by simpa using hcount⟩
    (by simpa using hroom) (by omega) (by simp) (chained_of_no_entry (by simp))
  exact ⟨table, by simpa using hrun, by simpa using hlen, hdel, by simpa using hperm, hchain⟩

theorem occupiedCount_eq_of_perm {xs ys : List (Slot K V)} (h : (entries xs).Perm (entries ys)) :
    occupiedCount xs = occupiedCount ys := by
  rw [← length_entries, ← length_entries, h.length_eq]

def Sized (bucketCount : Nat) : Prop :=
  bucketCount = 0 ∨ ∃ k, 4 ≤ k ∧ k < 64 ∧ bucketCount = 2 ^ k

theorem growCount_safe {bucketCount target : Nat} (hsized : Sized bucketCount)
    (htarget : target = 0 ∨ ∃ k, 4 ≤ k ∧ k < 64 ∧ target = 2 ^ k ∧ bucketCount < target) :
    (growCount bucketCount target).Safe (fun count => target ≤ count ∧
      2 * bucketCount ≤ count ∧ ∃ k, 4 ≤ k ∧ k < 64 ∧ count = 2 ^ k) := by
  unfold growCount
  obtain rfl | ⟨k, hk, hk', rfl, hlt⟩ := htarget
  · rw [if_neg (by omega)]
    by_cases hzero : bucketCount = 0
    · rw [if_pos hzero]
      exact Outcome.safe_ok ⟨by omega, by omega, 4, le_rfl, by omega, rfl⟩
    · rw [if_neg hzero]
      obtain h | ⟨k, hk, hk', h⟩ := hsized
      · exact absurd h hzero
      · refine (checkedCountProduct_safe bucketCount 2).mono fun newCount => ?_
        rintro ⟨hnew, hmax⟩
        have hpow : newCount = 2 ^ (k + 1) := by rw [hnew, h, pow_succ]
        refine ⟨by omega, by omega, k + 1, by omega, ?_, hpow⟩
        by_contra hge
        have : k = 63 := by omega
        rw [h, this, memSizeMax] at hmax
        omega
  · rw [if_pos (Nat.two_pow_pos k)]
    refine Outcome.safe_ok ⟨le_rfl, ?_, k, hk, hk', rfl⟩
    obtain h | ⟨j, -, -, h⟩ := hsized
    · omega
    · rw [h] at hlt ⊢
      have : j < k := (Nat.pow_lt_pow_iff_right (by omega)).mp hlt
      calc
        2 * 2 ^ j = 2 ^ (j + 1) := by rw [pow_succ]; omega
        _ ≤ 2 ^ k := Nat.pow_le_pow_right (by omega) this

/-- What a rehash of `m` into `m'` does to the table, whatever the counters of `m` say. -/
structure Relocated [Hashable K] (m m' : UnorderedMap K V) : Prop where
  size : m'.size = m.size
  tombstones : m'.tombstoneCount = 0
  clean : deletedCount m'.slots = 0
  doubled : 2 * m.bucketCount ≤ m'.bucketCount
  buckets : ∃ k, 4 ≤ k ∧ k < 64 ∧ m'.bucketCount = 2 ^ k
  entries : (entries m'.slots).Perm (entries m.slots)
  chained : Chained m'.slots

theorem Relocated.sixteen [Hashable K] {m m' : UnorderedMap K V} (h : Relocated m m') :
    16 ≤ m'.bucketCount := by
  obtain ⟨k, hk, -, hcount⟩ := h.buckets
  rw [hcount]
  calc
    16 = 2 ^ 4 := rfl
    _ ≤ 2 ^ k := Nat.pow_le_pow_right (by omega) hk

theorem growAndRehash_relocated [Hashable K] (mem : Memory) {m : UnorderedMap K V}
    (hsized : Sized m.bucketCount) {target : Nat}
    (htarget : target = 0 ∨ ∃ k, 4 ≤ k ∧ k < 64 ∧ target = 2 ^ k ∧ m.bucketCount < target) :
    (growAndRehash mem m target).Safe (fun m' => Relocated m m' ∧ target ≤ m'.bucketCount) := by
  refine (growCount_safe hsized htarget).bind fun count => ?_
  rintro ⟨hle, hdouble, k, hk, hk', hcount⟩
  refine (allocSlots_safe mem count).bind fun slots => ?_
  rintro rfl
  have hlen : m.bucketCount = m.slots.length := rfl
  have hocc := occupiedCount_le_length m.slots
  obtain ⟨table, hrun, htable, hdel, hperm, hchain⟩ :=
    relocate_fresh m.slots hcount hk' (by omega)
  rw [hrun]
  refine Outcome.safe_ok ⟨⟨rfl, rfl, hdel, ?_, ⟨k, hk, hk', htable.trans hcount⟩, hperm,
    hchain⟩, ?_⟩
  · simpa only [bucketCount, htable] using hdouble
  · simpa only [bucketCount, htable] using hle

/-- What a rehash of `m` into `m'` keeps, drops and makes room for. -/
structure Rehashed [Hashable K] (m m' : UnorderedMap K V) : Prop where
  loaded : Loaded m'
  size : m'.size = m.size
  tombstones : m'.tombstoneCount = 0
  doubled : 2 * m.bucketCount ≤ m'.bucketCount
  sixteen : 16 ≤ m'.bucketCount
  entries : (entries m'.slots).Perm (entries m.slots)
  chained : Chained m'.slots

theorem Relocated.rehashed [Hashable K] {m m' : UnorderedMap K V} (h : Relocated m m')
    (hm : Loaded m) : Rehashed m m' := by
  have hdoubled := h.doubled
  refine ⟨⟨?_, ?_, .inr h.buckets, ?_⟩, h.size, h.tombstones, hdoubled, h.sixteen, h.entries,
    h.chained⟩
  · rw [h.tombstones, h.clean]
  · rw [h.size, hm.size, occupiedCount_eq_of_perm h.entries]
  · have hload := hm.load
    rw [h.size, h.tombstones]
    omega

theorem growAndRehash_safe [Hashable K] (mem : Memory) {m : UnorderedMap K V} (hm : Loaded m)
    {target : Nat}
    (htarget : target = 0 ∨ ∃ k, 4 ≤ k ∧ k < 64 ∧ target = 2 ^ k ∧ m.bucketCount < target) :
    (growAndRehash mem m target).Safe (fun m' => Rehashed m m' ∧ target ≤ m'.bucketCount) :=
  (growAndRehash_relocated mem hm.buckets htarget).mono fun _ h => ⟨h.1.rehashed hm, h.2⟩

/-- The growth test leaves the pairs alone and makes room for one more. -/
structure Grown [Hashable K] (m m' : UnorderedMap K V) : Prop where
  loaded : Loaded m'
  buckets : m'.bucketCount ≠ 0
  room : 4 * (m'.size + m'.tombstoneCount + 1) ≤ 3 * m'.bucketCount
  size : m'.size = m.size
  entries : (entries m'.slots).Perm (entries m.slots)
  chained : Chained m.slots → Chained m'.slots

theorem growthTest_safe [Hashable K] (mem : Memory) {m : UnorderedMap K V} (hm : Loaded m) :
    (growthTest mem m).Safe (Grown m) := by
  unfold growthTest
  have hload := hm.load
  have hlt := hm.bucketCount_lt
  split
  · refine (growAndRehash_safe mem hm (.inl rfl)).mono fun m' => ?_
    rintro ⟨hre, -⟩
    have hsixteen := hre.sixteen
    have hdoubled := hre.doubled
    refine ⟨hre.loaded, by omega, ?_, hre.size, hre.entries, fun _ => hre.chained⟩
    rw [hre.tombstones, hre.size]
    by_cases hzero : m.bucketCount = 0
    · omega
    · have := hm.sixteen_le hzero
      omega
  · next hno =>
    push Not at hno
    obtain ⟨hpos, hroom⟩ := hno
    rw [wrapAdd_of_lt (by omega : m.size + m.tombstoneCount < 2 ^ 64),
      wrapAdd_of_lt (by omega)] at hroom
    refine Outcome.safe_ok ⟨hm, hpos, ?_, rfl, .refl _, id⟩
    unfold maxLoad at hroom
    omega

theorem Grown.exists_empty [Hashable K] {m m' : UnorderedMap K V} (h : Grown m m') :
    ∃ i < m'.slots.length, slotAt m'.slots i = .empty :=
  h.loaded.exists_empty h.buckets

end Equilibrium.UnorderedMap
