import Equilibrium.Containers.UnorderedMapCounters
import Equilibrium.Library.FiniteMap

/-! The pairs of an `UnorderedMap` against a finite map, without what its counters say. The
counters decide when a table is moved and whether a probe for a free slot ends; a call that
returns has done to the pairs what it does to the finite map. -/

namespace Equilibrium.UnorderedMap

open AllocationSize Library Library.CyclicProbe

variable {K V : Type}

variable {k key : K} {v : V}

theorem Chained.first_match [BEq K] [Hashable K] [LawfulHashable K] {slots : List (Slot K V)}
    (hc : Chained slots) {i : Nat} (hslot : slotAt slots i = .occupied k v)
    (hkey : (k == key) = true) : ∃ d < slots.length,
      (∀ l < d, Passes key (slotAt slots (pos slots.length (bucketFor slots.length key) l))) ∧
      ∃ k' v', slotAt slots (pos slots.length (bucketFor slots.length key) d) = .occupied k' v' ∧
        (k' == key) = true := by
  classical
  have hbucket : bucketFor slots.length k = bucketFor slots.length key := by
    rw [bucketFor, bucketFor, hash_eq hkey]
  obtain ⟨e, he, hpos, hne⟩ := hc i k v hslot
  rw [hbucket] at hpos hne
  have hex : ∃ d, ¬Passes key (slotAt slots (pos slots.length (bucketFor slots.length key) d)) := by
    refine ⟨e, fun hp => ?_⟩
    have := hp.2 k v (hpos ▸ hslot)
    simp [hkey] at this
  have hle : Nat.find hex ≤ e := by
    refine Nat.find_min' hex fun hp => ?_
    have := hp.2 k v (hpos ▸ hslot)
    simp [hkey] at this
  have hstop := Nat.find_spec hex
  refine ⟨Nat.find hex, by omega, fun l hl => not_not.mp (Nat.find_min hex hl), ?_⟩
  generalize Nat.find hex = d at hle hstop ⊢
  cases hs : slotAt slots (pos slots.length (bucketFor slots.length key) d) with
  | empty =>
    by_cases hlast : d = e
    · rw [hlast, hpos, hslot] at hs
      cases hs
    · exact absurd hs (hne d (by omega))
  | deleted => exact absurd (hs ▸ passes_deleted key) hstop
  | occupied k' v' =>
    refine ⟨k', v', rfl, ?_⟩
    by_contra hno
    refine hstop ⟨by simp [hs], fun k'' v'' h => ?_⟩
    rw [hs] at h
    cases h
    simpa using hno

/-- A probe for a slot that returns met an empty slot or an equal key behind slots that it
passed. -/
theorem prepareLoop_returns [BEq K] {slots : List (Slot K V)} (hpow : ∃ k, slots.length = 2 ^ k)
    {start idx : Nat} {fresh : Bool} (hs : start < slots.length)
    (h : prepareLoop slots key slots.length start none = .ok (idx, fresh)) :
    ∃ d < slots.length, (∀ l < d, Passes key (slotAt slots (pos slots.length start l))) ∧
      ((fresh = true ∧ slotAt slots (pos slots.length start d) = .empty ∧
          ∃ e ≤ d, idx = pos slots.length start e ∧
            (slotAt slots (pos slots.length start e)).isOccupied = false) ∨
        (fresh = false ∧ idx = pos slots.length start d ∧
          ∃ k v, slotAt slots (pos slots.length start d) = .occupied k v ∧ (k == key) = true)) := by
  by_cases hex : ∃ i < slots.length, ¬Passes key (slotAt slots i)
  case pos =>
    obtain ⟨d, hd, hstop, hpass⟩ := exists_first hs hex
    have hpass' : ∀ l < d, Passes key (slotAt slots (pos slots.length start l)) :=
      fun l hl => not_not.mp (hpass l hl)
    refine ⟨d, hd, hpass', ?_⟩
    cases hslot : slotAt slots (pos slots.length start d) with
    | empty =>
      obtain ⟨e, hed, hfree, hrun⟩ := prepareLoop_fresh hpow hs hd hpass' hslot
      rw [h] at hrun
      cases hrun
      exact .inl ⟨rfl, rfl, e, hed, rfl, hfree⟩
    | deleted => exact absurd (hslot ▸ passes_deleted key) hstop
    | occupied k v =>
      have hkey : (k == key) = true := by
        by_contra hne
        refine hstop ⟨by simp [hslot], fun k' v' h => ?_⟩
        rw [hslot] at h
        cases h
        simpa using hne
      have hrun := prepareLoop_found hpow hs hd hpass' hslot hkey
      rw [h] at hrun
      cases hrun
      exact .inr ⟨rfl, rfl, k, v, rfl, hkey⟩
  case neg =>
    have hpass (l : Nat) : Passes key (slotAt slots (pos slots.length start l)) := by
      by_contra hstop
      exact hex ⟨_, pos_lt (by omega) start l, hstop⟩
    obtain ⟨tombstone, -, hskip⟩ := prepareLoop_skip hpow start none (Nat.zero_le slots.length)
      (by omega : slots.length - 0 ≤ slots.length) (fun l _ _ => hpass l) (by simp)
    rw [pos_zero hs, Nat.sub_zero, Nat.sub_self, h] at hskip
    cases hskip

/-- The table stores the pairs of the finite map where probing finds them. -/
structure Stores [BEq K] [Hashable K] (m : UnorderedMap K V) (a : FiniteMap K V) : Prop where
  sized : Sized m.bucketCount
  chained : Chained m.slots
  entries : (entries m.slots).Perm a.entries

variable [BEq K] [Hashable K] {m m' : UnorderedMap K V} {a : FiniteMap K V}

theorem stores_empty : Stores ({} : UnorderedMap K V) FiniteMap.empty where
  sized := .inl rfl
  chained := chained_of_no_entry fun i => .inl (by simp [slotAt])
  entries := .refl _

section

variable (h : Stores m a)
include h

theorem Stores.pow (hpos : m.bucketCount ≠ 0) : ∃ k, m.slots.length = 2 ^ k := by
  obtain hzero | ⟨k, -, -, hk⟩ := h.sized
  · exact absurd hzero hpos
  · exact ⟨k, hk⟩

theorem Stores.mem {i : Nat} {k : K} {v : V} (hslot : slotAt m.slots i = .occupied k v) :
    (k, v) ∈ a.entries :=
  h.entries.mem_iff.mp (mem_entries.mpr ⟨i, hslot⟩)

theorem Stores.findSlot_eq_none (hnone : a.lookup key = none) : m.findSlot key = none := by
  cases hfind : m.findSlot key with
  | none => rfl
  | some i =>
    obtain ⟨k, v, hslot, hkey⟩ := findSlot_some hfind
    have := FiniteMap.lookup_eq_none.mp hnone (k, v) (h.mem hslot)
    simp [hkey] at this

theorem Stores.clear : Stores m.clear FiniteMap.empty := by
  have hempty (i : Nat) : slotAt m.clear.slots i = .empty ∨ slotAt m.clear.slots i = .deleted := by
    by_cases hi : i < m.clear.slots.length
    · have hmem : slotAt m.clear.slots i ∈ m.clear.slots := by simp [slotAt, hi]
      obtain ⟨s, -, hs⟩ := List.mem_map.mp hmem
      cases s <;> simp_all [destroySlot]
    · exact .inl (slotAt_of_length_le (by omega))
  refine ⟨?_, chained_of_no_entry hempty, ?_⟩
  · simpa [bucketCount, UnorderedMap.clear] using h.sized
  · have hnil : UnorderedMap.entries m.clear.slots = [] := by
      refine List.eq_nil_iff_forall_not_mem.mpr fun e he => ?_
      obtain ⟨i, hi⟩ := mem_entries.mp he
      obtain hslot | hslot := hempty i
      · rw [hi] at hslot
        cases hslot
      · rw [hi] at hslot
        cases hslot
    rw [hnil]
    exact .refl _

theorem Stores.relocated (hre : Relocated m m') : Stores m' a :=
  ⟨.inr hre.buckets, hre.chained, hre.entries.trans h.entries⟩

theorem Stores.reserve {mem : Memory} {count : Nat} (hrun : reserve mem m count = .ok m') :
    Stores m' a := by
  obtain rfl | hre := (reserve_relocated mem h.sized count).of_eq_ok hrun
  · exact h
  · exact h.relocated hre

theorem Stores.growthTest {mem : Memory} (hrun : growthTest mem m = .ok m') :
    Stores m' a ∧ m'.bucketCount ≠ 0 := by
  unfold UnorderedMap.growthTest at hrun
  split at hrun
  case isTrue =>
    have hre := ((growAndRehash_relocated mem h.sized (.inl rfl)).of_eq_ok hrun).1
    have := hre.sixteen
    exact ⟨h.relocated hre, by omega⟩
  case isFalse hno =>
    cases hrun
    exact ⟨h, fun hzero => hno (.inl hzero)⟩

end

variable [EquivBEq K]

theorem Stores.storeAt (h : Stores m a) {idx : Nat} (hslot : slotAt m.slots idx = .occupied k v)
    (hkey : (k == key) = true) (val : V) : Stores (m.storeAt idx val) (a.replace key val) := by
  have hidx : idx < m.slots.length := lt_length_of_slotAt_ne (by simp [hslot])
  simp only [UnorderedMap.storeAt, hslot]
  refine ⟨?_, ?_, ?_⟩
  · simpa [bucketCount] using h.sized
  · obtain ⟨d, hd, hpos, hne⟩ := h.chained idx k v hslot
    have := h.chained.set_occupied val hd hne
    rwa [hpos] at this
  · obtain ⟨before, t, after, ht, hslots, hset⟩ := exists_split hidx
    rw [hslot] at ht
    have hperm := h.entries
    rw [hslots, ← ht, entries_append, entries_occupied] at hperm
    rw [hset, entries_append, entries_occupied]
    exact FiniteMap.perm_replace hperm hkey val

variable [LawfulHashable K]

section

variable (h : Stores m a)
include h

theorem Stores.first_match (hmem : (k, v) ∈ a.entries) (hkey : (k == key) = true) :
    m.bucketCount ≠ 0 ∧ ∃ d < m.slots.length,
      (∀ l < d, Passes key (slotAt m.slots (pos m.slots.length (bucketFor m.slots.length key) l))) ∧
      slotAt m.slots (pos m.slots.length (bucketFor m.slots.length key) d) = .occupied k v := by
  obtain ⟨i, hslot⟩ := mem_entries.mp (h.entries.mem_iff.mpr hmem)
  obtain ⟨d, hd, hpass, k', v', hslot', hkey'⟩ := h.chained.first_match hslot hkey
  have heq := FiniteMap.eq_of_pairwise a.distinct (h.mem hslot') hmem hkey' hkey
  obtain ⟨rfl, rfl⟩ : k' = k ∧ v' = v := by simpa using heq
  refine ⟨?_, d, hd, hpass, hslot'⟩
  simp only [bucketCount]
  omega

theorem Stores.findSlot_eq_some (hmem : (k, v) ∈ a.entries) (hkey : (k == key) = true) :
    ∃ i, m.findSlot key = some i ∧ slotAt m.slots i = .occupied k v := by
  obtain ⟨hpos, d, hd, hpass, hslot⟩ := h.first_match hmem hkey
  have hpow := h.pow hpos
  have hskip := findSlotLoop_skip hpow (bucketFor m.slots.length key) (Nat.zero_le d)
    (by omega : d - 0 ≤ m.slots.length) (fun l _ => hpass l)
  rw [pos_zero (bucketFor_lt hpow key)] at hskip
  obtain ⟨turns, hturns⟩ : ∃ turns, m.slots.length - (d - 0) = turns + 1 :=
    ⟨m.slots.length - d - 1, by omega⟩
  refine ⟨_, ?_, hslot⟩
  rw [findSlot, if_neg hpos, bucketCount, hskip, hturns, findSlotLoop, hslot]
  simp [hkey]

theorem Stores.find (key : K) : m.find key = a.lookup key := by
  cases hlookup : a.lookup key with
  | none => simp [UnorderedMap.find, h.findSlot_eq_none hlookup]
  | some v =>
    obtain ⟨k, hmem, hkey⟩ := FiniteMap.exists_of_lookup hlookup
    obtain ⟨i, hfind, hslot⟩ := h.findSlot_eq_some hmem hkey
    simp [UnorderedMap.find, hfind, valueAt, hslot, Slot.pair]

theorem Stores.contains (key : K) : m.contains key = (a.lookup key).isSome := by
  cases hlookup : a.lookup key with
  | none => simp [UnorderedMap.contains, h.findSlot_eq_none hlookup]
  | some v =>
    obtain ⟨k, hmem, hkey⟩ := FiniteMap.exists_of_lookup hlookup
    obtain ⟨i, hfind, -⟩ := h.findSlot_eq_some hmem hkey
    simp [UnorderedMap.contains, hfind]

theorem Stores.erase (key : K) :
    (m.erase key).2 = (a.lookup key).isSome ∧ Stores (m.erase key).1 (a.erase key) := by
  cases hlookup : a.lookup key with
  | none =>
    have hfind := h.findSlot_eq_none hlookup
    simp only [UnorderedMap.erase, hfind]
    rw [FiniteMap.erase_of_none hlookup]
    exact ⟨rfl, h⟩
  | some v =>
    obtain ⟨k, hmem, hkey⟩ := FiniteMap.exists_of_lookup hlookup
    obtain ⟨i, hfind, hslot⟩ := h.findSlot_eq_some hmem hkey
    simp only [UnorderedMap.erase, hfind]
    refine ⟨rfl, ?_, h.chained.set_deleted (lt_length_of_slotAt_ne (by simp [hslot])), ?_⟩
    · simpa [bucketCount] using h.sized
    · exact FiniteMap.perm_erase ((entries_set_deleted hslot).symm.trans h.entries) hkey

/-- What an insertion that returns hands back: the slot of the finite map's pair, and whether
the key was new. -/
theorem Stores.insertSlot {mem : Memory} {val : V} {idx : Nat} {fresh : Bool}
    (hrun : insertSlot mem m key val = .ok (m', idx, fresh)) : Stores m' (a.insertNew key val) ∧
      (∃ k v, (k == key) = true ∧ slotAt m'.slots idx = .occupied k v ∧
        (a.insertNew key val).lookup key = some v) ∧ fresh = (a.lookup key).isNone := by
  obtain ⟨⟨m₁, slot⟩, hprepare, hrest⟩ := Outcome.bind_eq_ok.mp hrun
  obtain ⟨m₂, hgrow, hprobe⟩ := Outcome.bind_eq_ok.mp hprepare
  obtain ⟨found, hloop, hpair⟩ := Outcome.bind_eq_ok.mp hprobe
  cases hpair
  obtain ⟨h₁, hpos⟩ := h.growthTest hgrow
  have hpow := h₁.pow hpos
  have hstart := bucketFor_lt hpow key
  obtain ⟨idx', fresh'⟩ := slot
  obtain ⟨d, hd, hpass, ⟨hfresh, hempty, e, hed, hidx, hfree⟩ |
    ⟨hfresh, hidx, k, v, hslot, hkey⟩⟩ := prepareLoop_returns hpow hstart hloop
  case inl =>
    subst hfresh hidx
    cases hrest
    have hkeys : a.lookup key = none := by
      by_contra hsome
      obtain ⟨v, hv⟩ := Option.ne_none_iff_exists'.mp hsome
      obtain ⟨k, hmem, hkey⟩ := FiniteMap.exists_of_lookup hv
      obtain ⟨-, d', -, hpass', hslot⟩ := h₁.first_match hmem hkey
      obtain hlt | rfl | hgt := Nat.lt_trichotomy d' d
      · have := (hpass d' hlt).2 k v hslot
        simp [hkey] at this
      · rw [hempty] at hslot
        cases hslot
      · exact (hpass' d hgt).1 hempty
    have hindex := pos_lt (length_pos_of_pow hpow) (bucketFor m₁.slots.length key) e
    have hentries := FiniteMap.insertNew_of_none hkeys val
    have hnew : (a.insertNew key val).lookup key = some val :=
      FiniteMap.lookup_eq_some (by rw [hentries]; simp) BEq.rfl
    refine ⟨⟨?_, ?_, ?_⟩, ⟨key, val, BEq.rfl, ?_, hnew⟩, by rw [hkeys]; rfl⟩
    · simpa [bucketCount, markOccupied] using h₁.sized
    · exact h₁.chained.set_occupied val (by omega) fun l hl => (hpass l (by omega)).1
    · rw [hentries]
      refine (entries_set_occupied hindex hfree key val).trans ?_
      exact (h₁.entries.cons _).trans (List.perm_append_singleton _ _).symm
    · simp only [markOccupied]
      rw [slotAt_set hindex, if_pos rfl]
  case inr =>
    subst hfresh hidx
    cases hrest
    have hmem := h₁.mem hslot
    have hlookup := FiniteMap.lookup_eq_some hmem hkey
    have hsame := FiniteMap.insertNew_of_mem hmem hkey val
    rw [hsame]
    exact ⟨h₁, ⟨k, v, hkey, hslot, hlookup⟩, by rw [hlookup]; rfl⟩

end

/-! `UnorderedMap` refines the finite map its calls define. A map represents a
finite map when its counters are right, its chains are unbroken and its slots
hold the finite map's pairs in some order. -/

open Function
open Outcome (safe_ok)

variable {ι K V : Type}

theorem advanceToOccupied_spec (slots : List (Slot K V)) (index : Nat) (h : index ≤ slots.length) :
    let next := advanceToOccupied slots index
    index ≤ next ∧ next ≤ slots.length ∧ entries (slots.drop next) = entries (slots.drop index) ∧
      (next = slots.length ∨ ∃ k v, slotAt slots next = .occupied k v) := by
  fun_induction advanceToOccupied slots index with
  | case1 index hlt hocc =>
    refine ⟨le_rfl, h, rfl, .inr ?_⟩
    cases hslot : slotAt slots index with
    | occupied k v => exact ⟨k, v, rfl⟩
    | empty => simp [hslot, Slot.isOccupied] at hocc
    | deleted => simp [hslot, Slot.isOccupied] at hocc
  | case2 index hlt hfree ih =>
    obtain ⟨hge, hle, hentries, hstop⟩ := ih (by omega)
    refine ⟨by omega, hle, ?_, hstop⟩
    have hget : slotAt slots index = slots[index] := by simp [slotAt, hlt]
    rw [hentries, List.drop_eq_getElem_cons hlt, ← hget, entries_cons_of_free (by simpa using hfree)]
  | case3 index hge => exact ⟨le_rfl, h, rfl, .inl (by omega)⟩

theorem iterateFrom_eq (slots : List (Slot K V)) (turns index : Nat) (h : index ≤ slots.length)
    (hturns : slots.length - index < turns) :
    iterateFrom slots turns index = entries (slots.drop index) := by
  induction turns generalizing index with
  | zero => omega
  | succ turns ih =>
    obtain ⟨hge, hle, hentries, hstop⟩ := advanceToOccupied_spec slots index h
    rw [iterateFrom, ← hentries]
    generalize advanceToOccupied slots index = next at *
    split
    · next hend => rw [hend, List.drop_length]; rfl
    · next hne =>
      obtain hend | ⟨k, v, hslot⟩ := hstop
      · exact absurd hend hne
      · have hlt : next < slots.length := by omega
        have hget : slotAt slots next = slots[next] := by simp [slotAt, hlt]
        rw [ih (next + 1) (by omega) (by omega), List.drop_eq_getElem_cons hlt, ← hget, hslot]
        rfl

theorem iterate_eq (m : UnorderedMap K V) : m.iterate = entries m.slots := by
  have := iterateFrom_eq m.slots (m.bucketCount + 1) 0 (Nat.zero_le _)
    (by simp [bucketCount])
  simpa [iterate] using this

structure Represents [BEq K] [Hashable K] (m : UnorderedMap K V) (a : FiniteMap K V) : Prop where
  loaded : Loaded m
  chained : Chained m.slots
  entries : (entries m.slots).Perm a.entries

section Lookup

variable [BEq K] [Hashable K]

theorem represents_empty : Represents ({} : UnorderedMap K V) FiniteMap.empty where
  loaded := loaded_default
  chained := chained_of_no_entry fun i => .inl (by simp [slotAt])
  entries := .refl _

theorem Represents.stores {m : UnorderedMap K V} {a : FiniteMap K V} (h : Represents m a) :
    Stores m a :=
  ⟨h.loaded.buckets, h.chained, h.entries⟩

theorem Stores.represents {m : UnorderedMap K V} {a : FiniteMap K V} (h : Stores m a)
    (hm : Loaded m) : Represents m a :=
  ⟨hm, h.chained, h.entries⟩

theorem Represents.size {m : UnorderedMap K V} {a : FiniteMap K V} (h : Represents m a) :
    m.size = a.card := by
  rw [h.loaded.size, ← length_entries, h.entries.length_eq]
  rfl

theorem Represents.clear {m : UnorderedMap K V} {a : FiniteMap K V} (h : Represents m a)
    (hnone : deletedCount m.slots = 0) : Represents m.clear FiniteMap.empty :=
  h.stores.clear.represents (h.loaded.clear hnone)

variable [EquivBEq K]

theorem Represents.storeAt {m : UnorderedMap K V} {a : FiniteMap K V} (h : Represents m a)
    {idx : Nat} {k key : K} {v : V} (hslot : slotAt m.slots idx = .occupied k v)
    (hkey : (k == key) = true) (val : V) : Represents (m.storeAt idx val) (a.replace key val) :=
  (h.stores.storeAt hslot hkey val).represents (h.loaded.storeAt idx val)

variable [LawfulHashable K]

variable {m : UnorderedMap K V} {a : FiniteMap K V}

section

variable (h : Represents m a)
include h

theorem Represents.find (key : K) : m.find key = a.lookup key :=
  h.stores.find key

theorem Represents.contains (key : K) : m.contains key = (a.lookup key).isSome :=
  h.stores.contains key

theorem Represents.erase (key : K) :
    (m.erase key).2 = (a.lookup key).isSome ∧ Represents (m.erase key).1 (a.erase key) :=
  ⟨(h.stores.erase key).1, (h.stores.erase key).2.represents (h.loaded.erase key)⟩

theorem Represents.insertSlot (mem : Memory) (key : K) (val : V) :
    (insertSlot mem m key val).Safe (fun r => Represents r.1 (a.insertNew key val) ∧
      (∃ k v, (k == key) = true ∧ slotAt r.1.slots r.2.1 = .occupied k v ∧
        (a.insertNew key val).lookup key = some v) ∧ r.2.2 = (a.lookup key).isNone) := by
  obtain hfatal | ⟨⟨m', idx, fresh⟩, hrun, hloaded⟩ := insertSlot_safe mem h.loaded key val
  · exact .inl hfatal
  · obtain ⟨hstores, hslot, hfresh⟩ := h.stores.insertSlot hrun
    rw [hrun]
    exact safe_ok ⟨hstores.represents hloaded, hslot, hfresh⟩

theorem Represents.subscript [Inhabited V] (mem : Memory) (key : K) :
    (subscript mem m key).Safe (fun r => Represents r.1 (a.insertNew key default) ∧
      ∃ k v, (k == key) = true ∧ slotAt r.1.slots r.2 = .occupied k v ∧
        (a.insertNew key default).lookup key = some v) :=
  (h.insertSlot mem key default).bind fun _ hr => safe_ok ⟨hr.1, hr.2.1⟩

end

theorem Represents.insertAll (mem : Memory) (entries : List (K × V)) (h : Represents m a) :
    (insertAll mem m entries).Safe (fun m' => Represents m' (a.insertAll entries)) := by
  induction entries generalizing m a with
  | nil => exact safe_ok h
  | cons entry rest ih => exact (h.insertSlot mem entry.1 entry.2).bind fun _ hr => ih hr.1

theorem ofList_represents (mem : Memory) (entries : List (K × V)) :
    (ofList mem entries).Safe (fun m' => Represents m' (FiniteMap.empty.insertAll entries)) := by
  refine (reserve_safe mem loaded_default entries.length).bind fun m' hm => ?_
  have h : Represents m' (FiniteMap.empty : FiniteMap K V) :=
    ⟨hm.1, hm.2.2 represents_empty.chained, hm.2.1⟩
  exact h.insertAll mem entries

end Lookup

def specExec [DecidableEq ι] [BEq K] [Inhabited V] (a : ι → FiniteMap K V) :
    Call ι K V → (ι → FiniteMap K V) × Reply V
  | .construct x => (Function.update a x FiniteMap.empty, .done)
  | .constructList x entries =>
    (Function.update a x (FiniteMap.empty.insertAll entries), .done)
  | .copyConstruct x y => (Function.update a x (a y), .done)
  | .moveConstruct x y =>
    (Function.update (Function.update a x (a y)) y FiniteMap.empty, .done)
  | .copyAssign x y => (Function.update a x (a y), .done)
  | .moveAssign x y =>
    if x = y then (a, .done)
    else (Function.update (Function.update a x (a y)) y FiniteMap.empty, .done)
  | .subscript x key =>
    (Function.update a x ((a x).insertNew key default),
      .pointer (((a x).insertNew key default).lookup key))
  | .subscriptStore x key val =>
    (Function.update a x (((a x).insertNew key default).replace key val), .done)
  | .find x key => (a, .pointer ((a x).lookup key))
  | .contains x key => (a, .flag ((a x).lookup key).isSome)
  | .insert x key val | .emplace x key val | .tryEmplace x key val =>
    (Function.update a x ((a x).insertNew key val),
      .inserted (((a x).insertNew key val).lookup key) ((a x).lookup key).isNone)
  | .erase x key => (Function.update a x ((a x).erase key), .flag ((a x).lookup key).isSome)
  | .clear x => (Function.update a x FiniteMap.empty, .done)
  | .reserve _ _ => (a, .done)

/-- A call other than `clear`. -/
def IsNotClear (call : Memory × Call ι K V) : Prop := ∀ x, call.2 ≠ .clear x

theorem clearsNoTombstone_of_isNotClear {w : World ι K V} {call : Memory × Call ι K V}
    (h : IsNotClear call) : ClearsNoTombstone w call := by
  unfold ClearsNoTombstone
  split
  · next x hx => exact absurd hx (h x)
  · trivial

section Runs

variable [DecidableEq ι] [BEq K] [Hashable K]

def Corresponds (w : World ι K V) (a : ι → FiniteMap K V) : Prop := ∀ x, Represents (w x) (a x)

theorem Corresponds.update {w : World ι K V} {a : ι → FiniteMap K V} (h : Corresponds w a) (x : ι)
    {m : UnorderedMap K V} {b : FiniteMap K V} (hm : Represents m b) :
    Corresponds (Function.update w x m) (Function.update a x b) := by
  intro y
  by_cases hy : y = x
  · subst hy
    rw [update_self, update_self]
    exact hm
  · rw [update_of_ne hy, update_of_ne hy]
    exact h y

variable [EquivBEq K] [LawfulHashable K]

theorem insertInto_corresponds {w : World ι K V} {a : ι → FiniteMap K V} (h : Corresponds w a)
    (mem : Memory) (x : ι) (key : K) (val : V) :
    (insertInto w x (insertSlot mem (w x) key val)).Safe (fun r =>
      r.2 = .inserted (((a x).insertNew key val).lookup key) ((a x).lookup key).isNone ∧
      Corresponds r.1 (Function.update a x ((a x).insertNew key val))) := by
  refine ((h x).insertSlot mem key val).bind ?_
  rintro ⟨m, idx, fresh⟩ ⟨hm, ⟨k, v, -, hslot, hlookup⟩, hfresh⟩
  refine safe_ok ⟨?_, h.update x hm⟩
  simp only at hslot hfresh
  simp [valueAt, hslot, Slot.pair, hlookup, hfresh]

variable [Inhabited V]

theorem exec_corresponds {w : World ι K V} {a : ι → FiniteMap K V} (h : Corresponds w a)
    (call : Memory × Call ι K V) (hclear : ClearsNoTombstone w call) : (exec w call).Safe (fun r =>
      r.2 = (specExec a call.2).2 ∧ Corresponds r.1 (specExec a call.2).1) := by
  have copied : ∀ mem x y, (copy mem (w y)).Safe (fun m =>
      Corresponds (Function.update w x m) (Function.update a x (a y))) := fun mem x y =>
    (copy_safe mem (h y).loaded).mono fun m hm =>
      h.update x ⟨hm.1, hm.2.2, hm.2.1.trans (h y).entries⟩
  have stolen : ∀ x y, Corresponds (Function.update (Function.update w x (w y)) y movedFrom)
      (Function.update (Function.update a x (a y)) y FiniteMap.empty) := fun x y =>
    (h.update x (h y)).update y represents_empty
  obtain ⟨mem, call⟩ := call
  cases call with
  | construct x => exact safe_ok ⟨rfl, h.update x represents_empty⟩
  | constructList x entries =>
    exact (ofList_represents mem entries).bind fun m hm => safe_ok ⟨rfl, h.update x hm⟩
  | copyConstruct x y => exact (copied mem x y).bind fun m hm => safe_ok ⟨rfl, hm⟩
  | moveConstruct x y => exact safe_ok ⟨rfl, stolen x y⟩
  | copyAssign x y =>
    simp only [exec]
    split
    · next hxy =>
      subst hxy
      refine safe_ok ⟨rfl, ?_⟩
      rw [specExec, update_eq_self]
      exact h
    · exact (copied mem x y).bind fun m hm => safe_ok ⟨rfl, hm⟩
  | moveAssign x y =>
    simp only [exec, specExec]
    split
    · exact safe_ok ⟨rfl, h⟩
    · exact safe_ok ⟨rfl, stolen x y⟩
  | subscript x key =>
    refine ((h x).subscript mem key).bind ?_
    rintro ⟨m, idx⟩ ⟨hm, k, v, -, hslot, hlookup⟩
    exact safe_ok ⟨by simp_all [specExec, valueAt, Slot.pair], h.update x hm⟩
  | subscriptStore x key val =>
    refine ((h x).subscript mem key).bind ?_
    rintro ⟨m, idx⟩ ⟨hm, k, v, hkey, hslot, -⟩
    exact safe_ok ⟨rfl, h.update x (hm.storeAt hslot hkey val)⟩
  | find x key => exact safe_ok ⟨by rw [(h x).find]; rfl, h⟩
  | contains x key => exact safe_ok ⟨by rw [(h x).contains]; rfl, h⟩
  | insert x key val => exact insertInto_corresponds h mem x key val
  | emplace x key val => exact insertInto_corresponds h mem x key val
  | tryEmplace x key val => exact insertInto_corresponds h mem x key val
  | erase x key =>
    obtain ⟨hflag, hm⟩ := (h x).erase key
    exact safe_ok ⟨by rw [hflag]; rfl, h.update x hm⟩
  | clear x => exact safe_ok ⟨rfl, h.update x ((h x).clear hclear)⟩
  | reserve x count =>
    refine (reserve_safe mem (h x).loaded count).bind fun m hm => safe_ok ⟨rfl, ?_⟩
    have := h.update x
      ⟨hm.1, hm.2.2 (h x).chained, hm.2.1.trans (h x).entries⟩
    rwa [update_eq_self] at this

/-- In every run without `clear`, no call hangs, every reply is the one the
finite maps give, `size` is the cardinality and a traversal visits exactly the
finite map's pairs, whose keys are distinct. -/
theorem run_refines_finiteMap (calls : List (Memory × Call ι K V))
    (hclear : ∀ call ∈ calls, IsNotClear call) :
    run initial calls ≠ .error .hang ∧ ∀ w replies, run initial calls = .ok (w, replies) →
      let spec := Calls.total (fun a (call : Memory × Call ι K V) => specExec a call.2)
        (fun _ => FiniteMap.empty) calls
      replies = spec.2 ∧ ∀ x, (w x).size = (spec.1 x).card ∧
        (w x).iterate.Perm (spec.1 x).entries := by
  have hguard : Calls.Guarded exec ClearsNoTombstone (initial : World ι K V) calls :=
    Calls.guarded_of_forall
      (fun call hmem _ => clearsNoTombstone_of_isNotClear (hclear call hmem)) initial
  refine ⟨(counters_safe calls hguard).ne_hang, fun w replies h => ?_⟩
  obtain ⟨hreplies, hfinal⟩ := Calls.run_simulates Corresponds
    (fun w a call w' r hw hg hx => (exec_corresponds hw call hg).of_eq_ok hx)
    (fun _ => represents_empty) hguard h
  exact ⟨hreplies, fun x => ⟨(hfinal x).size, iterate_eq (w x) ▸ (hfinal x).entries⟩⟩

end Runs

section Example

def colliding : List (Memory × Call Unit Nat Nat) :=
  [onTable (.insert () 1 10), onTable (.emplace () 17 20), onTable (.erase () 1),
    onTable (.insert () 17 30), onTable (.subscript () 33), onTable (.erase () 5),
    onTable (.find () 17)]

theorem run_refines_finiteMap_colliding :
    ∃ w, run initial colliding = .ok (w, [.inserted (some 10) true, .inserted (some 20) true,
      .flag true, .inserted (some 20) false, .pointer (some 0), .flag false, .pointer (some 20)]) ∧
      (w ()).size = 2 ∧ (w ()).iterate.Perm [(17, 20), (33, 0)] := by
  have hclear : ∀ call ∈ colliding, IsNotClear call := by
    simp [colliding, IsNotClear, onTable]
  have hrun := (run_refines_finiteMap colliding hclear).2 _ _ rfl
  exact ⟨_, rfl, hrun.2 ()⟩

end Example

end Equilibrium.UnorderedMap
